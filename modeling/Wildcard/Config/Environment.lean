import Wildcard.Bytes

/-!
# Environment

Variables are looked up by name. A variable of the tool may carry its name in capitals or in small
letters, and an empty value counts as none.
-/

namespace Wildcard

abbrev Environment := Bytes → Option Bytes

namespace Environment

/-- The environment that holds each pair as one text `name=value`: a sought name is found where
the text starts with it and an equals sign. Names end at their first NUL. -/
def ofPairs (pairs : List (Bytes × Bytes)) : Environment := fun name =>
  let sought := Bytes.beforeNul name ++ [61]
  pairs.findSome? fun (n, value) =>
    let held := n ++ 61 :: value
    if sought.isPrefixOf held then some (held.drop sought.length) else none

def nonEmpty (env : Environment) (name : Bytes) : Option Bytes := (env name).filter (· ≠ [])

def capitals : Bytes := Bytes.ascii "WILDREX_"
def smalls : Bytes := Bytes.ascii "wildrex_"

/-- The other way to write the name of a variable of the tool. -/
def otherName (name : Bytes) : Option Bytes :=
  if capitals.isPrefixOf name then some (smalls ++ name.drop capitals.length)
  else if smalls.isPrefixOf name then some (capitals ++ name.drop smalls.length)
  else none

def lookup (env : Environment) (name : Bytes) : Option Bytes :=
  (env.nonEmpty name).or ((otherName name).bind env.nonEmpty)

/-- Flags are on unless their text begins like a zero, a false or a no. -/
def flag (env : Environment) (name : Bytes) (fallback : Bool) : Bool :=
  match env.lookup name with
  | some (b :: _) => !(Bytes.ascii "0fFnN").contains b
  | _ => fallback

/-- Where the configuration is looked for when no path is given; empty if nowhere. -/
def configPath (env : Environment) : Bytes :=
  match env.nonEmpty (Bytes.ascii "XDG_CONFIG_HOME") with
  | some dir => dir ++ Bytes.ascii "/wildrex/config.toml"
  | none =>
    match env.nonEmpty (Bytes.ascii "HOME") with
    | some dir => dir ++ Bytes.ascii "/.config/wildrex/config.toml"
    | none => []

end Environment
end Wildcard
