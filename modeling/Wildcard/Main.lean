import Wildcard.Command.Run

/-!
# Command line

The program around `Wildcard.Command.run`: it gathers what a run reads and writes what it answers.
-/

namespace Wildcard
namespace Main

def ofText (s : String) : Bytes := s.toUTF8.toList

def toText? (b : Bytes) : Option String := String.fromUTF8? ⟨b.toArray⟩

def variableNames : List String :=
  ["UNKNOWN", "ANYTHING", "MODE", "DIALECT", "VERBOSE"].flatMap (fun n =>
    ["WILDREX_" ++ n, "wildrex_" ++ n]) ++ ["XDG_CONFIG_HOME", "HOME"]

def environment : IO Environment := do
  let found ← variableNames.filterMapM fun name => do
    return (← IO.getEnv name).map fun value => (ofText name, ofText value)
  return Environment.ofPairs found

def fileText (path : Bytes) : IO (Option Bytes) := do
  let some path := toText? path | return none
  try
    return some (← IO.FS.readBinFile path).toList
  catch _ => return none

/-- What a run with these arguments reads: files by their paths, and whether standard input. -/
def inputs (args : List Bytes) (env : Environment) : List Bytes × Bool :=
  match Command.readItems args with
  | .error _ => ([], false)
  | .ok items =>
    let o := Command.Options.ofItems items
    let config := Config.Settings.documentPath o.configPath env
    match o.positional with
    | [] => ([], false)
    | [_] => ([config], !o.regex)
    | _ :: paths => (if o.regex then [config] else config :: paths, false)

def world (args : List Bytes) : IO Command.World := do
  let env ← environment
  let (paths, wantsStdin) := inputs args env
  let files ← paths.filterMapM fun path => do
    return (← fileText path).map ((path, ·))
  let stdin ← if wantsStdin then (·.toList) <$> (← IO.getStdin).readBinToEnd else pure []
  return { env := env, files := fun path => files.lookup path, stdin := stdin }

end Main
end Wildcard

def main (args : List String) : IO UInt32 := do
  let args := args.map Wildcard.Main.ofText
  let outcome := Wildcard.Command.run args (← Wildcard.Main.world args)
  (← IO.getStdout).write ⟨outcome.out.toArray⟩
  (← IO.getStderr).write ⟨outcome.err.toArray⟩
  return outcome.status.toUInt32
