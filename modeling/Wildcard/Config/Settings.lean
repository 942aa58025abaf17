import Wildcard.Config.Document
import Wildcard.Config.Environment
import Wildcard.Config.Spelling

/-!
# Settings

Each setting is taken from the first source that has a readable value for it: the configuration
document, then the environment, then the default. Values that cannot be read are reported.
-/

namespace Wildcard
namespace Config

structure Settings where
  tokens : Tokens := {}
  mode : Mode := .whole
  dialect : Dialect := .plain
  verbose : Bool := false
  deriving DecidableEq, Repr

inductive Source
  | entry (heading key : Bytes)
  | envName (name : Bytes)
  deriving DecidableEq, Repr

inductive Notice
  | unreadable (path : Bytes)
  | badLine (path : Bytes) (number : Nat)
  | ignored (source : Source) (text : Bytes)
  deriving DecidableEq, Repr

namespace Notice

/-- Texts from outside are shown up to their first NUL. -/
def text : Notice → Bytes
  | .unreadable path =>
    Bytes.ascii "wildrex: Config: cannot read " ++ Bytes.beforeNul path ++
      Bytes.ascii ", using defaults\n"
  | .badLine path number =>
    Bytes.ascii "wildrex: Config: " ++ Bytes.beforeNul path ++ Bytes.ascii ":" ++
      Bytes.decimal number ++ Bytes.ascii ": not a key = value line\n"
  | .ignored (.entry heading key) value =>
    Bytes.ascii "wildrex: Config: invalid [" ++ heading ++ Bytes.ascii "] " ++ key ++
      Bytes.ascii " = \"" ++ Bytes.beforeNul value ++ Bytes.ascii "\", ignored\n"
  | .ignored (.envName name) value =>
    Bytes.ascii "wildrex: Config: invalid " ++ name ++ Bytes.ascii "=\"" ++
      Bytes.beforeNul value ++ Bytes.ascii "\", ignored\n"

end Notice

/-- A setting: where it is written, how it is read, and what it is otherwise. -/
structure Field (α : Type) where
  heading : Bytes
  key : Bytes
  envName : Bytes
  read : Bytes → Option α
  fallback : α

namespace Field

/-- The texts given for a setting, the one that decides first. -/
def candidates {α : Type} (f : Field α) (doc : Option Document) (env : Environment) :
    List (Source × Bytes) :=
  ((doc.bind (·.get? f.heading f.key)).map (Source.entry f.heading f.key, ·)).toList ++
    ((env.lookup f.envName).map (Source.envName f.envName, ·)).toList

/-- The first readable text decides; those before it are reported. -/
def decideOn {α : Type} (f : Field α) : List (Source × Bytes) → α × List Notice
  | [] => (f.fallback, [])
  | (source, text) :: rest =>
    match f.read text with
    | some value => (value, [])
    | none => ((f.decideOn rest).1, .ignored source text :: (f.decideOn rest).2)

def resolve {α : Type} (f : Field α) (doc : Option Document) (env : Environment) :
    α × List Notice :=
  f.decideOn (f.candidates doc env)

end Field

namespace Settings

def unknownField : Field UInt8 where
  heading := Bytes.ascii "pattern"
  key := Bytes.ascii "unknown_token"
  envName := Bytes.ascii "WILDREX_UNKNOWN"
  read := Tokens.readToken
  fallback := ({} : Tokens).unknown

def anythingField : Field UInt8 where
  heading := Bytes.ascii "pattern"
  key := Bytes.ascii "anything_token"
  envName := Bytes.ascii "WILDREX_ANYTHING"
  read := Tokens.readToken
  fallback := ({} : Tokens).anything

def modeField : Field Mode where
  heading := Bytes.ascii "pattern"
  key := Bytes.ascii "mode"
  envName := Bytes.ascii "WILDREX_MODE"
  read := Mode.read
  fallback := .whole

def dialectField : Field Dialect where
  heading := Bytes.ascii "regex"
  key := Bytes.ascii "dialect"
  envName := Bytes.ascii "WILDREX_DIALECT"
  read := Dialect.read
  fallback := .plain

/-- An entry for verbosity decides even if it cannot be read, and then means no. -/
def verbosity (doc : Option Document) (env : Environment) : Bool :=
  match doc.bind (·.get? (Bytes.ascii "output") (Bytes.ascii "verbose")) with
  | some text => (Document.readTruth text).getD false
  | none => env.flag (Bytes.ascii "WILDREX_VERBOSE") false

def resolve (doc : Option Document) (env : Environment) : Settings × List Notice :=
  let unknown := unknownField.resolve doc env
  let anything := anythingField.resolve doc env
  let mode := modeField.resolve doc env
  let dialect := dialectField.resolve doc env
  ({ tokens := ⟨unknown.1, anything.1⟩
     mode := mode.1
     dialect := dialect.1
     verbose := verbosity doc env },
    unknown.2 ++ anything.2 ++ mode.2 ++ dialect.2)

def documentPath (path : Bytes) (env : Environment) : Bytes :=
  if path.isEmpty then env.configPath else path

/-- The settings with the document at a path, or at the usual place if the path is empty. Only a
path that was asked for is missed when it cannot be read. -/
def load (path : Bytes) (env : Environment) (files : Bytes → Option Bytes) :
    Settings × List Notice :=
  let file := documentPath path env
  match if file.isEmpty then none else files (Bytes.beforeNul file) with
  | some text =>
    let doc := Document.ofText text
    let (settings, notices) := resolve (some doc) env
    (settings, doc.badLines.map (.badLine file) ++ notices)
  | none =>
    let (settings, notices) := resolve none env
    (settings, (if path.isEmpty then [] else [.unreadable file]) ++ notices)

end Settings
end Config
end Wildcard
