import Wildcard.LineFilter
import Wildcard.Config.Spelling

/-!
# Arguments

An argument list is read as a list of items: flags, options with their operand, and positional
arguments. Reading stops at a request for help and at the first argument that is refused.
-/

namespace Wildcard
namespace Command

inductive Item
  | mode (mode : Mode)
  | onlyMatching
  | countOnly
  | invert
  | lineNumbers
  | regex
  | sql
  | verbose
  | unknown (token : UInt8)
  | anything (token : UInt8)
  | config (path : Bytes)
  | positional (argument : Bytes)
  deriving DecidableEq, Repr

inductive Refusal
  | help
  | operandNotOneByte (option : Bytes)
  | unknownOption (option : Bytes)
  deriving DecidableEq, Repr

def flags : List (Bytes × Item) :=
  [("-e", .mode .whole), ("--exact", .mode .whole), ("-p", .mode .anywhere),
    ("--partial", .mode .anywhere), ("-o", .onlyMatching), ("--only-matching", .onlyMatching),
    ("-c", .countOnly), ("--count", .countOnly), ("-v", .invert), ("--invert-match", .invert),
    ("-n", .lineNumbers), ("--line-number", .lineNumbers), ("--regex", .regex), ("--sql", .sql),
    ("--verbose", .verbose)].map fun (text, item) => (Bytes.ascii text, item)

def unknownTokenOption : Bytes := Bytes.ascii "--unknown"
def anythingTokenOption : Bytes := Bytes.ascii "--anything"
def configOption : Bytes := Bytes.ascii "--config"
def helpOptions : List Bytes := [Bytes.ascii "-h", Bytes.ascii "--help"]

/-- After this argument no other is an option. -/
def endOfOptions : Bytes := Bytes.ascii "--"

def looksLikeOption : Bytes → Bool
  | 45 :: _ :: _ => true
  | _ => false

def tokenOption (option operand : Bytes) : Except Refusal Item :=
  match Tokens.readToken operand with
  | some b => .ok (if option = unknownTokenOption then .unknown b else .anything b)
  | none => .error (.operandNotOneByte option)

/-- An argument that is read without looking at the next one. -/
def single (arg : Bytes) : Except Refusal Item :=
  match flags.lookup arg with
  | some item => .ok item
  | none =>
    if helpOptions.contains arg then .error .help
    else if looksLikeOption arg then .error (.unknownOption arg)
    else .ok (.positional arg)

def isTokenOption (arg : Bytes) : Bool := arg == unknownTokenOption || arg == anythingTokenOption

def readItems : List Bytes → Except Refusal (List Item)
  | [] => .ok []
  | [arg] =>
    if arg = endOfOptions then .ok []
    else if isTokenOption arg then .error (.operandNotOneByte arg)
    else (single arg).map ([·])
  | arg :: operand :: rest =>
    if arg = endOfOptions then .ok ((operand :: rest).map .positional)
    else if isTokenOption arg then do
      let item ← tokenOption arg operand
      (readItems rest).map (item :: ·)
    else if arg = configOption then (readItems rest).map (.config operand :: ·)
    else do
      let item ← single arg
      (readItems (operand :: rest)).map (item :: ·)

/-- What the items ask for. A later mode, token or path replaces an earlier one. -/
structure Options where
  mode : Option Mode := none
  unknown : Option UInt8 := none
  anything : Option UInt8 := none
  sql : Bool := false
  regex : Bool := false
  verbose : Bool := false
  configPath : Bytes := []
  filter : LineFilter.Spec := {}
  positional : List Bytes := []
  deriving DecidableEq, Repr

namespace Options

def add (o : Options) : Item → Options
  | .mode m => { o with mode := some m }
  | .onlyMatching => { o with filter := { o.filter with onlyMatching := true } }
  | .countOnly => { o with filter := { o.filter with countOnly := true } }
  | .invert => { o with filter := { o.filter with invert := true } }
  | .lineNumbers => { o with filter := { o.filter with lineNumbers := true } }
  | .regex => { o with regex := true }
  | .sql => { o with regex := true, sql := true }
  | .verbose => { o with verbose := true }
  | .unknown b => { o with unknown := some b }
  | .anything b => { o with anything := some b }
  | .config path => { o with configPath := path }
  | .positional arg => { o with positional := o.positional ++ [arg] }

def ofItems (items : List Item) : Options := items.foldl add {}

end Options
end Command
end Wildcard
