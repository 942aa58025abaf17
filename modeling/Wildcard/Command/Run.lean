import Wildcard.Command.Arguments
import Wildcard.Config.Settings

/-!
# Running the command

What the command writes and how it ends, given its arguments and the world that it reads: its
environment, the files and standard input.
-/

namespace Wildcard
namespace Command

structure World where
  env : Environment
  files : Bytes → Option Bytes
  stdin : Bytes

structure Outcome where
  status : Nat
  out : Bytes
  err : Bytes
  deriving DecidableEq, Repr

def usage : Bytes := Bytes.ascii <|
  "Usage: wildrex [options] PATTERN [FILE...]\n" ++
  "  -e, --exact           whole line must match (default)\n" ++
  "  -p, --partial         pattern may match anywhere in the line\n" ++
  "  -o, --only-matching   print each match instead of the line\n" ++
  "  -c, --count           print the number of selected lines\n" ++
  "  -v, --invert-match    select lines that do not match\n" ++
  "  -n, --line-number     prefix output with line numbers\n" ++
  "      --regex           print the equivalent regular expression and exit\n" ++
  "      --sql             same, as a quoted SQL literal\n" ++
  "      --unknown C       single-character wildcard (default '?')\n" ++
  "      --anything C      multi-character wildcard (default '*')\n" ++
  "      --config PATH     read settings from PATH\n" ++
  "      --verbose         dump the compiled pattern to stderr\n" ++
  "  -h, --help            show this help\n" ++
  "Exit status: 0 if a line was selected, 1 if none, 2 on error.\n"

def complain (text : Bytes) : Bytes := Bytes.ascii "wildrex: " ++ text ++ [Bytes.newline]

def Refusal.outcome : Refusal → Outcome
  | .help => ⟨0, usage, []⟩
  | .operandNotOneByte option =>
    ⟨2, [], complain (option ++ Bytes.ascii " expects a single character")⟩
  | .unknownOption option => ⟨2, [], complain (Bytes.ascii "unknown option " ++ option) ++ usage⟩

/-- Options stand above every other source of settings. -/
def Options.settings (o : Options) (resolved : Config.Settings) : Config.Settings where
  tokens :=
    { unknown := o.unknown.getD resolved.tokens.unknown
      anything := o.anything.getD resolved.tokens.anything }
  mode := o.mode.getD resolved.mode
  dialect := if o.sql then .sqlQuoted else resolved.dialect
  verbose := o.verbose || resolved.verbose

def quoted (text : Bytes) : Bytes := [34] ++ Bytes.beforeNul text ++ [34]

def unknownCount (n : Nat) : Bytes := Bytes.ascii "[" ++ Bytes.decimal n ++ Bytes.ascii "?]"

def describeTarget (t : Target) : Bytes :=
  complain <| Bytes.ascii "  " ++ unknownCount t.leading ++ Bytes.ascii " " ++ quoted t.literal ++
    Bytes.ascii " " ++ unknownCount t.trailing ++ Bytes.ascii " search=" ++ quoted t.run.bytes ++
    Bytes.ascii "@" ++ Bytes.decimal t.run.start

def describe (p : Pattern) : Bytes :=
  complain (Bytes.ascii "pattern " ++ quoted p.format ++ Bytes.ascii " mode=" ++ p.mode.name ++
    Bytes.ascii " anchors=" ++ Bytes.ascii (if p.anchors.atStart then "^" else "-") ++
    Bytes.ascii (if p.anchors.atEnd then "$" else "-") ++ Bytes.ascii " min_chars=" ++
    Bytes.decimal p.minWidth ++ Bytes.ascii " sections=" ++ Bytes.decimal p.targets.length) ++
    p.targets.flatMap describeTarget

structure Tally where
  selected : Nat := 0
  unreadable : Bool := false

namespace Tally

/-- A file that cannot be read is reported and does not keep the later ones from being read. -/
def addFile (p : Pattern) (spec : LineFilter.Spec) (files : Bytes → Option Bytes)
    (labelled : Bool) (tally : Tally) (path : Bytes) : Printing Tally :=
  match files path with
  | none => do
    Printing.warn (complain (path ++ Bytes.ascii ": cannot open"))
    return { tally with unreadable := true }
  | some input => do
    let selected ← LineFilter.print p spec (if labelled then path else []) input
    return { tally with selected := tally.selected + selected }

def status (tally : Tally) : Nat :=
  if tally.unreadable then 2 else if tally.selected > 0 then 0 else 1

end Tally

/-- Filter standard input if there are no files, else the files. Only with two files or more do
the lines carry the path they come from. -/
def filterInputs (p : Pattern) (spec : LineFilter.Spec) (world : World) (paths : List Bytes) :
    Printing Tally :=
  if paths.isEmpty then do return { selected := ← LineFilter.print p spec [] world.stdin }
  else paths.foldlM (Tally.addFile p spec world.files (paths.length > 1)) {}

/-- Everything after the settings are known: either the pattern is shown as a regular expression,
or the inputs are filtered. -/
def execute (o : Options) (settings : Config.Settings) (world : World) (format : Bytes)
    (paths : List Bytes) : Outcome :=
  match Pattern.compile format settings.mode settings.tokens with
  | .error e => ⟨2, [], complain (Bytes.ascii "Pattern: " ++ e.message)⟩
  | .ok p =>
    let description := if settings.verbose then describe p else []
    if o.regex then ⟨0, Regex.ofPattern settings.dialect p ++ [Bytes.newline], description⟩
    else
      let printed := filterInputs p o.filter world paths
      match printed.result with
      | .error e =>
        ⟨2, printed.out,
          description ++ printed.err ++ complain (Bytes.ascii "Match: " ++ e.message)⟩
      | .ok tally => ⟨tally.status, printed.out, description ++ printed.err⟩

def runOptions (o : Options) (world : World) : Outcome :=
  match o.positional with
  | [] => ⟨2, [], usage⟩
  | format :: paths =>
    let (resolved, notices) := Config.Settings.load o.configPath world.env world.files
    let outcome := execute o (o.settings resolved) world format paths
    { outcome with err := notices.flatMap Config.Notice.text ++ outcome.err }

def run (args : List Bytes) (world : World) : Outcome :=
  match readItems args with
  | .error refusal => refusal.outcome
  | .ok items => runOptions (Options.ofItems items) world

end Command
end Wildcard
