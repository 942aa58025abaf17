import Wildcard.Regex

/-!
# Spelling of settings

The words that settings are written with. Modes and dialects are read in any case of their letters
and have one name each by which they are shown.
-/

namespace Wildcard

namespace Mode

def name : Mode → Bytes
  | .whole => Bytes.ascii "exact"
  | .anywhere => Bytes.ascii "partial"

def wholeWords : List Bytes := ["exact", "exactmatch", "full"].map Bytes.ascii
def anywhereWords : List Bytes := ["partial", "substring", "like"].map Bytes.ascii

def read (text : Bytes) : Option Mode :=
  if wholeWords.contains (Bytes.lower text) then some .whole
  else if anywhereWords.contains (Bytes.lower text) then some .anywhere
  else none

@[simp] theorem read_name (m : Mode) : read m.name = some m := by cases m <;> decide

end Mode

namespace Dialect

def name : Dialect → Bytes
  | .plain => Bytes.ascii "standard"
  | .sqlQuoted => Bytes.ascii "sql"

def plainWords : List Bytes := ["standard", "regex"].map Bytes.ascii
def quotedWords : List Bytes := ["sql", "sqlquoted"].map Bytes.ascii

def read (text : Bytes) : Option Dialect :=
  if plainWords.contains (Bytes.lower text) then some .plain
  else if quotedWords.contains (Bytes.lower text) then some .sqlQuoted
  else none

@[simp] theorem read_name (d : Dialect) : read d.name = some d := by cases d <;> decide

end Dialect

namespace Tokens

def readToken : Bytes → Option UInt8
  | [b] => some b
  | _ => none

end Tokens
end Wildcard
