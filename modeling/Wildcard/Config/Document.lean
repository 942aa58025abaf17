import Wildcard.Bytes.Lines
import Wildcard.Config.Line

/-!
# Configuration documents

The entries of a document, kept under their headings in the order in which they first appear, and
the numbers of the lines that could not be read. An entry that is written again is replaced, and a
heading that appears again is taken up again.
-/

namespace Wildcard
namespace Config

/-- Change what is kept under a name, at the end if there is nothing yet. -/
def revise {α : Type} (name : Bytes) (change : Option α → α) :
    List (Bytes × α) → List (Bytes × α)
  | [] => [(name, change none)]
  | (n, a) :: rest =>
    if n = name then (n, change (some a)) :: rest else (n, a) :: revise name change rest

theorem lookup_revise {α : Type} (name sought : Bytes) (change : Option α → α)
    (table : List (Bytes × α)) :
    (revise name change table).lookup sought =
      if sought = name then some (change (table.lookup name)) else table.lookup sought := by
  induction table with
  | nil =>
    by_cases h : sought = name
    · simp [revise, h]
    · have hs : (sought == name) = false := by simpa using h
      simp [revise, List.lookup_cons, h, hs]
  | cons entry rest ih =>
    obtain ⟨n, a⟩ := entry
    by_cases hn : n = name
    · subst hn
      by_cases h : sought = n
      · simp [revise, h]
      · have hs : (sought == n) = false := by simpa using h
        simp [revise, List.lookup_cons, h, hs]
    · have hm : (name == n) = false := by simpa using Ne.symm hn
      by_cases h : sought = n
      · subst h
        simp [revise, hn]
      · have hs : (sought == n) = false := by simpa using h
        simp [revise, hn, List.lookup_cons, hs, hm, ih]

abbrev Entries := List (Bytes × Bytes)

structure Document where
  tables : List (Bytes × Entries) := []
  badLines : List Nat := []
  deriving DecidableEq, Repr

namespace Document

def ensure (heading : Bytes) (tables : List (Bytes × Entries)) : List (Bytes × Entries) :=
  revise heading (·.getD []) tables

def put (heading key value : Bytes) (tables : List (Bytes × Entries)) : List (Bytes × Entries) :=
  revise heading (fun entries => revise key (fun _ => value) (entries.getD [])) tables

def enter : Bytes → List (Bytes × Entries) → List Line → List (Bytes × Entries)
  | _, tables, [] => tables
  | heading, tables, .blank :: rest => enter heading tables rest
  | _, tables, .heading name :: rest => enter name (ensure name tables) rest
  | heading, tables, .assignment key value :: rest => enter heading (put heading key value tables) rest
  | heading, tables, .bad :: rest => enter heading tables rest

def badNumbers (ls : List Line) : List Nat :=
  (ls.zipIdx 1).filterMap fun (line, number) => if line = .bad then some number else none

/-- Entries before the first heading stand under the empty heading. -/
def ofLines (ls : List Line) : Document := ⟨enter [] [] ls, badNumbers ls⟩

def ofText (text : Bytes) : Document := ofLines ((Bytes.lines text).map Line.ofText)

/-- Read the document of a file, and keep the old one if there is no such file. -/
def load (d : Document) (file : Option Bytes) : Document × Bool :=
  match file with
  | some text => (ofText text, true)
  | none => (d, false)

def get? (d : Document) (heading key : Bytes) : Option Bytes :=
  (d.tables.lookup heading).bind fun entries => entries.lookup key

def has (d : Document) (heading key : Bytes) : Bool := (d.get? heading key).isSome

def getString (d : Document) (heading key fallback : Bytes) : Bytes :=
  (d.get? heading key).getD fallback

def readTruth (text : Bytes) : Option Bool :=
  if [Bytes.ascii "true", Bytes.ascii "True", Bytes.ascii "TRUE", Bytes.ascii "1"].contains text then
    some true
  else if [Bytes.ascii "false", Bytes.ascii "False", Bytes.ascii "FALSE",
      Bytes.ascii "0"].contains text then
    some false
  else none

def getTruth (d : Document) (heading key : Bytes) (fallback : Bool) : Bool :=
  ((d.get? heading key).bind readTruth).getD fallback

def getByte (d : Document) (heading key : Bytes) : Option UInt8 :=
  match d.get? heading key with
  | some [b] => some b
  | _ => none

end Document
end Config
end Wildcard
