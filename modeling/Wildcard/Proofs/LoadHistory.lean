import Wildcard.Proofs.Assignments
import Wildcard.Proofs.LineReading

/-!
# Documents that are loaded again and again

Only the last text that could be read counts: whatever was loaded before it is gone, and a file that
does not exist takes nothing away. A document answers for that text as its lines say.
-/

namespace Wildcard
namespace Config

inductive Load
  | text (content : Bytes)
  | file (content : Option Bytes)
  deriving DecidableEq, Repr

def Load.content? : Load → Option Bytes
  | .text content => some content
  | .file content => content

def lastText? (history : List Load) : Option Bytes :=
  (history.filterMap Load.content?).getLast?

namespace Document

def after (d : Document) : Load → Document
  | .text content => ofText content
  | .file content => (d.load content).1

def ofHistory (history : List Load) : Document := history.foldl after {}

/-- The document answers for some lines: what it has and gives are the last assignments, and its bad
lines are the bad ones, counted from 1. -/
structure Reflects (d : Document) (ls : List Line) : Prop where
  badLines_lt : d.badLines.Pairwise (· < ·)
  mem_badLines : ∀ n, n ∈ d.badLines ↔ ∃ i, n = i + 1 ∧ ls[i]? = some .bad
  has_iff : ∀ heading key, d.has heading key = true ↔ ∃ i value, AssignsAt ls heading key value i
  getString_eq : ∀ heading key value fallback, LastAssigns ls heading key value →
    d.getString heading key fallback = value
  getString_fallback : ∀ heading key fallback, (∀ i value, ¬ AssignsAt ls heading key value i) →
    d.getString heading key fallback = fallback

theorem reflects_ofLines (ls : List Line) : (ofLines ls).Reflects ls := by
  refine ⟨pairwise_badNumbers ls, fun n => mem_badNumbers, ?_, ?_, ?_⟩
  · intro heading key
    rw [has]
    rcases get?_ofLines_cases ls heading key with ⟨value, hget, i, hassigns, -⟩ | ⟨hget, hnone⟩
    · rw [hget]
      exact iff_of_true rfl ⟨i, value, hassigns⟩
    · rw [hget]
      refine iff_of_false Bool.false_ne_true ?_
      rintro ⟨i, value, hassigns⟩
      exact hnone i value hassigns
  · intro heading key value fallback hlast
    rcases get?_ofLines_cases ls heading key with ⟨found, hget, hfound⟩ | ⟨-, hnone⟩
    · rw [getString, hget, Option.getD_some, hlast.value_eq hfound]
    · obtain ⟨i, hassigns, -⟩ := hlast
      exact absurd hassigns (hnone i value)
  · intro heading key fallback hnone
    rcases get?_ofLines_cases ls heading key with ⟨value, -, i, hassigns, -⟩ | ⟨hget, -⟩
    · exact absurd hassigns (hnone i value)
    · rw [getString, hget, Option.getD_none]

theorem ofText_eq (text : Bytes) :
    ofText text = ofLines ((text.splitOn Bytes.newline).map Line.ofText) := by
  rcases Bytes.splitOn_newline text with h | h
  · rw [h, ofText]
  · have hblank : Line.ofText [] = .blank := rfl
    rw [h, List.map_append, List.map_singleton, hblank, ofLines_snoc_blank, ofText]

theorem after_eq (d : Document) (l : Load) : d.after l = (l.content?.map ofText).getD d := by
  rcases l with content | _ | content <;> rfl

theorem lastText?_snoc (history : List Load) (l : Load) :
    lastText? (history ++ [l]) = l.content?.or (lastText? history) := by
  cases hcontent : l.content? with
  | none => simp [lastText?, hcontent]
  | some content => simp [lastText?, hcontent]

/-- Nothing but the last text that could be read is in a document. -/
theorem ofHistory_eq (history : List Load) :
    ofHistory history = ((lastText? history).map ofText).getD {} := by
  induction history using List.reverseRecOn with
  | nil => rfl
  | append_singleton history l ih =>
    rw [ofHistory, List.foldl_append, ← ofHistory, List.foldl_cons, List.foldl_nil, after_eq,
      lastText?_snoc, ih]
    cases l.content? <;> rfl

example :
    (ofHistory [.text (Bytes.ascii "k = 0"),
      .file (some (Bytes.ascii "[a]\nk = 1\n[b]\n[ a ]\nk = 'x#' y\n= z")),
      .file none]).getString (Bytes.ascii "a") (Bytes.ascii "k") [] = Bytes.ascii "x#" := by
  decide

end Document
end Config
end Wildcard
