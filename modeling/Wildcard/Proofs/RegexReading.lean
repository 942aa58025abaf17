import Wildcard.Regex

/-!
# Reading a pattern's regular expression

The text that a pattern is written as is read back as a list of pieces between two optional anchors:
a dot is any byte, a dot with a star behind it is any text, a backslash takes the byte behind it for
itself, and every other byte is itself. What is read back are the sections of the pattern, whatever
its tokens and literals are.
-/

namespace Wildcard
namespace Regex

def dot : UInt8 := 46
def star : UInt8 := 42
def caret : UInt8 := 94
def dollar : UInt8 := 36

inductive Piece
  | anyByte
  | anyText
  | escaped (b : UInt8)
  | plain (b : UInt8)
  deriving DecidableEq, Repr

/-- A regular expression without alternatives or groups. -/
structure Expression where
  atStart : Bool
  pieces : List Piece
  atEnd : Bool
  deriving DecidableEq, Repr

/-- Read pieces up to the end, where a dollar sign anchors. A backslash with nothing behind it is no
piece. -/
def readPieces? : Bytes → Option (List Piece × Bool)
  | [] => some ([], false)
  | [b] =>
    if b = dollar then some ([], true)
    else if b = backslash then none
    else some ([if b = dot then .anyByte else .plain b], false)
  | b :: c :: rest =>
    if b = backslash then (readPieces? rest).map fun r => (.escaped c :: r.1, r.2)
    else if b = dot ∧ c = star then (readPieces? rest).map fun r => (.anyText :: r.1, r.2)
    else (readPieces? (c :: rest)).map fun r =>
      ((if b = dot then .anyByte else .plain b) :: r.1, r.2)

def read? (text : Bytes) : Option Expression :=
  if text.head? = some caret then
    (readPieces? text.tail).map fun r => ⟨true, r.1, r.2⟩
  else
    (readPieces? text).map fun r => ⟨false, r.1, r.2⟩

def Piece.text : Piece → Bytes
  | .anyByte => [dot]
  | .anyText => [dot, star]
  | .escaped b => [backslash, b]
  | .plain b => [b]

/-- The pieces can be told apart in their text: no metacharacter stands for itself. -/
def Legible (pieces : List Piece) : Prop := ∀ b, .plain b ∈ pieces → b ∉ metacharacters

theorem Legible.of_cons {piece : Piece} {pieces : List Piece} (h : Legible (piece :: pieces)) :
    Legible pieces := fun b hb => h b (List.mem_cons_of_mem piece hb)

theorem Legible.append {front back : List Piece} (hfront : Legible front) (hback : Legible back) :
    Legible (front ++ back) := by
  intro b hb
  rcases List.mem_append.mp hb with hb | hb
  · exact hfront b hb
  · exact hback b hb

theorem ne_of_not_mem_metacharacters {b c : UInt8} (h : b ∉ metacharacters)
    (hc : c ∈ metacharacters) : b ≠ c := by
  rintro rfl
  exact h hc

theorem readPieces?_escaped (c : UInt8) (rest : Bytes) :
    readPieces? (backslash :: c :: rest) =
      (readPieces? rest).map fun r => (.escaped c :: r.1, r.2) := by
  simp [readPieces?]

theorem readPieces?_anyText (rest : Bytes) :
    readPieces? (dot :: star :: rest) =
      (readPieces? rest).map fun r => (.anyText :: r.1, r.2) := by
  have hdot : dot ≠ backslash := by decide
  simp [readPieces?, hdot]

theorem readPieces?_anyByte {rest : Bytes} (h : rest.head? ≠ some star) :
    readPieces? (dot :: rest) = (readPieces? rest).map fun r => (.anyByte :: r.1, r.2) := by
  have hdot : dot ≠ backslash ∧ dot ≠ dollar := by decide
  cases rest with
  | nil => simp [readPieces?, hdot]
  | cons c rest =>
    have hc : c ≠ star := by simpa using h
    simp [readPieces?, hdot, hc]

theorem readPieces?_plain {b : UInt8} (h : b ∉ metacharacters) (rest : Bytes) :
    readPieces? (b :: rest) = (readPieces? rest).map fun r => (.plain b :: r.1, r.2) := by
  have hdollar : b ≠ dollar := ne_of_not_mem_metacharacters h (by decide)
  have hbackslash : b ≠ backslash := ne_of_not_mem_metacharacters h (by decide)
  have hdot : b ≠ dot := ne_of_not_mem_metacharacters h (by decide)
  cases rest <;> simp [readPieces?, hdollar, hbackslash, hdot]

/-- The first byte of pieces is a dot, a backslash or no metacharacter, so it neither joins the dot
of the piece before them nor anchors. -/
theorem head?_text_ne {pieces : List Piece} (h : Legible pieces) (atEnd : Bool) {c : UInt8}
    (hc : c ∈ metacharacters) (hne : dot ≠ c ∧ backslash ≠ c ∧ dollar ≠ c) :
    (pieces.flatMap Piece.text ++ shownIf atEnd [dollar]).head? ≠ some c := by
  cases pieces with
  | nil => cases atEnd <;> simp [shownIf, hne]
  | cons piece pieces =>
    cases piece with
    | anyByte => simp [Piece.text, hne]
    | anyText => simp [Piece.text, hne]
    | escaped b => simp [Piece.text, hne]
    | plain b =>
      have hb : b ≠ c := ne_of_not_mem_metacharacters (h b List.mem_cons_self) hc
      simp [Piece.text, hb]

theorem readPieces?_text {pieces : List Piece} (h : Legible pieces) (atEnd : Bool) :
    readPieces? (pieces.flatMap Piece.text ++ shownIf atEnd [dollar]) = some (pieces, atEnd) := by
  induction pieces with
  | nil => cases atEnd <;> rfl
  | cons piece pieces ih =>
    have hrest := ih h.of_cons
    rw [List.flatMap_cons, List.append_assoc]
    cases piece with
    | anyByte =>
      have hstar := head?_text_ne h.of_cons atEnd (c := star) (by decide) (by decide)
      rw [Piece.text, List.cons_append, List.nil_append, readPieces?_anyByte hstar, hrest]
      rfl
    | anyText =>
      simp only [Piece.text, List.cons_append, List.nil_append]
      rw [readPieces?_anyText, hrest]
      rfl
    | escaped b =>
      simp only [Piece.text, List.cons_append, List.nil_append]
      rw [readPieces?_escaped, hrest]
      rfl
    | plain b =>
      rw [Piece.text, List.cons_append, List.nil_append,
        readPieces?_plain (h b List.mem_cons_self), hrest]
      rfl

def Expression.text (e : Expression) : Bytes :=
  shownIf e.atStart [caret] ++ e.pieces.flatMap Piece.text ++ shownIf e.atEnd [dollar]

theorem read?_text {e : Expression} (h : Legible e.pieces) : read? e.text = some e := by
  obtain ⟨atStart, pieces, atEnd⟩ := e
  have hpieces := readPieces?_text h atEnd
  cases atStart with
  | true =>
    simp only [Expression.text, shownIf, if_true, List.cons_append, List.nil_append]
    simp only [shownIf] at hpieces
    simp [read?, hpieces]
  | false =>
    have hcaret := head?_text_ne h atEnd (c := caret) (by decide) (by decide)
    have htext : Expression.text ⟨false, pieces, atEnd⟩ =
        pieces.flatMap Piece.text ++ shownIf atEnd [dollar] := rfl
    rw [htext, read?, if_neg hcaret, hpieces]
    rfl

def pieceOfByte (unknown b : UInt8) : Piece :=
  if b = unknown then .anyByte
  else if b ∈ metacharacters then .escaped b
  else .plain b

def piecesOfSection (unknown : UInt8) (s : Section) : List Piece :=
  List.replicate s.leading .anyByte ++ s.literal.map (pieceOfByte unknown) ++
    List.replicate s.trailing .anyByte

def anyTextIf (condition : Bool) : List Piece := if condition then [.anyText] else []

def piecesOfPattern (p : Pattern) : List Piece :=
  if p.targets.isEmpty then [.anyText]
  else
    anyTextIf (p.format.head? == some p.tokens.anything) ++
      [Piece.anyText].intercalate (p.sections.map (piecesOfSection p.tokens.unknown)) ++
      anyTextIf (p.format.getLast? == some p.tokens.anything)

/-- The expression that a pattern is written as. A format without sections shows no end anchor. -/
def expressionOf (p : Pattern) : Expression :=
  ⟨p.anchors.atStart, piecesOfPattern p, !p.targets.isEmpty && p.anchors.atEnd⟩

theorem legible_anyTextIf (condition : Bool) : Legible (anyTextIf condition) := by
  cases condition <;> simp [Legible, anyTextIf]

theorem legible_piecesOfSection (unknown : UInt8) (s : Section) :
    Legible (piecesOfSection unknown s) := by
  intro b hb
  simp only [piecesOfSection, List.mem_append, List.mem_replicate, List.mem_map] at hb
  rcases hb with (⟨-, hb⟩ | ⟨c, -, hb⟩) | ⟨-, hb⟩
  · cases hb
  · unfold pieceOfByte at hb
    split at hb
    · cases hb
    · split at hb
      · cases hb
      · rename_i hc
        cases hb
        exact hc
  · cases hb

theorem legible_intercalate {separator : List Piece} (hseparator : Legible separator)
    {parts : List (List Piece)} (h : ∀ part ∈ parts, Legible part) :
    Legible (separator.intercalate parts) := by
  induction parts with
  | nil => simp [Legible]
  | cons part parts ih =>
    rw [List.forall_mem_cons] at h
    cases parts with
    | nil => simpa using h.1
    | cons next parts =>
      rw [List.intercalate_cons_cons]
      exact (h.1.append hseparator).append (ih h.2)

theorem legible_piecesOfPattern (p : Pattern) : Legible (piecesOfPattern p) := by
  unfold piecesOfPattern
  split
  · simp [Legible]
  · refine Legible.append (Legible.append (legible_anyTextIf _) ?_) (legible_anyTextIf _)
    apply legible_intercalate (legible_anyTextIf true)
    intro part hpart
    obtain ⟨s, -, rfl⟩ := List.mem_map.mp hpart
    exact legible_piecesOfSection p.tokens.unknown s

theorem flatMap_intercalate {α β : Type} (f : α → List β) (separator : List α)
    (parts : List (List α)) :
    (separator.intercalate parts).flatMap f =
      (separator.flatMap f).intercalate (parts.map (List.flatMap f)) := by
  induction parts with
  | nil => simp
  | cons part parts ih =>
    cases parts with
    | nil => simp
    | cons next parts =>
      simp only [List.map_cons] at ih
      simp only [List.map_cons, List.intercalate_cons_cons, List.flatMap_append, ih]

theorem text_pieceOfByte (unknown b : UInt8) :
    (pieceOfByte unknown b).text = ofByte .plain unknown b := by
  unfold pieceOfByte ofByte
  by_cases hu : b = unknown
  · simp [hu, Piece.text, anyByte]
    rfl
  · by_cases hb : b ∈ metacharacters <;> simp [hu, hb, Piece.text]

theorem text_replicate_anyByte (n : Nat) :
    (List.replicate n Piece.anyByte).flatMap Piece.text =
      (List.replicate n anyByte).flatten := by
  induction n with
  | zero => rfl
  | succ n ih =>
    rw [List.replicate_succ, List.replicate_succ, List.flatMap_cons, List.flatten_cons, ih]
    rfl

theorem text_piecesOfSection (unknown : UInt8) (s : Section) :
    (piecesOfSection unknown s).flatMap Piece.text = ofSection .plain unknown s := by
  rw [piecesOfSection, ofSection, List.flatMap_append, List.flatMap_append,
    text_replicate_anyByte, text_replicate_anyByte, List.flatMap_map]
  congr 3
  funext b
  exact text_pieceOfByte unknown b

theorem text_anyTextIf (condition : Bool) :
    (anyTextIf condition).flatMap Piece.text = shownIf condition anyText := by
  cases condition <;> rfl

theorem text_sections (unknown : UInt8) (sections : List Section) :
    ([Piece.anyText].intercalate (sections.map (piecesOfSection unknown))).flatMap Piece.text =
      anyText.intercalate (sections.map (ofSection .plain unknown)) := by
  have hseparator : [Piece.anyText].flatMap Piece.text = anyText := rfl
  rw [flatMap_intercalate, hseparator, List.map_map]
  congr 2
  funext s
  exact text_piecesOfSection unknown s

theorem text_expressionOf (p : Pattern) : (expressionOf p).text = ofPattern .plain p := by
  have hcaret : [caret] = Bytes.ascii "^" := rfl
  have hdollar : [dollar] = Bytes.ascii "$" := rfl
  have hanyText : [Piece.anyText].flatMap Piece.text = anyText := rfl
  have hbody : (piecesOfPattern p).flatMap Piece.text ++
      shownIf (!p.targets.isEmpty && p.anchors.atEnd) [dollar] = body .plain p := by
    unfold body piecesOfPattern
    cases p.targets.isEmpty with
    | true => simp only [if_true, hanyText, Bool.not_true, Bool.false_and, shownIf,
        Bool.false_eq_true, if_false, List.append_nil]
    | false => simp only [Bool.false_eq_true, if_false, List.flatMap_append, text_anyTextIf,
        text_sections, Bool.not_false, Bool.true_and, hdollar]
  rw [Expression.text, List.append_assoc, ofPattern, ← hbody, hcaret]
  rfl

end Regex
end Wildcard
