import Mathlib
import CCompiler.Token.Lexer

/-
  What lies between two tokens.

  The bytes before a token are divided into newlines, other
  blanks and comments.  A comment to the end of its line has
  to reach that end, and a block comment ends at the first
  mark that closes it; so a text can be divided in one way
  only.

  Main declarations:
    * `Lexer.Filler`, `Lexer.Divides`
    * `Lexer.Divides.unique`
    * `Lexer.OnLine`
    * `Lexer.skipBlanks_divides`
-/

------------
-- Fillers
------------

namespace CCompiler

namespace Lexer

/- A piece of what lies between tokens. -/
inductive Filler
| newline
| blank (b : UInt8)
| lineComment (text : Bytes)
| blockComment (text : Bytes)
deriving DecidableEq, Repr

namespace Filler

/- The bytes of a piece. -/
def bytes : Filler → Bytes
| .newline => [0x0A]
| .blank b => [b]
| .lineComment text => 0x2F :: 0x2F :: text
| .blockComment text => 0x2F :: 0x2A :: (text ++ [0x2A, 0x2F])

/- The bytes of pieces one after the other. -/
def spelled (ps : List Filler) : Bytes :=
  ps.flatMap bytes

/-
  A piece that is complete in front of some bytes.  The text
  of a block comment has no closing mark, not even one made
  of its last byte and the star that ends it.
-/
def Complete (after : Bytes) : Filler → Prop
| .newline => True
| .blank b => Bytes.isSpace b = true ∧ b ≠ 0x0A
| .lineComment text =>
  0x0A ∉ text ∧ ∀ b ∈ after.head?, b = 0x0A
| .blockComment text => ¬ [0x2A, 0x2F] <:+: text ++ [0x2A]

end Filler

open Filler

/- Pieces that are complete in front of some bytes. -/
def Completes (after : Bytes) : List Filler → Prop
| [] => True
| p :: ps => p.Complete (spelled ps ++ after) ∧ Completes after ps

/- Bytes in front of others consist of complete pieces. -/
structure Divides
    (gap after : Bytes)
    (ps : List Filler) : Prop where
  spelled : spelled ps = gap
  complete : Completes after ps

/- Something other than a newline follows the last newline. -/
def OnLine (ps : List Filler) : Prop :=
  ∃ before p after, ps = before ++ p :: after ∧ Filler.newline ∉ p :: after

@[simp]
theorem spelled_nil : spelled [] = [] := rfl

@[simp]
theorem spelled_cons (p : Filler) (ps : List Filler) :
    spelled (p :: ps) = p.bytes ++ spelled ps := rfl

variable {s : Bytes}

------------
-- Ends of Comments
------------

/- A comment starts with its length, up to the first closing mark. -/
theorem blockLength?_eq_some {n : Nat} (hLength : blockLength? s = some n) :
    ∃ text rest, s = text ++ [0x2A, 0x2F] ++ rest ∧ n = text.length + 2 ∧
      ¬ [0x2A, 0x2F] <:+: text ++ [0x2A] := by
  induction s using blockLength?.induct generalizing n with
  | case1 => cases hLength
  | case2 rest =>
    cases hLength
    exact ⟨[], rest, rfl, rfl, by decide⟩
  | case3 b rest hOther ih =>
    rw [blockLength?] at hLength
    · obtain ⟨k, hRest, rfl⟩ := Option.map_eq_some_iff.mp hLength
      obtain ⟨text, more, rfl, rfl, hNone⟩ := ih hRest
      refine ⟨b :: text, more, rfl, by simp, ?_⟩
      rw [List.cons_append, List.infix_cons_iff, not_or]
      refine ⟨?_, hNone⟩
      -- the mark would have closed the comment here
      intro hMark
      cases text with
      | nil =>
        simp only [List.nil_append, List.cons_prefix_cons] at hMark
        exact absurd hMark.2.1 (by decide)
      | cons d text =>
        simp only [List.cons_append, List.cons_prefix_cons] at hMark
        obtain ⟨rfl, rfl, -⟩ := hMark
        exact hOther _ rfl rfl
    · exact hOther

variable {text : Bytes}

/- The first closing mark gives the length. -/
theorem blockLength?_append (rest : Bytes) (hNone : ¬ [0x2A, 0x2F] <:+: text ++ [0x2A]) :
    blockLength? (text ++ [0x2A, 0x2F] ++ rest) = some (text.length + 2) := by
  induction text with
  | nil => rfl
  | cons b text ih =>
    rw [List.cons_append, List.infix_cons_iff, not_or] at hNone
    rw [List.cons_append, List.cons_append, blockLength?, ih hNone.2]
    · simp
    · intro more hStar hSlash
      subst hStar
      refine hNone.1 ?_
      cases text with
      | nil => simp at hSlash
      | cons d text =>
        simp only [List.cons_append, List.cons.injEq] at hSlash
        simp [hSlash.1]

theorem of_newline : Bytes.of '\n' = 0x0A := by decide

/- A line goes on up to its newline. -/
theorem lineLength_append {rest : Bytes} (hText : 0x0A ∉ text)
    (hRest : ∀ b ∈ rest.head?, b = 0x0A) : lineLength (text ++ rest) = text.length := by
  unfold lineLength
  rw [of_newline, List.takeWhile_append_of_pos]
  · cases rest with
    | nil => simp
    | cons b rest =>
      have hNewline : b = 0x0A := hRest b rfl
      subst hNewline
      simp
  · intro b hb
    rw [bne_iff_ne]
    rintro rfl
    exact hText hb

/- What a comment takes of a text reaches the end of its line. -/
theorem lineLength_eq (s : Bytes) :
    ∃ text rest, s = text ++ rest ∧ lineLength s = text.length ∧ 0x0A ∉ text ∧
      ∀ b ∈ rest.head?, b = 0x0A := by
  refine ⟨s.takeWhile (· != 0x0A), s.dropWhile (· != 0x0A),
    List.takeWhile_append_dropWhile.symm, rfl, ?_, ?_⟩
  · intro hMem
    exact absurd (List.mem_takeWhile_imp hMem) (by decide)
  · intro b hb
    cases hRest : s.dropWhile (· != 0x0A) with
    | nil => simp [hRest] at hb
    | cons d rest =>
      have hStop := List.head?_dropWhile_not (· != 0x0A) s
      rw [hRest] at hStop hb
      cases hb
      simpa using hStop

------------
-- One Way to Divide
------------

variable {p q : Filler} {ps qs : List Filler}
  {gap after rest rest' : Bytes}

/- The piece at the start of a text, if one is there. -/
def Filler.first? : Bytes → Option Filler
| 0x2F :: 0x2F :: tail =>
  some (.lineComment (tail.take (lineLength tail)))
| 0x2F :: 0x2A :: tail =>
  (blockLength? tail).map fun n =>
    .blockComment (tail.take (n - 2))
| 0x0A :: _ => some .newline
| b :: _ => if Bytes.isSpace b then some (.blank b) else none
| [] => none

/- A complete piece is found at the start of a text. -/
theorem Filler.first?_append (hComplete : p.Complete rest) :
    Filler.first? (p.bytes ++ rest) = some p := by
  cases p with
  | newline => rfl
  | blank b =>
    obtain ⟨hSpace, hNewline⟩ := hComplete
    have hSlash : b ≠ 0x2F := by
      rintro rfl
      exact absurd hSpace (by decide)
    simp only [Filler.bytes, List.singleton_append]
    unfold Filler.first?
    split <;> simp_all
  | lineComment text =>
    obtain ⟨hText, hRest⟩ := hComplete
    simp [Filler.bytes, Filler.first?, lineLength_append hText hRest]
  | blockComment text =>
    have hLength := blockLength?_append rest hComplete
    simp only [List.append_assoc, List.cons_append, List.nil_append] at hLength
    simp [Filler.bytes, Filler.first?, hLength]

/- What is found at the start of a text is a complete piece. -/
theorem Filler.first?_eq_some (hFirst : Filler.first? s = some p) :
    ∃ rest, s = p.bytes ++ rest ∧ p.Complete rest := by
  unfold Filler.first? at hFirst
  split at hFirst
  · rename_i tail
    obtain ⟨text, rest, rfl, hLength, hText, hRest⟩ := lineLength_eq tail
    rw [hLength, List.take_left] at hFirst
    cases hFirst
    exact ⟨rest, rfl, hText, hRest⟩
  · rename_i tail
    obtain ⟨n, hLength, rfl⟩ := Option.map_eq_some_iff.mp hFirst
    obtain ⟨text, rest, rfl, rfl, hNone⟩ := blockLength?_eq_some hLength
    refine ⟨rest, ?_, ?_⟩
    · simp [Filler.bytes]
    · simpa [Complete] using hNone
  · rename_i tail
    cases hFirst
    exact ⟨tail, rfl, trivial⟩
  · rename_i b tail _ _ hNewline
    split at hFirst
    · rename_i hSpace
      cases hFirst
      exact ⟨tail, rfl, hSpace, hNewline⟩
    · cases hFirst
  · cases hFirst

/- A text in front of another one is divided in one way only. -/
theorem Divides.unique (hLeft : Divides gap after ps) (hRight : Divides gap after qs) :
    ps = qs := by
  rcases hLeft with ⟨rfl, hLeft⟩
  rcases hRight with ⟨hSame, hRight⟩
  induction ps generalizing qs with
  | nil =>
    cases qs with
    | nil => rfl
    | cons q qs => cases q <;> simp [Filler.bytes] at hSame
  | cons p ps ih =>
    cases qs with
    | nil => cases p <;> simp [Filler.bytes] at hSame
    | cons q qs =>
      have hFirst := first?_append hLeft.1
      rw [← List.append_assoc, ← spelled_cons, ← hSame,
        spelled_cons, List.append_assoc, first?_append hRight.1] at hFirst
      cases hFirst
      rw [ih hLeft.2 (List.append_cancel_left hSame) hRight.2]

end Lexer

------------
-- Skipping
------------

namespace Lexer

open Filler

variable {p : Filler} {ps : List Filler} {gap gap' : Gap}
  {c c' : Cursor}

/- What is known of a gap after one more piece. -/
def Gap.past (gap : Gap) : Filler → Gap
| .newline => ⟨true, false⟩
| _ => { gap with spaced := true }

/- A line starts after a gap if it did before or a newline is in it. -/
theorem atLineStart_past (gap : Gap) (ps : List Filler) :
    (ps.foldl Gap.past gap).atLineStart = true ↔ gap.atLineStart = true ∨ Filler.newline ∈ ps := by
  induction ps generalizing gap with
  | nil => simp
  | cons p ps ih =>
    rw [List.foldl_cons, ih]
    cases p <;> simp [Gap.past]

theorem onLine_cons :
    OnLine (p :: ps) ↔ OnLine ps ∨ (p ≠ .newline ∧ Filler.newline ∉ ps) := by
  constructor
  · rintro ⟨before, q, more, hSplit, hNone⟩
    cases before with
    | nil =>
      cases hSplit
      simp only [List.mem_cons, not_or] at hNone
      exact .inr ⟨Ne.symm hNone.1, hNone.2⟩
    | cons b before =>
      cases hSplit
      exact .inl ⟨before, q, more, rfl, hNone⟩
  · rintro (⟨before, q, more, rfl, hNone⟩ | ⟨hp, hNone⟩)
    · exact ⟨p :: before, q, more, rfl, hNone⟩
    · exact ⟨[], p, ps, rfl, by simp [Ne.symm hp, hNone]⟩

/- A gap is spaced by what its last line has. -/
theorem spaced_past (gap : Gap) (ps : List Filler) :
    (ps.foldl Gap.past gap).spaced = true ↔
      OnLine ps ∨ (gap.spaced = true ∧ Filler.newline ∉ ps) := by
  induction ps generalizing gap with
  | nil => simp [OnLine]
  | cons p ps ih =>
    rw [List.foldl_cons, ih, onLine_cons]
    cases p <;> simp [Gap.past] <;> tauto

/- One piece is skipped, and then the rest. -/
theorem skipBlanks_past (hFirst : Filler.first? c.text = some p) :
    skipBlanks gap c = skipBlanks (gap.past p) (c.advance p.bytes.length) := by
  rw [skipBlanks]
  split
  · rename_i hText
    rw [hText] at hFirst
    cases hFirst
  · rename_i tail hText
    rw [hText] at hFirst
    obtain ⟨text, rest, rfl, hLength, -⟩ := lineLength_eq tail
    cases hFirst
    simp [hLength, Gap.past, Filler.bytes, Nat.add_comm 2]
  · rename_i tail hText
    rw [hText] at hFirst
    obtain ⟨n, hLength, rfl⟩ := Option.map_eq_some_iff.mp hFirst
    obtain ⟨text, rest, hTail, rfl, -⟩ := blockLength?_eq_some hLength
    have hTake : tail.take (text.length + 2 - 2) = text := by simp [hTail]
    simp only [hLength, hTake, Gap.past, Filler.bytes]
    simp [Nat.add_comm 2]
  · rename_i b tail hLine hBlock hText
    rw [hText] at hFirst
    obtain ⟨rest, hSame, hComplete⟩ := first?_eq_some hFirst
    cases p with
    | newline =>
      cases hSame
      rfl
    | blank d =>
      cases hSame
      simp [of_newline, hComplete.1, hComplete.2, Gap.past, Filler.bytes]
    | lineComment text =>
      cases hSame
      exact absurd rfl (hLine _ rfl)
    | blockComment text =>
      cases hSame
      exact absurd rfl (hBlock _ rfl)

/- Where no piece starts, skipping stops. -/
theorem skipBlanks_stop (gap : Gap) (hFirst : Filler.first? c.text = none) :
    skipBlanks gap c = .ok (gap, c) ∨ skipBlanks gap c = .error c.offset := by
  rw [skipBlanks]
  split
  · exact .inl rfl
  · rename_i tail hText
    rw [hText] at hFirst
    cases hFirst
  · rename_i tail hText
    rw [hText] at hFirst
    have hOpen : blockLength? tail = none := Option.map_eq_none_iff.mp hFirst
    rw [hOpen]
    exact .inr rfl
  · rename_i b tail hLine hBlock hText
    rw [hText] at hFirst
    have hNewline : b ≠ 0x0A := by
      rintro rfl
      cases hFirst
    have hSpace : Bytes.isSpace b = false := by
      by_contra hSpace
      rw [Bool.not_eq_false] at hSpace
      have hBlank : Filler.first? ([b] ++ tail) = some (.blank b) :=
        first?_append (p := .blank b) ⟨hSpace, hNewline⟩
      rw [List.singleton_append, hFirst] at hBlank
      cases hBlank
    refine .inl ?_
    simp [of_newline, hNewline, hSpace]

/- The place after some bytes and then some more. -/
theorem Cursor.advance_advance (c : Cursor) (m n : Nat) :
    (c.advance m).advance n = c.advance (m + n) := by
  simp only [Cursor.advance, Cursor.newlines, List.drop_drop,
    List.take_add, List.countP_append, Nat.add_assoc]

/-
  Skipping moves over complete pieces, and what is known of
  the gap afterwards is what they tell.
-/
theorem skipBlanks_divides (hSkip : skipBlanks gap c = .ok (gap', c')) :
    ∃ ps, c.text = spelled ps ++ c'.text ∧ Completes c'.text ps ∧
      c' = c.advance (spelled ps).length ∧
      gap' = ps.foldl Gap.past gap := by
  induction hLength : c.text.length using Nat.strong_induction_on generalizing gap c with
  | _ length ih =>
    cases hFirst : Filler.first? c.text with
    | none =>
      rcases skipBlanks_stop gap hFirst with hStop | hStop
      · rw [hStop] at hSkip
        cases hSkip
        exact ⟨[], rfl, trivial, by simp [Cursor.advance, Cursor.newlines], rfl⟩
      · rw [hStop] at hSkip
        cases hSkip
    | some p =>
      obtain ⟨rest, hText, hComplete⟩ := first?_eq_some hFirst
      rw [skipBlanks_past hFirst] at hSkip
      have hRest : (c.advance p.bytes.length).text = rest := by simp [Cursor.advance, hText]
      have hShort : rest.length < length := by
        have hSome : 0 < p.bytes.length := by cases p <;> simp [Filler.bytes]
        rw [← hLength, hText, List.length_append]
        omega
      obtain ⟨ps, hSplit, hAll, hPlace, hGap⟩ := ih rest.length hShort hSkip (by rw [hRest])
      rw [hRest] at hSplit
      refine ⟨p :: ps, ?_, ⟨?_, hAll⟩, ?_, hGap⟩
      · rw [hText, hSplit, spelled_cons, List.append_assoc]
      · rw [← hSplit]
        exact hComplete
      · rw [hPlace, Cursor.advance_advance, spelled_cons, List.length_append]

end Lexer

end CCompiler
