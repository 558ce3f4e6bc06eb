import Mathlib
import CCompiler.Proofs.Token.Respacing

/-
  Spellings that are written right behind one another.

  Two spellings may be read as something else once there is
  nothing between them.  Whether the first one is still read by
  itself depends on no more than two spellings behind it: after
  the first code point and two bytes no token looks at what
  follows it.

  Main declarations:
    * `Lexer.Ahead`, `Lexer.lexeme_ahead`
    * `Lexer.fuses`, `Lexer.behind`, `Lexer.unfused`
    * `Lexer.allStand_of_unfused`
-/

------------
-- Looking Ahead
------------

namespace CCompiler

variable {s : Bytes}

namespace Lexer

variable {cfg : Config} {p a b : Bytes} {lx : Lexeme}

/- Texts that start with the same code point and the same two bytes. -/
structure Ahead (a b : Bytes) : Prop where
  some : a ≠ []
  two : b.take 2 = a.take 2
  point : (Utf8.decode? b).map Prod.fst = (Utf8.decode? a).map Prod.fst

/- The first byte, and whether a sign follows it. -/
theorem Ahead.heads (hAhead : Ahead a b) :
    ∃ x s t, a = x :: s ∧ b = x :: t ∧ s.head? = t.head? := by
  obtain ⟨hSome, hTwo, -⟩ := hAhead
  rcases a with - | ⟨x, s⟩
  · exact absurd rfl hSome
  rcases b with - | ⟨y, t⟩
  · simp at hTwo
  refine ⟨x, s, t, rfl, ?_, ?_⟩
  · simp only [List.take_succ_cons, List.cons.injEq] at hTwo
    rw [hTwo.1]
  · cases s <;> cases t <;> simp_all

theorem signed_of_head? {t : Bytes} (hHead : s.head? = t.head?) : signed s = signed t := by
  cases s <;> cases t <;> simp_all [signed]

/- What starts with up to three bytes is seen two bytes behind the first. -/
theorem Ahead.starts (hAhead : Ahead a b) (hSome : p ≠ []) {q : Bytes} (hShort : q.length ≤ 3) :
    q <+: p ++ b ↔ q <+: p ++ a := by
  have hThree : (p ++ b).take 3 = (p ++ a).take 3 := by
    rcases p with - | ⟨x, p⟩
    · exact absurd rfl hSome
    simp only [List.cons_append, List.take_succ_cons, List.take_append]
    have hFewer : ∀ n ≤ 2, b.take n = a.take n := fun n hn => by
      rw [← Nat.min_eq_left hn, ← List.take_take, hAhead.two, List.take_take]
    rw [hFewer _ (Nat.sub_le _ _)]
  rw [List.prefix_iff_eq_take, List.prefix_iff_eq_take]
  have hTake : (p ++ b).take q.length = (p ++ a).take q.length := by
    rw [← Nat.min_eq_left hShort, ← List.take_take, hThree, List.take_take]
  rw [hTake]

theorem Ahead.startsNumber (hAhead : Ahead a b) (hSome : p ≠ []) :
    startsNumber (p ++ b) = startsNumber (p ++ a) := by
  obtain ⟨x, s, t, rfl, rfl, -⟩ := hAhead.heads
  rcases p with - | ⟨y, - | ⟨z, p⟩⟩
  · exact absurd rfl hSome
  · rfl
  · rfl

theorem Ahead.literal?_none (hAhead : Ahead a b) (hSome : p ≠ [])
    (hNone : literal? (p ++ a) = none) : literal? (p ++ b) = none := by
  rw [← Option.not_isSome_iff_eq_none, literal?_isSome] at hNone ⊢
  have hShort : ∀ q ∈ literalHeads, q.length ≤ 3 := by decide
  rintro ⟨q, hq, hPrefix⟩
  exact hNone ⟨q, hq, (hAhead.starts hSome (hShort q hq)).mp hPrefix⟩

theorem Ahead.punctLength? (hAhead : Ahead a b) (hSome : p ≠ []) :
    punctLength? (p ++ b) = punctLength? (p ++ a) := by
  have hShort : ∀ q ∈ longPuncts, q.length ≤ 3 := by decide
  have hFind : longPuncts.find? (p ++ b).startsWith = longPuncts.find? (p ++ a).startsWith := by
    refine List.find?_congr fun q hq => ?_
    rw [Bool.eq_iff_iff, Bytes.startsWith_iff, Bytes.startsWith_iff]
    exact hAhead.starts hSome (hShort q hq)
  unfold Lexer.punctLength?
  rw [hFind]
  rcases p with - | ⟨x, p⟩
  · exact absurd rfl hSome
  · rfl

/- A number ends where its next byte is not part of it. -/
theorem Ahead.numberTail (hAhead : Ahead a b) (hEnd : numberTail (p ++ a) = p.length) :
    numberTail (p ++ b) = p.length := by
  induction hLength : p.length using Nat.strong_induction_on generalizing p with
  | _ length ih =>
    subst hLength
    obtain ⟨x, s, t, rfl, rfl, hHead⟩ := hAhead.heads
    rcases p with - | ⟨c, - | ⟨d, p⟩⟩
    · rw [List.nil_append, numberTail_cons] at hEnd ⊢
      rw [← signed_of_head? hHead]
      split at hEnd
      · cases hEnd
      · rename_i hSign
        rw [if_neg hSign]
        split at hEnd
        · cases hEnd
        · rename_i hOther
          rw [if_neg hOther]
          rfl
    · rw [List.cons_append, numberTail_cons] at hEnd ⊢
      have hSigned : signed ([] ++ x :: t) = signed ([] ++ x :: s) := rfl
      rw [hSigned]
      split at hEnd
      · simp at hEnd
      · rename_i hSign
        rw [if_neg hSign]
        split at hEnd
        · rename_i hOther
          rw [if_pos hOther, ih 0 (by simp) (p := []) (Nat.succ.inj hEnd) rfl]
          rfl
        · cases hEnd
    · rw [List.cons_append, numberTail_cons] at hEnd ⊢
      have hSigned : signed (d :: p ++ x :: t) = signed (d :: p ++ x :: s) := rfl
      rw [hSigned]
      split at hEnd
      · rename_i hSign
        rw [if_pos hSign]
        simp only [List.cons_append, List.tail_cons, List.length_cons] at hEnd ⊢
        rw [ih p.length (by simp) (by omega) rfl]
      · rename_i hSign
        rw [if_neg hSign]
        split at hEnd
        · rename_i hOther
          rw [if_pos hOther, ih (d :: p).length (by simp) (Nat.succ.inj hEnd) rfl]
          rfl
        · cases hEnd

/- A word ends where its next code point is not part of it. -/
theorem Ahead.wordTail (hAhead : Ahead a b) {base : Nat}
    (hFine : (wordTail cfg base (p ++ a)).error? = none)
    (hEnd : (wordTail cfg base (p ++ a)).length = base + p.length) :
    wordTail cfg base (p ++ b) = wordTail cfg base (p ++ a) := by
  induction hLength : p.length using Nat.strong_induction_on generalizing base p with
  | _ length ih =>
    subst hLength
    rcases p with - | ⟨x, p⟩
    · obtain ⟨x, s, t, rfl, rfl, -⟩ := hAhead.heads
      rw [List.nil_append] at hFine hEnd ⊢
      rw [List.nil_append]
      obtain ⟨c, rest, hDecode⟩ := decode?_of_fine hFine
      have hPoint := hAhead.point
      rw [hDecode] at hPoint
      obtain ⟨⟨c', rest'⟩, hThere, hSame⟩ := Option.map_eq_some_iff.mp hPoint
      cases hSame
      rw [wordTail_cons cfg base hDecode] at hEnd ⊢
      rw [wordTail_cons cfg base hThere]
      split at hEnd
      · -- one more code point would be part of the word
        have hMore := base_le_wordTail cfg (base + Utf8.leadLength x) rest
        have hLead := Utf8.leadLength_pos x
        simp only [List.length_nil] at hEnd
        omega
      · rename_i hPart
        rw [if_neg hPart, if_neg hPart]
    · rw [List.cons_append] at hFine hEnd
      rw [List.cons_append, List.cons_append]
      obtain ⟨c, rest, hDecode⟩ := decode?_of_fine hFine
      rw [wordTail_cons cfg base hDecode] at hFine hEnd
      simp only [List.length_cons] at hEnd
      split at hEnd
      · rename_i hPart
        rw [if_pos hPart] at hFine
        have hMore := base_le_wordTail cfg (base + Utf8.leadLength x) rest
        have hLead := Utf8.leadLength_pos x
        simp only at hEnd
        obtain ⟨q, rfl, hLength, hSame⟩ := Utf8.decode?_cut hDecode (.inl (by omega))
        rw [wordTail_cons cfg base hDecode, wordTail_cons cfg base (hSame b)]
        rw [ih q.length (by simp only [List.length_cons]; omega) hFine (by omega) rfl]
      · simp only at hEnd
        omega

theorem Ahead.word (hAhead : Ahead a b) (hFine : (word cfg (p ++ a)).error? = none)
    (hSome : 0 < (word cfg (p ++ a)).length) (hEnd : (word cfg (p ++ a)).length = p.length) :
    word cfg (p ++ b) = word cfg (p ++ a) := by
  rcases p with - | ⟨x, p⟩
  · rw [List.length_nil] at hEnd
    omega
  rw [List.cons_append] at hFine hSome hEnd
  rw [List.cons_append, List.cons_append]
  cases hDecode : Utf8.decode? (x :: (p ++ a)) with
  | none =>
    unfold Lexer.word at hFine
    rw [hDecode] at hFine
    cases hFine
  | some r =>
    obtain ⟨c, rest⟩ := r
    rw [word_cons cfg hDecode] at hFine hSome hEnd ⊢
    split at hSome
    · rename_i hStart
      rw [if_pos hStart] at hFine hEnd ⊢
      have hLead := base_le_wordTail cfg (Utf8.leadLength x) rest
      simp only [List.length_cons] at hFine hEnd
      obtain ⟨q, rfl, hLength, hSame⟩ := Utf8.decode?_cut hDecode (.inl (by omega))
      rw [word_cons cfg (hSame b), if_pos hStart, hAhead.wordTail hFine (by omega)]
    · cases hSome

/-
  The token at the start of a text is the same when the text
  goes on behind it in the same way for a code point and two
  bytes.
-/
theorem lexeme_ahead (hLexeme : (lexeme cfg (p ++ a)).2 = .ok lx) (hEnd : lx.extra + 1 = p.length)
    (hAhead : Ahead a b) : (lexeme cfg (p ++ b)).2 = .ok lx := by
  have hSome : p ≠ [] := by
    rintro rfl
    simp at hEnd
  unfold lexeme at hLexeme ⊢
  rw [hAhead.startsNumber hSome]
  by_cases hNumber : startsNumber (p ++ a) = true
  · rw [if_pos hNumber] at hLexeme ⊢
    cases hLexeme
    rcases p with - | ⟨x, p⟩
    · exact absurd rfl hSome
    simp only [List.cons_append, List.tail_cons, List.length_cons] at hEnd ⊢
    have hSame := Nat.succ.inj hEnd
    rw [hAhead.numberTail hSame, hSame]
  · rw [if_neg hNumber] at hLexeme ⊢
    cases hLiteral : literal? (p ++ a) with
    | some r =>
      rw [hLiteral] at hLexeme
      cases hLexeme
      rw [literal?_cut hLiteral (by omega)]
    | none =>
      rw [hLiteral] at hLexeme
      rw [hAhead.literal?_none hSome hLiteral]
      simp only at hLexeme ⊢
      split at hLexeme
      · cases hLexeme
      · rename_i hFine
        split at hLexeme
        · rename_i hWord
          cases hLexeme
          simp only at hEnd
          rw [hAhead.word hFine hWord (by omega), hFine]
          simp only [if_pos hWord]
        · rename_i hWord
          split at hLexeme
          · rename_i n hLength
            cases hLexeme
            rw [hAhead.punctLength? hSome, hLength]
            rcases p with - | ⟨x, p⟩
            · exact absurd rfl hSome
            rw [List.cons_append] at hLength hWord ⊢
            rw [word_sign (head_of_punctLength? hLength) (Nat.eq_zero_of_not_pos hWord)]
            rfl
          · cases hLexeme

end Lexer

------------
-- Fused Spellings
------------

namespace Lexer

variable {cfg : Config} {t u : Token} {ts : List Token}

/- Whether a comment starts a text. -/
def startsComment (s : Bytes) : Bool :=
  s.startsWith [0x2F, 0x2F] || s.startsWith [0x2F, 0x2A]

/- The length of the token at the start of a text. -/
def readLength? (cfg : Config) (s : Bytes) : Option Nat :=
  match (lexeme cfg s).2 with
  | .ok lx => some (lx.extra + 1)
  | .error _ => none

/-
  Whether a spelling is no longer read by itself when others
  are written right behind it.
-/
def fuses (cfg : Config) (s after : Bytes) : Bool :=
  startsComment (s ++ after) ||
    readLength? cfg (s ++ after ++ [0x0A]) != some s.length

/-
  What is written of some spellings, up to a number of them,
  before the first one that anything stands before.
-/
def behind : Nat → List Spelling → Bytes
| 0, _ => []
| _, [] => []
| n + 1, s :: more =>
  if s.atLineStart || s.spaced then []
  else s.text ++ behind n more

/-
  Whether no spelling fuses with the two that are written
  right behind it.
-/
def unfused (cfg : Config) : List Spelling → Bool
| [] => true
| s :: more =>
  !fuses cfg s.text (behind 2 more) && unfused cfg more

/- A token as it is spelled where it stands. -/
def spelled (t : Token) : Spelling :=
  ⟨t.text, t.atLineStart, t.spaced⟩

/- A token that is read by itself on a line of its own. -/
abbrev Alone (cfg : Config) (t : Token) : Prop :=
  Stands cfg t [0x0A]

/- A token that is the first one somewhere is read alone. -/
theorem Stands.alone {after : Bytes} (hStands : Stands cfg t after) : Alone cfg t := by
  have hNewline : Closes [0x0A] := ⟨_, [], rfl, .inr rfl⟩
  have hPos := List.length_pos_iff.mpr hStands.some
  refine ⟨hStands.some, hStands.bare.cut hStands.some hNewline, ?_⟩
  exact lexeme_cut hNewline hStands.read (by simp only; omega) (.inl (by simp only; omega))

theorem AllStand.alone (hStand : AllStand cfg ts) : ∀ t ∈ ts, Alone cfg t := by
  induction ts with
  | nil => exact List.forall_mem_nil _
  | cons t ts ih => exact List.forall_mem_cons.mpr ⟨hStand.1.alone, ih hStand.2⟩

/- No token starts with bytes that encode no code point. -/
theorem lexeme_undecoded {x : UInt8} (hNone : Utf8.decode? (x :: s) = none) (lx : Lexeme) :
    (lexeme cfg (x :: s)).2 ≠ .ok lx := by
  have hHigh : ¬ x < 0x80 := by
    intro hLow
    rw [Utf8.decode?, if_pos hLow] at hNone
    cases hNone
  have hDigit : Bytes.isDigit x = false := by
    rw [← Bool.not_eq_true]
    intro hDigit
    simp only [Bytes.isDigit, Bool.and_eq_true, decide_eq_true_eq] at hDigit
    exact hHigh (UInt8.lt_of_le_of_lt hDigit.2 (by decide))
  have hPoint : (x == Bytes.of '.') = false := by
    rw [beq_eq_false_iff_ne]
    rintro rfl
    exact hHigh (by decide)
  have hNumber : startsNumber (x :: s) = false := by cases s <;> simp [startsNumber, hDigit, hPoint]
  have hLiteral : literal? (x :: s) = none := by
    rw [← Option.not_isSome_iff_eq_none, literal?_isSome]
    rintro ⟨q, hq, hPrefix⟩
    have hLow : ∀ q ∈ literalHeads, q.headD 0x80 < 0x80 := by decide
    have hHead := hLow q hq
    rcases q with - | ⟨y, q⟩
    · exact absurd hHead (by decide)
    · obtain ⟨rfl, -⟩ := List.cons_prefix_cons.mp hPrefix
      exact hHigh hHead
  unfold lexeme word
  rw [hNumber, hLiteral, hNone]
  intro hOk
  cases hOk

/- The first code point of a token does not depend on what follows. -/
theorem Alone.point (hAlone : Alone cfg t) (a b : Bytes) :
    (Utf8.decode? (t.text ++ a)).map Prod.fst = (Utf8.decode? (t.text ++ b)).map Prod.fst := by
  obtain ⟨hSome, -, hRead⟩ := hAlone
  rcases hText : t.text with - | ⟨x, p⟩
  · exact absurd hText hSome
  rw [hText, List.cons_append] at hRead
  cases hDecode : Utf8.decode? (x :: (p ++ [0x0A])) with
  | none => exact absurd hRead (lexeme_undecoded hDecode _)
  | some r =>
    have hBounds : Bounds [0x0A] := by
      intro y hy
      cases hy
      decide
    obtain ⟨q, -, -, hSame⟩ := Utf8.decode?_cut hDecode (.inr hBounds)
    rw [List.cons_append, List.cons_append, hSame a, hSame b]
    rfl

/- What follows two spellings is not looked at. -/
theorem Alone.ahead (hAlone : Alone cfg t) {a : Bytes} (hSome : s ≠ []) (b : Bytes) :
    Ahead (t.text ++ s ++ a) (t.text ++ s ++ b) where
  some := by simp [hSome]
  two := by
    have hTwo : 2 ≤ (t.text ++ s).length := by
      have hFirst := List.length_pos_iff.mpr hAlone.some
      have hNext := List.length_pos_iff.mpr hSome
      rw [List.length_append]
      omega
    rw [List.take_append_of_le_length hTwo, List.take_append_of_le_length hTwo]
  point := by
    rw [List.append_assoc, List.append_assoc]
    exact hAlone.point _ _

/-
  What is printed behind a token: the two spellings that stand
  right behind it, and then a gap or something that no token
  looks at.
-/
theorem printed_behind (hAlone : ∀ t ∈ ts, Alone cfg t) :
    ∃ rest, printed ts = behind 2 (ts.map spelled) ++ rest ∧ (Closes rest ∨
        Ahead (behind 2 (ts.map spelled) ++ [0x0A]) (behind 2 (ts.map spelled) ++ rest)) := by
  have hNewline : Closes [0x0A] := ⟨_, [], rfl, .inr rfl⟩
  have hGap : ∀ u : Token, ∀ s, (u.atLineStart || u.spaced) = true →
        Closes (Output.gap false u ++ s) := by
    intro u s hGap
    exact closes_gap (by simpa using hGap) s
  have hNone : ∀ u : Token, ¬ (u.atLineStart || u.spaced) = true → Output.gap false u = [] := by
    intro u hGlued
    simp only [Bool.or_eq_true, not_or, Bool.not_eq_true] at hGlued
    simp [Output.gap, hGlued.1, hGlued.2]
  rcases ts with - | ⟨u, us⟩
  · exact ⟨_, rfl, .inl hNewline⟩
  rw [printed_cons]
  by_cases hFirst : (u.atLineStart || u.spaced) = true
  · refine ⟨Output.gap false u ++ (u.text ++ printed us), ?_, .inl (hGap u _ hFirst)⟩
    simp [behind, spelled, hFirst]
  rw [hNone u hFirst, List.nil_append]
  rcases us with - | ⟨v, vs⟩
  · refine ⟨[0x0A], ?_, .inl hNewline⟩
    simp [behind, spelled, hFirst]
  rw [printed_cons]
  by_cases hNext : (v.atLineStart || v.spaced) = true
  · refine ⟨Output.gap false v ++ (v.text ++ printed vs), ?_, .inl (hGap v _ hNext)⟩
    simp [behind, spelled, hFirst, hNext]
  have hBehind : behind 2 ((u :: v :: vs).map spelled) = u.text ++ v.text := by
    simp [behind, spelled, hFirst, hNext]
  rw [hNone v hNext, List.nil_append, hBehind]
  refine ⟨printed vs, (List.append_assoc _ _ _).symm, .inr ?_⟩
  exact (hAlone u (by simp)).ahead (hAlone v (by simp)).some _

/- What starts no comment is bare where its first byte is no blank. -/
theorem startsComment_iff :
    startsComment s = false ↔ ¬ [0x2F, 0x2F] <+: s ∧ ¬ [0x2F, 0x2A] <+: s := by
  unfold startsComment
  rw [← Bytes.startsWith_iff, ← Bytes.startsWith_iff]
  simp

/- A token that does not fuse stands in front of what is printed. -/
theorem Alone.stands (hAlone : Alone cfg t) (hRest : ∀ u ∈ ts, Alone cfg u)
    (hApart : fuses cfg t.text (behind 2 (ts.map spelled)) = false) :
    Stands cfg t (printed ts) := by
  obtain ⟨rest, hPrinted, hAfter⟩ := printed_behind hRest
  rw [hPrinted]
  generalize behind 2 (ts.map spelled) = g at hApart hAfter
  unfold fuses at hApart
  simp only [Bool.or_eq_false_iff, bne_eq_false_iff_eq, startsComment_iff] at hApart
  obtain ⟨⟨hLine, hBlock⟩, hLength⟩ := hApart
  have hPos := List.length_pos_iff.mpr hAlone.some
  have hNewline : Closes [0x0A] := ⟨_, [], rfl, .inr rfl⟩
  have hBare : Bare (t.text ++ g) := by
    refine ⟨hLine, hBlock, fun x hx => hAlone.bare.blank x ?_⟩
    rwa [List.head?_append_of_ne_nil _ hAlone.some] at hx ⊢
  -- the token that is read is the one that is read alone
  have hRead : (lexeme cfg (t.text ++ g ++ [0x0A])).2 = .ok ⟨t.kind, t.text.length - 1⟩ := by
    unfold readLength? at hLength
    split at hLength
    · rename_i lx hLexeme
      have hSame := Option.some.inj hLength
      rw [List.append_assoc] at hLexeme
      have hBy := lexeme_cut hNewline hLexeme (by omega) (.inl hSame)
      rw [hAlone.read] at hBy
      cases hBy
      rw [List.append_assoc]
      exact hLexeme
    · cases hLength
  rcases hAfter with hCloses | hAhead
  · have hSome : t.text ++ g ≠ [] := by simp [hAlone.some]
    refine ⟨hAlone.some, ?_, ?_⟩
    · rw [← List.append_assoc]
      refine Bare.cut (a := []) ?_ hSome hCloses
      rwa [List.append_nil]
    · rw [← List.append_assoc]
      refine lexeme_cut hCloses hRead ?_ (.inr hNewline.bounds)
      rw [List.length_append]
      simp only
      omega
  · rw [List.append_assoc] at hRead
    refine ⟨hAlone.some, ?_, ?_⟩
    · have hStarts : ∀ q : Bytes, q.length = 2 → 0x20 ∉ q ∧ 0x0A ∉ q → ¬ q <+: t.text ++ g →
            ¬ q <+: t.text ++ (g ++ rest) := by
        intro q hShort hBlank hNone
        rw [hAhead.starts hAlone.some (by omega), ← List.append_assoc]
        refine not_prefix_cut (a := []) hNewline hBlank ?_
        rwa [List.append_nil]
      refine ⟨hStarts _ rfl (by decide) hLine, hStarts _ rfl (by decide) hBlock, fun x hx => ?_⟩
      refine hBare.blank x ?_
      rwa [List.head?_append_of_ne_nil _ hAlone.some] at hx ⊢
    · exact lexeme_ahead hRead (by simp only; omega) hAhead

/- Spellings that do not fuse are read again. -/
theorem allStand_of_unfused (hAlone : ∀ t ∈ ts, Alone cfg t)
    (hApart : unfused cfg (ts.map spelled) = true) : AllStand cfg ts := by
  induction ts with
  | nil => trivial
  | cons t ts ih =>
    rw [List.map_cons, unfused, Bool.and_eq_true, Bool.not_eq_true'] at hApart
    have hRest : ∀ u ∈ ts, Alone cfg u := fun u hu => hAlone u (List.mem_cons_of_mem _ hu)
    exact ⟨(hAlone t List.mem_cons_self).stands hRest hApart.1, ih hRest hApart.2⟩

end Lexer

end CCompiler
