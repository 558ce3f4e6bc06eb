import Mathlib
import CCompiler.Proofs.Token.Tiling

/-
  Where a token ends does not depend on what stands behind a
  blank.

  A text is cut behind a token and put in front of a blank.
  The token is still the first one that is read.  The cut may
  also lie further behind, as long as it does not go through
  the encoding of a code point, since the code point after a
  word is looked at too.

  Main declarations:
    * `Lexer.Closes`, `Lexer.prefix_of_closes`
    * `Lexer.wordTail_cut`, `Lexer.literal?_cut`
    * `Lexer.lexeme_cut`
-/

------------
-- What Stands Behind a Cut
------------

namespace CCompiler

variable {s : Bytes}

namespace Lexer

/- A text that starts with a space or a newline. -/
def Closes (s : Bytes) : Prop :=
  ∃ b rest, s = b :: rest ∧ (b = 0x20 ∨ b = 0x0A)

/- A text that does not go on with the rest of a code point. -/
def Bounds (s : Bytes) : Prop :=
  ∀ b ∈ s.head?, b < 0x80

theorem Closes.bounds (hCloses : Closes s) : Bounds s := by
  obtain ⟨b, rest, rfl, rfl | rfl⟩ := hCloses <;> (intro x hx; cases hx; decide)

variable {p a b : Bytes}

variable {q : Bytes}

/-
  A text without blanks at the start of a closed one is there
  without what closes it.
-/
theorem prefix_of_closes (hCloses : Closes b) (hBlank : 0x20 ∉ q ∧ 0x0A ∉ q)
    (hPrefix : q <+: p ++ b) : q <+: p := by
  induction p generalizing q with
  | nil =>
    cases q with
    | nil => exact List.prefix_rfl
    | cons x q =>
      obtain ⟨y, rest, rfl, hy⟩ := hCloses
      have hSame := (List.cons_prefix_cons.mp hPrefix).1
      subst hSame
      rcases hy with rfl | rfl
      · simp at hBlank
      · simp at hBlank
  | cons y p ih =>
    cases q with
    | nil => exact List.nil_prefix
    | cons x q =>
      rw [List.cons_append] at hPrefix
      obtain ⟨rfl, hRest⟩ := List.cons_prefix_cons.mp hPrefix
      simp only [List.mem_cons, not_or] at hBlank
      exact List.cons_prefix_cons.mpr ⟨rfl, ih ⟨hBlank.1.2, hBlank.2.2⟩ hRest⟩

/- What was not there before a cut is not there after it. -/
theorem not_prefix_cut (hCloses : Closes b) (hBlank : 0x20 ∉ q ∧ 0x0A ∉ q)
    (hNone : ¬ q <+: p ++ a) :
    ¬ q <+: p ++ b := fun hPrefix =>
  hNone ((prefix_of_closes hCloses hBlank hPrefix).trans (List.prefix_append p a))

end Lexer

variable {n : Nat}

------------
-- Numbers and Signs
------------

namespace Lexer

variable {p a b : Bytes}

/- Whether a sign comes first. -/
def signed : Bytes → Bool
| [] => false
| d :: _ => d == Bytes.of '+' || d == Bytes.of '-'

/- How a number goes on after its next byte. -/
theorem numberTail_cons (c : UInt8) (s : Bytes) :
    numberTail (c :: s) = if (ascii "eEpP").contains c && signed s then
        numberTail s.tail + 2
      else if Bytes.isDigit c || Bytes.isLetter c ||
          c == Bytes.of '.' then numberTail s + 1
      else 0 := by
  cases s with
  | nil => simp [numberTail, signed]
  | cons d s =>
    rw [numberTail]
    rfl

/- A number does not go on with a blank. -/
theorem numberTail_closes (hCloses : Closes b) : numberTail b = 0 := by
  obtain ⟨x, rest, rfl, hBlank⟩ := hCloses
  have hExponent : (ascii "eEpP").contains x = false := by rcases hBlank with rfl | rfl <;> decide
  have hOther : (Bytes.isDigit x || Bytes.isLetter x || x == Bytes.of '.') = false := by
    rcases hBlank with rfl | rfl <;> decide
  rw [numberTail_cons, hExponent, hOther]
  rfl

theorem signed_closes (hCloses : Closes b) : signed b = false := by
  obtain ⟨x, rest, rfl, rfl | rfl⟩ := hCloses <;> rfl

/- A number that ends before the cut ends there after it. -/
theorem numberTail_cut (hCloses : Closes b) (hFits : numberTail (p ++ a) ≤ p.length) :
    numberTail (p ++ b) = numberTail (p ++ a) := by
  induction hLength : p.length using Nat.strong_induction_on generalizing p with
  | _ length ih =>
    cases p with
    | nil =>
      rw [List.nil_append, numberTail_closes hCloses]
      exact (Nat.le_zero.mp hFits).symm
    | cons c p =>
      cases p with
      | nil =>
        -- the number ends with the only byte before the cut
        rw [List.cons_append, List.nil_append, numberTail_cons] at hFits ⊢
        rw [List.cons_append, List.nil_append, numberTail_cons, signed_closes hCloses,
          numberTail_closes hCloses, Bool.and_false, if_neg Bool.false_ne_true]
        by_cases hSign : ((ascii "eEpP").contains c && signed a) = true
        · rw [if_pos hSign, List.length_singleton] at hFits
          omega
        · rw [if_neg hSign] at hFits ⊢
          split
          · rename_i hOther
            rw [if_pos hOther, List.length_singleton] at hFits
            omega
          · rfl
      | cons d p =>
        rw [List.cons_append, List.cons_append, numberTail_cons c, List.tail_cons] at hFits
        rw [List.cons_append, List.cons_append,
          List.cons_append, List.cons_append, numberTail_cons c (d :: (p ++ b)),
          numberTail_cons c (d :: (p ++ a)), List.tail_cons, List.tail_cons]
        simp only [List.length_cons] at hFits hLength
        change (if ((ascii "eEpP").contains c &&
          signed (d :: (p ++ a))) = true then _ else _) = _
        by_cases hSign : ((ascii "eEpP").contains c && signed (d :: (p ++ a))) = true
        · rw [if_pos hSign] at hFits
          rw [if_pos hSign, if_pos hSign, ih p.length (by omega) (by omega) rfl]
        · rw [if_neg hSign] at hFits
          rw [if_neg hSign, if_neg hSign]
          split
          · rename_i hOther
            rw [if_pos hOther] at hFits
            have hRest := ih (p.length + 1) (by omega) (p := d :: p)
              (Nat.le_of_succ_le_succ hFits) rfl
            rw [List.cons_append, List.cons_append] at hRest
            rw [hRest]
          · rfl

/- A number that ends before the cut starts there after it. -/
theorem startsNumber_stays (hNumber : startsNumber (p ++ a) = true)
    (hFits : numberTail (p ++ a).tail < p.length) : startsNumber (p ++ b) = true := by
  cases p with
  | nil => simp at hFits
  | cons x p =>
    cases p with
    | cons y p => exact hNumber
    | nil =>
      cases a with
      | nil =>
        have hDigit : Bytes.isDigit x = true := hNumber
        cases b <;> simp [startsNumber, hDigit]
      | cons y a =>
        -- a digit behind a point would lie behind the cut
        have hDigit : Bytes.isDigit x = true := by
          by_contra hPoint
          rw [Bool.not_eq_true] at hPoint
          have hNext : x = Bytes.of '.' ∧ Bytes.isDigit y = true := by
            simpa [startsNumber, hPoint] using hNumber
          simp [numberTail_cons, hNext.2] at hFits
          split at hFits <;> omega
        cases b <;> simp [startsNumber, hDigit]

/- Whether a number starts is seen before the cut. -/
theorem startsNumber_cut (hSome : p ≠ []) (hCloses : Closes b)
    (hNumber : startsNumber (p ++ a) = false) : startsNumber (p ++ b) = false := by
  cases p with
  | nil => exact absurd rfl hSome
  | cons x p =>
    cases p with
    | nil =>
      obtain ⟨y, rest, rfl, hBlank⟩ := hCloses
      have hDigit : Bytes.isDigit y = false := by rcases hBlank with rfl | rfl <;> decide
      have hFirst : Bytes.isDigit x = false := by cases a <;> simp_all [startsNumber]
      simp [startsNumber, hDigit, hFirst]
    | cons y p => exact hNumber

/- There are no blanks in a sign. -/
theorem longPuncts_blank : ∀ q ∈ longPuncts, 0x20 ∉ q ∧ 0x0A ∉ q := by decide

/- The sign at the start of a text is seen before the cut. -/
theorem punctLength?_cut (hSome : p ≠ []) (hCloses : Closes b)
    (hLength : punctLength? (p ++ a) = some n) (hFits : n ≤ p.length) :
    punctLength? (p ++ b) = some n := by
  have hAbsent : ∀ q ∈ longPuncts, ¬ (p ++ a).startsWith q = true →
        ¬ (p ++ b).startsWith q = true := by
    intro q hq hNone
    rw [Bytes.startsWith_iff] at hNone ⊢
    exact not_prefix_cut hCloses (longPuncts_blank q hq) hNone
  unfold punctLength? at hLength ⊢
  cases hFind : longPuncts.find? (p ++ a).startsWith with
  | some q =>
    rw [hFind] at hLength
    cases hLength
    obtain ⟨hStarts, before, after, hSplit, hBefore⟩ := List.find?_eq_some_iff_append.mp hFind
    have hStill : longPuncts.find? (p ++ b).startsWith = some q := by
      refine List.find?_eq_some_iff_append.mpr ⟨?_, before, after, hSplit, fun r hr => ?_⟩
      · rw [Bytes.startsWith_iff] at hStarts ⊢
        exact (List.prefix_of_prefix_length_le hStarts (List.prefix_append p a) hFits).trans
          (List.prefix_append p b)
      · simpa using hAbsent r (by rw [hSplit]; simp [hr]) (by simpa using hBefore r hr)
    rw [hStill]
  | none =>
    have hStill : longPuncts.find? (p ++ b).startsWith =
        none := by
      rw [List.find?_eq_none] at hFind ⊢
      exact fun q hq => hAbsent q hq (hFind q hq)
    rw [hFind] at hLength
    rw [hStill]
    cases p with
    | nil => exact absurd rfl hSome
    | cons x p => exact hLength

end Lexer

variable {c : Nat} {rest : Bytes} {x : UInt8}

------------
-- Words
------------

namespace Utf8

variable {p a : Bytes}

theorem leadLength_pos (b : UInt8) : 0 < leadLength b := by
  unfold leadLength
  split_ifs <;> decide

/- A byte below the others takes part in no longer encoding. -/
theorem payload?_of_lt {b : UInt8} (hLow : b < 0x80) : payload? b = none := by
  have hShift : (b >>> 6).toNat < 2 := by
    rw [UInt8.toNat_shiftRight, Nat.shiftRight_eq_div_pow]
    have hNat : b.toNat < 128 := hLow
    change b.toNat / 64 < 2
    omega
  unfold payload?
  rw [if_neg]
  intro hTwo
  rw [beq_iff_eq] at hTwo
  rw [hTwo] at hShift
  exact absurd hShift (by decide)

/- Continuation bytes before a cut are read without what follows. -/
theorem continuations?_cut {d : Nat} (hRead : continuations? n c (p ++ a) = some (d, rest))
    (hFits : n ≤ p.length ∨ Lexer.Bounds a) :
    ∃ q, rest = q ++ a ∧ q.length + n = p.length ∧
      ∀ b, continuations? n c (p ++ b) = some (d, q ++ b) := by
  induction n generalizing c p with
  | zero =>
    cases hRead
    exact ⟨p, rfl, rfl, fun b => rfl⟩
  | succ n ih =>
    cases p with
    | nil =>
      rw [List.nil_append] at hRead
      rcases hFits with hFits | hBounds
      · simp at hFits
      · cases a with
        | nil => cases hRead
        | cons x a =>
          rw [continuations?, payload?_of_lt (hBounds x rfl)] at hRead
          cases hRead
    | cons x p =>
      rw [List.cons_append, continuations?] at hRead
      split at hRead
      · rename_i bits hBits
        have hMore : n ≤ p.length ∨ Lexer.Bounds a := hFits.imp_left Nat.le_of_succ_le_succ
        obtain ⟨q, rfl, hLength, hSame⟩ := ih hRead hMore
        refine ⟨q, rfl, by simp [← hLength]; omega, fun b => ?_⟩
        rw [List.cons_append, continuations?, hBits]
        exact hSame b
      · cases hRead

/- A code point before a cut is read without what follows. -/
theorem decode?_cut (hRead : decode? (x :: (p ++ a)) = some (c, rest))
    (hFits : leadLength x ≤ p.length + 1 ∨ Lexer.Bounds a) :
    ∃ q, rest = q ++ a ∧ q.length + leadLength x = p.length + 1 ∧
      ∀ b, decode? (x :: (p ++ b)) = some (c, q ++ b) := by
  rw [decode?] at hRead
  unfold leadLength at hFits ⊢
  simp only [decode?]
  split at hRead
  · rename_i hLow
    cases hRead
    rw [if_pos hLow]
    exact ⟨p, rfl, rfl, fun b => by rw [if_pos hLow]⟩
  · rename_i hLow
    simp only [if_neg hLow] at hFits ⊢
    split at hRead
    · rename_i hFour
      simp only [if_pos hFour] at hFits ⊢
      obtain ⟨q, hRest, hLength, hSame⟩ := continuations?_cut hRead (hFits.imp_left (by omega))
      exact ⟨q, hRest, by omega, hSame⟩
    · rename_i hFour
      simp only [if_neg hFour] at hFits ⊢
      split at hRead
      · rename_i hThree
        simp only [if_pos hThree] at hFits ⊢
        obtain ⟨q, hRest, hLength, hSame⟩ := continuations?_cut hRead (hFits.imp_left (by omega))
        exact ⟨q, hRest, by omega, hSame⟩
      · rename_i hThree
        simp only [if_neg hThree] at hFits ⊢
        split at hRead
        · rename_i hTwo
          simp only [if_pos hTwo]
          obtain ⟨q, hRest, hLength, hSame⟩ := continuations?_cut hRead (hFits.imp_left (by omega))
          exact ⟨q, hRest, by omega, hSame⟩
        · cases hRead

end Utf8

variable {tail : Bytes}

namespace Lexer

variable {p a b : Bytes}

/- A word goes on with the code points that may be in it. -/
theorem wordTail_cons (cfg : Config) (base : Nat)
    (hDecode : Utf8.decode? (x :: tail) = some (c, rest)) :
    wordTail cfg base (x :: tail) = if CharClass.isIdentPart c && allowed cfg c then
        { wordTail cfg (base + Utf8.leadLength x) rest with
          dollars := dollarAt c base ++
            (wordTail cfg (base + Utf8.leadLength x) rest).dollars }
      else ⟨base, [], none⟩ := by
  rw [wordTail]
  split
  · rename_i hNone
    rw [hDecode] at hNone
    cases hNone
  · rename_i hSome
    rw [hDecode] at hSome
    cases hSome
    rfl

variable {cfg : Config} {base : Nat}

theorem decode?_of_fine (hFine : (wordTail cfg base (x :: tail)).error? = none) :
    ∃ c rest, Utf8.decode? (x :: tail) = some (c, rest) := by
  rw [wordTail] at hFine
  split at hFine
  · cases hFine
  · rename_i c rest hSome
    exact ⟨c, rest, hSome⟩

theorem base_le_wordTail (cfg : Config) (base : Nat) (s : Bytes) :
    base ≤ (wordTail cfg base s).length := by
  fun_induction wordTail cfg base s with
  | case1 base => simp
  | case2 base b tail hDecode => simp
  | case3 base b tail c rest hDecode hShort hPart w ih => exact (Nat.le_add_right _ _).trans ih
  | case4 base b tail c rest hDecode hShort hPart => simp

/- A word does not go on with a blank. -/
theorem wordTail_closes (cfg : Config) (base : Nat) (hCloses : Closes b) :
    wordTail cfg base b = ⟨base, [], none⟩ := by
  obtain ⟨x, rest, rfl, hBlank⟩ := hCloses
  have hDecode : Utf8.decode? (x :: rest) = some (x.toNat, rest) := by
    rcases hBlank with rfl | rfl <;> rfl
  have hPart : CharClass.isIdentPart x.toNat = false := by rcases hBlank with rfl | rfl <;> decide
  rw [wordTail_cons cfg base hDecode, hPart]
  rfl

/-
  A word that ends before the cut ends there after it.  It may
  end at the cut itself, or the cut goes through no code
  point.
-/
theorem wordTail_cut (hCloses : Closes b) (hFine : (wordTail cfg base (p ++ a)).error? = none)
    (hFits : (wordTail cfg base (p ++ a)).length ≤ base + p.length)
    (hEnd : (wordTail cfg base (p ++ a)).length = base + p.length ∨ Bounds a) :
    wordTail cfg base (p ++ b) = wordTail cfg base (p ++ a) := by
  induction hLength : p.length using Nat.strong_induction_on generalizing base p with
  | _ length ih =>
    subst hLength
    cases p with
    | nil =>
      rw [List.nil_append, wordTail_closes cfg base hCloses]
      rw [List.nil_append] at hFine hFits ⊢
      cases a with
      | nil => rw [wordTail]
      | cons x a =>
        obtain ⟨c, rest, hDecode⟩ := decode?_of_fine hFine
        rw [wordTail_cons cfg base hDecode] at hFits ⊢
        split at hFits
        · -- one more code point would lie behind the cut
          have hMore := base_le_wordTail cfg (base + Utf8.leadLength x) rest
          have hLead := Utf8.leadLength_pos x
          simp only [List.length_nil] at hFits
          omega
        · rename_i hPart
          rw [if_neg hPart]
    | cons x p =>
      rw [List.cons_append] at hFine hFits hEnd
      rw [List.cons_append, List.cons_append]
      obtain ⟨c, rest, hDecode⟩ := decode?_of_fine hFine
      have hSpelled : Utf8.leadLength x ≤ p.length + 1 ∨ Bounds a := by
        rw [wordTail_cons cfg base hDecode] at hFits hEnd
        split at hFits
        · have hMore := base_le_wordTail cfg (base + Utf8.leadLength x) rest
          simp only [List.length_cons] at hFits
          exact .inl (by omega)
        · rename_i hPart
          rw [if_neg hPart] at hEnd
          refine hEnd.imp_left fun hNil => ?_
          simp only [List.length_cons] at hNil
          omega
      obtain ⟨q, rfl, hLength, hSame⟩ := Utf8.decode?_cut hDecode hSpelled
      rw [wordTail_cons cfg base hDecode] at hFine hFits hEnd ⊢
      rw [wordTail_cons cfg base (hSame b)]
      split
      · rename_i hPart
        rw [if_pos hPart] at hFine hFits hEnd
        have hLead := Utf8.leadLength_pos x
        simp only [List.length_cons] at hFits hEnd
        rw [ih q.length (by simp only [List.length_cons]; omega)
          hFine (by omega) (hEnd.imp_left (by omega)) rfl]
      · rfl

end Lexer

------------
-- Literals
------------

namespace Lexer

variable {p a : Bytes}

/- A body that is closed before a cut is closed there without what follows. -/
theorem bodyLength?_cut (hLength : Literal.bodyLength? (p ++ a) = some n) (hFits : n < p.length)
    (b : Bytes) : Literal.bodyLength? (p ++ b) = some n := by
  induction p using Literal.bodyLength?.induct generalizing n with
  | case1 => simp at hFits
  | case2 rest => exact hLength
  | case3 rest => exact hLength
  | case4 x rest ih =>
    rw [List.cons_append, List.cons_append, Literal.bodyLength?] at hLength ⊢
    obtain ⟨k, hRest, rfl⟩ := Option.map_eq_some_iff.mp hLength
    rw [ih hRest (by simpa using hFits)]
    rfl
  | case5 x rest hQuote hNewline hEscape ih =>
    cases rest with
    | nil =>
      -- the quote would be the only byte before the cut
      rw [List.cons_append, List.nil_append] at hLength
      have hZero : n = 0 := by simpa using hFits
      subst hZero
      unfold Literal.bodyLength? at hLength
      split at hLength
      · cases hLength
      · rename_i hText
        cases hText
        exact absurd rfl hQuote
      · cases hLength
      · simp at hLength
      · simp at hLength
    | cons y rest =>
      rw [List.cons_append, Literal.bodyLength?] at hLength ⊢
      · obtain ⟨k, hRest, rfl⟩ := Option.map_eq_some_iff.mp hLength
        rw [ih hRest (by simpa using hFits)]
        rfl
      all_goals first
        | exact hQuote
        | exact hNewline
        | (intro d more hSlash hText
           cases hText
           exact hEscape _ _ hSlash rfl)

theorem quoteDistance?_cut (hDistance : quoteDistance? (p ++ a) = some n) (hFits : n < p.length)
    (b : Bytes) : quoteDistance? (p ++ b) = some n := by
  induction p generalizing n with
  | nil => simp at hFits
  | cons x p ih =>
    rw [List.cons_append, quoteDistance?] at hDistance ⊢
    split
    · rename_i hQuote
      rwa [if_pos hQuote] at hDistance
    · rename_i hQuote
      rw [if_neg hQuote] at hDistance
      obtain ⟨k, hRest, rfl⟩ := Option.map_eq_some_iff.mp hDistance
      rw [ih hRest (by simpa using hFits)]
      rfl

variable {v : Int32}

theorem octalTail_cut (hFits : (Literal.octalTail n v (p ++ a)).2 < p.length) (b : Bytes) :
    Literal.octalTail n v (p ++ b) = Literal.octalTail n v (p ++ a) := by
  induction n generalizing v p with
  | zero => rfl
  | succ n ih =>
    cases p with
    | nil => simp at hFits
    | cons x p =>
      rw [List.cons_append, Literal.octalTail] at hFits
      rw [List.cons_append, List.cons_append, Literal.octalTail, Literal.octalTail]
      split
      · rename_i hOctal
        rw [if_pos hOctal] at hFits
        rw [ih (by simpa using hFits)]
      · rfl

theorem hexTail_cut (hFits : (Literal.hexTail v (p ++ a)).2 < p.length) (b : Bytes) :
    Literal.hexTail v (p ++ b) = Literal.hexTail v (p ++ a) := by
  induction p generalizing v with
  | nil => simp at hFits
  | cons x p ih =>
    rw [List.cons_append, Literal.hexTail] at hFits
    rw [List.cons_append, List.cons_append, Literal.hexTail, Literal.hexTail]
    split
    · rename_i d hDigit
      rw [hDigit] at hFits
      rw [ih (by simpa using hFits)]
    · rfl

/- An escape sequence that ends before a cut is read without what follows. -/
theorem readEscape_cut {k : Nat} (hRead : Literal.readEscape (p ++ a) = .ok (v, k))
    (hFits : k < p.length) (b : Bytes) : Literal.readEscape (p ++ b) = .ok (v, k) := by
  cases p with
  | nil => simp at hFits
  | cons x p =>
    rw [List.cons_append, Literal.readEscape] at hRead ⊢
    simp only [List.length_cons] at hFits
    split
    · rename_i hOctal
      simp only [if_pos hOctal] at hRead
      cases hRead
      rw [octalTail_cut (a := a) (by omega)]
    · rename_i hOctal
      simp only [if_neg hOctal] at hRead
      split
      · rename_i hHex
        simp only [if_pos hHex] at hRead
        split at hRead
        · cases hRead
        · rename_i hSome
          cases hRead
          rw [hexTail_cut (a := a) (by omega)]
          exact if_neg hSome
      · rename_i hHex
        simpa only [if_neg hHex] using hRead

/- The first character of a constant is read without what follows a cut. -/
theorem charValue_cut {used : Nat} (hValue : charValue (p ++ a) = .ok (v, used))
    (hFits : used < p.length) (b : Bytes) : charValue (p ++ b) = .ok (v, used) := by
  cases p with
  | nil => simp at hFits
  | cons x p =>
    rw [List.cons_append, charValue] at hValue ⊢
    simp only [List.length_cons] at hFits
    split
    · rename_i hEscape
      rw [if_pos hEscape] at hValue
      cases hRead : Literal.readEscape (p ++ a) with
      | error e =>
        rw [hRead] at hValue
        cases hValue
      | ok r =>
        obtain ⟨w, k⟩ := r
        rw [hRead] at hValue
        cases hValue
        rw [readEscape_cut hRead (by omega)]
    · rename_i hEscape
      rw [if_neg hEscape] at hValue
      cases hDecode : Utf8.decode? (x :: (p ++ a)) with
      | none =>
        rw [hDecode] at hValue
        cases hValue
      | some r =>
        obtain ⟨c, rest⟩ := r
        rw [hDecode] at hValue
        cases hValue
        obtain ⟨q, -, -, hSame⟩ := Utf8.decode?_cut hDecode (.inl (by omega))
        rw [hSame b]

variable {elem : LitType}

theorem stringLexeme_cut {skip : Nat} {lx : Lexeme}
    (hLexeme : stringLexeme elem skip (p ++ a) = .ok lx) (hFits : lx.extra ≤ skip + p.length)
    (b : Bytes) : stringLexeme elem skip (p ++ b) = .ok lx := by
  unfold stringLexeme at hLexeme ⊢
  cases hLength : Literal.bodyLength? (p ++ a) with
  | none =>
    rw [hLength] at hLexeme
    cases hLexeme
  | some n =>
    rw [hLength] at hLexeme
    simp only at hLexeme
    cases hBytes : Literal.decodeBody elem (skip + 1) ((p ++ a).take n) with
    | error e =>
      rw [hBytes] at hLexeme
      cases hLexeme
    | ok bytes =>
      rw [hBytes] at hLexeme
      cases hLexeme
      have hShort : n < p.length := by
        simp only at hFits
        omega
      rw [List.take_append_of_le_length hShort.le] at hBytes
      rw [bodyLength?_cut hLength hShort b]
      simp only [List.take_append_of_le_length hShort.le, hBytes]
      rfl

variable {type : LitType} {fix : Int64 → Int64}

theorem charLexeme_cut {skip : Nat} {lx : Lexeme}
    (hLexeme : charLexeme type skip fix (p ++ a) = .ok lx) (hFits : lx.extra ≤ skip + p.length)
    (b : Bytes) : charLexeme type skip fix (p ++ b) = .ok lx := by
  unfold charLexeme at hLexeme ⊢
  split at hLexeme
  · cases hLexeme
  · cases hLexeme
  · rename_i v used hValue
    split at hLexeme
    · cases hLexeme
    · rename_i n hDistance
      cases hLexeme
      simp only at hFits
      have hUsed : used ≤ p.length := by omega
      rw [List.drop_append_of_le_length hUsed] at hDistance
      rw [charValue_cut hValue (by omega) b]
      simp only [List.drop_append_of_le_length hUsed]
      rw [quoteDistance?_cut hDistance (by
        rw [List.length_drop]
        omega) b]

/- What a literal starts with, up to its quote. -/
def literalHeads : List Bytes :=
  [[0x22], [0x75, 0x38, 0x22], [0x75, 0x22], [0x4C, 0x22],
    [0x55, 0x22], [0x27], [0x75, 0x27], [0x4C, 0x27], [0x55, 0x27]]

theorem literal?_isSome : (literal? s).isSome = true ↔ ∃ q ∈ literalHeads, q <+: s := by
  constructor
  · intro hSome
    unfold literal? at hSome
    split at hSome <;> first
      | exact absurd hSome Bool.false_ne_true
      | simp [literalHeads]
  · rintro ⟨q, hq, rest, rfl⟩
    simp only [literalHeads, List.mem_cons, List.not_mem_nil, or_false] at hq
    rcases hq with rfl | rfl | rfl | rfl | rfl | rfl | rfl | rfl | rfl <;> rfl

/- Where no literal starts before a cut, none starts after it. -/
theorem literal?_none_cut {b : Bytes} (hCloses : Closes b) (hNone : literal? (p ++ a) = none) :
    literal? (p ++ b) = none := by
  rw [← Option.not_isSome_iff_eq_none, literal?_isSome] at hNone ⊢
  rintro ⟨q, hq, hPrefix⟩
  have hBlank : ∀ q ∈ literalHeads, 0x20 ∉ q ∧ 0x0A ∉ q := by decide
  exact not_prefix_cut hCloses (hBlank q hq) (fun hThere => hNone ⟨q, hq, hThere⟩) hPrefix

/- The part of a start that reaches no further than a cut. -/
theorem split_start {q body : Bytes} (hText : p ++ a = q ++ body) (hFits : q.length ≤ p.length) :
    ∃ p', p = q ++ p' ∧ body = p' ++ a := by
  obtain ⟨p', rfl⟩ := List.prefix_of_prefix_length_le
    ⟨body, hText.symm⟩ (List.prefix_append p a) hFits
  rw [List.append_assoc] at hText
  exact ⟨p', rfl, (List.append_cancel_left hText).symm⟩

theorem stringLexeme_past {skip : Nat} {body : Bytes} {lx : Lexeme}
    (hLexeme : stringLexeme elem skip body = .ok lx) : skip < lx.extra := by
  unfold stringLexeme at hLexeme
  split at hLexeme
  · cases hLexeme
  · rename_i n hLength
    cases hBytes : Literal.decodeBody elem (skip + 1) (body.take n) with
    | error e =>
      rw [hBytes] at hLexeme
      cases hLexeme
    | ok bytes =>
      rw [hBytes] at hLexeme
      cases hLexeme
      simp only
      omega

theorem charLexeme_past {skip : Nat} {body : Bytes} {lx : Lexeme}
    (hLexeme : charLexeme type skip fix body = .ok lx) : skip < lx.extra := by
  unfold charLexeme at hLexeme
  split at hLexeme
  · cases hLexeme
  · cases hLexeme
  · split at hLexeme
    · cases hLexeme
    · cases hLexeme
      simp only
      omega

variable {q body b : Bytes} {lx : Lexeme} {skip : Nat}

/- A string literal behind its encoding letters and quote. -/
theorem string_cut (hText : p ++ a = q ++ body) (hLexeme : stringLexeme elem skip body = .ok lx)
    (hSkip : q.length = skip + 1) (hFits : lx.extra < p.length) :
    ∃ p', p = q ++ p' ∧ stringLexeme elem skip (p' ++ b) = .ok lx := by
  have hPast := stringLexeme_past hLexeme
  obtain ⟨p', rfl, rfl⟩ := split_start hText (by omega)
  rw [List.length_append] at hFits
  exact ⟨p', rfl, stringLexeme_cut hLexeme (by omega) b⟩

/- A character constant behind its encoding letters and quote. -/
theorem char_cut (hText : p ++ a = q ++ body) (hLexeme : charLexeme type skip fix body = .ok lx)
    (hSkip : q.length = skip + 1) (hFits : lx.extra < p.length) :
    ∃ p', p = q ++ p' ∧ charLexeme type skip fix (p' ++ b) = .ok lx := by
  have hPast := charLexeme_past hLexeme
  obtain ⟨p', rfl, rfl⟩ := split_start hText (by omega)
  rw [List.length_append] at hFits
  exact ⟨p', rfl, charLexeme_cut hLexeme (by omega) b⟩

/- A literal that ends before a cut is read without what follows. -/
theorem literal?_cut (hLiteral : literal? (p ++ a) = some (.ok lx)) (hFits : lx.extra < p.length) :
    literal? (p ++ b) = some (.ok lx) := by
  unfold literal? at hLiteral
  split at hLiteral <;> rename_i hText
  · obtain ⟨p', rfl, hSame⟩ := string_cut (b := b) (q := [0x22])
      hText (Option.some.inj hLiteral) rfl hFits
    exact congrArg some hSame
  · obtain ⟨p', rfl, hSame⟩ := string_cut (b := b) (q := [0x75, 0x38, 0x22]) hText
      (Option.some.inj hLiteral) rfl hFits
    exact congrArg some hSame
  · obtain ⟨p', rfl, hSame⟩ := string_cut (b := b) (q := [0x75, 0x22]) hText
      (Option.some.inj hLiteral) rfl hFits
    exact congrArg some hSame
  · obtain ⟨p', rfl, hSame⟩ := string_cut (b := b) (q := [0x4C, 0x22]) hText
      (Option.some.inj hLiteral) rfl hFits
    exact congrArg some hSame
  · obtain ⟨p', rfl, hSame⟩ := string_cut (b := b) (q := [0x55, 0x22]) hText
      (Option.some.inj hLiteral) rfl hFits
    exact congrArg some hSame
  · obtain ⟨p', rfl, hSame⟩ := char_cut (b := b) (q := [0x27])
      hText (Option.some.inj hLiteral) rfl hFits
    exact congrArg some hSame
  · obtain ⟨p', rfl, hSame⟩ := char_cut (b := b) (q := [0x75, 0x27]) hText
      (Option.some.inj hLiteral) rfl hFits
    exact congrArg some hSame
  · obtain ⟨p', rfl, hSame⟩ := char_cut (b := b) (q := [0x4C, 0x27]) hText
      (Option.some.inj hLiteral) rfl hFits
    exact congrArg some hSame
  · obtain ⟨p', rfl, hSame⟩ := char_cut (b := b) (q := [0x55, 0x27]) hText
      (Option.some.inj hLiteral) rfl hFits
    exact congrArg some hSame
  · cases hLiteral

end Lexer

------------
-- Lexemes
------------

namespace Lexer

variable {p a b : Bytes} {cfg : Config} {lx : Lexeme}

theorem lt_of_isPunct (hPunct : Bytes.isPunct x = true) : x < 0x80 := by
  simp only [Bytes.isPunct, Bool.and_eq_true, decide_eq_true_eq] at hPunct
  exact UInt8.lt_of_le_of_lt hPunct.1.1.2 (by decide)

/- A sign starts with a byte that is a code point by itself. -/
theorem head_of_punctLength? (hLength : punctLength? (x :: s) = some n) : x < 0x80 := by
  unfold punctLength? at hLength
  split at hLength
  · rename_i q hFind
    have hStarts := Bytes.startsWith_iff.mp (List.find?_some hFind)
    have hHead : ∀ q ∈ longPuncts, 0x80 > q.headD 0x80 := by decide
    have hLow := hHead q (List.mem_of_find?_eq_some hFind)
    cases q with
    | nil => exact absurd hLow (by decide)
    | cons y q =>
      obtain ⟨rfl, -⟩ := List.cons_prefix_cons.mp hStarts
      exact hLow
  · simp only at hLength
    split at hLength
    · exact lt_of_isPunct ‹_›
    · cases hLength

theorem word_cons (cfg : Config) (hDecode : Utf8.decode? (x :: tail) = some (c, rest)) :
    word cfg (x :: tail) = if CharClass.isIdentStart c && allowed cfg c then
        { wordTail cfg (Utf8.leadLength x) rest with
          dollars := dollarAt c 0 ++
            (wordTail cfg (Utf8.leadLength x) rest).dollars }
      else ⟨0, [], none⟩ := by
  unfold word
  rw [hDecode]

/- A word that ends before a cut is read without what follows. -/
theorem word_cut (hCloses : Closes b) (hFine : (word cfg (p ++ a)).error? = none)
    (hSome : 0 < (word cfg (p ++ a)).length) (hFits : (word cfg (p ++ a)).length ≤ p.length)
    (hEnd : (word cfg (p ++ a)).length = p.length ∨ Bounds a) :
    word cfg (p ++ b) = word cfg (p ++ a) := by
  cases p with
  | nil =>
    rw [List.length_nil] at hFits
    omega
  | cons x p =>
    rw [List.cons_append] at hFine hSome hFits hEnd
    rw [List.cons_append, List.cons_append]
    cases hDecode : Utf8.decode? (x :: (p ++ a)) with
    | none =>
      unfold word at hFine
      rw [hDecode] at hFine
      cases hFine
    | some r =>
      obtain ⟨c, rest⟩ := r
      rw [word_cons cfg hDecode] at hFine hSome hFits hEnd ⊢
      split at hSome
      · rename_i hStart
        rw [if_pos hStart] at hFine hFits hEnd ⊢
        have hLead := base_le_wordTail cfg (Utf8.leadLength x) rest
        simp only [List.length_cons] at hFine hFits hEnd
        obtain ⟨q, rfl, hLength, hSame⟩ := Utf8.decode?_cut hDecode (.inl (by omega))
        rw [word_cons cfg (hSame b), if_pos hStart, wordTail_cut hCloses hFine (by omega)
            (hEnd.imp_left (by omega))]
      · cases hSome

/- No word starts with a sign, whatever follows. -/
theorem word_sign {t : Bytes} (hLow : x < 0x80) (hNone : (word cfg (x :: s)).length = 0) :
    word cfg (x :: t) = ⟨0, [], none⟩ := by
  have hDecode : ∀ t, Utf8.decode? (x :: t) = some (x.toNat, t) := fun t => by
    rw [Utf8.decode?, if_pos hLow]
  rw [word_cons cfg (hDecode s)] at hNone
  rw [word_cons cfg (hDecode t)]
  split
  · rename_i hStart
    rw [if_pos hStart] at hNone
    have hLead := base_le_wordTail cfg (Utf8.leadLength x) s
    have hPos := Utf8.leadLength_pos x
    simp only at hNone
    omega
  · rfl

/-
  The token at the start of a text is the same when the text
  is cut behind it and closed.  The cut is where the token
  ends, or it goes through no code point.
-/
theorem lexeme_cut (hCloses : Closes b) (hLexeme : (lexeme cfg (p ++ a)).2 = .ok lx)
    (hFits : lx.extra < p.length) (hEnd : lx.extra + 1 = p.length ∨ Bounds a) :
    (lexeme cfg (p ++ b)).2 = .ok lx := by
  have hSome : p ≠ [] := by
    rintro rfl
    simp at hFits
  unfold lexeme at hLexeme ⊢
  by_cases hNumber : startsNumber (p ++ a) = true
  · rw [if_pos hNumber] at hLexeme
    cases hLexeme
    simp only at hFits
    rw [if_pos (startsNumber_stays hNumber hFits)]
    cases p with
    | nil => exact absurd rfl hSome
    | cons x p =>
      simp only [List.cons_append, List.tail_cons, List.length_cons] at hFits ⊢
      rw [numberTail_cut (a := a) hCloses (by omega)]
  · rw [if_neg hNumber] at hLexeme
    rw [Bool.not_eq_true] at hNumber
    rw [startsNumber_cut hSome hCloses hNumber, if_neg Bool.false_ne_true]
    cases hLiteral : literal? (p ++ a) with
    | some r =>
      rw [hLiteral] at hLexeme
      cases hLexeme
      rw [literal?_cut hLiteral hFits]
    | none =>
      rw [hLiteral] at hLexeme
      rw [literal?_none_cut hCloses hLiteral]
      simp only at hLexeme ⊢
      split at hLexeme
      · cases hLexeme
      · rename_i hFine
        split at hLexeme
        · rename_i hWord
          cases hLexeme
          simp only at hFits hEnd
          rw [word_cut hCloses hFine hWord (by omega) (hEnd.imp_left (by omega)), hFine]
          simp only [if_pos hWord]
        · rename_i hWord
          split at hLexeme
          · rename_i n hLength
            cases hLexeme
            simp only at hFits
            rw [punctLength?_cut hSome hCloses hLength (by omega)]
            cases p with
            | nil => exact absurd rfl hSome
            | cons x p =>
              rw [List.cons_append] at hLength hWord ⊢
              rw [word_sign (head_of_punctLength? hLength) (Nat.eq_zero_of_not_pos hWord)]
              rfl
          · cases hLexeme

end Lexer

end CCompiler
