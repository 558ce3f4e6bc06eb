import Mathlib
import CCompiler.Token.Number

/-
  Values and types of integer constants.

  The digits of a constant are read into a word that may be
  too small for them.  Once it has been too small, the word
  says nothing any more, but then the value is at least two to
  the sixty-four, and stays so with every further digit.  The
  type is chosen by how many bits of the word are used, which
  is the first one of the list for the form of the constant
  that holds the value.

  Main declarations:
    * `IntConstant.valueOf`, `IntConstant.Spelled`
    * `IntConstant.Marked`, `IntConstant.candidates`
    * `IntConstant.Holds`, `IntConstant.digits_append`
    * `IntConstant.typeOf_first`
    * `IntConstant.convert?_constant`
-/

namespace CCompiler

namespace IntConstant

------------
-- Forms of Constants
------------

/- Whether a byte is a digit of a base, of either case. -/
def isDigitOf (base : Nat) (b : UInt8) : Bool :=
  (Bytes.hexValue? b).any (· < base)

/- The number that digits of a base spell, the highest one first. -/
def valueOf (base : Nat) (ds : Bytes) : Nat :=
  Nat.ofDigits base
    (ds.reverse.map fun b => (Bytes.hexValue? b).getD 0)

/-
  Digits with the prefix of their base: the base, the text and
  the value.
-/
inductive Spelled : Nat → Bytes → Nat → Prop
| binary {x : UInt8} {ds : Bytes} :
    x ∈ ascii "bB" → ds ≠ [] → (∀ b ∈ ds, isDigitOf 2 b) →
    Spelled 2 (0x30 :: x :: ds) (valueOf 2 ds)
| octal {ds : Bytes} :
    (∀ b ∈ ds, isDigitOf 8 b) → Spelled 8 (0x30 :: ds) (valueOf 8 ds)
| decimal {d : UInt8} {ds : Bytes} :
    d ≠ 0x30 → (∀ b ∈ d :: ds, isDigitOf 10 b) →
    Spelled 10 (d :: ds) (valueOf 10 (d :: ds))
| hexadecimal {x : UInt8} {ds : Bytes} :
    x ∈ ascii "xX" → ds ≠ [] → (∀ b ∈ ds, isDigitOf 16 b) →
    Spelled 16 (0x30 :: x :: ds) (valueOf 16 ds)

/- The ways to write that a constant is unsigned. -/
def unsignedMarks : List Bytes :=
  ["u", "U"].map ascii

/- The ways to write that a constant is long, once or twice. -/
def longMarks : List Bytes :=
  ["l", "L", "ll", "LL"].map ascii

/- What a suffix is made of; its parts stand in either order. -/
inductive Marked : Suffix → Bytes → Prop
| plain : Marked ⟨false, false⟩ []
| unsigned {u : Bytes} :
    u ∈ unsignedMarks → Marked ⟨false, true⟩ u
| long {l : Bytes} :
    l ∈ longMarks → Marked ⟨true, false⟩ l
| unsignedLong {u l : Bytes} :
    u ∈ unsignedMarks → l ∈ longMarks → Marked ⟨true, true⟩ (u ++ l)
| longUnsigned {u l : Bytes} :
    u ∈ unsignedMarks → l ∈ longMarks → Marked ⟨true, true⟩ (l ++ u)

/-
  The types of a constant of some form, in the order in which
  the language tries them.  Twice long is as wide as long.
-/
def candidates (decimal : Bool) : Suffix → List LitType
| ⟨false, false⟩ =>
  if decimal then [.int, .long] else [.int, .uint, .long, .ulong]
| ⟨false, true⟩ => [.uint, .ulong]
| ⟨true, false⟩ => if decimal then [.long] else [.long, .ulong]
| ⟨true, true⟩ => [.ulong]

/- Whether a type of a constant can represent a number. -/
def holdsValue (value : Nat) : LitType → Bool
| .int => value < 2 ^ 31
| .uint => value < 2 ^ 32
| .long => value < 2 ^ 63
| .ulong => value < 2 ^ 64
| _ => false

------------
-- Digits
------------

variable {base : UInt64} {v : UInt64} {tooLarge : Bool}
variable {n d : Nat} {b : UInt8} {ds rest : Bytes}

theorem digitValue?_of_hexValue? (hDigit : Bytes.hexValue? b = some d) :
    digitValue? b = some d := by
  have hAll : ∀ b : UInt8, (Bytes.hexValue? b).isSome → digitValue? b = Bytes.hexValue? b := by
    decide +kernel
  rw [hAll b (by rw [hDigit]; rfl), hDigit]

/-
  A word for a number: the number itself, unless it was noted
  that the number is too large for a word.
-/
def Holds (v : UInt64) (tooLarge : Bool) (n : Nat) : Prop :=
  if tooLarge then 2 ^ 64 ≤ n else v.toNat = n

/- One more digit. -/
theorem Holds.digit (hHolds : Holds v tooLarge n) (hBase : base.toNat ≤ 16)
    (hDigit : d < base.toNat) :
    Holds (v * base + UInt64.ofNat d) (tooLarge || v > (0xFFFFFFFFFFFFFFFF - UInt64.ofNat d) / base)
      (n * base.toNat + d) := by
  cases tooLarge with
  | true =>
    have hLarge : 2 ^ 64 ≤ n := by simpa [Holds] using hHolds
    have hMore : n * 1 ≤ n * base.toNat := Nat.mul_le_mul_left n (by omega)
    simp only [Holds, Bool.true_or, if_true]
    omega
  | false =>
    have hWord : v.toNat = n := by simpa [Holds] using hHolds
    subst hWord
    have hSmall : (UInt64.ofNat d).toNat = d := UInt64.toNat_ofNat_of_lt' (show d < 2 ^ 64 by omega)
    have hRoom : (0xFFFFFFFFFFFFFFFF - UInt64.ofNat d).toNat = 2 ^ 64 - 1 - d := by
      rw [UInt64.toNat_sub_of_le _ _ (by
        rw [UInt64.le_iff_toNat_le, hSmall]
        simp
        omega), hSmall]
      rfl
    have hTest : v > (0xFFFFFFFFFFFFFFFF - UInt64.ofNat d) / base ↔
        2 ^ 64 - 1 < v.toNat * base.toNat + d := by
      rw [gt_iff_lt, UInt64.lt_iff_toNat_lt, UInt64.toNat_div,
        hRoom, Nat.div_lt_iff_lt_mul (by omega)]
      omega
    by_cases hOver : v > (0xFFFFFFFFFFFFFFFF - UInt64.ofNat d) / base
    · have hLarge := hTest.mp hOver
      simp only [Holds, hOver, decide_true, Bool.or_true, if_true]
      omega
    · have hFits := mt hTest.mpr hOver
      simp only [Holds, hOver, decide_false, Bool.or_false, Bool.false_eq_true, if_false]
      rw [UInt64.toNat_add, UInt64.toNat_mul, hSmall]
      omega

/- The number that more digits make of one. -/
def extended (base n : Nat) (ds : Bytes) : Nat :=
  ds.foldl (fun n b => n * base + (Bytes.hexValue? b).getD 0) n

theorem extended_eq (base n : Nat) (ds : Bytes) :
    extended base n ds = n * base ^ ds.length + valueOf base ds := by
  induction ds generalizing n with
  | nil => simp [extended, valueOf]
  | cons b ds ih =>
    have hRest := ih (n * base + (Bytes.hexValue? b).getD 0)
    simp only [extended, valueOf] at hRest ⊢
    rw [List.foldl_cons, hRest, List.reverse_cons,
      List.map_append, Nat.ofDigits_append, List.length_map,
      List.length_reverse, List.map_singleton,
      Nat.ofDigits_singleton, List.length_cons]
    ring

/- Digits are read up to the first byte that is none. -/
theorem digits_append (hHolds : Holds v tooLarge n) (hBase : base.toNat ≤ 16)
    (hDigits : ∀ b ∈ ds, isDigitOf base.toNat b)
    (hStops : ∀ b ∈ rest.head?, ∀ d, digitValue? b = some d → base.toNat ≤ d) :
    ∃ w large, digits base v tooLarge (ds ++ rest) = (w, large, rest) ∧
      Holds w large (extended base.toNat n ds) := by
  induction ds generalizing v tooLarge n with
  | nil =>
    refine ⟨v, tooLarge, ?_, hHolds⟩
    cases rest with
    | nil => rfl
    | cons b rest =>
      rw [List.nil_append, digits]
      cases hDigit : digitValue? b with
      | none => rfl
      | some d =>
        have hLarge := hStops b rfl d hDigit
        simp only [if_neg (Nat.not_lt.mpr hLarge)]
  | cons b ds ih =>
    obtain ⟨hFirst, hRest⟩ := List.forall_mem_cons.mp hDigits
    obtain ⟨d, hDigit, hSmall⟩ : ∃ d, Bytes.hexValue? b = some d ∧ d < base.toNat := by
      simpa [isDigitOf, Option.any_eq_true] using hFirst
    obtain ⟨w, large, hRun, hValue⟩ := ih (hHolds.digit hBase hSmall) hRest
    refine ⟨w, large, ?_, ?_⟩
    · rw [List.cons_append, digits, digitValue?_of_hexValue? hDigit]
      simpa only [if_pos hSmall] using hRun
    · rw [extended, List.foldl_cons, hDigit]
      exact hValue

/- The largest word stands for all numbers that are larger. -/
theorem number_append (hBase : base.toNat ≤ 16) (hDigits : ∀ b ∈ ds, isDigitOf base.toNat b)
    (hStops : ∀ b ∈ rest.head?, ∀ d, digitValue? b = some d → base.toNat ≤ d) :
    ∃ w, number base (ds ++ rest) = (w, rest) ∧ w.toNat = if valueOf base.toNat ds < 2 ^ 64
        then valueOf base.toNat ds else 2 ^ 64 - 1 := by
  obtain ⟨w, large, hRun, hValue⟩ :=
    digits_append (show Holds 0 false 0 from rfl) hBase hDigits hStops
  rw [extended_eq, Nat.zero_mul, Nat.zero_add] at hValue
  unfold number
  rw [hRun]
  refine ⟨_, rfl, ?_⟩
  cases large with
  | true =>
    have hLarge : 2 ^ 64 ≤ valueOf base.toNat ds := by simpa [Holds] using hValue
    rw [if_neg (Nat.not_lt.mpr hLarge)]
    rfl
  | false =>
    have hWord : w.toNat = valueOf base.toNat ds := by simpa [Holds] using hValue
    rw [← hWord, if_pos w.toNat_lt]
    rfl

------------
-- Suffixes
------------

variable {suf : Suffix} {suffix : Bytes}

/- A suffix is read, and its first letter is no digit of a base. -/
theorem Marked.read (hMarked : Marked suf suffix) :
    suffix? suffix = some suf ∧ ∀ b ∈ suffix.head?, b ∈ ascii "uUlL" := by
  have hUnsigned : ∀ u ∈ unsignedMarks, suffix? u = some ⟨false, true⟩ ∧
        ∀ b ∈ u.head?, b ∈ ascii "uUlL" := by
    decide +kernel
  have hLong : ∀ l ∈ longMarks, suffix? l = some ⟨true, false⟩ ∧
        ∀ b ∈ l.head?, b ∈ ascii "uUlL" := by
    decide +kernel
  have hBoth : ∀ u ∈ unsignedMarks, ∀ l ∈ longMarks,
      ∀ s ∈ [u ++ l, l ++ u], suffix? s = some ⟨true, true⟩ ∧ ∀ b ∈ s.head?, b ∈ ascii "uUlL" := by
    decide +kernel
  cases hMarked with
  | plain => exact ⟨rfl, nofun⟩
  | unsigned hMark => exact hUnsigned _ hMark
  | long hMark => exact hLong _ hMark
  | unsignedLong hMark hMark' => exact hBoth _ hMark _ hMark' _ (by simp)
  | longUnsigned hMark hMark' => exact hBoth _ hMark _ hMark' _ (by simp)

------------
-- Prefixes
------------

/- A zero that neither an x nor a b follows is an octal digit. -/
theorem base_octal
    (hOther : ∀ b ∈ rest.head?,
      Bytes.lower b ≠ Bytes.of 'x' ∧ Bytes.lower b ≠ Bytes.of 'b') :
    IntConstant.base (0x30 :: rest) = (8, 0x30 :: rest) := by
  rcases rest with - | ⟨x, - | ⟨d, rest⟩⟩
  · rfl
  · rfl
  · obtain ⟨hHex, hBinary⟩ := hOther x rfl
    simp [IntConstant.base, hHex, hBinary]

variable {radix value : Nat} {text : Bytes}

/- The base of a constant, and its digits with the suffix. -/
theorem Spelled.read (hSpelled : Spelled radix text value)
    (hHead : ∀ b ∈ suffix.head?, b ∈ ascii "uUlL") :
    ∃ ds, IntConstant.base (text ++ suffix) =
        (UInt64.ofNat radix, ds ++ suffix) ∧ radix ∈ [2, 8, 10, 16] ∧
      (∀ b ∈ ds, isDigitOf radix b) ∧ valueOf radix ds = value := by
  have hOctal : ∀ b, isDigitOf 8 b ∨ b ∈ ascii "uUlL" →
      Bytes.lower b ≠ Bytes.of 'x' ∧ Bytes.lower b ≠ Bytes.of 'b' := by
    decide +kernel
  cases hSpelled with
  | @binary x ds hLetter hSome hDigits =>
    refine ⟨ds, ?_, by simp, hDigits, rfl⟩
    have hLower : ∀ x ∈ ascii "bB", Bytes.lower x = Bytes.of 'b' := by decide +kernel
    have hBinary : ∀ b, isDigitOf 2 b → b = Bytes.of '0' ∨ b = Bytes.of '1' := by decide +kernel
    cases ds with
    | nil => exact absurd rfl hSome
    | cons d ds =>
      rcases hBinary d (hDigits d List.mem_cons_self) with rfl | rfl
      all_goals
        simp [IntConstant.base, hLower x hLetter]
        decide
  | @octal ds hDigits =>
    refine ⟨0x30 :: ds, ?_, by simp, ?_, ?_⟩
    · refine base_octal fun b hFirst => hOctal b ?_
      cases ds with
      | nil => exact .inr (hHead b hFirst)
      | cons d ds =>
        obtain rfl : d = b := Option.some.inj hFirst
        exact .inl (hDigits d List.mem_cons_self)
    · exact List.forall_mem_cons.mpr ⟨by decide, hDigits⟩
    · simp [valueOf, Nat.ofDigits_append]
      decide
  | @decimal d ds hNonzero hDigits =>
    refine ⟨d :: ds, ?_, by simp, hDigits, rfl⟩
    rw [List.cons_append, IntConstant.base]
    · rfl
    · rintro x e tail hCut
      exact hNonzero (List.cons.inj hCut).1
    · rintro tail hCut
      exact hNonzero (List.cons.inj hCut).1
  | @hexadecimal x ds hLetter hSome hDigits =>
    refine ⟨ds, ?_, by simp, hDigits, rfl⟩
    have hLower : ∀ x ∈ ascii "xX", Bytes.lower x = Bytes.of 'x' := by decide +kernel
    have hHex : ∀ b, isDigitOf 16 b → Bytes.isHex b = true := by decide +kernel
    cases ds with
    | nil => exact absurd rfl hSome
    | cons d ds => simp [IntConstant.base, hLower x hLetter, hHex d (hDigits d List.mem_cons_self)]

------------
-- Types
------------

/- The type is the first one of the list that holds the value. -/
theorem typeOf_first {decimal : Bool} {type : LitType} {word : Nat}
    (hWord : word = if value < 2 ^ 64 then value else 2 ^ 64 - 1)
    (hFirst : (candidates decimal suf).find? (holdsValue value) = some type) :
    typeOf decimal suf word = type := by
  obtain ⟨long, unsigned⟩ := suf
  have hFits : value < 2 ^ 64 := by
    have hHolds := List.find?_some hFirst
    cases type <;> simp [holdsValue] at hHolds <;> omega
  rw [if_pos hFits] at hWord
  subst hWord
  cases long <;> cases unsigned <;> cases decimal <;> grind [candidates, holdsValue, typeOf]

------------
-- Constants
------------

/-
  A preprocessing number that spells an integer constant
  becomes a number.  Its value is that of the digits, or the
  largest word where they are too many, and its type the first
  one of the list for its form that can represent the value.
-/
theorem convert?_constant {t : Token} (hKind : t.kind = .ppNum) (hText : t.text = text ++ suffix)
    (hSpelled : Spelled radix text value) (hMarked : Marked suf suffix) :
    ∃ type word, t.convert? = some { t with kind := .int type word } ∧
      word.toUInt64.toNat = (if value < 2 ^ 64 then value else 2 ^ 64 - 1) ∧
      ∀ first, (candidates (radix == 10) suf).find? (holdsValue value) = some first →
        type = first := by
  obtain ⟨hSuffix, hHead⟩ := hMarked.read
  obtain ⟨ds, hBase, hRadix, hDigits, rfl⟩ := hSpelled.read hHead
  have hSmall : radix ≤ 16 ∧ (UInt64.ofNat radix).toNat = radix ∧
      (UInt64.ofNat radix == 10) = (radix == 10) := by
    simp only [List.mem_cons, List.not_mem_nil, or_false] at hRadix
    rcases hRadix with rfl | rfl | rfl | rfl <;> decide
  obtain ⟨hBound, hSame, hDecimal⟩ := hSmall
  obtain ⟨word, hNumber, hWord⟩ :
      ∃ w, number (UInt64.ofNat radix) (ds ++ suffix) = (w, suffix) ∧ _ :=
    number_append (by omega) (by rwa [hSame]) fun b hFirst => by
        have hLetters : ∀ b ∈ ascii "uUlL", (digitValue? b).all (16 ≤ ·) = true := by decide +kernel
        intro d hValue
        have hLarge := hLetters b (hHead b hFirst)
        rw [hValue, Option.all_some, decide_eq_true_eq] at hLarge
        omega
  rw [hSame] at hWord
  have hRead : read? t.text = some (typeOf (radix == 10) suf word.toNat, word.toInt64) := by
    simp only [read?, hText, hBase, hNumber, hSuffix, hDecimal]
  refine ⟨typeOf (radix == 10) suf word.toNat, word.toInt64, ?_,
    hWord, fun first hFirst => typeOf_first hWord hFirst⟩
  rw [Token.convert?, hKind]
  simp only [hRead]

/- A hexadecimal constant that is one too large for an `int`. -/
theorem convert?_constant_unsigned :
    ({ (default : Token) with
        kind := .ppNum, text := ascii "0x80000000" } : Token).text =
      ascii "0x80000000" ++ [] ∧ Spelled 16 (ascii "0x80000000") (2 ^ 31) ∧
    Marked ⟨false, false⟩ [] ∧ ∃ type word, ({ (default : Token) with
          kind := .ppNum, text := ascii "0x80000000" } : Token).convert? =
        some { (default : Token) with
          kind := .int type word, text := ascii "0x80000000" } ∧
      word.toUInt64.toNat = 2 ^ 31 ∧ type = .uint := by
  have hSpelled : Spelled 16 (ascii "0x80000000") (2 ^ 31) := by
    have hForm : Spelled 16 (ascii "0x80000000") (valueOf 16 (ascii "80000000")) :=
      .hexadecimal (x := 0x78) (by decide) (by decide) (by decide +kernel)
    rwa [show valueOf 16 (ascii "80000000") = 2 ^ 31 from by decide +kernel] at hForm
  obtain ⟨type, word, hConvert, hWord, hType⟩ :=
    convert?_constant (t := { (default : Token) with
        kind := .ppNum, text := ascii "0x80000000" })
      rfl (List.append_nil _).symm hSpelled .plain
  exact ⟨(List.append_nil _).symm, hSpelled, .plain, type, word,
    hConvert, hWord, hType .uint (by decide)⟩

end IntConstant

end CCompiler
