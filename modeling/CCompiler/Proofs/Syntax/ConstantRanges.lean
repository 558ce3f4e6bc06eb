import Mathlib
import CCompiler.Proofs.Syntax.ConstantValues
import CCompiler.Proofs.Syntax.Stepping

/-
  The ranges of constants.

  Constants are worked out in words of 64 bits, and only
  conversions bring a number into the range of a narrower type.
  Where reading puts them decides which trees stay in range.
  All operators that have a result of the type of their operands
  get converted operands; then remainders and operators on bits
  stay in range, and truth values always do.  Sums, differences,
  products, quotients, shifts and changes of the sign have the
  number that they give, which nothing brings into range.

  Main declarations:
    * `IntType.Misses`, `Constant.truncate_eq_iff`
    * `BinOp.Outside`, `UnOp.Outside`
    * `Constant.Made`, `Constant.Settled`, `Constant.Made.settled`
    * `Constant.Overruns`, `Constant.Settled.misses`
    * `Constant.evalInt_in_range`
-/

------------
-- Words in the Range of a Type
------------

namespace CCompiler

/- A number that a type narrower than a word does not have. -/
def IntType.Misses (τ : IntType) (x : Int) : Prop :=
  τ.bits < 64 ∧ ¬ τ.Has x

instance  (τ : IntType) (x : Int) : Decidable (τ.Misses x) := inferInstanceAs (Decidable (_ ∧ _))

/- Words have room for all that types of their size have. -/
theorem IntType.not_misses {τ : IntType} (hWide : ¬ τ.bits < 64) (x : Int) : ¬ τ.Misses x :=
  fun hMisses => hWide hMisses.1

namespace Constant

variable {t : CType} {τ : IntType} {rs : Records} {w a b : Int64}
  {x : Int}

/- Values of narrow types are among the numbers that words have. -/
theorem narrow_range (hNarrow : τ.bits < 64) (hHas : τ.Has x) : -2 ^ 31 ≤ x ∧ x < 2 ^ 32 := by
  rcases τ with _ | ⟨k, u⟩
  · have hRange : 0 ≤ x ∧ x ≤ 1 := hHas
    omega
  · cases u <;> cases k <;> simp only [IntType.Has, IntType.least,
      IntType.greatest, IntType.isUnsigned, IntType.bits,
      Bool.false_eq_true, if_false, if_true] at hHas hNarrow <;> omega

/- Every word is the word of the number that it is with its sign. -/
theorem has_toInt (w : Int64) : (IntType.of .long false).Has w.toInt := by
  have hLow := Int64.le_toInt w
  have hHigh := Int64.toInt_lt w
  change -2 ^ 63 ≤ w.toInt ∧ w.toInt ≤ 2 ^ 63 - 1
  omega

/-
  A conversion leaves just the words alone that are in the range
  of the type.
-/
theorem truncate_eq_iff (rs : Records) (hValues : t.values? = some τ) (w : Int64) :
    truncate rs w t = w ↔ ¬ τ.Misses w.toInt := by
  have hWord := truncate_word rs hValues (has_toInt w)
  rw [Int64.ofInt_toInt] at hWord
  rw [hWord]
  by_cases hNarrow : τ.bits < 64
  · have hConvert := τ.has_convert w.toInt
    have hRange := narrow_range hNarrow hConvert
    have hLong : (IntType.of .long false).Has (τ.convert w.toInt) := by
      change -2 ^ 63 ≤ _ ∧ _ ≤ 2 ^ 63 - 1
      omega
    have hSame := hLong.int64_inj (has_toInt w)
    rw [Int64.ofInt_toInt] at hSame
    rw [hSame, IntType.Misses, not_and, not_not]
    refine ⟨fun hEq _ => hEq ▸ hConvert, fun hHas => ?_⟩
    exact IntType.convert_of_has (hHas hNarrow)
  · refine iff_of_true ?_ fun hMisses => hNarrow hMisses.1
    rcases τ with _ | ⟨k, u⟩
    · exact absurd (by decide) hNarrow
    · have hBits : (IntType.of k u).bits = 64 := by cases k <;> simp_all [IntType.bits]
      have hCongr := IntType.convert_modEq k u w.toInt
      rw [hBits] at hCongr
      rw [Word.int64_congr hCongr, Int64.ofInt_toInt]

/- What is a number in range for its type, and what is left of a large one. -/
theorem misses_word (hLow : -2 ^ 63 ≤ x) (hHigh : x ≤ (2 ^ 32 - 1) ^ 2) :
    τ.Misses (Int64.ofInt x).toInt ↔ τ.Misses x := by
  by_cases hSmall : x < 2 ^ 63
  · rw [Word.int64_toInt hLow hSmall]
  · have hSame : x ≡ x - 2 ^ 64 [ZMOD 2 ^ 64] := (Int.modEq_iff_dvd.mpr ⟨-1, by ring⟩)
    have hLeft : (Int64.ofInt x).toInt = x - 2 ^ 64 := by
      rw [Word.int64_congr hSame]
      exact Word.int64_toInt (by omega) (by omega)
    unfold IntType.Misses
    rw [hLeft]
    refine and_congr_right fun hNarrow => ?_
    refine not_congr (iff_of_false (fun hHas => ?_) fun hHas => ?_)
    · have hRange := narrow_range hNarrow hHas
      omega
    · have hRange := narrow_range hNarrow hHas
      omega

end Constant

------------
-- Operators on Bits
------------

namespace Word

variable {n : Nat} {x y : Int}

/- A number that is one of some bits, or the complement of one. -/
def Below (n : Nat) (x : Int) : Prop :=
  -2 ^ n ≤ x ∧ x < 2 ^ n

theorem below_natCast (n m : Nat) : Below n (m : Int) ↔ m < 2 ^ n := by
  have hPos : (0 : Int) ≤ 2 ^ n := by positivity
  have hCast : ((m : Int) < 2 ^ n) ↔ m < 2 ^ n := by norm_cast
  rw [← hCast, Below]
  omega

theorem below_negSucc (n m : Nat) : Below n (Int.negSucc m) ↔ m < 2 ^ n := by
  have hPos : (0 : Int) ≤ 2 ^ n := by positivity
  have hCast : ((m : Int) < 2 ^ n) ↔ m < 2 ^ n := by norm_cast
  rw [← hCast, Below, Int.negSucc_eq]
  omega

theorem ldiff_lt {k m : Nat} (hLess : k < 2 ^ n) : k.ldiff m < 2 ^ n := by
  apply Nat.lt_pow_two_of_testBit
  intro i hHigh
  have hPow : k < 2 ^ i := hLess.trans_le (Nat.pow_le_pow_right (by norm_num) hHigh)
  rw [Nat.testBit_ldiff, Nat.testBit_lt_two_pow hPow, Bool.false_and]

/- Operators on bits give numbers of no more bits. -/
theorem Below.bitwise (hLeft : Below n x) (hRight : Below n y) :
    Below n (x.land y) ∧ Below n (x.lor y) ∧ Below n (x.xor y) := by
  cases x <;> cases y <;> simp only [Int.ofNat_eq_natCast, below_natCast, below_negSucc]
      at hLeft hRight <;>
    simp only [Int.land, Int.lor, Int.xor, below_natCast, below_negSucc] <;>
    simp only [Nat.and_lt_two_pow, Nat.or_lt_two_pow,
      Nat.xor_lt_two_pow, ldiff_lt, hLeft, hRight, and_self]

theorem nonneg_bitwise (hLeft : 0 ≤ x) (hRight : 0 ≤ y) :
    0 ≤ x.land y ∧ 0 ≤ x.lor y ∧ 0 ≤ x.xor y := by
  lift x to Nat using hLeft
  lift y to Nat using hRight
  exact ⟨Int.natCast_nonneg _, Int.natCast_nonneg _, Int.natCast_nonneg _⟩

end Word

namespace IntType

variable {τ : IntType} {x y : Int}

/- The values of a type are all numbers of some bits, or those without sign. -/
theorem has_iff_below (τ : IntType) (x : Int) :
    τ.Has x ↔ if τ.isUnsigned then 0 ≤ x ∧ Word.Below τ.bits x
      else Word.Below (τ.bits - 1) x := by
  unfold Has least greatest Word.Below
  cases τ.isUnsigned
  · simp only [Bool.false_eq_true, if_false]
    omega
  · have hPos : (0 : Int) ≤ 2 ^ τ.bits := by positivity
    simp only [if_true]
    omega

/- Operators on the bits of values give values. -/
theorem Has.bitwise (hLeft : τ.Has x) (hRight : τ.Has y) :
    τ.Has (x.land y) ∧ τ.Has (x.lor y) ∧ τ.Has (x.xor y) := by
  simp only [has_iff_below] at *
  cases hSign : τ.isUnsigned
  · simp only [hSign, Bool.false_eq_true, if_false] at *
    exact hLeft.bitwise hRight
  · simp only [hSign, if_true] at *
    have hSigns := Word.nonneg_bitwise hLeft.1 hRight.1
    have hBits := hLeft.2.bitwise hRight.2
    exact ⟨⟨hSigns.1, hBits.1⟩, ⟨hSigns.2.1, hBits.2.1⟩, hSigns.2.2, hBits.2.2⟩

end IntType

------------
-- Results of Operators
------------

open Constant

/-
  Whether the number that an operator gives for two words is
  outside of its type.  All bits of a shift to the left that a
  word has no room for are lost.
-/
def BinOp.Outside (op : BinOp) (τ : IntType) (a b : Int64) : Prop :=
  match op with
  | .add => τ.Misses (a.toInt + b.toInt)
  | .sub => τ.Misses (a.toInt - b.toInt)
  | .mul => τ.Misses (a.toInt * b.toInt)
  | .div => τ.Misses (a.toInt.tdiv b.toInt)
  | .shl =>
    τ.Misses ((a.toInt * 2 ^ b.toUInt64.toNat).bmod (2 ^ 64))
  | .shr => τ.Misses (a.toInt / 2 ^ b.toUInt64.toNat)
  | _ => False

/- The same for an operator on one word. -/
def UnOp.Outside (op : UnOp) (τ : IntType) (a : Int64) : Prop :=
  match op with
  | .neg => τ.Misses (-a.toInt)
  | .bitNot => τ.Misses (-a.toInt - 1)
  | _ => False

namespace Constant

variable {t u : CType} {τ : IntType} {a b v : Int64} {op : BinOp}

theorem misses_ofBool (p : Bool) : ¬ τ.Misses (ofBool p).toInt := by
  refine fun hMisses => hMisses.2 ?_
  cases p
  · exact IntType.has_zero τ
  · rcases τ with _ | ⟨k, u⟩
    · decide
    · cases k <;> cases u <;> decide

/- The count of a shift as a number without sign. -/
theorem ofInt_count (b : Int64) : Int64.ofInt b.toUInt64.toNat = b := by
  rw [← Word.toInt64_eq, Int64.toInt64_toUInt64]

theorem count_small (hCount : b.toUInt64 < 64) :
    0 ≤ (b.toUInt64.toNat : Int) ∧ (b.toUInt64.toNat : Int) < 64 := by
  have hNat : b.toUInt64.toNat < 64 := UInt64.lt_iff_toNat_lt.mp hCount
  omega

theorem count_large (hCount : ¬ b.toUInt64 < 64) : 64 ≤ b.toUInt64.toNat :=
  not_lt.mp fun hNat => hCount (UInt64.lt_iff_toNat_lt.mpr hNat)

theorem toInt_shiftLeft (a b : Int64) :
    (shiftLeft a b).toInt = (a.toInt * 2 ^ b.toUInt64.toNat).bmod (2 ^ 64) := by
  by_cases hCount : b.toUInt64 < 64
  · have hSmall := count_small hCount
    have hShift := Word.int64_shiftLeft (a := a.toInt) hSmall.1 hSmall.2
    rw [ofInt_count, Int64.ofInt_toInt, Int.toNat_natCast] at hShift
    rw [hShift, Int64.toInt_ofInt]
    rfl
  · have hDvd : (2 : Int) ^ 64 ∣ a.toInt * 2 ^ b.toUInt64.toNat :=
      (pow_dvd_pow 2 (count_large hCount)).mul_left _
    rw [shiftLeft, if_neg hCount]
    exact (Int.bmod_eq_zero_of_dvd hDvd).symm

theorem toInt_shiftRight (a b : Int64) :
    (shiftRight a b).toInt = a.toInt / 2 ^ b.toUInt64.toNat := by
  have hLow := Int64.le_toInt a
  have hHigh := Int64.toInt_lt a
  by_cases hCount : b.toUInt64 < 64
  · have hSmall := count_small hCount
    have hShift := Word.int64_shiftRight hSmall.1 hSmall.2 hLow hHigh
    rw [ofInt_count, Int64.ofInt_toInt, Int.toNat_natCast] at hShift
    have hHas := (has_toInt a).shift b.toUInt64.toNat
    change -2 ^ 63 ≤ _ ∧ _ ≤ 2 ^ 63 - 1 at hHas
    rw [hShift]
    exact Word.int64_toInt hHas.1 (by omega)
  · have hPow : (2 : Int) ^ 63 ≤ 2 ^ b.toUInt64.toNat :=
      pow_le_pow_right₀ (by norm_num) (by have := count_large hCount; omega)
    have hPos : (0 : Int) < 2 ^ b.toUInt64.toNat := by positivity
    rw [shiftRight, if_neg hCount]
    split
    · rename_i hSign
      have hNeg : a.toInt < 0 := Int64.lt_iff_toInt_lt.mp hSign
      rw [Int.ediv_eq_neg_one_of_neg_of_le hNeg (by omega)]
      rfl
    · rename_i hSign
      have hPos : 0 ≤ a.toInt := not_lt.mp fun hNeg => hSign (Int64.lt_iff_toInt_lt.mpr hNeg)
      exact (Int.ediv_eq_zero_of_lt hPos (by omega)).symm

/- A number in range for a narrow type is in the range of the result. -/
theorem exact_range {tok : Token} {x y z : Int} (hNarrow : τ.bits < 64) (hLeft : τ.Has x)
    (hRight : τ.Has y) (hOp : op = .add ∨ op = .sub ∨ op = .mul ∨ op = .div)
    (hExact : op.exact tok x y = .ok z) : -2 ^ 63 ≤ z ∧ z ≤ (2 ^ 32 - 1) ^ 2 := by
  have hX := narrow_range hNarrow hLeft
  have hY := narrow_range hNarrow hRight
  rcases hOp with rfl | rfl | rfl | rfl
  · cases hExact
    omega
  · cases hExact
    omega
  · cases hExact
    constructor <;> nlinarith
  · simp only [BinOp.exact] at hExact
    split at hExact
    · cases hExact
    · cases hExact
      have hAbs : (x.tdiv y).natAbs ≤ x.natAbs := by
        rw [Int.natAbs_tdiv]
        exact Nat.div_le_self _ _
      omega

/-
  The result of an operator whose operands are values of its
  type: it is in range just if the exact number is.
-/
theorem intBinary?_misses (rs : Records) (hValues : t.values? = some τ)
    (hLogical : op.isLogical = false) (hCompare : op.isComparison = false)
    (hShift : op.isShift = false) (hNarrow : τ.bits < 64) (hLeft : τ.Has a.toInt)
    (hRight : τ.Has b.toInt) (hResult : intBinary? op t (t.size rs) u a b = some v) :
    τ.Misses v.toInt ↔ op.Outside τ a b := by
  have hExact : ∀ z, op.exact default a.toInt b.toInt = .ok z → v = Int64.ofInt z := by
    intro z hExact
    have hWord := intBinary?_exact (u := u) rs hLogical hCompare hShift hValues hLeft hRight hExact
    rw [Int64.ofInt_toInt, Int64.ofInt_toInt, hResult] at hWord
    exact Option.some.inj hWord
  have hOutside : ∀ z, op.exact default a.toInt b.toInt = .ok z →
      (op = .add ∨ op = .sub ∨ op = .mul ∨ op = .div) →
      (τ.Misses v.toInt ↔ τ.Misses z) := by
    intro z hOk hOp
    have hRange := exact_range hNarrow hLeft hRight hOp hOk
    rw [hExact z hOk]
    exact misses_word hRange.1 hRange.2
  have hInside : ∀ z, op.exact default a.toInt b.toInt = .ok z →
      τ.Has z → (τ.Misses v.toInt ↔ False) := by
    intro z hOk hHas
    have hRange := narrow_range hNarrow hHas
    rw [hExact z hOk, misses_word (by omega) (by omega)]
    exact iff_of_false (fun hMisses => hMisses.2 hHas) not_false
  have hBits := hLeft.bitwise hRight
  cases op
  case add => exact hOutside _ rfl (by simp)
  case sub => exact hOutside _ rfl (by simp)
  case mul => exact hOutside _ rfl (by simp)
  case bitAnd => exact hInside _ rfl hBits.1
  case bitOr => exact hInside _ rfl hBits.2.1
  case bitXor => exact hInside _ rfl hBits.2.2
  case div | mod =>
    have hNonzero : ¬ b.toInt = 0 := by
      intro hZero
      have hWord : b = 0 := Int64.toInt_inj.mp hZero
      rw [hWord] at hResult
      cases hResult
    first
      | exact hOutside _ (if_neg hNonzero) (by simp)
      | exact hInside _ (if_neg hNonzero) (hLeft.tmod _)
  case shl | shr => cases hShift
  case eq | ne | lt | le => cases hCompare
  case logAnd | logOr => cases hLogical

/- The result of a shift, whatever is shifted. -/
theorem intBinary?_shift_misses (rs : Records) (hValues : t.values? = some τ)
    (hShift : op.isShift = true) (hNarrow : τ.bits < 64)
    (hResult : intBinary? op t (t.size rs) u a b = some v) :
    τ.Misses v.toInt ↔ op.Outside τ a b := by
  have hShares := CType.shares_values rs hValues
  have hSize : (t.isUnsigned && t.size rs == 8) = false := by
    rw [hShares.isUnsigned, hShares.size]
    rcases τ with _ | ⟨k, v⟩
    · rfl
    · cases k
      case long => exact absurd hNarrow (lt_irrefl _)
      all_goals cases v <;> rfl
  cases op
  case shl =>
    cases hResult
    rw [toInt_shiftLeft]
    rfl
  case shr =>
    simp only [intBinary?, hSize, Bool.false_eq_true, if_false, Option.some.injEq] at hResult
    rw [← hResult, toInt_shiftRight]
    rfl
  all_goals cases hShift

/- The result of a comparison is a truth value. -/
theorem intBinary?_truth {size : Int} (hCompare : op.isComparison = true)
    (hResult : intBinary? op t size u a b = some v) : ∃ p, v = ofBool p := by
  cases op <;> first
    | (cases hCompare; done)
    | (simp only [intBinary?] at hResult
       split at hResult <;> cases hResult <;> exact ⟨_, rfl⟩)
    | (cases hResult; exact ⟨_, rfl⟩)

end Constant

------------
-- Trees
------------

/- Whether an expression has operands whose value it hands on or combines. -/
def Expr.isOperator : Expr → Bool
| .unary _ _ _ | .binary _ _ _ _ | .ternary _ _ _ _
| .comma _ _ _ => true
| _ => false

namespace Constant

open Typing Parse

/-
  A tree as reading makes it.  Operators get their types from
  their operands; only the operators of pointer arithmetic have
  a type from the start, that of a pointer or of a distance.
-/
inductive Made : Expr → Prop
| other {e}
    (hOther : e.isOperator = false) :
    Made e
| pointer {i t op l r}
    (hType : i.type? = some t)
    (hWide : ∀ τ ∈ t.values?, τ.bits = 64) :
    Made (.binary i op l r)
| unary {i op e}
    (hType : i.type? = none)
    (hInner : Made e) :
    Made (.unary i op e)
| binary {i op l r}
    (hType : i.type? = none)
    (hLeft : Made l)
    (hRight : Made r) :
    Made (.binary i op l r)
| ternary {i c t e}
    (hType : i.type? = none)
    (hTest : Made c)
    (hThen : Made t)
    (hElse : Made e) :
    Made (.ternary i c t e)
| comma {i l r}
    (hType : i.type? = none)
    (hLeft : Made l)
    (hRight : Made r) :
    Made (.comma i l r)
| typed {e e' s s'}
    (hTree : Made e)
    (hAdd : addType e s = .ok e' s')
    (hType : e'.type?.isSome = true) :
    Made e'

/-
  A tree with its types, as far as the value of the whole is
  made of them.  Operators that have a result of the type of
  their operands convert both, unless they shift.
-/
inductive Settled : Expr → Prop
| foreign {e}
    (hType : ∀ t ∈ e.type?, t.isInteger = false) :
    Settled e
| other {e}
    (hOther : e.isOperator = false) :
    Settled e
| pointer {i t op l r}
    (hType : i.type? = some t)
    (hWide : ∀ τ ∈ t.values?, τ.bits = 64) :
    Settled (.binary i op l r)
| sign {i op e}
    (hOp : op = .neg ∨ op = .bitNot) :
    Settled (.unary i op e)
| not {i e}
    (hType : i.type? = some .int) :
    Settled (.unary i .not e)
| deref {i e} :
    Settled (.unary i .deref e)
| arith {i j k op l r}
    (hLogical : op.isLogical = false)
    (hCompare : op.isComparison = false)
    (hShift : op.isShift = false)
    (hType : i.type? = j.type?)
    (hSame : i.type? = k.type?) :
    Settled (.binary i op (.cast j l) (.cast k r))
| truth {i op l r}
    (hOp : op.isLogical = true ∨ op.isComparison = true)
    (hType : i.type? = some .int) :
    Settled (.binary i op l r)
| shift {i op l r}
    (hShift : op.isShift = true) :
    Settled (.binary i op l r)
| ternary {i c t e}
    (hType : i.type? = t.type?)
    (hThen : Settled t)
    (hElse : e.type? = i.type? → Settled e) :
    Settled (.ternary i c t e)
| comma {i l r}
    (hType : i.type? = r.type?)
    (hRight : Settled r) :
    Settled (.comma i l r)

/- A conversion to an integer type, or one that gives no integer. -/
def Converts (t : CType) (e : Expr) : Prop :=
  ∃ j e₀, e = .cast j e₀ ∧ (t.isInteger = true → j.type? = some t) ∧
    (t.isInteger = false → ∀ u ∈ j.type?, u.isInteger = false)

/- Types that are no records are taken as they are. -/
theorem gives_copyType (t : CType) :
    Gives (copyType t) fun u =>
      (t.isInteger = true → u = t) ∧ (t.isInteger = false → u.isInteger = false) := by
  unfold copyType
  split
  · refine gives_bind fun rs => gives_bind fun id => gives_pure ⟨fun hNever => ?_, fun _ => rfl⟩
    cases hNever
  · refine gives_bind fun rs => gives_bind fun id => gives_pure ⟨fun hNever => ?_, fun _ => rfl⟩
    cases hNever
  · exact gives_pure ⟨fun _ => rfl, id⟩

theorem gives_castTo (e : Expr) (t : CType) : Gives (castTo e t) (Converts t) := by
  refine (gives_copyType t).bind fun u hCopy => ?_
  refine gives_pure ⟨_, _, rfl, fun hInteger => ?_, ?_⟩
  · exact congrArg some (hCopy.1 hInteger)
  · rintro hForeign _ ⟨⟩
    exact hCopy.2 hForeign

theorem gives_convertBoth (l r : Expr) :
    Gives (convertBoth l r) fun p =>
      ∃ t, Converts t p.1 ∧ Converts t p.2 := by
  refine gives_bind fun _ => gives_bind fun _ => gives_bind fun rs => ?_
  refine (gives_castTo l _).bind fun a hLeft => ?_
  exact (gives_castTo r _).bind fun b hRight => gives_pure ⟨_, hLeft, hRight⟩

variable {e e' l r c : Expr} {i : Info}

/- Both operands converted to one type make an operator settled. -/
theorem Settled.converted {t : CType} {op : BinOp} (hLogical : op.isLogical = false)
    (hCompare : op.isComparison = false) (hShift : op.isShift = false) (hLeft : Converts t l)
    (hRight : Converts t r) : Settled (.binary { i with type? := l.type? } op l r) := by
  rcases hLeft with ⟨j, l, rfl, hType, hForeign⟩
  rcases hRight with ⟨k, r, rfl, hType', -⟩
  cases hInteger : t.isInteger with
  | true =>
    exact .arith hLogical hCompare hShift rfl ((hType hInteger).trans (hType' hInteger).symm)
  | false => exact .foreign (hForeign hInteger)

theorem gives_typeUnary (i : Info) (op : UnOp) (e : Expr) : Gives (typeUnary i op e) Settled := by
  cases op
  case neg =>
    exact gives_bind fun _ => gives_bind fun _ => gives_bind fun _ => gives_pure (.sign (.inl rfl))
  case not => exact gives_pure (.not rfl)
  case bitNot => exact gives_pure (.sign (.inr rfl))
  case addressOf =>
    refine gives_pure (.foreign ?_)
    rintro _ ⟨⟩
    unfold addressType
    split <;> rfl
  case deref =>
    unfold typeUnary
    dsimp only
    split
    · exact gives_fail _ _
    · exact gives_ite (fun _ => gives_fail _ _) fun _ => gives_pure .deref

theorem gives_typeBinary (i : Info) (op : BinOp) (l r : Expr) :
    Gives (typeBinary i op l r) Settled := by
  have hArith : op.isLogical = false → op.isComparison = false → op.isShift = false →
      Gives (convertBoth l r >>= fun p => pure (.binary { i with type? := p.1.type? } op p.1 p.2))
        Settled := by
    intro hLogical hCompare hShift
    refine (gives_convertBoth l r).bind ?_
    rintro ⟨a, b⟩ ⟨t, hLeft, hRight⟩
    exact gives_pure (.converted hLogical hCompare hShift hLeft hRight)
  have hTruth : op.isComparison = true → Gives (convertBoth l r >>= fun p => pure
        (.binary { i with type? := some .int } op p.1 p.2))
        Settled := fun hOp =>
    gives_bind fun _ => gives_pure (Settled.truth (.inr hOp) rfl)
  cases op
  case eq | ne | lt | le =>
    exact gives_ite (fun _ => gives_bind fun _ => hTruth rfl) fun _ => hTruth rfl
  case logAnd | logOr => exact gives_pure (.truth (.inl rfl) rfl)
  case shl | shr => exact gives_pure (.shift rfl)
  all_goals exact hArith rfl rfl rfl

theorem gives_typeTernary (i : Info) (hThen : Settled l) (hElse : Settled r) :
    Gives (typeTernary i c l r) Settled := by
  refine gives_ite (fun _ => gives_pure (.foreign ?_)) fun _ => ?_
  · rintro _ ⟨⟩
    rfl
  refine gives_ite (fun _ => gives_pure ?_) fun _ => ?_
  · exact .ternary rfl hThen fun _ => hElse
  · refine (gives_convertBoth l r).bind ?_
    rintro ⟨_, _⟩ ⟨t, ⟨j, a, rfl, -⟩, ⟨k, b, rfl, -⟩⟩
    exact gives_pure (.ternary rfl (.other rfl) fun _ => .other rfl)

/- An expression that is no operator stays one when it gets its types. -/
theorem gives_other (hOther : e.isOperator = false) :
    Gives (addType e) fun e' => e'.isOperator = false := by
  rw [addType.eq_def]
  refine gives_ite (fun _ => gives_pure hOther) fun _ => ?_
  cases e
  case unary | binary | ternary | comma => cases hOther
  case null | memZero | num | fnum | labelVal => exact gives_pure rfl
  case cast | member | var | vlaPtr => exact gives_bind fun _ => gives_pure rfl
  case call => exact gives_bind fun _ => gives_bind fun _ => gives_pure rfl
  case assign =>
    refine gives_bind fun l => gives_bind fun r => ?_
    refine gives_ite (fun _ => gives_bind fun _ => ?_) fun _ => ?_
    · exact gives_ite (fun _ => gives_bind fun _ => gives_pure rfl)
        fun _ => gives_bind fun _ => gives_pure rfl
    · exact gives_ite (fun _ => gives_bind fun _ => gives_pure rfl)
        fun _ => gives_bind fun _ => gives_pure rfl
  case stmtExpr i body =>
    refine gives_bind fun body => ?_
    unfold typeStmtExpr
    split
    · exact gives_pure rfl
    · exact gives_fail _ _
  case exch i a v =>
    refine gives_bind fun a => gives_bind fun v => ?_
    exact gives_ite (fun _ => gives_bind fun _ => gives_pure rfl) fun _ => gives_pure rfl
  case cas =>
    refine gives_bind fun a => gives_bind fun o => gives_bind fun n => ?_
    refine gives_ite (fun _ => gives_bind fun _ => ?_) fun _ => ?_
    · exact gives_ite (fun _ => gives_bind fun _ => gives_pure rfl) fun _ => gives_pure rfl
    · exact gives_ite (fun _ => gives_bind fun _ => gives_pure rfl) fun _ => gives_pure rfl

/- Trees that reading makes are settled when they have their types. -/
theorem Made.settled (hMade : Made e) : Gives (addType e) Settled := by
  induction hMade with
  | other hOther =>
    intro s a s' hRun
    exact .other (gives_other hOther s a s' hRun)
  | @pointer i t op l r hType hWide =>
    intro s a s' hRun
    rw [addType_of_isSome (by simp [Expr.type?, Expr.info, hType])] at hRun
    cases hRun
    exact .pointer hType hWide
  | @unary i op e hType hInner ih =>
    rw [addType, if_neg (by simp [Expr.type?, Expr.info, hType])]
    exact gives_bind fun e => gives_typeUnary i op e
  | @binary i op l r hType hLeft hRight ihl ihr =>
    rw [addType, if_neg (by simp [Expr.type?, Expr.info, hType])]
    exact gives_bind fun l => gives_bind fun r => gives_typeBinary i op l r
  | @ternary i c t e hType hTest hThen hElse ihc iht ihe =>
    rw [addType, if_neg (by simp [Expr.type?, Expr.info, hType])]
    exact gives_bind fun c => iht.bind fun t hThen =>
      ihe.bind fun e hElse => gives_typeTernary i hThen hElse
  | @comma i l r hType hLeft hRight ihl ihr =>
    rw [addType, if_neg (by simp [Expr.type?, Expr.info, hType])]
    exact gives_bind fun l => ihr.bind fun r hRight => gives_pure (.comma rfl hRight)
  | typed hTree hAdd hType ih =>
    intro s a s' hRun
    rw [addType_of_isSome hType] at hRun
    cases hRun
    exact ih _ _ _ hAdd

end Constant

------------
-- Values of Trees
------------

namespace Constant

open Typing Parse

/- The word that a tree is evaluated to, if there is one. -/
def word? (env : Env) (e : Expr) : Option Int64 :=
  match evalNode env false false e with
  | .ok v => some v.word
  | .error _ => none

/-
  Whether the number of a tree is outside of its type: that of
  a leaf, or the one that an operator gives for the words of its
  operands.  A choice and a comma hand on what they are given.
  Conversions and truth values are never outside.
-/
def Overruns (env : Env) : Expr → Prop
| .num i v => (valuesOf i).Misses v.toInt
| .unary i op e => ∃ a ∈ word? env e, op.Outside (valuesOf i) a
| .binary i op l r =>
  ∃ a ∈ word? env l, ∃ b ∈ word? env r, op.Outside (valuesOf i) a b
| .ternary i c t e =>
  ∃ a ∈ word? env c,
    if a ≠ 0 then Overruns env t
    else
      -- beside a record a number is not converted
      (e.type? = i.type? → Overruns env e) ∧
        (e.type? ≠ i.type? →
          ∃ b ∈ word? env e, (valuesOf i).Misses b.toInt)
| .comma _ _ r => Overruns env r
| _ => False

variable {env : Env} {i : Info} {e l r : Expr} {t : CType}
  {τ : IntType} {v : ConstValue} {o : Except Failure ConstValue}
  {op : BinOp}

theorem word?_eq (hEval : evalNode env false false e = .ok v) : word? env e = some v.word := by
  rw [word?, hEval]

theorem exists_of_except_bind {f : ConstValue → Except Failure ConstValue}
    (hEval : (o >>= f) = .ok v) : ∃ a, o = .ok a ∧ f a = .ok v := by
  cases o with
  | error _ => cases hEval
  | ok a => exact ⟨a, rfl, hEval⟩

theorem valuesOf_eq (hType : i.type? = some t) (hValues : t.values? = some τ) : valuesOf i = τ := by
  rw [valuesOf, hType, Option.bind_some, hValues]
  rfl

/- A value handed on keeps its word. -/
theorem word_convert (v : ConstValue) (isUnsigned : Bool) :
    (v.convert false isUnsigned).word = v.word := by cases v <;> rfl

/- A conversion gives a word in the range of its type. -/
theorem evalNode_cast_range (hType : i.type? = some t) (hValues : t.values? = some τ)
    (hEval : evalNode env false false (.cast i e) = .ok v) : ¬ τ.Misses v.word.toInt := by
  have hShares := CType.shares_values env.records hValues
  rw [evalNode_cast env hType hShares.isFloating hShares.isInteger] at hEval
  rcases exists_of_except_bind hEval with ⟨a, -, hResult⟩
  cases hResult
  apply (truncate_eq_iff env.records hValues _).mp
  -- converting once more changes nothing
  have hWord := truncate_word env.records hValues (has_toInt a.word)
  rw [Int64.ofInt_toInt] at hWord
  have hAgain := truncate_word env.records hValues (τ.has_convert a.word.toInt)
  rw [IntType.convert_of_has (τ.has_convert _), ← hWord] at hAgain
  exact hAgain

/- What is no operator is a leaf or a conversion, or has no value. -/
theorem other_misses (hOther : e.isOperator = false) (hType : e.type? = some t)
    (hValues : t.values? = some τ) (hEval : evalNode env false false e = .ok v) :
    τ.Misses v.word.toInt ↔ Overruns env e := by
  have hShares := CType.shares_values env.records hValues
  cases e
  case unary | binary | ternary | comma => cases hOther
  case num i w =>
    have hOwn : i.type? = some t := hType
    rw [evalNode_num env w hOwn hShares.isFloating] at hEval
    cases hEval
    rw [Overruns, valuesOf_eq hOwn hValues]
    rfl
  case cast i e => exact iff_of_false (evalNode_cast_range hType hValues hEval) id
  case fnum i d =>
    rw [evalNode] at hEval
    simp only [hType, inDouble, hShares.isFloating] at hEval
    cases hEval
    exact iff_of_false (misses_ofBool false) id
  -- addresses are no numbers here, and nothing else is constant
  all_goals
    rw [evalNode] at hEval
    simp only [hType, Bool.not_false, Bool.or_true, if_true] at hEval
    cases hEval

/- A change of the sign, or of every bit, and the number that it gives. -/
theorem sign_misses {op : UnOp} (hOp : op = .neg ∨ op = .bitNot) (a : Int64) :
    τ.Misses (if op = .neg then -a else ~~~a).toInt ↔
      op.Outside τ a := by
  have hLow := Int64.le_toInt a
  have hHigh := Int64.toInt_lt a
  rcases hOp with rfl | rfl
  · have hNeg : -a = Int64.ofInt (-a.toInt) := by rw [Int64.ofInt_neg, Int64.ofInt_toInt]
    rw [if_pos rfl, hNeg]
    exact misses_word (by omega) (by omega)
  · have hNot : ~~~a = Int64.ofInt (-a.toInt - 1) := by rw [Word.int64_not, Int64.ofInt_toInt]
    rw [if_neg (by decide), hNot]
    exact misses_word (by omega) (by omega)

/- The operands of an operator that has a value, and what it makes of them. -/
theorem exists_operands (hType : i.type? = some t) (hFloating : t.isFloating = false)
    (hLogical : op.isLogical = false)
    (hEval : evalNode env false false (.binary i op l r) = .ok v) :
    ∃ a b, evalNode env false false l = .ok a ∧ evalNode env false false r = .ok b ∧
      intBinary? op t (t.size env.records) l.type a.word b.word = some v.word := by
  rw [evalNode_binary env hType hFloating hLogical] at hEval
  rcases exists_of_except_bind hEval with ⟨a, hLeft, hRest⟩
  rcases exists_of_except_bind hRest with ⟨b, hRight, hResult⟩
  refine ⟨a, b, hLeft, hRight, ?_⟩
  split at hResult
  · cases hResult
    assumption
  · cases hResult

variable {a : ConstValue}

theorem overruns_binary {b : ConstValue} (hType : i.type? = some t) (hValues : t.values? = some τ)
    (hLeft : evalNode env false false l = .ok a) (hRight : evalNode env false false r = .ok b) :
    Overruns env (.binary i op l r) ↔ op.Outside τ a.word b.word := by
  rw [Overruns, word?_eq hLeft, word?_eq hRight, valuesOf_eq hType hValues]
  simp

theorem overruns_unary {op : UnOp} (hType : i.type? = some t) (hValues : t.values? = some τ)
    (hInner : evalNode env false false e = .ok a) :
    Overruns env (.unary i op e) ↔ op.Outside τ a.word := by
  rw [Overruns, word?_eq hInner, valuesOf_eq hType hValues]
  simp

/- Operators that are never outside of their type. -/
theorem not_outside (hOp : op.isLogical = true ∨ op.isComparison = true) (a b : Int64) :
    ¬ op.Outside τ a b := by
  cases op <;> first | (rcases hOp with hOp | hOp <;> cases hOp; done) | exact id

theorem outside_wide (hWide : ¬ τ.bits < 64) (a b : Int64) : ¬ op.Outside τ a b := by
  cases op <;> first | exact IntType.not_misses hWide _ | exact id

/-
  The word of a settled tree is in the range of its type if and
  only if the tree does not overrun.
-/
theorem Settled.misses (hSettled : Settled e) (hType : e.type? = some t)
    (hValues : t.values? = some τ) (hEval : evalNode env false false e = .ok v) :
    τ.Misses v.word.toInt ↔ Overruns env e := by
  have hShares := CType.shares_values env.records hValues
  have hFloating := hShares.isFloating
  induction hSettled generalizing v with
  | foreign hForeign =>
    have hNot := hForeign t hType
    rw [hShares.isInteger] at hNot
    cases hNot
  | other hOther => exact other_misses hOther hType hValues hEval
  | @pointer i u op l r hOwn hWide =>
    have hSame : some u = some t := hOwn.symm.trans hType
    cases hSame
    have hBits : ¬ τ.bits < 64 := (hWide τ hValues).not_lt
    refine iff_of_false (IntType.not_misses hBits _) ?_
    rintro ⟨a, -, b, -, hOutside⟩
    rw [valuesOf_eq hOwn hValues] at hOutside
    exact outside_wide hBits _ _ hOutside
  | @sign i op e hOp =>
    have hOwn : i.type? = some t := hType
    rw [evalNode_sign env hOwn hFloating hOp] at hEval
    rcases exists_of_except_bind hEval with ⟨a, hInner, hResult⟩
    cases hResult
    rw [overruns_unary hOwn hValues hInner]
    exact sign_misses hOp a.word
  | @not i e hInt =>
    rw [evalNode_not env hInt rfl] at hEval
    rcases exists_of_except_bind hEval with ⟨a, hInner, hResult⟩
    cases hResult
    refine iff_of_false (misses_ofBool _) ?_
    rintro ⟨_, -, hOutside⟩
    exact hOutside
  | deref =>
    rw [evalNode] at hEval
    simp only [hType, inDouble, hFloating] at hEval
    cases hEval
  | @arith i j k op l r hLogical hCompare hShift hSame hSame' =>
    have hOwn : i.type? = some t := hType
    rcases exists_operands hOwn hFloating hLogical hEval with
      ⟨a, b, hLeft, hRight, hResult⟩
    rw [overruns_binary hOwn hValues hLeft hRight]
    by_cases hNarrow : τ.bits < 64
    · have hA := evalNode_cast_range (hSame.symm.trans hOwn) hValues hLeft
      have hB := evalNode_cast_range (hSame'.symm.trans hOwn) hValues hRight
      exact intBinary?_misses env.records hValues hLogical hCompare
        hShift hNarrow (not_not.mp fun hNot => hA ⟨hNarrow, hNot⟩)
        (not_not.mp fun hNot => hB ⟨hNarrow, hNot⟩) hResult
    · exact iff_of_false (IntType.not_misses hNarrow _) (outside_wide hNarrow _ _)
  | @truth i op l r hOp hInt =>
    have hOwn : i.type? = some t := hType
    have hOutside : ¬ Overruns env (.binary i op l r) := by
      rintro ⟨a, -, b, -, hOutside⟩
      exact not_outside hOp a b hOutside
    refine iff_of_false ?_ hOutside
    rcases hOp with hLogical | hCompare
    · rw [evalNode_logical env hInt rfl hLogical] at hEval
      rcases exists_of_except_bind hEval with ⟨a, -, hRest⟩
      split at hRest
      · cases hRest
        exact misses_ofBool false
      split at hRest
      · cases hRest
        exact misses_ofBool true
      rcases exists_of_except_bind hRest with ⟨b, -, hResult⟩
      cases hResult
      exact misses_ofBool _
    · have hLogical : op.isLogical = false := by cases op <;> first | rfl | cases hCompare
      rcases exists_operands hOwn hFloating hLogical hEval with
        ⟨a, b, -, -, hResult⟩
      rcases intBinary?_truth hCompare hResult with ⟨p, hWord⟩
      rw [hWord]
      exact misses_ofBool p
  | @shift i op l r hShift =>
    have hOwn : i.type? = some t := hType
    have hLogical : op.isLogical = false := by cases op <;> first | rfl | cases hShift
    rcases exists_operands hOwn hFloating hLogical hEval with
      ⟨a, b, hLeft, hRight, hResult⟩
    rw [overruns_binary hOwn hValues hLeft hRight]
    by_cases hNarrow : τ.bits < 64
    · exact intBinary?_shift_misses env.records hValues hShift hNarrow hResult
    · exact iff_of_false (IntType.not_misses hNarrow _) (outside_wide hNarrow _ _)
  | @ternary i c a b hSame hThen hElse iha ihb =>
    have hOwn : i.type? = some t := hType
    rw [evalNode_ternary env hOwn hFloating] at hEval
    rcases exists_of_except_bind hEval with ⟨w, hTest, hRest⟩
    rw [Overruns, word?_eq hTest, valuesOf_eq hOwn hValues]
    simp only [Option.mem_some_iff, exists_eq_left', bne_iff_ne] at hRest ⊢
    split at hRest
    · rename_i hTrue
      rcases exists_of_except_bind hRest with ⟨x, hTaken, hResult⟩
      cases hResult
      rw [word_convert, if_pos hTrue]
      exact iha (hSame.symm.trans hOwn) hTaken
    · rename_i hFalse
      rcases exists_of_except_bind hRest with ⟨x, hTaken, hResult⟩
      cases hResult
      rw [word_convert, if_neg hFalse, word?_eq hTaken]
      by_cases hBoth : b.type? = i.type?
      · simp only [hBoth, ne_eq, not_true_eq_false, forall_const, IsEmpty.forall_iff, and_true]
        exact ihb hBoth (hBoth.trans hOwn) hTaken
      · simp [hBoth]
  | @comma i l r hSame hRight ih =>
    have hOwn : i.type? = some t := hType
    rw [evalNode_comma env hOwn hFloating] at hEval
    rcases exists_of_except_bind hEval with ⟨x, hTaken, hResult⟩
    cases hResult
    rw [word_convert, Overruns]
    exact ih (hSame.symm.trans hOwn) hTaken

/-
  A constant lies in the range of its type if and only if its
  tree does not overrun.
-/
theorem evalInt_in_range {e : Expr} {s s' : ParseState} {w : Int64} (hMade : Made e)
    (hEval : evalInt e s = .ok w s') :
    ∃ e', addType e s = .ok e' s' ∧ ∀ t, e'.type? = some t → t.isInteger = true →
        (truncate s'.records w t = w ↔ ¬ Overruns ⟨s'.objects, s'.records⟩ e') := by
  obtain ⟨e', s₁, hAdd, -⟩ := exists_of_bind hEval
  rw [evalInt_eq hAdd] at hEval
  split at hEval
  · rename_i v hValue
    cases hEval
    refine ⟨e', hAdd, fun t hType hInteger => ?_⟩
    rcases CType.exists_values? hInteger with ⟨τ, hValues⟩
    rw [truncate_eq_iff _ hValues]
    exact not_congr ((hMade.settled _ _ _ hAdd).misses hType hValues hValue)
  · cases hEval

/- 0u - 1 -/
def wrappedTree : Expr :=
  operation .sub (literal .uint 0) (literal .int 1)

theorem made_literal (t : CType) (v : Int64) : Made (literal t v) := .other rfl

theorem made_choiceTree : Made choiceTree := by
  refine .ternary rfl (.binary rfl (.binary rfl (.binary rfl
    (.other rfl) (.unary rfl ?_)) ?_) (.binary rfl ?_ ?_))
    (.binary rfl (.unary rfl ?_) ?_) (.binary rfl ?_ ?_)
  all_goals exact made_literal _ _

/- A choice that stays in the range of its type, and a difference that does not. -/
theorem evalInt_in_range_choice :
    (∃ e, addType choiceTree blankState = .ok e blankState ∧ ¬ Overruns ⟨#[], #[]⟩ e) ∧
    ∃ e, addType wrappedTree blankState = .ok e blankState ∧ Overruns ⟨#[], #[]⟩ e := by
  constructor
  · rcases evalInt_in_range made_choiceTree
      (show evalInt choiceTree blankState = .ok 15 blankState from rfl)
      with ⟨e, hAdd, hRange⟩
    refine ⟨e, hAdd, ?_⟩
    cases hAdd
    exact (hRange .ulong rfl rfl).mp rfl
  · rcases evalInt_in_range (.binary rfl (made_literal .uint 0) (made_literal .int 1))
      (show evalInt wrappedTree blankState = .ok (-1) blankState from rfl)
      with ⟨e, hAdd, hRange⟩
    refine ⟨e, hAdd, ?_⟩
    cases hAdd
    exact not_not.mp ((not_congr (hRange .uint rfl rfl)).mp (by decide))

/-
  A difference and a complement of type `unsigned int` are
  evaluated to the number minus one, and what is shifted stays
  outside.
-/
theorem wrapped_stays_negative :
    (∃ e, addType wrappedTree blankState = .ok e blankState ∧ e.type? = some .uint) ∧
    evalInt wrappedTree blankState = .ok (-1) blankState ∧
    truncate #[] (-1) .uint = 4294967295 ∧
    wordOf? "0u - 1" = some (-1) ∧
    wordOf? "~0u" = some (-1) ∧
    wordOf? "(0u - 1) >> 1" = some (-1) ∧
    wordOf? "(unsigned)-1 >> 1" = some 2147483647 := by
  refine ⟨⟨_, rfl, rfl⟩, rfl, by decide, ?_⟩
  decide +kernel

end Constant

end CCompiler
