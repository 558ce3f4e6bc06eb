import Mathlib
import CCompiler.Proofs.Codegen.Operators
import CCompiler.Syntax.Constant

/-
  Exact numbers in words of 64 bits.

  Constants are worked out in words whatever their types.  As
  long as the operands are values of their type, an operator
  on their words gives the word of the exact result; only what
  a type of 64 bits cannot hold is cut off by the word itself.

  Main declarations:
    * `CType.values?`, `IntType.settle`
    * `BinOp.exact`, `Irregular`
    * `Constant.truncate_word`
    * `Constant.intBinary?_exact`, `Constant.intBinary?_comparison`,
      `Constant.intBinary?_shift`
-/

------------
-- Exact Results
------------

namespace CCompiler

/-
  The integer type whose values a type has.  Enumerations have
  those of `int`.
-/
def CType.values? (t : CType) : Option IntType :=
  match t.plain with
  | .bool => some .bool
  | .integer k u => some (.of k u)
  | .enum _ => some .int
  | _ => none

/- What keeps an expression from having its ideal value. -/
inductive Irregular
| divisionByZero (tok : Token)
| outsideType
| shiftCount

/-
  A number as a value of a type.  Types of 64 bits take what
  remains of it, narrower ones only the number itself.
-/
def IntType.settle (τ : IntType) (v : Int) :
    Except Irregular Int :=
  if τ.bits = 64 then .ok (τ.convert v)
  else if τ.Has v then .ok v
  else .error .outsideType

/-
  The number that an operator gives for two numbers.  The count
  of a shift is a number of bits that a word has; types that are
  narrower ask for no more, since what leaves them is outside.
-/
def BinOp.exact (op : BinOp) (tok : Token) (a b : Int) :
    Except Irregular Int :=
  match op with
  | .add => .ok (a + b)
  | .sub => .ok (a - b)
  | .mul => .ok (a * b)
  | .div =>
    if b = 0 then .error (.divisionByZero tok)
    else .ok (a.tdiv b)
  | .mod =>
    if b = 0 then .error (.divisionByZero tok)
    else .ok (a.tmod b)
  | .bitAnd => .ok (a.land b)
  | .bitOr => .ok (a.lor b)
  | .bitXor => .ok (a.xor b)
  | .shl =>
    if 0 ≤ b ∧ b < 64 then .ok (a * 2 ^ b.toNat)
    else .error .shiftCount
  | .shr =>
    if 0 ≤ b ∧ b < 64 then .ok (a / 2 ^ b.toNat)
    else .error .shiftCount
  | .eq => .ok (truthValue (a = b))
  | .ne => .ok (truthValue (a ≠ b))
  | .lt => .ok (truthValue (a < b))
  | .le => .ok (truthValue (a ≤ b))
  | .logAnd => .ok (truthValue (a ≠ 0 ∧ b ≠ 0))
  | .logOr => .ok (truthValue (a ≠ 0 ∨ b ≠ 0))

variable {n : Nat}

------------
-- Words
------------

namespace Word

variable {a b : Int}

theorem getLsbD_ofInt {i : Nat} (a : Int) (hBit : i < n) :
    (BitVec.ofInt n a).getLsbD i = a.testBit i := by
  cases a with
  | ofNat m =>
    change (BitVec.ofInt n (m : Int)).getLsbD i = m.testBit i
    rw [BitVec.ofInt_natCast, BitVec.getLsbD_ofNat]
    simp [hBit]
  | negSucc m =>
    rw [BitVec.ofInt_negSucc_eq_not_ofNat, BitVec.getLsbD_not, BitVec.getLsbD_ofNat]
    simp [hBit, Int.testBit]

/- Congruent numbers have the same word of 64 bits. -/
theorem int64_congr (hCongr : a ≡ b [ZMOD 2 ^ 64]) : Int64.ofInt a = Int64.ofInt b := by
  apply Int64.toBitVec_inj.mp
  rw [Int64.toBitVec_ofInt, Int64.toBitVec_ofInt]
  exact ofInt_congr hCongr

theorem int64_land (a b : Int) : Int64.ofInt (a.land b) = Int64.ofInt a &&& Int64.ofInt b := by
  apply Int64.toBitVec_inj.mp
  simp only [Int64.toBitVec_and, Int64.toBitVec_ofInt]
  apply BitVec.eq_of_getLsbD_eq
  intro i hBit
  simp only [BitVec.getLsbD_and, getLsbD_ofInt _ hBit, Int.testBit_land]

theorem int64_lor (a b : Int) : Int64.ofInt (a.lor b) = Int64.ofInt a ||| Int64.ofInt b := by
  apply Int64.toBitVec_inj.mp
  simp only [Int64.toBitVec_or, Int64.toBitVec_ofInt]
  apply BitVec.eq_of_getLsbD_eq
  intro i hBit
  simp only [BitVec.getLsbD_or, getLsbD_ofInt _ hBit, Int.testBit_lor]

theorem int64_xor (a b : Int) : Int64.ofInt (a.xor b) = Int64.ofInt a ^^^ Int64.ofInt b := by
  apply Int64.toBitVec_inj.mp
  simp only [Int64.toBitVec_xor, Int64.toBitVec_ofInt]
  apply BitVec.eq_of_getLsbD_eq
  intro i hBit
  simp only [BitVec.getLsbD_xor, getLsbD_ofInt _ hBit, Int.testBit_lxor]

theorem int64_not (a : Int) : Int64.ofInt (-a - 1) = ~~~Int64.ofInt a := by
  rw [Int64.not_eq_neg_sub, Int64.ofInt_sub, Int64.ofInt_neg]
  rfl

/- A number without sign in a word of 64 bits. -/
theorem uint64_ofInt (hLow : 0 ≤ a) (hHigh : a < 2 ^ 64) :
    (Int64.ofInt a).toUInt64.toNat = a.toNat := by
  rw [← UInt64.toNat_toBitVec, Int64.toBitVec_toUInt64,
    Int64.toBitVec_ofInt, toNat_ofInt hLow hHigh]

theorem toInt64_eq (x : UInt64) : x.toInt64 = Int64.ofInt x.toNat := by
  apply Int64.toBitVec_inj.mp
  apply BitVec.eq_of_toNat_eq
  rw [UInt64.toBitVec_toInt64, UInt64.toNat_toBitVec,
    Int64.toBitVec_ofInt, toNat_ofInt (by positivity)]
  · rfl
  · exact_mod_cast x.toNat_lt

theorem int64_udiv (hA : 0 ≤ a ∧ a < 2 ^ 64) (hB : 0 ≤ b ∧ b < 2 ^ 64) :
    ((Int64.ofInt a).toUInt64 / (Int64.ofInt b).toUInt64).toInt64 = Int64.ofInt (a.tdiv b) := by
  rw [toInt64_eq, UInt64.toNat_div, uint64_ofInt hA.1 hA.2, uint64_ofInt hB.1 hB.2, Int.natCast_div,
    Int.toNat_of_nonneg hA.1, Int.toNat_of_nonneg hB.1,
    Int.tdiv_eq_ediv_of_nonneg hA.1]

theorem int64_umod (hA : 0 ≤ a ∧ a < 2 ^ 64) (hB : 0 ≤ b ∧ b < 2 ^ 64) :
    ((Int64.ofInt a).toUInt64 % (Int64.ofInt b).toUInt64).toInt64 = Int64.ofInt (a.tmod b) := by
  rw [toInt64_eq, UInt64.toNat_mod, uint64_ofInt hA.1 hA.2, uint64_ofInt hB.1 hB.2, Int.natCast_mod,
    Int.toNat_of_nonneg hA.1, Int.toNat_of_nonneg hB.1,
    Int.tmod_eq_emod_of_nonneg hA.1]

theorem int64_toInt (hLow : -2 ^ 63 ≤ a) (hHigh : a < 2 ^ 63) : (Int64.ofInt a).toInt = a := by
  rw [Int64.toInt_ofInt]
  exact Int.bmod_eq_of_le (by norm_num [Int64.size]; omega) (by norm_num [Int64.size]; omega)

section Shifts

variable (hLow : 0 ≤ b) (hHigh : b < 64)
include hLow hHigh

theorem shift_small : (Int64.ofInt b).toUInt64 < 64 := by
  rw [UInt64.lt_iff_toNat_lt, uint64_ofInt hLow (by omega)]
  change b.toNat < 64
  omega

theorem shift_count_eq : ((Int64.ofInt b).toBitVec.smod 64).toNat = b.toNat := by
  have hInt : (BitVec.ofInt 64 b).toInt = b :=
    BitVec.toInt_ofInt_eq_self (by norm_num) (by norm_num; omega) (by norm_num; omega)
  have hMod : ((BitVec.ofInt 64 b).smod 64).toInt = b := by
    rw [BitVec.toInt_smod, hInt]
    change b.fmod 64 = b
    rw [Int.fmod_eq_emod_of_nonneg _ (by norm_num)]
    exact Int.emod_eq_of_lt hLow hHigh
  rw [Int64.toBitVec_ofInt, ← BitVec.ofInt_toInt (x := (BitVec.ofInt 64 b).smod 64), hMod]
  exact toNat_ofInt hLow (by omega)

theorem int64_shiftLeft :
    Constant.shiftLeft (Int64.ofInt a) (Int64.ofInt b) = Int64.ofInt (a * 2 ^ b.toNat) := by
  unfold Constant.shiftLeft
  rw [if_pos (shift_small hLow hHigh)]
  apply Int64.toBitVec_inj.mp
  rw [Int64.toBitVec_shiftLeft, BitVec.shiftLeft_eq',
    shift_count_eq hLow hHigh, Int64.toBitVec_ofInt,
    Int64.toBitVec_ofInt, ofInt_shiftLeft]

theorem int64_shiftRight (hLeast : -2 ^ 63 ≤ a) (hMost : a < 2 ^ 63) :
    Constant.shiftRight (Int64.ofInt a) (Int64.ofInt b) = Int64.ofInt (a / 2 ^ b.toNat) := by
  unfold Constant.shiftRight
  rw [if_pos (shift_small hLow hHigh)]
  apply Int64.toBitVec_inj.mp
  rw [Int64.toBitVec_shiftRight, BitVec.sshiftRight_eq',
    shift_count_eq hLow hHigh, Int64.toBitVec_ofInt, Int64.toBitVec_ofInt,
    ofInt_sshiftRight (by norm_num) hLeast hMost]

theorem int64_ushiftRight (hLeast : 0 ≤ a) (hMost : a < 2 ^ 64) :
    Constant.shiftRightUnsigned (Int64.ofInt a) (Int64.ofInt b) =
      Int64.ofInt (a / 2 ^ b.toNat) := by
  unfold Constant.shiftRightUnsigned
  rw [if_pos (shift_small hLow hHigh), toInt64_eq,
    UInt64.toNat_shiftRight, uint64_ofInt hLeast hMost,
    uint64_ofInt hLow (by omega), Nat.mod_eq_of_lt (by omega),
    Nat.shiftRight_eq_div_pow, Int.natCast_div, Int.toNat_of_nonneg hLeast]
  norm_cast

end Shifts

end Word

------------
-- Values of Types
------------

namespace CType

variable {t : CType} {τ : IntType}

theorem exists_values? (hInteger : t.isInteger) : ∃ τ, t.values? = some τ := by
  unfold isInteger at hInteger
  unfold values?
  split at hInteger <;> simp_all

/- What a type shares with the integer type whose values it has. -/
structure SharesValues (rs : Records) (t u : CType) : Prop where
  isInteger : t.isInteger = true
  isFloating : t.isFloating = false
  isBool : t.isBool = u.isBool
  isUnsigned : t.isUnsigned = u.isUnsigned
  size : t.size rs = u.size rs

theorem shares_values (rs : Records) (hValues : t.values? = some τ) :
    SharesValues rs t τ.toCType := by
  have hPlain : t.plain = τ.toCType ∨ τ = .int ∧ ∃ n, t.plain = .enum n := by
    unfold values? at hValues
    split at hValues <;> cases hValues
    · exact .inl ‹_›
    · exact .inl ‹_›
    · exact .inr ⟨rfl, _, ‹_›⟩
  rcases hPlain with hPlain | ⟨rfl, n, hPlain⟩
  · rcases τ with _ | ⟨k, u⟩ <;> constructor <;>
      simp only [isInteger, isFloating, isBool, isUnsigned, size, hPlain] <;> rfl
  · constructor <;> simp only [isInteger, isFloating, isBool, isUnsigned, size, hPlain] <;> rfl

variable {v : Int}

/- Values of a type that is not marked as unsigned. -/
theorem signed_range (hSigned : τ.toCType.isUnsigned = false) (hHas : τ.Has v) :
    -2 ^ 63 ≤ v ∧ v < 2 ^ 63 := by
  rcases τ with _ | ⟨k, u⟩
  · have hRange : 0 ≤ v ∧ v ≤ 1 := hHas
    omega
  · cases u
    · cases k <;> simp only [IntType.Has, IntType.least,
        IntType.greatest, IntType.isUnsigned, IntType.bits,
        Bool.false_eq_true, if_false] at hHas <;> omega
    · cases hSigned

theorem unsigned_range (hUnsigned : τ.toCType.isUnsigned = true) (hHas : τ.Has v) :
    0 ≤ v ∧ v < 2 ^ 64 := by
  rcases τ with _ | ⟨k, u⟩
  · cases hUnsigned
  · cases u
    · cases hUnsigned
    · cases k <;> simp only [IntType.Has, IntType.least,
        IntType.greatest, IntType.isUnsigned, IntType.bits,
        if_true] at hHas <;> omega

/- What is left of the other types when a word is shifted with its sign. -/
theorem shifted_range (rs : Records)
    (hNarrow : ¬ (τ.toCType.isUnsigned && τ.toCType.size rs == 8) = true) (hHas : τ.Has v) :
    -2 ^ 63 ≤ v ∧ v < 2 ^ 63 := by
  cases hSign : τ.toCType.isUnsigned with
  | false => exact signed_range hSign hHas
  | true =>
    rcases τ with _ | ⟨k, u⟩
    · cases hSign
    · cases u
      · cases hSign
      · cases k
        case long => exact absurd rfl hNarrow
        all_goals
          simp only [IntType.Has, IntType.least,
            IntType.greatest, IntType.isUnsigned, IntType.bits, if_true] at hHas
          omega

end CType

namespace IntType

variable {τ : IntType} {v w : Int}

/- The word of what a number is settled to is that of the number. -/
theorem settle_spec (hSettle : τ.settle v = .ok w) : Int64.ofInt w = Int64.ofInt v ∧ τ.Has w := by
  unfold settle at hSettle
  split at hSettle
  · rename_i hBits
    cases hSettle
    refine ⟨?_, has_convert τ v⟩
    rcases τ with _ | ⟨k, u⟩
    · cases hBits
    · apply Word.int64_congr
      rw [← hBits]
      exact convert_modEq k u v
  · split at hSettle
    · rename_i hHas
      cases hSettle
      exact ⟨rfl, hHas⟩
    · cases hSettle

theorem settle_ne_division {tok : Token} : τ.settle v ≠ .error (.divisionByZero tok) := by
  unfold settle
  split
  · simp
  · split <;> simp

/- Values of one type with the same word are the same. -/
theorem Has.int64_inj (hLeft : τ.Has v) (hRight : τ.Has w) :
    Int64.ofInt v = Int64.ofInt w ↔ v = w := by
  refine ⟨fun hEq => ?_, fun hEq => hEq ▸ rfl⟩
  have hBits := congrArg Int64.toBitVec hEq
  rw [Int64.toBitVec_ofInt, Int64.toBitVec_ofInt] at hBits
  have hClose : -2 ^ 64 < v - w ∧ v - w < 2 ^ 64 := by
    rcases τ with _ | ⟨k, u⟩
    · have hV : 0 ≤ v ∧ v ≤ 1 := hLeft
      have hW : 0 ≤ w ∧ w ≤ 1 := hRight
      omega
    · cases u <;> cases k <;> simp only [IntType.Has, IntType.least,
        IntType.greatest, IntType.isUnsigned, IntType.bits,
        Bool.false_eq_true, if_false, if_true] at hLeft hRight <;> omega
  exact Word.eq_of_ofInt_eq hBits hClose.1 hClose.2

end IntType

------------
-- Operators on Words
------------

namespace Constant

variable {t : CType} {τ σ : IntType} {v : Int}

theorem truncate_signed (hDvd : 2 ^ n ∣ Int64.size) (v : Int) :
    Int64.ofInt ((Int64.ofInt v).toInt.bmod (2 ^ n)) =
      Int64.ofInt (v.bmod (2 ^ n)) := by rw [Int64.toInt_ofInt, Int.bmod_bmod_of_dvd hDvd]

theorem truncate_unsigned (hDvd : (2 : Int) ^ n ∣ 2 ^ 64) (v : Int) :
    Int64.ofNat ((Int64.ofInt v).toUInt64.toNat % 2 ^ n) = Int64.ofInt (v % 2 ^ n) := by
  have hWord : ((Int64.ofInt v).toUInt64.toNat : Int) = v % 2 ^ 64 := by
    rw [← UInt64.toNat_toBitVec, Int64.toBitVec_toUInt64, Int64.toBitVec_ofInt, BitVec.toNat_ofInt]
    exact Int.toNat_of_nonneg (Int.emod_nonneg v (by norm_num))
  change Int64.ofInt (((Int64.ofInt v).toUInt64.toNat % 2 ^ n : Nat) : Int) = _
  rw [Int.natCast_mod, hWord, Int.natCast_pow, Int.emod_emod_of_dvd v (by exact_mod_cast hDvd)]
  rfl

/- A conversion of the word of a value. -/
theorem truncate_word (rs : Records) (hValues : t.values? = some τ) (hHas : σ.Has v) :
    truncate rs (Int64.ofInt v) t = Int64.ofInt (τ.convert v) := by
  have hShares := CType.shares_values rs hValues
  unfold truncate
  rw [hShares.isBool, hShares.isUnsigned, hShares.size]
  rcases τ with _ | ⟨k, u⟩
  · change ofBool (Int64.ofInt v != 0) = _
    by_cases hZero : v = 0
    · subst hZero
      rfl
    · have hWord : (Int64.ofInt v != 0) = true :=
        bne_iff_ne.mpr fun hEq => hZero ((hHas.int64_inj (IntType.has_zero σ)).mp hEq)
      rw [hWord]
      simp only [IntType.convert, hZero, if_false]
      rfl
  · cases k <;> cases u
    case char.false =>
      change (Int64.ofInt v).toInt8.toInt64 = _
      rw [← Int64.ofInt_int8ToInt, Int64.toInt_toInt8]
      exact truncate_signed (by decide) v
    case char.true =>
      change Int64.ofNat (Int64.ofInt v).toUInt64.toUInt8.toNat = _
      rw [UInt64.toNat_toUInt8]
      exact truncate_unsigned (by norm_num) v
    case short.false =>
      change (Int64.ofInt v).toInt16.toInt64 = _
      rw [← Int64.ofInt_int16ToInt, Int64.toInt_toInt16]
      exact truncate_signed (by decide) v
    case short.true =>
      change Int64.ofNat (Int64.ofInt v).toUInt64.toUInt16.toNat = _
      rw [UInt64.toNat_toUInt16]
      exact truncate_unsigned (by norm_num) v
    case int.false =>
      change (Int64.ofInt v).toInt32.toInt64 = _
      rw [← Int64.ofInt_int32ToInt, Int64.toInt_toInt32]
      exact truncate_signed (by decide) v
    case int.true =>
      change Int64.ofNat (Int64.ofInt v).toUInt64.toUInt32.toNat = _
      rw [UInt64.toNat_toUInt32]
      exact truncate_unsigned (by norm_num) v
    case long.false => exact Word.int64_congr (IntType.convert_modEq .long false v).symm
    case long.true => exact Word.int64_congr (IntType.convert_modEq .long true v).symm

/- The truth of a word as a number. -/
theorem ofBool_word (p : Prop) [Decidable p] : ofBool (decide p) = Int64.ofInt (truthValue p) := by
  unfold ofBool truthValue
  by_cases hHolds : p <;> simp [hHolds]

section Operators

variable {op : BinOp} {a b : Int} {x : Int} {u : CType}
  {tok : Token}

/- The signed range of words, in the form that words use. -/
theorem signed_word (hRange : -2 ^ 63 ≤ v ∧ v < 2 ^ 63) :
    Int64.minValue.toInt ≤ v ∧ v ≤ Int64.maxValue.toInt := by
  change -9223372036854775808 ≤ v ∧ v ≤ 9223372036854775807
  omega

/- A quotient and a remainder of words. -/
theorem intBinary?_division (size : Int) (hShares : t.isUnsigned = τ.toCType.isUnsigned)
    (hLeft : τ.Has a) (hRight : τ.Has b) (hNonzero : b ≠ 0) :
    intBinary? .div t size u (Int64.ofInt a) (Int64.ofInt b) = some (Int64.ofInt (a.tdiv b)) ∧
      intBinary? .mod t size u (Int64.ofInt a) (Int64.ofInt b) = some (Int64.ofInt (a.tmod b)) := by
  have hWord : (Int64.ofInt b == 0) = false := by
    rw [beq_eq_false_iff_ne]
    exact fun hEq => hNonzero ((hRight.int64_inj (IntType.has_zero τ)).mp hEq)
  simp only [intBinary?, hWord, Bool.false_eq_true, if_false, hShares]
  cases hSign : τ.toCType.isUnsigned with
  | true =>
    have hA := CType.unsigned_range hSign hLeft
    have hB := CType.unsigned_range hSign hRight
    simp only [if_true, Word.int64_udiv hA hB, Word.int64_umod hA hB, and_self]
  | false =>
    have hA := signed_word (CType.signed_range hSign hLeft)
    have hB := signed_word (CType.signed_range hSign hRight)
    simp only [Bool.false_eq_true, if_false, Int64.ofInt_tdiv hA.1 hA.2 hB.1 hB.2,
      Int64.ofInt_tmod hA.1 hA.2 hB.1 hB.2, and_self]

/- A comparison of words, with the sign of their type. -/
theorem intBinary?_comparison (size : Int) (hCompare : op.isComparison = true)
    (hShares : u.isUnsigned = τ.toCType.isUnsigned) (hLeft : τ.Has a) (hRight : τ.Has b)
    (hExact : op.exact tok a b = .ok x) :
    intBinary? op t size u (Int64.ofInt a) (Int64.ofInt b) = some (Int64.ofInt x) := by
  have hEqual : (Int64.ofInt a == Int64.ofInt b) = decide (a = b) := by
    rw [Bool.beq_eq_decide_eq]
    exact decide_eq_decide.mpr (hLeft.int64_inj hRight)
  cases op <;> first | (cases hCompare; done) | cases hExact
  case eq.refl => simp only [intBinary?, hEqual, ofBool_word]
  case ne.refl => simp only [intBinary?, bne, hEqual, ← decide_not, ofBool_word]
  all_goals
    simp only [intBinary?, hShares]
    cases hSign : τ.toCType.isUnsigned with
    | true =>
      have hA := CType.unsigned_range hSign hLeft
      have hB := CType.unsigned_range hSign hRight
      simp only [if_true, UInt64.lt_iff_toNat_lt,
        UInt64.le_iff_toNat_le, Word.uint64_ofInt hA.1 hA.2,
        Word.uint64_ofInt hB.1 hB.2, ofBool_word]
      congr 3
      simp only [eq_iff_iff]
      omega
    | false =>
      have hA := CType.signed_range hSign hLeft
      have hB := CType.signed_range hSign hRight
      simp only [Bool.false_eq_true, if_false, Int64.lt_iff_toInt_lt, Int64.le_iff_toInt_le,
        Word.int64_toInt hA.1 hA.2, Word.int64_toInt hB.1 hB.2, ofBool_word]

/- A shift of a word. -/
theorem intBinary?_shift (rs : Records) (hShift : op.isShift = true)
    (hValues : t.values? = some τ) (hLeft : τ.Has a) (hExact : op.exact tok a b = .ok x) :
    intBinary? op t (t.size rs) u (Int64.ofInt a) (Int64.ofInt b) = some (Int64.ofInt x) := by
  have hShares := CType.shares_values rs hValues
  cases op
  case shl =>
    simp only [BinOp.exact] at hExact
    split at hExact
    · rename_i hCount
      cases hExact
      simp only [intBinary?, Word.int64_shiftLeft hCount.1 hCount.2]
    · cases hExact
  case shr =>
    simp only [BinOp.exact] at hExact
    split at hExact
    · rename_i hCount
      cases hExact
      simp only [intBinary?, hShares.isUnsigned, hShares.size]
      split
      · rename_i hWide
        have hA := CType.unsigned_range (Bool.and_eq_true_iff.mp hWide).1 hLeft
        rw [Word.int64_ushiftRight hCount.1 hCount.2 hA.1 hA.2]
      · rename_i hNarrow
        have hA := CType.shifted_range rs hNarrow hLeft
        rw [Word.int64_shiftRight hCount.1 hCount.2 hA.1 hA.2]
    · cases hExact
  all_goals cases hShift

/-
  Operators that convert their operands: for the words of two
  numbers of one type they give the word of the number.
-/
theorem intBinary?_exact (rs : Records) (hLogical : op.isLogical = false)
    (hCompare : op.isComparison = false) (hShift : op.isShift = false)
    (hValues : t.values? = some τ) (hLeft : τ.Has a) (hRight : τ.Has b)
    (hExact : op.exact tok a b = .ok x) :
    intBinary? op t (t.size rs) u (Int64.ofInt a) (Int64.ofInt b) = some (Int64.ofInt x) := by
  have hShares := CType.shares_values rs hValues
  have hDivision := fun hNonzero => intBinary?_division (u := u)
    (t.size rs) hShares.isUnsigned hLeft hRight hNonzero
  cases op
  case add =>
    cases hExact
    exact congrArg some (Int64.ofInt_add a b).symm
  case sub =>
    cases hExact
    exact congrArg some (Int64.ofInt_sub a b).symm
  case mul =>
    cases hExact
    exact congrArg some (Int64.ofInt_mul a b).symm
  case bitAnd =>
    cases hExact
    exact congrArg some (Word.int64_land a b).symm
  case bitOr =>
    cases hExact
    exact congrArg some (Word.int64_lor a b).symm
  case bitXor =>
    cases hExact
    exact congrArg some (Word.int64_xor a b).symm
  case div =>
    simp only [BinOp.exact] at hExact
    split at hExact
    · cases hExact
    · cases hExact
      exact (hDivision ‹_›).1
  case mod =>
    simp only [BinOp.exact] at hExact
    split at hExact
    · cases hExact
    · cases hExact
      exact (hDivision ‹_›).2
  case shl | shr => cases hShift
  case eq | ne | lt | le => cases hCompare
  case logAnd | logOr => cases hLogical

end Operators

end Constant

end CCompiler
