import Mathlib
import CCompiler.Decimal.Extended80

/-
  The values of doubles in the extended format.

  A pattern of either format is read as the standard has it:
  sign, exponent and mantissa are cut out of the number that
  the bits are, and a finite value is a rational number.  A
  double is stored in ten bytes that are read as the same
  value, and what is not zero gets its integer bit.

  For subnormal doubles the mantissa is shifted up by a loop.
  Each pass keeps the value as long as bit 52 is clear, and
  that bit is reached by the number of its leading zeros.

  Main declarations:
    * `FloatDatum`, `Double.denote`, `Extended80.denote?`
    * `Extended80.Normalizes`, `Extended80.normalize_spec`
    * `Extended80.ofDouble_exact`
-/

namespace CCompiler

/-
  What a pattern stands for: a finite value of a sign, as a
  zero has one too, an infinity, or a fraction that is no
  number.
-/
inductive FloatDatum
| finite (isNegative : Bool) (magnitude : ℚ)
| infinite (isNegative : Bool)
| nan (isNegative : Bool) (fraction : Nat)
deriving DecidableEq

namespace Double

/- The value of a pattern of sign, exponent and fifty-two bits. -/
def denote (x : Double) : FloatDatum :=
  let n := x.bits.toNat
  let sign := n / 2 ^ 63 == 1
  let e : Nat := n / 2 ^ 52 % 2 ^ 11
  let f : Nat := n % 2 ^ 52
  if e = 0x7FF then if f = 0 then .infinite sign else .nan sign f
  else if e = 0 then .finite sign (f * 2 ^ (-1074 : Int))
  else .finite sign ((2 ^ 52 + f : Nat) * 2 ^ (e - 1075 : Int))

variable (x : Double)

theorem exponentField_eq : x.exponentField = x.bits.toNat / 2 ^ 52 % 2 ^ 11 := by
  rw [exponentField, UInt64.toNat_and, UInt64.toNat_shiftRight]
  exact (Nat.and_two_pow_sub_one_eq_mod _ 11).trans
    (congrArg (· % 2 ^ 11) (Nat.shiftRight_eq_div_pow _ 52))

theorem fraction_eq : x.fraction = x.bits.toNat % 2 ^ 52 := by
  rw [fraction, UInt64.toNat_and]
  exact Nat.and_two_pow_sub_one_eq_mod _ 52

theorem isNegative_eq : x.isNegative = (x.bits.toNat / 2 ^ 63 == 1) := by
  have hShift : (x.bits >>> 63).toNat = x.bits.toNat / 2 ^ 63 := by
    rw [UInt64.toNat_shiftRight]
    exact Nat.shiftRight_eq_div_pow _ 63
  rw [isNegative, Bool.eq_iff_iff, beq_iff_eq, beq_iff_eq, ← UInt64.toNat_inj, hShift]
  rfl

theorem fraction_lt : x.fraction < 2 ^ 52 := by
  rw [fraction_eq]
  exact Nat.mod_lt _ (by decide)

theorem exponentField_le : x.exponentField ≤ 0x7FF := by
  rw [exponentField_eq]
  omega

theorem denote_eq :
    x.denote = if x.exponentField = 0x7FF then
        if x.fraction = 0 then .infinite x.isNegative
        else .nan x.isNegative x.fraction
      else if x.exponentField = 0 then
        .finite x.isNegative (x.fraction * 2 ^ (-1074 : Int))
      else .finite x.isNegative
        ((2 ^ 52 + x.fraction : Nat) * 2 ^ (x.exponentField - 1075 : Int)) := by
  rw [denote, exponentField_eq, fraction_eq, isNegative_eq]

end Double

namespace Extended80

------------
-- Reading the Format
------------

/- The number that bytes are, the lowest first. -/
def number (s : Bytes) : Nat :=
  Nat.ofDigits 256 (s.map UInt8.toNat)

/- The fifteen exponent bits. -/
def exponent (n : Nat) : Nat :=
  n / 2 ^ 64 % 2 ^ 15

/- The integer bit, above the sixty-three bits of the fraction. -/
def integerBit (n : Nat) : Bool :=
  n.testBit 63

/-
  The value of a pattern of sign, exponent and mantissa.  A
  pattern without the integer bit, but with an exponent, is
  none that the processor takes.
-/
def denote? (n : Nat) : Option FloatDatum :=
  let sign := n / 2 ^ 79 == 1
  let e := exponent n
  let m : Nat := n % 2 ^ 64
  if e = 0 then some (.finite sign (m * 2 ^ (-16445 : Int)))
  else if !integerBit n then none
  else if e = 0x7FFF then
    some (if m % 2 ^ 63 = 0 then .infinite sign
      else .nan sign (m % 2 ^ 63))
  else some (.finite sign (m * 2 ^ (e - 16446 : Int)))

/- The number of a pattern of sign, exponent and mantissa. -/
def pattern (sign : Bool) (e m : Nat) : Nat :=
  (if sign then 2 ^ 79 else 0) + e * 2 ^ 64 + m

variable {sign : Bool} {e m f k : Nat}

theorem integerBit_pattern (hMantissa : m < 2 ^ 64) :
    integerBit (pattern sign e m) = decide (2 ^ 63 ≤ m) := by
  rw [integerBit, Nat.testBit_eq_decide_div_mod_eq]
  cases sign <;> simp only [pattern, decide_eq_decide] <;> norm_num <;> omega

theorem exponent_pattern (hExponent : e < 2 ^ 15) (hMantissa : m < 2 ^ 64) :
    exponent (pattern sign e m) = e := by cases sign <;> simp [exponent, pattern] <;> omega

/- A pattern is read by its parts. -/
theorem denote?_pattern (hExponent : e < 2 ^ 15) (hMantissa : m < 2 ^ 64) :
    denote? (pattern sign e m) = if e = 0 then some (.finite sign (m * 2 ^ (-16445 : Int)))
      else if m < 2 ^ 63 then none
      else if e = 0x7FFF then
        some (if m % 2 ^ 63 = 0 then .infinite sign
          else .nan sign (m % 2 ^ 63))
      else some (.finite sign (m * 2 ^ (e - 16446 : Int))) := by
  have hSign : (pattern sign e m / 2 ^ 79 == 1) = sign := by cases sign <;> simp [pattern] <;> omega
  have hBits : pattern sign e m % 2 ^ 64 = m := by cases sign <;> simp [pattern] <;> omega
  simp only [denote?, hSign, hBits,
    exponent_pattern hExponent hMantissa, integerBit_pattern hMantissa]
  simp

/- Digits of a number that are taken one by one are its last ones. -/
theorem ofDigits_bytes (n v : Nat) :
    Nat.ofDigits 256 ((List.range n).map fun i => v / 256 ^ i % 256) = v % 256 ^ n := by
  induction n with
  | zero => rw [pow_zero, Nat.mod_one]; rfl
  | succ n ih =>
    rw [List.range_succ, List.map_append, Nat.ofDigits_append, ih,
      List.length_map, List.length_range, List.map_singleton,
      Nat.ofDigits_singleton, Nat.mod_pow_succ]

/- The bytes are those of the pattern. -/
theorem number_toBytes (x : Extended80) :
    number x.toBytes = x.signExponent.toNat * 2 ^ 64 + x.mantissa.toNat := by
  have hMantissa := x.mantissa.toNat_lt
  have hHigh := x.signExponent.toNat_lt
  have hByte : ∀ i ∈ List.range 8, (x.mantissa >>> UInt64.ofNat (8 * i)).toUInt8.toNat =
        x.mantissa.toNat / 256 ^ i % 256 := by
    intro i hIn
    have hPlace : 8 * i < 64 := by
      have := List.mem_range.mp hIn
      omega
    rw [UInt64.toNat_toUInt8, UInt64.toNat_shiftRight,
      UInt64.toNat_ofNat_of_lt' (Nat.lt_trans hPlace (by decide)),
      Nat.mod_eq_of_lt hPlace, Nat.shiftRight_eq_div_pow, pow_mul]
    rfl
  have hWord : x.signExponent.toUInt8.toNat +
      256 * (x.signExponent >>> 8).toUInt8.toNat = x.signExponent.toNat := by
    simp [Nat.shiftRight_eq_div_pow]
    omega
  have hBytes := (congrArg (Nat.ofDigits 256)
    (List.map_congr_left hByte)).trans (ofDigits_bytes 8 x.mantissa.toNat)
  rw [number, toBytes, List.map_append, List.map_map, Nat.ofDigits_append,
    List.length_map, List.length_range]
  simp only [List.map_cons, List.map_nil, Nat.ofDigits_cons, Nat.ofDigits_nil]
  rw [show (UInt8.toNat ∘ fun i => (x.mantissa >>> UInt64.ofNat (8 * i)).toUInt8) =
    fun i => (x.mantissa >>> UInt64.ofNat (8 * i)).toUInt8.toNat from rfl, hBytes]
  omega

------------
-- Normalization
------------

/-
  The runs of the loop that shifts a mantissa up while bit 52
  is clear, from the state before it to the state after it.
-/
inductive Normalizes : UInt64 → Nat → UInt64 → Nat → Prop
| done {frac : UInt64} {shift : Nat} :
    frac &&& 0x10000000000000 ≠ 0 → Normalizes frac shift frac shift
| pass {frac norm : UInt64} {shift last : Nat} :
    frac &&& 0x10000000000000 = 0 →
    Normalizes (frac <<< 1) (shift + 1) norm last →
    Normalizes frac shift norm last

variable {frac : UInt64}

/- The bit is the highest that a mantissa may have. -/
theorem and_bit_eq_zero_iff (hRoom : frac.toNat < 2 ^ 53) :
    frac &&& 0x10000000000000 = 0 ↔ frac.toNat < 2 ^ 52 := by
  rw [← UInt64.toNat_inj, UInt64.toNat_and]
  change frac.toNat &&& 2 ^ 52 = 0 ↔ _
  rw [Nat.and_two_pow, Nat.testBit_eq_decide_div_mod_eq]
  simp
  omega

/-
  With passes for the leading zeros of a mantissa the loop
  comes to its end, and each pass doubles the mantissa.
-/
theorem normalize_spec (fuel : Nat) (frac : UInt64) (shift : Nat) (hRoom : frac.toNat < 2 ^ 53)
    (hFuel : 2 ^ 52 ≤ frac.toNat * 2 ^ fuel) :
    ∃ norm k, normalize fuel frac shift = (norm, shift + k) ∧
      Normalizes frac shift norm (shift + k) ∧ k ≤ fuel ∧
      norm.toNat = frac.toNat * 2 ^ k ∧
      2 ^ 52 ≤ norm.toNat ∧ norm.toNat < 2 ^ 53 := by
  induction fuel generalizing frac shift with
  | zero =>
    rw [pow_zero, mul_one] at hFuel
    have hSet := mt (and_bit_eq_zero_iff hRoom).mp (by omega)
    exact ⟨frac, 0, rfl, .done hSet, le_rfl, by simp, hFuel, hRoom⟩
  | succ fuel ih =>
    by_cases hClear : frac &&& 0x10000000000000 = 0
    · have hSmall := (and_bit_eq_zero_iff hRoom).mp hClear
      have hDouble : (frac <<< 1).toNat = frac.toNat * 2 := by
        rw [UInt64.toNat_shiftLeft]
        change frac.toNat <<< 1 % 2 ^ 64 = _
        rw [Nat.shiftLeft_eq]
        omega
      obtain ⟨norm, k, hRun, hRuns, hPasses, hValue, hBounds⟩ :=
        ih (frac <<< 1) (shift + 1) (by omega)
          (by rw [hDouble, mul_assoc, ← pow_succ']; exact hFuel)
      have hCount : shift + 1 + k = shift + (k + 1) := by omega
      rw [hCount] at hRun hRuns
      refine ⟨norm, k + 1, ?_, .pass hClear hRuns, by omega, ?_, hBounds⟩
      · rw [normalize, if_pos (by simpa using hClear), hRun]
      · rw [hValue, hDouble, pow_succ', mul_assoc]
    · have hSet := mt (and_bit_eq_zero_iff hRoom).mpr hClear
      refine ⟨frac, 0, ?_, .done hClear, by omega, by simp, by omega, hRoom⟩
      rw [normalize, if_neg (by simpa using hClear), Nat.add_zero]

------------
-- Storing Doubles
------------

theorem toNat_shifted (hRoom : frac.toNat < 2 ^ 53) :
    (frac <<< 11).toNat = frac.toNat * 2 ^ 11 := by
  rw [UInt64.toNat_shiftLeft]
  change frac.toNat <<< 11 % 2 ^ 64 = _
  rw [Nat.shiftLeft_eq, Nat.mod_eq_of_lt (by omega)]

/- The integer bit stands above a shifted fraction. -/
theorem toNat_mantissa (hFraction : f < 2 ^ 52) :
    ((0x8000000000000000 : UInt64) ||| (UInt64.ofNat f <<< 11)).toNat = 2 ^ 63 + f * 2 ^ 11 := by
  have hFrac : (UInt64.ofNat f).toNat = f :=
    UInt64.toNat_ofNat_of_lt' (Nat.lt_trans hFraction (by decide))
  rw [UInt64.toNat_or, toNat_shifted (by omega), hFrac]
  exact (Nat.two_pow_add_eq_or_of_lt (i := 63) (by omega) 1).symm

/- The sign stands above the exponent. -/
theorem toNat_signExponent (hExponent : e < 2 ^ 15) :
    ((if sign then 0x8000 else 0 : UInt16) ||| UInt16.ofNat e).toNat =
      (if sign then 2 ^ 15 else 0) + e := by
  have hField : (UInt16.ofNat e).toNat = e :=
    UInt16.toNat_ofNat_of_lt' (Nat.lt_trans hExponent (by decide))
  rw [UInt16.toNat_or, hField]
  cases sign with
  | true => exact (Nat.two_pow_add_eq_or_of_lt (i := 15) hExponent 1).symm
  | false => simp

/- The bytes of a value with sign and exponent put together. -/
theorem number_signed {mantissa : UInt64} (hExponent : e < 2 ^ 15) :
    number (toBytes ⟨mantissa, (if sign then 0x8000 else 0) ||| UInt16.ofNat e⟩) =
      pattern sign e mantissa.toNat := by
  rw [number_toBytes, toNat_signExponent hExponent, pattern]
  cases sign
  · simp
  · simp
    omega

variable (x : Double)

/- The pattern that a double is stored as, by its exponent. -/
theorem number_ofDouble :
    (x.exponentField = 0 → x.fraction = 0 →
      number (ofDouble x).toBytes = pattern x.isNegative 0 0) ∧
    (x.exponentField = 0 → x.fraction ≠ 0 →
      ∃ norm k, normalize 52 (UInt64.ofNat x.fraction) 0 = (norm, k) ∧
        Normalizes (UInt64.ofNat x.fraction) 0 norm k ∧ k ≤ 52 ∧
        norm.toNat = x.fraction * 2 ^ k ∧
        2 ^ 52 ≤ norm.toNat ∧ norm.toNat < 2 ^ 53 ∧
        number (ofDouble x).toBytes = pattern x.isNegative (15361 - k) (norm.toNat * 2 ^ 11)) ∧
    (x.exponentField = 0x7FF → number (ofDouble x).toBytes =
        pattern x.isNegative 0x7FFF (2 ^ 63 + x.fraction * 2 ^ 11)) ∧
    (x.exponentField ≠ 0 → x.exponentField ≠ 0x7FF → number (ofDouble x).toBytes =
        pattern x.isNegative (x.exponentField + 15360) (2 ^ 63 + x.fraction * 2 ^ 11)) := by
  have hFraction := x.fraction_lt
  have hField := x.exponentField_le
  have hFrac : (UInt64.ofNat x.fraction).toNat = x.fraction :=
    UInt64.toNat_ofNat_of_lt' (Nat.lt_trans hFraction (by decide))
  refine ⟨fun hExp hNone => ?_, fun hExp hSome => ?_, fun hExp => ?_, fun hLow hHigh => ?_⟩
  · have hStored : ofDouble x = ⟨0, if x.isNegative then 0x8000 else 0⟩ := by
      simp [ofDouble, hExp, hNone]
    rw [hStored, number_toBytes, pattern]
    cases x.isNegative <;> decide
  · obtain ⟨norm, k, hRun, hRuns, hPasses, hValue, hLeast, hMost⟩ :=
      normalize_spec 52 (UInt64.ofNat x.fraction) 0 (by omega) (by rw [hFrac]; omega)
    rw [Nat.zero_add] at hRun hRuns
    rw [hFrac] at hValue
    refine ⟨norm, k, hRun, hRuns, hPasses, hValue, hLeast, hMost, ?_⟩
    have hNonzero : UInt64.ofNat x.fraction ≠ 0 := fun hZero => hSome (by rw [← hFrac, hZero]; rfl)
    have hStored : ofDouble x = ⟨norm <<< 11, (if x.isNegative then 0x8000 else 0) |||
          UInt16.ofNat (15361 - k)⟩ := by
      simp [ofDouble, hExp, hNonzero, hRun]
    rw [hStored, number_signed (by omega), toNat_shifted hMost]
  · have hStored : ofDouble x = ⟨(0x8000000000000000 : UInt64) ||| (UInt64.ofNat x.fraction <<< 11),
        (if x.isNegative then 0x8000 else 0) ||| UInt16.ofNat 0x7FFF⟩ := by
      simp [ofDouble, hExp]
    rw [hStored, number_signed (by decide), toNat_mantissa hFraction]
  · have hStored : ofDouble x = ⟨(0x8000000000000000 : UInt64) ||| (UInt64.ofNat x.fraction <<< 11),
        (if x.isNegative then 0x8000 else 0) |||
          UInt16.ofNat (x.exponentField + 15360)⟩ := by
      simp [ofDouble, hLow, hHigh]
    rw [hStored, number_signed (by omega), toNat_mantissa hFraction]

/- A mantissa with more bits below, and a smaller exponent, is as much. -/
theorem scaled (v n : Nat) {low : Int} (high : Int) (hScale : low + n = high) :
    ((v * 2 ^ n : Nat) : ℚ) * 2 ^ low = v * 2 ^ high := by
  rw [← hScale, zpow_add₀ two_ne_zero, zpow_natCast]
  push_cast
  ring

end Extended80

/- What a wider format makes of a value: a fraction gets more bits below. -/
def FloatDatum.widen (bits : Nat) : FloatDatum → FloatDatum
| .nan sign fraction => .nan sign (fraction * 2 ^ bits)
| d => d

namespace Extended80

/- The ten bytes are read as the double. -/
theorem denote?_number_ofDouble (x : Double) :
    denote? (number (ofDouble x).toBytes) = some (x.denote.widen 11) := by
  obtain ⟨hZero, hSubnormal, hSpecial, hNormal⟩ := number_ofDouble x
  have hFraction := x.fraction_lt
  have hField := x.exponentField_le
  rw [x.denote_eq]
  by_cases hExp : x.exponentField = 0x7FF
  · have hRest : (2 ^ 63 + x.fraction * 2 ^ 11) % 2 ^ 63 = x.fraction * 2 ^ 11 := by omega
    rw [hSpecial hExp, denote?_pattern (by decide) (by omega), if_pos hExp,
      if_neg (by decide), if_neg (by omega), if_pos rfl, hRest]
    by_cases hNone : x.fraction = 0
    · simp [hNone, FloatDatum.widen]
    · simp [hNone, FloatDatum.widen]
  rw [if_neg hExp]
  by_cases hLow : x.exponentField = 0
  · rw [if_pos hLow]
    by_cases hNone : x.fraction = 0
    · rw [hZero hLow hNone, denote?_pattern (by decide) (by decide), hNone]
      simp [FloatDatum.widen]
    · obtain ⟨norm, k, -, -, hPasses, hValue, hLeast, hMost, hStored⟩ := hSubnormal hLow hNone
      have hMantissa : norm.toNat * 2 ^ 11 = x.fraction * 2 ^ (k + 11) := by
        rw [hValue, pow_add, mul_assoc]
      rw [hStored, denote?_pattern (by omega) (by omega),
        if_neg (by omega), if_neg (by omega), if_neg (by omega), hMantissa,
        scaled _ _ (-1074) (by omega)]
      rfl
  · rw [if_neg hLow, hNormal hLow hExp, denote?_pattern (by omega) (by omega), if_neg (by omega),
      if_neg (by omega), if_neg (by omega),
      show 2 ^ 63 + x.fraction * 2 ^ 11 = (2 ^ 52 + x.fraction) * 2 ^ 11 by omega,
      scaled _ _ (x.exponentField - 1075) (by omega)]
    rfl

/- What is no zero has its integer bit, and an exponent. -/
theorem normal_ofDouble {x : Double} (hNonzero : ∀ sign, x.denote ≠ .finite sign 0) :
    integerBit (number (ofDouble x).toBytes) = true ∧
      exponent (number (ofDouble x).toBytes) ≠ 0 := by
  obtain ⟨-, hSubnormal, hSpecial, hNormal⟩ := number_ofDouble x
  have hFraction := x.fraction_lt
  have hField := x.exponentField_le
  have hOf : ∀ {e m : Nat}, number (ofDouble x).toBytes = pattern x.isNegative e m →
      0 < e → e < 2 ^ 15 → 2 ^ 63 ≤ m → m < 2 ^ 64 →
      integerBit (number (ofDouble x).toBytes) = true ∧
        exponent (number (ofDouble x).toBytes) ≠ 0 := by
    intro e m hStored hSome hExponent hLeast hMost
    rw [hStored, integerBit_pattern hMost, exponent_pattern hExponent hMost]
    exact ⟨decide_eq_true hLeast, by omega⟩
  by_cases hExp : x.exponentField = 0x7FF
  · exact hOf (hSpecial hExp) (by decide) (by decide) (by omega) (by omega)
  by_cases hLow : x.exponentField = 0
  · by_cases hNone : x.fraction = 0
    · refine absurd ?_ (hNonzero x.isNegative)
      rw [x.denote_eq, if_neg hExp, if_pos hLow, hNone]
      simp
    · obtain ⟨norm, k, -, -, hPasses, -, hLeast, hMost, hStored⟩ := hSubnormal hLow hNone
      exact hOf hStored (by omega) (by omega) (by omega) (by omega)
  · exact hOf (hNormal hLow hExp) (by omega) (by omega) (by omega) (by omega)

/-
  Storing is exact.  The ten bytes are read as the sign and
  the value of the double, as the infinity or as the fraction
  with eleven more bits.  What is no zero is stored as a
  normal value, and the loop that makes a subnormal mantissa
  normal comes to its end, which is what is computed.
-/
theorem ofDouble_exact (x : Double) :
    (ofDouble x).toBytes.length = 10 ∧
    denote? (number (ofDouble x).toBytes) = some (x.denote.widen 11) ∧
    ((∀ sign, x.denote ≠ .finite sign 0) → integerBit (number (ofDouble x).toBytes) = true ∧
        exponent (number (ofDouble x).toBytes) ≠ 0) ∧
    (x.exponentField = 0 → x.fraction ≠ 0 →
      ∃ norm k, Normalizes (UInt64.ofNat x.fraction) 0 norm k ∧
        k ≤ 52 ∧ normalize 52 (UInt64.ofNat x.fraction) 0 = (norm, k)) := by
  refine ⟨by simp [toBytes], denote?_number_ofDouble x, normal_ofDouble, fun hLow hSome => ?_⟩
  obtain ⟨norm, k, hRun, hRuns, hPasses, -⟩ := (number_ofDouble x).2.1 hLow hSome
  exact ⟨norm, k, hRuns, hPasses, hRun⟩

/- The smallest subnormal double is shifted up by all its bits. -/
theorem ofDouble_exact_least :
    (ofDouble ⟨1⟩).toBytes = [0, 0, 0, 0, 0, 0, 0, 0x80, 0xCD, 0x3B] ∧
      integerBit (number (ofDouble ⟨1⟩).toBytes) = true ∧
      ∃ norm k, Normalizes 1 0 norm k ∧ k ≤ 52 ∧ normalize 52 1 0 = (norm, k) := by
  obtain ⟨-, -, hNormal, hLoop⟩ := ofDouble_exact ⟨1⟩
  refine ⟨by decide, (hNormal fun sign => ?_).1, hLoop (by decide) (by decide)⟩
  rw [Double.denote_eq, if_neg (by decide), if_pos (by decide)]
  simp [show (Double.mk 1).fraction = 1 from rfl]

end Extended80

end CCompiler
