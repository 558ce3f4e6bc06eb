import Mathlib
import CCompiler.Alignment

/-
  Rounding to multiples of an alignment, as far as it stays in
  a word.

  Main declarations:
    * `wordEnd`, `wrap64_of_fits`
    * `alignUp_bounds`
    * `roundUp`, `alignUp_eq_roundUp`
-/

------------
-- Rounding Without Overflow
------------

namespace CCompiler

/- One more than the largest signed word. -/
def wordEnd : Int := 0x8000000000000000

theorem wrap64_of_fits {n : Int} (hLow : -wordEnd ≤ n) (hHigh : n < wordEnd) : wrap64 n = n := by
  simp only [wordEnd] at hLow hHigh
  unfold wrap64
  apply Int.bmod_eq_of_le <;> omega

/- Rounding to eightbytes, as long as it stays in a word. -/
theorem alignUp_eight {n : Int} (hLow : 0 ≤ n) (hHigh : n + 7 < wordEnd) :
    alignUp n 8 = (n + 7) / 8 * 8 := by
  have hWord : wrap64 (n + 8 - 1) = n + 7 := by
    rw [wrap64_of_fits (by simp only [wordEnd]; omega) (by omega)]
    omega
  unfold alignUp
  rw [if_neg (by omega), hWord, Int.tdiv_eq_ediv_of_nonneg (by omega)]

/- Rounding up as long as it stays in a word. -/
theorem alignUp_bounds {n align : Int} (hLow : 0 ≤ n) (hHigh : n + max align 1 ≤ wordEnd) :
    n ≤ alignUp n align ∧ alignUp n align < wordEnd := by
  unfold alignUp
  split
  · constructor <;> omega
  · have hWord : wrap64 (n + align - 1) = n + align - 1 :=
      wrap64_of_fits (by simp only [wordEnd]; omega) (by omega)
    have hPos : 0 < align := by omega
    have hLess := Int.emod_lt_of_pos (n + align - 1) hPos
    have hNonneg := Int.emod_nonneg (n + align - 1) hPos.ne.symm
    have hSplit := Int.mul_ediv_add_emod (n + align - 1) align
    rw [hWord, Int.tdiv_eq_ediv_of_nonneg (by omega), Int.mul_comm]
    constructor <;> omega

------------
-- Rounding Without Bound
------------

/- The multiple of a positive number at or above another one. -/
def roundUp (n a : Int) : Int :=
  (n + a - 1) / a * a

variable {n m a : Int}

theorem dvd_roundUp (n a : Int) : a ∣ roundUp n a := Int.dvd_mul_left _ _

theorem le_roundUp (hPos : 0 < a) : n ≤ roundUp n a := by
  have hRest := Int.emod_lt_of_pos (n + a - 1) hPos
  have hSplit := Int.mul_ediv_add_emod (n + a - 1) a
  unfold roundUp
  rw [Int.mul_comm]
  omega

/- Two multiples of a number lie that number apart. -/
theorem add_le_of_dvd (hPos : 0 < a) (hLeft : a ∣ n) (hRight : a ∣ m) (hLt : n < m) :
    n + a ≤ m := by
  obtain ⟨i, rfl⟩ := hLeft
  obtain ⟨j, rfl⟩ := hRight
  have hNext : i + 1 ≤ j := Int.add_one_le_of_lt (lt_of_mul_lt_mul_left hLt hPos.le)
  calc a * i + a = a * (i + 1) := by ring
    _ ≤ a * j := Int.mul_le_mul_of_nonneg_left hNext hPos.le

/- Rounding in words, if the words can be cut into such units. -/
theorem alignUp_eq_roundUp (hLow : 0 ≤ n) (hPos : 0 < a) (hUnits : a ∣ wordEnd)
    (hFits : roundUp n a < wordEnd) : alignUp n a = roundUp n a := by
  have hRoom := add_le_of_dvd hPos (dvd_roundUp n a) hUnits hFits
  have hLe := le_roundUp (n := n) hPos
  have hWord : wrap64 (n + a - 1) = n + a - 1 :=
    wrap64_of_fits (by simp only [wordEnd]; omega) (by omega)
  unfold alignUp roundUp
  rw [if_neg (by omega), hWord, Int.tdiv_eq_ediv_of_nonneg (by omega)]

variable {k : Nat}

/- A power of two below the end of the words divides it. -/
theorem pow_dvd_wordEnd (hLt : (2 ^ k : Int) < wordEnd) : (2 ^ k : Int) ∣ wordEnd := by
  have hEnd : wordEnd = 2 ^ 63 := by decide
  rw [hEnd] at hLt ⊢
  exact pow_dvd_pow 2 ((pow_lt_pow_iff_right₀ (by decide)).mp hLt).le

/- Nothing is rounded to nothing, whatever the alignment. -/
theorem alignUp_zero (align : Int) : alignUp 0 (wrap64 align) = 0 := by
  have hLow : -wordEnd ≤ wrap64 align ∧ wrap64 align < wordEnd := by
    unfold wrap64
    have hLe := Int.le_bmod (x := align) (m := 0x10000000000000000) (by decide)
    have hLt := Int.bmod_lt (x := align) (m := 0x10000000000000000) (by decide)
    simp only [wordEnd]
    omega
  unfold alignUp
  split
  · rfl
  · have hWord : wrap64 (0 + wrap64 align - 1) = wrap64 align - 1 := by
      rw [wrap64_of_fits (by omega) (by omega)]
      omega
    rw [hWord, Int.tdiv_eq_zero_of_lt (by omega) (by omega), Int.zero_mul]

/- Rounding bits to an alignment that is counted in bytes. -/
theorem alignUp_bits (hLow : 0 ≤ n) (hFits : roundUp n (8 * 2 ^ k) < wordEnd) :
    alignUp n (wrap64 (2 ^ k * 8)) = roundUp n (8 * 2 ^ k) := by
  have hPow : (8 * 2 ^ k : Int) = 2 ^ (k + 3) := by
    rw [pow_add]
    ring
  have hPos : (0 : Int) < 8 * 2 ^ k := by positivity
  rcases hLow.eq_or_lt with rfl | hSome
  · rw [alignUp_zero]
    unfold roundUp
    rw [zero_add, Int.ediv_eq_zero_of_lt (by omega) (by omega), Int.zero_mul]
  · -- the first unit ends at or below what is rounded to
    have hUnit : 8 * 2 ^ k ≤ roundUp n (8 * 2 ^ k) := by
      have hLe := le_roundUp (n := n) hPos
      have hNext := add_le_of_dvd hPos (dvd_zero _) (dvd_roundUp n (8 * 2 ^ k)) (hSome.trans_le hLe)
      omega
    have hWord : wrap64 (2 ^ k * 8) = 8 * 2 ^ k := by
      rw [wrap64_of_fits (by simp only [wordEnd]; omega) (by omega), Int.mul_comm]
    rw [hWord]
    refine alignUp_eq_roundUp hLow hPos ?_ hFits
    rw [hPow]
    exact pow_dvd_wordEnd (by rw [← hPow]; omega)

end CCompiler
