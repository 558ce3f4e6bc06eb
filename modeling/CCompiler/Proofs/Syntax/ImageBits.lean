import Mathlib
import CCompiler.Syntax.InitialValue

/-
  Data as a row of bits, the lowest bit of the first byte
  first.  Words and storage units are written and read in this
  order.

  Main declarations:
    * `Bytes.bit`, `Bytes.toNum`
    * `Image.bit_writeWord?`
    * `Image.testBit_readWord?`
    * `Image.testBit_addBits`
-/

------------
-- Bytes
------------

namespace CCompiler

namespace Bytes

/- One bit of some bytes; there are only zeros behind them. -/
def bit (bs : Bytes) (k : Nat) : Bool :=
  (bs.getD (k / 8) 0).toNat.testBit (k % 8)

/- The number that bytes spell, the least significant first. -/
def toNum (bs : Bytes) : Nat :=
  bs.foldr (fun b n => 256 * n + b.toNat) 0

theorem testBit_toNum (bs : Bytes) (k : Nat) : (toNum bs).testBit k = bit bs k := by
  induction bs generalizing k with
  | nil => simp [toNum, bit]
  | cons b bs ih =>
    have hSplit : toNum (b :: bs) = 2 ^ 8 * toNum bs + b.toNat := rfl
    rw [hSplit, Nat.testBit_two_pow_mul_add _ b.toNat_lt, ih]
    unfold bit
    split
    · rename_i hLow
      rw [Nat.div_eq_of_lt hLow, Nat.mod_eq_of_lt hLow]
      rfl
    · rename_i hHigh
      have hDiv : k / 8 = (k - 8) / 8 + 1 := by omega
      have hMod : k % 8 = (k - 8) % 8 := by omega
      rw [hDiv, hMod]
      rfl

/- There are only zeros behind the bytes. -/
theorem bit_of_length_le {bs : Bytes} {k : Nat} (hBehind : 8 * bs.length ≤ k) :
    bit bs k = false := by
  have hOut : bs[k / 8]? = none := by
    rw [List.getElem?_eq_none_iff]
    omega
  simp [bit, List.getD_eq_getElem?_getD, hOut]

/- The bits of a part. -/
theorem bit_part (bs : Bytes) (start n k : Nat) :
    bit ((bs.drop start).take n) k = (decide (k < 8 * n) && bit bs (8 * start + k)) := by
  have hDiv : (8 * start + k) / 8 = start + k / 8 := by omega
  have hMod : (8 * start + k) % 8 = k % 8 := by omega
  unfold bit
  rw [hDiv, hMod]
  by_cases hIn : k < 8 * n
  · have hPart : k / 8 < n := by omega
    simp [hIn, List.getD_eq_getElem?_getD, hPart]
  · have hPart : ¬ k / 8 < n := by omega
    simp [hIn, List.getD_eq_getElem?_getD, hPart]

end Bytes

------------
-- Words
------------

namespace Image

/- One bit of the data. -/
def bit (i : Image) (k : Nat) : Bool :=
  Bytes.bit i.bytes.toList k

theorem bit_zero (size k : Nat) : (zero size).bit k = false := by
  simp only [bit, zero, Bytes.bit, Array.toList_replicate,
    List.getD_eq_getElem?_getD, List.getElem?_replicate]
  split <;> simp

theorem length_wordBytes (size : Nat) (v : UInt64) : (wordBytes size v).length = size := by
  simp [wordBytes]

variable {size : Nat}

/- The bits of a word stay in their order. -/
theorem bit_wordBytes (v : UInt64) (k : Nat) (hSize : size ≤ 8) (hIn : k < 8 * size) :
    Bytes.bit (wordBytes size v) k = v.toNat.testBit k := by
  have hByte : k / 8 < size := by omega
  have hShift : (8 * (k / 8)) % 18446744073709551616 % 64 = 8 * (k / 8) := by omega
  have hLow : k % 8 < 8 := Nat.mod_lt _ (by decide)
  simp only [Bytes.bit, wordBytes, List.getD_eq_getElem?_getD,
    List.getElem?_map, List.getElem?_range hByte, Option.map_some,
    Option.getD_some, UInt64.toNat_toUInt8,
    UInt64.toNat_shiftRight, Nat.toUInt64, UInt64.toNat_ofNat']
  rw [hShift, Nat.testBit_mod_two_pow, Nat.testBit_shiftRight, Nat.div_add_mod]
  simp [hLow]

/- Writing bytes one after the other. -/
theorem getElem?_foldl_write (bs : Bytes) (a : Array UInt8) (n j : Nat)
    (hFits : n + bs.length ≤ a.size) :
    (bs.foldl (fun (a, n) b => (a.setIfInBounds n b, n + 1)) (a, n)).1[j]? =
      if n ≤ j ∧ j < n + bs.length then bs[j - n]? else a[j]? := by
  induction bs generalizing a n with
  | nil =>
    rw [if_neg (by simp)]
    rfl
  | cons b bs ih =>
    rw [List.length_cons] at hFits
    rw [List.foldl_cons, ih _ _ (by simpa using by omega),
      Array.getElem?_setIfInBounds, List.length_cons]
    rcases Nat.lt_trichotomy n j with hLt | hEq | hGt
    · have hNext : j - n = j - (n + 1) + 1 := by omega
      rw [hNext, List.getElem?_cons_succ]
      by_cases hIn : j < n + 1 + bs.length
      · rw [if_pos (by omega), if_pos (by omega)]
      · rw [if_neg (by omega), if_neg (by omega), if_neg (by omega)]
    · subst hEq
      rw [if_neg (by omega), if_pos rfl, if_pos (by omega), if_pos (by omega)]
      simp
    · rw [if_neg (by omega), if_neg (by omega), if_neg (by omega)]

theorem size_foldl_write (bs : Bytes) (a : Array UInt8) (n : Nat) :
    (bs.foldl (fun (a, n) b => (a.setIfInBounds n b, n + 1)) (a, n)).1.size = a.size := by
  induction bs generalizing a n with
  | nil => rfl
  | cons b bs ih =>
    rw [List.foldl_cons, ih]
    simp

/- What writing bytes gives. -/
structure Writes
    (i : Image)
    (offset : Nat)
    (bs : Bytes)
    (i' : Image) : Prop where
  size : i'.bytes.size = i.bytes.size
  relocs : i'.relocs = i.relocs
  bit : ∀ k, i'.bit k =
    if 8 * offset ≤ k ∧ k < 8 * (offset + bs.length) then
      Bytes.bit bs (k - 8 * offset)
    else i.bit k

variable {i : Image} {offset : Nat}

/- Bytes that fit are written. -/
theorem exists_writes {bs : Bytes} (hFits : offset + bs.length ≤ i.bytes.size) :
    ∃ i', i.writeBytes? offset bs = some i' ∧ Writes i offset bs i' := by
  refine ⟨_, if_pos ⟨Int.natCast_nonneg _, by exact_mod_cast hFits⟩,
    size_foldl_write .., rfl, fun k => ?_⟩
  simp only [Image.bit, Bytes.bit, List.getD_eq_getElem?_getD,
    Array.getElem?_toList, Int.toNat_natCast]
  rw [getElem?_foldl_write bs _ _ _ hFits]
  by_cases hIn : 8 * offset ≤ k ∧ k < 8 * (offset + bs.length)
  · have hDiv : k / 8 - offset = (k - 8 * offset) / 8 := by omega
    have hMod : k % 8 = (k - 8 * offset) % 8 := by omega
    rw [if_pos (by omega), if_pos hIn, hDiv, hMod]
  · rw [if_neg (by omega), if_neg hIn]

/- The bits of one byte of the data. -/
theorem testBit_byte (a : Array UInt8) (n k : Nat) :
    (a.getD n 0).toUInt64.toNat.testBit k = (decide (k < 8) && Bytes.bit a.toList (8 * n + k)) := by
  rw [UInt8.toNat_toUInt64]
  by_cases hLow : k < 8
  · have hDiv : (8 * n + k) / 8 = n := by omega
    have hMod : (8 * n + k) % 8 = k := by omega
    simp [Bytes.bit, hLow, hDiv, hMod]
  · have hByte : (a.getD n 0).toNat < 2 ^ k :=
      (a.getD n 0).toNat_lt.trans_le (Nat.pow_le_pow_right (by decide) (by omega))
    rw [Nat.testBit_lt_two_pow hByte]
    simp [hLow]

/- The word that bytes from one on make up. -/
def wordFrom (a : Array UInt8) (start n : Nat) : UInt64 :=
  (List.range' start n).foldr
    (fun k v => (v <<< 8) ||| (a.getD k 0).toUInt64) 0

theorem testBit_wordFrom (a : Array UInt8) (start n k : Nat) (hSize : n ≤ 8) :
    (wordFrom a start n).toNat.testBit k =
      (decide (k < 8 * n) && Bytes.bit a.toList (8 * start + k)) := by
  induction n generalizing start k with
  | zero => simp [wordFrom]
  | succ n ih =>
    have hStep : wordFrom a start (n + 1) = (wordFrom a (start + 1) n <<< 8) |||
          (a.getD start 0).toUInt64 := rfl
    rw [hStep, UInt64.toNat_or, Nat.testBit_or, testBit_byte,
      UInt64.toNat_shiftLeft, Nat.testBit_mod_two_pow, Nat.testBit_shiftLeft]
    simp only [UInt64.reduceToNat, Nat.reduceMod]
    rw [ih (start + 1) (k - 8) (by omega)]
    by_cases hLow : k < 8
    · simp [hLow, show ¬ 8 ≤ k by omega, show k < 8 * (n + 1) by omega]
    · have hPlace : 8 * (start + 1) + (k - 8) = 8 * start + k := by omega
      rw [hPlace]
      by_cases hIn : k < 8 * (n + 1)
      · simp [hLow, hIn, show 8 ≤ k by omega, show k < 64 by omega, show k - 8 < 8 * n by omega]
      · simp [hLow, hIn, show ¬ (k - 8 < 8 * n) by omega]

/- A word that is inside is read. -/
theorem exists_readWord (hFits : offset + size ≤ i.bytes.size) (hSize : size ≤ 8) :
    ∃ u, i.readWord? offset size = some u ∧ ∀ k, u.toNat.testBit k =
        (decide (k < 8 * size) && i.bit (8 * offset + k)) := by
  refine ⟨wordFrom i.bytes offset size, ?_, fun k => testBit_wordFrom i.bytes offset size k hSize⟩
  rw [readWord?, if_pos ⟨Int.natCast_nonneg _,
    by exact_mod_cast hFits⟩, Int.toNat_natCast, wordFrom,
    List.range'_eq_map_range, List.foldr_map]

theorem testBit_lowBits {width : Int} (k : Nat) (hWidth : width ≤ 64) :
    (lowBits width).toNat.testBit k = decide (k < width.toNat) := by
  have hLt : 2 ^ width.toNat - 1 < 2 ^ 64 := by
    have hPos := Nat.two_pow_pos width.toNat
    have hLe : 2 ^ width.toNat ≤ 2 ^ 64 := Nat.pow_le_pow_right (by decide) (by omega)
    omega
  have hWord : (lowBits width).toNat = 2 ^ width.toNat - 1 := UInt64.toNat_ofNat_of_lt' hLt
  rw [hWord, Nat.testBit_two_pow_sub_one]

/- The bits of a bit-field are added to its unit. -/
theorem testBit_addBits {b : BitField} (unit v : UInt64) (k : Nat) (hLow : 0 ≤ b.offset)
    (hHigh : b.offset + b.width ≤ 64) :
    (addBits unit b v).toNat.testBit k = (unit.toNat.testBit k || (decide (b.offset.toNat ≤ k) &&
        decide (k - b.offset.toNat < b.width.toNat) &&
        v.toNat.testBit (k - b.offset.toNat))) := by
  by_cases hSome : 0 < b.width
  · have hShift : (UInt64.ofNat b.offset.toNat).toNat % 64 =
        b.offset.toNat := by
      rw [UInt64.toNat_ofNat_of_lt' (by simp only [UInt64.size]; omega)]
      omega
    rw [addBits, UInt64.toNat_or, Nat.testBit_or,
      UInt64.toNat_shiftLeft, Nat.testBit_mod_two_pow, hShift,
      Nat.testBit_shiftLeft, UInt64.toNat_and, Nat.testBit_and,
      testBit_lowBits _ (by omega)]
    by_cases hIn : b.offset.toNat ≤ k ∧ k - b.offset.toNat < b.width.toNat
    · have hWord : k < 64 := by omega
      simp [hIn, hWord]
    · by_cases hFirst : b.offset.toNat ≤ k
      · simp [show ¬ k - b.offset.toNat < b.width.toNat from
          fun hLast => hIn ⟨hFirst, hLast⟩]
      · simp [hFirst]
  · -- a bit-field without bits adds nothing
    have hNone : b.width.toNat = 0 := by omega
    have hBits : addBits unit b v = unit := by simp [addBits, lowBits, hNone]
    simp [hBits, hNone]

end Image

end CCompiler
