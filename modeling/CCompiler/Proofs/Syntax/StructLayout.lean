import Mathlib
import CCompiler.Proofs.Rounding
import CCompiler.Syntax.Layout

/-
  The layout of structures that are not packed.

  One counter of bits places ordinary members and bit-fields.
  It is followed by a counter without bound: as long as that
  one stays in a word when the last member is placed and the
  size is rounded, the two agree, and the members lie one
  behind the other.

  Main declarations:
    * `Layout.Shape.Proper`, `Layout.bitsAfter`
    * `Layout.Arranged`, `Layout.slots_arranged`
    * `Layout.struct_arranged`
    * `Member.Proper`, `Record.Declared`, `Record.Sound`
    * `Record.laidOut_sound`
-/

------------
-- Counting Without Bound
------------

namespace CCompiler

namespace Layout

/-
  A member that the layout can place.  Its alignment is a
  power of two; a bit-field is of an integer type, is no wider
  than that, and is aligned at least as strictly.
-/
structure Shape.Proper (m : Shape) : Prop where
  power : ∃ k : Nat, m.align = 2 ^ k
  complete : 0 ≤ m.size
  field : ∀ w ∈ m.width?, 0 ≤ w ∧ w ≤ 8 * m.size ∧
    m.size ≤ m.align ∧ ∃ k ≤ 3, m.size = 2 ^ k

/- The first bit for a bit-field of positive width. -/
def fieldStart (bits size width : Int) : Int :=
  if bits / (8 * size) = (bits + width - 1) / (8 * size) then bits
  else roundUp bits (8 * size)

/- The bits used after one more member. -/
def bitsPast (bits : Int) (m : Shape) : Int :=
  match m.width? with
  | some 0 => roundUp bits (8 * m.size)
  | some w => fieldStart bits m.size w + w
  | none => roundUp bits (8 * m.align) + 8 * m.size

/- The bits used after some members. -/
def bitsAfter (bits : Int) (ms : List Shape) : Int :=
  ms.foldl bitsPast bits

/- The strictest alignment of a structure and its members. -/
def alignOf (align : Int) (ms : List Shape) : Int :=
  ms.foldl (fun a m => max a m.align) align

/- The bits of a structure with the padding at its end. -/
def bitSize (align : Int) (ms : List Shape) : Int :=
  roundUp (bitsAfter 0 ms) (8 * alignOf align ms)

/- The number of bits that belong to a member. -/
def Shape.bitCount (m : Shape) : Int :=
  m.width?.getD (8 * m.size)

/- The first bit of a slot. -/
def Slot.first (s : Slot) : Int :=
  8 * s.offset + s.bit

/-
  A slot that suits a member.  An ordinary member is aligned;
  a bit-field lies in one unit of its type, and one of width
  zero has the first place of all.
-/
structure Suits (m : Shape) (s : Slot) : Prop where
  ordinary : m.width? = none → m.align ∣ s.offset ∧ s.bit = 0
  field : ∀ w ∈ m.width?, 0 < w → m.size ∣ s.offset ∧
    0 ≤ s.bit ∧ s.bit + w ≤ 8 * m.size
  skip : m.width? = some 0 → s = ⟨0, 0⟩

/- A member has bits to place unless it is a bit-field of width zero. -/
def Shape.Solid (m : Shape) : Prop :=
  m.width? ≠ some 0

/-
  Members in slots that suit them, one behind the other
  between two bits.
-/
structure Arranged
    (start stop : Int)
    (ps : List (Shape × Slot)) : Prop where
  suits : ∀ p ∈ ps, Suits p.1 p.2
  inside : ∀ p ∈ ps, p.1.Solid →
    start ≤ p.2.first ∧ p.2.first + p.1.bitCount ≤ stop
  ordered : ps.Pairwise fun p q => p.1.Solid → q.1.Solid →
    p.2.first + p.1.bitCount ≤ q.2.first

------------
-- One Member
------------

variable {bits size width start stop align : Int} {m : Shape}
  {ms : List Shape}

/- The unit of a type divides the words. -/
theorem unit_dvd_wordEnd (hSize : ∃ k ≤ 3, size = 2 ^ k) : 8 * size ∣ wordEnd := by
  obtain ⟨k, hk, rfl⟩ := hSize
  have hEnd : wordEnd = 8 * 2 ^ k * 2 ^ (60 - k) := by interval_cases k <;> decide
  rw [hEnd]
  exact dvd_mul_right _ _

/- A bit-field starts at or behind the bits before it, and in one unit. -/
theorem fieldStart_spec (bits : Int) (hSize : 0 < size) (hWidth : width ≤ 8 * size) :
    bits ≤ fieldStart bits size width ∧ fieldStart bits size width % (8 * size) + width ≤
        8 * size := by
  have hUnit : 0 < 8 * size := by omega
  unfold fieldStart
  split
  · rename_i hSame
    refine ⟨le_rfl, ?_⟩
    have hFirst := Int.mul_ediv_add_emod bits (8 * size)
    have hLast := Int.mul_ediv_add_emod (bits + width - 1) (8 * size)
    have hRest := Int.emod_lt_of_pos (bits + width - 1) hUnit
    rw [← hSame] at hLast
    omega
  · refine ⟨le_roundUp hUnit, ?_⟩
    rw [Int.emod_eq_zero_of_dvd (dvd_roundUp bits (8 * size))]
    omega

/- A place rounded down to a type that is no larger than a word. -/
theorem alignDown_eq (hLow : 0 ≤ bits) (hHigh : bits < wordEnd) (hSize : 0 < size)
    (hSmall : size ≤ 8) : alignDown bits size = bits / size * size := by
  have hWord : wrap64 (bits - size + 1) = bits - size + 1 :=
    wrap64_of_fits (by simp only [wordEnd]; omega) (by omega)
  have hBack : wrap64 (bits - size + 1 + size - 1) = bits := by
    rw [wrap64_of_fits (by simp only [wordEnd]; omega) (by omega)]
    omega
  unfold alignDown alignUp
  rw [if_neg (by omega), hWord, hBack, Int.tdiv_eq_ediv_of_nonneg hLow]

/- A bit-field of positive width is placed where it fits. -/
theorem placeBits_eq (hLow : 0 ≤ bits) (hSize : ∃ k ≤ 3, size = 2 ^ k) (hPos : 0 < width)
    (hWidth : width ≤ 8 * size) (hFits : fieldStart bits size width + width < wordEnd) :
    placeBits bits size width = (⟨fieldStart bits size width / (8 * size) * size,
        fieldStart bits size width % (8 * size)⟩,
        fieldStart bits size width + width) := by
  have hUnits := unit_dvd_wordEnd hSize
  have hSmall : 0 < size ∧ size ≤ 8 := by
    obtain ⟨k, hk, rfl⟩ := hSize
    interval_cases k <;> decide
  have hUnit : 0 < 8 * size := by omega
  obtain ⟨hStart, -⟩ := fieldStart_spec bits hSmall.1 hWidth
  have hLast : wrap64 (bits + width - 1) = bits + width - 1 :=
    wrap64_of_fits (by simp only [wordEnd]; omega) (by omega)
  have hBits : (if bits.tdiv (size * 8) !=
        (wrap64 (bits + width - 1)).tdiv (size * 8) then
      alignUp bits (size * 8) else bits) =
      fieldStart bits size width := by
    rw [hLast, Int.mul_comm size, Int.tdiv_eq_ediv_of_nonneg hLow,
      Int.tdiv_eq_ediv_of_nonneg (by omega)]
    unfold fieldStart at hFits ⊢
    by_cases hSame : bits / (8 * size) = (bits + width - 1) / (8 * size)
    · simp [hSame]
    · rw [if_neg hSame] at hFits
      simp only [bne_iff_ne, ne_eq, hSame, not_false_eq_true, if_true, if_false]
      exact alignUp_eq_roundUp hLow hUnit hUnits (by omega)
  unfold placeBits
  simp only [hBits]
  rw [wrap64_of_fits (by simp only [wordEnd]; omega) hFits, Int.tdiv_eq_ediv_of_nonneg (by omega),
    Int.tmod_eq_emod_of_nonneg (by omega),
    alignDown_eq (by omega) (by omega) hSmall.1 hSmall.2,
    Int.ediv_ediv_of_nonneg (by omega), Int.mul_comm size 8]

/- What placing one member gives, as long as bits are words. -/
structure Places
    (bits : Int)
    (m : Shape)
    (s : Slot) : Prop where
  eq : place false bits m = (s, bitsPast bits m)
  suits : Suits m s
  solid : m.Solid → bits ≤ s.first ∧ s.first + m.bitCount = bitsPast bits m

/- A bit-field of width zero only moves on to the next unit. -/
theorem places_zero (hLow : 0 ≤ bits) (hProper : m.Proper) (hWidth : m.width? = some 0)
    (hFits : bitsPast bits m < wordEnd) : Places bits m ⟨0, 0⟩ := by
  obtain ⟨-, -, -, hSize⟩ := hProper.field 0 hWidth
  have hUnits := unit_dvd_wordEnd hSize
  have hPos : 0 < m.size := by
    obtain ⟨k, -, hk⟩ := hSize
    rw [hk]
    positivity
  have hPast : bitsPast bits m = roundUp bits (8 * m.size) := by simp only [bitsPast, hWidth]
  rw [hPast] at hFits
  refine ⟨?_, ⟨?_, ?_, fun _ => rfl⟩, fun hSolid => absurd hWidth hSolid⟩
  · simp only [place, hWidth, hPast]
    rw [Int.mul_comm, alignUp_eq_roundUp hLow (by omega) hUnits hFits]
  · intro hNone
    rw [hWidth] at hNone
    cases hNone
  · intro w hMem hSome
    rw [hWidth] at hMem
    cases hMem
    omega

/- A bit-field of positive width. -/
theorem places_field {w : Int} (hLow : 0 ≤ bits) (hProper : m.Proper) (hWidth : m.width? = some w)
    (hZero : w ≠ 0) (hFits : bitsPast bits m < wordEnd) : ∃ s, Places bits m s := by
  obtain ⟨hNonneg, hMost, -, hSize⟩ := hProper.field w hWidth
  have hPos : 0 < w := by omega
  have hSome : 0 < m.size := by
    obtain ⟨k, -, hk⟩ := hSize
    rw [hk]
    positivity
  have hPast : bitsPast bits m = fieldStart bits m.size w + w := by
    unfold bitsPast
    rw [hWidth]
    split
    · rename_i hEq
      cases hEq
      exact absurd rfl hZero
    · rename_i hEq
      cases hEq
      rfl
    · rename_i hEq
      cases hEq
  rw [hPast] at hFits
  obtain ⟨hStart, hUnit⟩ := fieldStart_spec bits hSome hMost
  have hPlace := placeBits_eq hLow hSize hPos hMost hFits
  refine ⟨⟨fieldStart bits m.size w / (8 * m.size) * m.size,
    fieldStart bits m.size w % (8 * m.size)⟩, ?_, ⟨?_, ?_, ?_⟩, ?_⟩
  · rw [← hPast] at hPlace
    rw [← hPlace]
    unfold place
    rw [hWidth]
    split
    · rename_i hEq
      cases hEq
      exact absurd rfl hZero
    · rename_i hEq
      cases hEq
      rfl
    · rename_i hEq
      cases hEq
  · intro hNone
    rw [hWidth] at hNone
    cases hNone
  · intro v hMem _
    rw [hWidth] at hMem
    cases hMem
    exact ⟨Int.dvd_mul_left _ _, Int.emod_nonneg _ (by omega), hUnit⟩
  · intro hSkip
    rw [hWidth] at hSkip
    cases hSkip
    exact absurd rfl hZero
  · intro _
    have hSplit := Int.mul_ediv_add_emod (fieldStart bits m.size w) (8 * m.size)
    have hFirst : Slot.first ⟨fieldStart bits m.size w / (8 * m.size) * m.size,
          fieldStart bits m.size w % (8 * m.size)⟩ =
        fieldStart bits m.size w := by
      calc _ = 8 * m.size * (fieldStart bits m.size w / (8 * m.size)) +
            fieldStart bits m.size w % (8 * m.size) := by
            unfold Slot.first
            ring
        _ = _ := hSplit
    rw [hFirst, hPast, Shape.bitCount, hWidth]
    exact ⟨hStart, rfl⟩

/- An ordinary member. -/
theorem places_ordinary (hLow : 0 ≤ bits) (hProper : m.Proper) (hWidth : m.width? = none)
    (hFits : bitsPast bits m < wordEnd) : Places bits m ⟨roundUp bits (8 * m.align) / 8, 0⟩ := by
  obtain ⟨k, hk⟩ := hProper.power
  have hSize := hProper.complete
  have hPos : 0 < 8 * m.align := by
    rw [hk]
    positivity
  have hPast : bitsPast bits m = roundUp bits (8 * m.align) + 8 * m.size := by
    simp only [bitsPast, hWidth]
  rw [hPast] at hFits
  have hLe := le_roundUp (n := bits) hPos
  have hRound : alignUp bits (wrap64 (m.align * 8)) = roundUp bits (8 * m.align) := by
    rw [hk] at hFits ⊢
    exact alignUp_bits hLow (by omega)
  obtain ⟨q, hq⟩ := dvd_roundUp bits (8 * m.align)
  have hOffset : roundUp bits (8 * m.align) / 8 = m.align * q := by
    rw [hq, Int.mul_assoc]
    exact Int.mul_ediv_cancel_left _ (by decide)
  refine ⟨?_, ⟨fun _ => ⟨?_, rfl⟩, ?_, ?_⟩, fun _ => ?_⟩
  · simp only [place, hWidth, hPast, Bool.false_eq_true, if_false, hRound]
    rw [Int.tdiv_eq_ediv_of_nonneg (by omega), Int.mul_comm m.size,
      wrap64_of_fits (by simp only [wordEnd]; omega) hFits]
  · rw [hOffset]
    exact Int.dvd_mul_right _ _
  · intro w hMem
    rw [hWidth] at hMem
    cases hMem
  · intro hSkip
    rw [hWidth] at hSkip
    cases hSkip
  · have hFirst : Slot.first ⟨roundUp bits (8 * m.align) / 8, 0⟩ = roundUp bits (8 * m.align) := by
      rw [Slot.first, hOffset, hq]
      ring
    rw [hFirst, hPast, Shape.bitCount, hWidth]
    exact ⟨hLe, rfl⟩

/- Every member finds a slot. -/
theorem exists_places (hLow : 0 ≤ bits) (hProper : m.Proper) (hFits : bitsPast bits m < wordEnd) :
    ∃ s, Places bits m s := by
  cases hWidth : m.width? with
  | none => exact ⟨_, places_ordinary hLow hProper hWidth hFits⟩
  | some w =>
    by_cases hZero : w = 0
    · subst hZero
      exact ⟨_, places_zero hLow hProper hWidth hFits⟩
    · exact places_field hLow hProper hWidth hZero hFits

end Layout

------------
-- All Members
------------

namespace Layout

variable {bits size width start stop align : Int} {m : Shape}
  {ms : List Shape}

/- Bits are only added. -/
theorem le_bitsPast (bits : Int) (hProper : m.Proper) : bits ≤ bitsPast bits m := by
  obtain ⟨k, hk⟩ := hProper.power
  have hAlign : 0 < 8 * m.align := by
    rw [hk]
    positivity
  unfold bitsPast
  split
  · rename_i hWidth
    obtain ⟨-, -, -, j, -, hj⟩ := hProper.field 0 hWidth
    exact le_roundUp (by rw [hj]; positivity)
  · rename_i w _ hWidth
    obtain ⟨hNonneg, hMost, -, j, -, hj⟩ := hProper.field w hWidth
    have hSize : 0 < m.size := by
      rw [hj]
      positivity
    have hStart := (fieldStart_spec bits hSize hMost).1
    omega
  · have hSize := hProper.complete
    have hLe := le_roundUp (n := bits) hAlign
    omega

theorem le_bitsAfter (bits : Int) (hProper : ∀ m ∈ ms, m.Proper) : bits ≤ bitsAfter bits ms := by
  induction ms generalizing bits with
  | nil => exact le_rfl
  | cons m ms ih =>
    have hFirst := le_bitsPast bits (hProper m (by simp))
    exact hFirst.trans (ih _ fun n hn => hProper n (List.mem_cons_of_mem _ hn))

/-
  Placing members one after the other arranges them, as long
  as all the bits are words.
-/
theorem slots_arranged (align : Int) (hLow : 0 ≤ bits) (hProper : ∀ m ∈ ms, m.Proper)
    (hFits : bitsAfter bits ms < wordEnd) :
    ∃ ss, slots false ⟨bits, align⟩ ms =
        (ss, ⟨bitsAfter bits ms, alignOf align ms⟩) ∧ ss.length = ms.length ∧
      Arranged bits (bitsAfter bits ms) (ms.zip ss) := by
  induction ms generalizing bits align with
  | nil => exact ⟨[], rfl, rfl, by simp, by simp, List.Pairwise.nil⟩
  | cons m ms ih =>
    have hFirst := hProper m (by simp)
    have hOthers : ∀ n ∈ ms, n.Proper := fun n hn => hProper n (List.mem_cons_of_mem _ hn)
    have hMore := le_bitsPast bits hFirst
    have hAll := le_bitsAfter (bitsPast bits m) hOthers
    have hLast : bitsAfter (bitsPast bits m) ms < wordEnd := hFits
    obtain ⟨s, hPlaces⟩ := exists_places hLow hFirst (by omega)
    obtain ⟨ss, hSlots, hLength, hRest⟩ := ih (max align m.align) (by omega) hOthers hLast
    refine ⟨s :: ss, ?_, by simp [hLength], ?_, ?_, ?_⟩
    · simp only [slots, step, hPlaces.eq, Bool.false_eq_true, if_false, hSlots]
      rfl
    · exact List.forall_mem_cons.mpr ⟨hPlaces.suits, hRest.suits⟩
    · refine List.forall_mem_cons.mpr ⟨fun hSolid => ?_, fun p hp hSolid => ?_⟩
      · obtain ⟨hStart, hStop⟩ := hPlaces.solid hSolid
        exact ⟨hStart, hStop.trans_le hAll⟩
      · obtain ⟨hStart, hStop⟩ := hRest.inside p hp hSolid
        exact ⟨hMore.trans hStart, hStop⟩
    · refine List.pairwise_cons.mpr ⟨fun p hp hSolid hNext => ?_, hRest.ordered⟩
      exact (hPlaces.solid hSolid).2.trans_le (hRest.inside p hp hNext).1

/- The alignment of a record is a power of two if all are. -/
theorem alignOf_power (hAlign : ∃ k : Nat, align = 2 ^ k)
    (hPowers : ∀ m ∈ ms, ∃ k : Nat, m.align = 2 ^ k) : ∃ k : Nat, alignOf align ms = 2 ^ k := by
  induction ms generalizing align with
  | nil => exact hAlign
  | cons m ms ih =>
    refine ih ?_ fun n hn => hPowers n (List.mem_cons_of_mem _ hn)
    change ∃ k : Nat, max align m.align = 2 ^ k
    rcases max_choice align m.align with hMax | hMax
    · rw [hMax]
      exact hAlign
    · rw [hMax]
      exact hPowers m (by simp)

/- The largest of some numbers is at least each of them. -/
theorem le_foldl_max (f : Shape → Int) (ms : List Shape) (n : Int) :
    n ≤ ms.foldl (fun a m => max a (f m)) n ∧
      ∀ m ∈ ms, f m ≤ ms.foldl (fun a m => max a (f m)) n := by
  induction ms generalizing n with
  | nil => simp
  | cons m ms ih =>
    obtain ⟨hOwn, hRest⟩ := ih (max n (f m))
    exact ⟨(le_max_left _ _).trans hOwn, List.forall_mem_cons.mpr
      ⟨(le_max_right _ _).trans hOwn, hRest⟩⟩

theorem le_alignOf (align : Int) (ms : List Shape) :
    align ≤ alignOf align ms ∧ ∀ m ∈ ms, m.align ≤ alignOf align ms :=
  le_foldl_max Shape.align ms align

/- Of two powers of two the smaller one divides the other. -/
theorem power_dvd {a b : Int} (hLeft : ∃ k : Nat, a = 2 ^ k) (hRight : ∃ k : Nat, b = 2 ^ k)
    (hLe : a ≤ b) : a ∣ b := by
  obtain ⟨j, rfl⟩ := hLeft
  obtain ⟨k, rfl⟩ := hRight
  exact pow_dvd_pow 2 ((pow_le_pow_iff_right₀ (by decide)).mp hLe)

/-
  The slots, size and alignment of a structure whose bits are
  words.  The units of bit-fields lie inside of it.
-/
theorem struct_arranged (hAlign : ∃ k : Nat, align = 2 ^ k) (hProper : ∀ m ∈ ms, m.Proper)
    (hFits : bitSize align ms < wordEnd) :
    ∃ ss size, struct false align ms = (ss, size, alignOf align ms) ∧
      ss.length = ms.length ∧ 0 ≤ size ∧ alignOf align ms ∣ size ∧
      Arranged 0 (8 * size) (ms.zip ss) ∧
      ∀ p ∈ ms.zip ss, ∀ w ∈ p.1.width?, 0 < w → 0 ≤ p.2.offset ∧ p.2.offset + p.1.size ≤ size := by
  have hPower := alignOf_power hAlign fun m hm => (hProper m hm).power
  have hPos : 0 < alignOf align ms := by
    obtain ⟨k, hk⟩ := hPower
    rw [hk]
    positivity
  have hLow := le_bitsAfter 0 hProper
  have hRound : bitsAfter 0 ms ≤ bitSize align ms := le_roundUp (by omega)
  obtain ⟨ss, hSlots, hLength, hArranged⟩ := slots_arranged align le_rfl hProper (by omega)
  have hUp : alignUp (bitsAfter 0 ms) (wrap64 (alignOf align ms * 8)) = bitSize align ms := by
    obtain ⟨k, hk⟩ := hPower
    unfold bitSize at hFits ⊢
    rw [hk] at hFits ⊢
    exact alignUp_bits hLow hFits
  obtain ⟨q, hq⟩ := dvd_roundUp (bitsAfter 0 ms) (8 * alignOf align ms)
  have hSize : bitSize align ms / 8 = alignOf align ms * q := by
    unfold bitSize
    rw [hq, Int.mul_assoc]
    exact Int.mul_ediv_cancel_left _ (by decide)
  have hEight : 8 * (bitSize align ms / 8) = bitSize align ms := by
    rw [hSize]
    unfold bitSize
    rw [hq]
    ring
  refine ⟨ss, bitSize align ms / 8, ?_, hLength, by omega, ?_, ?_, ?_⟩
  · simp only [struct, hSlots, hUp]
    rw [Int.tdiv_eq_ediv_of_nonneg (by omega)]
  · rw [hSize]
    exact Int.dvd_mul_right _ _
  · rw [hEight]
    refine { hArranged with inside := fun p hp hSolid => ?_ }
    obtain ⟨hStart, hStop⟩ := hArranged.inside p hp hSolid
    exact ⟨hStart, hStop.trans hRound⟩
  · intro p hp w hw hSome
    have hMem : p.1 ∈ ms := (List.of_mem_zip hp).1
    obtain ⟨-, -, hNatural, k, -, hk⟩ := (hProper p.1 hMem).field w hw
    obtain ⟨hUnit, hBit, hIn⟩ := (hArranged.suits p hp).field w hw hSome
    have hSolid : p.1.Solid := by
      intro hZero
      rw [hZero] at hw
      cases hw
      omega
    obtain ⟨hStart, hStop⟩ := hArranged.inside p hp hSolid
    have hPart : 0 < p.1.size := by
      rw [hk]
      positivity
    have hFirst : p.2.first = 8 * p.2.offset + p.2.bit := rfl
    have hCount : p.1.bitCount = w := by
      rw [Shape.bitCount, hw]
      rfl
    -- the unit and the structure end at multiples of the type
    have hWhole : p.1.size ∣ bitSize align ms / 8 := by
      rw [hSize]
      exact (power_dvd ⟨k, hk⟩ hPower (hNatural.trans
        ((le_alignOf align ms).2 p.1 hMem))).mul_right q
    have hNonneg : 0 ≤ p.2.offset := by
      by_contra hNeg
      have hBelow := add_le_of_dvd hPart hUnit (dvd_zero _) (by omega)
      omega
    exact ⟨hNonneg, add_le_of_dvd hPart hUnit hWhole (by omega)⟩

end Layout

------------
-- Records
------------

/- The first bit of a member. -/
def Member.bitStart (m : Member) : Int :=
  8 * m.offset + (m.bits?.map (·.offset)).getD 0

/- The number of bits that belong to a member. -/
def Member.bitCount (rs : Records) (m : Member) : Int :=
  (m.bits?.map (·.width)).getD (8 * m.type.size rs)

/- A bit-field of width zero, which only moves on. -/
def Member.IsBreak (m : Member) : Prop :=
  m.bits?.map (·.width) = some 0

instance  (m : Member) : Decidable m.IsBreak := inferInstanceAs (Decidable (_ = _))

/-
  A member as it is declared.  It is aligned to a power of
  two, at least as strictly as its type; a bit-field is of an
  integer type and no wider than that.
-/
structure Member.Proper (rs : Records) (m : Member) : Prop where
  power : ∃ k : Nat, m.align = 2 ^ k
  natural : m.type.align rs ≤ m.align
  complete : 0 ≤ m.type.size rs
  field : ∀ b ∈ m.bits?, m.type.isInteger ∧ 0 ≤ b.width ∧
    b.width ≤ 8 * m.type.size rs

/-
  A sound layout.  Ordinary members are aligned, bit-fields
  lie in units inside the structure, the members that have
  bits follow one another, and the size is made of whole
  alignments.  Bit-fields of width zero stay at the start.
-/
structure Record.Sound (rs : Records) (r : Record) : Prop where
  nonneg : 0 ≤ r.size
  aligned : ∀ m ∈ r.members, m.bits? = none → m.align ∣ m.offset
  units : ∀ m ∈ r.members, ∀ b ∈ m.bits?, 0 < b.width →
    m.type.size rs ∣ m.offset ∧ 0 ≤ b.offset ∧
      b.offset + b.width ≤ 8 * m.type.size rs ∧
      0 ≤ m.offset ∧ m.offset + m.type.size rs ≤ r.size
  ordered : r.members.Pairwise fun m n => ¬ m.IsBreak →
    ¬ n.IsBreak → m.bitStart + m.bitCount rs ≤ n.bitStart
  inside : ∀ m ∈ r.members, ¬ m.IsBreak →
    0 ≤ m.bitStart ∧ m.bitStart + m.bitCount rs ≤ 8 * r.size
  skipped : ∀ m ∈ r.members, m.IsBreak →
    m.offset = 0 ∧ ∀ b ∈ m.bits?, b.offset = 0
  strict : ∀ m ∈ r.members, m.align ≤ r.align
  whole : r.align ∣ r.size

variable {rs : Records} {r : Record} {m : Member}

/- The sizes of integer types, which are also their alignments. -/
theorem CType.size_of_isInteger {t : CType} (rs : Records) (hInt : t.isInteger) :
    t.align rs = t.size rs ∧ ∃ k ≤ 3, t.size rs = 2 ^ k := by
  unfold isInteger at hInt
  unfold align size
  split at hInt
  · rename_i hPlain
    rw [hPlain]
    exact ⟨rfl, 0, by decide, rfl⟩
  · rename_i kind _ hPlain
    rw [hPlain]
    refine ⟨rfl, ?_⟩
    cases kind with
    | char => exact ⟨0, by decide, rfl⟩
    | short => exact ⟨1, by decide, rfl⟩
    | int => exact ⟨2, by decide, rfl⟩
    | long => exact ⟨3, by decide, rfl⟩
  · rename_i hPlain
    rw [hPlain]
    exact ⟨rfl, 2, by decide, rfl⟩
  · cases hInt

theorem Member.Proper.shape (hProper : m.Proper rs) : (m.shape rs).Proper := by
  refine ⟨hProper.power, hProper.complete, fun w hw => ?_⟩
  obtain ⟨b, hb, rfl⟩ := Option.map_eq_some_iff.mp hw
  obtain ⟨hInt, hLow, hMost⟩ := hProper.field b hb
  obtain ⟨hAlign, hSize⟩ := CType.size_of_isInteger rs hInt
  have hNatural := hProper.natural
  rw [hAlign] at hNatural
  exact ⟨hLow, hMost, hNatural, hSize⟩

/- A member that has been given a place, and else is as before. -/
structure Member.Placed (m n : Member) : Prop where
  type : n.type = m.type
  name? : n.name? = m.name?
  index : n.index = m.index
  align : n.align = m.align
  width? : n.bits?.map (·.width) = m.bits?.map (·.width)

namespace Member

variable {s : Layout.Slot}

theorem placed_inSlot (m : Member) (s : Layout.Slot) : m.Placed (m.inSlot s) := by
  refine ⟨rfl, rfl, rfl, rfl, ?_⟩
  simp only [inSlot, Option.map_map]
  rfl

theorem bitStart_inSlot (hSuits : Layout.Suits (m.shape rs) s) :
    (m.inSlot s).bitStart = s.first := by
  cases hBits : m.bits? with
  | none =>
    have hZero : s.bit = 0 := (hSuits.ordinary (by simp [shape, hBits])).2
    simp [bitStart, inSlot, hBits, Layout.Slot.first, hZero]
  | some b => simp [bitStart, inSlot, hBits, Layout.Slot.first]

theorem bitCount_inSlot (rs : Records) (m : Member) (s : Layout.Slot) :
    (m.inSlot s).bitCount rs = (m.shape rs).bitCount := by
  unfold bitCount Layout.Shape.bitCount
  rw [(placed_inSlot m s).width?]
  rfl

theorem isBreak_inSlot (rs : Records) (m : Member) (s : Layout.Slot) :
    ¬ (m.inSlot s).IsBreak ↔ (m.shape rs).Solid := by
  unfold IsBreak Layout.Shape.Solid
  rw [(placed_inSlot m s).width?]
  rfl

theorem placed_zipWith {ms : List Member} {ss : List Layout.Slot}
    (hLength : ss.length = ms.length) : List.Forall₂ Placed ms (ms.zipWith inSlot ss) := by
  induction ms generalizing ss with
  | nil => exact .nil
  | cons m ms ih =>
    cases ss with
    | nil => cases hLength
    | cons s ss => exact .cons (placed_inSlot m s) (ih (Nat.succ.inj hLength))

end Member

/-
  A structure as it is declared.  Its own alignment and those
  of its members are powers of two, and its bits are counted
  in words.
-/
structure Record.Declared (rs : Records) (r : Record) : Prop where
  struct : r.isUnion = false
  unpacked : r.packed = false
  power : ∃ k : Nat, r.align = 2 ^ k
  proper : ∀ m ∈ r.members, m.Proper rs
  fits : Layout.bitSize r.align
    (r.members.map (Member.shape rs)) < wordEnd

/- What the layout of a structure gives, slot by slot. -/
theorem Record.Declared.arranged (hDeclared : r.Declared rs) :
    ∃ ss size, r.laidOut rs = { r with
        members := r.members.zipWith Member.inSlot ss
        size := size
        align := Layout.alignOf r.align
          (r.members.map (Member.shape rs)) } ∧ ss.length = r.members.length ∧
      0 ≤ size ∧ Layout.alignOf r.align (r.members.map (Member.shape rs)) ∣
        size ∧ Layout.Arranged 0 (8 * size)
        ((r.members.map (Member.shape rs)).zip ss) ∧
      ∀ p ∈ (r.members.map (Member.shape rs)).zip ss, ∀ w ∈ p.1.width?, 0 < w →
          0 ≤ p.2.offset ∧ p.2.offset + p.1.size ≤ size := by
  have hShapes : ∀ m ∈ r.members.map (Member.shape rs), m.Proper := by
    intro s hs
    obtain ⟨m, hm, rfl⟩ := List.mem_map.mp hs
    exact (hDeclared.proper m hm).shape
  obtain ⟨ss, size, hEq, hLength, hRest⟩ :=
    Layout.struct_arranged hDeclared.power hShapes hDeclared.fits
  rw [List.length_map] at hLength
  refine ⟨ss, size, ?_, hLength, hRest⟩
  simp [laidOut, hDeclared.struct, hDeclared.unpacked, hEq]

/- The members of a structure keep what is declared of them. -/
theorem Record.Declared.placed (hDeclared : r.Declared rs) :
    List.Forall₂ Member.Placed r.members (r.laidOut rs).members := by
  obtain ⟨ss, size, hEq, hLength, -⟩ := hDeclared.arranged
  rw [hEq]
  exact Member.placed_zipWith hLength

theorem Record.Declared.sound (hDeclared : r.Declared rs) : (r.laidOut rs).Sound rs := by
  obtain ⟨ss, size, hEq, hLength, hSize, hWhole, hArranged, hUnits⟩ := hDeclared.arranged
  have hZip : r.members.zipWith Member.inSlot ss =
      (r.members.zip ss).map fun p => p.1.inSlot p.2 := by
    rw [List.map_zip_eq_zipWith]
    rfl
  rw [List.zip_map_left] at hArranged hUnits
  have hSuits : ∀ p ∈ r.members.zip ss, Layout.Suits (p.1.shape rs) p.2 := fun p hp =>
    hArranged.suits _ (List.mem_map_of_mem hp)
  rw [hEq, hZip]
  refine ⟨hSize, ?_, ?_, ?_, ?_, ?_, ?_, hWhole⟩
  · refine List.forall_mem_map.mpr fun p hp hBits => ?_
    have hNone : p.1.bits? = none := by simpa [Member.inSlot] using hBits
    exact ((hSuits p hp).ordinary (by simp [Member.shape, hNone])).1
  · refine List.forall_mem_map.mpr fun p hp b hb hPos => ?_
    obtain ⟨c, hc, rfl⟩ := Option.map_eq_some_iff.mp hb
    have hWidth : c.width ∈ (p.1.shape rs).width? := by simp [Member.shape, hc]
    obtain ⟨hUnit, hLow, hHigh⟩ := (hSuits p hp).field c.width hWidth hPos
    obtain ⟨hFirst, hLast⟩ := hUnits _ (List.mem_map_of_mem hp) c.width hWidth hPos
    exact ⟨hUnit, hLow, hHigh, hFirst, hLast⟩
  · refine List.pairwise_map.mpr ((List.pairwise_map.mp hArranged.ordered).imp_of_mem ?_)
    intro p q hp hq hOrdered hSolid hNext
    rw [Member.bitStart_inSlot (hSuits p hp), Member.bitCount_inSlot,
      Member.bitStart_inSlot (hSuits q hq)]
    exact hOrdered ((Member.isBreak_inSlot rs p.1 p.2).mp hSolid)
      ((Member.isBreak_inSlot rs q.1 q.2).mp hNext)
  · refine List.forall_mem_map.mpr fun p hp hSolid => ?_
    rw [Member.bitStart_inSlot (hSuits p hp), Member.bitCount_inSlot]
    exact hArranged.inside _ (List.mem_map_of_mem hp) ((Member.isBreak_inSlot rs p.1 p.2).mp hSolid)
  · refine List.forall_mem_map.mpr fun p hp hBreak => ?_
    have hSlot : p.2 = ⟨0, 0⟩ := by
      refine (hSuits p hp).skip ?_
      exact not_not.mp (mt (Member.isBreak_inSlot rs p.1 p.2).mpr (not_not.mpr hBreak))
    rw [hSlot]
    refine ⟨rfl, fun b hb => ?_⟩
    obtain ⟨c, -, rfl⟩ := Option.map_eq_some_iff.mp hb
    rfl
  · refine List.forall_mem_map.mpr fun p hp => ?_
    exact (Layout.le_alignOf r.align _).2 (p.1.shape rs)
      (List.mem_map_of_mem (List.of_mem_zip hp).1)

/-
  A declared structure is laid out soundly, whatever the order
  of its bit-fields and ordinary members.
-/
theorem Record.laidOut_sound (hDeclared : r.Declared rs) :
    (r.laidOut rs).Sound rs ∧ List.Forall₂ Member.Placed r.members
        (r.laidOut rs).members := ⟨hDeclared.sound, hDeclared.placed⟩

/- A member of no name, as it is before the layout. -/
def Member.unplaced
    (type : CType)
    (align : Int)
    (width? : Option Int := none) : Member :=
  { type := type, name? := none, index := 0, align := align,
    bits? := width?.map (⟨0, ·⟩) }

/- A structure that is not packed, as it is before the layout. -/
def Record.unplaced
    (align : Int)
    (members : List Member) : Record :=
  { isUnion := false, size := 0, align := align,
    members := members, root := 0 }

/- struct { char a; int b : 5; int : 0; long c : 40; short d; } -/
def mixedStruct : Record :=
  .unplaced 1
    [.unplaced .char 1, .unplaced .int 4 (some 5),
      .unplaced .int 4 (some 0), .unplaced .long 8 (some 40),
      .unplaced .short 2]

theorem Record.laidOut_sound_mixed :
    (mixedStruct.laidOut #[]).Sound #[] ∧ (mixedStruct.laidOut #[]).members.map Member.bitStart =
        [0, 8, 0, 64, 112] ∧
      (mixedStruct.laidOut #[]).size = 16 := by
  refine ⟨(Record.laidOut_sound ⟨rfl, rfl, ⟨0, rfl⟩, ?_,
    by decide +kernel⟩).1, by decide +kernel, by decide +kernel⟩
  simp only [mixedStruct, Record.unplaced, List.forall_mem_cons]
  refine ⟨⟨⟨0, rfl⟩, ?_, ?_, ?_⟩, ⟨⟨2, rfl⟩, ?_, ?_, ?_⟩,
    ⟨⟨2, rfl⟩, ?_, ?_, ?_⟩, ⟨⟨3, rfl⟩, ?_, ?_, ?_⟩,
    ⟨⟨1, rfl⟩, ?_, ?_, ?_⟩, by simp⟩ <;> decide

/- struct { char a[1 << 60]; char b; } -/
def wideStruct : Record :=
  .unplaced 1
    [.unplaced (.arrayOf #[] 0 .char 0x1000000000000000) 1, .unplaced .char 1]

/- struct __attribute__((aligned(12))) { long a : 64; long b : 3; } -/
def oddStruct : Record :=
  .unplaced 12
    [.unplaced .long 8 (some 64), .unplaced .long 8 (some 3)]

/- struct { int a; int b[]; int c; } -/
def openStruct : Record :=
  .unplaced 1
    [.unplaced .int 4, .unplaced (.arrayOf #[] 0 .int (-1)) 4, .unplaced .int 4]

/-
  The counter of bits wraps around behind 2^60 bytes, a
  structure with an alignment of 12 ends in the middle of a
  unit, and an array of unknown length moves the next member
  back.
-/
theorem Record.laidOut_unsound :
    (∀ m ∈ wideStruct.members, m.Proper #[]) ∧ ¬ (wideStruct.laidOut #[]).Sound #[] ∧
    (∀ m ∈ oddStruct.members, m.Proper #[]) ∧ ¬ (oddStruct.laidOut #[]).Sound #[] ∧
    (∀ m ∈ openStruct.members, (∃ k : Nat, m.align = 2 ^ k) ∧
      m.type.align #[] ≤ m.align ∧ m.bits? = none) ∧
      ¬ (openStruct.laidOut #[]).Sound #[] := by
  refine ⟨?_, fun hSound => ?_, ?_, fun hSound => ?_, ?_, fun hSound => ?_⟩
  · simp only [wideStruct, Record.unplaced, List.forall_mem_cons]
    refine ⟨⟨⟨0, rfl⟩, ?_, ?_, ?_⟩, ⟨⟨0, rfl⟩, ?_, ?_, ?_⟩, by simp⟩ <;> decide
  · have hLast : (wideStruct.laidOut #[]).members[1]? = some { Member.unplaced .char 1 with
          offset := -1152921504606846975 } := rfl
    have hBelow := hSound.inside _ (List.mem_of_getElem? hLast) (by decide)
    exact absurd hBelow.1 (by decide)
  · simp only [oddStruct, Record.unplaced, List.forall_mem_cons]
    refine ⟨⟨⟨3, rfl⟩, ?_, ?_, ?_⟩, ⟨⟨3, rfl⟩, ?_, ?_, ?_⟩, by simp⟩ <;> decide
  · have hLast : (oddStruct.laidOut #[]).members[1]? = some { Member.unplaced .long 8 (some 3) with
          offset := 8 } := rfl
    obtain ⟨-, -, -, -, hUnit⟩ := hSound.units _ (List.mem_of_getElem? hLast) ⟨0, 3⟩ rfl (by decide)
    exact absurd hUnit (by decide)
  · simp only [openStruct, Record.unplaced, List.forall_mem_cons]
    refine ⟨⟨⟨2, rfl⟩, ?_, ?_⟩, ⟨⟨2, rfl⟩, ?_, ?_⟩, ⟨⟨2, rfl⟩, ?_, ?_⟩, by simp⟩ <;> decide
  · have hOrdered := List.pairwise_iff_getElem.mp hSound.ordered
      0 2 (by decide) (by decide) (by decide)
    exact absurd (hOrdered (by decide) (by decide)) (by decide)

end CCompiler
