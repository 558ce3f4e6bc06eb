import Mathlib
import CCompiler.Proofs.Syntax.StructLayout

/-
  The layout of packed structures.

  An ordinary member is not rounded to its alignment, and not
  to a byte either: it starts with the byte that the bits
  before it end in.  So it lies over a bit-field in front of
  it that ends inside of a byte.  Members are apart just if
  every ordinary member that has bytes comes behind a whole
  number of bytes.

  Main declarations:
    * `Layout.Shape.Sized`, `Layout.packedAfter`
    * `Layout.Whole`, `Layout.Apart`
    * `Layout.packed_apart`, `Layout.packed_whole`
    * `Record.DeclaredPacked`, `Record.Apart`
    * `Record.packed_members_apart`
-/

------------
-- Counting Without Bound
------------

namespace CCompiler

namespace Layout

/-
  A member of a complete type; a bit-field is of an integer
  type and no wider than that.
-/
structure Shape.Sized (m : Shape) : Prop where
  complete : 0 ≤ m.size
  field : ∀ w ∈ m.width?, 0 ≤ w ∧ w ≤ 8 * m.size ∧ ∃ k ≤ 3, m.size = 2 ^ k

/- The first bit of one more member. -/
def packedStart (bits : Int) (m : Shape) : Int :=
  match m.width? with
  | some 0 => 0
  | some w => fieldStart bits m.size w
  | none => 8 * (bits / 8)

/- The bits used after one more member. -/
def packedPast (bits : Int) (m : Shape) : Int :=
  match m.width? with
  | some 0 => roundUp bits (8 * m.size)
  | some w => fieldStart bits m.size w + w
  | none => bits + 8 * m.size

/- The bits used after some members. -/
def packedAfter (bits : Int) (ms : List Shape) : Int :=
  ms.foldl packedPast bits

/-
  Every ordinary member that has bytes comes behind a whole
  number of bytes.
-/
def Whole : Int → List Shape → Prop
| _, [] => True
| bits, m :: ms =>
  (m.width? = none → 0 < m.size → 8 ∣ bits) ∧ Whole (packedPast bits m) ms

/- Whether members come behind whole bytes can be computed. -/
def Whole.decide : (bits : Int) → (ms : List Shape) → Decidable (Whole bits ms)
| _, [] => isTrue trivial
| bits, m :: ms =>
  have := Whole.decide (packedPast bits m) ms
  inferInstanceAs (Decidable (_ ∧ _))

instance  (bits : Int) (ms : List Shape) : Decidable (Whole bits ms) := Whole.decide bits ms

/- A bit that belongs to a member in its slot. -/
def Covers (p : Shape × Slot) (bit : Int) : Prop :=
  p.2.first ≤ bit ∧ bit < p.2.first + p.1.bitCount

/- No bit belongs to two of the members. -/
def Apart (ps : List (Shape × Slot)) : Prop :=
  ps.Pairwise fun p q => ∀ bit, ¬ (Covers p bit ∧ Covers q bit)

------------
-- One Member
------------

variable {bits align : Int} {m : Shape} {ms : List Shape}
  {p q : Shape × Slot} {ps : List (Shape × Slot)}

/- The three kinds of members. -/
theorem Shape.width?_cases (m : Shape) :
    m.width? = none ∨ m.width? = some 0 ∨ ∃ w, w ≠ 0 ∧ m.width? = some w := by
  cases hWidth : m.width? with
  | none => exact .inl rfl
  | some w =>
    by_cases hZero : w = 0
    · exact .inr (.inl (by rw [hZero]))
    · exact .inr (.inr ⟨w, hZero, rfl⟩)

/- What is known of a bit-field of positive width. -/
structure Field (m : Shape) (w : Int) : Prop where
  width? : m.width? = some w
  pos : 0 < w
  most : w ≤ 8 * m.size
  unit : ∃ k ≤ 3, m.size = 2 ^ k

variable {w : Int}

theorem Shape.Sized.toField (hSized : m.Sized) (hWidth : m.width? = some w) (hZero : w ≠ 0) :
    Field m w := by
  obtain ⟨hNonneg, hMost, hUnit⟩ := hSized.field w hWidth
  exact ⟨hWidth, by omega, hMost, hUnit⟩

theorem Field.size_pos (hField : Field m w) : 0 < m.size := by
  obtain ⟨k, -, hk⟩ := hField.unit
  rw [hk]
  positivity

/- The case of a bit-field of positive width is taken for it. -/
theorem Field.match_eq {α : Type} (hField : Field m w) (zero : α) (field : Int → α) (ordinary : α) :
    (match m.width? with
      | some 0 => zero
      | some v => field v
      | none => ordinary) = field w := by
  have hPos := hField.pos
  rw [hField.width?]
  split
  · rename_i hEq
    cases hEq
    exact absurd hPos (lt_irrefl _)
  · rename_i hEq
    cases hEq
    rfl
  · rename_i hEq
    cases hEq

theorem Field.packedStart_eq (hField : Field m w) (bits : Int) :
    packedStart bits m = fieldStart bits m.size w := hField.match_eq _ (fieldStart bits m.size) _

theorem Field.packedPast_eq (hField : Field m w) (bits : Int) :
    packedPast bits m = fieldStart bits m.size w + w :=
  hField.match_eq _ (fun v => fieldStart bits m.size v + v) _

theorem Field.bitCount_eq (hField : Field m w) : m.bitCount = w := by
  rw [Shape.bitCount, hField.width?]
  rfl

/- Members move the counter forward. -/
theorem le_packedPast (bits : Int) (hSized : m.Sized) : bits ≤ packedPast bits m := by
  have hComplete := hSized.complete
  rcases m.width?_cases with hNone | hZero | ⟨w, hw, hWidth⟩
  · simp only [packedPast, hNone]
    omega
  · obtain ⟨-, -, k, -, hk⟩ := hSized.field 0 hZero
    have hPos : 0 < 8 * m.size := by
      rw [hk]
      positivity
    simp only [packedPast, hZero]
    exact le_roundUp hPos
  · have hField := hSized.toField hWidth hw
    obtain ⟨hStart, -⟩ := fieldStart_spec bits hField.size_pos hField.most
    have hPos := hField.pos
    rw [hField.packedPast_eq]
    omega

theorem le_packedAfter (bits : Int) (hSized : ∀ m ∈ ms, m.Sized) : bits ≤ packedAfter bits ms := by
  induction ms generalizing bits with
  | nil => exact le_rfl
  | cons m ms ih =>
    exact (le_packedPast bits (hSized m (by simp))).trans
      (ih _ fun n hn => hSized n (List.mem_cons_of_mem _ hn))

/- What placing one member of a packed structure gives. -/
structure PlacesPacked
    (bits : Int)
    (m : Shape)
    (s : Slot) : Prop where
  eq : place true bits m = (s, packedPast bits m)
  first : s.first = packedStart bits m
  bit : m.width? = none → s.bit = 0

/- A member is placed as long as bits are words. -/
theorem exists_placesPacked (hLow : 0 ≤ bits) (hSized : m.Sized)
    (hFits : packedPast bits m < wordEnd) : ∃ s, PlacesPacked bits m s := by
  rcases m.width?_cases with hNone | hZero | ⟨w, hw, hWidth⟩
  · have hComplete := hSized.complete
    have hPast : packedPast bits m = bits + 8 * m.size := by simp only [packedPast, hNone]
    rw [hPast] at hFits
    have hWord : wrap64 (bits + m.size * 8) = bits + 8 * m.size := by
      rw [wrap64_of_fits (by simp only [wordEnd]; omega) (by omega)]
      omega
    refine ⟨⟨bits / 8, 0⟩, ?_, ?_, fun _ => rfl⟩
    · simp only [place, hNone, hPast, if_true, hWord]
      rw [Int.tdiv_eq_ediv_of_nonneg hLow]
    · simp only [packedStart, hNone, Slot.first, add_zero]
  · obtain ⟨-, -, hUnit⟩ := hSized.field 0 hZero
    have hPos : 0 < m.size := by
      obtain ⟨k, -, hk⟩ := hUnit
      rw [hk]
      positivity
    have hPast : packedPast bits m = roundUp bits (8 * m.size) := by simp only [packedPast, hZero]
    rw [hPast] at hFits
    refine ⟨⟨0, 0⟩, ?_, ?_, fun _ => rfl⟩
    · simp only [place, hZero, hPast]
      rw [Int.mul_comm, alignUp_eq_roundUp hLow (by omega) (unit_dvd_wordEnd hUnit) hFits]
    · simp only [packedStart, hZero, Slot.first, mul_zero, add_zero]
  · have hField := hSized.toField hWidth hw
    rw [hField.packedPast_eq] at hFits
    have hPlace := placeBits_eq hLow hField.unit hField.pos hField.most hFits
    refine ⟨⟨fieldStart bits m.size w / (8 * m.size) * m.size,
      fieldStart bits m.size w % (8 * m.size)⟩, ?_, ?_, fun hNone => ?_⟩
    · rw [hField.packedPast_eq, ← hPlace]
      exact hField.match_eq _ (placeBits bits m.size) _
    · rw [hField.packedStart_eq]
      have hSplit := Int.mul_ediv_add_emod (fieldStart bits m.size w) (8 * m.size)
      calc _ = 8 * m.size * (fieldStart bits m.size w / (8 * m.size)) +
            fieldStart bits m.size w % (8 * m.size) := by
            unfold Slot.first
            ring
        _ = _ := hSplit
    · rw [hWidth] at hNone
      cases hNone

------------
-- Members in Order
------------

/- Members that start where the counter says. -/
def Row : Int → List (Shape × Slot) → Prop
| _, [] => True
| bits, p :: ps =>
  p.2.first = packedStart bits p.1 ∧ Row (packedPast bits p.1) ps

/- The members of a packed structure start where the counter says. -/
theorem exists_packedSlots (align : Int) (hLow : 0 ≤ bits) (hSized : ∀ m ∈ ms, m.Sized)
    (hFits : packedAfter bits ms < wordEnd) :
    ∃ ss, slots true ⟨bits, align⟩ ms = (ss, ⟨packedAfter bits ms, align⟩) ∧ ss.length = ms.length ∧
      (∀ p ∈ ms.zip ss, p.1.width? = none → p.2.bit = 0) ∧
      Row bits (ms.zip ss) := by
  induction ms generalizing bits with
  | nil => exact ⟨[], rfl, rfl, by simp, trivial⟩
  | cons m ms ih =>
    have hOwn := hSized m (by simp)
    have hOthers : ∀ n ∈ ms, n.Sized := fun n hn => hSized n (List.mem_cons_of_mem _ hn)
    have hMore := le_packedPast bits hOwn
    have hAll : packedPast bits m ≤ packedAfter bits (m :: ms) := le_packedAfter _ hOthers
    obtain ⟨s, hPlaces⟩ := exists_placesPacked hLow hOwn (by omega)
    obtain ⟨ss, hSlots, hLength, hBits, hRow⟩ := ih (by omega) hOthers hFits
    refine ⟨s :: ss, ?_, by simp [hLength], List.forall_mem_cons.mpr ⟨hPlaces.bit, hBits⟩,
      hPlaces.first, hRow⟩
    simp only [slots, step, hPlaces.eq, if_true, hSlots]
    rfl

/-
  A member ends at or before the counter behind it.  It starts
  at or behind the one in front of it unless it is an ordinary
  one inside of a byte.
-/
theorem packedStart_bounds (hLow : 0 ≤ bits) (hSized : m.Sized) :
    0 ≤ packedStart bits m ∧ packedStart bits m + m.bitCount ≤ packedPast bits m ∧
      ((m.width? = none → 0 < m.size → 8 ∣ bits) → 0 < m.bitCount → bits ≤ packedStart bits m) := by
  have hComplete := hSized.complete
  rcases m.width?_cases with hNone | hZero | ⟨w, hw, hWidth⟩
  · simp only [packedStart, packedPast, Shape.bitCount, hNone, Option.getD_none, true_implies]
    exact ⟨by omega, by omega, fun hWhole hSome => by
      have hBits := hWhole (by omega)
      omega⟩
  · obtain ⟨-, -, k, -, hk⟩ := hSized.field 0 hZero
    have hPos : 0 < 8 * m.size := by
      rw [hk]
      positivity
    have hUp := le_roundUp (n := bits) hPos
    simp only [packedStart, packedPast, Shape.bitCount, hZero, Option.getD_some]
    exact ⟨le_rfl, by omega, fun _ hSome => absurd hSome (by decide)⟩
  · have hField := hSized.toField hWidth hw
    obtain ⟨hStart, -⟩ := fieldStart_spec bits hField.size_pos hField.most
    rw [hField.packedStart_eq, hField.packedPast_eq, hField.bitCount_eq]
    exact ⟨by omega, le_rfl, fun _ _ => hStart⟩

/- A member of which a bit is covered has bits. -/
theorem Covers.bitCount_pos {bit : Int} (hCovers : Covers p bit) : 0 < p.1.bitCount := by
  unfold Covers at hCovers
  omega

/- Members lie between the start and the last place of the counter. -/
theorem Row.inside (hRow : Row bits ps) (hLow : 0 ≤ bits)
    (hSized : ∀ m ∈ ps.map Prod.fst, m.Sized) :
    ∀ p ∈ ps, 0 ≤ p.2.first ∧ p.2.first + p.1.bitCount ≤ packedAfter bits (ps.map Prod.fst) := by
  induction ps generalizing bits with
  | nil => simp
  | cons p ps ih =>
    have hOwn := hSized p.1 (by simp)
    have hOthers : ∀ m ∈ ps.map Prod.fst, m.Sized :=
      fun m hm => hSized m (List.mem_cons_of_mem _ hm)
    have hMore := le_packedPast bits hOwn
    have hAll : packedPast bits p.1 ≤ packedAfter bits ((p :: ps).map Prod.fst) :=
      le_packedAfter _ hOthers
    obtain ⟨hFirst, hLast, -⟩ := packedStart_bounds hLow hOwn
    refine List.forall_mem_cons.mpr ⟨?_, ih hRow.2 (by omega) hOthers⟩
    rw [hRow.1]
    exact ⟨hFirst, hLast.trans hAll⟩

/- Behind whole bytes no member reaches back. -/
theorem Row.behind (hRow : Row bits ps) (hLow : 0 ≤ bits)
    (hSized : ∀ m ∈ ps.map Prod.fst, m.Sized) (hWhole : Whole bits (ps.map Prod.fst)) :
    ∀ p ∈ ps, ∀ bit, Covers p bit → bits ≤ bit := by
  induction ps generalizing bits with
  | nil => simp
  | cons p ps ih =>
    have hOwn := hSized p.1 (by simp)
    have hMore := le_packedPast bits hOwn
    refine List.forall_mem_cons.mpr ⟨fun bit hCovers => ?_, fun q hq bit hCovers => hMore.trans
        (ih hRow.2 (by omega) (fun m hm => hSized m (List.mem_cons_of_mem _ hm))
          hWhole.2 q hq bit hCovers)⟩
    have hStart := (packedStart_bounds hLow hOwn).2.2 hWhole.1 hCovers.bitCount_pos
    rw [← hRow.1] at hStart
    exact hStart.trans hCovers.1

/- Behind whole bytes members are apart. -/
theorem Row.apart (hRow : Row bits ps) (hLow : 0 ≤ bits) (hSized : ∀ m ∈ ps.map Prod.fst, m.Sized)
    (hWhole : Whole bits (ps.map Prod.fst)) : Apart ps := by
  induction ps generalizing bits with
  | nil => exact List.Pairwise.nil
  | cons p ps ih =>
    have hOwn := hSized p.1 (by simp)
    have hOthers : ∀ m ∈ ps.map Prod.fst, m.Sized :=
      fun m hm => hSized m (List.mem_cons_of_mem _ hm)
    have hMore := le_packedPast bits hOwn
    refine List.pairwise_cons.mpr ⟨fun q hq bit hBoth => ?_, ih hRow.2 (by omega) hOthers hWhole.2⟩
    have hBehind := hRow.2.behind (by omega) hOthers hWhole.2 q hq bit hBoth.2
    have hLast := (packedStart_bounds hLow hOwn).2.1
    have hEnd := hBoth.1.2
    rw [hRow.1] at hEnd
    omega

/-
  The counter stands behind whole bytes, or behind a bit of a
  member that is apart from all that follow.
-/
def Filled (bits : Int) (ps : List (Shape × Slot)) : Prop :=
  8 ∣ bits ∨ ∃ q, Covers q (bits - 1) ∧
    ∀ p ∈ ps, ∀ bit, ¬ (Covers q bit ∧ Covers p bit)

/-
  A member with bytes that starts inside of a byte covers the
  bit before the counter.
-/
theorem Filled.whole (hFilled : Filled bits (p :: ps)) (hStart : p.2.first = packedStart bits p.1)
    (hNone : p.1.width? = none) (hSome : 0 < p.1.size) : 8 ∣ bits := by
  rcases hFilled with hBytes | ⟨q, hLast, hOther⟩
  · exact hBytes
  · by_contra hInside
    refine hOther p (by simp) (bits - 1) ⟨hLast, ?_⟩
    simp only [packedStart, hNone] at hStart
    simp only [Covers, Shape.bitCount, hNone, hStart, Option.getD_none]
    omega

/- What stands before the next member. -/
theorem Filled.next (hFilled : Filled bits (p :: ps)) (hStart : p.2.first = packedStart bits p.1)
    (hSized : p.1.Sized) (hApart : Apart (p :: ps)) : Filled (packedPast bits p.1) ps := by
  have hComplete := hSized.complete
  rcases p.1.width?_cases with hNone | hZero | ⟨w, hw, hWidth⟩
  · have hPast : packedPast bits p.1 = bits + 8 * p.1.size := by simp only [packedPast, hNone]
    rw [hPast]
    by_cases hSome : 0 < p.1.size
    · have hBytes := hFilled.whole hStart hNone hSome
      exact .inl (by omega)
    · have hEmpty : p.1.size = 0 := by omega
      rw [hEmpty, mul_zero, add_zero]
      exact hFilled.imp_right fun ⟨q, hLast, hOther⟩ =>
        ⟨q, hLast, fun r hr => hOther r (List.mem_cons_of_mem _ hr)⟩
  · left
    simp only [packedPast, hZero]
    exact (Int.dvd_mul_right 8 p.1.size).trans (dvd_roundUp _ _)
  · have hField := hSized.toField hWidth hw
    have hPos := hField.pos
    refine .inr ⟨p, ?_, (List.pairwise_cons.mp hApart).1⟩
    rw [hField.packedStart_eq] at hStart
    rw [hField.packedPast_eq]
    simp only [Covers, hField.bitCount_eq, hStart]
    omega

/- Members that are apart come behind whole bytes. -/
theorem Row.whole (hRow : Row bits ps) (hSized : ∀ m ∈ ps.map Prod.fst, m.Sized)
    (hFilled : Filled bits ps) (hApart : Apart ps) : Whole bits (ps.map Prod.fst) := by
  induction ps generalizing bits with
  | nil => trivial
  | cons p ps ih =>
    have hOwn := hSized p.1 (by simp)
    exact ⟨hFilled.whole hRow.1, ih hRow.2 (fun m hm => hSized m (List.mem_cons_of_mem _ hm))
        (hFilled.next hRow.1 hOwn hApart) (List.pairwise_cons.mp hApart).2⟩

/-
  The slots, size and alignment of a packed structure whose
  bits are words.
-/
theorem packed_struct (hAlign : 0 < align) (hSized : ∀ m ∈ ms, m.Sized)
    (hFits : packedAfter 0 ms + 8 * align < wordEnd) :
    ∃ ss size, struct true align ms = (ss, size, align) ∧ ss.length = ms.length ∧
      (∀ p ∈ ms.zip ss, p.1.width? = none → p.2.bit = 0) ∧
      (∀ p ∈ ms.zip ss, 0 ≤ p.2.first ∧ p.2.first + p.1.bitCount ≤ 8 * size) ∧
      (Apart (ms.zip ss) ↔ Whole 0 ms) := by
  have hLow := le_packedAfter 0 hSized
  obtain ⟨ss, hSlots, hLength, hBits, hRow⟩ := exists_packedSlots align le_rfl hSized (by omega)
  have hShapes : (ms.zip ss).map Prod.fst = ms := List.map_fst_zip hLength.ge
  have hUnit : wrap64 (align * 8) = 8 * align := by
    rw [wrap64_of_fits (by simp only [wordEnd]; omega) (by omega)]
    omega
  have hSum : wrap64 (packedAfter 0 ms + 8 * align - 1) = packedAfter 0 ms + 8 * align - 1 :=
    wrap64_of_fits (by simp only [wordEnd]; omega) (by omega)
  have hUp : alignUp (packedAfter 0 ms) (wrap64 (align * 8)) =
      roundUp (packedAfter 0 ms) (8 * align) := by
    unfold alignUp roundUp
    rw [hUnit, if_neg (by omega), hSum, Int.tdiv_eq_ediv_of_nonneg (by omega)]
  have hRound : packedAfter 0 ms ≤ roundUp (packedAfter 0 ms) (8 * align) := le_roundUp (by omega)
  obtain ⟨q, hq⟩ : 8 ∣ roundUp (packedAfter 0 ms) (8 * align) :=
    (Int.dvd_mul_right 8 align).trans (dvd_roundUp _ _)
  have hSized' : ∀ m ∈ (ms.zip ss).map Prod.fst, m.Sized := by rwa [hShapes]
  refine ⟨ss, q, ?_, hLength, hBits, fun p hp => ?_, fun hApart => ?_, fun hWhole => ?_⟩
  · simp only [struct, hSlots, hUp, hq]
    rw [Int.mul_tdiv_cancel_left _ (by decide)]
  · obtain ⟨hFirst, hLast⟩ := hRow.inside le_rfl hSized' p hp
    rw [hShapes] at hLast
    exact ⟨hFirst, by omega⟩
  · rw [← hShapes]
    exact hRow.whole hSized' (.inl (dvd_zero 8)) hApart
  · refine hRow.apart le_rfl hSized' ?_
    rwa [hShapes]

end Layout

------------
-- Packed Structures
------------

/- A bit that belongs to a member. -/
def Member.Covers (rs : Records) (m : Member) (bit : Int) : Prop :=
  m.bitStart ≤ bit ∧ bit < m.bitStart + m.bitCount rs

/- No bit belongs to two members. -/
def Record.Apart (rs : Records) (r : Record) : Prop :=
  r.members.Pairwise fun m n =>
    ∀ bit, ¬ (m.Covers rs bit ∧ n.Covers rs bit)

/-
  A member of a complete type; a bit-field is of an integer
  type and no wider than that.
-/
structure Member.Sized (rs : Records) (m : Member) : Prop where
  complete : 0 ≤ m.type.size rs
  field : ∀ b ∈ m.bits?, m.type.isInteger ∧ 0 ≤ b.width ∧
    b.width ≤ 8 * m.type.size rs

/-
  A packed structure as it is declared.  Its bits with the
  padding at its end are counted in words.
-/
structure Record.DeclaredPacked
    (rs : Records)
    (r : Record) : Prop where
  struct : r.isUnion = false
  packed : r.packed = true
  align : 0 < r.align
  sized : ∀ m ∈ r.members, m.Sized rs
  fits : Layout.packedAfter 0 (r.members.map (Member.shape rs)) +
    8 * r.align < wordEnd

variable {rs : Records} {r : Record} {m : Member}

theorem Member.Sized.shape (hSized : m.Sized rs) : (m.shape rs).Sized := by
  refine ⟨hSized.complete, fun w hw => ?_⟩
  obtain ⟨b, hb, rfl⟩ := Option.map_eq_some_iff.mp hw
  obtain ⟨hInt, hLow, hMost⟩ := hSized.field b hb
  exact ⟨hLow, hMost, (CType.size_of_isInteger rs hInt).2⟩

/- A member starts with its slot. -/
theorem Member.bitStart_slot {s : Layout.Slot} (hBit : (m.shape rs).width? = none → s.bit = 0) :
    (m.inSlot s).bitStart = s.first := by
  cases hBits : m.bits? with
  | none =>
    have hZero := hBit (by simp [shape, hBits])
    simp [bitStart, inSlot, hBits, Layout.Slot.first, hZero]
  | some b => simp [bitStart, inSlot, hBits, Layout.Slot.first]

/-
  The members of a packed structure lie inside of it.  They are
  apart just if every ordinary member that has bytes comes
  behind a whole number of bytes.  Names, types, alignments and
  widths are kept.
-/
theorem Record.packed_members_apart (hDeclared : r.DeclaredPacked rs) :
    (∀ m ∈ (r.laidOut rs).members, 0 ≤ m.bitStart ∧
      m.bitStart + m.bitCount rs ≤ 8 * (r.laidOut rs).size) ∧
    ((r.laidOut rs).Apart rs ↔ Layout.Whole 0 (r.members.map (Member.shape rs))) ∧
    List.Forall₂ Member.Placed r.members (r.laidOut rs).members := by
  have hShapes : ∀ s ∈ r.members.map (Member.shape rs), s.Sized :=
    List.forall_mem_map.mpr fun m hm => (hDeclared.sized m hm).shape
  obtain ⟨ss, size, hEq, hLength, hBits, hInside, hApart⟩ :=
    Layout.packed_struct hDeclared.align hShapes hDeclared.fits
  rw [List.length_map] at hLength
  have hOut : r.laidOut rs = { r with
      members := r.members.zipWith Member.inSlot ss
      size := size } := by
    simp [laidOut, hDeclared.struct, hDeclared.packed, hEq]
  have hZip : r.members.zipWith Member.inSlot ss =
      (r.members.zip ss).map fun p => p.1.inSlot p.2 := by
    rw [List.map_zip_eq_zipWith]
    rfl
  rw [List.zip_map_left] at hBits hInside hApart
  rw [List.forall_mem_map] at hBits hInside
  have hStart : ∀ p ∈ r.members.zip ss, (p.1.inSlot p.2).bitStart = p.2.first := fun p hp =>
    Member.bitStart_slot (hBits p hp)
  have hCovers : ∀ p ∈ r.members.zip ss, ∀ bit, (p.1.inSlot p.2).Covers rs bit ↔
        Layout.Covers (p.1.shape rs, p.2) bit := fun p hp bit => by
    unfold Member.Covers Layout.Covers
    rw [hStart p hp, Member.bitCount_inSlot]
  refine ⟨?_, ?_, ?_⟩
  · rw [hOut, hZip]
    refine List.forall_mem_map.mpr fun p hp => ?_
    rw [hStart p hp, Member.bitCount_inSlot]
    exact hInside p hp
  · rw [← hApart, Layout.Apart, List.pairwise_map, Record.Apart, hOut, hZip, List.pairwise_map]
    constructor
    · refine List.Pairwise.imp_of_mem fun {p q} hp hq hOther bit => ?_
      have hNot := hOther bit
      rwa [hCovers p hp, hCovers q hq] at hNot
    · refine List.Pairwise.imp_of_mem fun {p q} hp hq hOther bit => ?_
      rw [hCovers p hp, hCovers q hq]
      exact hOther bit
  · rw [hOut]
    exact Member.placed_zipWith hLength

/- A packed structure, as it is before the layout. -/
def Record.unplacedPacked (members : List Member) : Record :=
  { Record.unplaced 1 members with packed := true }

/- struct { char a; int b : 5, c : 11; short d; long e : 3; int : 0; int f; } -/
def filledStruct : Record :=
  .unplacedPacked
    [.unplaced .char 1, .unplaced .int 4 (some 5),
      .unplaced .int 4 (some 11), .unplaced .short 2,
      .unplaced .long 8 (some 3), .unplaced .int 4 (some 0), .unplaced .int 4]

theorem Record.packed_members_apart_filled :
    (filledStruct.laidOut #[]).Apart #[] ∧ (filledStruct.laidOut #[]).members.map Member.bitStart =
        [0, 8, 13, 24, 40, 0, 64] ∧
      (filledStruct.laidOut #[]).size = 12 := by
  refine ⟨(Record.packed_members_apart ⟨rfl, rfl, by decide, ?_,
    by decide +kernel⟩).2.1.mpr (by decide +kernel),
    by decide +kernel, by decide +kernel⟩
  simp only [filledStruct, Record.unplacedPacked, Record.unplaced, List.forall_mem_cons]
  refine ⟨⟨?_, ?_⟩, ⟨?_, ?_⟩, ⟨?_, ?_⟩, ⟨?_, ?_⟩, ⟨?_, ?_⟩, ⟨?_, ?_⟩, ⟨?_, ?_⟩, by simp⟩ <;> decide

/- struct { int a : 3; char b; } -/
def splitStruct : Record :=
  .unplacedPacked [.unplaced .int 4 (some 3), .unplaced .char 1]

/- The ordinary member lies over all bits of the bit-field. -/
theorem Record.packed_members_overlap :
    (∀ m ∈ splitStruct.members, m.Sized #[]) ∧ (splitStruct.laidOut #[]).members.map
          (fun m => (m.bitStart, m.bitCount #[])) = [(0, 3), (0, 8)] ∧
      ¬ (splitStruct.laidOut #[]).Apart #[] := by
  refine ⟨?_, by decide +kernel, fun hApart => ?_⟩
  · simp only [splitStruct, Record.unplacedPacked, Record.unplaced, List.forall_mem_cons]
    refine ⟨⟨?_, ?_⟩, ⟨?_, ?_⟩, by simp⟩ <;> decide
  · have hOther := List.pairwise_iff_getElem.mp hApart 0 1 (by decide) (by decide) (by decide)
    refine hOther 0 ⟨?_, ?_⟩ <;> exact ⟨by decide, by decide⟩

end CCompiler
