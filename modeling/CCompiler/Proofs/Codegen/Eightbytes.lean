import Mathlib
import CCompiler.Codegen.Eightbyte
import CCompiler.Proofs.Syntax.CompleteTypes

/-
  The scalars of a type and the classes of its eightbytes.

  An eightbyte goes in a vector register if every scalar that
  starts in it is a `float` or a `double`.  As members are
  aligned at least as strictly as their types, such an
  eightbyte of a small record ends with the record after four
  or eight bytes: if the alignment is four or more, the size
  is a multiple of it, and else there is no scalar in it.

  Main declarations:
    * `CType.Holds`, `CType.Floats`
    * `CType.Natural`, `CType.Natural.whole`
    * `Codegen.Eightbyte.isVector_iff`
    * `CType.Natural.ends_below`
    * `Codegen.Eightbyte.size_of_isVector`
-/

variable {a : Int} {k : Nat}

------------
-- Scalars
------------

namespace CCompiler

namespace CType

/-
  A scalar of a type that stands at an offset, and its own
  offset.  A bit-field counts as its unit.
-/
inductive Holds (rs : Records) : CType → Int → CType → Int → Prop
| here {t : CType} {off : Int}
    (hScalar : t.IsScalar) :
    Holds rs t off t off
| element {t base s : CType} {off o n size align : Int}
    {id i : Nat}
    (hPlain : t.plain = .array id base n size align)
    (hIndex : i < n.toNat)
    (hBase : Holds rs base (off + base.size rs * i) s o) :
    Holds rs t off s o
| member {t s : CType} {off o : Int} {id : Nat} {m : Member}
    (hPlain : t.plain = .record id)
    (hMem : m ∈ (rs.entry id).members)
    (hMember : Holds rs m.type (off + m.offset) s o) :
    Holds rs t off s o

/- A type of the values that travel in vector registers. -/
def Floats (t : CType) : Prop :=
  t.plain = .float ∨ t.plain = .double

variable {rs : Records} {t s : CType} {off o lo hi : Int}

/- Scalars by what they are below their qualifiers. -/
theorem IsScalar.plain_cases (hScalar : t.IsScalar) :
    t.plain = .bool ∨ (∃ k u, t.plain = .integer k u) ∨
      (∃ id, t.plain = .enum id) ∨ (∃ k, t.plain = .floating k) ∨ ∃ b, t.plain = .ptr b := by
  unfold IsScalar isInteger isFloating isPointer at hScalar
  generalize t.plain = p at hScalar ⊢
  cases p <;> simp at hScalar ⊢

/- Scalars are aligned to their size. -/
theorem IsScalar.size_eq_align (rs : Records) (hScalar : t.IsScalar) :
    t.size rs = t.align rs ∧ ∃ k ≤ 4, t.align rs = 2 ^ k := by
  unfold size align
  rcases hScalar.plain_cases with
    h | ⟨k, u, h⟩ | ⟨id, h⟩ | ⟨k, h⟩ | ⟨b, h⟩
  · exact ⟨by rw [h], 0, by decide, by rw [h]; rfl⟩
  · refine ⟨by rw [h], ?_⟩
    rw [h]
    cases k with
    | char => exact ⟨0, by decide, rfl⟩
    | short => exact ⟨1, by decide, rfl⟩
    | int => exact ⟨2, by decide, rfl⟩
    | long => exact ⟨3, by decide, rfl⟩
  · exact ⟨by rw [h], 2, by decide, by rw [h]; rfl⟩
  · refine ⟨by rw [h], ?_⟩
    rw [h]
    cases k with
    | float => exact ⟨2, by decide, rfl⟩
    | double => exact ⟨3, by decide, rfl⟩
    | ldouble => exact ⟨4, by decide, rfl⟩
  · exact ⟨by rw [h], 3, by decide, by rw [h]; rfl⟩

/- Values in vector registers are aligned to four bytes at least. -/
theorem Floats.align (rs : Records) (hFloats : t.Floats) : 4 ≤ t.align rs := by
  unfold CType.align
  rcases hFloats with h | h
  · rw [h]
    exact le_rfl
  · rw [h]
    exact (by decide : (4 : Int) ≤ 8)

end CType

------------
-- Natural Types
------------

/-
  A member whose alignment is a power of two, not below that
  of its type, and can be counted in bits.  A bit-field is no
  wider than its integer type.
-/
structure Member.Natural (rs : Records) (m : Member) : Prop where
  power : ∃ k < 60, m.align = 2 ^ k
  natural : m.type.align rs ≤ m.align
  field : ∀ b ∈ m.bits?, m.type.isInteger ∧ 0 ≤ b.width ∧
    b.width ≤ 8 * m.type.size rs
  start : m.offset = 0

/- A record as it is declared, before its members are placed. -/
structure Record.Natural (rs : Records) (r : Record) : Prop where
  unpacked : r.packed = false
  power : ∃ k < 60, r.align = 2 ^ k
  members : ∀ m ∈ r.members, m.Natural rs

/-
  A type that is built of scalars by arrays of some length and
  by records that are laid out as they are declared.
-/
inductive CType.Natural (rs : Records) : CType → Prop
| scalar {t : CType}
    (hScalar : t.IsScalar) :
    Natural rs t
| array {t base : CType} {id : Nat} {n : Int}
    (hPlain : t.plain = .array id base n
      (wrap64 (base.size rs * n)) (base.align rs))
    (hLength : 0 ≤ n)
    (hBase : Natural rs base) :
    Natural rs t
| record {t : CType} {id : Nat} {d : Record}
    (hPlain : t.plain = .record id)
    (hLaid : rs.entry id = d.laidOut rs)
    (hDeclared : d.Natural rs)
    (hMembers : ∀ m ∈ (rs.entry id).members, Natural rs m.type) :
    Natural rs t

variable {rs : Records} {t s : CType} {d : Record} {m : Member}
  {id : Nat} {off o lo hi : Int}

/- A scalar is neither an array nor a record. -/
theorem CType.IsScalar.not_array {base : CType} {n size align : Int} (hScalar : t.IsScalar) :
    t.plain ≠ .array id base n size align := by
  intro hPlain
  unfold IsScalar isInteger isFloating isPointer at hScalar
  simp [hPlain] at hScalar

theorem CType.IsScalar.not_record (hScalar : t.IsScalar) : t.plain ≠ .record id := by
  intro hPlain
  unfold IsScalar isInteger isFloating isPointer at hScalar
  simp [hPlain] at hScalar

/- The types of members are natural. -/
theorem CType.Natural.members (hNatural : t.Natural rs) (hPlain : t.plain = .record id) :
    (∃ d : Record, rs.entry id = d.laidOut rs ∧ d.Natural rs) ∧
      ∀ m ∈ (rs.entry id).members, m.type.Natural rs := by
  cases hNatural with
  | scalar hScalar => exact absurd hPlain hScalar.not_record
  | array hArray =>
    rw [hPlain] at hArray
    cases hArray
  | record hRecord hLaid hDeclared hMembers =>
    rw [hPlain] at hRecord
    cases hRecord
    exact ⟨⟨_, hLaid, hDeclared⟩, hMembers⟩

/- So are those of elements. -/
theorem CType.Natural.base {base : CType} {n size align : Int} (hNatural : t.Natural rs)
    (hPlain : t.plain = .array id base n size align) :
    base.Natural rs ∧ 0 ≤ n ∧ size = wrap64 (base.size rs * n) ∧ align = base.align rs := by
  cases hNatural with
  | scalar hScalar => exact absurd hPlain hScalar.not_array
  | array hArray hLength hBase =>
    rw [hPlain] at hArray
    cases hArray
    exact ⟨hBase, hLength, rfl, rfl⟩
  | record hRecord =>
    rw [hPlain] at hRecord
    cases hRecord

------------
-- Whole Alignments
------------

/- The strictest alignment does not depend on the places. -/
theorem Layout.align_slots (ms : List Shape) (c : Cursor) :
    (slots false c ms).2.align = alignOf c.align ms := by
  induction ms generalizing c with
  | nil => rfl
  | cons m ms ih =>
    simp only [slots, step, Bool.false_eq_true, if_false]
    rw [ih]
    rfl

/- Sizes that are rounded are made of whole alignments. -/
theorem dvd_alignUp (hPos : 0 < a) (n : Int) : a ∣ alignUp n a := by
  rw [alignUp, if_neg (by omega)]
  exact Int.dvd_mul_left _ _

/- Reduction to a word keeps multiples of small powers of two. -/
theorem dvd_wrap64 {n : Int} (hPower : a = 2 ^ k) (hSmall : k ≤ 64) (hDvd : a ∣ n) :
    a ∣ wrap64 n := by
  have hWord : a ∣ 0x10000000000000000 := by
    rw [hPower, show (0x10000000000000000 : Int) = 2 ^ 64 by decide]
    exact pow_dvd_pow 2 hSmall
  have hSame : wrap64 n ≡ n [ZMOD 0x10000000000000000] := Int.bmod_emod
  exact (dvd_sub_right hDvd).mp (hWord.trans hSame.dvd)

/- An alignment in bits that is a word. -/
theorem wrap64_alignBits (hSmall : k < 60) : wrap64 (2 ^ k * 8) = 2 ^ k * 8 := by
  have hPow : (2 : Int) ^ k ≤ 2 ^ 59 := pow_le_pow_right₀ (by decide) (by omega)
  have hPos : (0 : Int) < 2 ^ k := by positivity
  refine wrap64_of_fits ?_ ?_ <;> simp only [wordEnd] <;> omega

/- The strictest of some alignments below a bound is below it. -/
theorem Layout.alignOf_small {align : Int} {ms : List Shape} (hAlign : ∃ k < 60, align = 2 ^ k)
    (hPowers : ∀ m ∈ ms, ∃ k < 60, m.align = 2 ^ k) : ∃ k < 60, alignOf align ms = 2 ^ k := by
  induction ms generalizing align with
  | nil => exact hAlign
  | cons m ms ih =>
    refine ih ?_ fun n hn => hPowers n (List.mem_cons_of_mem _ hn)
    change ∃ k < 60, max align m.align = 2 ^ k
    rcases max_choice align m.align with hMax | hMax
    · rw [hMax]
      exact hAlign
    · rw [hMax]
      exact hPowers m (by simp)

namespace Record

/- The alignment of a record that is laid out. -/
theorem align_laidOut (hUnpacked : d.packed = false) :
    (d.laidOut rs).align = Layout.alignOf d.align (d.members.map (Member.shape rs)) := by
  unfold laidOut
  rw [hUnpacked]
  split
  · rfl
  · exact Layout.align_slots _ _

/- It is the strictest one of its members. -/
theorem Natural.align_power (hNatural : d.Natural rs) : ∃ k < 60, (d.laidOut rs).align = 2 ^ k := by
  rw [align_laidOut hNatural.unpacked]
  refine Layout.alignOf_small hNatural.power ?_
  exact List.forall_mem_map.mpr fun m hm => (hNatural.members m hm).power

/- The size of a record is made of whole alignments. -/
theorem Natural.whole (hNatural : d.Natural rs) : (d.laidOut rs).align ∣ (d.laidOut rs).size := by
  obtain ⟨k, hSmall, hk⟩ := hNatural.align_power
  have hPos : (0 : Int) < 2 ^ k := by positivity
  rw [hk]
  rw [align_laidOut hNatural.unpacked] at hk
  unfold laidOut
  rw [hNatural.unpacked]
  split
  · change 2 ^ k ∣ alignUp _ (Layout.alignOf d.align _)
    rw [hk]
    exact dvd_alignUp hPos _
  · change 2 ^ k ∣ (alignUp _ (wrap64 ((Layout.slots false _ _).2.align * 8))).tdiv 8
    rw [Layout.align_slots, hk, wrap64_alignBits hSmall]
    obtain ⟨q, hq⟩ := dvd_alignUp (show 0 < (2 : Int) ^ k * 8 by
      omega) (Layout.slots false ⟨0, d.align⟩ (d.members.map (Member.shape rs))).2.bits
    rw [hq, Int.mul_right_comm, Int.mul_tdiv_cancel _ (by decide)]
    exact Int.dvd_mul_right _ _

end Record

/- Natural types have alignments that are powers of two. -/
theorem CType.Natural.align_power (hNatural : t.Natural rs) : ∃ k < 60, t.align rs = 2 ^ k := by
  induction hNatural with
  | scalar hScalar =>
    obtain ⟨-, k, hk, hAlign⟩ := hScalar.size_eq_align rs
    exact ⟨k, by omega, hAlign⟩
  | array hPlain _ _ ih =>
    rw [align, hPlain]
    exact ih
  | record hPlain hLaid hDeclared =>
    rw [align, hPlain]
    change ∃ k < 60, (rs.entry _).align = 2 ^ k
    rw [hLaid]
    exact hDeclared.align_power

/- The size of a natural type is made of whole alignments. -/
theorem CType.Natural.whole (hNatural : t.Natural rs) : t.align rs ∣ t.size rs := by
  induction hNatural with
  | scalar hScalar => rw [(hScalar.size_eq_align rs).1]
  | @array t base id n hPlain _ hBase ih =>
    obtain ⟨k, hSmall, hk⟩ := hBase.align_power
    rw [align, size, hPlain]
    change base.align rs ∣ wrap64 (base.size rs * n)
    exact dvd_wrap64 hk (by omega) (ih.mul_right n)
  | record hPlain hLaid hDeclared =>
    rw [align, size, hPlain]
    change (rs.entry _).align ∣ (rs.entry _).size
    rw [hLaid]
    exact hDeclared.whole

------------
-- Classes
------------

namespace CType

/- A record that a type holds, itself included. -/
inductive Names (rs : Records) : CType → Nat → Prop
| here {t : CType} {id : Nat}
    (hPlain : t.plain = .record id) :
    Names rs t id
| element {t base : CType} {n size align : Int} {i id : Nat}
    (hPlain : t.plain = .array i base n size align)
    (hBase : Names rs base id) :
    Names rs t id
| member {t : CType} {i id : Nat} {m : Member}
    (hPlain : t.plain = .record i)
    (hMem : m ∈ (rs.entry i).members)
    (hMember : Names rs m.type id) :
    Names rs t id

/- No record is held by its own members. -/
theorem Natural.acyclic (hNatural : t.Natural rs) (hNames : t.Names rs id) :
    ∀ m ∈ (rs.entry id).members, ¬ m.type.Names rs id := by
  induction hNatural generalizing id with
  | scalar hScalar =>
    cases hNames with
    | here hPlain => exact absurd hPlain hScalar.not_record
    | element hPlain => exact absurd hPlain hScalar.not_array
    | member hPlain => exact absurd hPlain hScalar.not_record
  | array hArray _ _ ih =>
    cases hNames with
    | here hPlain => simp [hArray] at hPlain
    | element hPlain hBase =>
      rw [hArray] at hPlain
      cases hPlain
      exact ih hBase
    | member hPlain => simp [hArray] at hPlain
  | record hRecord _ _ _ ih =>
    cases hNames with
    | here hPlain =>
      rw [hRecord] at hPlain
      cases hPlain
      exact fun m hm hInside => ih m hm hInside m hm hInside
    | element hPlain => simp [hRecord] at hPlain
    | member hPlain hMem hMember =>
      rw [hRecord] at hPlain
      cases hPlain
      exact ih _ hMem hMember

end CType

namespace Codegen

namespace Eightbyte

open CType

/- What a range of bytes asks of a scalar at an offset. -/
def Suits (lo hi : Int) (s : CType) (o : Int) : Prop :=
  o < lo ∨ hi ≤ o ∨ s.Floats

/- Qualifiers do not matter. -/
theorem scalarsIn_plain (rs : Records) (lo hi : Int) (f : Nat → Int → Bool) (t : CType)
    (off : Int) : scalarsIn rs lo hi f t off = scalarsIn rs lo hi f t.plain off := by
  cases t with
  | atomic t => exact scalarsIn_plain rs lo hi f t off
  | _ => rfl

theorem floatsIn_plain (rs : Records) (lo hi : Int) (n : Nat) (t : CType) (off : Int) :
    floatsIn rs lo hi n t off = floatsIn rs lo hi n t.plain off := by
  cases n <;> exact scalarsIn_plain rs lo hi _ t off

/- A scalar is looked at, whatever the depth. -/
theorem floatsIn_scalar (rs : Records) (hScalar : t.IsScalar) (n : Nat) (off : Int) :
    floatsIn rs lo hi n t off = true ↔ Suits lo hi t off := by
  have hStep : ∀ f, scalarsIn rs lo hi f t.plain off = true ↔ Suits lo hi t off := by
    intro f
    unfold Suits Floats
    rcases hScalar.plain_cases with
      h | ⟨k, u, h⟩ | ⟨id, h⟩ | ⟨k, h⟩ | ⟨b, h⟩
    all_goals rw [h]
    case inr.inr.inr.inl => cases k <;> simp [scalarsIn]
    all_goals simp [scalarsIn]
  rw [floatsIn_plain]
  cases n <;> exact hStep _

/- Elements are looked at one by one. -/
theorem floatsIn_array {base : CType} {len size align : Int}
    (hPlain : t.plain = .array id base len size align) (n : Nat) (off : Int) :
    floatsIn rs lo hi n t off = true ↔ ∀ i < len.toNat,
        floatsIn rs lo hi n base (off + base.size rs * i) = true := by
  rw [floatsIn_plain, hPlain]
  cases n <;> simp [floatsIn, scalarsIn]

/- So are members, one depth below. -/
theorem floatsIn_record (hPlain : t.plain = .record id) (n : Nat) (off : Int) :
    floatsIn rs lo hi (n + 1) t off = true ↔ ∀ m ∈ (rs.entry id).members,
        floatsIn rs lo hi n m.type (off + m.offset) = true := by
  rw [floatsIn_plain, hPlain]
  simp [floatsIn, scalarsIn]

/- All scalars suit if none is found that does not. -/
theorem floatsIn_of_suits (hNatural : t.Natural rs) (n : Nat)
    (hSuits : ∀ s o, t.Holds rs off s o → Suits lo hi s o) : floatsIn rs lo hi n t off = true := by
  induction hNatural generalizing n off with
  | scalar hScalar => exact (floatsIn_scalar rs hScalar n off).mpr (hSuits _ _ (.here hScalar))
  | array hPlain _ _ ih =>
    refine (floatsIn_array hPlain n off).mpr fun i hi => ih n fun s o hHolds => hSuits s o ?_
    exact .element hPlain hi hHolds
  | record hPlain _ _ _ ih =>
    cases n with
    | zero =>
      rw [floatsIn_plain, hPlain]
      rfl
    | succ n =>
      refine (floatsIn_record hPlain n off).mpr fun m hm =>
        ih m hm n fun s o hHolds => hSuits s o ?_
      exact .member hPlain hm hHolds

/- An entry that has members is one of the table. -/
theorem lt_size_of_mem (hMem : m ∈ (rs.entry id).members) : id < rs.size := by
  by_contra hOutside
  have hEntry : (rs.entry id).members = [] := by
    unfold Records.entry
    rw [Array.getD_eq_getD_getElem?, Array.getElem?_eq_none (by omega)]
    rfl
  rw [hEntry] at hMem
  cases hMem

/-
  Every scalar is looked at if the depth is not exhausted: the
  records on the way to it are different ones.
-/
theorem suits_of_floatsIn (hNatural : t.Natural rs) (hHolds : t.Holds rs off s o) {n : Nat}
    (seen : Finset Nat) (hSeen : ∀ id ∈ seen, id < rs.size ∧ ¬ t.Names rs id)
    (hDepth : rs.size < n + seen.card) (hAll : floatsIn rs lo hi n t off = true) :
    Suits lo hi s o := by
  induction hHolds generalizing n seen with
  | here hScalar => exact (floatsIn_scalar rs hScalar n _).mp hAll
  | element hPlain hIndex _ ih =>
    refine ih (hNatural.base hPlain).1 seen (fun id hid => ?_) hDepth
      ((floatsIn_array hPlain n _).mp hAll _ hIndex)
    obtain ⟨hLt, hNot⟩ := hSeen id hid
    exact ⟨hLt, fun hNames => hNot (.element hPlain hNames)⟩
  | @member t s off o id m hPlain hMem _ ih =>
    have hInside := lt_size_of_mem hMem
    have hNew : id ∉ seen := fun hOld => (hSeen id hOld).2 (.here hPlain)
    have hRange : insert id seen ⊆ Finset.range rs.size := by
      intro i hi
      rcases Finset.mem_insert.mp hi with rfl | hOld
      · exact Finset.mem_range.mpr hInside
      · exact Finset.mem_range.mpr (hSeen i hOld).1
    have hCard := Finset.card_le_card hRange
    rw [Finset.card_insert_of_notMem hNew, Finset.card_range] at hCard
    obtain ⟨k, rfl⟩ : ∃ k, n = k + 1 := ⟨n - 1, by omega⟩
    refine ih ((hNatural.members hPlain).2 m hMem) (n := k) (insert id seen) (fun i hi => ?_) ?_
      ((floatsIn_record hPlain k _).mp hAll m hMem)
    · rcases Finset.mem_insert.mp hi with rfl | hOld
      · exact ⟨hInside, hNatural.acyclic (.here hPlain) m hMem⟩
      · obtain ⟨hLt, hNot⟩ := hSeen i hOld
        exact ⟨hLt, fun hNames => hNot (.member hPlain hMem hNames)⟩
    · rw [Finset.card_insert_of_notMem hNew]
      omega

/-
  An eightbyte goes in a vector register if and only if the
  scalars that start in it are `float` or `double` values.
-/
theorem isVector_iff (hNatural : t.Natural rs) (k : Nat) :
    isVector rs t k = true ↔ ∀ s o, t.Holds rs 0 s o → Suits (8 * k) (8 * k + 8) s o := by
  refine ⟨fun hAll s o hHolds => ?_, floatsIn_of_suits hNatural (rs.size + 1)⟩
  exact suits_of_floatsIn hNatural hHolds ∅ (by simp) (by simp) hAll

end Eightbyte

end Codegen

end CCompiler

------------
-- Narrow Types
------------

namespace CCompiler

variable {n : Int}

/- Rounding does not go past a multiple. -/
theorem roundUp_le {b : Int} (hPos : 0 < a) (hDvd : a ∣ b) (hLe : n ≤ b) : roundUp n a ≤ b := by
  by_contra hPast
  have hRoom := add_le_of_dvd hPos hDvd (dvd_roundUp n a) (not_le.mp hPast)
  have hSplit := Int.mul_ediv_add_emod (n + a - 1) a
  have hRest := Int.emod_nonneg (n + a - 1) hPos.ne'
  unfold roundUp at hRoom
  rw [Int.mul_comm] at hRoom
  omega

namespace Layout

variable {rs : Records} {m : Member} {ms : List Member}
  {bits unit most : Int}

/-
  A member that ends in some bytes if it starts in them and is
  aligned.
-/
structure EndsBelow
    (rs : Records)
    (most : Int)
    (m : Member) : Prop where
  ordinary : m.bits? = none → 0 ≤ m.offset → m.offset ≤ most →
    m.align ∣ m.offset → 0 ≤ m.type.size rs ∧ m.offset + m.type.size rs ≤ most
  field : ∀ b ∈ m.bits?, 0 < b.width → 0 ≤ m.offset →
    m.offset ≤ most → m.type.size rs ∣ m.offset →
      m.offset + m.type.size rs ≤ most

variable {s : Shape}

/- The place of an ordinary member does not depend on its size. -/
theorem offset_ordinary (hPower : ∃ k : Nat, s.align = 2 ^ k) (hWidth : s.width? = none)
    (hLow : 0 ≤ bits) (hFits : roundUp bits (8 * s.align) < wordEnd) :
    (place false bits s).1 = ⟨roundUp bits (8 * s.align) / 8, 0⟩ := by
  have hEmpty := places_ordinary (m := { s with size := 0 }) hLow
    ⟨hPower, le_rfl, by simp [hWidth]⟩ hWidth
    (by simpa [bitsPast, hWidth] using hFits)
  have hSame : (place false bits s).1 = (place false bits { s with size := 0 }).1 := by
    simp [place, hWidth]
  rw [hSame, hEmpty.eq]

/- An ordinary member ends where it should. -/
theorem place_ordinary_below (hNatural : m.Natural rs) (hBits : m.bits? = none) (hLow : 0 ≤ bits)
    (hHigh : bits ≤ 8 * most) (hMost : most ≤ 8) (hUnit : m.align ∣ most)
    (hEnds : EndsBelow rs most (m.inSlot (place false bits (m.shape rs)).1)) :
    0 ≤ (place false bits (m.shape rs)).2 ∧ (place false bits (m.shape rs)).2 ≤ 8 * most := by
  obtain ⟨k, -, hk⟩ := hNatural.power
  have hPos : 0 < 8 * m.align := by
    rw [hk]
    positivity
  have hWidth : (m.shape rs).width? = none := by simp [Member.shape, hBits]
  have hRound : roundUp bits (8 * m.align) ≤ 8 * most :=
    roundUp_le hPos (mul_dvd_mul_left 8 hUnit) hHigh
  have hOver := le_roundUp (n := bits) hPos
  obtain ⟨q, hq⟩ := dvd_roundUp bits (8 * m.align)
  have hOffset : roundUp bits (8 * m.align) / 8 = m.align * q := by
    rw [hq, Int.mul_assoc]
    exact Int.mul_ediv_cancel_left _ (by decide)
  have hEight : roundUp bits (8 * m.align) = 8 * (m.align * q) := by
    rw [hq]
    ring
  have hSlot := offset_ordinary (s := m.shape rs) ⟨k, hk⟩ hWidth hLow (by
      change roundUp bits (8 * m.align) < wordEnd
      simp only [wordEnd]
      omega)
  change _ = (⟨roundUp bits (8 * m.align) / 8, 0⟩ : Slot) at hSlot
  rw [hSlot, hOffset] at hEnds
  obtain ⟨hSize, hEnd⟩ := hEnds.ordinary (by simp [Member.inSlot, hBits])
    (by change 0 ≤ m.align * q; omega)
    (by change m.align * q ≤ most; omega)
    (by exact Int.dvd_mul_right _ _)
  change 0 ≤ m.type.size rs at hSize
  change m.align * q + m.type.size rs ≤ most at hEnd
  have hPast : bitsPast bits (m.shape rs) = roundUp bits (8 * m.align) + 8 * m.type.size rs := by
    simp only [bitsPast, hWidth]
    rfl
  have hPlaces := places_ordinary hLow (m := m.shape rs) ⟨⟨k, hk⟩, hSize, by simp [hWidth]⟩ hWidth
    (by rw [hPast]; simp only [wordEnd]; omega)
  rw [hPlaces.eq, hPast]
  constructor
  · change 0 ≤ roundUp bits (8 * m.align) + 8 * m.type.size rs
    omega
  · change roundUp bits (8 * m.align) + 8 * m.type.size rs ≤ _
    omega

/- The bits used after a bit-field of positive width. -/
theorem bitsPast_field {w : Int} (bits : Int) (hWidth : s.width? = some w) (hZero : w ≠ 0) :
    bitsPast bits s = fieldStart bits s.size w + w := by
  unfold bitsPast
  rw [hWidth]
  split
  · rename_i hEq
    cases hEq
    exact absurd rfl hZero
  · rename_i hEq
    cases hEq
    rfl
  · rename_i hEq
    cases hEq

/- A bit-field ends where its unit should. -/
theorem place_field_below {b : BitField} (hNatural : m.Natural rs) (hBits : m.bits? = some b)
    (hLow : 0 ≤ bits) (hHigh : bits ≤ 8 * most) (hMost : most ≤ 8) (hUnit : m.align ∣ most)
    (hEnds : EndsBelow rs most (m.inSlot (place false bits (m.shape rs)).1)) :
    0 ≤ (place false bits (m.shape rs)).2 ∧ (place false bits (m.shape rs)).2 ≤ 8 * most := by
  obtain ⟨hInt, hSome, hWide⟩ := hNatural.field b hBits
  obtain ⟨hAlign, j, hj, hSize⟩ := CType.size_of_isInteger rs hInt
  obtain ⟨k, hSmall, hk⟩ := hNatural.power
  have hStrict := hNatural.natural
  rw [hAlign] at hStrict
  have hPos : 0 < m.type.size rs := by
    rw [hSize]
    positivity
  have hEight : m.type.size rs ≤ 8 := by
    rw [hSize]
    interval_cases j <;> decide
  have hWhole : m.type.size rs ∣ most := (power_dvd ⟨j, hSize⟩ ⟨k, hk⟩ hStrict).trans hUnit
  have hProper : (m.shape rs).Proper := by
    refine ⟨⟨k, hk⟩, hPos.le, fun w hw => ?_⟩
    obtain ⟨c, hc, rfl⟩ := Option.map_eq_some_iff.mp hw
    rw [hBits] at hc
    cases hc
    exact ⟨hSome, hWide, hStrict, j, hj, hSize⟩
  have hWidth : (m.shape rs).width? = some b.width := by simp [Member.shape, hBits]
  have hRound : roundUp bits (8 * m.type.size rs) ≤ 8 * most :=
    roundUp_le (by omega) (mul_dvd_mul_left 8 hWhole) hHigh
  have hOver := le_roundUp (n := bits) (show 0 < 8 * m.type.size rs by omega)
  by_cases hZero : b.width = 0
  · rw [hZero] at hWidth
    have hPast : bitsPast bits (m.shape rs) = roundUp bits (8 * m.type.size rs) := by
      simp only [bitsPast, hWidth]
      rfl
    have hPlaces := places_zero hLow hProper hWidth (by rw [hPast]; simp only [wordEnd]; omega)
    rw [hPlaces.eq, hPast]
    change 0 ≤ roundUp bits _ ∧ roundUp bits _ ≤ _
    omega
  · have hStart : bits ≤ fieldStart bits (m.type.size rs) b.width ∧
        fieldStart bits (m.type.size rs) b.width ≤ 8 * most := by
      unfold fieldStart
      split <;> omega
    have hPast : bitsPast bits (m.shape rs) = fieldStart bits (m.type.size rs) b.width + b.width :=
      bitsPast_field bits hWidth hZero
    obtain ⟨s, hPlaces⟩ := exists_places hLow hProper (by rw [hPast]; simp only [wordEnd]; omega)
    obtain ⟨hPart, hBit, hIn⟩ := hPlaces.suits.field b.width hWidth (by omega)
    obtain ⟨-, hLast⟩ := hPlaces.solid (by
      rw [Shape.Solid, hWidth]
      simpa using hZero)
    rw [hPlaces.eq] at hEnds ⊢
    change m.type.size rs ∣ s.offset at hPart
    change s.bit + b.width ≤ 8 * m.type.size rs at hIn
    rw [Shape.bitCount, hWidth, Option.getD_some, hPast, Slot.first] at hLast
    have hNonneg : 0 ≤ s.offset := by
      by_contra hNeg
      have hBelow := add_le_of_dvd hPos hPart (dvd_zero _) (by omega)
      omega
    have hEnd := hEnds.field { b with offset := s.bit }
      (by simp [Member.inSlot, hBits]) (by change 0 < b.width; omega)
      hNonneg (by change s.offset ≤ most; omega) hPart
    change s.offset + m.type.size rs ≤ most at hEnd
    change 0 ≤ bitsPast bits (m.shape rs) ∧ _ ≤ 8 * most
    rw [hPast]
    constructor <;> omega

/- Members that end in some bytes use no more bits than those. -/
theorem slots_below (most : Int) (c : Cursor) (hLow : 0 ≤ c.bits) (hHigh : c.bits ≤ 8 * most)
    (hMost : most ≤ 8) (hMembers : ∀ m ∈ ms, m.Natural rs ∧ m.align ∣ most)
    (hEnds : ∀ m ∈ ms.zipWith Member.inSlot
      (slots false c (ms.map (Member.shape rs))).1, EndsBelow rs most m) :
    0 ≤ (slots false c (ms.map (Member.shape rs))).2.bits ∧
      (slots false c (ms.map (Member.shape rs))).2.bits ≤ 8 * most := by
  induction ms generalizing c with
  | nil => exact ⟨hLow, hHigh⟩
  | cons m ms ih =>
    obtain ⟨hNatural, hUnit⟩ := hMembers m (by simp)
    have hOwn := hEnds (m.inSlot (place false c.bits (m.shape rs)).1) (by simp [slots, step])
    have hNext : 0 ≤ (place false c.bits (m.shape rs)).2 ∧
        (place false c.bits (m.shape rs)).2 ≤ 8 * most := by
      cases hBits : m.bits? with
      | none => exact place_ordinary_below hNatural hBits hLow hHigh hMost hUnit hOwn
      | some b => exact place_field_below hNatural hBits hLow hHigh hMost hUnit hOwn
    refine ih (step false c (m.shape rs)).2 hNext.1 hNext.2
      (fun n hn => hMembers n (List.mem_cons_of_mem _ hn))
      fun n hn => hEnds n ?_
    exact List.mem_cons_of_mem _ hn

end Layout

------------
-- Ends of Types
------------

variable {rs : Records} {t s : CType} {d : Record} {m : Member}
  {id : Nat} {off o h : Int}

/- The largest of some sizes is within a bound if all are. -/
theorem Layout.widest_le {ms : List Shape} {most : Int} (hLow : 0 ≤ most)
    (hSizes : ∀ m ∈ ms, m.size ≤ most) : widest ms ≤ most := by
  have hAll : ∀ (ms : List Shape) (n : Int), n ≤ most → (∀ m ∈ ms, m.size ≤ most) →
        ms.foldl (fun s m => max s m.size) n ≤ most := by
    intro ms
    induction ms with
    | nil => exact fun n hn _ => hn
    | cons m ms ih =>
      intro n hn hSizes
      exact ih _ (max_le hn (hSizes m (by simp)))
        fun m' hm' => hSizes m' (List.mem_cons_of_mem _ hm')
  exact hAll ms 0 hLow hSizes

namespace Record

/- What a structure is after its members were placed. -/
theorem laidOut_struct (rs : Records) (hStruct : d.isUnion = false) (hUnpacked : d.packed = false) :
    let placed := Layout.slots false ⟨0, d.align⟩
      (d.members.map (Member.shape rs))
    (d.laidOut rs).members = d.members.zipWith Member.inSlot placed.1 ∧
      (d.laidOut rs).size = (alignUp placed.2.bits (wrap64 (placed.2.align * 8))).tdiv 8 := by
  simp [laidOut, hStruct, hUnpacked, Layout.struct]

/- A union only gets its size. -/
theorem laidOut_union (rs : Records) (hUnion : d.isUnion = true) :
    (d.laidOut rs).members = d.members ∧ (d.laidOut rs).size =
        alignUp (Layout.widest (d.members.map (Member.shape rs))) (Layout.alignOf d.align
            (d.members.map (Member.shape rs))) := by
  unfold laidOut
  rw [if_pos hUnion]
  exact ⟨rfl, rfl⟩

/- What is declared of a member of a record. -/
theorem Natural.exists_declared (hNatural : d.Natural rs) (hMem : m ∈ (d.laidOut rs).members) :
    ∃ n ∈ d.members, n.Placed m := by
  cases hUnion : d.isUnion with
  | true =>
    rw [(laidOut_union rs hUnion).1] at hMem
    exact ⟨m, hMem, rfl, rfl, rfl, rfl, rfl⟩
  | false =>
    rw [(laidOut_struct rs hUnion hNatural.unpacked).1, ← List.map_uncurry_zip_eq_zipWith] at hMem
    obtain ⟨⟨n, s⟩, hPair, rfl⟩ := List.mem_map.mp hMem
    exact ⟨n, (List.of_mem_zip hPair).1, n.placed_inSlot s⟩

/- A record is aligned like each of its members at least. -/
theorem Natural.align_le (hNatural : d.Natural rs) (hMem : m ∈ (d.laidOut rs).members) :
    (∃ k : Nat, m.align = 2 ^ k) ∧ m.type.align rs ≤ m.align ∧ m.align ≤ (d.laidOut rs).align := by
  obtain ⟨n, hn, hPlaced⟩ := hNatural.exists_declared hMem
  obtain ⟨⟨k, -, hk⟩, hLe, -⟩ := hNatural.members n hn
  rw [hPlaced.type, hPlaced.align, align_laidOut hNatural.unpacked]
  exact ⟨⟨k, hk⟩, hLe, (Layout.le_alignOf d.align _).2 (n.shape rs) (List.mem_map_of_mem hn)⟩

end Record

namespace CType

/- A type is aligned like each of its scalars at least. -/
theorem Holds.align_le (hHolds : t.Holds rs off s o) (hNatural : t.Natural rs) :
    s.align rs ≤ t.align rs := by
  induction hHolds with
  | here => exact le_rfl
  | @element t base s off o n size align id i hPlain _ _ ih =>
    obtain ⟨hBase, -, -, rfl⟩ := hNatural.base hPlain
    have hAlign : t.align rs = base.align rs := by rw [CType.align, hPlain]
    rw [hAlign]
    exact ih hBase
  | @member t s off o id m hPlain hMem _ ih =>
    obtain ⟨⟨d, hLaid, hDeclared⟩, hMembers⟩ := hNatural.members hPlain
    have hAlign : t.align rs = (d.laidOut rs).align := by rw [CType.align, hPlain, ← hLaid]
    obtain ⟨-, hOwn, hRecord⟩ := hDeclared.align_le (hLaid ▸ hMem)
    rw [hAlign]
    exact (ih (hMembers m hMem)).trans (hOwn.trans hRecord)

/-
  A place below which no scalar of a type starts any more, for
  eight bytes: the type starts there, or before it.
-/
structure Clear
    (rs : Records)
    (h : Int)
    (t : CType)
    (off : Int) : Prop where
  low : 0 ≤ off
  high : off ≤ h
  aligned : t.align rs ∣ off
  narrow : t.align rs ≤ 2
  none : ∀ s o, t.Holds rs off s o → o < h ∨ h + 8 ≤ o

/- A narrow alignment divides even numbers. -/
theorem dvd_of_narrow (hPower : ∃ k : Nat, a = 2 ^ k) (hNarrow : a ≤ 2) (hEven : 2 ∣ h) :
    a ∣ h := by
  refine (Layout.power_dvd hPower ⟨1, rfl⟩ ?_).trans hEven
  exact hNarrow

/- A scalar that starts before a place ends there at the latest. -/
theorem IsScalar.ends_below (hScalar : t.IsScalar) (hEven : 2 ∣ h) (hClear : Clear rs h t off) :
    0 ≤ t.size rs ∧ off + t.size rs ≤ h := by
  obtain ⟨hSize, k, -, hk⟩ := hScalar.size_eq_align rs
  have hPos : 0 < t.align rs := by
    rw [hk]
    positivity
  have hHere := hClear.none t off (.here hScalar)
  have hHigh := hClear.high
  rw [hSize]
  exact ⟨hPos.le, add_le_of_dvd hPos hClear.aligned
    (dvd_of_narrow ⟨k, hk⟩ hClear.narrow hEven) (by omega)⟩

/- The elements of an array end one after the other. -/
theorem array_ends_below {base : CType}
    (hPlain : t.plain = .array id base n
      (wrap64 (base.size rs * n)) (base.align rs)) (hLength : 0 ≤ n) (hBase : base.Natural rs)
    (hSmall : h ≤ 8) (hClear : Clear rs h t off)
    (hElement : ∀ off, Clear rs h base off →
      0 ≤ base.size rs ∧ off + base.size rs ≤ h) : 0 ≤ t.size rs ∧ off + t.size rs ≤ h := by
  have hAlign : t.align rs = base.align rs := by rw [align, hPlain]
  have hLow := hClear.low
  have hHigh := hClear.high
  have hFirst : ∀ i : Nat, i ≤ n.toNat → 0 ≤ base.size rs * i ∧ off + base.size rs * i ≤ h := by
    intro i hi
    induction i with
    | zero => simpa using hHigh
    | succ i ih =>
      obtain ⟨hStart, hStop⟩ := ih (by omega)
      obtain ⟨hSize, hEnd⟩ := hElement (off + base.size rs * i)
        { low := by omega
          high := hStop
          aligned := dvd_add (hAlign ▸ hClear.aligned) (hBase.whole.mul_right _)
          narrow := hAlign ▸ hClear.narrow
          none := fun s o hHolds => hClear.none s o (.element hPlain (by omega) hHolds) }
      push_cast
      rw [mul_add, mul_one]
      constructor <;> omega
  obtain ⟨hStart, hStop⟩ := hFirst n.toNat le_rfl
  rw [Int.toNat_of_nonneg hLength] at hStart hStop
  have hSize : t.size rs = base.size rs * n := by
    rw [size, hPlain]
    refine wrap64_of_fits ?_ ?_ <;> simp only [wordEnd] <;> omega
  rw [hSize]
  exact ⟨hStart, hStop⟩

/- A member that starts before a place ends there at the latest. -/
theorem member_ends_below (hPlain : t.plain = .record id) (hLaid : rs.entry id = d.laidOut rs)
    (hDeclared : d.Natural rs) (hEven : 2 ∣ h) (hClear : Clear rs h t off)
    (hMem : m ∈ (rs.entry id).members) (hType : m.type.Natural rs)
    (hMember : ∀ off, Clear rs h m.type off →
      0 ≤ m.type.size rs ∧ off + m.type.size rs ≤ h) : Layout.EndsBelow rs (h - off) m := by
  obtain ⟨hPower, hNatural, hStrict⟩ := hDeclared.align_le (hLaid ▸ hMem)
  have hAlign : t.align rs = (d.laidOut rs).align := by rw [align, hPlain, ← hLaid]
  have hNarrow := hClear.narrow
  have hLow := hClear.low
  rw [hAlign] at hNarrow
  have hOff : m.align ∣ off := by
    obtain ⟨k, -, hk⟩ := hDeclared.align_power
    exact (Layout.power_dvd hPower ⟨k, hk⟩ hStrict).trans (hAlign ▸ hClear.aligned)
  have hOwn : m.type.align rs ∣ m.align := by
    obtain ⟨k, -, hk⟩ := hType.align_power
    exact Layout.power_dvd ⟨k, hk⟩ hPower hNatural
  have hStep : 0 ≤ m.offset → m.offset ≤ h - off → m.type.align rs ∣ m.offset → 0 ≤ m.type.size rs ∧
          m.offset + m.type.size rs ≤ h - off := by
    intro hStart hInside hUnit
    obtain ⟨hSize, hEnd⟩ := hMember (off + m.offset)
      { low := by omega
        high := by omega
        aligned := dvd_add (hOwn.trans hOff) hUnit
        narrow := by omega
        none := fun s o hHolds => hClear.none s o (.member hPlain hMem hHolds) }
    constructor <;> omega
  refine ⟨fun _ hStart hInside hUnit =>
    hStep hStart hInside (hOwn.trans hUnit),
    fun b hb hSome hStart hInside hUnit => ?_⟩
  obtain ⟨n, hn, hPlaced⟩ := hDeclared.exists_declared (hLaid ▸ hMem)
  obtain ⟨c, hc, -⟩ : ∃ c ∈ n.bits?, c.width = b.width := by
    have hSame := hPlaced.width?
    rw [hb] at hSame
    exact Option.map_eq_some_iff.mp hSame.symm
  obtain ⟨hInt, -⟩ := (hDeclared.members n hn).field c hc
  rw [← hPlaced.type] at hInt
  refine (hStep hStart hInside ?_).2
  rwa [(size_of_isInteger rs hInt).1]

/- The members of a structure end one after the other. -/
theorem struct_ends_below (hPlain : t.plain = .record id) (hLaid : rs.entry id = d.laidOut rs)
    (hDeclared : d.Natural rs) (hStruct : d.isUnion = false) (hEven : 2 ∣ h) (hSmall : h ≤ 8)
    (hClear : Clear rs h t off)
    (hEnds : ∀ m ∈ (rs.entry id).members, Layout.EndsBelow rs (h - off) m) :
    0 ≤ t.size rs ∧ off + t.size rs ≤ h := by
  have hAlign : t.align rs = (d.laidOut rs).align := by rw [align, hPlain, ← hLaid]
  have hSize : t.size rs = (d.laidOut rs).size := by rw [size, hPlain, ← hLaid]
  obtain ⟨hPlaced, hRounded⟩ := Record.laidOut_struct rs hStruct hDeclared.unpacked
  obtain ⟨k, hk60, hk⟩ := hDeclared.align_power
  have hLow := hClear.low
  have hHigh := hClear.high
  have hNarrow := hClear.narrow
  have hWhole : (d.laidOut rs).align ∣ h - off := by
    refine dvd_sub ?_ (hAlign ▸ hClear.aligned)
    exact dvd_of_narrow ⟨k, hk⟩ (hAlign ▸ hNarrow) hEven
  have hMembers : ∀ m ∈ d.members, m.Natural rs ∧ m.align ∣ h - off := by
    intro m hm
    obtain ⟨j, -, hj⟩ := (hDeclared.members m hm).power
    have hStrict := (Layout.le_alignOf d.align _).2 (m.shape rs)
      (List.mem_map_of_mem (f := Member.shape rs) hm)
    rw [← Record.align_laidOut hDeclared.unpacked] at hStrict
    exact ⟨hDeclared.members m hm, (Layout.power_dvd ⟨j, hj⟩ ⟨k, hk⟩ hStrict).trans hWhole⟩
  rw [hLaid, hPlaced] at hEnds
  obtain ⟨hFirst, hLast⟩ := Layout.slots_below (h - off) ⟨0, d.align⟩ le_rfl
    (by change 0 ≤ 8 * (h - off); omega) (by omega) hMembers hEnds
  have hUnit : (Layout.slots false ⟨0, d.align⟩ (d.members.map (Member.shape rs))).2.align =
        (d.laidOut rs).align := by
    rw [Layout.align_slots, Record.align_laidOut hDeclared.unpacked]
  have hRound : roundUp (Layout.slots false ⟨0, d.align⟩
      (d.members.map (Member.shape rs))).2.bits (8 * 2 ^ k) ≤ 8 * (h - off) :=
    roundUp_le (by positivity) (mul_dvd_mul_left 8 (hk ▸ hWhole)) hLast
  have hOver := le_roundUp (n := (Layout.slots false ⟨0, d.align⟩
    (d.members.map (Member.shape rs))).2.bits)
    (show (0 : Int) < 8 * 2 ^ k by positivity)
  rw [hSize, hRounded, hUnit, hk, alignUp_bits hFirst (by simp only [wordEnd]; omega),
    Int.tdiv_eq_ediv_of_nonneg (by omega)]
  constructor <;> omega

/- The members of a union all start with it. -/
theorem union_ends_below (hPlain : t.plain = .record id) (hLaid : rs.entry id = d.laidOut rs)
    (hDeclared : d.Natural rs) (hUnion : d.isUnion = true) (hEven : 2 ∣ h) (hSmall : h ≤ 8)
    (hClear : Clear rs h t off) (hTypes : ∀ m ∈ (rs.entry id).members, m.type.Natural rs)
    (hMembers : ∀ m ∈ (rs.entry id).members, ∀ off, Clear rs h m.type off →
        0 ≤ m.type.size rs ∧ off + m.type.size rs ≤ h) : 0 ≤ t.size rs ∧ off + t.size rs ≤ h := by
  have hAlign : t.align rs = (d.laidOut rs).align := by rw [align, hPlain, ← hLaid]
  have hSize : t.size rs = (d.laidOut rs).size := by rw [size, hPlain, ← hLaid]
  obtain ⟨hSame, hRounded⟩ := Record.laidOut_union rs hUnion
  obtain ⟨k, -, hk⟩ := hDeclared.align_power
  have hLow := hClear.low
  have hHigh := hClear.high
  have hNarrow := hClear.narrow
  have hPos : 0 < (d.laidOut rs).align := by
    rw [hk]
    positivity
  have hWhole : (d.laidOut rs).align ∣ h - off := by
    refine dvd_sub ?_ (hAlign ▸ hClear.aligned)
    exact dvd_of_narrow ⟨k, hk⟩ (hAlign ▸ hNarrow) hEven
  have hEach : ∀ m ∈ d.members, m.type.size rs ≤ h - off := by
    intro m hm
    have hMem : m ∈ (rs.entry id).members := by rwa [hLaid, hSame]
    have hStart := (hDeclared.members m hm).start
    obtain ⟨hPower, hNatural, hStrict⟩ := hDeclared.align_le (hLaid ▸ hMem)
    obtain ⟨j, -, hj⟩ := (hTypes m hMem).align_power
    have hEnd := (hMembers m hMem off
      { low := hLow
        high := hHigh
        aligned := (Layout.power_dvd ⟨j, hj⟩ ⟨k, hk⟩
          (hNatural.trans hStrict)).trans (hAlign ▸ hClear.aligned)
        narrow := by omega
        none := fun s o hHolds => hClear.none s o
          (.member hPlain hMem (by rwa [hStart, add_zero])) }).2
    omega
  have hWidest : 0 ≤ Layout.widest (d.members.map (Member.shape rs)) ∧
      Layout.widest (d.members.map (Member.shape rs)) ≤ h - off := by
    refine ⟨(Layout.le_foldl_max _ _ 0).1, Layout.widest_le (by omega) ?_⟩
    exact List.forall_mem_map.mpr hEach
  have hRound := roundUp_le hPos hWhole hWidest.2
  have hOver := le_roundUp (n := Layout.widest (d.members.map (Member.shape rs))) hPos
  rw [hSize, hRounded, ← Record.align_laidOut hDeclared.unpacked,
    alignUp_eq_roundUp hWidest.1 hPos ?_ (by simp only [wordEnd]; omega)]
  · constructor <;> omega
  · rw [hk]
    refine pow_dvd_wordEnd ?_
    rw [← hk]
    simp only [wordEnd]
    omega

/-
  If no scalar of a type with a narrow alignment starts in the
  eight bytes behind a place, it ends before that place.
-/
theorem Natural.ends_below (hNatural : t.Natural rs) (hEven : 2 ∣ h) (hSmall : h ≤ 8)
    (hClear : Clear rs h t off) : 0 ≤ t.size rs ∧ off + t.size rs ≤ h := by
  induction hNatural generalizing off with
  | scalar hScalar => exact hScalar.ends_below hEven hClear
  | array hPlain hLength hBase ih =>
    exact array_ends_below hPlain hLength hBase hSmall hClear fun _ => ih
  | @record t id d hPlain hLaid hDeclared hMembers ih =>
    cases hUnion : d.isUnion with
    | true =>
      exact union_ends_below hPlain hLaid hDeclared hUnion
        hEven hSmall hClear hMembers fun m hm _ => ih m hm
    | false =>
      exact struct_ends_below hPlain hLaid hDeclared hUnion hEven hSmall hClear fun m hm =>
          member_ends_below hPlain hLaid hDeclared hEven hClear hm (hMembers m hm) fun _ => ih m hm

end CType

------------
-- Eightbytes of Small Records
------------

namespace Codegen

namespace Eightbyte

open CType

/-
  The bytes that are left of a type in an eightbyte that goes
  in a vector register: the eightbyte ends with a float or a
  double, or the type has ended before.
-/
theorem size_of_isVector (hNatural : t.Natural rs) (hFirst : k ≤ 1)
    (hVector : isVector rs t k = true) : t.size rs ≤ 8 * k ∨ 4 ∣ t.size rs := by
  rw [isVector_iff hNatural] at hVector
  obtain ⟨j, -, hj⟩ := hNatural.align_power
  by_cases hNarrow : t.align rs ≤ 2
  · refine .inl ?_
    have hClear : Clear rs (8 * k) t 0 :=
      { low := le_rfl
        high := by omega
        aligned := dvd_zero _
        narrow := hNarrow
        none := fun s o hHolds => by
          have hScalar := hHolds.align_le hNatural
          rcases hVector s o hHolds with hLow | hHigh | hFloats
          · exact .inl hLow
          · exact .inr hHigh
          · have hWide := hFloats.align rs
            omega }
    have hEnd := (hNatural.ends_below (by omega) (by omega) hClear).2
    omega
  · refine .inr (dvd_trans ?_ hNatural.whole)
    have hTwo : (2 : Nat) ≤ j := by
      by_contra hLess
      have hPow : (2 : Int) ^ j ≤ 2 ^ 1 := pow_le_pow_right₀ (by decide) (by omega)
      omega
    rw [hj]
    exact pow_dvd_pow 2 hTwo

end Eightbyte

end Codegen

end CCompiler
