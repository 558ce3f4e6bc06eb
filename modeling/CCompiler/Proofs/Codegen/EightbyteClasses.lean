import Mathlib
import CCompiler.Codegen.Module
import CCompiler.Proofs.Codegen.SmallRecords

/-
  The classes of eightbytes and the bytes of their scalars.

  Classification looks at where scalars start.  In a natural
  type every scalar stands at a multiple of its size, whatever
  the counter of bits did before it: a member is put at a
  multiple of its alignment, and elements follow each other in
  whole alignments.  A scalar of at most eight bytes therefore
  lies in one eightbyte, and starts in the one that it meets.

  An eightbyte of a small record that goes in a vector register
  is four or eight bytes long, so that storing it never fails.

  Main declarations:
    * `Layout.dvd_place`, `Record.Natural.dvd_offset`
    * `CType.Natural.dvd_scalar`
    * `Codegen.eightbytes_classified`
-/

------------
-- Places of Members
------------

namespace CCompiler

variable {rs : Records} {t s : CType} {d : Record} {m : Member}
  {off o : Int}

namespace Layout

/- A member is put where the bits used before it lead. -/
theorem exists_place {ms : List Member} (c : Cursor)
    (hMem : m ∈ ms.zipWith Member.inSlot
      (slots false c (ms.map (Member.shape rs))).1) :
    ∃ n ∈ ms, ∃ bits, m = n.inSlot (place false bits (n.shape rs)).1 := by
  induction ms generalizing c with
  | nil => cases hMem
  | cons n ms ih =>
    simp only [List.map_cons, slots, step, List.zipWith_cons_cons, List.mem_cons] at hMem
    rcases hMem with rfl | hRest
    · exact ⟨n, by simp, c.bits, rfl⟩
    · obtain ⟨n', hMem', hPlace⟩ := ih _ hRest
      exact ⟨n', List.mem_cons_of_mem _ hMem', hPlace⟩

/- Wherever the counter of bits stands, a member is aligned. -/
theorem dvd_place (hNatural : m.Natural rs) (hType : m.type.Natural rs) (bits : Int) :
    m.type.align rs ∣ (place false bits (m.shape rs)).1.offset := by
  obtain ⟨k, hSmall, hk⟩ := hNatural.power
  cases hBits : m.bits? with
  | none =>
    have hPlace : (place false bits (m.shape rs)).1.offset =
        (alignUp bits (wrap64 (m.align * 8))).tdiv 8 := by
      simp [place, Member.shape, hBits]
    have hOwn : m.type.align rs ∣ m.align := by
      obtain ⟨j, -, hj⟩ := hType.align_power
      exact power_dvd ⟨j, hj⟩ ⟨k, hk⟩ hNatural.natural
    have hPos : (0 : Int) < 2 ^ k := by positivity
    obtain ⟨q, hq⟩ := dvd_alignUp (show 0 < (2 : Int) ^ k * 8 by omega) bits
    rw [hk] at hOwn
    rw [hPlace, hk, wrap64_alignBits hSmall, hq, Int.mul_right_comm,
      Int.mul_tdiv_cancel _ (by decide)]
    exact hOwn.mul_right _
  | some b =>
    obtain ⟨hInt, -⟩ := hNatural.field b hBits
    obtain ⟨hAlign, j, -, hSize⟩ := CType.size_of_isInteger rs hInt
    have hPos : 0 < m.type.size rs := by
      rw [hSize]
      positivity
    by_cases hZero : b.width = 0
    · simp [place, Member.shape, hBits, hZero]
    · have hPlace : (place false bits (m.shape rs)).1 =
          (placeBits bits (m.type.size rs) b.width).1 := by
        unfold place Member.shape
        simp only [hBits, Option.map_some]
      rw [hPlace, hAlign]
      exact dvd_alignUp hPos _

end Layout

/- A member of a record that is laid out is aligned. -/
theorem Record.Natural.dvd_offset (hNatural : d.Natural rs) (hMem : m ∈ (d.laidOut rs).members)
    (hType : m.type.Natural rs) : m.type.align rs ∣ m.offset := by
  cases hUnion : d.isUnion with
  | true =>
    rw [(laidOut_union rs hUnion).1] at hMem
    rw [(hNatural.members m hMem).start]
    exact dvd_zero _
  | false =>
    rw [(laidOut_struct rs hUnion hNatural.unpacked).1] at hMem
    obtain ⟨n, hDeclared, bits, rfl⟩ := Layout.exists_place _ hMem
    exact Layout.dvd_place (hNatural.members n hDeclared) hType bits

------------
-- Places of Scalars
------------

namespace CType

/-
  A scalar of a natural type at an aligned place stands at a
  multiple of its size.
-/
theorem Natural.dvd_scalar (hNatural : t.Natural rs) (hAligned : t.align rs ∣ off)
    (hHolds : t.Holds rs off s o) : s.size rs ∣ o := by
  induction hHolds with
  | here hScalar =>
    rw [(hScalar.size_eq_align rs).1]
    exact hAligned
  | @element t base s off o n size align id i hPlain _ _ ih =>
    obtain ⟨hBase, -, -, rfl⟩ := hNatural.base hPlain
    have hSame : t.align rs = base.align rs := by rw [CType.align, hPlain]
    rw [hSame] at hAligned
    exact ih hBase (dvd_add hAligned (hBase.whole.mul_right _))
  | @member t s off o id m hPlain hMem _ ih =>
    obtain ⟨⟨d, hLaid, hDeclared⟩, hMembers⟩ := hNatural.members hPlain
    have hType := hMembers m hMem
    rw [hLaid] at hMem
    obtain ⟨hPower, hOwn, hRecord⟩ := hDeclared.align_le hMem
    have hSame : t.align rs = (d.laidOut rs).align := by rw [CType.align, hPlain, ← hLaid]
    have hUnit : m.type.align rs ∣ t.align rs := by
      obtain ⟨j, -, hj⟩ := hType.align_power
      obtain ⟨k, -, hk⟩ := hNatural.align_power
      refine Layout.power_dvd ⟨j, hj⟩ ⟨k, hk⟩ ?_
      exact hOwn.trans (hSame ▸ hRecord)
    exact ih hType (dvd_add (hUnit.trans hAligned) (hDeclared.dvd_offset hMem hType))

/- A scalar other than a `long double` fits in an eightbyte. -/
theorem IsScalar.size_dvd_eight (hScalar : t.IsScalar) (hShort : t.plain ≠ .ldouble) :
    0 < t.size rs ∧ t.size rs ∣ 8 := by
  unfold size
  rcases hScalar.plain_cases with
    h | ⟨k, u, h⟩ | ⟨id, h⟩ | ⟨k, h⟩ | ⟨b, h⟩
  all_goals rw [h] at hShort ⊢
  case inr.inl => cases k <;> norm_num [intSize]
  case inr.inr.inr.inl =>
    cases k with
    | float | double => norm_num [floatSize]
    | ldouble => exact absurd rfl hShort
  all_goals norm_num

theorem Holds.isScalar (hHolds : t.Holds rs off s o) : s.IsScalar := by
  induction hHolds with
  | here hScalar => exact hScalar
  | element _ _ _ ih | member _ _ _ ih => exact ih

/- A scalar holds nothing but itself. -/
theorem IsScalar.holds (hScalar : t.IsScalar) (hHolds : t.Holds rs off s o) : s = t ∧ o = off := by
  cases hHolds with
  | here => exact ⟨rfl, rfl⟩
  | element hPlain => exact absurd hPlain hScalar.not_array
  | member hPlain => exact absurd hPlain hScalar.not_record

/- So it does not reach from one eightbyte into the next. -/
theorem Natural.ends_within {k : Nat} (hNatural : t.Natural rs) (hHolds : t.Holds rs 0 s o)
    (hShort : s.plain ≠ .ldouble) (hBelow : o < 8 * k) : o + s.size rs ≤ 8 * k := by
  have hSize : 0 < s.size rs ∧ s.size rs ∣ 8 := hHolds.isScalar.size_dvd_eight hShort
  exact add_le_of_dvd hSize.1 (hNatural.dvd_scalar (dvd_zero _) hHolds) (hSize.2.mul_right _) hBelow

end CType

------------
-- Classes
------------

namespace Codegen

open CType

/-
  An eightbyte goes in a vector register if and only if all
  scalars with bytes in it are `float` or `double` values.
-/
theorem Eightbyte.isVector_iff_meets (hNatural : t.Natural rs)
    (hShort : ∀ s o, t.Holds rs 0 s o → s.plain ≠ .ldouble) (k : Nat) :
    isVector rs t k = true ↔ ∀ s o, t.Holds rs 0 s o →
      o < 8 * k + 8 → 8 * k < o + s.size rs → s.Floats := by
  rw [isVector_iff hNatural]
  constructor
  · intro hSuits s o hHolds hStart hEnd
    rcases hSuits s o hHolds with hLow | hHigh | hFloats
    · have hWithin := hNatural.ends_within hHolds (hShort s o hHolds) hLow
      omega
    · omega
    · exact hFloats
  · intro hMeets s o hHolds
    have hPos : 0 < s.size rs := (hHolds.isScalar.size_dvd_eight (hShort s o hHolds)).1
    by_cases hLow : o < 8 * k
    · exact .inl hLow
    by_cases hHigh : 8 * k + 8 ≤ o
    · exact .inr (.inl hHigh)
    exact .inr (.inr (hMeets s o hHolds (by omega) (by omega)))

/- Storing a register succeeds if a vector register holds a value. -/
theorem spillNext_succeeds {v : Bool} {size : Int} (hSize : v = true → size = 4 ∨ size = 8)
    (u : RegisterUse) (offset : Int) (c : Counters) : ∃ r, spillNext u v offset size c = .ok r := by
  cases v with
  | true =>
    unfold spillNext spillVector
    rcases hSize rfl with rfl | rfl <;> exact ⟨_, rfl⟩
  | false =>
    unfold spillNext spillGeneral
    simp only [Bool.false_eq_true, if_false]
    split <;> exact ⟨_, rfl⟩

/- One computation after another succeeds if both do. -/
theorem bind_succeeds {α β : Type} {x : Emit α} {f : α → Emit β} {c : Counters}
    (hFirst : ∃ r, x c = .ok r) (hNext : ∀ a c, ∃ r, f a c = .ok r) : ∃ r, (x >>= f) c = .ok r := by
  obtain ⟨r, hFirst⟩ := hFirst
  obtain ⟨r', hNext⟩ := hNext r.value r.counters
  change ∃ r, Emit.andThen x f c = .ok r
  unfold Emit.andThen
  rw [hFirst]
  simp only [hNext]
  exact ⟨_, rfl⟩

/-
  The eightbytes of a record are classified by the scalars that
  have bytes in them.  Those of a small record that go in
  vector registers have four or eight bytes left in it, so a
  parameter of its type can always be stored.
-/
theorem eightbytes_classified (hNatural : t.Natural rs)
    (hShort : ∀ s o, t.Holds rs 0 s o → s.plain ≠ .ldouble) :
    (∀ k : Nat, Eightbyte.isVector rs t k = true ↔ ∀ s o, t.Holds rs 0 s o → o < 8 * k + 8 →
        8 * k < o + s.size rs → s.Floats) ∧
    (t.isRecord = true → 0 < t.size rs → t.size rs ≤ 16 → (∀ k : Nat, k ≤ 1 → 8 * k < t.size rs →
        Eightbyte.isVector rs t k = true →
          min 8 (t.size rs - 8 * k) = 4 ∨ min 8 (t.size rs - 8 * k) = 8) ∧
      ∀ u offset c, ∃ r, spillParam rs u t offset c = .ok r) := by
  refine ⟨Eightbyte.isVector_iff_meets hNatural hShort, ?_⟩
  intro hRecord hSome hSmall
  obtain ⟨hFirst, hSecond⟩ := tails_of_natural hNatural hSome hSmall
  refine ⟨?_, ?_⟩
  · intro k hk hLong hVector
    obtain rfl | rfl : k = 0 ∨ k = 1 := by omega
    · have hSize := hFirst hVector
      omega
    · have hSize := hSecond (by omega) hVector
      omega
  · intro u offset c
    obtain ⟨id, hPlain⟩ : ∃ id, t.plain = .record id := by
      unfold CType.isRecord at hRecord
      split at hRecord
      · exact ⟨_, by assumption⟩
      · cases hRecord
    unfold spillParam ArgClass.of
    simp only [hPlain]
    refine bind_succeeds (spillNext_succeeds (fun hVector => ?_) _ _ _) ?_
    · have hSize := hFirst hVector
      omega
    · intro u c
      split
      · refine spillNext_succeeds (fun hVector => ?_) _ _ _
        have hSize := hSecond (by omega) hVector
        omega
      · exact ⟨_, rfl⟩

/- Two `float` members, and an `int` behind them. -/
theorem eightbytes_classified_mixed :
    (CType.record 0).isRecord = true ∧ (CType.record 0).size #[floatsAndInt.laidOut #[]] = 12 ∧
      (∀ s o, (CType.record 0).Holds #[floatsAndInt.laidOut #[]] 0 s o → s.plain ≠ .ldouble) ∧
      (∀ k : Nat, Eightbyte.isVector #[floatsAndInt.laidOut #[]] (.record 0) k = true ↔
        ∀ s o, (CType.record 0).Holds #[floatsAndInt.laidOut #[]] 0 s o → o < 8 * k + 8 →
            8 * k < o + s.size #[floatsAndInt.laidOut #[]] → s.Floats) ∧
      ∀ u offset c, ∃ r, spillParam #[floatsAndInt.laidOut #[]] u (.record 0) offset c = .ok r := by
  have hShort : ∀ s o, (CType.record 0).Holds #[floatsAndInt.laidOut #[]] 0 s o →
        s.plain ≠ .ldouble := by
    intro s o hHolds
    cases hHolds with
    | here hScalar => exact absurd rfl hScalar.not_record
    | element hPlain => cases hPlain
    | @member _ _ _ _ _ m hPlain hMem hMember =>
      cases hPlain
      have hPlaced : (Records.entry #[floatsAndInt.laidOut #[]]
          0).members.map Member.type = [.float, .float, .int] := rfl
      have hType := List.mem_map_of_mem (f := Member.type) hMem
      rw [hPlaced] at hType
      simp only [List.mem_cons, List.not_mem_nil, or_false] at hType
      have hScalar : m.type.IsScalar := by
        rcases hType with h | h | h <;> rw [h]
        · exact .inr (.inl rfl)
        · exact .inr (.inl rfl)
        · exact .inl rfl
      rw [(hScalar.holds hMember).1]
      rcases hType with h | h | h <;> rw [h] <;> nofun
  obtain ⟨hClasses, hStored⟩ := eightbytes_classified natural_floatsAndInt hShort
  have hSize : (CType.record 0).size #[floatsAndInt.laidOut #[]] = 12 := by decide +kernel
  obtain ⟨-, hSpilled⟩ := hStored rfl (by omega) (by omega)
  exact ⟨rfl, hSize, hShort, hClasses, hSpilled⟩

/-
  struct { char c[5];
    struct { _Alignas(1152921504606846976) int i; } b; }
-/
def straddling : Records :=
  let inner := (Record.unplaced 1 [.unplaced .int (2 ^ 60)]).laidOut #[]
  #[inner, (Record.unplaced 1 [.unplaced (.array 0 .char 5 5 1) 1,
      { Member.unplaced (.record 0) (2 ^ 60) with index := 1 }
      ]).laidOut #[inner]]

/- struct { char a[-3][-3]; struct { } e; } -/
def negative : Records :=
  let inner := (Record.unplaced 1 []).laidOut #[]
  #[inner, (Record.unplaced 1
      [.unplaced (.array 1 (.array 0 .char (-3) (-3) 1) (-3) 9 1) 1,
        { Member.unplaced (.record 0) 1 with index := 1 }
      ]).laidOut #[inner]]

/-
  Records that are not packed, with alignments that are powers
  of two and not below those of types.
-/
def PowerAligned (rs : Records) : Prop :=
  ∀ r ∈ rs.toList, r.packed = false ∧ (∃ k < 61, r.align = 2 ^ k) ∧
    ∀ m ∈ r.members, (∃ k < 61, m.align = 2 ^ k) ∧
      m.type.align rs ≤ m.align

instance  (rs : Records) : Decidable (PowerAligned rs) := by
  unfold PowerAligned
  infer_instance

/- The number of the first record starts behind the five bytes. -/
theorem holds_straddling : (CType.record 1).Holds straddling 0 .int 5 := by
  have hOuter : (straddling.entry 1).members = [.unplaced (.array 0 .char 5 5 1) 1,
        { Member.unplaced (.record 0) (2 ^ 60) with
          index := 1, offset := 5 }] := rfl
  have hInner : (straddling.entry 0).members = [.unplaced .int (2 ^ 60)] := rfl
  refine .member rfl (hOuter ▸ List.mem_cons_of_mem _ List.mem_cons_self) ?_
  refine .member rfl (hInner ▸ List.mem_cons_self) ?_
  exact .here (.inl rfl)

/- A record of nine bytes whose last one goes in a vector register. -/
theorem spillParam_fails {id : Nat} (hSize : (CType.record id).size rs = 9)
    (hVector : Eightbyte.isVector rs (.record id) 1 = true) (u : RegisterUse) (offset : Int)
    (c : Counters) : spillParam rs u (.record id) offset c = .error .internal := by
  obtain ⟨r, hFirst⟩ := spillNext_succeeds
    (v := Eightbyte.isVector rs (.record id) 0) (fun _ => .inr rfl)
    u offset c
  unfold spillParam ArgClass.of
  simp only [CType.plain, hSize, hVector]
  change Emit.andThen (spillNext u _ offset 8) _ c = _
  unfold Emit.andThen
  rw [hFirst]
  rfl

/-
  The counter of bits forgets an alignment of 2^60 bytes, so
  that a number crosses into the second eightbyte and is not
  seen there.  Arrays of negative lengths take up bytes in which
  there is no scalar.  Either way one byte is left in an
  eightbyte that goes in a vector register.
-/
theorem eightbytes_misclassified :
    PowerAligned straddling ∧ (CType.record 1).size straddling = 9 ∧
    (CType.record 1).Holds straddling 0 .int 5 ∧
    CType.int.size straddling = 4 ∧ ¬ CType.int.Floats ∧
    Eightbyte.isVector straddling (.record 1) 1 = true ∧
    (∀ u offset c, spillParam straddling u (.record 1) offset c = .error .internal) ∧
    PowerAligned negative ∧ (CType.record 1).size negative = 9 ∧
    ∀ u offset c, spillParam negative u (.record 1) offset c = .error .internal := by
  have hStraddling : (CType.record 1).size straddling = 9 ∧
      Eightbyte.isVector straddling (.record 1) 1 = true := by
    decide +kernel
  have hNegative : (CType.record 1).size negative = 9 ∧
      Eightbyte.isVector negative (.record 1) 1 = true := by
    decide +kernel
  refine ⟨by decide +kernel, hStraddling.1, holds_straddling, rfl, ?_,
    hStraddling.2, spillParam_fails hStraddling.1 hStraddling.2,
    by decide +kernel, hNegative.1,
    spillParam_fails hNegative.1 hNegative.2⟩
  rintro (h | h) <;> cases h

end Codegen

end CCompiler
