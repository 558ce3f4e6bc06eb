import Mathlib
import CCompiler.Proofs.Syntax.StructLayout
import CCompiler.Syntax.InitialValue

/-
  Complete types.  Records are laid out, arrays are as large
  as all of their elements, and the last member of an object
  may have got its length from the initializer.  In each of
  these the members have room.

  Main declarations:
    * `CType.Complete`, `CType.Settled`
    * `Record.Roomy`, `Record.Laid.roomy`
    * `Record.Roomy.extended`
-/

------------
-- Complete Types
------------

namespace CCompiler

/- A type of values that are neither arrays nor records. -/
def CType.IsScalar (t : CType) : Prop :=
  t.isInteger ∨ t.isFloating ∨ t.isPointer

/- The size of the largest of some members. -/
def Layout.widest (ms : List Layout.Shape) : Int :=
  ms.foldl (fun s m => max s m.size) 0

/- A union as it is declared, without bit-fields. -/
structure Record.DeclaredUnion
    (rs : Records)
    (r : Record) : Prop where
  union : r.isUnion = true
  power : ∃ k : Nat, r.align = 2 ^ k
  powers : ∀ m ∈ r.members, ∃ k : Nat, m.align = 2 ^ k
  ordinary : ∀ m ∈ r.members, m.bits? = none
  fits : roundUp
      (Layout.widest (r.members.map (Member.shape rs)))
      (Layout.alignOf r.align (r.members.map (Member.shape rs))) < wordEnd ∧
    Layout.alignOf r.align (r.members.map (Member.shape rs)) < wordEnd

/- A record that has been laid out as it is declared. -/
def Record.Laid (rs : Records) (r : Record) : Prop :=
  ∃ d : Record, r = d.laidOut rs ∧ (d.Declared rs ∨ d.DeclaredUnion rs)

/-
  A complete type.  The size of an array is that of all of
  its elements, and records are laid out.
-/
inductive CType.Complete (rs : Records) : CType → Prop
| scalar {t : CType}
    (hScalar : t.IsScalar) :
    Complete rs t
| array {t base : CType} {id : Nat} {n align : Int}
    (hPlain : t.plain = .array id base n (base.size rs * n) align)
    (hLength : 0 ≤ n)
    (hBase : Complete rs base) :
    Complete rs t
| record {t : CType} {r : Record}
    (hRecord : t.record? rs = some r)
    (hLaid : r.Laid rs)
    (hMembers : ∀ m ∈ r.members, m.bits? = none → Complete rs m.type) :
    Complete rs t

/-
  The type of an object that has its initializer: complete,
  or a record whose last member got its length from there.
-/
inductive CType.Settled (rs : Records) : CType → Prop
| complete {t : CType}
    (hComplete : t.Complete rs) :
    Settled rs t
| extended {t tail : CType} {r : Record} {ms : List Member}
    {last : Member}
    (hRecord : t.record? rs = some (Initializer.extended rs r tail))
    (hLaid : r.Laid rs)
    (hSplit : r.members = ms ++ [last])
    (hNumbered : r.members.map (·.index) = List.range r.members.length)
    (hLast : last.bits? = none)
    (hMembers : ∀ m ∈ r.members, m.bits? = none → m.type.Complete rs)
    (hTail : tail.Complete rs) :
    Settled rs t

/-
  Room for the members of a record.  Those of a structure
  follow one another, those of a union all start with it.
-/
structure Record.Roomy (rs : Records) (r : Record) : Prop where
  size : 0 ≤ r.size
  fields : r.isUnion = false → ∀ m ∈ r.members, ∀ b ∈ m.bits?,
    m.type.isInteger ∧ 0 ≤ m.offset ∧ 0 ≤ b.offset ∧ 0 ≤ b.width ∧
      b.offset + b.width ≤ 8 * m.type.size rs ∧
      (0 < b.width → m.offset + m.type.size rs ≤ r.size) ∧
      (b.width = 0 → m.offset = 0)
  ordinary : r.isUnion = false → ∀ m ∈ r.members,
    m.bits? = none → 0 ≤ m.offset ∧ m.offset + m.type.size rs ≤ r.size
  ordered : r.isUnion = false →
    r.members.Pairwise fun m n => ¬ m.IsBreak → ¬ n.IsBreak →
      m.bitStart + m.bitCount rs ≤ n.bitStart
  choices : r.isUnion = true → ∀ m ∈ r.members,
    m.bits? = none ∧ m.type.size rs ≤ r.size

variable {rs : Records} {r : Record} {m : Member}

/- What is declared of a member that has been placed. -/
theorem Record.Declared.exists_placed (hDeclared : r.Declared rs)
    (hMem : m ∈ (r.laidOut rs).members) : ∃ d ∈ r.members, d.Placed m := by
  obtain ⟨i, hLt, hGet⟩ := List.mem_iff_getElem.mp hMem
  have hAll := List.forall₂_iff_get.mp hDeclared.placed
  have hIn : i < r.members.length := by
    rw [hAll.1]
    exact hLt
  refine ⟨r.members[i], List.getElem_mem hIn, ?_⟩
  have hPlaced := hAll.2 i hIn hLt
  rw [List.get_eq_getElem, List.get_eq_getElem, hGet] at hPlaced
  exact hPlaced

theorem Record.Declared.roomy (hDeclared : r.Declared rs) : (r.laidOut rs).Roomy rs := by
  have hSound := hDeclared.sound
  have hStruct : (r.laidOut rs).isUnion = false := by simp [laidOut, hDeclared.struct]
  refine ⟨hSound.nonneg, fun _ m hm b hb => ?_,
    fun _ m hm hNone => ?_, fun _ => hSound.ordered, fun hUnion => ?_⟩
  · obtain ⟨d, hd, hPlaced⟩ := hDeclared.exists_placed hm
    have hProper := hDeclared.proper d hd
    obtain ⟨c, hc, hWidth⟩ : ∃ c ∈ d.bits?, c.width = b.width := by
      have hSame := hPlaced.width?
      rw [hb] at hSame
      exact Option.map_eq_some_iff.mp hSame.symm
    obtain ⟨hInt, hLow, -⟩ := hProper.field c hc
    rw [← hPlaced.type] at hInt
    rw [hWidth] at hLow
    obtain ⟨-, k, -, hSize⟩ := CType.size_of_isInteger rs hInt
    have hPos : 0 < m.type.size rs := by
      rw [hSize]
      positivity
    rcases hLow.eq_or_lt with hZero | hSome
    · obtain ⟨hOffset, hFirst⟩ := hSound.skipped m hm (by
        rw [Member.IsBreak, hb, Option.map_some, ← hZero])
      rw [hFirst b hb, hOffset, ← hZero]
      exact ⟨hInt, le_rfl, le_rfl, le_rfl, by omega,
        fun hNever => absurd hNever (by decide), fun _ => rfl⟩
    · obtain ⟨-, hFirst, hLast, hStart, hStop⟩ := hSound.units m hm b hb hSome
      exact ⟨hInt, hStart, hFirst, hLow, hLast, fun _ => hStop,
        fun hNever => absurd hNever hSome.ne.symm⟩
  · obtain ⟨hStart, hStop⟩ := hSound.inside m hm (by simp [Member.IsBreak, hNone])
    simp only [Member.bitStart, Member.bitCount, hNone,
      Option.map_none, Option.getD_none] at hStart hStop
    omega
  · rw [hStruct] at hUnion
    cases hUnion

theorem Record.DeclaredUnion.roomy (hDeclared : r.DeclaredUnion rs) : (r.laidOut rs).Roomy rs := by
  have hUnion : (r.laidOut rs).isUnion = true := by simp [laidOut, hDeclared.union]
  have hMembers : (r.laidOut rs).members = r.members := by simp [laidOut, hDeclared.union]
  obtain ⟨hFits, hSmall⟩ := hDeclared.fits
  have hLow : 0 ≤ Layout.widest (r.members.map (Member.shape rs)) := (Layout.le_foldl_max _ _ _).1
  have hSizes : ∀ m ∈ r.members.map (Member.shape rs),
      m.size ≤ Layout.widest (r.members.map (Member.shape rs)) :=
    (Layout.le_foldl_max _ _ _).2
  have hPowers : ∀ m ∈ r.members.map (Member.shape rs), ∃ k : Nat, m.align = 2 ^ k := by
    intro s hs
    obtain ⟨m, hm, rfl⟩ := List.mem_map.mp hs
    exact hDeclared.powers m hm
  obtain ⟨k, hk⟩ := Layout.alignOf_power hDeclared.power hPowers
  have hSize : (r.laidOut rs).size = roundUp (Layout.widest (r.members.map (Member.shape rs)))
        (Layout.alignOf r.align (r.members.map (Member.shape rs))) := by
    simp only [laidOut, hDeclared.union, if_true]
    rw [hk] at hFits hSmall ⊢
    rw [← alignUp_eq_roundUp hLow (by positivity) (pow_dvd_wordEnd hSmall) hFits, ← hk]
    rfl
  have hRoom : Layout.widest (r.members.map (Member.shape rs)) ≤ (r.laidOut rs).size := by
    rw [hSize]
    refine le_roundUp ?_
    rw [hk]
    positivity
  have hNever : (r.laidOut rs).isUnion ≠ false := by
    rw [hUnion]
    decide
  refine ⟨hLow.trans hRoom, fun h => absurd h hNever,
    fun h => absurd h hNever, fun h => absurd h hNever, fun _ m hm => ?_⟩
  rw [hMembers] at hm
  exact ⟨hDeclared.ordinary m hm, (hSizes _ (List.mem_map_of_mem hm)).trans hRoom⟩

theorem Record.Laid.roomy (hLaid : r.Laid rs) : r.Roomy rs := by
  obtain ⟨d, rfl, hStruct | hUnion⟩ := hLaid
  · exact hStruct.roomy
  · exact hUnion.roomy

/- The last member is the one whose type is replaced. -/
theorem Initializer.members_extended (rs : Records) (tail : CType) {ms : List Member}
    {last : Member} (hSplit : r.members = ms ++ [last])
    (hNumbered : r.members.map (·.index) = List.range r.members.length) :
    (extended rs r tail).members = ms ++ [{ last with type := tail }] := by
  rw [hSplit, List.length_append, List.length_singleton,
    List.range_succ, List.map_append] at hNumbered
  obtain ⟨hFirst, hLast⟩ := List.append_inj hNumbered (by simp)
  have hOthers : ∀ m ∈ ms, m.index ≠ ms.length := by
    intro m hm hEq
    have hIn : m.index ∈ List.range ms.length := by
      rw [← hFirst]
      exact List.mem_map_of_mem hm
    rw [hEq] at hIn
    simp at hIn
  have hIndex : last.index = ms.length := by simpa using hLast
  simp only [extended, hSplit, List.map_append, List.length_append,
    List.length_singleton, Nat.add_sub_cancel, List.map_cons,
    List.map_nil, hIndex, beq_self_eq_true, if_true]
  congr 1
  calc ms.map (fun m => if m.index == ms.length then
          { m with type := tail } else m)
      = ms.map id := List.map_congr_left fun m hm => by simp [hOthers m hm]
    _ = ms := List.map_id ms

/- A longer last member finds its room behind the others. -/
theorem Record.Roomy.extended {tail : CType} {ms : List Member} {last : Member}
    (hRoomy : r.Roomy rs) (hSplit : r.members = ms ++ [last])
    (hNumbered : r.members.map (·.index) = List.range r.members.length)
    (hLast : last.bits? = none) (hShort : 0 ≤ last.type.size rs) (hTail : 0 ≤ tail.size rs) :
    (Initializer.extended rs r tail).Roomy rs := by
  have hMembers := Initializer.members_extended rs tail hSplit hNumbered
  have hSize : (Initializer.extended rs r tail).size = r.size + tail.size rs := rfl
  have hKind : (Initializer.extended rs r tail).isUnion = r.isUnion := rfl
  have hOld : ∀ m ∈ ms, m ∈ r.members := fun m hm => by
    rw [hSplit]
    exact List.mem_append_left _ hm
  have hEnd : last ∈ r.members := by
    rw [hSplit]
    exact List.mem_append_right _ (by simp)
  have hSizes := hRoomy.size
  refine ⟨by omega, fun hStruct => ?_, fun hStruct => ?_, fun hStruct => ?_, fun hUnion => ?_⟩
  · rw [hMembers]
    refine List.forall_mem_append.mpr ⟨fun m hm b hb => ?_, ?_⟩
    · obtain ⟨hInt, hStart, hFirst, hLow, hHigh, hUnit, hSkip⟩ :=
        hRoomy.fields hStruct m (hOld m hm) b hb
      refine ⟨hInt, hStart, hFirst, hLow, hHigh, fun hSome => ?_, hSkip⟩
      have hOwn := hUnit hSome
      omega
    · simp [hLast]
  · rw [hMembers]
    refine List.forall_mem_append.mpr ⟨fun m hm hNone => ?_, ?_⟩
    · have hOwn := hRoomy.ordinary hStruct m (hOld m hm) hNone
      omega
    · have hOwn := hRoomy.ordinary hStruct last hEnd hLast
      simp only [List.mem_singleton, forall_eq]
      intro _
      omega
  · have hOrdered := hRoomy.ordered hStruct
    rw [hSplit] at hOrdered
    rw [hMembers]
    rw [List.pairwise_append] at hOrdered ⊢
    obtain ⟨hFirst, -, hCross⟩ := hOrdered
    refine ⟨hFirst, by simp, fun m hm n hn => ?_⟩
    rw [List.mem_singleton.mp hn]
    exact hCross m hm last (by simp)
  · rw [hMembers]
    refine List.forall_mem_append.mpr ⟨fun m hm => ?_, ?_⟩
    · obtain ⟨hNone, hOwn⟩ := hRoomy.choices hUnion m (hOld m hm)
      exact ⟨hNone, by omega⟩
    · simp only [List.mem_singleton, forall_eq]
      exact ⟨hLast, by omega⟩

end CCompiler
