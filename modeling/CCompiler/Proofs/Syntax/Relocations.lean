import Mathlib
import CCompiler.Proofs.Syntax.GlobalDeclarations
import CCompiler.Proofs.Syntax.ImageBits
import CCompiler.Proofs.Syntax.Leaves

/-
  The addresses in the data of an object.  Where the parts of
  an object have room one behind the other, each address
  stands at a scalar of its own, and they are in order.

  Main declarations:
    * `InitialValue.Spaced`, `InitialValue.Fits.spaced`
    * `InitialValue.Addresses`
    * `InitialValue.quiet_fill_addresses`
    * `Obj.FilledFrom.relocs`
-/

------------
-- Room for Parts
------------

namespace CCompiler

namespace InitialValue

/-
  The parts of an object that a tree gives values have room.
  The elements of an array and the members of a structure
  that are not bit-fields lie one behind the other inside of
  it, and so does the member named for a union.
-/
inductive Spaced (rs : Records) : CType → Init → Prop
| scalar {t : CType} {init : Init}
    (hArray : t.isArray = false)
    (hRecord : t.record? rs = none) :
    Spaced rs t init
| array {t base : CType} {id : Nat} {n align : Int} {init : Init}
    (hPlain : t.plain = .array id base n (base.size rs * n) align)
    (hBase : 0 ≤ base.size rs)
    (hElements : ∀ c ∈ init.children.toList, Spaced rs base c) :
    Spaced rs t init
| struct {t : CType} {r : Record} {init : Init}
    (hRecord : t.record? rs = some r)
    (hStruct : r.isUnion = false)
    (hInside : ∀ m ∈ r.members, m.bits? = none →
      0 ≤ m.offset ∧ m.offset + m.type.size rs ≤ r.size)
    (hSizes : ∀ m ∈ r.members, m.bits? = none → 0 ≤ m.type.size rs)
    (hOrdered : r.members.Pairwise fun m n => m.bits? = none →
      n.bits? = none → m.offset + m.type.size rs ≤ n.offset)
    (hFields : ∀ p ∈ r.members.zip init.children.toList,
      p.1.bits? = none → Spaced rs p.1.type p.2) :
    Spaced rs t init
| union {t : CType} {r : Record} {init : Init}
    (hRecord : t.record? rs = some r)
    (hUnion : r.isUnion = true)
    (hRoom : ∀ m, init.member? = some m → m.type.size rs ≤ r.size)
    (hValue : ∀ m c, init.member? = some m →
      init.children.toList[m.index]? = some c → Spaced rs m.type c) :
    Spaced rs t init

variable {rs : Records} {t : CType} {r : Record} {init : Init}

------------
-- Places of Addresses
------------

/- Scalars with values between two bytes, one behind the other. -/
structure Row
    (rs : Records)
    (first last : Int)
    (ls : List Leaf) : Prop where
  plain : ∀ l ∈ ls, l.bits? = none ∧ l.expr?.isSome
  inside : ∀ l ∈ ls,
    first ≤ l.offset ∧ l.offset + l.type.size rs ≤ last
  ordered : ls.Pairwise fun a b => a.offset + a.type.size rs ≤ b.offset

variable {first middle last start stop : Int} {ls ms : List Leaf}

theorem row_nil : Row rs first last [] := ⟨by simp, by simp, List.Pairwise.nil⟩

theorem Row.mono (hRow : Row rs start stop ls) (hFirst : first ≤ start) (hLast : stop ≤ last) :
    Row rs first last ls :=
  ⟨hRow.plain, fun l hl => by
    obtain ⟨hLow, hHigh⟩ := hRow.inside l hl
    exact ⟨hFirst.trans hLow, hHigh.trans hLast⟩, hRow.ordered⟩

/- Scalars before a byte and scalars from there on. -/
theorem Row.append (hRow : Row rs first middle ls) (hRest : Row rs middle last ms)
    (hFirst : first ≤ middle) (hLast : middle ≤ last) : Row rs first last (ls ++ ms) := by
  refine ⟨List.forall_mem_append.mpr ⟨hRow.plain, hRest.plain⟩,
    List.forall_mem_append.mpr ⟨(hRow.mono le_rfl hLast).inside, (hRest.mono hFirst le_rfl).inside⟩,
    List.pairwise_append.mpr ⟨hRow.ordered, hRest.ordered, ?_⟩⟩
  intro a ha b hb
  exact (hRow.inside a ha).2.trans (hRest.inside b hb).1

/-
  Data have got addresses between two bytes, each at one of
  the leaves, and are as long as before.
-/
structure Addresses
    (rs : Records)
    (first last : Int)
    (all : List Leaf)
    (i j : Image) : Prop where
  size : j.bytes.size = i.bytes.size
  relocs : ∃ (new : List Relocation) (ls : List Leaf),
    j.relocs.toList = i.relocs.toList ++ new ∧
    new.map (·.offset) = ls.map (·.offset) ∧
    ls.Sublist all ∧ Row rs first last ls

variable {i j k : Image} {all more : List Leaf}

/- Data that have got no address. -/
theorem addresses_of_eq (hSize : j.bytes.size = i.bytes.size) (hRelocs : j.relocs = i.relocs) :
    Addresses rs first last all i j :=
  ⟨hSize, [], [], by rw [hRelocs, List.append_nil], rfl, List.nil_sublist _, row_nil⟩

theorem Addresses.mono (hAddresses : Addresses rs start stop all i j) (hFirst : first ≤ start)
    (hLast : stop ≤ last) : Addresses rs first last all i j := by
  obtain ⟨hSize, new, ls, hNew, hPlaces, hSub, hRow⟩ := hAddresses
  exact ⟨hSize, new, ls, hNew, hPlaces, hSub, hRow.mono hFirst hLast⟩

theorem Addresses.append (hAddresses : Addresses rs first middle all i j)
    (hRest : Addresses rs middle last more j k) (hFirst : first ≤ middle) (hLast : middle ≤ last) :
    Addresses rs first last (all ++ more) i k := by
  obtain ⟨hSize, new, ls, hNew, hPlaces, hSub, hRow⟩ := hAddresses
  obtain ⟨hSize', new', ls', hNew', hPlaces', hSub', hRow'⟩ := hRest
  exact ⟨hSize'.trans hSize, new ++ new', ls ++ ls', by
    rw [hNew', hNew, List.append_assoc], by
    rw [List.map_append, List.map_append, hPlaces, hPlaces'],
    hSub.append hSub', hRow.append hRow' hFirst hLast⟩

------------
-- Filling in
------------

open Parse

/- Writing bytes is not about addresses. -/
theorem quiet_writeBytes (i : Image) (offset : Int) (bs : Bytes) :
    Quiet (accessed (i.writeBytes? offset bs))
      fun j => j.bytes.size = i.bytes.size ∧ j.relocs = i.relocs := by
  unfold Image.writeBytes?
  by_cases hFits : 0 ≤ offset ∧ offset + bs.length ≤ i.bytes.size
  · rw [if_pos hFits]
    exact quiet_pure ⟨Image.size_foldl_write .., rfl⟩
  · rw [if_neg hFits]
    exact quiet_throw _

/- A scalar gets an address at its place or none at all. -/
theorem quiet_fillScalar_addresses (t : CType) (e : Expr) (offset : Int) (i : Image) :
    Quiet (fillScalar rs t e offset i) (Addresses rs offset (offset + t.size rs)
        [{ type := t, offset := offset, expr? := some e }] i) := by
  have hWrite : ∀ bs, Quiet (accessed (i.writeBytes? offset bs))
      (Addresses rs offset (offset + t.size rs)
        [{ type := t, offset := offset, expr? := some e }] i) :=
    fun bs => (quiet_writeBytes i offset bs).mono
      fun j ⟨hSize, hRelocs⟩ => addresses_of_eq hSize hRelocs
  unfold fillScalar
  split
  · exact quiet_after fun _ => hWrite _
  · exact quiet_after fun _ => hWrite _
  · exact quiet_after fun _ => hWrite _
  · refine quiet_after fun x => ?_
    obtain ⟨v, symbol?⟩ := x
    cases symbol? with
    | none => exact hWrite _
    | some target =>
      refine quiet_pure ⟨rfl, [⟨offset, target, v⟩], _,
        Array.toList_push, rfl, List.Sublist.refl _, ?_⟩
      exact ⟨by simp, by simp, List.pairwise_singleton _ _⟩

theorem quiet_fillBits_addresses (m : Member) (b : BitField) (c : Init) (offset : Int) (i : Image) :
    Quiet (fillBits rs m b c offset i)
      fun j => j.bytes.size = i.bytes.size ∧ j.relocs = i.relocs := by
  unfold fillBits
  split
  · exact quiet_pure ⟨rfl, rfl⟩
  · exact quiet_after fun _ =>
      quiet_after fun _ => quiet_writeBytes _ _ _

/- Filling in a tree puts addresses at leaves of the object. -/
def FillsIn (rs : Records) (t : CType) (c : Init) : Prop :=
  ∀ offset i, Quiet (fill rs offset t c i)
    (Addresses rs offset (offset + t.size rs) (leaves rs offset t c) i)

variable {cs : List Init}

theorem quiet_fillElements_addresses (hSize : 0 ≤ t.size rs)
    (hElements : ∀ c ∈ cs, FillsIn rs t c) (offset : Int) (left : Int) (i : Image) :
    Quiet (fillElements rs offset t left cs i) (Addresses rs offset (offset + t.size rs * left)
        (elementLeaves rs offset t cs) i) := by
  induction cs generalizing offset left i with
  | nil =>
    unfold fillElements
    exact quiet_pure (addresses_of_eq rfl rfl)
  | cons c cs ih =>
    unfold fillElements
    rw [elementLeaves]
    refine quiet_ite (fun hLeft => ?_) fun _ => quiet_pure (addresses_of_eq rfl rfl)
    refine (hElements c (by simp) offset i).bind fun j hFirst => ?_
    refine (ih (fun d hd => hElements d (List.mem_cons_of_mem _ hd))
      (offset + t.size rs) (left - 1) j).mono fun k hRest => ?_
    have hEnd : offset + t.size rs + t.size rs * (left - 1) = offset + t.size rs * left := by ring
    have hMore : 0 ≤ t.size rs * (left - 1) := Int.mul_nonneg hSize (by omega)
    rw [hEnd] at hRest
    exact hFirst.append hRest (by omega) (by omega)

theorem quiet_fillFields_addresses {ms : List Member} {base : Int}
    (hInside : ∀ m ∈ ms, m.bits? = none →
      base ≤ m.offset ∧ m.offset + m.type.size rs ≤ last)
    (hSizes : ∀ m ∈ ms, m.bits? = none → 0 ≤ m.type.size rs)
    (hOrdered : ms.Pairwise fun m n => m.bits? = none →
      n.bits? = none → m.offset + m.type.size rs ≤ n.offset)
    (hFields : ∀ p ∈ ms.zip cs, p.1.bits? = none → FillsIn rs p.1.type p.2) (offset : Int)
    (i : Image) :
    Quiet (fillFields rs offset ms cs i) (Addresses rs (offset + base) (offset + last)
        (fieldLeaves rs offset ms cs) i) := by
  induction ms generalizing cs base i with
  | nil =>
    rw [fillFields, fieldLeaves]
    · exact quiet_pure (addresses_of_eq rfl rfl)
    · simp
    · simp
  | cons m ms ih =>
    cases cs with
    | nil =>
      rw [fillFields, fieldLeaves]
      · exact quiet_pure (addresses_of_eq rfl rfl)
      · simp
      · simp
    | cons c cs =>
      obtain ⟨hFirst, hOthers⟩ := List.pairwise_cons.mp hOrdered
      have hRest := fun base' hFrom j => @ih cs base' hFrom
        (fun n hn => hSizes n (List.mem_cons_of_mem _ hn)) hOthers
        (fun p hp => hFields p (List.mem_cons_of_mem _ hp)) j
      rw [fillFields, fieldLeaves]
      cases hBits : m.bits? with
      | some b =>
        refine (quiet_fillBits_addresses m b c offset i).bind fun j hBits => ?_
        obtain ⟨hSize, hRelocs⟩ := hBits
        refine (hRest base (fun n hn =>
          hInside n (List.mem_cons_of_mem _ hn)) j).mono
          fun k hMore => ?_
        obtain ⟨hSize', new, ls, hNew, hPlaces, hSub, hRow⟩ := hMore
        exact ⟨hSize'.trans hSize, new, ls, by rw [hNew, hRelocs],
          hPlaces, hSub.trans (List.sublist_append_right _ _), hRow⟩
      | none =>
        obtain ⟨hLow, hHigh⟩ := hInside m (by simp) hBits
        have hSize := hSizes m (by simp) hBits
        refine (hFields (m, c) (by simp) hBits (offset + m.offset) i).bind fun j hOwn => ?_
        refine (hRest (m.offset + m.type.size rs) (fun n hn hNone =>
          ⟨hFirst n hn hBits hNone, (hInside n (List.mem_cons_of_mem _ hn) hNone).2⟩) j).mono
          fun k hMore => ?_
        have hStart : offset + base ≤ offset + m.offset := by omega
        refine (hOwn.mono hStart le_rfl).append ?_ ?_ ?_
        · rw [add_assoc]
          exact hMore
        · change offset + base ≤ offset + m.offset + m.type.size rs
          omega
        · change offset + m.offset + m.type.size rs ≤ offset + last
          omega

theorem quiet_fillField_addresses {n : Nat} (hField : ∀ c, cs[n]? = some c → FillsIn rs t c)
    (offset : Int) (i : Image) :
    Quiet (fillField rs offset t cs n i) (Addresses rs offset (offset + t.size rs)
        (chosenLeaves rs offset t cs n) i) := by
  induction cs generalizing n with
  | nil =>
    unfold fillField
    exact quiet_throw _
  | cons c cs ih =>
    cases n with
    | zero => exact hField c rfl offset i
    | succ n => exact ih hField

/- Addresses of an object whose parts have room. -/
theorem quiet_fill_addresses (hSpaced : Spaced rs t init) : FillsIn rs t init := by
  induction hSpaced with
  | @scalar t init hArray hRecord =>
    obtain ⟨type, isOpen, expr?, ⟨children⟩, member?⟩ := init
    intro offset i
    rw [fill.eq_def, leaves.eq_def]
    dsimp only
    simp only [hArray, CType.isStruct, CType.isUnion, hRecord, Bool.false_eq_true, if_false]
    cases expr? with
    | none => exact quiet_pure (addresses_of_eq rfl rfl)
    | some e => exact quiet_fillScalar_addresses t e offset i
  | @array t base id n align init hPlain hBase _ ih =>
    have hType : elementType t = base := by
      rw [elementType, CType.base?, hPlain]
      rfl
    have hArray : t.isArray = true := by rw [CType.isArray, hPlain]
    have hSize : t.size rs = base.size rs * n := by rw [CType.size, hPlain]
    have hLen : t.arrayLen = n := by rw [CType.arrayLen, hPlain]
    obtain ⟨type, isOpen, expr?, ⟨children⟩, member?⟩ := init
    intro offset i
    rw [fill.eq_def, leaves.eq_def]
    dsimp only
    rw [if_pos hArray, if_pos hArray, hType, hLen, hSize]
    exact quiet_fillElements_addresses hBase ih offset n i
  | @struct t r init hRecord hStruct hInside hSizes hOrdered _ ih =>
    obtain ⟨hArray, hIsStruct, -, hMembers, hSize⟩ := of_record hRecord
    obtain ⟨type, isOpen, expr?, ⟨children⟩, member?⟩ := init
    intro offset i
    rw [fill.eq_def, leaves.eq_def]
    dsimp only
    simp only [hArray, hIsStruct, hStruct, hMembers, hSize,
      Bool.false_eq_true, if_false, Bool.not_false, if_true]
    cases expr? with
    | some e => exact quiet_fail _ _
    | none =>
      have hAll := quiet_fillFields_addresses hInside hSizes hOrdered ih offset i
      rw [add_zero] at hAll
      exact hAll
  | @union t r init hRecord hUnion hRoom _ ih =>
    obtain ⟨hArray, hIsStruct, hIsUnion, -, hSize⟩ := of_record hRecord
    obtain ⟨type, isOpen, expr?, ⟨children⟩, member?⟩ := init
    intro offset i
    rw [fill.eq_def, leaves.eq_def]
    dsimp only
    simp only [hArray, hIsStruct, hIsUnion, hUnion, hSize,
      Bool.false_eq_true, if_false, Bool.not_true, if_true]
    cases member? with
    | none => exact quiet_pure (addresses_of_eq rfl rfl)
    | some m =>
      have hSmall := hRoom m rfl
      exact (quiet_fillField_addresses (fun c hc => ih m c rfl hc)
        offset i).mono fun j hOwn => hOwn.mono le_rfl (by omega)

end InitialValue

------------
-- Objects
------------

namespace Obj

open InitialValue

/-
  No address stands in a scalar that has no room for it: the
  scalars of an object that are given one have eight bytes.
-/
def WideTargets (rs : Records) (o : Obj) (tree : Init) : Prop :=
  ∀ l ∈ leaves rs 0 o.type tree, l.bits? = none → l.expr?.isSome →
    (∃ r ∈ o.relocs, r.offset = l.offset) → 8 ≤ l.type.size rs

/- Addresses of eight bytes between two bytes, one behind the other. -/
structure Slots (first last : Int) (relocs : List Relocation) : Prop where
  inside : ∀ r ∈ relocs, first ≤ r.offset ∧ r.offset + 8 ≤ last
  ordered : relocs.Pairwise fun a b => a.offset + 8 ≤ b.offset

variable {rs : Records} {o : Obj} {tree : Init} {data : Bytes}

/- The data of an object have its size. -/
theorem FilledFrom.length (hFilled : o.FilledFrom rs tree) (hSpaced : Spaced rs o.type tree)
    (hData : o.data? = some data) : (data.length : Int) = o.type.size rs := by
  obtain ⟨hSize, s, image, s', hFill, hBytes, -⟩ := hFilled
  obtain ⟨-, hLength, -⟩ := quiet_fill_addresses hSpaced 0 _ s image s' hFill
  cases hBytes.symm.trans hData
  rw [Array.length_toList, hLength]
  simp only [Image.zero, Array.size_replicate]
  omega

/- The addresses in an object have slots of their own. -/
theorem FilledFrom.slots (hFilled : o.FilledFrom rs tree) (hSpaced : Spaced rs o.type tree)
    (hWide : o.WideTargets rs tree) : Slots 0 (o.type.size rs) o.relocs := by
  obtain ⟨-, s, image, s', hFill, -, hRelocs⟩ := hFilled
  obtain ⟨-, -, new, ls, hNew, hPlaces, hSub, hRow⟩ :=
    quiet_fill_addresses hSpaced 0 _ s image s' hFill
  obtain rfl : o.relocs = new := by
    rw [hRelocs, hNew]
    rfl
  rw [zero_add] at hRow
  have hAll : ∀ l ∈ ls, 8 ≤ l.type.size rs := by
    intro l hl
    obtain ⟨hPlain, hValue⟩ := hRow.plain l hl
    refine hWide l (hSub.subset hl) hPlain hValue ?_
    have hPlace : l.offset ∈ o.relocs.map (·.offset) := by
      rw [hPlaces]
      exact List.mem_map_of_mem hl
    exact List.mem_map.mp hPlace
  have hOrdered : (ls.map (·.offset)).Pairwise (· + 8 ≤ ·) :=
    List.pairwise_map.mpr (hRow.ordered.imp_of_mem fun ha hb hBefore => by
        have hEight := hAll _ ha
        omega)
  rw [← hPlaces] at hOrdered
  refine ⟨fun r hr => ?_, List.pairwise_map.mp hOrdered⟩
  have hPlace : r.offset ∈ ls.map (·.offset) := by
    rw [← hPlaces]
    exact List.mem_map_of_mem hr
  obtain ⟨l, hl, hSame⟩ := List.mem_map.mp hPlace
  obtain ⟨hLow, hHigh⟩ := hRow.inside l hl
  have hEight := hAll l hl
  omega

end Obj

end CCompiler
