import Mathlib
import CCompiler.Proofs.Syntax.CompleteTypes

/-
  The leaves of an initializer: the scalars and bit-fields of
  an object, each with its place and the value it is given.
  In an object of a complete type they are inside the object
  and apart from one another.

  Main declarations:
    * `Leaf`, `InitialValue.leaves`
    * `InitialValue.Fits`
    * `InitialValue.Fits.byLeaves`
    * `InitialValue.Fits.tiled`
-/

------------
-- Leaves
------------

namespace CCompiler

/-
  A scalar or bit-field of an object: its place, and what it
  is given.  For a bit-field the place is that of its unit.
-/
structure Leaf where
  type : CType
  offset : Int
  bits? : Option BitField := none
  expr? : Option Expr
deriving Inhabited

namespace Leaf

/- The first bit of a leaf. -/
def first (l : Leaf) : Int :=
  8 * l.offset + (l.bits?.map (·.offset)).getD 0

/- The number of bits of a leaf. -/
def width (rs : Records) (l : Leaf) : Int :=
  (l.bits?.map (·.width)).getD (8 * l.type.size rs)

/- Whether a bit of the object belongs to a leaf. -/
def Covers (rs : Records) (l : Leaf) (k : Nat) : Prop :=
  l.first ≤ k ∧ k < l.first + l.width rs

instance  (rs : Records) (l : Leaf) (k : Nat) : Decidable (l.Covers rs k) :=
  inferInstanceAs (Decidable (_ ∧ _))

/- Write the value of a leaf, if it has one. -/
def write (rs : Records) (i : Image) (l : Leaf) : Parse Image := do
  match l.expr?, l.bits? with
  | none, _ => return i
  | some e, none => InitialValue.fillScalar rs l.type e l.offset i
  | some e, some b =>
    let size := (l.type.size rs).toNat
    let unit ← InitialValue.accessed (i.readWord? l.offset size)
    let v ← Constant.evalInt e
    InitialValue.accessed (i.writeWord? l.offset size
      (Image.addBits unit b v.toUInt64))

end Leaf

variable {cs : List Init} {ms : List Member} {n : Nat}

namespace InitialValue

mutual

/-
  The leaves of an object of a type at an offset, in order.
  Of a union they are those of the member that has a value.
-/
def leaves (rs : Records) (offset : Int) : CType → Init → List Leaf
| type, .mk _ _ expr? ⟨children⟩ member? =>
  if type.isArray then
    elementLeaves rs offset (elementType type) children
  else if type.isStruct rs then
    fieldLeaves rs offset (type.members rs) children
  else if type.isUnion rs then
    match member? with
    | none => []
    | some m => chosenLeaves rs offset m.type children m.index
  else [{ type := type, offset := offset, expr? := expr? }]

/- The leaves of elements that follow one another. -/
def elementLeaves (rs : Records) (offset : Int) (type : CType) :
    List Init → List Leaf
| [] => []
| c :: cs =>
  leaves rs offset type c ++ elementLeaves rs (offset + type.size rs) type cs

/- The leaves of the members of a structure. -/
def fieldLeaves (rs : Records) (offset : Int) :
    List Member → List Init → List Leaf
| m :: ms, c :: cs =>
  (match m.bits? with
    | some b => [⟨m.type, offset + m.offset, some b, c.expr?⟩]
    | none => leaves rs (offset + m.offset) m.type c) ++
    fieldLeaves rs offset ms cs
| _, _ => []

/- The leaves of the member of a number. -/
def chosenLeaves (rs : Records) (offset : Int) (type : CType) :
    List Init → Nat → List Leaf
| [], _ => []
| c :: _, 0 => leaves rs offset type c
| _ :: cs, n + 1 => chosenLeaves rs offset type cs n

end

/-
  A tree that fits a type: there is a child for every element
  or member, a structure is given no value as a whole, and the
  member named for a union is one of it.  A bit-field of width
  zero is given a value only where there is a unit for it.
-/
inductive Fits (rs : Records) : CType → Init → Prop
| scalar {t : CType} {init : Init}
    (hScalar : t.IsScalar) :
    Fits rs t init
| array {t : CType} {init : Init}
    (hArray : t.isArray)
    (hLength : (init.children.size : Int) = t.arrayLen)
    (hElements : ∀ c ∈ init.children.toList, Fits rs (elementType t) c) :
    Fits rs t init
| struct {t : CType} {r : Record} {init : Init}
    (hRecord : t.record? rs = some r)
    (hStruct : r.isUnion = false)
    (hExpr : init.expr? = none)
    (hLength : init.children.size = r.members.length)
    (hFields : ∀ p ∈ r.members.zip init.children.toList,
      p.1.bits? = none → Fits rs p.1.type p.2)
    (hBreaks : ∀ p ∈ r.members.zip init.children.toList,
      p.1.IsBreak → p.2.expr? = none ∨ p.1.type.size rs ≤ r.size) :
    Fits rs t init
| blank {t : CType} {r : Record} {init : Init}
    (hRecord : t.record? rs = some r)
    (hUnion : r.isUnion = true)
    (hMember : init.member? = none) :
    Fits rs t init
| union {t : CType} {r : Record} {init c : Init} {m : Member}
    (hRecord : t.record? rs = some r)
    (hUnion : r.isUnion = true)
    (hMember : init.member? = some m)
    (hMem : m ∈ r.members)
    (hChild : init.children.toList[m.index]? = some c)
    (hValue : Fits rs m.type c) :
    Fits rs t init

------------
-- Writing by Leaves
------------

variable {rs : Records} {t : CType} {r : Record} {init : Init}

theorem not_aggregate (rs : Records) (hScalar : t.IsScalar) :
    t.isArray = false ∧ t.isStruct rs = false ∧ t.isUnion rs = false := by
  have hPlain : t.isArray = false ∧ t.recordId? = none := by
    unfold CType.IsScalar CType.isInteger CType.isFloating CType.isPointer at hScalar
    unfold CType.isArray CType.recordId?
    cases hType : t.plain <;> simp_all
  simp [CType.isStruct, CType.isUnion, CType.record?, hPlain]

/- What the record of a type tells. -/
theorem of_record (hRecord : t.record? rs = some r) :
    t.isArray = false ∧ t.isStruct rs = !r.isUnion ∧
      t.isUnion rs = r.isUnion ∧ t.members rs = r.members ∧
      t.size rs = r.size := by
  have hPlain : t.isArray = false ∧ t.size rs = r.size := by
    obtain ⟨id, hId, rfl⟩ := Option.map_eq_some_iff.mp hRecord
    unfold CType.recordId? at hId
    unfold CType.isArray CType.size
    split at hId
    · rename_i hType
      cases hId
      simp [hType]
    · cases hId
  simp [CType.isStruct, CType.isUnion, CType.members, hRecord, hPlain]

/- Writing an object is writing its leaves. -/
def ByLeaves (rs : Records) (t : CType) (init : Init) : Prop :=
  ∀ offset i, fill rs offset t init i =
    (leaves rs offset t init).foldlM (Leaf.write rs) i

theorem fillElements_eq {left : Int} (hElements : ∀ c ∈ cs, ByLeaves rs t c)
    (hLength : cs.length = left) (offset : Int) (i : Image) :
    fillElements rs offset t left cs i =
      (elementLeaves rs offset t cs).foldlM (Leaf.write rs) i := by
  induction cs generalizing offset i left with
  | nil => simp [fillElements, elementLeaves]
  | cons c cs ih =>
    rw [List.length_cons] at hLength
    rw [fillElements, elementLeaves, List.foldlM_append,
      if_pos (by omega), hElements c (by simp) offset i]
    congr 1
    funext i
    exact ih (fun d hd => hElements d (List.mem_cons_of_mem _ hd)) (by omega) _ _

theorem fillBits_eq (m : Member) (b : BitField) (c : Init) (offset : Int) (i : Image) :
    fillBits rs m b c offset i = Leaf.write rs i ⟨m.type, offset + m.offset, some b, c.expr?⟩ := by
  unfold fillBits Leaf.write
  cases c.expr? <;> rfl

theorem fillFields_eq (hFields : ∀ p ∈ ms.zip cs, p.1.bits? = none → ByLeaves rs p.1.type p.2)
    (offset : Int) (i : Image) :
    fillFields rs offset ms cs i = (fieldLeaves rs offset ms cs).foldlM (Leaf.write rs) i := by
  induction ms generalizing cs i with
  | nil => simp [fillFields, fieldLeaves]
  | cons m ms ih =>
    cases cs with
    | nil => simp [fillFields, fieldLeaves]
    | cons c cs =>
      have hRest := @ih cs fun p hp => hFields p (List.mem_cons_of_mem _ hp)
      rw [fillFields, fieldLeaves, List.foldlM_append]
      cases hBits : m.bits? with
      | some b => simp only [List.foldlM_cons, List.foldlM_nil, bind_pure, ← fillBits_eq, hRest]
      | none =>
        have hOwn := hFields (m, c) (by simp) hBits (offset + m.offset) i
        simp only [hRest]
        rw [← hOwn]

theorem fillField_eq {c : Init} (hChild : cs[n]? = some c) (hValue : ByLeaves rs t c)
    (offset : Int) (i : Image) :
    fillField rs offset t cs n i = (chosenLeaves rs offset t cs n).foldlM (Leaf.write rs) i := by
  induction cs generalizing n with
  | nil => cases hChild
  | cons d cs ih =>
    cases n with
    | zero =>
      cases hChild
      exact hValue offset i
    | succ n => exact ih hChild

theorem Fits.byLeaves (hFits : Fits rs t init) : ByLeaves rs t init := by
  induction hFits with
  | @scalar t init hScalar =>
    obtain ⟨hArray, hStruct, hUnion⟩ := not_aggregate rs hScalar
    obtain ⟨type, isOpen, expr?, ⟨children⟩, member?⟩ := init
    intro offset i
    rw [fill.eq_def, leaves.eq_def]
    dsimp only
    simp only [hArray, hStruct, hUnion, Bool.false_eq_true,
      if_false, List.foldlM_cons, List.foldlM_nil, bind_pure]
    cases expr? <;> rfl
  | @array t init hArray hLength _ ih =>
    obtain ⟨type, isOpen, expr?, ⟨children⟩, member?⟩ := init
    intro offset i
    rw [fill.eq_def, leaves.eq_def]
    dsimp only
    rw [if_pos hArray, if_pos hArray]
    exact fillElements_eq ih hLength offset i
  | @struct t r init hRecord hStruct hExpr _ _ _ ih =>
    obtain ⟨hArray, hIsStruct, -, hMembers, -⟩ := of_record hRecord
    obtain ⟨type, isOpen, expr?, ⟨children⟩, member?⟩ := init
    cases hExpr
    intro offset i
    rw [fill.eq_def, leaves.eq_def]
    dsimp only
    simp only [hArray, hIsStruct, hStruct, hMembers,
      Bool.false_eq_true, if_false, Bool.not_false, if_true]
    exact fillFields_eq ih offset i
  | @blank t r init hRecord hUnion hMember =>
    obtain ⟨hArray, hStruct, hIsUnion, -, -⟩ := of_record hRecord
    obtain ⟨type, isOpen, expr?, ⟨children⟩, member?⟩ := init
    cases hMember
    intro offset i
    rw [fill.eq_def, leaves.eq_def]
    dsimp only
    simp [hArray, hStruct, hIsUnion, hUnion]
  | @union t r init c m hRecord hUnion hMember _ hChild _ ih =>
    obtain ⟨hArray, hStruct, hIsUnion, -, -⟩ := of_record hRecord
    obtain ⟨type, isOpen, expr?, ⟨children⟩, member?⟩ := init
    cases hMember
    intro offset i
    rw [fill.eq_def, leaves.eq_def]
    dsimp only
    simp only [hArray, hStruct, hIsUnion, hUnion,
      Bool.false_eq_true, if_false, Bool.not_true, if_true]
    exact fillField_eq hChild ih offset i

end InitialValue

------------
-- Leaves Apart
------------

/-
  A leaf between two bytes of an object.  The whole unit of a
  bit-field is there if it has bits or a value.
-/
structure Leaf.Stored
    (rs : Records)
    (start stop : Int)
    (l : Leaf) : Prop where
  scalar : l.type.IsScalar
  field : ∀ b ∈ l.bits?, l.type.isInteger ∧ 0 ≤ b.offset ∧
    0 ≤ b.width ∧ b.offset + b.width ≤ 8 * l.type.size rs
  unit : l.expr?.isSome ∨ 0 < l.width rs →
    start ≤ l.offset ∧ l.offset + l.type.size rs ≤ stop

/- Leaves between two bytes that share no bit. -/
structure Tiled
    (rs : Records)
    (start stop : Int)
    (ls : List Leaf) : Prop where
  stored : ∀ l ∈ ls, l.Stored rs start stop
  apart : ls.Pairwise fun a b =>
    ∀ k, a.Covers rs k → ¬ b.Covers rs k

variable {rs : Records} {start stop first last : Int} {l : Leaf}
  {ls : List Leaf} {k : Nat}

theorem Leaf.Stored.mono (hStored : l.Stored rs start stop) (hStart : first ≤ start)
    (hStop : stop ≤ last) : l.Stored rs first last := by
  refine ⟨hStored.scalar, hStored.field, fun hSome => ?_⟩
  obtain ⟨hLow, hHigh⟩ := hStored.unit hSome
  exact ⟨hStart.trans hLow, hHigh.trans hStop⟩

/- The bits of a leaf are bits of the bytes it is in. -/
theorem Leaf.Stored.covers (hStored : l.Stored rs start stop) (hCovers : l.Covers rs k) :
    8 * start ≤ k ∧ k < 8 * stop := by
  obtain ⟨hLow, hHigh⟩ := hCovers
  obtain ⟨hStart, hStop⟩ := hStored.unit (.inr (by omega))
  unfold Leaf.first at hLow hHigh
  unfold Leaf.width at hHigh
  cases hBits : l.bits? with
  | none =>
    simp only [hBits, Option.map_none, Option.getD_none] at hLow hHigh
    omega
  | some b =>
    obtain ⟨-, hFirst, hWidth, hLast⟩ := hStored.field b hBits
    simp only [hBits, Option.map_some, Option.getD_some] at hLow hHigh
    omega

theorem tiled_nil : Tiled rs start stop [] := ⟨by simp, List.Pairwise.nil⟩

theorem Tiled.mono (hTiled : Tiled rs start stop ls) (hStart : first ≤ start)
    (hStop : stop ≤ last) : Tiled rs first last ls :=
  ⟨fun l hl => (hTiled.stored l hl).mono hStart hStop, hTiled.apart⟩

/- Leaves before a byte and leaves from there on. -/
theorem Tiled.append {middle : Int} {ms : List Leaf} (hFirst : Tiled rs start middle ls)
    (hSecond : Tiled rs middle stop ms) (hStart : start ≤ middle) (hStop : middle ≤ stop) :
    Tiled rs start stop (ls ++ ms) := by
  refine ⟨List.forall_mem_append.mpr ⟨(hFirst.mono le_rfl hStop).stored,
      (hSecond.mono hStart le_rfl).stored⟩,
    List.pairwise_append.mpr ⟨hFirst.apart, hSecond.apart, ?_⟩⟩
  intro a ha b hb k hLeft hRight
  have hBefore := ((hFirst.stored a ha).covers hLeft).2
  have hBehind := ((hSecond.stored b hb).covers hRight).1
  omega

namespace InitialValue

variable {t : CType} {r : Record} {init : Init}

/- Values other than floating ones are words at most. -/
theorem size_of_isScalar (rs : Records) (hScalar : t.IsScalar) :
    0 < t.size rs ∧ (t.isFloating = false → t.size rs ≤ 8) := by
  unfold CType.IsScalar CType.isInteger CType.isPointer at hScalar
  unfold CType.size CType.isFloating
  unfold CType.isFloating at hScalar
  cases hType : t.plain with
  | integer kind _ => cases kind <;> simp [CType.intSize]
  | floating kind => cases kind <;> simp [CType.floatSize]
  | bool | enum _ | ptr _ => simp
  | _ => simp [hType] at hScalar

/- The size of a complete type is known. -/
theorem size_nonneg (hComplete : t.Complete rs) : 0 ≤ t.size rs := by
  induction hComplete with
  | scalar hScalar => exact (size_of_isScalar rs hScalar).1.le
  | array hPlain hLength _ ih =>
    rw [CType.size, hPlain]
    exact Int.mul_nonneg ih hLength
  | record hRecord hLaid _ _ =>
    obtain ⟨-, -, -, -, hSize⟩ := of_record hRecord
    rw [hSize]
    exact hLaid.roomy.size

/- The leaves of a type are apart, wherever it is. -/
def Apart (rs : Records) (t : CType) (init : Init) : Prop :=
  ∀ offset, Tiled rs offset (offset + t.size rs)
    (leaves rs offset t init)

theorem tiled_elements (hSize : 0 ≤ t.size rs) (hElements : ∀ c ∈ cs, Apart rs t c) (offset : Int) :
    Tiled rs offset (offset + t.size rs * cs.length) (elementLeaves rs offset t cs) := by
  induction cs generalizing offset with
  | nil =>
    rw [elementLeaves]
    exact tiled_nil
  | cons c cs ih =>
    have hRest := ih (fun d hd =>
      hElements d (List.mem_cons_of_mem _ hd))
      (offset + t.size rs)
    have hLength : offset + t.size rs * ((c :: cs).length : Int) =
        offset + t.size rs + t.size rs * cs.length := by
      rw [List.length_cons]
      push_cast
      ring
    have hMore : 0 ≤ t.size rs * (cs.length : Int) := Int.mul_nonneg hSize (Int.natCast_nonneg _)
    rw [elementLeaves, hLength]
    exact (hElements c (by simp) offset).append hRest (by omega) (by omega)

/- The leaves of one member, at their place in the structure. -/
def ofMember (rs : Records) (offset : Int) (m : Member)
    (c : Init) : List Leaf :=
  match m.bits? with
  | some b => [⟨m.type, offset + m.offset, some b, c.expr?⟩]
  | none => leaves rs (offset + m.offset) m.type c

theorem fieldLeaves_cons (offset : Int) (m : Member) (c : Init) (ms : List Member)
    (cs : List Init) :
    fieldLeaves rs offset (m :: ms) (c :: cs) =
      ofMember rs offset m c ++ fieldLeaves rs offset ms cs := by
  rw [fieldLeaves]
  rfl

/- What is asked of the leaves of one member of a structure. -/
structure Within
    (rs : Records)
    (r : Record)
    (offset : Int)
    (m : Member)
    (ls : List Leaf) : Prop where
  tiled : Tiled rs offset (offset + r.size) ls
  covers : ∀ l ∈ ls, ∀ k, l.Covers rs k → ¬ m.IsBreak ∧
    8 * offset + m.bitStart ≤ k ∧ k < 8 * offset + m.bitStart + m.bitCount rs

variable {c : Init}

theorem within_member {m : Member} (hRoomy : r.Roomy rs) (hStruct : r.isUnion = false)
    (hMem : m ∈ r.members) (hValue : m.bits? = none → Apart rs m.type c)
    (hBreak : m.IsBreak → c.expr? = none ∨ m.type.size rs ≤ r.size) (offset : Int) :
    Within rs r offset m (ofMember rs offset m c) := by
  unfold ofMember
  cases hBits : m.bits? with
  | none =>
    obtain ⟨hStart, hStop⟩ := hRoomy.ordinary hStruct m hMem hBits
    have hTiled := hValue hBits (offset + m.offset)
    refine ⟨hTiled.mono (by omega) (by omega), fun l hl k hCovers => ?_⟩
    obtain ⟨hLow, hHigh⟩ := (hTiled.stored l hl).covers hCovers
    simp only [Member.IsBreak, Member.bitStart, Member.bitCount,
      hBits, Option.map_none, Option.getD_none]
    refine ⟨by simp, ?_, ?_⟩ <;> omega
  | some b =>
    obtain ⟨hInt, hStart, hFirst, hWidth, hLast, hUnit, hSkip⟩ :=
      hRoomy.fields hStruct m hMem b hBits
    refine ⟨⟨?_, List.pairwise_singleton _ _⟩, ?_⟩
    · intro l hl
      rw [List.mem_singleton.mp hl]
      refine ⟨.inl hInt, fun b' hb' => ?_, fun hSome => ?_⟩
      · cases hb'
        exact ⟨hInt, hFirst, hWidth, hLast⟩
      · rcases hWidth.eq_or_lt with hZero | hPos
        · have hOffset := hSkip hZero.symm
          rcases hBreak (by simp [Member.IsBreak, hBits, hZero.symm]) with hNone | hRoom
          · simp [hNone, Leaf.width, hZero.symm] at hSome
          · exact ⟨by simp only; omega, by simp only; omega⟩
        · have hRoom := hUnit hPos
          exact ⟨by simp only; omega, by simp only; omega⟩
    · intro l hl k hCovers
      rw [List.mem_singleton.mp hl] at hCovers
      obtain ⟨hLow, hHigh⟩ := hCovers
      simp only [Leaf.first, Leaf.width, Option.map_some, Option.getD_some] at hLow hHigh
      simp only [Member.IsBreak, Member.bitStart, Member.bitCount,
        hBits, Option.map_some, Option.getD_some]
      refine ⟨fun hZero => ?_, by omega, by omega⟩
      have hEq : b.width = 0 := Option.some.inj hZero
      omega

theorem tiled_fields (offset : Int)
    (hWithin : ∀ p ∈ ms.zip cs,
      Within rs r offset p.1 (ofMember rs offset p.1 p.2))
    (hOrdered : ms.Pairwise fun m n => ¬ m.IsBreak →
      ¬ n.IsBreak → m.bitStart + m.bitCount rs ≤ n.bitStart) :
    Tiled rs offset (offset + r.size) (fieldLeaves rs offset ms cs) ∧
      ∀ l ∈ fieldLeaves rs offset ms cs, ∀ k, l.Covers rs k →
        ∃ m ∈ ms, ¬ m.IsBreak ∧ 8 * offset + m.bitStart ≤ k := by
  induction ms generalizing cs with
  | nil =>
    rw [fieldLeaves]
    · exact ⟨tiled_nil, by simp⟩
    · simp
  | cons m ms ih =>
    cases cs with
    | nil =>
      rw [fieldLeaves]
      · exact ⟨tiled_nil, by simp⟩
      · simp
    | cons c cs =>
      obtain ⟨hFirst, hOthers⟩ := List.pairwise_cons.mp hOrdered
      obtain ⟨hRest, hBehind⟩ := ih (fun p hp => hWithin p (List.mem_cons_of_mem _ hp)) hOthers
      have hOwn : Within rs r offset m (ofMember rs offset m c) := hWithin (m, c) (by simp)
      rw [fieldLeaves_cons]
      refine ⟨⟨List.forall_mem_append.mpr ⟨hOwn.tiled.stored, hRest.stored⟩,
        List.pairwise_append.mpr ⟨hOwn.tiled.apart, hRest.apart, ?_⟩⟩, ?_⟩
      · intro a ha b hb k hLeft hRight
        obtain ⟨hSolid, -, hEnd⟩ := hOwn.covers a ha k hLeft
        obtain ⟨n, hn, hNext, hStart⟩ := hBehind b hb k hRight
        have hLe := hFirst n hn hSolid hNext
        omega
      · intro l hl k hCovers
        rcases List.mem_append.mp hl with hl | hl
        · obtain ⟨hSolid, hStart, -⟩ := hOwn.covers l hl k hCovers
          exact ⟨m, by simp, hSolid, hStart⟩
        · obtain ⟨n, hn, hNext, hStart⟩ := hBehind l hl k hCovers
          exact ⟨n, List.mem_cons_of_mem _ hn, hNext, hStart⟩

theorem chosenLeaves_eq (offset : Int) (hChild : cs[n]? = some c) :
    chosenLeaves rs offset t cs n = leaves rs offset t c := by
  induction cs generalizing n with
  | nil => cases hChild
  | cons d cs ih =>
    cases n with
    | zero =>
      cases hChild
      rfl
    | succ n => exact ih hChild

/- A record with room for its members keeps their leaves apart. -/
theorem Fits.apart_record (hFits : Fits rs t init) (hRecord : t.record? rs = some r)
    (hRoomy : r.Roomy rs)
    (hMembers : ∀ m ∈ r.members, m.bits? = none →
      ∀ c, Fits rs m.type c → Apart rs m.type c) : Apart rs t init := by
  obtain ⟨hArray, hIsStruct, hIsUnion, hList, hSize⟩ := of_record hRecord
  obtain ⟨type, isOpen, expr?, ⟨children⟩, member?⟩ := init
  intro offset
  rw [hSize, leaves.eq_def]
  simp only [hArray, hIsStruct, hIsUnion, hList, Bool.false_eq_true, if_false]
  cases hFits with
  | scalar hScalar =>
    obtain ⟨-, hNot, hNor⟩ := not_aggregate rs hScalar
    rw [hIsStruct] at hNot
    rw [hIsUnion] at hNor
    simp [hNor] at hNot
  | array hIsArray _ _ =>
    rw [hArray] at hIsArray
    cases hIsArray
  | struct hSame hStruct hExpr hLength hFields hBreaks =>
    cases hRecord.symm.trans hSame
    rw [hStruct]
    refine (tiled_fields offset (fun p hp => ?_) (hRoomy.ordered hStruct)).1
    have hMem := (List.of_mem_zip hp).1
    exact within_member hRoomy hStruct hMem (fun hBits => hMembers p.1 hMem hBits p.2
        (hFields p hp hBits)) (hBreaks p hp) offset
  | blank hSame hUnion hMember =>
    cases hRecord.symm.trans hSame
    cases hMember
    rw [hUnion]
    exact tiled_nil
  | @union _ _ _ c m hSame hUnion hMember hMem hChild hValue =>
    cases hRecord.symm.trans hSame
    cases hMember
    obtain ⟨hBits, hRoom⟩ := hRoomy.choices hUnion m hMem
    have hGet : children[m.index]? = some c := hChild
    have hTiled := hMembers m hMem hBits c hValue offset
    rw [← chosenLeaves_eq offset hGet] at hTiled
    rw [hUnion]
    exact hTiled.mono le_rfl (by omega)

theorem Fits.apart (hFits : Fits rs t init) (hComplete : t.Complete rs) : Apart rs t init := by
  induction hComplete generalizing init with
  | @scalar t hScalar =>
    obtain ⟨hArray, hStruct, hUnion⟩ := not_aggregate rs hScalar
    obtain ⟨type, isOpen, expr?, ⟨children⟩, member?⟩ := init
    intro offset
    rw [leaves.eq_def]
    simp only [hArray, hStruct, hUnion, Bool.false_eq_true, if_false]
    refine ⟨fun l hl => ?_, List.pairwise_singleton _ _⟩
    rw [List.mem_singleton.mp hl]
    exact ⟨hScalar, by simp, fun _ => ⟨le_rfl, le_rfl⟩⟩
  | @array t base id n align hPlain hLength hBase ih =>
    have hArray : t.isArray = true := by rw [CType.isArray, hPlain]
    have hType : elementType t = base := by
      rw [elementType, CType.base?, hPlain]
      rfl
    have hSize : t.size rs = base.size rs * n := by rw [CType.size, hPlain]
    have hLen : t.arrayLen = n := by rw [CType.arrayLen, hPlain]
    cases hFits with
    | scalar hScalar =>
      rw [(not_aggregate rs hScalar).1] at hArray
      cases hArray
    | array _ hCount hElements =>
      obtain ⟨type, isOpen, expr?, ⟨children⟩, member?⟩ := init
      rw [hLen] at hCount
      rw [hType] at hElements
      intro offset
      rw [leaves.eq_def, hSize, ← hCount]
      simp only [hArray, if_true, hType]
      exact tiled_elements (size_nonneg hBase) (fun c hc => ih (hElements c hc)) offset
    | struct hRecord _ _ _ _ _ =>
      rw [(of_record hRecord).1] at hArray
      cases hArray
    | blank hRecord _ _ =>
      rw [(of_record hRecord).1] at hArray
      cases hArray
    | union hRecord _ _ _ _ _ =>
      rw [(of_record hRecord).1] at hArray
      cases hArray
  | record hRecord hLaid hMembers ih =>
    exact hFits.apart_record hRecord hLaid.roomy fun m hm hBits c hValue => ih m hm hBits hValue

/- The leaves of an object are inside of it and apart. -/
theorem Fits.tiled (hFits : Fits rs t init) (hSettled : t.Settled rs) :
    0 ≤ t.size rs ∧ Tiled rs 0 (t.size rs) (leaves rs 0 t init) := by
  cases hSettled with
  | complete hComplete =>
    refine ⟨size_nonneg hComplete, ?_⟩
    have hApart := hFits.apart hComplete 0
    rw [zero_add] at hApart
    exact hApart
  | @extended tail r ms last hRecord hLaid hSplit hNumbered hLast hMembers hTail =>
      have hOld : ∀ m ∈ ms ++ [last], m.bits? = none → m.type.Complete rs := hSplit ▸ hMembers
      have hRoomy : (Initializer.extended rs r tail).Roomy rs :=
        hLaid.roomy.extended hSplit hNumbered hLast (size_nonneg (hOld last (by simp) hLast))
          (size_nonneg hTail)
      obtain ⟨-, -, -, -, hSize⟩ := of_record hRecord
      refine ⟨hSize ▸ hRoomy.size, ?_⟩
      have hApart := hFits.apart_record hRecord hRoomy (by
        rw [Initializer.members_extended rs tail hSplit hNumbered]
        refine List.forall_mem_append.mpr ⟨fun m hm hBits c hValue => hValue.apart
            (hOld m (List.mem_append_left _ hm) hBits), ?_⟩
        simp only [List.mem_singleton, forall_eq]
        exact fun _ c hValue => hValue.apart hTail) 0
      rw [zero_add] at hApart
      exact hApart

end InitialValue

end CCompiler
