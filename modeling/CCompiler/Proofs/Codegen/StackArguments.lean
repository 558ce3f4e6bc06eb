import Mathlib
import CCompiler.Codegen.Frame
import CCompiler.Proofs.Codegen.Balance
import CCompiler.Proofs.Rounding

/-
  Where a function finds the arguments that its callers leave
  on the stack.

  A caller marks the arguments that travel on the stack and
  pushes them from the last to the first.  A function places
  its parameters from the first to the last, and rounds each
  place up.  Both count registers in the same way, so what is
  pushed for the arguments before one is what lies between it
  and the frame pointer.  Places are signed words, so this
  holds as far as the sums in a frame are words.

  Main declarations:
    * `Codegen.Definition`, `Codegen.Definition.site`
    * `Codegen.Frame.belowFits`, `Codegen.roomOf`
    * `Codegen.lookup_paramSlots_stack`
    * `Codegen.offsetIn_localSlots_nonpos`
    * `Codegen.stack_arguments_agree`
-/

------------
-- Definitions of Functions
------------

namespace CCompiler

namespace Codegen

/- The type of an object. -/
def typeOf (p : Program) (id : ObjId) : CType :=
  (p.objects.entry id).type

/-
  A definition of a function.  If its result is a record of
  more than 16 bytes, a pointer to that is the first
  parameter; among the variables it comes after the others.
-/
structure Definition (p : Program) where
  fn : Obj
  result : CType
  pointer : List ObjId
  own : List ObjId
  rest : List ObjId
  params_eq : fn.params = pointer ++ own
  locals_eq : fn.locals = own ++ pointer ++ rest
  pointer_type :
    pointer.map (typeOf p) =
      if result.isRecord && result.size p.records > 16 then
        [.ptr result]
      else []
  distinct : (pointer ++ own).Nodup

namespace Definition

variable {p : Program}

/- A call with arguments of the types of the parameters. -/
def site (d : Definition p) : CallSite :=
  ⟨d.result, d.own.map (typeOf p), d.result.isRecord⟩

/- Which arguments of such a call travel in registers. -/
def marks (d : Definition p) : List Bool :=
  passAll (d.site.start p.records) (d.site.classes p.records)

end Definition

/- The things of a list that are marked for the stack. -/
def stackPassed {α : Type} (xs : List α) (marks : List Bool) :
    List α :=
  ((xs.zip marks).filter fun m => !m.2).map (·.1)

/-
  The bytes that values of some types take on the stack, each
  in whole eightbytes; this number is not bounded.
-/
def roomOf (rs : Records) (ts : List CType) : Int :=
  (ts.map fun t => (t.size rs + 7) / 8 * 8).sum

/-
  A type that a parameter can have: its size is known, and it
  is no array, since these become pointers.
-/
structure IsParameter (rs : Records) (t : CType) : Prop where
  complete : 0 ≤ t.size rs
  notArray : t.isArray = false

namespace Frame

/-
  Whether the places of variables below the frame pointer are
  sums that are words, for variables that have a size.
-/
def belowFits (p : Program) (placed : List (ObjId × Int)) :
    Int → List ObjId → Bool
| _, [] => true
| bottom, id :: ids =>
  if offsetIn placed id != 0 then
    belowFits p placed bottom ids
  else
    let o := p.objects.entry id
    let size := o.type.size p.records
    let align := varAlign p.records o
    decide (0 ≤ size) && decide (bottom + size + max align 1 ≤ wordEnd) &&
      belowFits p placed (alignUp (bottom + size) align) ids

end Frame

variable {α : Type}

------------
-- Parameters on the Stack
------------

@[simp] theorem stackPassed_nil (marks : List Bool) : stackPassed ([] : List α) marks = [] := by
  simp [stackPassed]

@[simp] theorem stackPassed_true (x : α) (xs : List α) (marks : List Bool) :
    stackPassed (x :: xs) (true :: marks) = stackPassed xs marks := by simp [stackPassed]

@[simp] theorem stackPassed_false (x : α) (xs : List α) (marks : List Bool) :
    stackPassed (x :: xs) (false :: marks) = x :: stackPassed xs marks := by simp [stackPassed]

theorem stackPassed_map {β : Type} (f : α → β) (xs : List α) (marks : List Bool) :
    stackPassed (xs.map f) marks = (stackPassed xs marks).map f := by
  induction xs generalizing marks with
  | nil => simp
  | cons x xs ih =>
    cases marks with
    | nil => simp [stackPassed]
    | cons mark marks => cases mark <;> simp [ih]

theorem mem_of_mem_stackPassed {x : α} {xs : List α} {marks : List Bool}
    (hMem : x ∈ stackPassed xs marks) : x ∈ xs := by
  simp only [stackPassed, List.mem_map, List.mem_filter] at hMem
  rcases hMem with ⟨⟨y, mark⟩, ⟨hZip, -⟩, rfl⟩
  exact (List.of_mem_zip hZip).1

@[simp] theorem roomOf_cons (rs : Records) (t : CType) (ts : List CType) :
    roomOf rs (t :: ts) = (t.size rs + 7) / 8 * 8 + roomOf rs ts := by simp [roomOf]

variable {rs : Records}

theorem roomOf_nonneg {ts : List CType} (hParams : ∀ t ∈ ts, IsParameter rs t) :
    0 ≤ roomOf rs ts := by
  induction ts with
  | nil => simp [roomOf]
  | cons t ts ih =>
    have hFirst := (hParams t (by simp)).complete
    have hRest := ih fun u hu => hParams u (by simp [hu])
    rw [roomOf_cons]
    omega

/- A value is pushed in as many eightbytes as it fills. -/
theorem eightbytes_of_parameter {t : CType} (hParam : IsParameter rs t)
    (hFits : t.size rs + 7 < wordEnd) :
    (ArgClass.of rs t).eightbytes * 8 = (t.size rs + 7) / 8 * 8 := by
  have hComplete := hParam.complete
  have hNotArray := hParam.notArray
  have hRound := alignUp_eight hComplete hFits
  have hWhole : ((t.size rs + 7) / 8 * 8).tdiv 8 = (t.size rs + 7) / 8 := by
    rw [Int.mul_tdiv_cancel _ (by decide)]
  unfold ArgClass.of
  split
  · simp only [ArgClass.eightbytes]
    rw [hRound, hWhole]
  · rename_i hPlain
    simp [ArgClass.eightbytes, CType.size, hPlain, CType.floatSize]
  · rename_i hPlain
    simp [ArgClass.eightbytes, CType.size, hPlain, CType.floatSize]
  · rename_i hPlain
    simp [ArgClass.eightbytes, CType.size, hPlain, CType.floatSize]
  · rename_i hRecord hFloat hDouble hExtended
    simp only [CType.isArray] at hNotArray
    simp only [ArgClass.eightbytes, CType.size]
    cases hPlain : t.plain with
    | integer k s => cases k <;> rfl
    | floating k => cases k <;> simp_all
    | record id => simp_all
    | array id base len size align => simp_all
    | _ => rfl

variable {args : List Argument}

/- Pushing arguments takes the room of their types. -/
theorem eightbytesOf_eq_room (hParams : ∀ a ∈ args, IsParameter rs a.type)
    (hFits : 16 + roomOf rs (args.map (·.type)) < wordEnd) :
    8 * eightbytesOf rs args = roomOf rs (args.map (·.type)) := by
  induction args with
  | nil => rfl
  | cons a args ih =>
    have hFirst := hParams a (by simp)
    have hRest : ∀ b ∈ args, IsParameter rs b.type := fun b hb => hParams b (by simp [hb])
    have hRoom : 0 ≤ roomOf rs (args.map (·.type)) := roomOf_nonneg (by simpa using hRest)
    rw [List.map_cons, roomOf_cons] at hFits ⊢
    have hSize := hFirst.complete
    have hPushed := eightbytes_of_parameter hFirst (by omega)
    have hAfter := ih hRest (by omega)
    simp only [eightbytesOf, List.map_cons, List.sum_cons] at hAfter ⊢
    omega

variable {ids : List ObjId} {id : ObjId} {i : Nat}

section Params

variable {p : Program}

theorem paramSlots_cons (u : RegisterUse) (top : Int) (id : ObjId) (ids : List ObjId) :
    Frame.paramSlots p u top (id :: ids) =
      let c := u.pass (ArgClass.of p.records (typeOf p id))
      if c.1 then Frame.paramSlots p c.2 top ids
      else
        (id, alignUp top 8) :: Frame.paramSlots p c.2
            (wrap64 (alignUp top 8 + (typeOf p id).size p.records))
            ids := rfl

variable {u : RegisterUse} {top : Int}

theorem lookup_paramSlots_of_not_mem (hAbsent : id ∉ ids) :
    (Frame.paramSlots p u top ids).lookup id = none := by
  induction ids generalizing u top with
  | nil => rfl
  | cons head ids ih =>
    rw [List.mem_cons, not_or] at hAbsent
    simp only [paramSlots_cons]
    split
    · exact ih hAbsent.2
    · rw [List.lookup_cons, beq_false_of_ne hAbsent.1]
      exact ih hAbsent.2

/- A parameter in registers has no place on the stack. -/
theorem lookup_paramSlots_registers (hDistinct : ids.Nodup) (hId : ids[i]? = some id)
    (hMark : (passAll u ((ids.map (typeOf p)).map
        (ArgClass.of p.records)))[i]? = some true) :
    (Frame.paramSlots p u top ids).lookup id = none := by
  induction ids generalizing u top i with
  | nil => simp at hId
  | cons head ids ih =>
    rw [List.nodup_cons] at hDistinct
    simp only [List.map_cons, passAll] at hMark
    simp only [paramSlots_cons]
    cases i with
    | zero =>
      simp only [List.getElem?_cons_zero, Option.some.injEq] at hId hMark
      subst hId
      rw [if_pos hMark]
      exact lookup_paramSlots_of_not_mem hDistinct.1
    | succ i =>
      simp only [List.getElem?_cons_succ] at hId hMark
      have hNe : id ≠ head := by
        rintro rfl
        exact hDistinct.1 (List.mem_of_getElem? hId)
      split
      · exact ih hDistinct.2 hId hMark
      · rw [List.lookup_cons, beq_false_of_ne hNe]
        exact ih hDistinct.2 hId hMark

/-
  A parameter on the stack lies as far above the first place
  as the parameters on the stack before it take room.
-/
theorem lookup_paramSlots_stack {marks : List Bool}
    (hMarks : marks = passAll u ((ids.map (typeOf p)).map
        (ArgClass.of p.records))) (hDistinct : ids.Nodup)
    (hParams : ∀ id ∈ ids, IsParameter p.records (typeOf p id)) (hTop : 0 ≤ top)
    (hId : ids[i]? = some id) (hMark : marks[i]? = some false)
    (hFits : (top + 7) / 8 * 8 + roomOf p.records
          (stackPassed ((ids.take i).map (typeOf p)) marks) < wordEnd) :
    (Frame.paramSlots p u top ids).lookup id = some ((top + 7) / 8 * 8 +
        roomOf p.records (stackPassed ((ids.take i).map (typeOf p)) marks)) := by
  induction ids generalizing u top i marks with
  | nil => simp at hId
  | cons head ids ih =>
    rw [List.nodup_cons] at hDistinct
    simp only [List.map_cons, passAll] at hMarks
    have hRest : ∀ id ∈ ids, IsParameter p.records (typeOf p id) :=
      fun id hMem => hParams id (by simp [hMem])
    simp only [paramSlots_cons]
    cases i with
    | zero =>
      simp only [List.getElem?_cons_zero, Option.some.injEq] at hId
      subst hId hMarks
      simp only [List.getElem?_cons_zero, Option.some.injEq] at hMark
      simp only [List.take_zero, List.map_nil, stackPassed_nil] at hFits ⊢
      simp only [roomOf, List.map_nil, List.sum_nil, Int.add_zero, wordEnd] at hFits ⊢
      rw [if_neg (by simp [hMark]), List.lookup_cons_self,
        alignUp_eight hTop (by simp only [wordEnd]; omega)]
    | succ i =>
      subst hMarks
      simp only [List.getElem?_cons_succ] at hId hMark
      simp only [List.take_succ_cons, List.map_cons] at hFits ⊢
      have hNe : id ≠ head := by
        rintro rfl
        exact hDistinct.1 (List.mem_of_getElem? hId)
      -- the room of what comes before bounds each part
      have hRoom : 0 ≤ roomOf p.records (stackPassed ((ids.take i).map (typeOf p)) (passAll
              (u.pass (ArgClass.of p.records (typeOf p head))).2
              ((ids.map (typeOf p)).map (ArgClass.of p.records)))) := by
        apply roomOf_nonneg
        intro t ht
        rcases List.mem_map.mp (mem_of_mem_stackPassed ht) with ⟨j, hj, rfl⟩
        exact hRest j (List.mem_of_mem_take hj)
      cases hHead : (u.pass (ArgClass.of p.records (typeOf p head))).1 with
      | true =>
        rw [hHead, stackPassed_true] at hFits
        rw [stackPassed_true, if_pos rfl]
        exact ih rfl hDistinct.2 hRest hTop hId hMark hFits
      | false =>
        have hSize := (hParams head (by simp)).complete
        rw [hHead, stackPassed_false, roomOf_cons] at hFits
        rw [stackPassed_false, roomOf_cons, if_neg (by simp), List.lookup_cons, beq_false_of_ne hNe]
        simp only [wordEnd] at hFits
        have hPlace : alignUp top 8 = (top + 7) / 8 * 8 :=
          alignUp_eight hTop (by simp only [wordEnd]; omega)
        have hNext : wrap64 (alignUp top 8 + (typeOf p head).size p.records) = (top + 7) / 8 * 8 +
              (typeOf p head).size p.records := by
          rw [hPlace]
          apply wrap64_of_fits <;> simp only [wordEnd] <;> omega
        have hStep : ((top + 7) / 8 * 8 + (typeOf p head).size p.records + 7) / 8 * 8 =
            (top + 7) / 8 * 8 + ((typeOf p head).size p.records + 7) / 8 *
                8 := by
          omega
        have hTop' : 0 ≤ (top + 7) / 8 * 8 + (typeOf p head).size p.records := by omega
        have hAfter := ih rfl hDistinct.2 hRest hTop' hId hMark (by simp only [wordEnd]; omega)
        rw [hStep] at hAfter
        rw [← Int.add_assoc, ← hAfter, ← hNext]

end Params

------------
-- Variables Below the Frame Pointer
------------

section Locals

variable {p : Program}

/-
  A variable without a place on the stack gets none above the
  frame pointer.
-/
theorem offsetIn_localSlots_nonpos {placed : List (ObjId × Int)} {bottom : Int}
    {rest : List ObjId} (hFits : Frame.belowFits p placed bottom ids = true)
    (hBottom : 0 ≤ bottom) (hMem : id ∈ ids) (hUnplaced : Frame.offsetIn placed id = 0) :
    Frame.offsetIn (Frame.localSlots p placed bottom (ids ++ rest)).1 id ≤
        0 := by
  induction ids generalizing bottom with
  | nil => simp at hMem
  | cons head ids ih =>
    simp only [Frame.belowFits] at hFits
    simp only [List.cons_append, Frame.localSlots]
    by_cases hPlaced : Frame.offsetIn placed head = 0
    · rw [hPlaced, bne_self_eq_false, if_neg Bool.false_ne_true] at hFits ⊢
      simp only [Bool.and_eq_true, decide_eq_true_eq] at hFits
      rcases hFits with ⟨⟨hSize, hSum⟩, hFits⟩
      have hWord : wrap64 (bottom + (p.objects.entry head).type.size p.records) = bottom +
            (p.objects.entry head).type.size p.records := by
        apply wrap64_of_fits <;> simp only [wordEnd] at hSum ⊢ <;> omega
      rcases alignUp_bounds (by omega) hSum with
        ⟨hAbove, hBelow⟩
      rw [hWord]
      by_cases hHead : id = head
      · subst hHead
        simp only [Frame.offsetIn, List.lookup_cons_self, Option.getD_some]
        rw [wrap64_of_fits (by omega) (by simp only [wordEnd]; omega)]
        omega
      · rw [Frame.offsetIn, List.lookup_cons, beq_false_of_ne hHead]
        exact ih hFits (by omega) (List.mem_of_ne_of_mem hHead hMem)
    · have hHead : id ≠ head := by
        rintro rfl
        exact hPlaced hUnplaced
      rw [bne_iff_ne.mpr hPlaced, if_pos rfl] at hFits ⊢
      exact ih hFits hBottom (List.mem_of_ne_of_mem hHead hMem)

end Locals

------------
-- Callers and Functions
------------

namespace Definition

variable {p : Program}

/-
  The pointer to a result counts as one argument in a general
  register, on both sides of a call.
-/
theorem paramSlots_params (d : Definition p) :
    Frame.paramSlots p {} 16 d.fn.params = Frame.paramSlots p (d.site.start p.records) 16
        d.own := by
  have hType := d.pointer_type
  rw [d.params_eq, CallSite.start, CallSite.hidden, site, Bool.and_comm]
  by_cases hMemory : (d.result.isRecord && decide (d.result.size p.records > 16)) = true
  · rw [if_pos hMemory] at hType
    rcases List.map_eq_singleton_iff.mp hType with
      ⟨id, hPointer, hId⟩
    rw [hPointer, List.singleton_append, paramSlots_cons, hId, hMemory]
    rfl
  · rw [if_neg hMemory, List.map_eq_nil_iff] at hType
    rw [Bool.not_eq_true] at hMemory
    rw [hType, List.nil_append, hMemory]
    rfl

/- The place of a parameter, on the stack or below. -/
theorem offset_eq (d : Definition p) (id : ObjId) :
    (Frame.of p d.fn).offset id =
      ((Frame.paramSlots p (d.site.start p.records) 16 d.own).lookup id).getD
        (Frame.offsetIn (Frame.localSlots p (Frame.paramSlots p (d.site.start p.records) 16 d.own)
            0 (d.own ++ d.pointer ++ d.rest)).1 id) := by
  simp only [Frame.of, Frame.offset, Frame.offsetIn,
    d.paramSlots_params, d.locals_eq, List.lookup_append]
  cases List.lookup id _ <;> rfl

end Definition

open Emit CallSite

/- Pushing moves the stack by values and by what they fill. -/
theorem deepens_pushAll (rs : Records) {ns : List Int} (hArgs : ArgumentsDeepen args ns) :
    (pushAll rs args).Deepens (ns.sum + eightbytesOf rs args) := by
  induction hArgs with
  | nil => exact deepens_pure ()
  | @cons a n args ns hValue hRest ih =>
    refine ih.bind fun _ => ?_
    refine (deepens_argument_push rs hValue).of_eq ?_
    simp only [eightbytesOf, List.map_cons, List.sum_cons]
    omega

/- The marks of a definition are one for each parameter. -/
theorem Definition.length_marks {p : Program} (d : Definition p) :
    d.marks.length = d.own.length := by
  simp [Definition.marks, length_passAll, classes, Definition.site]

/- A parameter in registers lies below the frame pointer. -/
theorem Definition.offset_nonpos {p : Program} (d : Definition p)
    (hBelow : Frame.belowFits p (Frame.paramSlots p {} 16 d.fn.params) 0
        (d.own ++ d.pointer) = true) (hId : d.own[i]? = some id) (hMark : d.marks[i]? = some true) :
    (Frame.of p d.fn).offset id ≤ 0 := by
  rw [d.paramSlots_params] at hBelow
  have hNone : (Frame.paramSlots p (d.site.start p.records) 16 d.own).lookup id = none :=
    lookup_paramSlots_registers (List.Nodup.of_append_right d.distinct) hId hMark
  rw [d.offset_eq, hNone, Option.getD_none]
  apply offsetIn_localSlots_nonpos hBelow (le_refl 0)
  · exact List.mem_append_left _ (List.mem_of_getElem? hId)
  · rw [Frame.offsetIn, hNone, Option.getD_none]

/- A parameter on the stack lies past those before it. -/
theorem Definition.offset_eq_room {p : Program} (d : Definition p)
    (hParams : ∀ id ∈ d.own, IsParameter p.records (typeOf p id)) (hId : d.own[i]? = some id)
    (hMark : d.marks[i]? = some false)
    (hAbove : 16 + roomOf p.records (stackPassed ((d.own.take i).map (typeOf p))
          d.marks) < wordEnd) :
    (Frame.of p d.fn).offset id = 16 + roomOf p.records (stackPassed ((d.own.take i).map (typeOf p))
          d.marks) := by
  have hPlace :=
    lookup_paramSlots_stack rfl (List.Nodup.of_append_right d.distinct) hParams
      (by decide : (0 : Int) ≤ 16) hId hMark hAbove
  rw [d.offset_eq, hPlace, Option.getD_some]
  rfl

/- What is pushed for some arguments, in bytes. -/
theorem eightbytesOf_arguments (c : Context) (es : List Expr)
    (hParams : ∀ e ∈ es, IsParameter c.records e.type)
    (hFits : 16 + roomOf c.records (es.map Expr.type) < wordEnd) :
    8 * eightbytesOf c.records (arguments c es) = roomOf c.records (es.map Expr.type) := by
  rw [← arguments_types c es] at hFits ⊢
  apply eightbytesOf_eq_room _ hFits
  intro a ha
  have hType : a.type ∈ (arguments c es).map (·.type) := List.mem_map_of_mem ha
  rw [arguments_types] at hType
  rcases List.mem_map.mp hType with ⟨e, he, hEq⟩
  rw [← hEq]
  exact hParams e he

/-
  A caller marks an argument for the stack exactly if the
  function finds the parameter above its frame pointer, and
  then it finds it past its old frame pointer, its return
  address and what the caller pushed for the arguments on the
  stack before it.
-/
theorem stack_arguments_agree (c : Context) (d : Definition c.program) (es : List Expr)
    (hTypes : es.map Expr.type = d.own.map (typeOf c.program))
    (hParams : ∀ id ∈ d.own, IsParameter c.records (typeOf c.program id))
    (hBelow : Frame.belowFits c.program
        (Frame.paramSlots c.program {} 16 d.fn.params) 0
        (d.own ++ d.pointer) = true) {i : Nat} {id : ObjId} (hId : d.own[i]? = some id)
    (hAbove : d.marks[i]? = some false → 16 + roomOf c.records
          (stackPassed ((d.own.take i).map (typeOf c.program))
            d.marks) < wordEnd) :
    let before := stackPassed (es.take i) d.marks
    let pushed := eightbytesOf c.records (arguments c before)
    (d.marks[i]? = some false ↔ 0 < (Frame.of c.program d.fn).offset id) ∧
    (d.marks[i]? = some false → (Frame.of c.program d.fn).offset id = 16 + 8 * pushed ∧
      (pushAll c.records (arguments c before)).Deepens
        (total c.records (callsInArgs c before).flatten + pushed)) := by
  intro before pushed
  have hBefore : before.map Expr.type = stackPassed ((d.own.take i).map (typeOf c.program))
          d.marks := by
    rw [← stackPassed_map, List.map_take, hTypes, ← List.map_take]
  have hEach : ∀ e ∈ before, IsParameter c.records e.type := by
    intro e he
    have hType : e.type ∈ before.map Expr.type := List.mem_map_of_mem he
    rw [hBefore] at hType
    rcases List.mem_map.mp (mem_of_mem_stackPassed hType) with
      ⟨j, hj, hEq⟩
    rw [← hEq]
    exact hParams j (List.mem_of_mem_take hj)
  have hPlace : d.marks[i]? = some false → (Frame.of c.program d.fn).offset id =
          16 + 8 * pushed := by
    intro hMark
    have hFits := hAbove hMark
    rw [d.offset_eq_room hParams hId hMark hFits]
    rw [← hBefore] at hFits ⊢
    rw [eightbytesOf_arguments c before hEach hFits]
  have hPushed : d.marks[i]? = some false → 0 ≤ 8 * pushed := by
    intro hMark
    have hFits := hAbove hMark
    rw [← hBefore] at hFits
    rw [eightbytesOf_arguments c before hEach hFits]
    apply roomOf_nonneg
    simpa using hEach
  refine ⟨⟨?_, ?_⟩, fun hMark => ⟨hPlace hMark, ?_⟩⟩
  · intro hMark
    have hOffset := hPlace hMark
    have hNonneg := hPushed hMark
    omega
  · intro hPositive
    have hLength : i < d.marks.length := by
      rw [d.length_marks]
      exact (List.getElem?_eq_some_iff.mp hId).1
    cases hMark : d.marks[i] with
    | false => rw [List.getElem?_eq_getElem hLength, hMark]
    | true =>
      have hBelowZero := d.offset_nonpos hBelow hId
        (by rw [List.getElem?_eq_getElem hLength, hMark])
      omega
  · refine (deepens_pushAll c.records (deepen_arguments c before)).of_eq ?_
    rw [total_flatten]

/- A unit with one variable for each of some types. -/
def variablesUnit (rs : Records) (ts : List CType) :
    Program where
  globals := []
  objects :=
    (ts.map fun t =>
      { name := [], type := t, align := t.align rs }).toArray
  records := rs
  jumps := #[]

/-
  A `struct` of three bytes, one of 24 bytes, one of a size
  that 16 parameters together do not have, and one whose
  members are not known.
-/
def sampleRecords : Records :=
  #[{ isUnion := false, size := 3, align := 1, root := 0,
      members := [⟨.char, none, 0, 1, 0, none⟩] },
    { isUnion := false, size := 24, align := 8, root := 1,
      members := [⟨.long, none, 0, 8, 0, none⟩] },
    { isUnion := false, size := 2 ^ 59, align := 2 ^ 59,
      root := 2,
      members := [⟨.char, none, 0, 1, 0, none⟩] },
    { isUnion := false, size := -1, align := 1, root := 3 }]

/- The variables of a function that returns 24 bytes. -/
def mixedTypes : List CType :=
  [.ldouble, .record 0, .record 1, .int, .int, .int, .int,
    .char, .double, .record 0, .ptr (.record 1)]

def mixedUnit : Program :=
  variablesUnit sampleRecords mixedTypes

/- The last of these variables is the pointer to the result. -/
def mixedDefinition : Definition mixedUnit where
  fn :=
    { name := [], type := .void, align := 1,
      params := 10 :: List.range 10,
      locals := List.range 10 ++ [10] }
  result := .record 1
  pointer := [10]
  own := List.range 10
  rest := []
  params_eq := rfl
  locals_eq := rfl
  pointer_type := rfl
  distinct := by decide

/-
  The first record finds its registers and the last one, past
  the extended value, the large record and the character,
  does not.
-/
theorem stack_arguments_agree_mixed :
    mixedDefinition.marks[9]? = some false ∧ (Frame.of mixedUnit mixedDefinition.fn).offset 9 =
        16 + 8 * (2 + 3 + 1) := by
  have hAgree :=
    stack_arguments_agree ⟨mixedUnit, false, default, default⟩ mixedDefinition
      (((List.range 10).map (typeOf mixedUnit)).map operand)
      rfl
      (by
        intro id hId
        have hDecided : ∀ id ∈ List.range 10, 0 ≤ (typeOf mixedUnit id).size sampleRecords ∧
              (typeOf mixedUnit id).isArray = false := by
          decide +kernel
        exact ⟨(hDecided id hId).1, (hDecided id hId).2⟩)
      (by decide +kernel)
      (show mixedDefinition.own[9]? = some 9 from rfl)
      (fun _ => by decide +kernel)
  have hMark : mixedDefinition.marks[9]? = some false := by decide +kernel
  exact ⟨hMark, (hAgree.2 hMark).1.trans (by decide +kernel)⟩

/- A value past 16 records, which fill half of all words. -/
def farUnit : Program :=
  variablesUnit sampleRecords
    (List.replicate 16 (.record 2) ++ [.ldouble])

def farDefinition : Definition farUnit where
  fn :=
    { name := [], type := .void, align := 1,
      params := List.range 17, locals := List.range 17 }
  result := .void
  pointer := []
  own := List.range 17
  rest := []
  params_eq := rfl
  locals_eq := rfl
  pointer_type := rfl
  distinct := by decide

/- A record whose members are not known. -/
def unknownUnit : Program :=
  variablesUnit sampleRecords [.record 3]

def unknownDefinition : Definition unknownUnit where
  fn :=
    { name := [], type := .void, align := 1, params := [0],
      locals := [0] }
  result := .void
  pointer := []
  own := [0]
  rest := []
  params_eq := rfl
  locals_eq := rfl
  pointer_type := rfl
  distinct := by decide

/-
  Places are words: the place of an argument on the stack may
  wrap around and lie below the frame pointer.  A record
  without a size is taken for one that travels in registers,
  and moves the place of its variable up by one.
-/
theorem stack_place_wraps :
    (farDefinition.marks[16]? = some false ∧ (Frame.of farUnit farDefinition.fn).offset 16 < 0) ∧
    (unknownDefinition.marks[0]? = some true ∧ 0 < (Frame.of unknownUnit
        unknownDefinition.fn).offset 0) := by decide +kernel

end Codegen

end CCompiler
