import Mathlib
import CCompiler.Proofs.Codegen.LevelPieces
import CCompiler.Proofs.Codegen.StackArguments

/-
  Where the variables of a function lie.

  Variables lie one below the other under the frame pointer,
  and parameters on the stack one above the other from 16
  bytes over it.  Each place is rounded away from the variable
  before it, so no variable reaches into another one.  Places
  are signed words, so this holds as far as the sums in a
  frame are words.

  Main declarations:
    * `Codegen.Frame.onStack`
    * `Codegen.Frame.aboveFits`, `Codegen.Frame.Counted`
    * `Codegen.paramSlots_stacked`
    * `Codegen.localSlots_hung`
    * `Codegen.slots_apart`
-/

------------
-- Frames That Are Counted in Words
------------

namespace CCompiler

namespace Codegen

/- The size of a variable. -/
def sizeIn (p : Program) (id : ObjId) : Int :=
  (typeOf p id).size p.records

/- The alignment of a variable in memory. -/
def alignIn (p : Program) (id : ObjId) : Int :=
  varAlign p.records (p.objects.entry id)

namespace Frame

/- The parameters of a function that its callers leave on the stack. -/
def onStack (p : Program) (fn : Obj) : List ObjId :=
  stackPassed fn.params
    (passAll {} ((fn.params.map (typeOf p)).map (ArgClass.of p.records)))

/-
  Whether the places of parameters above the frame pointer are
  sums that are words.
-/
def aboveFits (p : Program) :
    RegisterUse → Int → List ObjId → Bool
| _, _, [] => true
| u, top, id :: ids =>
  let c := u.pass (ArgClass.of p.records (typeOf p id))
  if c.1 then aboveFits p c.2 top ids
  else
    decide (top + 8 ≤ wordEnd) &&
      decide (alignUp top 8 + sizeIn p id < wordEnd) &&
      aboveFits p c.2 (alignUp top 8 + sizeIn p id) ids

/- No sum that is formed for a frame leaves the words. -/
structure Counted (p : Program) (fn : Obj) : Prop where
  above : aboveFits p {} 16 fn.params = true
  below :
    belowFits p (paramSlots p {} 16 fn.params) 0 fn.locals = true
  whole :
    (localSlots p (paramSlots p {} 16 fn.params) 0 fn.locals).2 + 16 ≤ wordEnd

instance decidableCounted (p : Program) (fn : Obj) : Decidable (Counted p fn) :=
  decidable_of_iff (_ ∧ _ ∧ _) ⟨fun h => ⟨h.1, h.2.1, h.2.2⟩, fun h => ⟨h.above, h.below, h.whole⟩⟩

end Frame

/- One of two variables ends before the other one begins. -/
def Apart (p : Program) (x y : ObjId × Int) : Prop :=
  x.2 + sizeIn p x.1 ≤ y.2 ∨ y.2 + sizeIn p y.1 ≤ x.2

instance  (p : Program) (x y : ObjId × Int) : Decidable (Apart p x y) :=
  inferInstanceAs (Decidable (_ ∨ _))

------------
-- Lists of Places
------------

variable {p : Program} {slots : List (ObjId × Int)}
  {id other : ObjId}

theorem Apart.symm {x y : ObjId × Int} (hApart : Apart p x y) : Apart p y x := Or.symm hApart

/- A variable on a list is found at a place of the list. -/
theorem mem_offsetIn (hMem : id ∈ slots.map Prod.fst) : (id, Frame.offsetIn slots id) ∈ slots := by
  cases hFound : slots.lookup id with
  | none =>
    rcases List.mem_map.mp hMem with ⟨⟨id, place⟩, hIn, rfl⟩
    rw [List.lookup_eq_none_iff] at hFound
    simpa using hFound _ hIn
  | some place =>
    rcases List.lookup_eq_some_iff.mp hFound with
      ⟨before, after, hSlots, -⟩
    rw [Frame.offsetIn, hFound, hSlots]
    simp

/- A variable that is not on a list has no place on it. -/
theorem lookup_of_not_mem (hAbsent : id ∉ slots.map Prod.fst) : slots.lookup id = none := by
  rw [List.lookup_eq_none_iff]
  intro x hMem
  rw [bne_iff_ne]
  rintro rfl
  exact hAbsent (List.mem_map_of_mem hMem)

/- Variables of a list that is apart are apart. -/
theorem apart_offsetIn (hApart : slots.Pairwise (Apart p)) (hMem : id ∈ slots.map Prod.fst)
    (hOther : other ∈ slots.map Prod.fst) (hNe : id ≠ other) :
    Apart p (id, Frame.offsetIn slots id) (other, Frame.offsetIn slots other) := by
  have : Std.Symm (Apart p) := ⟨fun _ _ h => h.symm⟩
  apply hApart.forall (mem_offsetIn hMem) (mem_offsetIn hOther)
  intro hSame
  exact hNe (congrArg Prod.fst hSame)

end Codegen

------------
-- Above and Below the Frame Pointer
------------

namespace Codegen

variable {p : Program}

/- Rounding to eightbytes. -/
theorem eight_dvd_alignUp {n : Int} (hLow : 0 ≤ n) (hHigh : n + 8 ≤ wordEnd) :
    8 ∣ alignUp n 8 ∧ n ≤ alignUp n 8 := by
  have hRound := alignUp_eight hLow (by omega)
  omega

/- The alignment in memory is at least the own one. -/
theorem alignIn_pos {id : ObjId} (hAlign : 0 < (p.objects.entry id).align) : 0 < alignIn p id := by
  unfold alignIn varAlign
  split <;> omega

/- The parameters on the stack are those that have a place. -/
theorem paramSlots_ids (u : RegisterUse) (top : Int) (ids : List ObjId) :
    (Frame.paramSlots p u top ids).map Prod.fst = stackPassed ids
        (passAll u ((ids.map (typeOf p)).map (ArgClass.of p.records))) := by
  induction ids generalizing u top with
  | nil => rfl
  | cons id ids ih =>
    simp only [paramSlots_cons, List.map_cons, passAll]
    cases hPass : (u.pass (ArgClass.of p.records (typeOf p id))).1 with
    | true => rw [if_pos rfl, stackPassed_true, ih]
    | false => rw [if_neg Bool.false_ne_true, stackPassed_false, List.map_cons, ih]

variable {ids : List ObjId}

/- Parameters lie one above the other, in whole eightbytes. -/
theorem paramSlots_stacked {u : RegisterUse} {top : Int} (hTop : 0 ≤ top)
    (hSizes : ∀ id ∈ ids, 0 ≤ sizeIn p id) (hFits : Frame.aboveFits p u top ids = true) :
    (∀ x ∈ Frame.paramSlots p u top ids, top ≤ x.2 ∧ 8 ∣ x.2) ∧
      (Frame.paramSlots p u top ids).Pairwise (Apart p) := by
  induction ids generalizing u top with
  | nil => exact ⟨fun x hMem => absurd hMem List.not_mem_nil, List.Pairwise.nil⟩
  | cons id ids ih =>
    have hRest : ∀ id ∈ ids, 0 ≤ sizeIn p id := fun other hMem => hSizes other (by simp [hMem])
    simp only [Frame.aboveFits] at hFits
    simp only [paramSlots_cons]
    split at hFits
    · rename_i hPass
      rw [if_pos hPass]
      exact ih hTop hRest hFits
    · rename_i hPass
      simp only [Bool.and_eq_true, decide_eq_true_eq] at hFits
      rcases hFits with ⟨⟨hRound, hSum⟩, hFits⟩
      have hSize := hSizes id (by simp)
      rcases eight_dvd_alignUp hTop hRound with
        ⟨hEight, hAbove⟩
      have hWord : wrap64 (alignUp top 8 + (typeOf p id).size p.records) =
          alignUp top 8 + sizeIn p id :=
        wrap64_of_fits (by simp only [wordEnd, sizeIn] at *; omega) hSum
      rcases ih (by omega) hRest hFits with ⟨hPlaces, hApart⟩
      rw [if_neg hPass, hWord]
      constructor
      · intro x hMem
        rcases List.mem_cons.mp hMem with rfl | hMem
        · exact ⟨hAbove, hEight⟩
        · rcases hPlaces x hMem with ⟨hLow, hWhole⟩
          exact ⟨by omega, hWhole⟩
      · refine hApart.cons ?_
        intro x hMem
        exact .inl (hPlaces x hMem).1

/- The variables below are those without a place above. -/
theorem localSlots_ids (placed : List (ObjId × Int)) (bottom : Int) (ids : List ObjId) :
    (Frame.localSlots p placed bottom ids).1.map Prod.fst =
      ids.filter fun id => Frame.offsetIn placed id == 0 := by
  induction ids generalizing bottom with
  | nil => rfl
  | cons id ids ih =>
    simp only [Frame.localSlots]
    by_cases hPlaced : Frame.offsetIn placed id = 0
    · rw [List.filter_cons_of_pos (by simp [hPlaced]),
        if_neg (by simp [hPlaced]), List.map_cons, ih]
    · rw [List.filter_cons_of_neg (by simp [hPlaced]), if_pos (by simp [hPlaced]), ih]

/-
  Variables hang one below the other, each at a multiple of
  its alignment.
-/
theorem localSlots_hung {placed : List (ObjId × Int)} {bottom : Int} (hBottom : 0 ≤ bottom)
    (hAligns : ∀ id ∈ ids, 0 < (p.objects.entry id).align)
    (hFits : Frame.belowFits p placed bottom ids = true) :
    let hung := Frame.localSlots p placed bottom ids
    bottom ≤ hung.2 ∧ (∀ x ∈ hung.1,
        -hung.2 ≤ x.2 ∧ x.2 + sizeIn p x.1 ≤ -bottom ∧ alignIn p x.1 ∣ x.2) ∧
      hung.1.Pairwise (Apart p) := by
  induction ids generalizing bottom with
  | nil => exact ⟨le_rfl, fun x hMem => absurd hMem List.not_mem_nil, List.Pairwise.nil⟩
  | cons id ids ih =>
    have hRest : ∀ id ∈ ids, 0 < (p.objects.entry id).align :=
      fun other hMem => hAligns other (by simp [hMem])
    simp only [Frame.belowFits] at hFits
    simp only [Frame.localSlots]
    split at hFits
    · rename_i hPlaced
      rw [if_pos hPlaced]
      exact ih hBottom hRest hFits
    · rename_i hUnplaced
      simp only [Bool.and_eq_true, decide_eq_true_eq] at hFits
      rcases hFits with ⟨⟨hSize, hSum⟩, hFits⟩
      have hAlign : 0 < alignIn p id := alignIn_pos (hAligns id (by simp))
      have hWord : wrap64 (bottom + (p.objects.entry id).type.size p.records) = bottom +
            (p.objects.entry id).type.size p.records := by
        apply wrap64_of_fits <;> simp only [wordEnd] at hSum ⊢ <;> omega
      rcases alignUp_bounds (by omega) hSum with
        ⟨hBelow, hPlace⟩
      rcases ih (by omega) hRest hFits with
        ⟨hLowest, hPlaces, hApart⟩
      have hNeg : wrap64 (-alignUp (bottom + (p.objects.entry id).type.size p.records)
          (varAlign p.records (p.objects.entry id))) = -alignUp (bottom +
            (p.objects.entry id).type.size p.records)
            (varAlign p.records (p.objects.entry id)) := by
        apply wrap64_of_fits <;> simp only [wordEnd] at hPlace ⊢ <;> omega
      rw [if_neg hUnplaced, hWord, hNeg]
      refine ⟨by omega, ?_, ?_⟩
      · intro x hMem
        rcases List.mem_cons.mp hMem with rfl | hMem
        · refine ⟨by omega, ?_, Int.dvd_neg.mpr (dvd_alignUp _ hAlign)⟩
          simp only [sizeIn, typeOf]
          omega
        · rcases hPlaces x hMem with ⟨hLow, hHigh, hDvd⟩
          exact ⟨hLow, by omega, hDvd⟩
      · refine hApart.cons ?_
        intro x hMem
        exact .inr (hPlaces x hMem).2.1

end Codegen

------------
-- Whole Frames
------------

namespace Codegen

variable {p : Program} {fn : Obj}

variable {id : ObjId}

/- A parameter on the stack keeps the place that it has there. -/
theorem offset_onStack (hStack : id ∈ Frame.onStack p fn) :
    (Frame.of p fn).offset id = Frame.offsetIn (Frame.paramSlots p {} 16 fn.params)
        id := by
  rw [Frame.onStack, ← paramSlots_ids {} 16] at hStack
  cases hFound : (Frame.paramSlots p {} 16 fn.params).lookup id with
  | none =>
    rcases List.mem_map.mp hStack with ⟨x, hMem, rfl⟩
    rw [List.lookup_eq_none_iff] at hFound
    simpa using hFound x hMem
  | some place => simp [Frame.of, Frame.offset, Frame.offsetIn, List.lookup_append, hFound]

/- Every other variable has its place below the frame pointer. -/
theorem offset_below (hLocal : id ∈ fn.locals) (hRegisters : id ∉ Frame.onStack p fn) :
    let placed := Frame.paramSlots p {} 16 fn.params
    let hung := (Frame.localSlots p placed 0 fn.locals).1
    id ∈ hung.map Prod.fst ∧ (Frame.of p fn).offset id = Frame.offsetIn hung id := by
  rw [Frame.onStack, ← paramSlots_ids {} 16] at hRegisters
  have hFound := lookup_of_not_mem hRegisters
  constructor
  · rw [localSlots_ids, List.mem_filter]
    exact ⟨hLocal, by simp [Frame.offsetIn, hFound]⟩
  · simp [Frame.of, Frame.offset, Frame.offsetIn, List.lookup_append, hFound]

/-
  No two variables of a function overlap.  Those below the
  frame pointer are aligned and lie inside of the frame, and
  parameters on the stack lie in whole eightbytes above the
  return address.
-/
theorem slots_apart (p : Program) (fn : Obj)
    (hSizes : ∀ id ∈ fn.params ++ fn.locals,
        0 ≤ sizeIn p id ∧ 0 < (p.objects.entry id).align) (hCounted : Frame.Counted p fn) :
    let frame := Frame.of p fn
    let stack := Frame.onStack p fn
    (∀ id ∈ fn.locals, id ∉ stack → -frame.size ≤ frame.offset id ∧
        frame.offset id + sizeIn p id ≤ 0 ∧ alignIn p id ∣ frame.offset id) ∧
    (∀ id ∈ stack, 16 ≤ frame.offset id ∧ 8 ∣ frame.offset id) ∧
    (∀ id ∈ stack ++ fn.locals, ∀ other ∈ stack ++ fn.locals, id ≠ other →
        Apart p (id, frame.offset id) (other, frame.offset other)) ∧
    16 ∣ frame.size := by
  intro frame stack
  rcases paramSlots_stacked (by decide) (fun id hMem => (hSizes id (by simp [hMem])).1)
    hCounted.above with ⟨hStacked, hApartAbove⟩
  rcases localSlots_hung le_rfl (fun id hMem => (hSizes id (by simp [hMem])).2)
    hCounted.below with ⟨hLowest, hHung, hApartBelow⟩
  have hWhole : frame.size = alignUp (Frame.localSlots p
      (Frame.paramSlots p {} 16 fn.params) 0 fn.locals).2 16 :=
    rfl
  have hSize := (alignUp_bounds hLowest (show _ + max 16 1 ≤ wordEnd from hCounted.whole)).1
  have hBelow : ∀ id ∈ fn.locals, id ∉ stack → -frame.size ≤ frame.offset id ∧
        frame.offset id + sizeIn p id ≤ 0 ∧
        alignIn p id ∣ frame.offset id := by
    intro id hLocal hRegisters
    rcases offset_below hLocal hRegisters with ⟨hMem, hOffset⟩
    rcases hHung _ (mem_offsetIn hMem) with ⟨hLow, hHigh, hDvd⟩
    rw [show frame.offset id = _ from hOffset]
    exact ⟨by simp only at hLow; omega, hHigh, hDvd⟩
  have hAbove : ∀ id ∈ stack, 16 ≤ frame.offset id ∧ 8 ∣ frame.offset id := by
    intro id hStack
    rw [show frame.offset id = _ from offset_onStack hStack]
    rw [show stack = _ from (paramSlots_ids {} 16 _).symm] at hStack
    exact hStacked _ (mem_offsetIn hStack)
  refine ⟨hBelow, hAbove, ?_, dvd_alignUp _ (by decide)⟩
  -- a variable is on the stack or below the frame pointer
  have hSplit : ∀ id ∈ stack ++ fn.locals, id ∈ stack ∨ id ∈ fn.locals ∧ id ∉ stack := by
    intro id hMem
    by_cases hStack : id ∈ stack
    · exact .inl hStack
    · exact .inr ⟨(List.mem_append.mp hMem).resolve_left hStack, hStack⟩
  intro id hMem other hOther hNe
  rcases hSplit id hMem with hStack | ⟨hLocal, hRegisters⟩ <;>
    rcases hSplit other hOther with hStack' | ⟨hLocal', hRegisters'⟩
  · rw [show frame.offset id = _ from offset_onStack hStack,
      show frame.offset other = _ from offset_onStack hStack']
    rw [show stack = _ from (paramSlots_ids {} 16 _).symm] at hStack hStack'
    exact apart_offsetIn hApartAbove hStack hStack' hNe
  · have hLow := (hAbove id hStack).1
    have hHigh := (hBelow other hLocal' hRegisters').2.1
    exact .inr (by simp only; omega)
  · have hLow := (hAbove other hStack').1
    have hHigh := (hBelow id hLocal hRegisters).2.1
    exact .inl (by simp only; omega)
  · rcases offset_below hLocal hRegisters with ⟨hIn, hOffset⟩
    rcases offset_below hLocal' hRegisters' with ⟨hIn', hOffset'⟩
    rw [show frame.offset id = _ from hOffset, show frame.offset other = _ from hOffset']
    exact apart_offsetIn hApartBelow hIn hIn' hNe

/-
  Seven integers, a record of 24 bytes and an extended value as
  parameters; 20 characters, a character, an array without
  elements and a double as other variables.
-/
def crowdedUnit : Program :=
  variablesUnit sampleRecords
    (List.replicate 7 .int ++
      [.record 1, .ldouble, .array 0 .char 20 20 1, .char,
        .array 1 .int 0 0 4, .double])

def crowdedFunction : Obj :=
  { name := [], type := .void, align := 1,
    params := List.range 9, locals := List.range 13 }

/-
  The last integer, the record and the extended value are on
  the stack; the characters are aligned to 16 bytes, and the
  double does not reach into the character above it.
-/
theorem slots_apart_crowded :
    Frame.onStack crowdedUnit crowdedFunction = [6, 7, 8] ∧
    8 ∣ (Frame.of crowdedUnit crowdedFunction).offset 7 ∧
    alignIn crowdedUnit 9 = 16 ∧
    16 ∣ (Frame.of crowdedUnit crowdedFunction).offset 9 ∧ Apart crowdedUnit
      (10, (Frame.of crowdedUnit crowdedFunction).offset 10)
      (12, (Frame.of crowdedUnit crowdedFunction).offset 12) := by
  have hStack : Frame.onStack crowdedUnit crowdedFunction = [6, 7, 8] := by decide +kernel
  have hAlign : alignIn crowdedUnit 9 = 16 := by decide +kernel
  rcases slots_apart crowdedUnit crowdedFunction (by decide +kernel) (by decide +kernel) with
    ⟨hBelow, hAbove, hApart, -⟩
  refine ⟨hStack, (hAbove 7 (by rw [hStack]; decide)).2, hAlign, ?_, ?_⟩
  · rw [← hAlign]
    exact (hBelow 9 (by decide) (by rw [hStack]; decide)).2.2
  · exact hApart 10 (by rw [hStack]; decide) 12 (by rw [hStack]; decide) (by decide)

/- Two arrays that together take half of all words. -/
def vastUnit : Program :=
  variablesUnit #[]
    (List.replicate 2 (.array 0 .char (2 ^ 62) (2 ^ 62) 1))

def vastFunction : Obj :=
  { name := [], type := .void, align := 1,
    locals := List.range 2 }

/-
  Places are words: the second array has its place above the
  frame pointer, where nothing was put on the stack, and the
  size of the frame is below zero.
-/
theorem vast_frame_wraps :
    (∀ id ∈ vastFunction.params ++ vastFunction.locals, 0 ≤ sizeIn vastUnit id ∧
        0 < (vastUnit.objects.entry id).align) ∧
    Frame.onStack vastUnit vastFunction = [] ∧
    0 < (Frame.of vastUnit vastFunction).offset 1 ∧
    (Frame.of vastUnit vastFunction).size < 0 := by decide +kernel

end Codegen

end CCompiler
