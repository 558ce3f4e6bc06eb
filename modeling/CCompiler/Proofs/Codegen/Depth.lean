import Mathlib
import CCompiler.Codegen.Module
import CCompiler.Codegen.Passing

/-
  How far the code of a construct moves the stack.

  Arguments are marked for registers by `RegisterUse.pass` and
  taken off the stack by `RegisterUse.unload`.  The first one
  also counts an eightbyte past the end of a record, the
  second one does not.  The registers that only the first one
  counts are kept apart here, so that the two agree exactly
  if these never decide.

  Every construct but a call moves the stack by what its parts
  do.  A call moves it besides by what its two counts of
  registers differ in: the pointer to its result, the arguments
  on the stack and the gap that aligns them come off again.

  Main declarations:
    * `Codegen.pushedFor`
    * `Codegen.Matched`, `Codegen.AllMatched`
    * `Codegen.Undisturbed`
    * `Codegen.allMatched_iff`
    * `Codegen.Emit.DeepensBy`, `Codegen.Emit.Deepens`
    * `Codegen.deepens_pushAll_marked`
    * `Codegen.deepensBy_passArguments`
    * `Codegen.deepens_call`
-/

variable {first second : Bool} {size : Int}

------------
-- Two Counts
------------

namespace CCompiler

namespace Codegen

/- The eightbytes pushed for the arguments in registers. -/
def pushedFor : RegisterUse → List ArgClass → Int
| _, [] => 0
| u, c :: cs =>
  (if (u.pass c).1 then c.eightbytes else 0) + pushedFor (u.pass c).2 cs

/-
  An argument is popped, one pop for each of its eightbytes,
  if it was pushed for registers, and else not at all.
-/
def Matched
    (pushing popping : RegisterUse)
    (c : ArgClass) : Prop :=
  ((popping.unload c).1.length : Int) =
    if (pushing.pass c).1 then c.eightbytes else 0

/- All arguments of a list are popped as they were pushed. -/
def AllMatched :
    RegisterUse → RegisterUse → List ArgClass → Prop
| _, _, [] => True
| pushing, popping, c :: cs =>
  Matched pushing popping c ∧
    AllMatched (pushing.pass c).2 (popping.unload c).2 cs

theorem unloadAll_cons (u : RegisterUse) (c : ArgClass) (cs : List ArgClass) :
    (unloadAll u (c :: cs)).1 = (u.unload c).1 ++ (unloadAll (u.unload c).2 cs).1 := rfl

/- Matched arguments leave nothing behind. -/
theorem AllMatched.length_unloadAll {pushing popping : RegisterUse} {cs : List ArgClass}
    (hMatched : AllMatched pushing popping cs) :
    ((unloadAll popping cs).1.length : Int) = pushedFor pushing cs := by
  induction cs generalizing pushing popping with
  | nil => rfl
  | cons c cs ih =>
    obtain ⟨hFirst, hRest⟩ := hMatched
    have hTail := ih hRest
    unfold Matched at hFirst
    rw [unloadAll_cons, pushedFor, List.length_append]
    push_cast
    rw [hFirst, hTail]

variable {u : RegisterUse}

------------
-- Registers Counted Past the End of Records
------------

namespace RegisterUse

/- The registers of two counts together. -/
def plus (u extra : RegisterUse) : RegisterUse :=
  ⟨u.general + extra.general, u.vector + extra.vector⟩

@[simp] theorem plus_general (u extra : RegisterUse) :
    (u.plus extra).general = u.general + extra.general := rfl

@[simp] theorem plus_vector (u extra : RegisterUse) :
    (u.plus extra).vector = u.vector + extra.vector := rfl

/- More registers taken leave room for less. -/
theorem fits_of_fits_plus {extra : RegisterUse} (hFits : (u.plus extra).fits first second = true) :
    u.fits first second = true := by
  cases first <;> cases second <;> simp [fits, take] at hFits ⊢ <;> omega

end RegisterUse

/-
  The registers counted past the end of records decide about
  none of the arguments.  `taken` are the registers that hold
  arguments, `extra` those that are only counted: one for each
  record of up to eight bytes.  Such a record is popped once,
  so one eightbyte has to be there: a record without bytes has
  none.
-/
def Undisturbed :
    RegisterUse → RegisterUse → List ArgClass → Prop
| _, _, [] => True
| taken, extra, .record size first second :: cs =>
  if size ≤ 16 ∧ taken.fits first second then
    (taken.plus extra).fits first second ∧
      if size > 8 then
        Undisturbed ((taken.take first).take second)
          extra cs
      else
        (ArgClass.record size first second).eightbytes = 1 ∧
          Undisturbed (taken.take first)
            (extra.take second) cs
  else Undisturbed taken extra cs
| taken, extra, .vector :: cs =>
  if taken.vector < vectorCount then
    (taken.plus extra).vector < vectorCount ∧
      Undisturbed (taken.take true) extra cs
  else Undisturbed taken extra cs
| taken, extra, .extended :: cs => Undisturbed taken extra cs
| taken, extra, .general :: cs =>
  if taken.general < generalCount then
    (taken.plus extra).general < generalCount ∧
      Undisturbed (taken.take false) extra cs
  else Undisturbed taken extra cs

instance decidableUndisturbed :
    (taken extra : RegisterUse) → (cs : List ArgClass) →
    Decidable (Undisturbed taken extra cs)
| _, _, [] => .isTrue trivial
| taken, extra, .record size first second :: cs =>
  have := decidableUndisturbed ((taken.take first).take second) extra cs
  have := decidableUndisturbed (taken.take first) (extra.take second) cs
  have := decidableUndisturbed taken extra cs
  inferInstanceAs (Decidable (if size ≤ 16 ∧ taken.fits first second then _ else _))
| taken, extra, .vector :: cs =>
  have := decidableUndisturbed (taken.take true) extra cs
  have := decidableUndisturbed taken extra cs
  inferInstanceAs (Decidable (if taken.vector < vectorCount then _ else _))
| taken, extra, .extended :: cs => decidableUndisturbed taken extra cs
| taken, extra, .general :: cs =>
  have := decidableUndisturbed (taken.take false) extra cs
  have := decidableUndisturbed taken extra cs
  inferInstanceAs (Decidable (if taken.general < generalCount then _ else _))

/-
  How the count for pushing relates to the other two.  It goes
  on past the last register of a kind, where the count for
  popping stops.
-/
structure Counts (pushing taken extra : RegisterUse) :
    Prop where
  general :
    pushing.general = (taken.plus extra).general ∨
      (generalCount ≤ pushing.general ∧ generalCount ≤ taken.general)
  vector :
    pushing.vector = (taken.plus extra).vector ∨ (vectorCount ≤ pushing.vector ∧
        vectorCount ≤ taken.vector)

namespace Counts

variable {pushing taken extra : RegisterUse}

/- Both counts find the same room for a record. -/
theorem fits_eq (hCounts : Counts pushing taken extra) (first second : Bool) :
    pushing.fits first second = (taken.plus extra).fits first second := by
  have hGeneral := hCounts.general
  have hVector := hCounts.vector
  simp only [RegisterUse.plus_general, RegisterUse.plus_vector, generalCount, vectorCount]
    at hGeneral hVector
  rw [Bool.eq_iff_iff]
  cases first <;> cases second <;> simp [RegisterUse.fits, RegisterUse.take, generalCount,
      vectorCount] <;> omega

/- Room that the count for pushing finds is there. -/
theorem fits_taken (hCounts : Counts pushing taken extra)
    (hFits : pushing.fits first second = true) : taken.fits first second = true := by
  rw [hCounts.fits_eq] at hFits
  exact RegisterUse.fits_of_fits_plus hFits

/- A register that holds an argument. -/
theorem take (hCounts : Counts pushing taken extra) (isVector : Bool) :
    Counts (pushing.take isVector) (taken.take isVector)
      extra := by
  obtain ⟨hGeneral, hVector⟩ := hCounts
  cases isVector <;> constructor <;> simp [RegisterUse.take] at hGeneral hVector ⊢ <;> omega

/- A register that is only counted. -/
theorem take_extra (hCounts : Counts pushing taken extra) (isVector : Bool) :
    Counts (pushing.take isVector) taken (extra.take isVector) := by
  obtain ⟨hGeneral, hVector⟩ := hCounts
  cases isVector <;> constructor <;> simp [RegisterUse.take] at hGeneral hVector ⊢ <;> omega

/- No general register is left, and one more is counted. -/
theorem take_full_general (hCounts : Counts pushing taken extra)
    (hFull : ¬ taken.general < generalCount) : Counts (pushing.take false) taken extra := by
  obtain ⟨hGeneral, hVector⟩ := hCounts
  constructor <;> simp [RegisterUse.take] at hGeneral hVector ⊢ <;> omega

/- No vector register is left, and one more is counted. -/
theorem take_full_vector (hCounts : Counts pushing taken extra)
    (hFull : ¬ taken.vector < vectorCount) : Counts (pushing.take true) taken extra := by
  obtain ⟨hGeneral, hVector⟩ := hCounts
  constructor <;> simp [RegisterUse.take] at hGeneral hVector ⊢ <;> omega

/- A general register is free for pushing. -/
theorem general_lt_iff (hCounts : Counts pushing taken extra)
    (hFree : taken.general < generalCount) :
    pushing.general < generalCount ↔ (taken.plus extra).general < generalCount := by
  have hGeneral := hCounts.general
  omega

/- A vector register is free for pushing. -/
theorem vector_lt_iff (hCounts : Counts pushing taken extra) (hFree : taken.vector < vectorCount) :
    pushing.vector < vectorCount ↔ (taken.plus extra).vector < vectorCount := by
  have hVector := hCounts.vector
  omega

/- Without a free general register none is counted as one. -/
theorem general_full (hCounts : Counts pushing taken extra)
    (hFull : ¬ taken.general < generalCount) : ¬ pushing.general < generalCount := by
  have hGeneral := hCounts.general
  simp only [RegisterUse.plus_general] at hGeneral
  omega

/- Without a free vector register none is counted as one. -/
theorem vector_full (hCounts : Counts pushing taken extra) (hFull : ¬ taken.vector < vectorCount) :
    ¬ pushing.vector < vectorCount := by
  have hVector := hCounts.vector
  simp only [RegisterUse.plus_vector] at hVector
  omega

end Counts

/- A record of two eightbytes. -/
theorem eightbytes_two (hLow : 8 < size) (hHigh : size ≤ 16) (first second : Bool) :
    (ArgClass.record size first second).eightbytes = 2 := by
  have hWord : wrap64 (size + 8 - 1) = size + 7 := by
    unfold wrap64
    rw [Int.bmod_eq_of_le] <;> omega
  change (alignUp size 8).tdiv 8 = 2
  unfold alignUp
  rw [hWord, if_neg (by decide), Int.mul_tdiv_cancel _
    (by decide), Int.tdiv_eq_ediv_of_nonneg (by omega)]
  omega

namespace RegisterUse

/- A record that finds registers. -/
theorem pass_record (hRoom : size ≤ 16 ∧ u.fits first second = true) :
    u.pass (.record size first second) =
      (true, (u.take first).take second) := by simp [pass, hRoom.1, hRoom.2]

/- A record that finds none. -/
theorem pass_record_stack (hNone : ¬ (size ≤ 16 ∧ u.fits first second = true)) :
    u.pass (.record size first second) = (false, u) := by
  simp only [pass]
  rw [if_neg]
  simpa using hNone

/- A record that is popped. -/
theorem unload_record (hRoom : size ≤ 16 ∧ u.fits first second = true) :
    u.unload (.record size first second) = if size > 8 then
        ([u.next first, (u.take first).next second], (u.take first).take second)
      else ([u.next first], u.take first) := by
  have hSize : ¬ size > 16 := by omega
  simp [unload, hSize, hRoom.2]

/- A record that is not popped. -/
theorem unload_record_stack (hNone : ¬ (size ≤ 16 ∧ u.fits first second = true)) :
    u.unload (.record size first second) = ([], u) := by
  simp only [unload]
  rw [if_pos]
  simpa [imp_iff_not_or, not_and_or] using hNone

end RegisterUse

/- The step of `allMatched_iff_of_counts` over a record. -/
theorem allMatched_record_iff {pushing taken extra : RegisterUse}
    (hCounts : Counts pushing taken extra) (size : Int) (first second : Bool) (cs : List ArgClass)
    (ih : ∀ {pushing taken extra : RegisterUse}, Counts pushing taken extra →
          (AllMatched pushing taken cs ↔ Undisturbed taken extra cs)) :
    AllMatched pushing taken (.record size first second :: cs) ↔ Undisturbed taken extra
        (.record size first second :: cs) := by
  rw [AllMatched, Undisturbed, Matched]
  by_cases hRoom : size ≤ 16 ∧ taken.fits first second = true
  · rw [if_pos hRoom, RegisterUse.unload_record hRoom, ← hCounts.fits_eq]
    by_cases hCounted : pushing.fits first second = true
    · rw [RegisterUse.pass_record ⟨hRoom.1, hCounted⟩]
      by_cases hTwo : size > 8
      · have hNext := ih ((hCounts.take first).take second)
        have hEight := eightbytes_two hTwo hRoom.1 first second
        simp [hCounted, hTwo, hEight, hNext]
      · have hNext := ih ((hCounts.take first).take_extra second)
        simp [hCounted, hTwo, hNext, eq_comm]
    · -- it is popped, though it was pushed with the others
      rw [RegisterUse.pass_record_stack fun h => hCounted h.2]
      by_cases hTwo : size > 8 <;> simp [hCounted, hTwo]
  · have hStack : ¬ (size ≤ 16 ∧ pushing.fits first second = true) :=
      fun h => hRoom ⟨h.1, hCounts.fits_taken h.2⟩
    rw [if_neg hRoom, RegisterUse.unload_record_stack hRoom, RegisterUse.pass_record_stack hStack]
    simp [ih hCounts]

/-
  The two counts agree about every argument exactly if the
  registers counted past the end of records decide about none.
-/
theorem allMatched_iff_of_counts {pushing taken extra : RegisterUse}
    (hCounts : Counts pushing taken extra) (cs : List ArgClass) :
    AllMatched pushing taken cs ↔ Undisturbed taken extra cs := by
  induction cs generalizing pushing taken extra with
  | nil => simp [AllMatched, Undisturbed]
  | cons c cs ih =>
    cases c with
    | record size first second => exact allMatched_record_iff hCounts size first second cs ih
    | vector =>
      rw [AllMatched, Undisturbed, Matched]
      by_cases hFree : taken.vector < vectorCount
      · have hNext := ih (hCounts.take true)
        have hCounted := hCounts.vector_lt_iff hFree
        rw [← hCounted]
        simp [RegisterUse.unload, RegisterUse.pass, ArgClass.eightbytes, hFree, hNext]
      · have hNext := ih (hCounts.take_full_vector hFree)
        have hCounted := hCounts.vector_full hFree
        simp [RegisterUse.unload, RegisterUse.pass, hFree, hCounted, hNext]
    | extended =>
      rw [AllMatched, Undisturbed, Matched]
      simp [RegisterUse.unload, RegisterUse.pass, ih hCounts]
    | general =>
      rw [AllMatched, Undisturbed, Matched]
      by_cases hFree : taken.general < generalCount
      · have hNext := ih (hCounts.take false)
        have hCounted := hCounts.general_lt_iff hFree
        rw [← hCounted]
        simp [RegisterUse.unload, RegisterUse.pass, ArgClass.eightbytes, hFree, hNext]
      · have hNext := ih (hCounts.take_full_general hFree)
        have hCounted := hCounts.general_full hFree
        simp [RegisterUse.unload, RegisterUse.pass, hFree, hCounted, hNext]

/- The same from the start of a list. -/
theorem allMatched_iff (start : RegisterUse) (cs : List ArgClass) :
    AllMatched start start cs ↔ Undisturbed start {} cs := by
  apply allMatched_iff_of_counts
  constructor <;> left <;> simp

end Codegen

end CCompiler

------------
-- The Effect of Code on the Stack
------------

namespace CCompiler

/- The failure of a function that ends at another depth. -/
def Failure.IsUnbalanced : Failure → Prop
| .fault (.unbalancedStack _ _) _ => True
| _ => False

namespace Codegen

namespace Emit

variable {α β : Type}

/-
  A computation moves the stack by a number of eightbytes,
  which may depend on its value.
-/
def DeepensBy (x : Emit α) (k : α → Int) : Prop :=
  ∀ c : Counters,
    match x c with
    | .ok r => r.counters.depth = c.depth + k r.value
    | .error e => ¬ e.IsUnbalanced

/- A computation moves the stack by a number of eightbytes. -/
def Deepens (x : Emit α) (n : Int) : Prop :=
  x.DeepensBy fun _ => n

variable {x : Emit α} {f : α → Emit β}

/- A computation moves the stack, and another one the rest. -/
theorem DeepensBy.bind {n : α → Int} {k : β → Int} (hFirst : x.DeepensBy n)
    (hRest : ∀ a, (f a).DeepensBy fun b => k b - n a) : (x >>= f).DeepensBy k := by
  intro c
  have hBefore := hFirst c
  change match andThen x f c with | .ok r => _ | .error e => _
  unfold andThen
  cases hRun : x c with
  | error e => simpa [hRun] using hBefore
  | ok r =>
    have hAfter := hRest r.value r.counters
    rw [hRun] at hBefore
    cases hNext : f r.value r.counters with
    | error e => simpa [hNext] using hAfter
    | ok s =>
      simp only [hNext] at hAfter hBefore ⊢
      omega

theorem Deepens.bind {x : Emit α} {f : α → Emit β} {n k : Int} (hFirst : x.Deepens n)
    (hRest : ∀ a, (f a).Deepens (k - n)) : (x >>= f).Deepens k := DeepensBy.bind hFirst hRest

variable {n : Int}

theorem Deepens.of_eq {m : Int} (hDeepens : x.Deepens n) (hEq : n = m) :
    x.Deepens m := hEq ▸ hDeepens

/- A failure of another kind moves nothing. -/
theorem deepens_stop {e : Failure} (hOther : ¬ e.IsUnbalanced) (n : Int) :
    (stop e : Emit α).Deepens n := fun _ => hOther

theorem deepens_fail {cause : Fault} (t : Token)
    (hOther : ¬ (Failure.fault cause t.place).IsUnbalanced) (n : Int) :
    (fail t cause : Emit α).Deepens n := fun _ => hOther

theorem deepensBy_pure {a : α} {k : α → Int} (hNone : k a = 0) :
    (pure a : Emit α).DeepensBy k := fun c => by
  change c.depth = c.depth + k a
  omega

theorem deepens_pure (a : α) :
    (pure a : Emit α).Deepens 0 := deepensBy_pure rfl

theorem deepens_lines (ls : List Assembly.Line) :
    (lines ls).Deepens 0 := fun c => by
  change c.depth = c.depth + 0
  omega

theorem deepens_code (is : List Assembly.Instr) :
    (code is).Deepens 0 := deepens_lines _

theorem deepens_label (l : Assembly.Label) :
    (label l).Deepens 0 := deepens_lines _

theorem deepens_loc (t : Token) :
    (loc t).Deepens 0 := deepens_lines _

theorem deepens_fresh : fresh.Deepens 0 := fun c => by
  change c.depth = c.depth + 0
  omega

theorem deepens_depth : depth.Deepens 0 := fun c => by
  change c.depth = c.depth + 0
  omega

theorem deepens_deepen (n : Int) : (deepen n).Deepens n := fun _ => rfl

theorem deepens_push : push.Deepens 1 := by
  refine (deepens_code _).bind fun _ => ?_
  exact deepens_deepen 1

theorem deepens_pushVector : pushVector.Deepens 1 := by
  refine (deepens_code _).bind fun _ => ?_
  exact deepens_deepen 1

theorem deepens_pop (r : Assembly.Reg) : (pop r).Deepens (-1) := by
  refine (deepens_code _).bind fun _ => ?_
  exact deepens_deepen (-1)

theorem deepens_popVector (n : Nat) : (popVector n).Deepens (-1) := by
  refine (deepens_code _).bind fun _ => ?_
  exact deepens_deepen (-1)

variable {k : Int} {p : Prop}

/- Either of two computations, and then a third one. -/
theorem Deepens.bind_ite [Decidable p] {y : Emit α} (hThen : x.Deepens n) (hElse : y.Deepens n)
    (hRest : ∀ a, (f a).Deepens (k - n)) : (if p then x >>= f else y >>= f).Deepens k := by
  split
  · exact hThen.bind hRest
  · exact hElse.bind hRest

/- A computation that may be left out, and then another one. -/
theorem Deepens.bind_when [Decidable p] {x : Emit Unit} {f : Unit → Emit β} (hThen : x.Deepens 0)
    (hRest : ∀ a, (f a).Deepens k) : (if p then x >>= f else f ()).Deepens k := by
  split
  · exact hThen.bind fun a => (hRest a).of_eq (by omega)
  · exact hRest ()

end Emit

------------
-- Arguments and Calls
------------

open Emit

/- The eightbytes of arguments on the stack. -/
def eightbytesOf (rs : Records) (args : List Argument) : Int :=
  (args.map fun a => (ArgClass.of rs a.type).eightbytes).sum

/-
  What the values of arguments move the stack by, one number
  for each argument.
-/
def ArgumentsDeepen
    (args : List Argument)
    (ns : List Int) : Prop :=
  List.Forall₂ (fun a n => a.value.Deepens n) args ns

/- The eightbytes of a record are those that it is pushed in. -/
theorem eightbytes_of_record {rs : Records} {t : CType}
    (hClass : ArgClass.of rs t = .record size first second) :
    (ArgClass.of rs t).eightbytes = (alignUp (t.size rs) 8).tdiv 8 := by
  unfold ArgClass.of at hClass ⊢
  split at hClass <;> simp_all [ArgClass.eightbytes]

/- An argument is pushed in as many eightbytes as it has. -/
theorem deepens_argument_push (rs : Records) {a : Argument} {n : Int} (hValue : a.value.Deepens n) :
    (a.push rs).Deepens (n + (ArgClass.of rs a.type).eightbytes) := by
  refine hValue.bind fun _ => ?_
  cases hClass : ArgClass.of rs a.type with
  | record size first second =>
    have hSize := eightbytes_of_record hClass
    rw [hClass] at hSize
    rw [hSize]
    refine (deepens_code _).bind fun _ => ?_
    refine (deepens_deepen _).bind fun _ => ?_
    exact (deepens_code _).of_eq (by omega)
  | vector => exact deepens_pushVector.of_eq (by simp only [ArgClass.eightbytes]; omega)
  | extended =>
    refine (deepens_code _).bind fun _ => ?_
    exact (deepens_deepen 2).of_eq (by simp only [ArgClass.eightbytes]; omega)
  | general => exact deepens_push.of_eq (by simp only [ArgClass.eightbytes]; omega)

variable {args : List Argument} {ns : List Int}

/-
  Pushing the arguments with a mark and those without one
  moves the stack by their values and by their eightbytes.
-/
theorem deepens_pushAll_marked (rs : Records) (hArgs : ArgumentsDeepen args ns)
    (marks : List Bool) (hLength : marks.length = args.length) :
    ∃ x y : Int, x + y = ns.sum ∧ (pushAll rs (((args.zip marks).filter fun m => !m.2).map
          (·.1))).Deepens
        (x + eightbytesOf rs (((args.zip marks).filter fun m => !m.2).map
            (·.1))) ∧ (pushAll rs (((args.zip marks).filter fun m => m.2).map
          (·.1))).Deepens
        (y + eightbytesOf rs (((args.zip marks).filter fun m => m.2).map (·.1))) := by
  induction hArgs generalizing marks with
  | nil => refine ⟨0, 0, rfl, ?_, ?_⟩ <;> exact deepens_pure ()
  | @cons a n args ns hValue hRest ih =>
    cases marks with
    | nil => simp at hLength
    | cons mark marks =>
      obtain ⟨x, y, hSum, hStack, hRegisters⟩ := ih marks (by simpa using hLength)
      have hPush := deepens_argument_push rs hValue
      cases mark with
      | false =>
        refine ⟨n + x, y, by simp; omega, ?_, by simpa⟩
        simp only [List.zip_cons_cons,
          List.filter_cons, Bool.not_false, if_true, List.map_cons, pushAll]
        refine hStack.bind fun _ => ?_
        refine hPush.of_eq ?_
        simp only [eightbytesOf, List.map_cons, List.sum_cons]
        omega
      | true =>
        refine ⟨x, n + y, by simp; omega, by simpa, ?_⟩
        simp only [List.zip_cons_cons, List.filter_cons, if_true, List.map_cons, pushAll]
        refine hRegisters.bind fun _ => ?_
        refine hPush.of_eq ?_
        simp only [eightbytesOf, List.map_cons, List.sum_cons]
        omega

/- The arguments marked for registers are those counted. -/
theorem eightbytesOf_marked (rs : Records) (u : RegisterUse) (args : List Argument) :
    eightbytesOf rs (((args.zip (passAll u (args.map fun a => ArgClass.of rs a.type))).filter
            fun m => m.2).map (·.1)) = pushedFor u
        (args.map fun a => ArgClass.of rs a.type) := by
  induction args generalizing u with
  | nil => rfl
  | cons a args ih =>
    simp only [List.map_cons, passAll, List.zip_cons_cons, List.filter_cons, pushedFor]
    rw [← ih]
    by_cases hMark : (u.pass (ArgClass.of rs a.type)).1 = true
    · simp [hMark, eightbytesOf]
    · simp [hMark]

theorem length_passAll (u : RegisterUse) (cs : List ArgClass) :
    (passAll u cs).length = cs.length := by
  induction cs generalizing u with
  | nil => rfl
  | cons c cs ih => simp [passAll, ih]

/- The eightbytes of arguments, added up one by one. -/
theorem foldl_eightbytes (rs : Records) (args : List Argument) (start : Int) :
    args.foldl (fun n a => n + (ArgClass.of rs a.type).eightbytes) start =
      start + eightbytesOf rs args := by
  induction args generalizing start with
  | nil => simp [eightbytesOf]
  | cons a args ih =>
    rw [List.foldl_cons, ih]
    simp only [eightbytesOf, List.map_cons, List.sum_cons]
    omega

/-
  Passing arguments moves the stack by what stays on it, by
  what was pushed for registers, and by the values themselves.
-/
theorem deepensBy_passArguments (rs : Records) (hidden : Bool) (hArgs : ArgumentsDeepen args ns) :
    (passArguments rs hidden args).DeepensBy fun stack =>
      stack + ns.sum + pushedFor (startUse hidden) (args.map fun a => ArgClass.of rs a.type) := by
  obtain ⟨x, y, hSum, hStack, hRegisters⟩ :=
    deepens_pushAll_marked rs hArgs
      (passAll (startUse hidden) (args.map fun a => ArgClass.of rs a.type))
      (by simp [length_passAll])
  rw [eightbytesOf_marked] at hRegisters
  unfold passArguments
  refine DeepensBy.bind deepens_depth fun depth => ?_
  simp only [foldl_eightbytes]
  split
  · refine DeepensBy.bind (deepens_code _) fun _ => ?_
    refine DeepensBy.bind (deepens_deepen 1) fun _ => ?_
    refine DeepensBy.bind hStack fun _ => ?_
    refine DeepensBy.bind hRegisters fun _ => ?_
    exact deepensBy_pure (by omega)
  · refine DeepensBy.bind hStack fun _ => ?_
    refine DeepensBy.bind hRegisters fun _ => ?_
    exact deepensBy_pure (by omega)

/- Each pop takes one eightbyte. -/
theorem deepens_popAll (targets : List PopTarget) : (popAll targets).Deepens (-targets.length) := by
  induction targets with
  | nil => exact deepens_pure ()
  | cons t targets ih =>
    have hPop : t.pop.Deepens (-1) := by
      cases t with
      | general n => exact deepens_pop _
      | vector n => exact deepens_popVector n
    refine hPop.bind fun _ => ?_
    exact ih.of_eq (by push_cast [List.length_cons]; omega)

/-
  A call moves the stack by what was pushed for registers and
  not popped into them, and by its parts.  The pointer to the
  result and the arguments on the stack come off again.
-/
theorem deepens_call (rs : Records) (t : CType) {callee : Emit Unit}
    {buffer? : Option ResultBuffer} {hidden : Bool} {n : Int}
    (hHidden : hidden = (decide (t.size rs > 16) && buffer?.isSome)) (hCallee : callee.Deepens n)
    (hArgs : ArgumentsDeepen args ns) :
    (call rs t callee args buffer?).Deepens (n + ns.sum + (pushedFor (startUse hidden)
            (args.map fun a => ArgClass.of rs a.type) -
          (unloadAll (startUse hidden) (args.map fun a =>
              ArgClass.of rs a.type)).1.length)) := by
  have hPointer : (if t.size rs > 16 then buffer? else none).isSome =
        hidden := by
    by_cases hLarge : t.size rs > 16 <;> simp [hHidden, hLarge]
  unfold call
  simp only [hPointer]
  refine DeepensBy.bind (deepensBy_passArguments rs hidden hArgs) fun stack => ?_
  generalize (if t.size rs > 16 then buffer? else none) = pointer? at hPointer
  cases pointer? with
  | none =>
    obtain rfl : hidden = false := by simpa using hPointer.symm
    refine hCallee.bind fun _ => ?_
    refine (deepens_popAll _).bind fun _ => ?_
    refine (deepens_code _).bind fun _ => ?_
    refine (deepens_deepen _).bind fun _ => ?_
    exact (deepens_code _).of_eq (by omega)
  | some b =>
    obtain rfl : hidden = true := by simpa using hPointer.symm
    refine (deepens_code _).bind fun _ => ?_
    refine deepens_push.bind fun _ => ?_
    refine hCallee.bind fun _ => ?_
    refine (deepens_pop _).bind fun _ => ?_
    refine (deepens_popAll _).bind fun _ => ?_
    refine (deepens_code _).bind fun _ => ?_
    refine (deepens_deepen _).bind fun _ => ?_
    exact (deepens_code _).of_eq (by omega)

------------
-- Constructs Other Than Calls
------------

variable {x y z : Emit Unit} {n m k : Int}

theorem deepens_valueOnly (want : Want) (t : Token) (hBody : x.Deepens n) :
    (valueOnly want t x).Deepens n := by
  cases want with
  | value =>
    refine (deepens_loc t).bind fun _ => ?_
    exact hBody.of_eq (by omega)
  | address => exact deepens_fail t id n

theorem deepens_loaded (want : Want) (t : Token) (after : List Assembly.Instr)
    (hAddress : x.Deepens n) : (loaded want t x after).Deepens n := by
  cases want with
  | value =>
    refine (deepens_loc t).bind fun _ => ?_
    refine hAddress.bind fun _ => ?_
    exact (deepens_code _).of_eq (by omega)
  | address => exact hAddress

theorem deepens_valueOrAddress (want : Want) (t : Token) (addressable : Bool)
    (hBody : x.Deepens n) : (valueOrAddress want t addressable x).Deepens n := by
  have hLocated : (do Emit.loc t; x : Emit Unit).Deepens n := by
    refine (deepens_loc t).bind fun _ => ?_
    exact hBody.of_eq (by omega)
  cases want with
  | value => exact hLocated
  | address =>
    cases addressable with
    | false => exact deepens_fail t id n
    | true => exact hLocated

theorem deepens_choose (rs : Records) (t : CType) (padded : Bool) (hTest : x.Deepens n)
    (hThen : y.Deepens m) (hElse : z.Deepens k) :
    (choose rs t x y z padded).Deepens (n + m + k) := by
  refine deepens_fresh.bind fun _ => ?_
  refine hTest.bind fun _ => ?_
  refine (deepens_code _).bind fun _ => ?_
  refine (deepens_code _).bind fun _ => ?_
  refine hThen.bind fun _ => ?_
  refine (deepens_code _).bind fun _ => ?_
  refine (deepens_label _).bind fun _ => ?_
  refine hElse.bind fun _ => ?_
  exact (deepens_label _).of_eq (by omega)

theorem deepens_shortCircuit (rs : Records) (isAnd : Bool) (lt rt : CType) (hLeft : x.Deepens n)
    (hRight : y.Deepens m) : (shortCircuit rs isAnd lt rt x y).Deepens (n + m) := by
  refine deepens_fresh.bind fun _ => ?_
  refine hLeft.bind fun _ => ?_
  refine (deepens_code _).bind fun _ => ?_
  refine (deepens_code _).bind fun _ => ?_
  refine hRight.bind fun _ => ?_
  refine (deepens_code _).bind fun _ => ?_
  refine (deepens_code _).bind fun _ => ?_
  refine (deepens_label _).bind fun _ => ?_
  refine (deepens_code _).bind fun _ => ?_
  exact (deepens_label _).of_eq (by omega)

theorem deepens_orInvalid (t : Token) (is? : Option (List Assembly.Instr)) :
    (orInvalid t is?).Deepens 0 := by
  cases is? with
  | none => exact deepens_fail t id 0
  | some is => exact deepens_code is

theorem deepens_binary (rs : Records) (t : Token) (op : BinOp) (result lt : CType)
    (hLeft : x.Deepens n) (hRight : y.Deepens m) :
    (binary rs t op result lt x y).Deepens (n + m) := by
  unfold binary
  split
  · refine hRight.bind fun _ => ?_
    refine deepens_pushVector.bind fun _ => ?_
    refine hLeft.bind fun _ => ?_
    refine (deepens_popVector 1).bind fun _ => ?_
    exact (deepens_orInvalid _ _).of_eq (by omega)
  · refine hLeft.bind fun _ => ?_
    refine hRight.bind fun _ => ?_
    exact (deepens_orInvalid _ _).of_eq (by omega)
  · refine hRight.bind fun _ => ?_
    refine deepens_push.bind fun _ => ?_
    refine hLeft.bind fun _ => ?_
    refine (deepens_pop _).bind fun _ => ?_
    exact (deepens_code _).of_eq (by omega)

theorem deepens_assign (rs : Records) (t : CType) (field? : Option (CType × BitField))
    (hAddress : x.Deepens n) (hValue : y.Deepens m) : (assign rs t field? x y).Deepens (n + m) := by
  refine hAddress.bind fun _ => ?_
  refine deepens_push.bind fun _ => ?_
  refine hValue.bind fun _ => ?_
  cases field? with
  | none =>
    refine (deepens_pop _).bind fun _ => ?_
    exact (deepens_code _).of_eq (by omega)
  | some field =>
    refine (deepens_code _).bind fun _ => ?_
    refine (deepens_pop _).bind fun _ => ?_
    refine (deepens_code _).bind fun _ => ?_
    exact (deepens_code _).of_eq (by omega)

theorem deepens_pointeeWidth (rs : Records) (t : CType) : (pointeeWidth rs t).Deepens 0 := by
  unfold pointeeWidth
  split
  · exact deepens_pure _
  · exact deepens_stop id 0

theorem deepens_compareExchange (rs : Records) (addrType oldType newType : CType)
    (hAddress : x.Deepens n) (hOld : y.Deepens m) (hNew : z.Deepens k) :
    (compareExchange rs addrType oldType newType x y z).Deepens (n + m + k) := by
  refine hAddress.bind fun _ => ?_
  refine deepens_push.bind fun _ => ?_
  refine hNew.bind fun _ => ?_
  refine Deepens.bind_when (deepens_code _) fun _ => ?_
  refine deepens_push.bind fun _ => ?_
  refine hOld.bind fun _ => ?_
  refine (deepens_code _).bind fun _ => ?_
  refine (deepens_pointeeWidth rs addrType).bind fun _ => ?_
  refine Deepens.bind_ite (deepens_code _) (deepens_code _) fun _ => ?_
  refine (deepens_pop _).bind fun _ => ?_
  refine (deepens_pop _).bind fun _ => ?_
  refine (deepens_code _).bind fun _ => ?_
  refine (deepens_label _).bind fun _ => ?_
  exact (deepens_code _).of_eq (by omega)

theorem deepens_exchange (rs : Records) (addrType : CType) (hAddress : x.Deepens n)
    (hValue : y.Deepens m) : (exchange rs addrType x y).Deepens (n + m) := by
  refine hAddress.bind fun _ => ?_
  refine deepens_push.bind fun _ => ?_
  refine hValue.bind fun _ => ?_
  refine (deepens_pop _).bind fun _ => ?_
  refine (deepens_pointeeWidth rs addrType).bind fun _ => ?_
  exact (deepens_code _).of_eq (by omega)

end Codegen

end CCompiler
