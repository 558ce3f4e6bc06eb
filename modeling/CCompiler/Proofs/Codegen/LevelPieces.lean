import Mathlib
import CCompiler.Proofs.Codegen.Depth
import CCompiler.Proofs.Codegen.Levels

/-
  The pieces of expressions leave the stack as high as they
  found it, and their calls are aligned.

  What a piece pushes it pops at the same place.  A call first
  closes the gap to an even depth, and takes off the arguments
  and the gap behind it; its arguments in registers come off
  before it.

  Main declarations:
    * `Codegen.goes_choose`, `Codegen.level_shortCircuit`
    * `Codegen.keeps_passArguments`
    * `Codegen.level_call`
-/

namespace CCompiler

open Assembly

namespace Codegen

variable {S : Int → Prop} {low d e f : Int} {G G' : Heights}

------------
-- Constructs Other Than Calls
------------

open Emit

variable {x y z : Emit Unit}

theorem level_valueOnly (want : Want) (t : Token) (hBody : Level S low x) :
    Level S low (valueOnly want t x) := by
  intro d hFloor
  cases want with
  | value =>
    refine (goes_loc t hFloor).bind fun _ => ?_
    exact hBody d hFloor
  | address => exact goes_fail t _

theorem level_loaded (want : Want) (t : Token) {after : List Instr} (hAddress : Level S low x)
    (hAfter : IsPlain after) : Level S low (loaded want t x after) := by
  intro d hFloor
  cases want with
  | value =>
    refine (goes_loc t hFloor).bind fun _ => ?_
    refine (hAddress d hFloor).bind fun _ => ?_
    exact goes_code hFloor hAfter
  | address => exact hAddress d hFloor

theorem level_valueOrAddress (want : Want) (t : Token) (addressable : Bool)
    (hBody : Level S low x) : Level S low (valueOrAddress want t addressable x) := by
  intro d hFloor
  have hLocated : Goes S low d d (do Emit.loc t; x) := by
    refine (goes_loc t hFloor).bind fun _ => ?_
    exact hBody d hFloor
  cases want with
  | value => exact hLocated
  | address =>
    cases addressable with
    | false => exact goes_fail t _
    | true => exact hLocated

variable {n : Nat}

/- Instructions that may jump to a label of this height. -/
theorem keeps_jumps {is : List Instr} (hFloor : low ≤ d) (hMarks : G.Marks n (8 * d))
    (hNear : ∀ i ∈ is, i.isPlain = true ∨ (Line.instr i).number? = some n) :
    Keeps S low d G (code is) fun _ e _ => e = d := by
  refine keeps_near (some n) hFloor ?_ (by rintro k ⟨⟩; exact hMarks)
  rw [Near, List.forall_mem_map]
  intro i hi
  rcases hNear i hi with hPlain | hNumber
  · exact .inl hPlain
  · exact .inr ⟨by simp [hNumber], hNumber⟩

theorem keeps_label (role : LabelRole) (hFloor : low ≤ d) (hMarks : G.Marks n (8 * d)) :
    Keeps S low d G (label (.numbered role n)) fun _ e _ =>
      e = d := by
  refine keeps_near (some n) hFloor ?_ (by rintro k ⟨⟩; exact hMarks)
  intro l hl
  obtain rfl := List.mem_singleton.mp hl
  exact .inr ⟨by simp [Line.number?], rfl⟩

/- The labels of a choice are at the height of the choice. -/
theorem goes_choose (rs : Records) (t : CType) (padded : Bool) (hFloor : low ≤ d)
    (hTest : Goes S low d d x) (hThen : Goes S low d d y) (hElse : Goes S low d d z) :
    Goes S low d d (choose rs t x y z padded) := by
  intro G
  refine keeps_fresh.bind ?_
  rintro n d G₀ - ⟨rfl, hMarks⟩
  refine (hTest G₀).next fun _ G₁ h₁ => ?_
  have hMarks₁ := hMarks.mono h₁
  refine (goes_code hFloor (isPlain_compareZero rs t) G₁).next fun _ G₂ h₂ => ?_
  have hMarks₂ := hMarks₁.mono h₂
  refine (keeps_jumps hFloor hMarks₂ ?_).next fun _ G₃ h₃ => ?_
  · intro i hi
    obtain rfl := List.mem_singleton.mp hi
    cases padded <;> exact .inr rfl
  have hMarks₃ := hMarks₂.mono h₃
  refine (hThen G₃).next fun _ G₄ h₄ => ?_
  have hMarks₄ := hMarks₃.mono h₄
  refine (keeps_jumps hFloor hMarks₄ ?_).next fun _ G₅ h₅ => ?_
  · intro i hi
    obtain rfl := List.mem_singleton.mp hi
    exact .inr rfl
  have hMarks₅ := hMarks₄.mono h₅
  refine (keeps_label _ hFloor hMarks₅).next fun _ G₆ h₆ => ?_
  refine (hElse G₆).next fun _ G₇ h₇ => ?_
  exact keeps_label _ hFloor ((hMarks₅.mono h₆).mono h₇)

theorem level_shortCircuit (rs : Records) (isAnd : Bool) (lt rt : CType) (hLeft : Level S low x)
    (hRight : Level S low y) : Level S low (shortCircuit rs isAnd lt rt x y) := by
  intro d hFloor G
  refine keeps_fresh.bind ?_
  rintro n e G₀ - ⟨rfl, hMarks⟩
  have hLeave : ∀ c : Cond, (Line.instr (.jumpIf c (.label
      (.numbered (if isAnd then .whenFalse else .whenTrue)
        n)))).number? = some n := fun _ => rfl
  refine (hLeft _ hFloor G₀).next fun _ G₁ h₁ => ?_
  have hMarks₁ := hMarks.mono h₁
  refine (goes_code hFloor (isPlain_compareZero rs lt) G₁).next fun _ G₂ h₂ => ?_
  have hMarks₂ := hMarks₁.mono h₂
  refine (keeps_jumps hFloor hMarks₂ ?_).next fun _ G₃ h₃ => ?_
  · intro i hi
    obtain rfl := List.mem_singleton.mp hi
    exact .inr (hLeave _)
  refine (hRight _ hFloor G₃).next fun _ G₄ h₄ => ?_
  have hMarks₄ := (hMarks₂.mono h₃).mono h₄
  refine (goes_code hFloor (isPlain_compareZero rs rt) G₄).next fun _ G₅ h₅ => ?_
  have hMarks₅ := hMarks₄.mono h₅
  refine (keeps_jumps hFloor hMarks₅ ?_).next fun _ G₆ h₆ => ?_
  · simp only [List.forall_mem_cons]
    exact ⟨.inr (hLeave _), .inl rfl, .inr rfl, by simp⟩
  have hMarks₆ := hMarks₅.mono h₆
  refine (keeps_label _ hFloor hMarks₆).next fun _ G₇ h₇ => ?_
  refine (goes_code hFloor (isPlain_of_all rfl) G₇).next fun _ G₈ h₈ => ?_
  exact keeps_label _ hFloor ((hMarks₆.mono h₇).mono h₈)

theorem goes_orInvalid (t : Token) {is? : Option (List Instr)} (hFloor : low ≤ d)
    (hPlain : ∀ is, is? = some is → IsPlain is) : Goes S low d d (orInvalid t is?) := by
  cases is? with
  | none => exact goes_fail t _
  | some is => exact goes_code hFloor (hPlain is rfl)

theorem level_binary (rs : Records) (t : Token) (op : BinOp) (result lt : CType)
    (hLeft : Level S low x) (hRight : Level S low y) :
    Level S low (binary rs t op result lt x y) := by
  intro d hFloor
  unfold binary
  split
  · refine (hRight d hFloor).bind fun _ => ?_
    refine (goes_pushVector hFloor).bind fun _ => ?_
    refine (hLeft _ (by omega)).bind fun _ => ?_
    refine (goes_popVector 1 (by omega)).bind fun _ => ?_
    rw [add_sub_cancel_right]
    exact goes_orInvalid _ hFloor fun _ hSome => isPlain_floatBinary hSome
  · refine (hLeft d hFloor).bind fun _ => ?_
    refine (hRight d hFloor).bind fun _ => ?_
    exact goes_orInvalid _ hFloor fun _ hSome => isPlain_extendedBinary hSome
  · refine (hRight d hFloor).bind fun _ => ?_
    refine (goes_push hFloor).bind fun _ => ?_
    refine (hLeft _ (by omega)).bind fun _ => ?_
    refine (goes_pop (by decide) (by omega)).bind fun _ => ?_
    rw [add_sub_cancel_right]
    exact goes_code hFloor (isPlain_intBinary _ _ _ _)

theorem level_assign (rs : Records) (t : CType) (field? : Option (CType × BitField))
    (hAddress : Level S low x) (hValue : Level S low y) : Level S low (assign rs t field? x y) := by
  intro d hFloor
  refine (hAddress d hFloor).bind fun _ => ?_
  refine (goes_push hFloor).bind fun _ => ?_
  refine (hValue _ (by omega)).bind fun _ => ?_
  cases field? with
  | none =>
    refine (goes_pop (by decide) (by omega)).bind fun _ => ?_
    rw [add_sub_cancel_right]
    exact goes_code hFloor (isPlain_store _ _)
  | some field =>
    refine (goes_code (by omega) (isPlain_fieldMerge _ _ _)).bind fun _ => ?_
    refine (goes_pop (by decide) (by omega)).bind fun _ => ?_
    rw [add_sub_cancel_right]
    refine (goes_code hFloor (isPlain_store _ _)).bind fun _ => ?_
    exact goes_code hFloor (isPlain_of_all rfl)

theorem goes_pointeeWidth (rs : Records) (t : CType) : Goes S low d d (pointeeWidth rs t) := by
  unfold pointeeWidth
  split
  · exact goes_pure _
  · exact goes_stop _

theorem still_compareAndSwap (w : Width) :
    Still ([Line.instr (.lockCmpxchg (.reg .rdx w) (.deref .rdi)),
      .instr (.set .equal .cl), .instr (.jumpIf .equal (.forward 1)),
      .instr (.mov (.reg .rax w) (.deref .r8)),
      .label (.digit 1), .instr (.extend .zeroByte .cl .eax)]) where
  lines := List.all_eq_true.mp rfl
  tidy := by
    simp [Tidy, Reaches, Line.target?, Line.isGrowth,
      Line.sinks, Line.instr?, Instr.target?, Instr.isGrowth, Instr.sinks]

theorem level_compareExchange (rs : Records) (addrType oldType newType : CType)
    (hAddress : Level S low x) (hOld : Level S low y) (hNew : Level S low z) :
    Level S low (compareExchange rs addrType oldType newType x y z) := by
  intro d hFloor
  refine (hAddress d hFloor).bind fun _ => ?_
  refine (goes_push hFloor).bind fun _ => ?_
  refine (hNew _ (by omega)).bind fun _ => ?_
  refine Goes.bind_when (goes_code (by omega) (isPlain_of_all rfl)) fun _ => ?_
  refine (goes_push (by omega)).bind fun _ => ?_
  refine (hOld _ (by omega)).bind fun _ => ?_
  refine (goes_code (by omega) (isPlain_of_all rfl)).bind fun _ => ?_
  refine (goes_pointeeWidth rs addrType).bind fun w => ?_
  refine Goes.bind_ite (goes_code (by omega)
    (isPlain_of_all rfl)) (goes_code (by omega) (isPlain_load _ _)) fun _ => ?_
  refine (goes_pop (by decide) (by omega)).bind fun _ => ?_
  refine (goes_pop (by decide) (by omega)).bind fun _ => ?_
  have hDepth : d + 1 + 1 - 1 - 1 = d := by omega
  rw [hDepth]
  exact goes_still hFloor (still_compareAndSwap w)

theorem level_exchange (rs : Records) (addrType : CType) (hAddress : Level S low x)
    (hValue : Level S low y) : Level S low (exchange rs addrType x y) := by
  intro d hFloor
  refine (hAddress d hFloor).bind fun _ => ?_
  refine (goes_push hFloor).bind fun _ => ?_
  refine (hValue _ (by omega)).bind fun _ => ?_
  refine (goes_pop (by decide) (by omega)).bind fun _ => ?_
  rw [add_sub_cancel_right]
  refine (goes_pointeeWidth rs addrType).bind fun w => ?_
  exact goes_code hFloor (isPlain_of_all rfl)

------------
-- Calls
------------

/- Arguments that are computed at one height. -/
def LevelArguments
    (S : Int → Prop)
    (low : Int)
    (args : List Argument) : Prop :=
  ∀ a ∈ args, Level S low a.value

/- Arguments that take no fewer eightbytes than none. -/
def Sized (rs : Records) (args : List Argument) : Prop :=
  ∀ a ∈ args, 0 ≤ (ArgClass.of rs a.type).eightbytes

/- What was rounded up to units is a number of these. -/
theorem dvd_alignUp (n : Int) {unit : Int} (hUnit : 0 < unit) : unit ∣ alignUp n unit := by
  unfold alignUp
  rw [if_neg (by omega)]
  exact Int.dvd_mul_left _ _

theorem goes_pushRecord (rs : Records) (t : CType) (hFloor : low ≤ d)
    (hSize : 0 ≤ (alignUp (t.size rs) 8).tdiv 8) :
    Goes S low d (d + (alignUp (t.size rs) 8).tdiv 8) (pushRecord rs t) := by
  have hWhole : alignUp (t.size rs) 8 = 8 * (alignUp (t.size rs) 8).tdiv 8 :=
    (Int.mul_tdiv_cancel' (dvd_alignUp _ (by decide))).symm
  refine Goes.shift [.alu .sub (.imm (alignUp (t.size rs) 8)) .rsp]
    ?_ (fun _ => along_known hFloor rfl (by simp) rfl rfl)
    (tidy_instrs (by simp [Instr.isGrowth, Instr.target?])) ?_
  · rw [← hWhole]
    exact add_zero _
  · exact goes_code (by omega) (isPlain_copyBytes _ _ _ (by decide))

/- An argument is pushed in as many eightbytes as it has. -/
theorem goes_argument (rs : Records) {a : Argument} (hFloor : low ≤ d)
    (hValue : Level S low a.value) (hSize : 0 ≤ (ArgClass.of rs a.type).eightbytes) :
    Goes S low d (d + (ArgClass.of rs a.type).eightbytes) (a.push rs) := by
  refine (hValue d hFloor).bind fun _ => ?_
  cases hClass : ArgClass.of rs a.type with
  | record size first second =>
    have hEightbytes := eightbytes_of_record hClass
    rw [hClass] at hEightbytes hSize
    rw [hEightbytes] at hSize ⊢
    exact goes_pushRecord rs a.type hFloor hSize
  | vector => exact goes_pushVector hFloor
  | extended =>
    refine goes_move [_, _] rfl (fun _ => ⟨fits_known (by omega)
      rfl (by simp) rfl rfl, ?_, trivial⟩)
      (tidy_instrs (by simp [Instr.isGrowth, Instr.target?]))
    exact fits_known (by change _ ≤ 8 * d + 16; omega) rfl (by simp) rfl rfl
  | general => exact goes_push hFloor

variable {args : List Argument}

theorem eightbytesOf_nonneg {rs : Records} (hSized : Sized rs args) : 0 ≤ eightbytesOf rs args :=
  List.sum_nonneg (List.forall_mem_map.mpr hSized)

theorem goes_pushAll (rs : Records) (hFloor : low ≤ d) (hArgs : LevelArguments S low args)
    (hSized : Sized rs args) : Goes S low d (d + eightbytesOf rs args) (pushAll rs args) := by
  induction args with
  | nil => exact (goes_pure ()).of_eq (add_zero d).symm
  | cons a args ih =>
    rw [LevelArguments, List.forall_mem_cons] at hArgs
    rw [Sized, List.forall_mem_cons] at hSized
    have hRoom := eightbytesOf_nonneg hSized.2
    refine (ih hArgs.2 hSized.2).bind fun _ => ?_
    refine (goes_argument rs (by omega) hArgs.1 hSized.1).of_eq ?_
    simp only [eightbytesOf, List.map_cons, List.sum_cons]
    omega

/-
  Passing arguments leaves the stack where it is aligned if
  the arguments in registers are taken off.
-/
theorem keeps_passArguments (rs : Records) (hidden : Bool) (hLow : 0 ≤ low) (hFloor : low ≤ d)
    (hArgs : LevelArguments S low args) (hSized : Sized rs args) :
    Keeps S low d G (passArguments rs hidden args) fun stack e _ =>
        e = d + stack + pushedFor (startUse hidden) (args.map fun a => ArgClass.of rs a.type) ∧
        2 ∣ d + stack ∧ 0 ≤ stack := by
  have hPart : ∀ b : Bool,
      let part := ((args.zip (passAll (startUse hidden)
        (args.map fun a => ArgClass.of rs a.type))).filter fun m => m.2 == b).map (·.1)
      LevelArguments S low part ∧ Sized rs part := by
    intro b part
    have hMem : ∀ a ∈ part, a ∈ args := by
      intro a ha
      obtain ⟨m, hm, rfl⟩ := List.mem_map.mp ha
      exact (List.of_mem_zip (List.mem_filter.mp hm).1).1
    exact ⟨fun a ha => hArgs a (hMem a ha), fun a ha => hSized a (hMem a ha)⟩
  obtain ⟨hStack, hStackSized⟩ := hPart false
  obtain ⟨hRegisters, hRegistersSized⟩ := hPart true
  simp only [beq_false, beq_true] at hStack hStackSized hRegisters hRegistersSized
  have hPushed := eightbytesOf_marked rs (startUse hidden) args
  have hRoom := eightbytesOf_nonneg hStackSized
  unfold passArguments
  refine goes_depth.bind ?_
  rintro d e G₀ - ⟨rfl, rfl⟩
  simp only [foldl_eightbytes, zero_add]
  generalize List.map Prod.fst (List.filter (fun m => !m.2) _) = onStack at *
  generalize List.map Prod.fst (List.filter (fun m => m.2) _) = inRegisters at *
  have hAll : ∀ gap : Int, 0 ≤ gap → 2 ∣ e + gap + eightbytesOf rs onStack → ∀ G,
      Keeps S low (e + gap) G (do
        pushAll rs onStack
        pushAll rs inRegisters
        pure (eightbytesOf rs onStack + gap))
        fun stack e' _ =>
          e' = e + stack + pushedFor (startUse hidden) (args.map fun a => ArgClass.of rs a.type) ∧
          2 ∣ e + stack ∧ 0 ≤ stack := by
    intro gap hGap hEven G
    refine (goes_pushAll rs (by omega) hStack hStackSized G).next fun _ G₁ _ => ?_
    refine (goes_pushAll rs (by omega) hRegisters hRegistersSized G₁).next fun _ G₂ _ => ?_
    intro r hRun
    cases hRun
    refine ⟨G₂, rfl, ⟨.refl G₂, by simp, trivial, trivial⟩, ?_⟩
    refine ⟨?_, ?_, ?_⟩
    · change e + gap + eightbytesOf rs onStack + eightbytesOf rs inRegisters =
          e + (eightbytesOf rs onStack + gap) + _
      omega
    · change 2 ∣ e + (eightbytesOf rs onStack + gap)
      omega
    · change 0 ≤ eightbytesOf rs onStack + gap
      omega
  have hParity := Int.tmod_eq_emod_of_nonneg (b := 2) (by omega : 0 ≤ e + eightbytesOf rs onStack)
  by_cases hOdd : (e + eightbytesOf rs onStack).tmod 2 = 1
  · simp only [hOdd, beq_self_eq_true, if_true]
    exact Keeps.shift [.alu .sub (.imm 8) .rsp] rfl
      (fun _ => along_known hFloor rfl (by simp) rfl rfl)
      (tidy_instrs (by simp [Instr.isGrowth, Instr.target?]))
      (hAll 1 (by omega) (by omega) G₀)
  · simp only [beq_iff_eq, hOdd, if_false]
    have hNone := hAll 0 le_rfl (by omega) G₀
    simp only [add_zero] at hNone
    exact hNone

theorem argReg_ne_rsp (n : Nat) : argReg n ≠ .rsp := by
  have hAll : ∀ r ∈ argRegs, r ≠ .rsp := by decide
  unfold argReg
  rw [List.getD_eq_getElem?_getD]
  cases hReg : argRegs[n]? with
  | none => decide
  | some r => exact hAll r (List.mem_of_getElem? hReg)

/- Each pop takes one eightbyte. -/
theorem goes_popAll (targets : List PopTarget) (hFloor : low ≤ d - targets.length) :
    Goes S low d (d - targets.length) (popAll targets) := by
  induction targets generalizing d with
  | nil => exact (goes_pure ()).of_eq (sub_zero d).symm
  | cons t targets ih =>
    rw [List.length_cons] at hFloor
    push_cast at hFloor
    have hPop : Goes S low d (d - 1) t.pop := by
      cases t with
      | general n => exact goes_pop (argReg_ne_rsp n) (by omega)
      | vector n => exact goes_popVector n (by omega)
    refine hPop.bind fun _ => ?_
    exact (ih (by omega)).of_eq (by push_cast [List.length_cons]; omega)

/- The call itself, and the arguments that come off. -/
theorem goes_callTo (use : Nat) {stack : Int} (hFloor : low ≤ d + stack) (hEven : 2 ∣ d + stack)
    {k : Unit → Emit Unit} (hRest : Goes S low d d (k ())) :
    Goes S low (d + stack) d (Emit.code [.mov .rax .r10, .mov (.imm use) .rax, .callTo .r10,
      .alu .add (.imm (stack * 8)) .rsp] >>= fun _ =>
        Emit.deepen (-stack) >>= k) := by
  have hPlain : ∀ i : Instr, i.isPlain = true →
      ∀ G, Fits S (8 * low) G (8 * (d + stack)) (.instr i) := by
    intro i hi G
    exact (facts_of_plain (l := .instr i) hi (by omega)).2.1
  have hBack : Goes S low (d + stack + -stack) d (k ()) := by rwa [add_neg_cancel_right]
  refine Goes.shift _ ?_ (fun G => ?_) (tidy_instrs (by simp [Instr.isGrowth, Instr.target?])) hBack
  · simp only [List.map_cons, List.map_nil, sunk_cons, sunk_nil,
      Line.sinks, Line.instr?, Option.map_some, Option.getD_some, Instr.sinks]
    omega
  · simp only [List.map_cons, List.map_nil, Along, Line.sinks,
      Line.instr?, Option.map_some, Option.getD_some,
      Instr.sinks, add_zero, and_true]
    refine ⟨hPlain _ rfl G, hPlain _ rfl G, ?_, fits_known (by omega) rfl (by simp) rfl rfl⟩
    exact {
      floor := by omega
      call := fun _ => by omega
      number := by rintro n ⟨⟩
      named := by rintro ⟨⟩
      known := by rintro i ⟨⟩; rfl }

/-
  A call whose arguments are popped as they were pushed is at
  an even depth and leads back to where it began.
-/
theorem level_call (rs : Records) (t : CType) {callee : Emit Unit} {buffer? : Option ResultBuffer}
    {hidden : Bool} (hLow : 0 ≤ low)
    (hHidden : hidden = (decide (t.size rs > 16) && buffer?.isSome))
    (hAgree : AllMatched (startUse hidden) (startUse hidden)
      (args.map fun a => ArgClass.of rs a.type)) (hCallee : Level S low callee)
    (hArgs : LevelArguments S low args) (hSized : Sized rs args) :
    Level S low (call rs t callee args buffer?) := by
  have hPointer : (if t.size rs > 16 then buffer? else none).isSome =
        hidden := by
    by_cases hLarge : t.size rs > 16 <;> simp [hHidden, hLarge]
  have hPopped := hAgree.length_unloadAll
  intro d hFloor G
  unfold call
  simp only [hPointer]
  refine (keeps_passArguments rs hidden hLow hFloor hArgs hSized).bind ?_
  rintro stack e G₁ - ⟨rfl, hEven, hStack⟩
  have hPop : Goes S low (d + stack + pushedFor (startUse hidden)
      (args.map fun a => ArgClass.of rs a.type)) (d + stack)
      (popAll (unloadAll (startUse hidden) (args.map fun a => ArgClass.of rs a.type)).1) :=
    (goes_popAll _ (by omega)).of_eq (by omega)
  have hPushed : 0 ≤ pushedFor (startUse hidden)
      (args.map fun a => ArgClass.of rs a.type) := by omega
  generalize (if t.size rs > 16 then buffer? else none) = pointer? at hPointer
  cases pointer? with
  | none =>
    obtain rfl : hidden = false := by simpa using hPointer.symm
    refine (hCallee _ (by omega) G₁).next fun _ G₂ _ => ?_
    refine (hPop G₂).next fun _ G₃ _ => ?_
    exact goes_callTo _ (by omega) hEven (goes_code hFloor (isPlain_receiveResult _ _ _)) G₃
  | some b =>
    obtain rfl : hidden = true := by simpa using hPointer.symm
    refine (goes_code (by omega) (isPlain_of_all rfl) G₁).next fun _ G₂ _ => ?_
    refine (goes_push (by omega) G₂).next fun _ G₃ _ => ?_
    refine (hCallee _ (by omega) G₃).next fun _ G₄ _ => ?_
    refine (((goes_pop (argReg_ne_rsp 0) (by omega)).of_eq
      (add_sub_cancel_right _ _)) G₄).next fun _ G₅ _ => ?_
    refine (hPop G₅).next fun _ G₆ _ => ?_
    exact goes_callTo _ (by omega) hEven (goes_code hFloor (isPlain_receiveResult _ _ _)) G₆

end Codegen

end CCompiler
