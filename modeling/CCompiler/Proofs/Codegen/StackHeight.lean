import Mathlib
import CCompiler.Codegen.Module

/-
  The height of the stack at each line of a piece of code.

  An instruction moves the stack pointer by a number of bytes
  that it names, or leaves it alone.  Code is laid out at a
  height: what was pushed before its first line.  The height
  at a line is that and what the lines before it push.

  Main declarations:
    * `Assembly.Instr.sinks`, `Codegen.sunk`
    * `Codegen.Along`, `Codegen.along_append`
    * `Codegen.Tidy`
    * `Assembly.Line.isPlain`, `Codegen.IsPlain`
-/

------------
-- Lines That Move the Stack
------------

namespace CCompiler

namespace Assembly

/- An operand that is the stack pointer. -/
def Operand.isStack : Operand → Bool
| .reg .rsp _ => true
| _ => false

namespace Instr

/- The bytes that an instruction moves the stack down by. -/
def sinks : Instr → Int
| .push _ => 8
| .pop _ => -8
| .alu .sub (.imm n) (.reg .rsp .quad) => n
| .alu .add (.imm n) (.reg .rsp .quad) => -n
| _ => 0

/- The operands that an instruction writes. -/
def dests : Instr → List Operand
| .mov _ d | .movWide _ _ d | .movAbs _ d | .extend _ _ d
| .lea _ d | .leaData16 _ d | .alu _ _ d | .aluWide _ _ _ d
| .shift _ _ d | .shiftOne _ d | .unary _ d | .set _ d
| .lockCmpxchg _ d | .sse _ _ d | .x87Mem _ d => [d]
| .xchg s d => [s, d]
| .pop r => [.reg r .quad]
| _ => []

/- Where an instruction may jump to. -/
def target? : Instr → Option JumpTarget
| .jump t | .jumpIf _ t | .jumpIfPadded _ t => some t
| _ => none

/- The instruction that grows a frame at run time. -/
def isGrowth : Instr → Bool
| .alu .sub (.reg .rdi .quad) (.reg .rsp .quad) => true
| _ => false

/- An instruction that adds a number to the stack pointer. -/
def isStep : Instr → Bool
| .alu .sub (.imm _) (.reg .rsp .quad)
| .alu .add (.imm _) (.reg .rsp .quad) => true
| _ => false

/-
  An instruction of which it is known how it moves the stack:
  it grows a frame, adds a number or writes something else.
-/
def isKnown (i : Instr) : Bool :=
  i.isGrowth || i.isStep || !i.dests.any Operand.isStack

/-
  An instruction that leaves the stack pointer alone and is
  neither a call nor a jump.
-/
def isPlain : Instr → Bool
| .push _ | .pop _ | .callTo _ | .jump _ | .jumpIf _ _
| .jumpIfPadded _ _ | .jumpTo _ => false
| i => !i.dests.any Operand.isStack

end Instr

namespace Line

/- The instruction of a line, if it has one. -/
def instr? : Line → Option Instr
| .instr i | .noted i _ => some i
| _ => none

/- The bytes that a line moves the stack down by. -/
def sinks (l : Line) : Int :=
  (l.instr?.map Instr.sinks).getD 0

/- Where a line may jump to. -/
def target? (l : Line) : Option JumpTarget :=
  l.instr?.bind Instr.target?

/- A line that grows a frame at run time. -/
def isGrowth (l : Line) : Bool :=
  (l.instr?.map Instr.isGrowth).getD false

/- A line that neither jumps to a digit nor grows a frame. -/
def Steady (l : Line) : Prop :=
  l.isGrowth = false ∧ ∀ n, l.target? ≠ some (.forward n) ∧
    l.target? ≠ some (.back n)

/- The number of a label that a line marks or jumps to. -/
def number? (l : Line) : Option Nat :=
  match l, l.target? with
  | .label (.numbered _ n), _ => some n
  | _, some (.label (.numbered _ n)) => some n
  | _, _ => none

/- A line of a plain instruction, or of no code. -/
def isPlain : Line → Bool
| .instr i | .noted i _ => i.isPlain
| .directive _ | .verbatim _ => true
| .label _ => false

/-
  A line that marks a label without a number, jumps to such a
  one, or jumps to an address.
-/
def isNamed (l : Line) : Bool :=
  match l, l.target? with
  | .label (.named _), _ | .label (.epilogue _), _ => true
  | .instr (.jumpTo _), _ => true
  | _, some (.label (.named _)) => true
  | _, some (.label (.epilogue _)) => true
  | _, _ => false

end Line

end Assembly

open Assembly

namespace Codegen

/- The bytes that code moves the stack down by. -/
def sunk (code : List Line) : Int :=
  (code.map Line.sinks).sum

@[simp] theorem sunk_nil : sunk [] = 0 := rfl

@[simp] theorem sunk_cons (l : Line) (ls : List Line) : sunk (l :: ls) = l.sinks + sunk ls := by
  simp [sunk]

@[simp] theorem sunk_append (xs ys : List Line) : sunk (xs ++ ys) = sunk xs + sunk ys := by
  simp [sunk]

------------
-- Properties of All Lines
------------

/- A property of each line of code and of the height at it. -/
def Along (P : Int → Line → Prop) : Int → List Line → Prop
| _, [] => True
| h, l :: ls => P h l ∧ Along P (h + l.sinks) ls

variable {P P' : Int → Line → Prop} {h : Int}

variable {xs ys : List Line}

theorem along_append :
    Along P h (xs ++ ys) ↔ Along P h xs ∧ Along P (h + sunk xs) ys := by
  induction xs generalizing h with
  | nil => simp [Along]
  | cons l xs ih => simp only [List.cons_append, Along, ih, sunk_cons, and_assoc, add_assoc]

variable {ls : List Line}

theorem Along.mono (hImp : ∀ h l, P h l → P' h l) (hAlong : Along P h ls) : Along P' h ls := by
  induction ls generalizing h with
  | nil => trivial
  | cons l ls ih => exact ⟨hImp h l hAlong.1, ih hAlong.2⟩

/- The property at some place of the code. -/
theorem Along.at {ls : List Line} (hAlong : Along P h ls) {i : Nat} {l : Line}
    (hLine : ls[i]? = some l) : P (h + sunk (ls.take i)) l := by
  induction ls generalizing h i with
  | nil => simp at hLine
  | cons l' ls ih =>
    cases i with
    | zero =>
      obtain rfl : l' = l := by simpa using hLine
      simpa using hAlong.1
    | succ i =>
      have hRest := ih hAlong.2 (by simpa using hLine)
      rw [List.take_succ_cons, sunk_cons, ← add_assoc]
      exact hRest

/- Lines that leave the stack alone are at one height. -/
theorem along_level (hLevel : ∀ l ∈ ls, l.sinks = 0) (hEach : ∀ l ∈ ls, P h l) : Along P h ls := by
  induction ls with
  | nil => trivial
  | cons l ls ih =>
    rw [List.forall_mem_cons] at hLevel hEach
    rw [Along, hLevel.1, add_zero]
    exact ⟨hEach.1, ih hLevel.2 hEach.2⟩

theorem sunk_level (hLevel : ∀ l ∈ ls, l.sinks = 0) : sunk ls = 0 := by
  induction ls with
  | nil => rfl
  | cons l ls ih =>
    rw [List.forall_mem_cons] at hLevel
    rw [sunk_cons, hLevel.1, ih hLevel.2]
    rfl

------------
-- Digits and Growth
------------

/- A digit comes first without a move of the stack. -/
def Reaches (n : Nat) : List Line → Prop
| [] => False
| l :: ls =>
  l = .label (.digit n) ∨ l ≠ .label (.digit n) ∧ l.sinks = 0 ∧ Reaches n ls

/-
  The instructions right before the growth of a frame, from
  the last to the first.  The first of them rounds the size.
-/
def roundingInstrs (bottom : Int) : List Instr :=
  [.mov .rsp .rax, .alu .sub .rsp .rcx, .mov (.slot bottom) .rcx,
    .alu .and (.mask 0xfffffff0) .edi]

/-
  Code in which each jump to a digit stays at its height, and
  each growth of a frame is by a rounded size.  The lines
  before the code are given from the last to the first.
-/
def Tidy : List Line → List Line → Prop
| _, [] => True
| before, l :: ls =>
  (∀ n, l.target? = some (.forward n) → Reaches n ls) ∧
  (∀ n, l.target? = some (.back n) → Reaches n before) ∧ (l.isGrowth = true →
    ∃ bottom, (roundingInstrs bottom).map .instr <+: before) ∧
  Tidy (l :: before) ls

theorem Reaches.append {n : Nat} (ys : List Line) (hReaches : Reaches n xs) :
    Reaches n (xs ++ ys) := by
  induction xs with
  | nil => exact hReaches.elim
  | cons l xs ih =>
    rcases hReaches with hHere | ⟨hNe, hLevel, hThere⟩
    · exact .inl hHere
    · exact .inr ⟨hNe, hLevel, ih hThere⟩

variable {before : List Line}

theorem Tidy.behind (ys : List Line) (hTidy : Tidy before xs) : Tidy (before ++ ys) xs := by
  induction xs generalizing before with
  | nil => trivial
  | cons l xs ih =>
    obtain ⟨hForward, hBack, hGrowth, hRest⟩ := hTidy
    refine ⟨hForward, fun n hn => (hBack n hn).append ys, ?_, ih hRest⟩
    intro hl
    obtain ⟨bottom, hBefore⟩ := hGrowth hl
    exact ⟨bottom, hBefore.trans (List.prefix_append _ _)⟩

theorem Tidy.append {before xs ys : List Line} (hFirst : Tidy before xs) (hRest : Tidy [] ys) :
    Tidy before (xs ++ ys) := by
  induction xs generalizing before with
  | nil => exact hRest.behind before
  | cons l xs ih =>
    obtain ⟨hForward, hBack, hGrowth, hTail⟩ := hFirst
    exact ⟨fun n hn => (hForward n hn).append ys, hBack, hGrowth, ih hTail⟩

/- Code of steady lines. -/
theorem tidy_of_steady (hSteady : ∀ l ∈ ls, l.Steady) : Tidy before ls := by
  induction ls generalizing before with
  | nil => trivial
  | cons l ls ih =>
    rw [List.forall_mem_cons] at hSteady
    obtain ⟨⟨hGrowth, hDigit⟩, hRest⟩ := hSteady
    exact ⟨fun n hn => absurd hn (hDigit n).1, fun n hn => absurd hn (hDigit n).2,
      fun hl => absurd hl (by simp [hGrowth]), ih hRest⟩

------------
-- Plain Code
------------

/- Instructions that are all plain. -/
def IsPlain (is : List Instr) : Prop :=
  ∀ i ∈ is, i.isPlain = true

variable {is : List Instr}

theorem isPlain_of_all (hAll : is.all Instr.isPlain = true) :
    IsPlain is := List.all_eq_true.mp hAll

theorem IsPlain.append {js : List Instr} (hFirst : IsPlain is) (hRest : IsPlain js) :
    IsPlain (is ++ js) := by
  intro i hi
  rcases List.mem_append.mp hi with hi | hi
  · exact hFirst i hi
  · exact hRest i hi

theorem IsPlain.cons {i : Instr} {is : List Instr} (hFirst : i.isPlain = true)
    (hRest : IsPlain is) :
    IsPlain (i :: is) := List.forall_mem_cons.mpr ⟨hFirst, hRest⟩

theorem isPlain_load (rs : Records) (t : CType) : IsPlain (load rs t) := by
  refine isPlain_of_all ?_
  unfold load
  split
  · rfl
  · split
    · rfl
    · rfl
    · split
      · cases t.isUnsigned <;> rfl
      · cases t.isUnsigned <;> rfl
      · rfl
      · rfl

variable {r : Reg}

/- Copying through a register other than the stack pointer. -/
theorem isPlain_copyBytes (n : Int) (src dst : Reg) (hReg : r ≠ .rsp) :
    IsPlain (copyBytes n src dst r) := by
  have hRead : (Operand.reg r .byte).isStack = false := by
    cases r <;> first | rfl | exact absurd rfl hReg
  intro i hi
  obtain ⟨k, -, hi⟩ := List.mem_flatMap.mp hi
  rcases List.mem_pair.mp hi with rfl | rfl
  · simp [Instr.isPlain, Instr.dests, hRead]
  · rfl

theorem isPlain_store (rs : Records) (t : CType) : IsPlain (store rs t) := by
  unfold store
  split
  · exact isPlain_copyBytes _ _ _ (by decide)
  · split <;> exact isPlain_of_all rfl

theorem isPlain_compareZero (rs : Records) (t : CType) : IsPlain (compareZero rs t) := by
  unfold compareZero
  split
  · exact isPlain_of_all rfl
  · exact isPlain_of_all rfl
  · split <;> exact isPlain_of_all rfl

theorem isPlain_negate (t : CType) : IsPlain (negate t) := by
  unfold negate
  split <;> exact isPlain_of_all rfl

theorem isPlain_intBinary (rs : Records) (op : BinOp) (t result : CType) :
    IsPlain (intBinary rs op t result) := by
  refine isPlain_of_all ?_
  cases op with
  | div | mod =>
    simp only [intBinary]
    cases result.isUnsigned <;> rfl
  | _ => rfl

variable {op : BinOp}

theorem isPlain_floatBinary {p : Precision} (hSome : floatBinary p op = some is) : IsPlain is := by
  cases op <;> cases hSome <;> exact isPlain_of_all rfl

theorem isPlain_extendedBinary (hSome : extendedBinary op = some is) : IsPlain is := by
  cases op <;> cases hSome <;> exact isPlain_of_all rfl

theorem isPlain_fieldRead (b : BitField) (isUnsigned : Bool) :
    IsPlain (fieldRead b isUnsigned) := isPlain_of_all rfl

theorem isPlain_fieldMerge (rs : Records) (t : CType) (b : BitField) :
    IsPlain (fieldMerge rs t b) :=
  ((isPlain_of_all rfl).append (isPlain_load rs t)).append (isPlain_of_all rfl)

/- Shifting a register other than the stack pointer. -/
theorem isPlain_gatherBytes (first last : Int) (hReg : r ≠ .rsp) :
    IsPlain (gatherBytes r first last) := by
  have hByte : (Operand.reg r .byte).isStack = false := by
    cases r <;> first | rfl | exact absurd rfl hReg
  have hQuad : (Operand.reg r .quad).isStack = false := by
    cases r <;> first | rfl | exact absurd rfl hReg
  intro i hi
  rcases List.mem_cons.mp hi with rfl | hi
  · simp [Instr.isPlain, Instr.dests, hQuad]
  · obtain ⟨k, -, hi⟩ := List.mem_flatMap.mp hi
    rcases List.mem_pair.mp hi with rfl | rfl
    · simp [Instr.isPlain, Instr.dests, hQuad]
    · simp [Instr.isPlain, Instr.dests, hByte]

theorem isPlain_spillBytes (offset first last : Int) (hReg : r ≠ .rsp) :
    IsPlain (spillBytes r offset first last) := by
  have hQuad : (Operand.reg r .quad).isStack = false := by
    cases r <;> first | rfl | exact absurd rfl hReg
  intro i hi
  obtain ⟨k, -, hi⟩ := List.mem_flatMap.mp hi
  rcases List.mem_pair.mp hi with rfl | rfl
  · rfl
  · simp [Instr.isPlain, Instr.dests, hQuad]

theorem isPlain_returnInRegisters (rs : Records) (t : CType) :
    IsPlain (returnInRegisters rs t) := by
  simp only [returnInRegisters]
  refine IsPlain.append (.cons rfl ?_) ?_
  · split
    · exact isPlain_of_all rfl
    · exact isPlain_gatherBytes _ _ (by decide)
  · split
    · exact isPlain_of_all rfl
    · split
      · exact isPlain_of_all rfl
      · split <;> exact isPlain_gatherBytes _ _ (by decide)

theorem isPlain_returnValue (c : Context) (t : CType) : IsPlain (returnValue c t) := by
  unfold returnValue
  split
  · exact isPlain_of_all rfl
  · split
    · exact isPlain_returnInRegisters _ _
    · exact .cons rfl (isPlain_copyBytes _ _ _ (by decide))

theorem isPlain_receiveRecord (rs : Records) (t : CType) (offset : Int) :
    IsPlain (receiveRecord rs t offset) := by
  simp only [receiveRecord]
  refine IsPlain.append ?_ ?_
  · split
    · exact isPlain_of_all rfl
    · exact isPlain_spillBytes _ _ _ (by decide)
  · split
    · exact isPlain_of_all rfl
    · split
      · exact isPlain_of_all rfl
      · split <;> exact isPlain_spillBytes _ _ _ (by decide)

theorem isPlain_receiveResult (rs : Records) (t : CType) (buffer? : Option ResultBuffer) :
    IsPlain (receiveResult rs t buffer?) := by
  unfold receiveResult
  split
  · exact isPlain_of_all rfl
  · split <;> exact isPlain_of_all rfl
  · split <;> exact isPlain_of_all rfl
  · split
    · split
      · exact (isPlain_receiveRecord _ _ _).append (isPlain_of_all rfl)
      · exact isPlain_of_all rfl
    · exact isPlain_of_all rfl

/- Lines that are all plain. -/
def LinesArePlain (ls : List Line) : Prop :=
  ∀ l ∈ ls, l.isPlain = true

theorem IsPlain.lines (hPlain : IsPlain is) : LinesArePlain (is.map .instr) :=
  List.forall_mem_map.mpr hPlain

theorem plain_of_all (hAll : ls.all Line.isPlain = true) :
    LinesArePlain ls := List.all_eq_true.mp hAll

theorem plain_floatConstant (t : CType) (x : Double) : LinesArePlain (floatConstant t x) := by
  unfold floatConstant
  split <;> exact plain_of_all rfl

theorem plain_variableAddress (c : Context) (id : ObjId) (t : CType) :
    LinesArePlain (variableAddress c id t) := by
  simp only [variableAddress]
  split
  · exact plain_of_all rfl
  · split
    · exact plain_of_all rfl
    · split
      · split <;> exact plain_of_all rfl
      · split
        · exact plain_of_all rfl
        · split <;> exact plain_of_all rfl

/- Lines that are plain or have to do with named labels. -/
def LinesAreCalm (ls : List Line) : Prop :=
  ∀ l ∈ ls, l.isPlain = true ∨ l.isNamed = true

theorem LinesArePlain.calm (hPlain : LinesArePlain ls) :
    LinesAreCalm ls := fun l hl => .inl (hPlain l hl)

theorem LinesAreCalm.append (hFirst : LinesAreCalm xs) (hRest : LinesAreCalm ys) :
    LinesAreCalm (xs ++ ys) := fun l hl =>
  (List.mem_append.mp hl).elim (hFirst l) (hRest l)

theorem calm_of_all (hAll : (ls.all fun l => l.isPlain || l.isNamed) = true) :
    LinesAreCalm ls := fun l hl =>
  (Bool.or_eq_true _ _).mp (List.all_eq_true.mp hAll l hl)

theorem calm_dispatch (w : Width) (arms : List CaseArm) (default? : Option Bytes) (brk : Bytes) :
    LinesAreCalm ((dispatch w arms default? brk).map .instr) := by
  simp only [dispatch, List.map_append]
  refine (LinesAreCalm.append ?_ ?_).append (calm_of_all rfl)
  · rw [LinesAreCalm, List.forall_mem_map]
    intro i hi
    obtain ⟨a, -, hi⟩ := List.mem_flatMap.mp hi
    have hArm : LinesAreCalm ((armTest w a).map .instr) := by
      unfold armTest
      split <;> exact calm_of_all rfl
    exact hArm _ (List.mem_map_of_mem hi)
  · cases default? <;> exact calm_of_all rfl

end Codegen

end CCompiler
