import Mathlib
import CCompiler.Assembly.Instr
import CCompiler.Codegen.Emit

/-
  A machine that runs the instructions on integers, and what
  pieces of code do on it wherever they stand.

  Registers hold 64 bits and memory holds bytes.  Only
  comparisons leave flags; after any other operation their
  state is not relied on.  An instruction without a meaning
  here, a division that traps and a jump to no place stop the
  machine.

  Code is run between other lines.  A jump finds its label in
  the code itself, since the numbered labels of a piece lie
  between two counts, and the lines before it have none above
  the lower one.

  Main declarations:
    * `Machine`, `Machine.read?`, `Machine.write?`
    * `Machine.exec?`
    * `Machine.step?`, `Machine.Runs`
    * `Machine.Kept`
    * `Machine.Takes`, `Machine.Takes.append`
    * `Codegen.Does`, `Codegen.Does.bind`
-/

------------
-- Words and Memory
------------

namespace CCompiler

open Assembly

/- The number of bytes of a width. -/
def Assembly.Width.bytes : Width → Nat
| .byte => 1
| .word => 2
| .long => 4
| .quad => 8

/- The number of bits of a width. -/
def Assembly.Width.bits : Width → Nat
| .byte => 8
| .word => 16
| .long => 32
| .quad => 64

/- The memory of a machine. -/
abbrev Memory := BitVec 64 → BitVec 8

namespace Memory

/- The number that some bytes from an address on hold. -/
def bytesAt (mem : Memory) (a : BitVec 64) : Nat → Nat
| 0 => 0
| n + 1 => (mem a).toNat + 256 * bytesAt mem (a + 1) n

/- The word of a width at an address. -/
def load
    (mem : Memory)
    (a : BitVec 64)
    (w : Width) : BitVec w.bits :=
  BitVec.ofNat w.bits (mem.bytesAt a w.bytes)

/- Memory with a word of a width at an address. -/
def store
    (mem : Memory)
    (a : BitVec 64)
    (w : Width)
    (x : BitVec w.bits) : Memory :=
  fun b =>
    if (b - a).toNat < w.bytes then
      BitVec.ofNat 8 (x.toNat / 256 ^ (b - a).toNat)
    else mem b

end Memory

------------
-- Flags
------------

/- What a comparison tells about two words. -/
structure Flags where
  zero : Bool
  sign : Bool
  carry : Bool
  overflow : Bool
deriving DecidableEq, Repr

/- The flags of a difference. -/
def Flags.ofSub {n : Nat} (a b : BitVec n) : Flags where
  zero := a == b
  sign := (a - b).msb
  carry := a.ult b
  overflow := a.ssubOverflow b

/- Whether a condition holds; parity is not kept. -/
def Assembly.Cond.holds? (f : Flags) : Cond → Option Bool
| .equal => some f.zero
| .notEqual => some (!f.zero)
| .below => some f.carry
| .belowOrEqual => some (f.carry || f.zero)
| .above => some (!f.carry && !f.zero)
| .aboveOrEqual => some (!f.carry)
| .less => some (f.sign != f.overflow)
| .lessOrEqual => some (f.zero || f.sign != f.overflow)
| .sign => some f.sign
| .noSign => some (!f.sign)
| .parity | .noParity => none

------------
-- Operands
------------

/- The state of a machine apart from its place in the code. -/
structure Machine where
  regs : Reg → BitVec 64
  flags? : Option Flags
  mem : Memory

namespace Machine

/- A register with another value. -/
def set (m : Machine) (r : Reg) (x : BitVec 64) : Machine :=
  { m with regs := fun s => if s = r then x else m.regs s }

/-
  A part of a register with another value.  A part of 32 bits
  clears the upper half, a smaller one keeps the rest.
-/
def setPart
    (m : Machine)
    (r : Reg) : (w : Width) → BitVec w.bits → Machine
| .byte, x => m.set r ((m.regs r).extractLsb' 8 56 ++ x)
| .word, x => m.set r ((m.regs r).extractLsb' 16 48 ++ x)
| .long, x => m.set r (x.setWidth 64)
| .quad, x => m.set r x

/- The flags are no longer relied on. -/
def unflagged (m : Machine) : Machine :=
  { m with flags? := none }

/- The address of memory at a distance from a register. -/
def address
    (m : Machine)
    (base : Reg)
    (disp? : Option Int) : BitVec 64 :=
  m.regs base + BitVec.ofInt 64 (disp?.getD 0)

/- The value of an operand in a width. -/
def read?
    (m : Machine)
    (w : Width) : Operand → Option (BitVec w.bits)
| .imm n => some (BitVec.ofInt w.bits n)
| .reg r w' =>
  if w' = w then some ((m.regs r).setWidth w.bits) else none
| .mem base disp? => some (m.mem.load (m.address base disp?) w)
| _ => none

/- Another value for an operand. -/
def write?
    (m : Machine)
    (w : Width)
    (x : BitVec w.bits) : Operand → Option Machine
| .reg r w' => if w' = w then some (m.setPart r w x) else none
| .mem base disp? =>
  some { m with mem := m.mem.store (m.address base disp?) w x }
| _ => none

end Machine

/- The width that an operand has by itself. -/
def Assembly.Operand.width? : Operand → Option Width
| .reg _ w => some w
| _ => none

------------
-- Instructions
------------

namespace Machine

/- The result of an operation, if it has one, on words. -/
def aluResult? {n : Nat} (a b : BitVec n) :
    AluOp → Option (BitVec n)
| .add => some (a + b)
| .sub => some (a - b)
| .imul => some (a * b)
| .and => some (a &&& b)
| .or => some (a ||| b)
| .xor => some (a ^^^ b)
| .cmp | .test => none

/-
  An operation on a destination and a source.  A comparison
  sets the flags only.
-/
def alu?
    (m : Machine)
    (op : AluOp)
    (w : Width)
    (src dst : Operand) : Option Machine := do
  let a ← m.read? w dst
  let b ← m.read? w src
  match op with
  | .cmp => some { m with flags? := some (.ofSub a b) }
  | .test => some { m with flags? := some (.ofSub (a &&& b) 0) }
  | op => m.unflagged.write? w (← aluResult? a b op) dst

/- A word moved by a number of places. -/
def shifted {n : Nat} (a : BitVec n) (count : Nat) :
    ShiftOp → BitVec n
| .left => a <<< count
| .right => a >>> count
| .arithmeticRight => a.sshiftRight count

/-
  A division of the double word in two registers.  It traps if
  the divisor is zero or the quotient does not fit.
-/
def divide?
    (m : Machine)
    (w : Width)
    (d : BitVec w.bits) : Option Machine :=
  let n := ((m.regs .rdx).setWidth w.bits).toNat * 2 ^ w.bits +
    ((m.regs .rax).setWidth w.bits).toNat
  if d.toNat = 0 ∨ 2 ^ w.bits ≤ n / d.toNat then none
  else some
    ((m.unflagged.setPart .rax w
      (BitVec.ofNat w.bits (n / d.toNat))).setPart .rdx w
        (BitVec.ofNat w.bits (n % d.toNat)))

/- A division that takes its operands as signed. -/
def divideSigned?
    (m : Machine)
    (w : Width)
    (d : BitVec w.bits) : Option Machine :=
  let n := ((m.regs .rdx).setWidth w.bits).toInt * 2 ^ w.bits +
    ((m.regs .rax).setWidth w.bits).toNat
  let q := n.tdiv d.toInt
  if d.toInt = 0 ∨ q < -2 ^ (w.bits - 1) ∨ 2 ^ (w.bits - 1) ≤ q then none
  else some
    ((m.unflagged.setPart .rax w (BitVec.ofInt w.bits q)).setPart .rdx w
        (BitVec.ofInt w.bits (n.tmod d.toInt)))

/- An operation on one operand; divisions have words of 32 or 64 bits. -/
def unary?
    (m : Machine)
    (op : UnaryOp)
    (w : Width)
    (dst : Operand) : Option Machine := do
  let a ← m.read? w dst
  match op with
  | .neg => m.unflagged.write? w (-a) dst
  | .not => m.write? w (~~~a) dst
  | .inc => m.unflagged.write? w (a + 1) dst
  | .dec => m.unflagged.write? w (a - 1) dst
  | .div => if w.bits < 32 then none else m.divide? w a
  | .idiv => if w.bits < 32 then none else m.divideSigned? w a

/- The width that a widening move starts from. -/
def sourceWidth : Extension → Width
| .signByte | .zeroByte | .zeroByteAny | .zeroByteQuad => .byte
| .signWord | .zeroWord => .word
| .signLong => .long

/- The width that a widening move leads to, if it fixes one. -/
def resultWidth? : Extension → Option Width
| .signByte | .zeroByte | .signWord | .zeroWord => some .long
| .signLong | .zeroByteQuad => some .quad
| .zeroByteAny => none

/- A word in a larger width. -/
def widened {n : Nat} (k : Nat) (a : BitVec n) :
    Extension → BitVec k
| .signByte | .signWord | .signLong => a.signExtend k
| .zeroByte | .zeroWord | .zeroByteAny | .zeroByteQuad =>
  a.setWidth k

/- A widening move. -/
def extend?
    (m : Machine)
    (x : Extension)
    (src dst : Operand) : Option Machine := do
  let a ← m.read? (sourceWidth x) src
  let w ← dst.width?
  if (resultWidth? x).getD w = w then
    m.write? w (widened w.bits a x) dst
  else none

/- Run an instruction that is no jump. -/
def exec? (m : Machine) : Instr → Option Machine
| .mov src dst => do
  let w ← dst.width? <|> src.width?
  m.write? w (← m.read? w src) dst
| .extend x src dst => m.extend? x src dst
| .lea (.mem base disp?) (.reg r .quad) =>
  some (m.set r (m.address base disp?))
| .push r =>
  let top := m.regs .rsp - 8
  some { m.set .rsp top with
    mem := m.mem.store top .quad (m.regs r) }
| .pop r =>
  let top := m.regs .rsp
  some ((m.set .rsp (top + 8)).set r (m.mem.load top .quad))
| .alu op src dst => do
  let w ← dst.width? <|> src.width?
  m.alu? op w src dst
| .shift op count dst => do
  let w ← dst.width?
  let a ← m.read? w dst
  let n ← m.read? .byte count
  let most := if w = Width.quad then 64 else 32
  m.unflagged.write? w (shifted a (n.toNat % most) op) dst
| .unary op dst => do
  let w ← dst.width?
  m.unary? op w dst
| .signExtendAcc w =>
  let a := (m.regs .rax).setWidth w.bits
  some (m.setPart .rdx w (if a.msb then -1 else 0))
| .set c dst => do
  let b ← c.holds? (← m.flags?)
  m.write? .byte (if b then 1 else 0) dst
| _ => none

end Machine

------------
-- Code
------------

namespace Machine

/- A machine at a place of the code. -/
structure State where
  pc : Nat
  machine : Machine

/- The place of a target. -/
def target? (code : List Line) : JumpTarget → Option Nat
| .label l => code.idxOf? (.label l)
| _ => none

/- Whether a jump is taken. -/
def taken? (m : Machine) (c : Cond) : Option Bool := do
  c.holds? (← m.flags?)

/- Run an instruction at a place of the code. -/
def stepInstr?
    (code : List Line)
    (s : State) : Instr → Option State
| .jump t => do
  return ⟨← target? code t, s.machine⟩
| .jumpIf c t | .jumpIfPadded c t => do
  if ← s.machine.taken? c then
    return ⟨← target? code t, s.machine⟩
  else
    return ⟨s.pc + 1, s.machine⟩
| i => do
  return ⟨s.pc + 1, ← s.machine.exec? i⟩

/- Run the line at a place of the code. -/
def step? (code : List Line) (s : State) : Option State := do
  match ← code[s.pc]? with
  | .label _ | .directive _ => return { s with pc := s.pc + 1 }
  | .instr i | .noted i _ => stepInstr? code s i
  | .verbatim _ => none

/- One state leads to another one by running lines. -/
def Runs (code : List Line) : State → State → Prop :=
  Relation.ReflTransGen fun s s' => step? code s = some s'

end Machine

end CCompiler

------------
-- Memory
------------

namespace CCompiler

open Assembly

namespace Memory

variable {mem mem' : Memory}

variable {low : BitVec 64}

/- Bytes above an address that are the same hold the same. -/
theorem bytesAt_above (hSame : ∀ b, low ≤ b → mem' b = mem b) (n : Nat) (a : BitVec 64)
    (hLow : low ≤ a) (hTop : a.toNat + n ≤ 2 ^ 64) : mem'.bytesAt a n = mem.bytesAt a n := by
  induction n generalizing a with
  | zero => rfl
  | succ n ih =>
    rw [bytesAt, bytesAt, hSame a hLow]
    cases n with
    | zero => rfl
    | succ n =>
      have hNext : (a + 1).toNat = a.toNat + 1 := by bv_omega
      rw [BitVec.le_def] at hLow
      rw [ih (a + 1) (by rw [BitVec.le_def]; omega) (by omega)]

variable {a : BitVec 64}

theorem load_above (hSame : ∀ b, low ≤ b → mem' b = mem b) {w : Width} (hLow : low ≤ a)
    (hTop : a.toNat + w.bytes ≤ 2 ^ 64) : mem'.load a w = mem.load a w := by
  unfold load
  rw [bytesAt_above hSame w.bytes a hLow hTop]

/- Some bytes of a word that was stored. -/
theorem bytesAt_store (mem : Memory) (a : BitVec 64) (w : Width) (x : BitVec w.bits) (n k : Nat)
    (hInside : k + n ≤ w.bytes) :
    (mem.store a w x).bytesAt (a + BitVec.ofNat 64 k) n = x.toNat / 256 ^ k % 256 ^ n := by
  have hSmall : w.bytes ≤ 8 := by cases w <;> decide
  induction n generalizing k with
  | zero => simp [bytesAt, Nat.mod_one]
  | succ n ih =>
    have hPlace : (a + BitVec.ofNat 64 k - a).toNat = k := by
      rw [BitVec.add_comm, BitVec.add_sub_cancel, BitVec.toNat_ofNat]
      exact Nat.mod_eq_of_lt (by omega)
    have hNext : a + BitVec.ofNat 64 k + 1 = a + BitVec.ofNat 64 (k + 1) := by
      rw [BitVec.add_assoc]
      congr 1
      exact (BitVec.ofNat_add k 1).symm
    have hByte : (mem.store a w x (a + BitVec.ofNat 64 k)).toNat = x.toNat / 256 ^ k % 256 := by
      simp only [store, hPlace]
      rw [if_pos (by omega), BitVec.toNat_ofNat]
    rw [bytesAt, hNext, ih (k + 1) (by omega), hByte,
      pow_succ' 256 n, Nat.mod_mul, Nat.div_div_eq_div_mul, ← pow_succ]

/- A word that was stored is loaded again. -/
theorem load_store (mem : Memory) (a : BitVec 64) (w : Width) (x : BitVec w.bits) :
    (mem.store a w x).load a w = x := by
  have hAll := bytesAt_store mem a w x w.bytes 0 (by simp)
  simp only [BitVec.add_zero, pow_zero, Nat.div_one] at hAll
  have hBits : 256 ^ w.bytes = 2 ^ w.bits := by cases w <;> decide
  unfold load
  rw [hAll, hBits, Nat.mod_eq_of_lt x.isLt, BitVec.ofNat_toNat, BitVec.setWidth_eq]

/- What was pushed lies below the old top of the stack. -/
theorem store_above (mem : Memory) {top : BitVec 64} (x : BitVec (Width.bits .quad))
    (hRoom : 8 ≤ top.toNat) (hAbove : top ≤ a) : mem.store (top - 8) .quad x a = mem a := by
  have hFar : ¬ (a - (top - 8)).toNat < 8 := by
    rw [BitVec.le_def] at hAbove
    bv_omega
  simp only [store, Width.bytes, hFar, if_false]

end Memory

namespace Machine

/-
  A run that leaves the stack pointer, the frame pointer and
  all memory in use as they were.
-/
structure Kept (m m' : Machine) : Prop where
  stack : m'.regs .rsp = m.regs .rsp
  frame : m'.regs .rbp = m.regs .rbp
  memory : ∀ a, m.regs .rsp ≤ a → m'.mem a = m.mem a

theorem Kept.refl (m : Machine) : Kept m m := ⟨rfl, rfl, fun _ _ => rfl⟩

theorem Kept.trans {m₁ m₂ m₃ : Machine} (hFirst : Kept m₁ m₂) (hNext : Kept m₂ m₃) : Kept m₁ m₃ :=
  ⟨hNext.stack.trans hFirst.stack, hNext.frame.trans hFirst.frame,
    fun a ha => (hNext.memory a (hFirst.stack ▸ ha)).trans (hFirst.memory a ha)⟩

end Machine

variable {is : List Instr}

------------
-- Code in Its Place
------------

namespace Machine

/- Lines that have no numbered label above a count. -/
def Fresh (lo : Nat) (code : List Line) : Prop :=
  ∀ role n, Line.label (.numbered role n) ∈ code → n ≤ lo

/- Lines whose labels are numbered between two counts. -/
def Within (lo hi : Nat) (code : List Line) : Prop :=
  ∀ l, Line.label l ∈ code → ∃ role n, l = .numbered role n ∧ lo < n ∧ n ≤ hi

/- Code leads from one state to another wherever it stands. -/
def Takes
    (lo : Nat)
    (code : List Line)
    (m m' : Machine) : Prop :=
  ∀ before after, Fresh lo before →
    Runs (before ++ code ++ after) ⟨before.length, m⟩
      ⟨before.length + code.length, m'⟩

variable {lo hi : Nat} {code : List Line} {m m' : Machine}

variable {a b : List Line}

theorem fresh_append (hFirst : Fresh lo a) (hNext : Fresh lo b) :
    Fresh lo (a ++ b) := fun role n hMem =>
  (List.mem_append.mp hMem).elim (hFirst role n) (hNext role n)

theorem Fresh.mono (hFresh : Fresh lo code) (hLe : lo ≤ hi) :
    Fresh hi code := fun role n hMem =>
  (hFresh role n hMem).trans hLe

theorem Within.fresh (hWithin : Within lo hi code) : Fresh hi code := by
  intro role n hMem
  obtain ⟨_, _, hEq, -, hLe⟩ := hWithin _ hMem
  cases hEq
  exact hLe

theorem Within.append {mid : Nat} (hFirst : Within lo mid a) (hNext : Within mid hi b)
    (hLow : lo ≤ mid) (hHigh : mid ≤ hi) : Within lo hi (a ++ b) := by
  intro l hMem
  rcases List.mem_append.mp hMem with hMem | hMem
  · obtain ⟨role, n, hEq, hLo, hHi⟩ := hFirst l hMem
    exact ⟨role, n, hEq, hLo, hHi.trans hHigh⟩
  · obtain ⟨role, n, hEq, hLo, hHi⟩ := hNext l hMem
    exact ⟨role, n, hEq, by omega, hHi⟩

/- Instructions have no labels. -/
theorem fresh_instrs (is : List Instr) : Fresh lo (is.map .instr) := by
  intro role n hMem
  simp at hMem

variable {s : State}

/- The state after one line. -/
theorem runs_one {s' : State} (hStep : step? code s = some s') :
    Runs code s s' := .single hStep

theorem takes_nil (m : Machine) : Takes lo [] m m := by
  intro before after _
  exact .refl

/- Code one piece after the other. -/
theorem Takes.append {m₁ m₂ m₃ : Machine} (hFirst : Takes lo a m₁ m₂) (hOwn : Fresh hi a)
    (hLe : lo ≤ hi) (hNext : Takes hi b m₂ m₃) : Takes lo (a ++ b) m₁ m₃ := by
  intro before after hFresh
  have hOne := hFirst before (b ++ after) hFresh
  have hTwo := hNext (before ++ a) after (fresh_append (hFresh.mono hLe) hOwn)
  simp only [List.append_assoc, List.length_append, Nat.add_assoc] at hOne hTwo ⊢
  exact hOne.trans hTwo

/- The line that stands after some others. -/
theorem getElem?_after (before : List Line) (line : Line) (after : List Line) :
    (before ++ line :: after)[before.length]? = some line := by simp

/- A line that does nothing. -/
theorem step?_label (l : Label) (before after : List Line) (hPc : s.pc = before.length) :
    step? (before ++ .label l :: after) s = some { s with pc := s.pc + 1 } := by
  unfold step?
  rw [hPc, getElem?_after]
  rfl

theorem takes_directive (d : Assembly.Directive) (m : Machine) : Takes lo [.directive d] m m := by
  intro before after _
  refine runs_one ?_
  unfold step?
  rw [List.append_assoc, List.singleton_append, getElem?_after]
  rfl

/- An instruction that is no jump. -/
theorem takes_instr {i : Instr} (hExec : m.exec? i = some m') : Takes lo [.instr i] m m' := by
  intro before after _
  refine runs_one ?_
  unfold step?
  rw [List.append_assoc, List.singleton_append, getElem?_after]
  simp only [Option.bind_eq_bind, Option.bind_some]
  cases i <;> first
    | simp only [stepInstr?, hExec]; rfl
    | cases hExec

/- Run instructions one after the other. -/
def execAll? (m : Machine) : List Instr → Option Machine
| [] => some m
| i :: is => (m.exec? i).bind (execAll? · is)

theorem takes_instrs (hExec : m.execAll? is = some m') : Takes lo (is.map .instr) m m' := by
  induction is generalizing m with
  | nil =>
    cases hExec
    exact takes_nil _
  | cons i is ih =>
    obtain ⟨m₁, hFirst, hRest⟩ := Option.bind_eq_some_iff.mp hExec
    exact (takes_instr hFirst).append (fresh_instrs [i]) le_rfl (ih hRest)

end Machine

------------
-- Jumps
------------

namespace Machine

variable {lo n : Nat} {role : LabelRole} {m m' : Machine}

/- The place of a label that stands once. -/
theorem target?_label {l : Label} (before after : List Line) (hNew : Line.label l ∉ before) :
    target? (before ++ .label l :: after) (.label l) = some before.length := by
  unfold target?
  induction before with
  | nil => simp [List.idxOf?_cons]
  | cons line before ih =>
    simp only [List.mem_cons, not_or] at hNew
    obtain ⟨hFirst, hRest⟩ := hNew
    have hOther : (line == Line.label l) = false := beq_eq_false_iff_ne.mpr (Ne.symm hFirst)
    simp only [List.cons_append, List.idxOf?_cons, hOther, Bool.false_eq_true, if_false, ih hRest]
    rfl

/- A label is passed over. -/
theorem takes_label (l : Label) (m : Machine) : Takes lo [.label l] m m := by
  intro before after _
  rw [List.append_assoc, List.singleton_append]
  exact runs_one (step?_label l before after rfl)

/- An instruction goes to a label. -/
def Jumps (i : Instr) (l : Label) (m : Machine) : Prop :=
  ∀ code pc, stepInstr? code ⟨pc, m⟩ i = (target? code (.label l)).map (⟨·, m⟩)

theorem jumps_jump (l : Label) (m : Machine) : Jumps (.jump (.label l)) l m := by
  intro code pc
  simp only [stepInstr?]
  cases target? code (.label l) <;> rfl

variable {c : Cond}

theorem jumps_jumpIf (l : Label) (hTaken : m.taken? c = some true) :
    Jumps (.jumpIf c (.label l)) l m := by
  intro code pc
  simp only [stepInstr?, hTaken, Option.bind_eq_bind, Option.bind_some, if_true]
  cases target? code (.label l) <;> rfl

/- A jump that is not taken. -/
theorem takes_jumpIf (l : Label) (hTaken : m.taken? c = some false) :
    Takes lo [.instr (.jumpIf c (.label l))] m m := by
  intro before after _
  refine runs_one ?_
  unfold step?
  rw [List.append_assoc, List.singleton_append, getElem?_after]
  simp only [Option.bind_eq_bind, Option.bind_some,
    stepInstr?, hTaken, Bool.false_eq_true, if_false]
  rfl

/-
  A jump over some lines to a new label, after code that has
  no such label.
-/
theorem Takes.jump {a b : List Line} {i : Instr} (hBefore : Takes n a m m') (hNew : lo < n)
    (hNotBefore : Line.label (.numbered role n) ∉ a)
    (hNotOver : Line.label (.numbered role n) ∉ b) (hJumps : Jumps i (.numbered role n) m') :
    Takes lo (a ++ .instr i :: b ++ [.label (.numbered role n)]) m m' := by
  intro before after hFresh
  have hOutside : Line.label (.numbered role n) ∉ before :=
    fun hMem => by
      have hLe := hFresh role n hMem
      omega
  -- The whole code, cut where the jump and its label stand.
  have hFirst := hBefore before (.instr i :: b ++ .label (.numbered role n) :: after)
    (hFresh.mono hNew.le)
  have hTarget := target?_label (before ++ a ++ .instr i :: b) after (l := .numbered role n) (by
      simp only [List.mem_append, List.mem_cons, reduceCtorEq, false_or]
      tauto)
  have hJump : step? (before ++ a ++ .instr i :: b ++ .label (.numbered role n) :: after)
      ⟨(before ++ a).length, m'⟩ =
      some ⟨(before ++ a ++ .instr i :: b).length, m'⟩ := by
    unfold step?
    rw [List.append_assoc (before ++ a), List.cons_append, getElem?_after]
    simp only [Option.bind_eq_bind, Option.bind_some]
    rw [hJumps, ← List.cons_append, ← List.append_assoc, hTarget]
    rfl
  have hLabel := step?_label (.numbered role n) (before ++ a ++ .instr i :: b) after
    (s := ⟨(before ++ a ++ .instr i :: b).length, m'⟩) rfl
  have hRest := (runs_one hJump).trans (runs_one hLabel)
  simp only [List.append_assoc, List.cons_append,
    List.nil_append, List.length_append, List.length_cons,
    List.length_nil, Nat.add_assoc, zero_add]
    at hFirst hRest ⊢
  exact hFirst.trans hRest

end Machine

------------
-- Computations That Write Code
------------

namespace Codegen

open Machine

/-
  What a computation wrote: how much deeper the stack is, which
  labels the code has, and where it leads from a machine that
  meets a condition.
-/
structure Acts
    (d : Int)
    (k : Counters)
    (r : Emitted Unit)
    (P : Machine → Prop)
    (T : Machine → Machine → Prop) : Prop where
  depth : r.counters.depth = k.depth + d
  labels : k.labels ≤ r.counters.labels
  within : Within k.labels r.counters.labels r.code
  runs : ∀ m, P m → ∃ m', Takes k.labels r.code m m' ∧ T m m'

/- A computation writes code that does this, whatever the counters. -/
def Does
    (d : Int)
    (x : Emit Unit)
    (P : Machine → Prop)
    (T : Machine → Machine → Prop) : Prop :=
  ∀ k, ∃ r, x k = .ok r ∧ Acts d k r P T

variable {d e : Int} {x y : Emit Unit} {P Q : Machine → Prop}
  {T U R : Machine → Machine → Prop}

theorem Does.mono (hDoes : Does d x P T) (hPre : ∀ m, Q m → P m)
    (hPost : ∀ m m', Q m → T m m' → R m m') : Does d x Q R := by
  intro k
  obtain ⟨r, hRun, hActs⟩ := hDoes k
  refine ⟨r, hRun, { hActs with runs := fun m hQ => ?_ }⟩
  obtain ⟨m', hTakes, hT⟩ := hActs.runs m (hPre m hQ)
  exact ⟨m', hTakes, hPost m m' hQ hT⟩

/- One computation after the other. -/
theorem Does.bind (hFirst : Does d x P T) (hNext : Does e y Q U)
    (hBetween : ∀ m m', P m → T m m' → Q m')
    (hPost : ∀ m m' m'', P m → T m m' → U m' m'' → R m m'') :
    Does (d + e) (x >>= fun _ => y) P R := by
  intro k
  obtain ⟨r, hRun, hActs⟩ := hFirst k
  obtain ⟨s, hMore, hThen⟩ := hNext r.counters
  refine ⟨⟨s.value, r.code ++ s.code, s.counters⟩, ?_, ?_⟩
  · change Emit.andThen x (fun _ => y) k = _
    simp only [Emit.andThen, hRun, hMore]
  · exact
      { depth := by
          rw [hThen.depth, hActs.depth]
          ring
        labels := hActs.labels.trans hThen.labels
        within := hActs.within.append hThen.within hActs.labels hThen.labels
        runs := fun m hP => by
          obtain ⟨m', hTakes, hT⟩ := hActs.runs m hP
          obtain ⟨m'', hTakes', hU⟩ := hThen.runs m' (hBetween m m' hP hT)
          exact ⟨m'', hTakes.append hActs.within.fresh
            hActs.labels hTakes', hPost m m' m'' hP hT hU⟩ }

/- Lines without labels that lead somewhere. -/
theorem does_lines {ls : List Line} (hLabels : ∀ l, Line.label l ∉ ls)
    (hTakes : ∀ lo m, P m → ∃ m', Takes lo ls m m' ∧ T m m') :
    Does 0 (Emit.lines ls) P T := fun k =>
  ⟨⟨(), ls, k⟩, rfl,
    { depth := (add_zero _).symm
      labels := le_rfl
      within := fun l hMem => absurd hMem (hLabels l)
      runs := hTakes k.labels }⟩

/- Instructions one after the other. -/
theorem does_code (hExec : ∀ m, P m → ∃ m', m.execAll? is = some m' ∧ T m m') :
    Does 0 (Emit.code is) P T := by
  refine does_lines (by simp) fun lo m hP => ?_
  obtain ⟨m', hAll, hT⟩ := hExec m hP
  exact ⟨m', takes_instrs hAll, hT⟩

theorem does_loc (t : Token) : Does 0 (Emit.loc t) P fun m m' => m' = m :=
  does_lines (by simp) fun _ m _ => ⟨m, takes_directive _ m, rfl⟩

/- A line of the source before a computation. -/
theorem Does.located (t : Token) (hDoes : Does d x P T) :
    Does d (do
      Emit.loc t
      x) P T := by
  have hBoth := (does_loc (P := P) t).bind hDoes (R := T) (fun m m' hP hSame => hSame ▸ hP)
    fun m m' m'' _ hSame hT => hSame ▸ hT
  rwa [zero_add] at hBoth

/- A count of what was pushed. -/
theorem does_deepen (n : Int) :
    Does n (Emit.deepen n) P fun m m' => m' = m := fun k =>
  ⟨⟨(), [], { k with depth := k.depth + n }⟩, rfl,
    { depth := rfl
      labels := le_rfl
      within := fun l hMem => by cases hMem
      runs := fun m _ => ⟨m, takes_nil m, rfl⟩ }⟩

end Codegen

end CCompiler
