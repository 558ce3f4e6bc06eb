import Mathlib
import CCompiler.Codegen.Tree
import CCompiler.Proofs.Codegen.Choosing
import CCompiler.Proofs.Codegen.MemberReads
import CCompiler.Proofs.Codegen.SavedRegisters

/-
  What the code does that assigns to a bit-field.

  The value is cut to the width of the field, moved to its
  place and merged into the unit, which is loaded and stored
  as a whole.  The bits of the unit around the field are
  written with what they were.

  Main declarations:
    * `Memory.getLsbD_load`, `Memory.getLsbD_store`
    * `Codegen.Emit.uniform`
    * `Codegen.exec_fieldMerge`, `Codegen.does_fieldWrite`
    * `Codegen.field_written_and_read`
-/

------------
-- Bits of Memory
------------

namespace CCompiler

open Assembly

namespace Memory

/- The bits of a number that lies in memory. -/
theorem testBit_bytesAt (mem : Memory) (a : BitVec 64) (n i : Nat) :
    (mem.bytesAt a n).testBit i = (decide (i < 8 * n) &&
        (mem (a + BitVec.ofNat 64 (i / 8))).getLsbD (i % 8)) := by
  induction n generalizing a i with
  | zero => simp [bytesAt]
  | succ n ih =>
    have hByte : (mem a).toNat < 2 ^ 8 := (mem a).isLt
    rw [bytesAt, Nat.add_comm, show 256 = 2 ^ 8 from rfl, Nat.testBit_two_pow_mul_add _ hByte]
    by_cases hFirst : i < 8
    · rw [if_pos hFirst, Nat.div_eq_of_lt hFirst, Nat.mod_eq_of_lt hFirst, BitVec.testBit_toNat]
      simp [show i < 8 * (n + 1) by omega]
    · have hNext : a + 1 + BitVec.ofNat 64 ((i - 8) / 8) = a + BitVec.ofNat 64 (i / 8) := by
        rw [show i / 8 = 1 + (i - 8) / 8 by omega, BitVec.ofNat_add, BitVec.add_assoc]
        rfl
      have hLast : i - 8 < 8 * n ↔ i < 8 * (n + 1) := by omega
      rw [if_neg hFirst, ih, hNext, show (i - 8) % 8 = i % 8 by omega, decide_eq_decide.mpr hLast]

variable {i : Nat}

theorem getLsbD_load (mem : Memory) (a : BitVec 64) (w : Width) (hInside : i < w.bits) :
    (mem.load a w).getLsbD i = (mem (a + BitVec.ofNat 64 (i / 8))).getLsbD (i % 8) := by
  have hBits : w.bits = 8 * w.bytes := by cases w <;> rfl
  rw [load, BitVec.getLsbD_ofNat, testBit_bytesAt]
  simp [hInside, hBits ▸ hInside]

theorem getLsbD_store (mem : Memory) (a b : BitVec 64) (w : Width) (x : BitVec w.bits)
    (hByte : i < 8) :
    (mem.store a w x b).getLsbD i = if (b - a).toNat < w.bytes then
        x.getLsbD (8 * (b - a).toNat + i)
      else (mem b).getLsbD i := by
  unfold store
  split
  · rw [BitVec.getLsbD_ofNat, show 256 = 2 ^ 8 from rfl,
      ← pow_mul, Nat.testBit_div_two_pow, Nat.add_comm i, BitVec.testBit_toNat]
    simp [hByte]
  · rfl

end Memory

------------
-- Moves of Long Constants
------------

/-
  An instruction as the machine knows it.  A move of a long
  constant is spelled in its own way, but does the same as a
  move of any other constant.
-/
def Assembly.Instr.uniform : Instr → Instr
| .movAbs n dst => .mov (.imm n) dst
| i => i

def Assembly.Line.uniform : Line → Line
| .instr i => .instr i.uniform
| .noted i note => .noted i.uniform note
| l => l

namespace Codegen

open Machine

/- A computation whose code is as the machine knows it. -/
def Emit.uniform {α : Type} (x : Emit α) : Emit α := fun k =>
  (x k).map fun r => { r with code := r.code.map Line.uniform }

theorem uniform_bind {α β : Type} (x : Emit α) (f : α → Emit β) :
    (x >>= f).uniform = x.uniform >>= fun a => (f a).uniform := by
  funext k
  simp only [bind, Emit.andThen, Emit.uniform]
  cases x k with
  | error e => rfl
  | ok r =>
    simp only [Except.map]
    cases f r.value r.counters with
    | error e => rfl
    | ok s => simp

theorem uniform_code (is : List Instr) :
    (Emit.code is).uniform = Emit.code (is.map Instr.uniform) := by
  funext k
  simp [Emit.uniform, Emit.code, Emit.lines, Except.map, Function.comp_def, Line.uniform]

theorem uniform_loc (t : Token) :
    (Emit.loc t).uniform = Emit.loc t := rfl

theorem uniform_push : Emit.push.uniform = Emit.push := rfl

theorem uniform_pop (r : Reg) :
    (Emit.pop r).uniform = Emit.pop r := rfl

end Codegen

------------
-- Bits of a Field
------------

/-
  The number that a field holds after another one was assigned:
  what its bits stand for, with their sign if there is one.
-/
def BitField.cut (b : BitField) (isUnsigned : Bool) (n : Int) :
    Int :=
  if isUnsigned then n % 2 ^ b.width.toNat
  else n.bmod (2 ^ b.width.toNat)

/- Whether a bit of a unit belongs to a field. -/
def BitField.Has (b : BitField) (i : Nat) : Prop :=
  b.offset.toNat ≤ i ∧ i < b.offset.toNat + b.width.toNat

instance  (b : BitField) (i : Nat) : Decidable (b.Has i) := inferInstanceAs (Decidable (_ ∧ _))

namespace Word

variable {b : BitField}

theorem ofInt_wrap64 (n : Int) : BitVec.ofInt 64 (wrap64 n) = BitVec.ofInt 64 n :=
  ofInt_congr (n := 64) (Int.bmod_emod : n.bmod _ % _ = n % _)

variable {i : Nat}

/- The word whose low bits are those of a field. -/
theorem getLsbD_lowBits (hWord : i < 64) :
    (BitVec.ofInt 64 (Codegen.lowBits b.width)).getLsbD i = decide (i < b.width.toNat) := by
  have hNat : (Nat.pow 2 b.width.toNat : Int) - 1 = ((2 ^ b.width.toNat - 1 : Nat) : Int) :=
    (Nat.cast_pred (Nat.two_pow_pos _)).symm
  rw [Codegen.lowBits, ofInt_wrap64, hNat, BitVec.ofInt_natCast,
    BitVec.getLsbD_ofNat, Nat.testBit_two_pow_sub_one]
  simp [hWord]

/- The word of all bits but those of a field. -/
theorem getLsbD_outsideField (hWord : i < 64) :
    (BitVec.ofInt 64 (Codegen.outsideField b)).getLsbD i = !decide (b.Has i) := by
  have hMask : Codegen.outsideField b = -wrap64 (Codegen.lowBits b.width * 2 ^ b.offset.toNat) -
        1 := by
    have hPow : (Nat.pow 2 b.offset.toNat : Int) = 2 ^ b.offset.toNat := Nat.cast_pow 2 _
    rw [Codegen.outsideField, hPow]
    ring
  rw [hMask, ofInt_not, ofInt_wrap64, ofInt_shiftLeft, BitVec.getLsbD_not, BitVec.getLsbD_shiftLeft]
  by_cases hLow : i < b.offset.toNat
  · simp [hWord, hLow, BitField.Has, Nat.not_le.mpr hLow]
  · have hHigh : i - b.offset.toNat < b.width.toNat ↔ i < b.offset.toNat + b.width.toNat := by omega
    rw [getLsbD_lowBits (by omega)]
    simp only [BitField.Has, hHigh, hWord, hLow, Nat.not_lt.mp hLow, decide_true, decide_false,
      Bool.not_false, Bool.true_and, true_and]

/- A value, cut to a field and moved to its place. -/
def placed (b : BitField) (x : BitVec 64) : BitVec 64 :=
  (x &&& BitVec.ofInt 64 (Codegen.lowBits b.width)) <<< b.offset.toNat

/- A unit with a value in one of its fields. -/
def merged (b : BitField) (unit x : BitVec 64) : BitVec 64 :=
  unit &&& BitVec.ofInt 64 (Codegen.outsideField b) ||| placed b x

theorem getLsbD_merged (unit x : BitVec 64) (hWord : i < 64) :
    (merged b unit x).getLsbD i = if b.Has i then x.getLsbD (i - b.offset.toNat)
      else unit.getLsbD i := by
  rw [merged, BitVec.getLsbD_or, BitVec.getLsbD_and,
    getLsbD_outsideField hWord, placed, BitVec.getLsbD_shiftLeft,
    BitVec.getLsbD_and]
  by_cases hLow : i < b.offset.toNat
  · simp [hLow, BitField.Has, Nat.not_le.mpr hLow]
  · rw [getLsbD_lowBits (by omega)]
    by_cases hHigh : i < b.offset.toNat + b.width.toNat
    · simp [hWord, hLow, BitField.Has, Nat.not_lt.mp hLow, hHigh,
        show i - b.offset.toNat < b.width.toNat by omega]
    · simp [BitField.Has, hHigh, show ¬ i - b.offset.toNat < b.width.toNat by omega]

end Word

------------
-- Units in Registers
------------

namespace Codegen

open Machine

variable {rs : Records} {t : CType} {k : IntKind} {u : Bool}
  {b : BitField} {m : Machine} {a : BitVec 64}

/- A register holds the word at an address in its low bits. -/
def HoldsUnit
    (mem : Memory)
    (a : BitVec 64)
    (w : Width)
    (x : BitVec 64) : Prop :=
  ∀ i < w.bits, x.getLsbD i = (mem.load a w).getLsbD i

/- An integer is as wide as the words that its type is stored in. -/
theorem size_of_plain (rs : Records) (hPlain : t.plain = .integer k u) :
    t.size rs = (stored (.of k u)).bytes := by
  rw [CType.size, hPlain]
  cases k <;> rfl

/- Types that are the same below their qualifiers are loaded alike. -/
theorem load_of_plain (rs : Records) (hPlain : t.plain = .integer k u) :
    load rs t = load rs (IntType.of k u).toCType := by
  simp only [load, heldByAddress, CType.isArray, CType.isRecord,
    CType.isFunction, CType.isVla, Carrier.of, CType.size,
    CType.isUnsigned, hPlain]
  rfl

theorem store_of_plain (rs : Records) (hPlain : t.plain = .integer k u) :
    store rs t = [.mov (.reg .rax (stored (.of k u))) (.deref .rdi)] := by
  simp only [store, CType.isRecord, Carrier.of, CType.size, hPlain]
  cases k <;> rfl

/- A word in a larger width has the same low bits. -/
theorem getLsbD_widened {n n' : Nat} (y : BitVec n) (x : Extension) (hWider : n ≤ n') {i : Nat}
    (hLow : i < n) : (widened n' y x).getLsbD i = y.getLsbD i := by
  have hInside : i < n' := by omega
  cases x <;> simp only [widened, BitVec.getLsbD_signExtend,
    BitVec.getLsbD_setWidth, hInside, hLow, decide_true, Bool.true_and, if_true]

/- What a narrow word is widened with does not matter. -/
theorem holdsUnit_widened (mem : Memory) (a : BitVec 64) (x : Extension) :
    HoldsUnit mem a (sourceWidth x) ((widened 32 (mem.load a (sourceWidth x)) x).setWidth 64) := by
  have hNarrow : (sourceWidth x).bits ≤ 32 := by cases x <;> decide
  intro i hi
  rw [BitVec.getLsbD_setWidth, getLsbD_widened _ x hNarrow hi]
  simp [show i < 64 by omega]

/- A load brings the unit to the low bits, whatever is above them. -/
theorem exec_loadUnit (rs : Records) (m : Machine) (hPlain : t.plain = .integer k u) :
    ∃ x, m.execAll? (load rs t) = some (m.set .rax x) ∧
      HoldsUnit m.mem (m.regs .rax) (stored (.of k u)) x := by
  have hNarrow : ∀ x : Extension, resultWidth? x = some .long →
      ∃ y, m.execAll? [.extend x (.deref .rax) .eax] = some (m.set .rax y) ∧
        HoldsUnit m.mem (m.regs .rax) (sourceWidth x) y :=
    fun x hTo => ⟨_, exec_extend_deref rfl hTo rfl, holdsUnit_widened _ _ x⟩
  rw [load_of_plain rs hPlain]
  cases k with
  | char =>
    cases u with
    | false => exact hNarrow .signByte rfl
    | true => exact hNarrow .zeroByte rfl
  | short =>
    cases u with
    | false => exact hNarrow .signWord rfl
    | true => exact hNarrow .zeroWord rfl
  | int =>
    have hExec := exec_extend (x := .signLong) (w := .quad) .rax (read?_deref m .long) rfl
    refine ⟨widened 64 (m.mem.load (m.regs .rax) .long) .signLong, ?_, fun i hi =>
        getLsbD_widened _ _ (by decide) hi⟩
    change m.execAll? [.extend .signLong (.deref .rax) .rax] = _
    simp only [execAll?, hExec, Option.bind_some]
    rfl
  | long =>
    have hExec : m.exec? (.mov (.deref .rax) .rax) = (m.read? .quad (.deref .rax)).bind
          fun x => some (m.set .rax x) := rfl
    refine ⟨m.mem.load (m.regs .rax) .quad, ?_, fun i _ => rfl⟩
    change m.execAll? [.mov (.deref .rax) .rax] = _
    simp only [execAll?, hExec, read?_deref, Option.bind_some]

/- A load has no long constants. -/
theorem uniform_load (rs : Records) (hPlain : t.plain = .integer k u) :
    (load rs t).map Instr.uniform = load rs t := by
  rw [load_of_plain rs hPlain]
  cases k <;> cases u <;> rfl

end Codegen

------------
-- Merging
------------

namespace Codegen

open Machine

variable {rs : Records} {t : CType} {k : IntKind} {u : Bool}
  {b : BitField} {m : Machine} {a : BitVec 64}

theorem exec_movConstant (m : Machine) (n : Int) (r : Reg) :
    m.exec? (.mov (.imm n) (.reg r .quad)) = some (m.set r (BitVec.ofInt 64 n)) := rfl

theorem exec_movTop (m : Machine) :
    m.exec? (.mov (.deref .rsp) .rax) = some (m.set .rax (m.mem.load (m.regs .rsp) .quad)) := by
  simp [exec?, Operand.width?, read?, address, write?, setPart]

/- An operation on two whole registers. -/
theorem exec_aluQuad (op : AluOp) {r s : Reg} {c : BitVec 64}
    (hResult : aluResult? (m.regs s) (m.regs r) op = some c) :
    m.exec? (.alu op (.reg r .quad) (.reg s .quad)) = some (m.unflagged.set s c) := by
  have hExec : m.exec? (.alu op (.reg r .quad) (.reg s .quad)) =
      m.alu? op .quad (.reg r .quad) (.reg s .quad) := rfl
  rw [hExec]
  cases op <;> first
    | cases hResult; done
    | simp only [alu?, read?_quad, Option.bind_eq_bind]
      cases hResult
      rfl

/- The instructions before the unit is loaded. -/
theorem exec_fieldPlaced (m : Machine) (hFirst : 0 ≤ b.offset) (hLast : b.offset < 64) :
    ∃ m', m.execAll? [.mov .rax .r8, .mov .rax .rdi,
          .mov (.imm (lowBits b.width)) .r9, .alu .and .r9 .rdi,
          .shift .left (.imm b.offset) .rdi,
          .mov (.deref .rsp) .rax] = some m' ∧ m'.mem = m.mem ∧
      m'.regs .rsp = m.regs .rsp ∧ m'.regs .rbp = m.regs .rbp ∧
      m'.regs .r8 = m.regs .rax ∧ m'.regs .rdi = Word.placed b (m.regs .rax) ∧
      m'.regs .rax = m.mem.load (m.regs .rsp) .quad := by
  simp only [execAll?, exec_movQuad, exec_movConstant, exec_aluQuad .and rfl,
    exec_shiftConstant _ .left .rdi hFirst hLast, exec_movTop, Option.bind_some]
  refine ⟨_, rfl, rfl, ?_⟩
  simp [Machine.set, Machine.unflagged, shifted, Word.placed]
  rfl

/- The instructions after the unit was loaded. -/
theorem exec_fieldOr (m : Machine) (b : BitField) :
    ∃ m', m.execAll? [.mov (.imm (outsideField b)) .r9, .alu .and .r9 .rax,
          .alu .or .rdi .rax] = some m' ∧ m'.mem = m.mem ∧
      m'.regs .rsp = m.regs .rsp ∧ m'.regs .rbp = m.regs .rbp ∧
      m'.regs .r8 = m.regs .r8 ∧ m'.regs .rax = m.regs .rax &&& BitVec.ofInt 64 (outsideField b) |||
          m.regs .rdi := by
  simp only [execAll?, exec_movConstant,
    exec_aluQuad .and rfl, exec_aluQuad .or rfl, Option.bind_some]
  refine ⟨_, rfl, rfl, ?_⟩
  simp [Machine.set, Machine.unflagged]

/- What the merging leaves: the value, and the unit with it in place. -/
structure Merged
    (b : BitField)
    (w : Width)
    (a : BitVec 64)
    (m m' : Machine) : Prop where
  stack : m'.regs .rsp = m.regs .rsp
  frame : m'.regs .rbp = m.regs .rbp
  memory : m'.mem = m.mem
  value : m'.regs .r8 = m.regs .rax
  unit : ∃ x, HoldsUnit m.mem a w x ∧
    m'.regs .rax = Word.merged b x (m.regs .rax)

/- The merging of a value into the unit whose address is on the stack. -/
theorem exec_fieldMerge (rs : Records) (m : Machine) (hPlain : t.plain = .integer k u)
    (hInside : b.Inside 64) :
    ∃ m', m.execAll? ((fieldMerge rs t b).map Instr.uniform) = some m' ∧ Merged b (stored (.of k u))
        (m.mem.load (m.regs .rsp) .quad) m m' := by
  rcases hInside with ⟨hWide, hFirst, hLast⟩
  obtain ⟨m₁, hPlaced, hMem₁, hStack₁, hFrame₁, hValue₁, hPart₁,
    hRax₁⟩ := exec_fieldPlaced m hFirst (by omega)
  obtain ⟨x, hLoad, hUnit⟩ := exec_loadUnit rs m₁ hPlain
  obtain ⟨m₃, hOr, hMem₃, hStack₃, hFrame₃, hValue₃, hRax₃⟩ := exec_fieldOr (m₁.set .rax x) b
  refine ⟨m₃, ?_, ?_⟩
  · have hCode : (fieldMerge rs t b).map Instr.uniform = [.mov .rax .r8, .mov .rax .rdi,
          .mov (.imm (lowBits b.width)) .r9, .alu .and .r9 .rdi,
          .shift .left (.imm b.offset) .rdi,
          .mov (.deref .rsp) .rax] ++ load rs t ++
        [.mov (.imm (outsideField b)) .r9, .alu .and .r9 .rax, .alu .or .rdi .rax] := by
      rw [fieldMerge, List.map_append, List.map_append, uniform_load rs hPlain]
      rfl
    rw [hCode]
    exact execAll?_append (execAll?_append hPlaced hLoad) hOr
  · rw [hMem₁, hRax₁] at hUnit
    rw [set_regs_self, set_regs_of_ne _ _ (by decide), hPart₁] at hRax₃
    rw [set_regs_of_ne _ _ (by decide)] at hStack₃ hFrame₃ hValue₃
    exact ⟨hStack₃.trans hStack₁, hFrame₃.trans hFrame₁,
      hMem₃.trans hMem₁, hValue₃.trans hValue₁, x, hUnit, hRax₃⟩

end Codegen

variable {w : Width}

------------
-- Writing
------------

namespace Codegen

open Machine

variable {rs : Records} {t : CType} {k : IntKind} {u : Bool}
  {τ : IntType} {b : BitField} {m m₂ : Machine} {a : BitVec 64}
  {n : Int} {before : Memory}

/- The place of a bit of memory, counted from the first bit of a unit. -/
def bitPlace (a x : BitVec 64) (i : Nat) : Nat :=
  8 * (x - a).toNat + i

/-
  An address was computed and pushed, and then a value was
  computed that left memory in some way.
-/
structure Assigns
    (τ : IntType)
    (a : BitVec 64)
    (n : Int)
    (before : Memory)
    (m m' : Machine) : Prop where
  stack : m'.regs .rsp = m.regs .rsp - 8
  frame : m'.regs .rbp = m.regs .rbp
  top : m'.mem.load (m'.regs .rsp) .quad = a
  memory : ∀ x, m.regs .rsp ≤ x → m'.mem x = before x
  value : τ.Represents n (m'.regs .rax)

/-
  A number was assigned to a field.  It is the value of the
  assignment, its low bits are those of the field, and the
  other bits in use are what they were.
-/
structure FieldWritten
    (τ : IntType)
    (b : BitField)
    (a : BitVec 64)
    (n : Int)
    (before : Memory)
    (m m' : Machine) : Prop where
  stack : m'.regs .rsp = m.regs .rsp
  frame : m'.regs .rbp = m.regs .rbp
  value : τ.Represents n (m'.regs .rax)
  memory : ∀ x, m.regs .rsp ≤ x → ∀ i < 8,
    (m'.mem x).getLsbD i =
      if b.Has (bitPlace a x i) then
        (BitVec.ofInt 64 n).getLsbD
          (bitPlace a x i - b.offset.toNat)
      else (before x).getLsbD i

variable {i : Nat} {x : BitVec 64}

/- The bits that a narrow register holds of a number. -/
theorem getLsbD_of_represents (hRep : τ.Represents n x) (hHeld : i < τ.held.bits) :
    x.getLsbD i = (BitVec.ofInt 64 n).getLsbD i := by
  have hWord : i < 64 := hHeld.trans_le τ.held_le
  have hWhole := IntType.represents_ofInt τ n
  have hSame := congrArg (·.getLsbD i) (hRep.trans hWhole.symm)
  simpa [BitVec.getLsbD_setWidth, hHeld] using hSame

theorem stored_le_held (k : IntKind) (u : Bool) :
    (stored (.of k u)).bits ≤ (IntType.of k u).held.bits := by
  cases k <;> simp [stored, IntType.held, Width.bits]

/- A unit with a value in one of its fields, stored over the unit. -/
theorem getLsbD_storeMerged {mem : Memory} {y : BitVec 64} {z : BitVec 64}
    (hInside : b.Inside w.bits) (hUnit : HoldsUnit mem a w x) (hByte : i < 8) :
    (mem.store a w ((Word.merged b x y).setWidth w.bits) z).getLsbD i =
      if b.Has (bitPlace a z i) then
        y.getLsbD (bitPlace a z i - b.offset.toNat)
      else (mem z).getLsbD i := by
  have hBits : w.bits = 8 * w.bytes := by cases w <;> rfl
  have hSmall : w.bits ≤ 64 := by cases w <;> decide
  rcases hInside with ⟨hWide, hFirst, hLast⟩
  rw [Memory.getLsbD_store _ _ _ _ _ hByte]
  by_cases hUnder : (z - a).toNat < w.bytes
  · have hPlace : bitPlace a z i < w.bits := by
      unfold bitPlace
      omega
    have hOld : x.getLsbD (bitPlace a z i) = (mem z).getLsbD i := by
      have hAt : a + BitVec.ofNat 64 (bitPlace a z i / 8) = z := by
        rw [show bitPlace a z i / 8 = (z - a).toNat by
            unfold bitPlace; omega,
          BitVec.ofNat_toNat, BitVec.setWidth_eq,
          BitVec.add_comm, BitVec.sub_add_cancel]
      rw [hUnit _ hPlace, Memory.getLsbD_load _ _ _ hPlace, hAt,
        show bitPlace a z i % 8 = i by unfold bitPlace; omega]
    rw [if_pos hUnder, BitVec.getLsbD_setWidth]
    change (decide (bitPlace a z i < w.bits) && (Word.merged b x y).getLsbD (bitPlace a z i)) = _
    rw [Word.getLsbD_merged _ _ (by omega), hOld]
    simp [hPlace]
  · have hOutside : ¬ b.Has (bitPlace a z i) := by
      unfold BitField.Has bitPlace
      omega
    rw [if_neg hUnder, if_neg hOutside]

/- A word stored through a register. -/
theorem exec_storeThrough (m : Machine) (r s : Reg) (w : Width) :
    m.exec? (.mov (.reg r w) (.deref s)) = some { m with
        mem := m.mem.store (m.regs s) w
          ((m.regs r).setWidth w.bits) } := by
  simp [exec?, Operand.width?, read?, address, write?]

/- The instructions behind the value of an assignment. -/
theorem exec_fieldWrite (rs : Records) (hPlain : t.plain = .integer k u)
    (hInside : b.Inside (stored (.of k u)).bits) (hReady : Assigns (.of k u) a n before m m₂) :
    ∃ m', m₂.execAll? ((fieldMerge rs t b).map Instr.uniform ++
          (.pop .rdi :: (store rs t ++ [.mov .r8 .rax]))) = some m' ∧
      FieldWritten (.of k u) b a n before m m' := by
  let w := stored (.of k u)
  have hWord : b.Inside 64 := by
    have hSmall : w.bits ≤ 64 := by cases w <;> decide
    exact ⟨hInside.wide, hInside.first, hInside.last.trans (by exact_mod_cast hSmall)⟩
  obtain ⟨m₃, hMerge, hMerged⟩ := exec_fieldMerge rs m₂ hPlain hWord
  obtain ⟨x, hUnit, hRax⟩ := hMerged.unit
  have hTop : m₃.mem.load (m₃.regs .rsp) .quad = a := by
    rw [hMerged.memory, hMerged.stack, hReady.top]
  let m₄ := (m₃.set .rsp (m₃.regs .rsp + 8)).set .rdi a
  have hPop : m₃.exec? (.pop .rdi) = some m₄ :=
    congrArg (fun y : BitVec 64 => some ((m₃.set .rsp (m₃.regs .rsp + 8)).set .rdi y)) hTop
  let m₅ : Machine := { m₄ with
    mem := m₃.mem.store a w ((m₃.regs .rax).setWidth w.bits) }
  have hStore : m₄.exec? (.mov (.reg .rax w) (.deref .rdi)) = some m₅ := by
    rw [exec_storeThrough]
    simp [m₅, m₄, Machine.set]
  refine ⟨m₅.set .rax (m₃.regs .r8), ?_, ?_⟩
  · refine execAll?_append hMerge ?_
    have hMove : m₅.exec? (.mov .r8 .rax) = some (m₅.set .rax (m₃.regs .r8)) := by
      rw [exec_movQuad]
      simp [m₅, m₄, Machine.set]
    simp only [store_of_plain rs hPlain, List.singleton_append, execAll?, hPop, Option.bind_some]
    rw [hStore, Option.bind_some, hMove]
    rfl
  · have hMem : m₃.mem = m₂.mem := hMerged.memory
    refine ⟨?_, ?_, ?_, fun z hUsed i hByte => ?_⟩
    · simp [m₅, m₄, Machine.set, hMerged.stack, hReady.stack]
    · simp [m₅, m₄, Machine.set, hMerged.frame, hReady.frame]
    · rw [set_regs_self, hMerged.value]
      exact hReady.value
    · change (m₃.mem.store a w ((m₃.regs .rax).setWidth w.bits) z).getLsbD i = _
      have hUnit' : HoldsUnit m₂.mem a w x := by
        rw [← hReady.top]
        exact hUnit
      rw [hMem, hRax, getLsbD_storeMerged hInside hUnit' hByte, hReady.memory z hUsed]
      by_cases hField : b.Has (bitPlace a z i)
      · have hHeld := stored_le_held k u
        rcases hInside with ⟨hWide, hFirst, hLast⟩
        rw [if_pos hField, if_pos hField]
        refine getLsbD_of_represents hReady.value ?_
        unfold BitField.Has at hField
        omega
      · rw [if_neg hField, if_neg hField]

end Codegen

------------
-- Reading Back
------------

namespace Codegen

open Machine

variable {rs : Records} {t : CType} {k : IntKind} {u : Bool}
  {f : Member} {b : BitField} {m m' : Machine} {a : BitVec 64}
  {n : Int} {before : Memory}

/- The low bits of a word that are those of a number. -/
theorem extractLsb'_eq_ofInt {first width : Nat} {x : BitVec 64} (hInside : first + width ≤ 64)
    (hBits : ∀ i < width,
      x.getLsbD (first + i) = (BitVec.ofInt 64 n).getLsbD i) :
    x.extractLsb' first width = BitVec.ofInt width n := by
  apply BitVec.eq_of_getLsbD_eq
  intro i hi
  rw [BitVec.getLsbD_extractLsb', hBits i hi,
    ← Word.setWidth_ofInt (n := 64) (k := width) (by omega),
    BitVec.getLsbD_setWidth]

/- A field with the low bits of a number is read as what it holds of it. -/
theorem yields_fieldRead (hBits : f.bits? = some b) (hPlain : f.type.plain = .integer k u)
    (hInside : b.Inside (stored (.of k u)).bits)
    (hHeld : ∀ i < b.width.toNat,
      (m.mem.load (m.regs .rax) (stored (.of k u))).getLsbD
          (b.offset.toNat + i) = (BitVec.ofInt 64 n).getLsbD i) :
    Yields (memberRead rs f) m (b.cut u n) := by
  have hSmall : (stored (.of k u)).bits ≤ 64 := by cases stored (.of k u) <;> decide
  have hWord : b.Inside 64 :=
    ⟨hInside.wide, hInside.first, hInside.last.trans (by exact_mod_cast hSmall)⟩
  rcases hInside with ⟨hWide, hFirst, hLast⟩
  obtain ⟨x, hLoad, hUnit⟩ := exec_loadUnit rs m hPlain
  obtain ⟨m', hRead, hKept, hRax⟩ := exec_fieldRead (m.set .rax x) u hWord
  have hUnsigned : f.type.isUnsigned = u := by rw [CType.isUnsigned, hPlain]
  refine ⟨m', ?_, (kept_set m x (by decide) (by decide)).trans hKept, ?_⟩
  · rw [memberRead, hBits, hUnsigned]
    exact execAll?_append hLoad hRead
  · have hCut : x.extractLsb' b.offset.toNat b.width.toNat = BitVec.ofInt b.width.toNat n := by
      refine extractLsb'_eq_ofInt (by omega) fun i hi => ?_
      rw [hUnit _ (by omega), hHeld i hi]
    rw [hRax, set_regs_self, fieldWord, hCut, BitField.cut]
    cases u with
    | true =>
      have hPos : (0 : Int) < 2 ^ b.width.toNat := by positivity
      rw [if_pos rfl, if_pos rfl,
        ← Word.setWidth_ofInt_of_nonneg (n := b.width.toNat)
          (by omega) (Int.emod_nonneg _ hPos.ne') (Int.emod_lt_of_pos _ hPos)]
      exact congrArg (BitVec.setWidth 64) (Word.ofInt_congr (Int.mod_modEq n _)).symm
    | false => simp only [Bool.false_eq_true, if_false, BitVec.signExtend, BitVec.toInt_ofInt]

/- The bits of the unit after an assignment. -/
theorem FieldWritten.held {τ : IntType} (hWritten : FieldWritten τ b a n before m m')
    (hUsed : ∀ q < w.bytes, m.regs .rsp ≤ a + BitVec.ofNat 64 q) (hInside : b.Inside w.bits)
    {i : Nat} (hi : i < b.width.toNat) :
    (m'.mem.load a w).getLsbD (b.offset.toNat + i) = (BitVec.ofInt 64 n).getLsbD i := by
  have hBits : w.bits = 8 * w.bytes := by cases w <;> rfl
  have hSmall : w.bytes ≤ 8 := by cases w <;> decide
  rcases hInside with ⟨hWide, hFirst, hLast⟩
  have hPlace : bitPlace a (a + BitVec.ofNat 64 ((b.offset.toNat + i) / 8))
      ((b.offset.toNat + i) % 8) = b.offset.toNat + i := by
    have hByte : (a + BitVec.ofNat 64 ((b.offset.toNat + i) / 8) - a).toNat =
          (b.offset.toNat + i) / 8 := by
      rw [BitVec.add_comm, BitVec.add_sub_cancel, BitVec.toNat_ofNat]
      exact Nat.mod_eq_of_lt (by omega)
    rw [bitPlace, hByte]
    omega
  have hField : b.Has (b.offset.toNat + i) := ⟨by omega, by omega⟩
  rw [Memory.getLsbD_load _ _ _ (by omega),
    hWritten.memory _ (hUsed _ (by omega)) _ (by omega), hPlace,
    if_pos hField, Nat.add_sub_cancel_left]

end Codegen

------------
-- Assignments
------------

namespace Codegen

open Machine

variable {c : Context} {i j : Info} {e r : Expr} {f : Member}
  {k : IntKind} {u : Bool} {b : BitField} {m : Machine}
  {a : BitVec 64} {n : Int} {before : Memory} {x y : Emit Unit}

/- The address in the first register was pushed. -/
def Pushed (a : BitVec 64) (m m' : Machine) : Prop :=
  Lowered m m' ∧ m'.mem.load (m'.regs .rsp) .quad = a

/- What ran before and kept the stack does not matter. -/
theorem Pushed.after {m₁ m₂ : Machine} (hPushed : Pushed a m₁ m₂) (hKept : Kept m m₁) :
    Pushed a m m₂ := by
  obtain ⟨hLowered, hTop⟩ := hPushed
  refine ⟨⟨?_, ?_, fun x hUsed => ?_⟩, hTop⟩
  · rw [hLowered.stack, hKept.stack]
  · exact hLowered.frame.trans hKept.frame
  · exact (hLowered.memory x (hKept.stack ▸ hUsed)).trans (hKept.memory x hUsed)

/- A computation finds an address and leaves memory in use alone. -/
def Locates (x : Emit Unit) (a : BitVec 64) (m : Machine) : Prop :=
  Does 0 x.uniform (· = m) fun m m' =>
    Kept m m' ∧ m'.regs .rax = a

/- A computation finds a number and leaves memory in use alone. -/
def Delivers (x : Emit Unit) (n : Int) (m : Machine) : Prop :=
  Does 0 x.uniform (· = m) fun m m' =>
    Kept m m' ∧ m'.regs .rax = BitVec.ofInt 64 n

theorem does_push :
    Does 1 Emit.push (fun m => 8 ≤ (m.regs .rsp).toNat) fun m m' => Pushed (m.regs .rax) m m' := by
  have hPush : Does 0 (Emit.code [.push .rax]) (fun m => 8 ≤ (m.regs .rsp).toNat)
      fun m m' => Pushed (m.regs .rax) m m' :=
    does_code fun m hRoom => exec_push hRoom
  exact hPush.bind (does_deepen (P := fun _ => True) 1) (fun _ _ _ _ => trivial)
    fun m m' m'' _ hPushed hSame => hSame ▸ hPushed

/- Instructions behind a value, one of which pops the address. -/
theorem does_fieldTail (is js ks : List Instr) {P : Machine → Prop} {T : Machine → Machine → Prop}
    (hExec : ∀ m, P m → ∃ m',
      m.execAll? (is ++ (.pop .rdi :: (js ++ ks))) = some m' ∧ T m m') :
    Does (-1) (do
      Emit.code is
      Emit.pop .rdi
      Emit.code js
      Emit.code ks) P T := by
  have hSame : (do
      Emit.code is
      Emit.pop .rdi
      Emit.code js
      Emit.code ks) =
      (do
        Emit.code (is ++ (.pop .rdi :: (js ++ ks)))
        Emit.deepen (-1)) := by
    funext k
    simp [bind, Emit.andThen, Emit.code, Emit.lines, Emit.pop, Emit.deepen]
  rw [hSame]
  exact (does_code hExec).bind (does_deepen (P := fun _ => True) (-1)) (fun _ _ _ _ => trivial)
    fun m m' m'' _ hT hEq => hEq ▸ hT

variable {rs : Records}

/- A field is assigned to by the code of its address and of a value. -/
theorem does_assignField {t : CType} (hPlain : t.plain = .integer k u)
    (hInside : b.Inside (stored (.of k u)).bits) (hRoom : 8 ≤ (m.regs .rsp).toNat)
    (hAddress : Locates x a m)
    (hValue : Does 0 y.uniform (Pushed a m)
      fun _ m' => Assigns (.of k u) a n before m m') :
    Does 0 (assign rs t (some (t, b)) x y).uniform (· = m)
      (FieldWritten (.of k u) b a n before) := by
  have hTail := does_fieldTail ((fieldMerge rs t b).map Instr.uniform) (store rs t) [.mov .r8 .rax]
    fun m₂ (hReady : Assigns (.of k u) a n before m m₂) => exec_fieldWrite rs hPlain hInside hReady
  have hCode : (assign rs t (some (t, b)) x y).uniform = (do
      x.uniform
      Emit.push
      y.uniform
      Emit.code ((fieldMerge rs t b).map Instr.uniform)
      Emit.pop .rdi
      Emit.code (store rs t)
      Emit.code [.mov .r8 .rax]) := by
    simp only [assign, uniform_bind, uniform_code, uniform_push,
      uniform_pop, store_of_plain rs hPlain]
    rfl
  rw [hCode]
  have hRest := hValue.bind hTail (fun _ _ _ hReady => hReady)
    (R := fun _ m' => FieldWritten (.of k u) b a n before m m')
    fun _ _ _ _ _ hWritten => hWritten
  have hPush := does_push.mono (Q := fun m₁ => Kept m m₁ ∧ m₁.regs .rax = a)
    (R := fun _ m₂ => Pushed a m m₂)
    (fun m₁ hFound => by rw [hFound.1.stack]; exact hRoom)
    fun m₁ m₂ hFound hPushed => hFound.2 ▸ hPushed.after hFound.1
  exact hAddress.bind (hPush.bind hRest (fun _ _ _ hPushed =>
      hPushed) (R := fun _ m' => FieldWritten (.of k u) b a n
        before m m') fun _ _ _ _ _ hWritten => hWritten)
    (fun m₀ _ hSame hFound => by cases hSame; exact hFound)
    fun m₀ _ _ hSame _ hWritten => by cases hSame; exact hWritten

/- Reading a field takes no long constants. -/
theorem uniform_memberRead (hBits : f.bits? = some b) (hPlain : f.type.plain = .integer k u) :
    (memberRead rs f).map Instr.uniform = memberRead rs f := by
  rw [memberRead, List.map_append, uniform_load rs hPlain, hBits]
  rfl

/- The code of an assignment to a field. -/
theorem expr_assignField (hBits : f.bits? = some b) (hWhole : i.type? = some f.type) :
    expr c .value (.assign i (.member j e f) r) = (do
      Emit.loc i.tok
      assign c.records f.type (some (f.type, b))
        (expr c .address (.member j e f)) (expr c .value r)) := by
  rw [expr, hWhole, bitField?, hBits]
  cases f.type.isRecord <;> rfl

/-
  A number that is assigned to a bit-field is read back modulo
  the width of the field, with its sign if the type has one.
  No other bit of memory in use is changed: those are what they
  were after the number was computed.
-/
theorem field_written_and_read (hBits : f.bits? = some b) (hPlain : f.type.plain = .integer k u)
    (hInside : b.Inside (8 * f.type.size c.records)) (hLeft : j.type? = some f.type)
    (hWhole : i.type? = some f.type) (hRoom : 8 ≤ (m.regs .rsp).toNat)
    (hAddress : Locates (expr c .address (.member j e f)) a m)
    (hValue : Does 0 (expr c .value r).uniform (Pushed a m)
      fun _ m' => Assigns (.of k u) a n before m m') :
    Does 0 (expr c .value (.assign i (.member j e f) r)).uniform
        (· = m) (FieldWritten (.of k u) b a n before) ∧
      ∀ m', FieldWritten (.of k u) b a n before m m' → (∀ q < (f.type.size c.records).toNat,
          m.regs .rsp ≤ a + BitVec.ofNat 64 q) →
        Locates (expr c .address (.member j e f)) a m' →
        Delivers (expr c .value (.member j e f)) (b.cut u n)
          m' := by
  have hSize := size_of_plain c.records hPlain
  have hBytes : (stored (.of k u)).bits = 8 * (stored (.of k u)).bytes := by
    cases stored (.of k u) <;> rfl
  have hUnit : b.Inside (stored (.of k u)).bits := by
    rw [hSize] at hInside
    rw [hBytes]
    exact_mod_cast hInside
  constructor
  · rw [expr_assignField hBits hWhole, uniform_bind, uniform_loc]
    exact (does_assignField hPlain hUnit hRoom hAddress hValue).located i.tok
  · intro m' hWritten hUsed hAgain
    have hRead : Does 0 (Emit.code (memberRead c.records f))
        (fun m₁ => Kept m' m₁ ∧ m₁.regs .rax = a)
        fun m₁ m₂ => Kept m₁ m₂ ∧ m₂.regs .rax = BitVec.ofInt 64 (b.cut u n) := by
      refine does_code fun m₁ hFound => ?_
      obtain ⟨hKept, hRax⟩ := hFound
      refine yields_fieldRead hBits hPlain hUnit fun l hl => ?_
      rw [hSize] at hUsed
      rw [hRax, ← hWritten.held hUsed hUnit hl, Memory.load_congr fun q hq =>
          hKept.memory _ (hWritten.stack ▸ hUsed q hq)]
    rw [Delivers, follows_member c e hLeft, uniform_bind,
      uniform_bind, uniform_loc, uniform_code, uniform_memberRead hBits hPlain]
    exact ((hAgain.bind hRead (fun m₀ _ hSame hFound => by cases hSame; exact hFound)
      fun m₀ _ _ hSame hFound hNext => by
        cases hSame
        exact ⟨hFound.1.trans hNext.1, hNext.2⟩).located j.tok)

/- A member of a variable in the frame is found at its place. -/
theorem locates_local {v : ObjId} (hLocal : (c.object v).isLocal = true)
    (hFixed : (c.object v).type.isVla = false) (m : Machine) :
    Locates (expr c .address (.member j (.var i v) f))
      (m.regs .rbp + BitVec.ofInt 64 (c.frame.offset v) + BitVec.ofInt 64 f.offset) m := by
  have hAddress : variableAddress c v (i.type?.getD .void) =
      [Instr.lea (c.slot v) .rax].map .instr := by
    simp [variableAddress, hLocal, hFixed]
  have hCode : (expr c .address (.member j (.var i v) f)).uniform = (do
        Emit.code [.lea (c.slot v) .rax]
        Emit.code [.alu .add (.imm f.offset) .rax]) := by
    rw [expr, expr]
    simp only [loaded, hAddress]
    rfl
  rw [Locates, hCode]
  refine (does_code (T := fun m m' => m' = m.set .rax
      (m.regs .rbp + BitVec.ofInt 64 (c.frame.offset v)))
    fun m _ => ⟨_, rfl, rfl⟩).bind (does_code (P := fun _ => True)
      (T := fun m m' => m' = m.unflagged.set .rax (m.regs .rax + BitVec.ofInt 64 f.offset))
      fun m _ => ⟨_, ?_, rfl⟩) (fun _ _ _ _ => trivial) ?_
  · have hExec : m.exec? (.alu .add (.imm f.offset) .rax) =
        (m.read? .quad .rax).bind fun x : BitVec 64 => some
          (m.unflagged.set .rax (x + BitVec.ofInt 64 f.offset)) :=
      rfl
    simp only [execAll?, hExec, read?_quad]
    rfl
  · rintro m₀ _ _ rfl rfl rfl
    refine ⟨(kept_set _ _ (by decide) (by decide)).trans ((kept_flags _ none).trans
        (kept_set _ _ (by decide) (by decide))), ?_⟩
    rw [set_regs_self, set_regs_self]

/- A constant is a value that leaves memory as it was. -/
theorem assigns_constant {v : Int64} {τ : IntType} :
    Does 0 (expr c .value (.num i v)).uniform (Pushed a m)
      fun _ m' => Assigns τ a v.toInt m.mem m m' := by
  have hCode : (expr c .value (.num i v)).uniform = (do
      Emit.loc i.tok
      Emit.code [.mov (.imm v.toInt) .rax]) := by
    rw [expr]
    rfl
  rw [hCode]
  refine (does_code fun m₁ hPushed => ⟨_, rfl, ?_⟩).located i.tok
  obtain ⟨hLowered, hTop⟩ := hPushed
  refine ⟨hLowered.stack, hLowered.frame, hTop, fun x hUsed => hLowered.memory x hUsed, ?_⟩
  exact IntType.represents_ofInt _ _

/- A structure of two fields, the second one of 40 bits. -/
def wideField : Member :=
  ⟨.integer .long false, none, 1, 8, 0, some ⟨24, 40⟩⟩

/- A function with such a structure in its frame. -/
def hasFields : Context :=
  let p : Program :=
    { globals := []
      objects :=
        #[{ name := [], type := .record 0, align := 8,
            isLocal := true }]
      records :=
        #[{ isUnion := false, size := 8, align := 8,
            root := 0,
            members :=
              [⟨.integer .long false, none, 0, 8, 0,
                some ⟨0, 24⟩⟩, wideField] }]
      jumps := #[] }
  let fn : Obj :=
    { name := [], type := .func .void [] [] false,
      align := 1, params := [], locals := [0] }
  ⟨p, false, fn, Frame.of p fn⟩

/- A machine whose frame ends at 4096. -/
def inFrame : Machine where
  regs := fun
    | .rbp => 4096
    | .rsp => 4064
    | _ => 0
  flags? := none
  mem := fun a => a.setWidth 8

/- Three less than what does not fit is read as minus three. -/
theorem field_written_and_read_wide :
    let info : Info :=
      { tok := default, type? := some wideField.type }
    let place : Expr := .member info (.var default 0) wideField
    Does 0 (expr hasFields .value (.assign info place (.num default (2 ^ 40 - 3)))).uniform
        (· = inFrame)
        (FieldWritten (.of .long false) ⟨24, 40⟩ 4088 (2 ^ 40 - 3) inFrame.mem) ∧
      ∀ m', FieldWritten (.of .long false) ⟨24, 40⟩ 4088 (2 ^ 40 - 3) inFrame.mem inFrame m' →
        Delivers (expr hasFields .value place) (-3) m' := by
  intro info place
  have hFrame : hasFields.frame.offset 0 = -8 := by decide +kernel
  have hPlace : ∀ m : Machine, m.regs .rbp = 4096 →
      Locates (expr hasFields .address place) 4088 m := by
    intro m hBase
    have hFound := locates_local (c := hasFields) (i := default)
      (j := info) (v := 0) (f := wideField) rfl rfl m
    rwa [hFrame, hBase] at hFound
  obtain ⟨hWrite, hRead⟩ := field_written_and_read (c := hasFields) (i := info) (j := info)
    (e := .var default 0) (r := .num default (2 ^ 40 - 3))
    (f := wideField) (b := ⟨24, 40⟩) (k := .long) (u := false)
    (m := inFrame) (a := 4088) (n := 2 ^ 40 - 3)
    rfl rfl
    ⟨by decide, by decide, by decide⟩ rfl rfl (by decide)
    (hPlace _ rfl) assigns_constant
  refine ⟨hWrite, fun m' hWritten => ?_⟩
  have hUsed : ∀ q < 8, inFrame.regs .rsp ≤ 4088 + BitVec.ofNat 64 q := by decide
  exact hRead m' hWritten hUsed (hPlace m' hWritten.frame)

end Codegen

end CCompiler
