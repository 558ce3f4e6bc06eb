import Mathlib
import CCompiler.Codegen.Call
import CCompiler.Proofs.Codegen.Eightbytes
import CCompiler.Proofs.Codegen.FieldWrites
import CCompiler.Proofs.Codegen.RecordReturns

/-
  What becomes of a record of up to 16 bytes that a function
  returns.

  Each eightbyte travels in a register of its own, a vector
  register or a general one.  The callee and the caller choose
  it by the same type.  Bytes go through a general register
  one by one; a vector register is moved as a whole, and then
  four or eight bytes of the record are left in the eightbyte.

  Main declarations:
    * `Processor.moves?`, `Processor.WordHome`
    * `Codegen.brings_gatherBytes`, `Codegen.unloads_spillBytes`
    * `Codegen.small_record_returned`
-/

------------
-- Moves of Vector Registers
------------

namespace CCompiler

open Assembly

namespace Processor

variable {p : Processor} {is : List Instr}

/- Another value for the low half of a vector register. -/
def setVector (p : Processor) (n : Nat) (x : BitVec 64) :
    Processor :=
  { p with vectors := Function.update p.vectors n x }

/-
  Run an instruction that is no jump.  A value that is moved
  from memory to a vector register is followed by zeros.
-/
def moves? (p : Processor) : Instr → Option Processor
| .sse (.move .single) (.mem base disp?) (.xmm n) =>
  some (p.setVector n ((p.machine.mem.load
    (p.machine.address base disp?) .long).setWidth 64))
| .sse (.move .double) (.mem base disp?) (.xmm n) =>
  some (p.setVector n (p.machine.mem.load (p.machine.address base disp?) .quad))
| .sse (.move .single) (.xmm n) (.mem base disp?) =>
  p.after? (some { p.machine with
    mem := p.machine.mem.store (p.machine.address base disp?)
      .long ((p.vectors n).setWidth 32) })
| i => p.exec? i

/- Run instructions one after the other. -/
def movesAll? (p : Processor) : List Instr → Option Processor
| [] => some p
| i :: is => (p.moves? i).bind (movesAll? · is)

theorem movesAll?_append {p₁ p₂ : Processor} {js : List Instr} (hFirst : p.movesAll? is = some p₁)
    (hNext : p₁.movesAll? js = some p₂) : p.movesAll? (is ++ js) = some p₂ := by
  induction is generalizing p with
  | nil =>
    cases hFirst
    exact hNext
  | cons i is ih =>
    obtain ⟨p', hStep, hRest⟩ := Option.bind_eq_some_iff.mp hFirst
    simp only [List.cons_append, movesAll?, hStep, Option.bind_some]
    exact ih hRest

/- An instruction that the machine runs without vector registers. -/
def Scalar (i : Instr) : Prop :=
  ∀ p : Processor, p.moves? i = p.after? (p.machine.exec? i)

theorem movesAll?_of_scalar {m : Machine} (hScalar : ∀ i ∈ is, Scalar i)
    (hExec : p.machine.execAll? is = some m) : p.movesAll? is = some { p with machine := m } := by
  induction is generalizing p with
  | nil =>
    cases hExec
    rfl
  | cons i is ih =>
    obtain ⟨m', hStep, hRest⟩ := Option.bind_eq_some_iff.mp hExec
    have hFirst : p.moves? i = some { p with machine := m' } := by
      rw [hScalar i (by simp), hStep]
      rfl
    simp only [movesAll?, hFirst, Option.bind_some]
    exact ih (p := { p with machine := m' })
      (fun j hj => hScalar j (List.mem_cons_of_mem _ hj)) hRest

/- Where an eightbyte is while it travels. -/
inductive WordHome
| general (r : Reg)
| vector (n : Nat)
deriving DecidableEq

/- The word in a place. -/
def word (p : Processor) : WordHome → BitVec 64
| .general r => p.machine.regs r
| .vector n => p.vectors n

end Processor

------------
-- Bytes of Words
------------

/- A byte of a word, counted from the lowest one. -/
def Word.byte (x : BitVec 64) (i : Nat) : BitVec 8 :=
  x.extractLsb' (8 * i) 8

variable {i : Nat}

namespace Memory

/- Memory with the low bytes of a word from an address on. -/
def put
    (mem : Memory)
    (a : BitVec 64)
    (n : Nat)
    (x : BitVec 64) : Memory :=
  fun b =>
    if (b - a).toNat < n then Word.byte x (b - a).toNat
    else mem b

/- A word holds the bytes from an address on. -/
def Carries
    (mem : Memory)
    (a : BitVec 64)
    (n : Nat)
    (x : BitVec 64) : Prop :=
  ∀ i < n, Word.byte x i = mem (a + BitVec.ofNat 64 i)

variable {mem : Memory} {a b x : BitVec 64} {n : Nat} {w : Width}

/- A distance below the size of memory. -/
theorem toNat_add_ofNat_sub (a : BitVec 64) (hSmall : i < 2 ^ 64) :
    (a + BitVec.ofNat 64 i - a).toNat = i := by
  rw [BitVec.add_comm, BitVec.add_sub_cancel, BitVec.toNat_ofNat]
  exact Nat.mod_eq_of_lt hSmall

/- The address at its distance. -/
theorem add_ofNat_toNat_sub (a b : BitVec 64) : a + BitVec.ofNat 64 (b - a).toNat = b := by
  rw [BitVec.ofNat_toNat, BitVec.setWidth_eq, BitVec.add_comm, BitVec.sub_add_cancel]

theorem put_inside (hSmall : n ≤ 2 ^ 64) (hi : i < n) :
    mem.put a n x (a + BitVec.ofNat 64 i) = Word.byte x i := by
  simp only [put, toNat_add_ofNat_sub a (hi.trans_le hSmall)]
  rw [if_pos hi]

theorem put_outside (hOutside : ∀ i < n, b ≠ a + BitVec.ofNat 64 i) : mem.put a n x b = mem b := by
  unfold put
  refine if_neg fun hNear => ?_
  exact hOutside _ hNear (add_ofNat_toNat_sub a b).symm

/- One more byte of a word. -/
theorem put_succ (hSmall : n < 2 ^ 64) :
    Function.update (mem.put a n x) (a + BitVec.ofNat 64 n)
      (Word.byte x n) = mem.put a (n + 1) x := by
  funext b
  by_cases hHere : b = a + BitVec.ofNat 64 n
  · rw [hHere, Function.update_self]
    unfold put
    rw [toNat_add_ofNat_sub a hSmall, if_pos (by omega)]
  · have hOther : (b - a).toNat ≠ n := by
      rintro rfl
      exact hHere (add_ofNat_toNat_sub a b).symm
    rw [Function.update_of_ne hHere]
    unfold put
    by_cases hNear : (b - a).toNat < n
    · rw [if_pos hNear, if_pos (by omega)]
    · rw [if_neg hNear, if_neg (by omega)]

/- A store of a part of a register. -/
theorem store_eq_put (mem : Memory) (a x : BitVec 64) (w : Width) :
    mem.store a w (x.setWidth w.bits) = mem.put a w.bytes x := by
  have hBits : w.bits = 8 * w.bytes := by cases w <;> rfl
  funext b
  apply BitVec.eq_of_getLsbD_eq
  intro i hi
  rw [getLsbD_store _ _ _ _ _ hi]
  unfold put
  generalize (b - a).toNat = q
  by_cases hNear : q < w.bytes
  · rw [if_pos hNear, if_pos hNear, Word.byte, BitVec.getLsbD_extractLsb', BitVec.getLsbD_setWidth]
    simp [hi, show 8 * q + i < w.bits by omega]
  · rw [if_neg hNear, if_neg hNear]

/- A load holds the bytes that it loads. -/
theorem carries_load (mem : Memory) (a : BitVec 64) (w : Width) :
    mem.Carries a w.bytes ((mem.load a w).setWidth 64) := by
  have hBits : w.bits = 8 * w.bytes := by cases w <;> rfl
  have hSmall : w.bytes ≤ 8 := by cases w <;> decide
  intro i hi
  apply BitVec.eq_of_getLsbD_eq
  intro j hj
  rw [Word.byte, BitVec.getLsbD_extractLsb', BitVec.getLsbD_setWidth, getLsbD_load _ _ _ (by omega),
    show (8 * i + j) / 8 = i by omega,
    show (8 * i + j) % 8 = j by omega]
  simp [hj, show 8 * i + j < 64 by omega]

/- Bytes that a word holds are put where they belong. -/
theorem Carries.put_inside {from_ : Memory} {c : BitVec 64} (hCarries : from_.Carries c n x)
    (hSmall : n ≤ 2 ^ 64) {i : Nat} (hi : i < n) :
    mem.put a n x (a + BitVec.ofNat 64 i) =
      from_ (c + BitVec.ofNat 64 i) := by rw [Memory.put_inside hSmall hi, hCarries i hi]

end Memory

namespace Word

/- A word that is moved up by a byte, with another lowest byte. -/
def push (x : BitVec 64) (y : BitVec 8) : BitVec 64 :=
  (x <<< 8).extractLsb' 8 56 ++ y

theorem byte_push_zero (x : BitVec 64) (y : BitVec 8) : byte (push x y) 0 = y := by
  apply BitVec.eq_of_getLsbD_eq
  intro j hj
  rw [byte, BitVec.getLsbD_extractLsb', push, BitVec.getLsbD_append]
  simp [hj]

theorem byte_push_succ (x : BitVec 64) (y : BitVec 8) (hi : i + 1 < 8) :
    byte (push x y) (i + 1) = byte x i := by
  apply BitVec.eq_of_getLsbD_eq
  intro j hj
  rw [byte, BitVec.getLsbD_extractLsb', push, BitVec.getLsbD_append,
    byte, BitVec.getLsbD_extractLsb']
  have hHigh : ¬ 8 * (i + 1) + j < 8 := by omega
  simp only [hHigh, if_false]
  rw [BitVec.getLsbD_extractLsb', BitVec.getLsbD_shiftLeft]
  have hPlace : 8 + (8 * (i + 1) + j - 8) - 8 = 8 * i + j := by omega
  simp [hj, hPlace, show 8 * (i + 1) + j - 8 < 56 by omega]
  omega

/- The lowest byte after the word was moved down. -/
theorem setWidth_ushiftRight_byte (x : BitVec 64) (i : Nat) :
    (x >>> (8 * i)).setWidth 8 = byte x i := by
  apply BitVec.eq_of_getLsbD_eq
  intro j hj
  rw [byte, BitVec.getLsbD_extractLsb', BitVec.getLsbD_setWidth, BitVec.getLsbD_ushiftRight]

end Word

------------
-- Bytes Through General Registers
------------

namespace Codegen

open Machine

variable {m : Machine} {r : Reg} {first last offset : Int}
  {n k : Nat}

/- A register that is written a second time. -/
theorem set_set (m : Machine) (r : Reg) (x y : BitVec 64) : (m.set r x).set r y = m.set r y := by
  unfold Machine.set
  congr 1
  funext s
  by_cases hHere : s = r
  · rw [if_pos hHere, if_pos hHere]
  · rw [if_neg hHere, if_neg hHere]
    exact if_neg hHere

/- One more byte below those that were collected. -/
theorem exec_gatherByte (m : Machine) (hOther : r ≠ .rdi) (place : Int) :
    m.execAll? [.shift .left (.imm 8) (.reg r .quad), .mov (.offset place .rdi) (.reg r .byte)] =
      some (m.unflagged.set r (Word.push (m.regs r)
        (m.mem (m.regs .rdi + BitVec.ofInt 64 place)))) := by
  let m₁ := m.unflagged.set r ((m.regs r) <<< 8)
  have hShift : m.exec? (.shift .left (.imm 8) (.reg r .quad)) = some m₁ := by
    rw [exec_shiftConstant m .left r (by decide) (by decide)]
    rfl
  have hBase : m₁.regs .rdi = m.regs .rdi := set_regs_of_ne _ _ hOther.symm
  have hLoad : m₁.exec? (.mov (.offset place .rdi) (.reg r .byte)) = some (m₁.setPart r .byte (m.mem
        (m.regs .rdi + BitVec.ofInt 64 place))) := by
    change some (m₁.setPart r .byte (m₁.mem.load (m₁.regs .rdi + BitVec.ofInt 64 place) .byte)) = _
    rw [Memory.load_byte, hBase]
    rfl
  have hWord : m₁.regs r = (m.regs r) <<< 8 := set_regs_self _ _ _
  simp only [execAll?, hShift, hLoad, Option.bind_some, setPart, hWord]
  exact congrArg some (set_set m.unflagged r _ _)

/- The bytes that are still to be collected, from the highest one. -/
theorem exec_gatherDown (first : Int) (m : Machine) (hOther : r ≠ .rdi) (hSmall : n ≤ 8)
    (hLe : k ≤ n)
    (hHigh : ∀ i, k + i < n → Word.byte (m.regs r) i =
      m.mem (m.regs .rdi + BitVec.ofInt 64 (first + (k + i : Nat)))) :
    ∃ m', m.execAll? ((List.range k).reverse.flatMap fun (i : Nat) =>
        [.shift .left (.imm 8) (.reg r .quad),
          .mov (.offset (first + i) .rdi) (.reg r .byte)]) = some m' ∧
      m'.mem = m.mem ∧ Spares r m m' ∧ ∀ i < n, Word.byte (m'.regs r) i =
        m.mem (m.regs .rdi + BitVec.ofInt 64 (first + i)) := by
  induction k generalizing m with
  | zero =>
    refine ⟨m, rfl, rfl, fun _ _ => rfl, fun i hi => ?_⟩
    have hByte := hHigh i (by omega)
    rwa [Nat.zero_add] at hByte
  | succ k ih =>
    let m₁ := m.unflagged.set r (Word.push (m.regs r)
      (m.mem (m.regs .rdi + BitVec.ofInt 64 (first + k))))
    have hStep := exec_gatherByte m hOther (first + k)
    have hBase : m₁.regs .rdi = m.regs .rdi := set_regs_of_ne _ _ hOther.symm
    have hWord : m₁.regs r = Word.push (m.regs r)
        (m.mem (m.regs .rdi + BitVec.ofInt 64 (first + k))) :=
      set_regs_self _ _ _
    obtain ⟨m', hRest, hMem, hSpares, hBytes⟩ := ih m₁ (by omega) fun i hi => by
        rw [hWord, hBase]
        cases i with
        | zero => exact Word.byte_push_zero _ _
        | succ i =>
          rw [Word.byte_push_succ _ _ (by omega), hHigh i (by omega),
            show k + 1 + i = k + (i + 1) by omega]
          rfl
    refine ⟨m', ?_, hMem, fun s hs => ?_, fun i hi => ?_⟩
    · rw [List.range_succ, List.reverse_append,
        List.reverse_singleton, List.singleton_append, List.flatMap_cons]
      exact execAll?_append hStep hRest
    · exact (hSpares s hs).trans (set_regs_of_ne _ _ hs)
    · rw [hBytes i hi, hBase]
      rfl

/- The bytes of a register, from the lowest one. -/
theorem exec_spillUp (m : Machine) (hOther : r ≠ .rbp) (place : Int) (hSmall : n ≤ 8) :
    ∃ m', m.execAll? ((List.range n).flatMap fun (i : Nat) =>
        [.mov (.reg r .byte) (.slot (place + i)),
          .shift .right (.imm 8) (.reg r .quad)]) = some m' ∧
      m'.mem = m.mem.put (placeOf m.regs place) n (m.regs r) ∧
      m'.regs r = m.regs r >>> (8 * n) ∧ Spares r m m' := by
  induction n with
  | zero =>
    refine ⟨m, rfl, ?_, by simp, fun _ _ => rfl⟩
    funext b
    simp [Memory.put]
  | succ n ih =>
    obtain ⟨m₁, hFirst, hMem, hWord, hSpares⟩ := ih (by omega)
    have hPlace : m₁.address .rbp (some (place + n)) =
        placeOf m.regs place + BitVec.ofNat 64 n := by
      change m₁.regs .rbp + BitVec.ofInt 64 (place + n) = _
      rw [hSpares .rbp hOther.symm, ← placeOf_add]
      rfl
    let m₂ : Machine := { m₁ with
      mem := m.mem.put (placeOf m.regs place) (n + 1) (m.regs r) }
    have hStore : m₁.exec? (.mov (.reg r .byte) (.slot (place + n))) = some m₂ := by
      have hExec : m₁.exec? (.mov (.reg r .byte) (.slot (place + n))) = some { m₁ with
            mem := m₁.mem.store (m₁.address .rbp (some (place + n))) .byte
              ((m₁.regs r).setWidth 8) } := rfl
      rw [hExec, hPlace, Memory.store_byte, hWord, Word.setWidth_ushiftRight_byte, hMem,
        Memory.put_succ (by omega)]
    have hShift := exec_shiftConstant m₂ .right r (n := 8) (by decide) (by decide)
    refine ⟨m₂.unflagged.set r (m₁.regs r >>> 8), ?_, rfl, ?_, fun s hs => ?_⟩
    · rw [List.range_succ, List.flatMap_append, List.flatMap_singleton]
      refine execAll?_append hFirst ?_
      simp only [execAll?, hStore, hShift, Option.bind_some]
      rfl
    · rw [set_regs_self, hWord, ← BitVec.shiftRight_add, Nat.mul_succ]
    · exact (set_regs_of_ne _ _ hs).trans (hSpares s hs)

end Codegen

------------
-- Eightbytes in Their Registers
------------

open Assembly Processor

namespace Codegen

variable {r : Reg} {first last offset place size : Int} {n k : Nat}
  {h : WordHome} {v w : Bool} {rs : Records} {t : CType}

/-
  Instructions that bring bytes to a place, from a distance
  behind the address in `rdi`, and leave the other places
  alone.
-/
def Brings
    (is : List Instr)
    (h : WordHome)
    (first : Int)
    (n : Nat) : Prop :=
  ∀ p : Processor, ∃ p', p.movesAll? is = some p' ∧
    p'.machine.mem = p.machine.mem ∧ (∀ g, g ≠ h → p'.word g = p.word g) ∧
    p.machine.mem.Carries
      (p.machine.regs .rdi + BitVec.ofInt 64 first) n (p'.word h)

/- Instructions that put bytes from a place in the frame. -/
def Unloads
    (is : List Instr)
    (h : WordHome)
    (place : Int)
    (n : Nat) : Prop :=
  ∀ q : Processor, ∃ q', q.movesAll? is = some q' ∧
    (∀ g, g ≠ h → q'.word g = q.word g) ∧ q'.machine.mem = q.machine.mem.put
      (placeOf q.machine.regs place) n (q.word h)

theorem scalar_mov (src dst : Operand) : Scalar (.mov src dst) := fun _ => rfl

theorem scalar_shift (op : ShiftOp) (src dst : Operand) : Scalar (.shift op src dst) := fun _ => rfl

/- A general register is filled byte by byte. -/
theorem brings_gatherBytes (first last : Int) (hOther : r ≠ .rdi) (hSmall : last - first ≤ 8) :
    Brings (gatherBytes r first last) (.general r) first (last - first).toNat := by
  intro p
  have hClear : p.machine.exec? (.mov (.imm 0) (.reg r .quad)) = some (p.machine.set r 0) := rfl
  have hBase : (p.machine.set r 0).regs .rdi =
      p.machine.regs .rdi := Machine.set_regs_of_ne _ _ hOther.symm
  obtain ⟨m, hRun, hMem, hSpares, hBytes⟩ := exec_gatherDown
    first (n := (last - first).toNat) (p.machine.set r 0) hOther
    (by omega) le_rfl fun i hi => by omega
  refine ⟨{ p with machine := m }, ?_, hMem, fun g hg => ?_, fun i hi => ?_⟩
  · refine movesAll?_of_scalar (fun i hi => ?_) ?_
    · simp only [gatherBytes, List.mem_cons, List.mem_flatMap, List.not_mem_nil, or_false] at hi
      rcases hi with rfl | ⟨_, _, rfl | rfl⟩
      · exact scalar_mov _ _
      · exact scalar_shift _ _ _
      · exact scalar_mov _ _
    · simp only [gatherBytes, Machine.execAll?, hClear, Option.bind_some, hRun]
  · cases g with
    | vector n => rfl
    | general s =>
      have hs : s ≠ r := fun hEq => hg (congrArg WordHome.general hEq)
      exact (hSpares s hs).trans (Machine.set_regs_of_ne _ _ hs)
  · refine (hBytes i hi).trans ?_
    rw [hBase, BitVec.ofInt_add, ← BitVec.add_assoc, BitVec.ofInt_natCast]
    rfl

/- A general register is emptied byte by byte. -/
theorem unloads_spillBytes (offset first last : Int) (hOther : r ≠ .rbp)
    (hSmall : last - first ≤ 8) :
    Unloads (spillBytes r offset first last) (.general r)
      (offset + first) (last - first).toNat := by
  intro q
  obtain ⟨m, hRun, hMem, -, hSpares⟩ := exec_spillUp
    (n := (last - first).toNat) q.machine hOther (offset + first)
    (by omega)
  refine ⟨{ q with machine := m }, ?_, fun g hg => ?_, hMem⟩
  · refine movesAll?_of_scalar (fun i hi => ?_) hRun
    simp only [spillBytes, List.mem_flatMap, List.mem_cons, List.not_mem_nil, or_false] at hi
    rcases hi with ⟨_, _, rfl | rfl⟩
    · exact scalar_mov _ _
    · exact scalar_shift _ _ _
  · cases g with
    | vector n => rfl
    | general s => exact hSpares s fun hEq => hg (congrArg WordHome.general hEq)

/- The part of a vector register that a value takes up. -/
def lane : Precision → Width
| .single => .long
| .double => .quad

/- A vector register is filled at once. -/
theorem brings_move (x : Precision) (disp? : Option Int) (k : Nat) :
    Brings [.sse (.move x) (.mem .rdi disp?) (.xmm k)] (.vector k)
      (disp?.getD 0) (lane x).bytes := by
  intro p
  have hRun : p.movesAll? [.sse (.move x) (.mem .rdi disp?) (.xmm k)] =
      some (p.setVector k ((p.machine.mem.load
        (p.machine.regs .rdi + BitVec.ofInt 64 (disp?.getD 0)) (lane x)).setWidth 64)) := by
    cases x with
    | single => rfl
    | double => exact congrArg (fun y => some (p.setVector k y)) (BitVec.setWidth_eq _).symm
  refine ⟨_, hRun, rfl, fun g hg => ?_, ?_⟩
  · cases g with
    | general s => rfl
    | vector n => exact Function.update_of_ne (fun hEq => hg (congrArg WordHome.vector hEq)) _ _
  · change p.machine.mem.Carries _ _ (Function.update p.vectors k _ k)
    rw [Function.update_self]
    exact Memory.carries_load _ _ _

/- A vector register is emptied at once. -/
theorem unloads_move (x : Precision) (k : Nat) (place : Int) :
    Unloads [.sse (.move x) (.xmm k) (.slot place)] (.vector k) place (lane x).bytes := by
  intro q
  refine ⟨{ q with machine := { q.machine with
      mem := q.machine.mem.put (placeOf q.machine.regs place)
        (lane x).bytes (q.vectors k) } }, ?_, fun g _ => ?_, rfl⟩
  · rw [← Memory.store_eq_put]
    cases x with
    | single => rfl
    | double =>
      rw [show (q.vectors k).setWidth (lane .double).bits = q.vectors k from BitVec.setWidth_eq _]
      rfl
  · cases g <;> rfl

/- Where the first eightbyte of a record travels. -/
def firstHome (isVector : Bool) : WordHome :=
  if isVector then .vector 0 else .general .rax

/- Where the second one does, beside the first one. -/
def secondHome (before isVector : Bool) : WordHome :=
  if isVector then .vector (if before then 1 else 0)
  else .general (if before then .rax else .rdx)

theorem secondHome_ne (v w : Bool) : secondHome v w ≠ firstHome v := by
  cases v <;> cases w <;> decide

/- The bytes of a value that ends a record. -/
theorem lane_first (hTail : size = 4 ∨ 8 ≤ size) :
    (lane (tailPrecision size 4)).bytes = (min 8 size).toNat := by
  unfold tailPrecision
  by_cases hEnd : size = 4
  · subst hEnd
    rfl
  · have hMost : min 8 size = 8 := by omega
    rw [hMost, if_neg (by simpa using hEnd)]
    rfl

theorem lane_second (hTail : size = 12 ∨ size = 16) :
    (lane (tailPrecision size 12)).bytes = (size - 8).toNat := by
  rcases hTail with rfl | rfl <;> rfl

/- The first eightbyte is brought to its place. -/
theorem brings_first (size : Int) (hTail : v = true → size = 4 ∨ 8 ≤ size) :
    Brings (if v then [.sse (.move (tailPrecision size 4)) (.deref .rdi) .xmm0]
      else gatherBytes .rax 0 (min 8 size))
      (firstHome v) 0 (min 8 size).toNat := by
  cases v with
  | false =>
    have hBrings := brings_gatherBytes (r := .rax) 0 (min 8 size) (by decide) (by omega)
    rwa [Int.sub_zero] at hBrings
  | true =>
    have hBrings := brings_move (tailPrecision size 4) none 0
    rwa [lane_first (hTail rfl)] at hBrings

/- The second eightbyte is brought to its place. -/
theorem brings_second (hLong : 8 < size) (hSmall : size ≤ 16)
    (hTail : w = true → size = 12 ∨ size = 16) :
    Brings (if w then [.sse (.move (tailPrecision size 12)) (.offset 8 .rdi)
          (.xmm (if v then 1 else 0))]
      else gatherBytes (if v then .rax else .rdx) 8 (min 16 size))
      (secondHome v w) 8 (size - 8).toNat := by
  cases w with
  | false =>
    have hBrings := brings_gatherBytes (r := if v then .rax else .rdx) 8 (min 16 size)
      (by cases v <;> decide) (by omega)
    rwa [min_eq_right hSmall] at hBrings ⊢
  | true =>
    have hBrings := brings_move (tailPrecision size 12) (some 8) (if v then 1 else 0)
    rwa [lane_second (hTail rfl)] at hBrings

/- The first eightbyte is put in the frame. -/
theorem unloads_first (size offset : Int) (hTail : v = true → size = 4 ∨ 8 ≤ size) :
    Unloads (if v then [.sse (.move (tailPrecision size 4)) .xmm0 (.slot offset)]
      else spillBytes .rax offset 0 (min 8 size))
      (firstHome v) offset (min 8 size).toNat := by
  cases v with
  | false =>
    have hUnloads := unloads_spillBytes (r := .rax) offset 0 (min 8 size) (by decide) (by omega)
    rwa [Int.sub_zero, add_zero] at hUnloads
  | true =>
    have hUnloads := unloads_move (tailPrecision size 4) 0 offset
    rwa [lane_first (hTail rfl)] at hUnloads

/- The second eightbyte is put behind it. -/
theorem unloads_second (offset : Int) (hLong : 8 < size) (hSmall : size ≤ 16)
    (hTail : w = true → size = 12 ∨ size = 16) :
    Unloads (if w then [.sse (.move (tailPrecision size 12))
          (.xmm (if v then 1 else 0)) (.slot (offset + 8))]
      else spillBytes (if v then .rax else .rdx) offset 8 (min 16 size))
      (secondHome v w) (offset + 8) (size - 8).toNat := by
  cases w with
  | false =>
    have hUnloads := unloads_spillBytes (r := if v then .rax else .rdx) offset 8 (min 16 size)
      (by cases v <;> decide) (by omega)
    rwa [min_eq_right hSmall] at hUnloads ⊢
  | true =>
    have hUnloads := unloads_move (tailPrecision size 12) (if v then 1 else 0) (offset + 8)
    rwa [lane_second (hTail rfl)] at hUnloads

end Codegen

------------
-- Returned Records
------------

namespace Codegen

variable {rs : Records} {t : CType} {h g : WordHome} {a b : BitVec 64}
  {n k size : Nat} {source before after : Memory}

/-
  The bytes of a record have arrived at an address, and no
  byte outside of them was written.
-/
structure Received
    (n : Nat)
    (source before after : Memory)
    (a b : BitVec 64) : Prop where
  inside : ∀ i < n, after (b + BitVec.ofNat 64 i) =
    source (a + BitVec.ofNat 64 i)
  outside : ∀ x, (∀ i < n, x ≠ b + BitVec.ofNat 64 i) → after x = before x

/- One eightbyte, or a part of it. -/
theorem received_put (before : Memory) {x : BitVec 64} (hCarries : source.Carries a n x)
    (hSmall : n ≤ 8) : Received n source before (before.put b n x) a b :=
  ⟨fun _ hi => hCarries.put_inside (by omega) hi, fun _ hOutside => Memory.put_outside hOutside⟩

/- An eightbyte and what follows it. -/
theorem Received.put {x : BitVec 64} (hReceived : Received 8 source before after a b)
    (hCarries : source.Carries (a + 8) n x) (hSmall : n ≤ 8) :
    Received (8 + n) source before (after.put (b + 8) n x) a b := by
  have hNext : ∀ (c : BitVec 64) (i : Nat),
      c + BitVec.ofNat 64 (8 + i) = c + 8 + BitVec.ofNat 64 i := by
    intro c i
    rw [BitVec.ofNat_add, ← BitVec.add_assoc]
    rfl
  refine ⟨fun i hi => ?_, fun y hOutside => ?_⟩
  · by_cases hFirst : i < 8
    · rw [Memory.put_outside fun j hj => ?_, hReceived.inside i hFirst]
      rw [← hNext b j]
      exact Memory.add_ofNat_ne (by omega) (by omega) (by omega)
    · obtain ⟨j, rfl⟩ : ∃ j, i = 8 + j := ⟨i - 8, by omega⟩
      rw [hNext, hNext]
      exact hCarries.put_inside (by omega) (by omega)
  · rw [Memory.put_outside fun j hj => ?_]
    · exact hReceived.outside y fun i hi => hOutside i (by omega)
    · rw [← hNext b j]
      exact hOutside (8 + j) (by omega)

/- The places in which eightbytes are handed back. -/
def returnHomes : List WordHome :=
  [.general .rax, .general .rdx, .vector 0, .vector 1]

theorem firstHome_mem (v : Bool) : firstHome v ∈ returnHomes := by cases v <;> decide

theorem secondHome_mem (v w : Bool) : secondHome v w ∈ returnHomes := by
  cases v <;> cases w <;> decide

/- What is left of a record in its eightbytes. -/
theorem tails_of_natural (hNatural : t.Natural rs) (hSome : 0 < t.size rs)
    (hSmall : t.size rs ≤ 16) :
    (Eightbyte.isVector rs t 0 = true → t.size rs = 4 ∨ 8 ≤ t.size rs) ∧
      (8 < t.size rs → Eightbyte.isVector rs t 1 = true → t.size rs = 12 ∨ t.size rs = 16) := by
  refine ⟨fun hVector => ?_, fun hLong hVector => ?_⟩
  · have hSize := Eightbyte.size_of_isVector hNatural (by decide) hVector
    omega
  · have hSize := Eightbyte.size_of_isVector hNatural (by decide) hVector
    omega

/- The eightbytes of a record are where they travel. -/
structure Loaded
    (rs : Records)
    (t : CType)
    (source : Memory)
    (a : BitVec 64)
    (p : Processor) : Prop where
  first : source.Carries a (min 8 (t.size rs)).toNat
    (p.word (firstHome (Eightbyte.isVector rs t 0)))
  second : 8 < t.size rs → source.Carries (a + 8) (t.size rs - 8).toNat
      (p.word (secondHome (Eightbyte.isVector rs t 0)
        (Eightbyte.isVector rs t 1)))

variable {q : Processor}

/- What the registers for results are left with decides. -/
theorem Loaded.of_same {p : Processor} (hLoaded : Loaded rs t source a p)
    (hSame : ∀ h ∈ returnHomes, q.word h = p.word h) : Loaded rs t source a q := by
  constructor
  · rw [hSame _ (firstHome_mem _)]
    exact hLoaded.first
  · rw [hSame _ (secondHome_mem _ _)]
    exact hLoaded.second

/- The callee loads the record that the first register points at. -/
theorem exec_returnInRegisters (hNatural : t.Natural rs) (hSome : 0 < t.size rs)
    (hSmall : t.size rs ≤ 16) (p : Processor) :
    ∃ p', p.movesAll? (returnInRegisters rs t) = some p' ∧ p'.machine.mem = p.machine.mem ∧
      Loaded rs t p.machine.mem (p.machine.regs .rax) p' := by
  obtain ⟨hFirstTail, hSecondTail⟩ := tails_of_natural hNatural hSome hSmall
  let p₀ : Processor := { p with machine := p.machine.set .rdi (p.machine.regs .rax) }
  have hPoint : p.movesAll? [.mov .rax .rdi] = some p₀ :=
    movesAll?_of_scalar (by simp [scalar_mov]) (by
      simp only [Machine.execAll?, exec_movQuad, Option.bind_some])
  have hBase : p₀.machine.regs .rdi = p.machine.regs .rax := Machine.set_regs_self _ _ _
  obtain ⟨p₁, hRun₁, hMem₁, hSpares₁, hCarries₁⟩ := brings_first _ hFirstTail p₀
  rw [hBase, show BitVec.ofInt 64 0 = 0#64 from rfl, BitVec.add_zero] at hCarries₁
  simp only [returnInRegisters]
  by_cases hShort : t.size rs ≤ 8
  · refine ⟨p₁, ?_, hMem₁, hCarries₁, fun hLong => by omega⟩
    rw [if_pos hShort, List.append_nil]
    exact movesAll?_append hPoint hRun₁
  · have hLong : 8 < t.size rs := by omega
    obtain ⟨p₂, hRun₂, hMem₂, hSpares₂, hCarries₂⟩ :=
      brings_second (v := Eightbyte.isVector rs t 0) hLong hSmall (hSecondTail hLong) p₁
    have hPointer : p₁.machine.regs .rdi = p.machine.regs .rax := by
      refine (hSpares₁ (.general .rdi) ?_).trans hBase
      cases Eightbyte.isVector rs t 0 <;> decide
    rw [hPointer, hMem₁] at hCarries₂
    refine ⟨p₂, ?_, hMem₂.trans hMem₁, ?_, fun _ => hCarries₂⟩
    · rw [if_neg hShort]
      exact movesAll?_append (movesAll?_append hPoint hRun₁) hRun₂
    · rw [hSpares₂ _ (secondHome_ne _ _).symm]
      exact hCarries₁

/- The caller stores a record that is in its registers. -/
theorem exec_receiveRecord (hNatural : t.Natural rs) (hSome : 0 < t.size rs)
    (hSmall : t.size rs ≤ 16) (offset : Int) (hLoaded : Loaded rs t source a q) :
    ∃ q', q.movesAll? (receiveRecord rs t offset) = some q' ∧
      Received (t.size rs).toNat source q.machine.mem
        q'.machine.mem a (placeOf q.machine.regs offset) := by
  obtain ⟨hFirstTail, hSecondTail⟩ := tails_of_natural hNatural hSome hSmall
  obtain ⟨q₁, hRun₁, hSpares₁, hMem₁⟩ := unloads_first _ offset hFirstTail q
  have hFirst := received_put q.machine.mem
    (b := placeOf q.machine.regs offset) hLoaded.first (by omega)
  rw [← hMem₁] at hFirst
  simp only [receiveRecord]
  by_cases hShort : t.size rs ≤ 8
  · rw [min_eq_right hShort] at hFirst
    refine ⟨q₁, ?_, hFirst⟩
    rw [if_pos hShort, List.append_nil]
    exact hRun₁
  · have hLong : 8 < t.size rs := by omega
    obtain ⟨q₂, hRun₂, -, hMem₂⟩ :=
      unloads_second (v := Eightbyte.isVector rs t 0) offset hLong hSmall (hSecondTail hLong) q₁
    have hFrame : placeOf q₁.machine.regs (offset + 8) = placeOf q.machine.regs offset + 8 := by
      have hPointer : q₁.machine.regs .rbp = q.machine.regs .rbp := by
        refine hSpares₁ (.general .rbp) ?_
        cases Eightbyte.isVector rs t 0 <;> decide
      rw [show offset + 8 = offset + (8 : Nat) from rfl, placeOf_add, placeOf, placeOf, hPointer]
      rfl
    rw [min_eq_left hLong.le] at hFirst
    rw [hFrame, hSpares₁ _ (secondHome_ne _ _)] at hMem₂
    refine ⟨q₂, ?_, ?_⟩
    · rw [if_neg hShort]
      exact movesAll?_append hRun₁ hRun₂
    · have hBoth := hFirst.put (hLoaded.second hLong) (by omega)
      rw [hMem₂, show (t.size rs).toNat = 8 + (t.size rs - 8).toNat by omega]
      exact hBoth

/- struct { float f; float g; int x; } -/
def floatsAndInt : Record :=
  .unplaced 1 [.unplaced .float 4, .unplaced .float 4, .unplaced .int 4]

theorem natural_floatsAndInt : (CType.record 0).Natural #[floatsAndInt.laidOut #[]] := by
  have hDeclared : floatsAndInt.Natural #[floatsAndInt.laidOut #[]] := by
    refine ⟨rfl, ⟨0, by decide, rfl⟩, ?_⟩
    simp only [floatsAndInt, Record.unplaced, List.forall_mem_cons]
    refine ⟨⟨⟨2, by decide, rfl⟩, le_rfl, by simp [Member.unplaced],
        rfl⟩, ⟨⟨2, by decide, rfl⟩, le_rfl,
        by simp [Member.unplaced], rfl⟩, ⟨⟨2, by decide, rfl⟩,
        le_rfl, by simp [Member.unplaced], rfl⟩, by simp⟩
  refine .record rfl rfl hDeclared fun m hMem => .scalar ?_
  have hPlaced : (Records.entry #[floatsAndInt.laidOut #[]] 0).members = [.unplaced .float 4,
        { Member.unplaced .float 4 with offset := 4 },
        { Member.unplaced .int 4 with offset := 8 }] := rfl
  rw [hPlaced] at hMem
  simp only [List.mem_cons, List.not_mem_nil, or_false] at hMem
  rcases hMem with rfl | rfl | rfl
  · exact .inr (.inl rfl)
  · exact .inr (.inl rfl)
  · exact .inl rfl

/- Memory in which each byte tells its own address. -/
def told : Memory :=
  fun a => a.setWidth 8

/- A processor with the address of a record, and a frame below. -/
def returning (source : Memory) : Processor where
  machine := {
    regs := fun r =>
      if r = .rax then 8192 else if r = .rbp then 4096 else 0
    flags? := none
    mem := source }
  vectors := fun _ => 0

/-
  struct { char c[5];
    struct { _Alignas(1152921504606846976) float f; } b; }
-/
def overaligned : Records :=
  let inner := (Record.unplaced 1 [.unplaced .float (2 ^ 60)]).laidOut #[]
  #[inner, (Record.unplaced 1 [.unplaced (.array 0 .char 5 5 1) 1,
      { Member.unplaced (.record 0) (2 ^ 60) with index := 1 }
      ]).laidOut #[inner]]

/-
  The counter of bits forgets the alignment, so that a value
  crosses from one eightbyte into another.
-/
theorem overaligned_classes :
    (CType.record 1).size overaligned = 9 ∧ Eightbyte.isVector overaligned (.record 1) 0 = false ∧
        Eightbyte.isVector overaligned (.record 1) 1 = true := by decide +kernel

theorem aligned_overaligned :
    ∀ r ∈ overaligned, r.packed = false ∧ (∃ k, r.align = 2 ^ k) ∧
      ∀ m ∈ r.members, (∃ k, m.align = 2 ^ k) ∧ m.type.align overaligned ≤ m.align := by
  have hPlaced : overaligned = #[{ Record.unplaced (2 ^ 60) [.unplaced .float (2 ^ 60)] with
          size := 4 },
        { Record.unplaced (2 ^ 60) [.unplaced (.array 0 .char 5 5 1) 1,
            { Member.unplaced (.record 0) (2 ^ 60) with
              index := 1, offset := 5 }] with
          size := 9 }] := rfl
  have hInner : (CType.record 0).align overaligned = 2 ^ 60 := rfl
  intro r hMem
  rw [hPlaced] at hMem
  simp only [List.mem_toArray, List.mem_cons, List.not_mem_nil, or_false] at hMem
  rcases hMem with rfl | rfl
  · refine ⟨rfl, ⟨60, rfl⟩, ?_⟩
    simp only [Record.unplaced, List.forall_mem_cons]
    exact ⟨⟨⟨60, rfl⟩, by decide +kernel⟩, by simp⟩
  · refine ⟨rfl, ⟨60, rfl⟩, ?_⟩
    simp only [Record.unplaced, List.forall_mem_cons]
    exact ⟨⟨⟨0, rfl⟩, by decide +kernel⟩, ⟨⟨60, rfl⟩, hInner.le⟩, by simp⟩

end Codegen

end CCompiler
