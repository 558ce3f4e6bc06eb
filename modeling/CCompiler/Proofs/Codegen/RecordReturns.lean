import Mathlib
import CCompiler.Codegen.Module
import CCompiler.Proofs.Codegen.Operators

/-
  What becomes of a record of more than 16 bytes that a
  function returns.

  The caller passes the address of a buffer as if it were the
  first argument, and the function copies the record there.
  The address of the record that was copied stays in `rax`,
  where the caller takes it for that of the buffer.

  Main declarations:
    * `Memory.copied`, `Memory.copied_inside`
    * `Codegen.exec_copyBytes`
    * `Codegen.HandedOver`
    * `Codegen.large_record_handed_over`
-/

------------
-- Copies
------------

namespace CCompiler

open Assembly

namespace Memory

/-
  Memory after some bytes were copied from one address to
  another one, the first byte first.
-/
def copied
    (mem : Memory)
    (a b : BitVec 64) : Nat → Memory
| 0 => mem
| n + 1 =>
  let before := copied mem a b n
  Function.update before (b + BitVec.ofNat 64 n)
    (before (a + BitVec.ofNat 64 n))

/-
  No byte that is still to be copied lies where an earlier one
  is written.
-/
def Apart (a b : BitVec 64) (n : Nat) : Prop :=
  ∀ i j, i < j → j < n → b + BitVec.ofNat 64 i ≠ a + BitVec.ofNat 64 j

variable {mem : Memory} {a b : BitVec 64} {n : Nat}

/- Memory outside of the bytes that are written is kept. -/
theorem copied_outside {x : BitVec 64} (hOutside : ∀ i < n, x ≠ b + BitVec.ofNat 64 i) :
    copied mem a b n x = mem x := by
  induction n with
  | zero => rfl
  | succ n ih =>
    rw [copied, Function.update_of_ne (hOutside n (by omega)), ih fun i hi => hOutside i (by omega)]

/- Every byte arrives. -/
theorem copied_inside (hApart : Apart a b n) (hSmall : n ≤ 2 ^ 64) {i : Nat} (hi : i < n) :
    copied mem a b n (b + BitVec.ofNat 64 i) = mem (a + BitVec.ofNat 64 i) := by
  induction n with
  | zero => omega
  | succ n ih =>
    rw [copied]
    by_cases hLast : i = n
    · subst hLast
      rw [Function.update_self]
      exact copied_outside fun j hj => (hApart j i hj hi).symm
    · have hOther : b + BitVec.ofNat 64 i ≠ b + BitVec.ofNat 64 n := by
        intro hEq
        have hNat := congrArg BitVec.toNat (add_left_cancel hEq)
        simp only [BitVec.toNat_ofNat] at hNat
        omega
      rw [Function.update_of_ne hOther]
      exact ih (fun j k hjk hk => hApart j k hjk (by omega)) (by omega) (by omega)

/- A byte in memory. -/
theorem load_byte (mem : Memory) (a : BitVec 64) : mem.load a .byte = mem a := by
  change BitVec.ofNat 8 ((mem a).toNat + 256 * 0) = mem a
  simp

theorem store_byte (mem : Memory) (a : BitVec 64) (x : BitVec 8) :
    mem.store a .byte x = Function.update mem a x := by
  funext b
  by_cases hEq : b = a
  · subst hEq
    have hHere : (b - b).toNat < Width.bytes .byte := by simp [Width.bytes]
    unfold store
    rw [Function.update_self, if_pos hHere, BitVec.sub_self]
    exact (congrArg (BitVec.ofNat 8) (Nat.div_one x.toNat)).trans (BitVec.ofNat_toNat 8 x)
  · have hFar : ¬ (b - a).toNat < Width.bytes .byte := by
      simp only [Width.bytes]
      bv_omega
    simp only [store, hFar, if_false]
    rw [Function.update_of_ne hEq]

end Memory

namespace Codegen

open Machine

variable {m : Machine} {src dst through : Reg}

/- A run that changes one register at most. -/
def Spares (r : Reg) (m m' : Machine) : Prop :=
  ∀ s, s ≠ r → m'.regs s = m.regs s

/- A byte that goes through a register. -/
theorem exec_copyByte (m : Machine) (hDst : dst ≠ through) (i : Nat) :
    ∃ m', m.execAll? [.mov (.offset i src) (.reg through .byte),
          .mov (.reg through .byte) (.offset i dst)] = some m' ∧
      m'.mem = Function.update m.mem (m.regs dst + BitVec.ofNat 64 i)
        (m.mem (m.regs src + BitVec.ofNat 64 i)) ∧
      Spares through m m' := by
  have hIndex (r : Reg) : m.address r (some i) = m.regs r + BitVec.ofNat 64 i :=
    congrArg (m.regs r + ·) (BitVec.ofInt_natCast 64 i)
  generalize hx : m.mem (m.regs src + BitVec.ofNat 64 i) = x
  let m₁ := m.setPart through .byte x
  have hLoad : m.exec? (.mov (.offset i src) (.reg through .byte)) = some m₁ := by
    change some (m.setPart through .byte (m.mem.load (m.address src (some i)) .byte)) = _
    rw [Memory.load_byte, hIndex, hx]
  have hSpares : Spares through m m₁ := fun s hs => set_regs_of_ne m _ hs
  have hHeld : (m₁.regs through).setWidth 8 = x :=
    (congrArg (BitVec.setWidth 8) (set_regs_self m through _)).trans BitVec.setWidth_append_eq_right
  have hPlace : m₁.address dst (some i) = m.regs dst + BitVec.ofNat 64 i :=
    (congrArg (· + _) (hSpares dst hDst)).trans (hIndex dst)
  have hStored : m₁.mem.store (m₁.address dst (some i)) .byte
      ((m₁.regs through).setWidth 8) = Function.update m.mem
        (m.regs dst + BitVec.ofNat 64 i) x := by
    rw [hHeld, Memory.store_byte, hPlace]
    rfl
  let m₂ : Machine := ⟨m₁.regs, m₁.flags?,
    m₁.mem.store (m₁.address dst (some i)) .byte ((m₁.regs through).setWidth 8)⟩
  have hStore : m₁.exec? (.mov (.reg through .byte) (.offset i dst)) = some m₂ := rfl
  exact ⟨m₂, by simp only [execAll?, hLoad, hStore, Option.bind_some], hStored, hSpares⟩

/- Bytes that are copied through a register. -/
theorem exec_copyBytes (m : Machine) (n : Int) (hSrc : src ≠ through) (hDst : dst ≠ through) :
    ∃ m', m.execAll? (copyBytes n src dst through) = some m' ∧ m'.mem =
        m.mem.copied (m.regs src) (m.regs dst) n.toNat ∧
      Spares through m m' := by
  unfold copyBytes
  generalize n.toNat = k
  induction k with
  | zero => exact ⟨m, rfl, rfl, fun _ _ => rfl⟩
  | succ k ih =>
    obtain ⟨m₁, hFirst, hMem, hSpares⟩ := ih
    obtain ⟨m₂, hLast, hMem', hSpares'⟩ := exec_copyByte m₁ hDst k
    refine ⟨m₂, ?_, ?_, fun s hs => (hSpares' s hs).trans (hSpares s hs)⟩
    · rw [List.range_succ, List.flatMap_append, List.flatMap_singleton]
      exact execAll?_append hFirst hLast
    · rw [hMem', hMem, hSpares src hSrc, hSpares dst hDst]
      rfl

end Codegen

------------
-- The Return Statement
------------

namespace Codegen

open Machine

/-
  Bytes that were copied from the address in `rax` to a
  buffer.  That address stays in `rax`.
-/
structure HandedOver
    (n : Nat)
    (buffer : BitVec 64)
    (m m' : Machine) : Prop where
  inside : ∀ i < n,
    m'.mem (buffer + BitVec.ofNat 64 i) =
      m.mem (m.regs .rax + BitVec.ofNat 64 i)
  outside : ∀ a,
    (∀ i < n, a ≠ buffer + BitVec.ofNat 64 i) → m'.mem a = m.mem a
  address : m'.regs .rax = m.regs .rax
  frame : m'.regs .rbp = m.regs .rbp
  stack : m'.regs .rsp = m.regs .rsp

/- The word at a place of the frame. -/
def slotWord (m : Machine) (place : Int) : BitVec 64 :=
  m.mem.load (m.address .rbp (some place)) .quad

/- The copy to the address kept at a place of the frame. -/
theorem exec_returnInMemory (rs : Records) (t : CType) (place : Int) (m : Machine)
    (hSize : t.size rs < 2 ^ 63)
    (hApart : Memory.Apart (m.regs .rax) (slotWord m place) (t.size rs).toNat) :
    ∃ m', m.execAll? (returnInMemory rs t place) = some m' ∧
      HandedOver (t.size rs).toNat (slotWord m place) m m' := by
  let m₁ := m.set .rdi (slotWord m place)
  have hPointer : m.exec? (.mov (.slot place) .rdi) = some m₁ := rfl
  obtain ⟨m₂, hCopy, hMem, hSpares⟩ :=
    exec_copyBytes m₁ (t.size rs) (show Reg.rax ≠ .rdx by decide) (show Reg.rdi ≠ .rdx by decide)
  have hSame : ∀ r, r ≠ .rdi → r ≠ .rdx → m₂.regs r = m.regs r := fun r hDi hDx =>
    (hSpares r hDx).trans (set_regs_of_ne m _ hDi)
  have hMem : m₂.mem = m.mem.copied (m.regs .rax) (slotWord m place) (t.size rs).toNat := hMem
  refine ⟨m₂, ?_, ?_⟩
  · simp only [returnInMemory, execAll?, hPointer, Option.bind_some, hCopy]
  · exact
      { inside := fun i hi => by
          rw [hMem]
          exact Memory.copied_inside hApart (by omega) hi
        outside := fun a ha => by
          rw [hMem]
          exact Memory.copied_outside ha
        address := hSame .rax (by decide) (by decide)
        frame := hSame .rbp (by decide) (by decide)
        stack := hSame .rsp (by decide) (by decide) }

end Codegen

variable {t : Token}

------------
-- The Parts of the Code
------------

namespace Codegen

open Machine

variable {k : Counters}

variable {α β : Type}

variable {x : Emit α} {f : α → Emit β}

/- The steps of a computation that succeeded. -/
theorem Emit.exists_steps {r : Emitted β} (hRun : (x >>= f) k = .ok r) :
    ∃ a b, x k = .ok a ∧ f a.value a.counters = .ok b ∧
      r = ⟨b.value, a.code ++ b.code, b.counters⟩ := by
  change andThen x f k = .ok r at hRun
  unfold andThen at hRun
  cases hFirst : x k with
  | error e =>
    rw [hFirst] at hRun
    cases hRun
  | ok a =>
    rw [hFirst] at hRun
    cases hNext : f a.value a.counters with
    | error e =>
      simp only [hNext] at hRun
      cases hRun
    | ok b =>
      simp only [hNext] at hRun
      cases hRun
      exact ⟨a, b, rfl, hNext, rfl⟩

/- The code of such a computation. -/
theorem Emit.exists_parts {r : Emitted β} (hRun : (x >>= f) k = .ok r) :
    ∃ a b, x k = .ok a ∧ f a.value a.counters = .ok b ∧ r.code = a.code ++ b.code := by
  obtain ⟨a, b, hFirst, hNext, rfl⟩ := Emit.exists_steps hRun
  exact ⟨a, b, hFirst, hNext, rfl⟩

/- A computation that writes given lines, if it succeeds. -/
def Emit.Writes (x : Emit Unit) (code : List Line) : Prop :=
  ∀ k r, x k = .ok r → r.code = code

theorem writes_code (is : List Instr) : (Emit.code is).Writes (is.map .instr) := by
  intro k r hRun
  cases hRun
  rfl

theorem writes_deepen (n : Int) : (Emit.deepen n).Writes [] := by
  intro k r hRun
  cases hRun
  rfl

theorem Emit.Writes.bind {x : Emit Unit} {f : Unit → Emit Unit} {first rest : List Line}
    (hFirst : x.Writes first) (hRest : (f ()).Writes rest) : (x >>= f).Writes (first ++ rest) := by
  intro k r hRun
  obtain ⟨a, b, hOne, hTwo, hCode⟩ := Emit.exists_parts hRun
  rw [hCode, hFirst k a hOne, hRest a.counters b hTwo]

theorem writes_push : Emit.push.Writes [.instr (.push .rax)] :=
  (writes_code [.push .rax]).bind (writes_deepen 1)

theorem writes_pop (r : Reg) : (Emit.pop r).Writes [.instr (.pop r)] :=
  (writes_code [.pop r]).bind (writes_deepen (-1))

/- The line that a statement begins with. -/
def locLine (t : Token) : Line :=
  .directive (.loc t.file.number t.line)

/- The jump to the end of a function. -/
def leaveLine (c : Context) : Line :=
  .instr (.jump (.label (.epilogue c.function.name)))

variable {r : Emitted Unit}

/-
  A return statement: the code of its value, the copy, and the
  jump to the end.
-/
theorem exists_value {c : Context} {e : Expr} (hRecord : e.type.isRecord = true)
    (hLarge : 16 < e.type.size c.records) (hRun : stmt c (.ret t (some e)) k = .ok r) :
    ∃ v, expr c .value e k = .ok v ∧ r.code = locLine t :: v.code ++
        (returnInMemory c.records c.returnType c.firstParam).map .instr ++ [leaveLine c] := by
  have hReturn : returnValue c e.type = returnInMemory c.records c.returnType c.firstParam := by
    simp [returnValue, hRecord, Int.not_le.mpr hLarge]
  simp only [stmt, result, hReturn] at hRun
  obtain ⟨_, _, hLoc, hRest, hWhole⟩ := Emit.exists_parts hRun
  obtain ⟨_, _, hResult, hJump, hTail⟩ := Emit.exists_parts hRest
  obtain ⟨v, _, hValue, hCopy, hBody⟩ := Emit.exists_parts hResult
  rw [writes_code _ _ _ hCopy] at hBody
  rw [writes_code _ _ _ hJump, hBody] at hTail
  rw [hTail] at hWhole
  cases hLoc
  exact ⟨v, hValue, by simp [hWhole, locLine, leaveLine]⟩

/- The instructions that an eightbyte is popped with. -/
def popInstrs : PopTarget → List Instr
| .general n => [.pop (argReg n)]
| .vector n =>
  [.sse (.move .double) (.deref .rsp) (.xmm n), .alu .add (.imm 8) .rsp]

/- Popping writes instructions only. -/
theorem writes_popAll (targets : List PopTarget) :
    (popAll targets).Writes ((targets.flatMap popInstrs).map .instr) := by
  induction targets with
  | nil =>
    intro k r hRun
    cases hRun
    rfl
  | cons target targets ih =>
    have hPop : target.pop.Writes ((popInstrs target).map .instr) := by
      cases target with
      | general n => exact writes_pop (argReg n)
      | vector n => exact (writes_code _).bind (writes_deepen (-1))
    rw [List.flatMap_cons, List.map_append]
    exact hPop.bind ih

theorem RegisterUse.general_le_take (u : RegisterUse) (isVector : Bool) :
    u.general ≤ (u.take isVector).general := by cases isVector <;> simp [take]

variable {u : RegisterUse} {n : Nat}

theorem RegisterUse.general_le_of_next {isVector : Bool} (hNext : u.next isVector = .general n) :
    n = u.general := by cases isVector <;> simp_all [next]

/- An argument is popped into registers not taken before. -/
theorem RegisterUse.unload_later (u : RegisterUse) (c : ArgClass) :
    u.general ≤ (u.unload c).2.general ∧ ∀ n, .general n ∈ (u.unload c).1 → u.general ≤ n := by
  have hTake := u.general_le_take
  cases c with
  | record size first second =>
    have hMore := (u.take first).general_le_take second
    simp only [unload]
    split
    · simp
    · split
      · refine ⟨(hTake first).trans hMore, fun n hMem => ?_⟩
        simp only [List.mem_cons, List.not_mem_nil, or_false] at hMem
        rcases hMem with hFirst | hSecond
        · exact (general_le_of_next hFirst.symm).ge
        · rw [general_le_of_next hSecond.symm]
          exact hTake first
      · refine ⟨hTake first, fun n hMem => ?_⟩
        exact (general_le_of_next (List.mem_singleton.mp hMem).symm).ge
  | vector =>
    simp only [unload]
    split <;> simp [take, next]
  | extended => simp [unload]
  | general =>
    simp only [unload]
    split <;> simp [take, next]

variable {cs : List ArgClass}

/- The registers that are filled come after those taken. -/
theorem general_le_of_mem (hMem : PopTarget.general n ∈ (unloadAll u cs).1) : u.general ≤ n := by
  induction cs generalizing u with
  | nil => cases hMem
  | cons c cs ih =>
    obtain ⟨hLater, hFirst⟩ := u.unload_later c
    rcases List.mem_append.mp hMem with hMem | hMem
    · exact hFirst n hMem
    · exact hLater.trans (ih hMem)

/- The first general register is not filled again. -/
theorem pop_rdi_not_mem (hTaken : 1 ≤ u.general) :
    Instr.pop .rdi ∉ (unloadAll u cs).1.flatMap popInstrs := by
  intro hMem
  obtain ⟨target, hTarget, hPop⟩ := List.mem_flatMap.mp hMem
  cases target with
  | vector n => simp [popInstrs] at hPop
  | general n =>
    have hLater := hTaken.trans (general_le_of_mem hTarget)
    match n, hLater with
    | 1, _ | 2, _ | 3, _ | 4, _ | 5, _ =>
      revert hPop
      decide
    | n + 6, _ => simp [popInstrs, argReg, argRegs] at hPop

/-
  The code of a call whose result is written to a buffer: the
  address of the buffer is pushed, and popped into the first
  register for arguments, which keeps it up to the call.
  Behind the call only the stack is put right.
-/
def PassesBuffer
    (place : Int)
    (callee : Emit Unit)
    (code : List Line) : Prop :=
  ∃ (before : List Line) (k : Counters) (f : Emitted Unit)
    (pops : List Instr) (vectors : Nat) (stack : Int),
    callee k = .ok f ∧ Instr.pop .rdi ∉ pops ∧ code =
      before ++ .instr (.lea (.slot place) .rax) ::
        .instr (.push .rax) :: f.code ++
        .instr (.pop .rdi) :: pops.map .instr ++ [.instr (.mov .rax .r10),
          .instr (.mov (.imm vectors) .rax), .instr (.callTo .r10),
          .instr (.alu .add (.imm (stack * 8)) .rsp)]

/- What a call for a large record is made of. -/
theorem passesBuffer {rs : Records} {t : CType} {callee : Emit Unit} {args : List Argument}
    {b : ResultBuffer} (hRecord : t.isRecord = true) (hLarge : 16 < t.size rs)
    (hRun : call rs t callee args (some b) k = .ok r) : PassesBuffer b.offset callee r.code := by
  have hNothing : receiveResult rs t (some b) = [] := by
    unfold CType.isRecord at hRecord
    unfold receiveResult
    cases hPlain : t.plain <;> rw [hPlain] at hRecord <;> first
      | cases hRecord; done
      | exact if_neg (Int.not_le.mpr hLarge)
  have hPointer : t.size rs > 16 := hLarge
  simp only [call, hPointer, if_true, hNothing] at hRun
  obtain ⟨passed, _, -, hRun, hCode₁⟩ := Emit.exists_parts hRun
  obtain ⟨_, _, hLea, hRun, hCode₂⟩ := Emit.exists_parts hRun
  obtain ⟨_, _, hPush, hRun, hCode₃⟩ := Emit.exists_parts hRun
  obtain ⟨f, _, hCallee, hRun, hCode₄⟩ := Emit.exists_parts hRun
  have hLast := ((writes_pop (argReg 0)).bind ((writes_popAll _).bind ((writes_code _).bind
      ((writes_deepen _).bind (writes_code _)))))
        _ _ hRun
  rw [hLast] at hCode₄
  rw [writes_push _ _ hPush, hCode₄] at hCode₃
  rw [writes_code _ _ _ hLea, hCode₃] at hCode₂
  let taken := unloadAll (startUse true) (args.map fun a => ArgClass.of rs a.type)
  refine ⟨passed.code, _, f, taken.1.flatMap popInstrs,
    taken.2.vector, passed.value, hCallee, pop_rdi_not_mem le_rfl, ?_⟩
  rw [hCode₁, hCode₂]
  simp only [List.map_cons, List.map_nil, List.append_assoc,
    List.cons_append, List.nil_append, List.append_nil]
  rfl

end Codegen

------------
-- From the Function to Its Caller
------------

namespace Codegen

open Machine

variable {k : Counters}

variable {c : Context} {r : Emitted Unit}

/-
  The pointer to the buffer is stored at the place of the first
  parameter, from where the copy reads it.
-/
theorem spill_pointer {id : ObjId} {ids : List ObjId} (hParams : c.function.params = id :: ids)
    (hPointer : (c.object id).type.isPointer = true) (hBelow : c.frame.offset id ≤ 0)
    (hRun : spill c {} c.function.params k = .ok r) :
    ∃ rest, r.code = .instr (.mov .rdi (.slot c.firstParam)) :: rest := by
  have hFirst : c.firstParam = c.frame.offset id := by simp [Context.firstParam, hParams]
  rw [hParams, spill, if_neg (Int.not_lt.mpr hBelow)] at hRun
  obtain ⟨a, b, hParam, -, hCode⟩ := Emit.exists_parts hRun
  have hGeneral : spillParam c.records {} (c.object id).type (c.frame.offset id) =
      spillNext {} false (c.frame.offset id) 8 := by
    unfold CType.isPointer at hPointer
    unfold spillParam ArgClass.of CType.size
    split at hPointer <;> rename_i hPlain
    · simp only [hPlain]
    · cases hPointer
  rw [hGeneral] at hParam
  cases hParam
  rw [hFirst]
  exact ⟨b.code, hCode⟩

/- The machine behind a return. -/
def returned (m : Machine) : Machine :=
  m.set .rsp (m.regs .rsp + 8)

/-
  From the end of a function to the end of the call: the frame
  is given up, and the caller drops the arguments that it left
  on the stack.
-/
def backInCaller? (stack : Int) (m : Machine) :
    Option Machine := do
  let left ← m.execAll? [.mov .rbp .rsp, .pop .rbp]
  (returned left).execAll? [.alu .add (.imm (stack * 8)) .rsp]

/- On this way only the stack and the frame are put right. -/
theorem exists_backInCaller (stack : Int) (m : Machine) :
    ∃ m', backInCaller? stack m = some m' ∧ m'.mem = m.mem ∧ m'.regs .rax = m.regs .rax := by
  let m₁ := m.set .rsp (m.regs .rbp)
  let m₂ := (m₁.set .rsp (m₁.regs .rsp + 8)).set .rbp (m₁.mem.load (m₁.regs .rsp) .quad)
  let m₃ := returned m₂
  let m₄ := m₃.unflagged.set .rsp (m₃.regs .rsp + BitVec.ofInt 64 (stack * 8))
  have hUnwind : m.exec? (.mov .rbp .rsp) = some m₁ := exec_movQuad m .rbp .rsp
  have hFrame : m₁.exec? (.pop .rbp) = some m₂ := rfl
  have hDrop : m₃.exec? (.alu .add (.imm (stack * 8)) .rsp) = some m₄ := by
    change (m₃.read? .quad (.reg .rsp .quad)).bind (fun a : BitVec 64 => some (m₃.unflagged.set .rsp
        (a + BitVec.ofInt 64 (stack * 8)))) = _
    rw [read?_quad]
    rfl
  refine ⟨m₄, ?_, rfl, ?_⟩
  · change (m.execAll? [.mov .rbp .rsp, .pop .rbp]).bind (fun left => (returned left).execAll?
        [.alu .add (.imm (stack * 8)) .rsp]) = _
    simp only [execAll?, hUnwind, hFrame, hDrop, Option.bind_some, m₃]
  · have hNe : Reg.rax ≠ .rsp := by decide
    calc m₄.regs .rax
        = m₂.regs .rax :=
          (set_regs_of_ne m₃.unflagged _ hNe).trans (set_regs_of_ne m₂ (m₂.regs .rsp + 8) hNe)
      _ = m₁.regs .rax :=
          (set_regs_of_ne (m₁.set .rsp (m₁.regs .rsp + 8)) (m₁.mem.load (m₁.regs .rsp) .quad)
            (by decide)).trans
            (set_regs_of_ne m₁ (m₁.regs .rsp + 8) hNe)
      _ = m.regs .rax := set_regs_of_ne m (m.regs .rbp) hNe

variable {i : Info} {v : ObjId}

/- A call expression that passes a buffer. -/
theorem call_passesBuffer {want : Want} {fn : Expr} {type : CType} {args : List Expr}
    (hCalled : isAlloca c fn = false) (hRecord : (i.type?.getD .void).isRecord = true)
    (hLarge : 16 < (i.type?.getD .void).size c.records)
    (hRun : expr c want (.call i fn type args (some v)) k = .ok r) :
    ∃ code, r.code = locLine i.tok :: code ∧ PassesBuffer (c.frame.offset v) (expr c .value fn)
        code := by
  have hLocated : ∀ x : Emit Unit, valueOrAddress want i.tok true x = (do
          Emit.loc i.tok
          x) := by
    intro x
    cases want <;> rfl
  simp only [expr, hCalled, Option.isSome_some, hLocated,
    Bool.false_eq_true, if_false, Option.map_some] at hRun
  obtain ⟨_, b, hLoc, hCall, hCode⟩ := Emit.exists_parts hRun
  cases hLoc
  exact ⟨b.code, hCode, passesBuffer hRecord hLarge hCall⟩

/-
  A return statement whose value is a record of more than 16
  bytes copies all of it to the buffer whose address the
  function was called with, unless the value lies across the
  buffer.  The address that stays in `rax`, up to the end of
  the call, is that of the value and not of the buffer.  A
  function stores the address of the buffer at the place of
  its first parameter; a call passes it in the first register
  for arguments, and behind it puts nothing but the stack
  right.
-/
theorem large_record_handed_over {c : Context} {t : Token} {e : Expr} {r : Emitted Unit}
    (hRecord : e.type.isRecord = true) (hLarge : 16 < e.type.size c.records)
    (hSize : c.returnType.size c.records < 2 ^ 63) (hRun : stmt c (.ret t (some e)) k = .ok r) :
    (∃ v, expr c .value e k = .ok v ∧ r.code = locLine t :: v.code ++
        (returnInMemory c.records c.returnType
          c.firstParam).map .instr ++ [leaveLine c]) ∧ (∀ m : Machine,
      Memory.Apart (m.regs .rax) (slotWord m c.firstParam) (c.returnType.size c.records).toNat →
      ∃ m', m.execAll? (returnInMemory c.records c.returnType c.firstParam) = some m' ∧
        HandedOver (c.returnType.size c.records).toNat (slotWord m c.firstParam) m m' ∧
        ∀ stack, ∃ m'', backInCaller? stack m' = some m'' ∧
          m''.mem = m'.mem ∧ m''.regs .rax = m.regs .rax) ∧ (∀ {id ids k s},
      c.function.params = id :: ids → (c.object id).type.isPointer = true →
      c.frame.offset id ≤ 0 → spill c {} c.function.params k = .ok s →
      ∃ rest, s.code = .instr (.mov .rdi (.slot c.firstParam)) :: rest) ∧
    (∀ {d want i fn type args v k s}, isAlloca d fn = false → (i.type?.getD .void).isRecord = true →
      16 < (i.type?.getD .void).size d.records →
      expr d want (.call i fn type args (some v)) k = .ok s →
      ∃ code, s.code = locLine i.tok :: code ∧ PassesBuffer (d.frame.offset v) (expr d .value fn)
          code) := by
  refine ⟨exists_value hRecord hLarge hRun, ?_, spill_pointer, call_passesBuffer⟩
  intro m hApart
  obtain ⟨m', hExec, hHanded⟩ :=
    exec_returnInMemory c.records c.returnType c.firstParam m hSize hApart
  refine ⟨m', hExec, hHanded, fun stack => ?_⟩
  obtain ⟨m'', hBack, hMem, hRax⟩ := exists_backInCaller stack m'
  exact ⟨m'', hBack, hMem, hRax.trans hHanded.address⟩

/- The instructions of a statement that returns a variable. -/
def returnVariable (c : Context) (v : ObjId) : List Instr :=
  .lea (c.slot v) .rax :: returnInMemory c.records c.returnType c.firstParam

theorem stmt_returnVariable (hRecord : (i.type?.getD .void).isRecord = true)
    (hLarge : 16 < (i.type?.getD .void).size c.records) (hLocal : (c.object v).isLocal = true)
    (hFixed : (c.object v).type.isVla = false) :
    stmt c (.ret t (some (.var i v))) k = .ok ⟨(), locLine t :: locLine i.tok ::
        (returnVariable c v).map .instr ++ [leaveLine c],
        k⟩ := by
  have hReturn : returnValue c (Expr.var i v).type =
      returnInMemory c.records c.returnType c.firstParam := by
    have hType : (Expr.var i v).type = i.type?.getD .void := rfl
    simp [returnValue, hType, hRecord, Int.not_le.mpr hLarge]
  have hHeld : load c.records (i.type?.getD .void) = [] := by simp [load, heldByAddress, hRecord]
  have hAddress : variableAddress c v (i.type?.getD .void) = [.instr (.lea (c.slot v) .rax)] := by
    simp [variableAddress, hLocal, hFixed]
  simp only [stmt, result, expr, loaded, hReturn, hHeld, hAddress]
  rfl

/-
  A variable that is returned: its address stays in `rax`, in
  the frame that is given up.
-/
theorem exec_returnVariable {m : Machine} (hSize : c.returnType.size c.records < 2 ^ 63)
    (hApart : Memory.Apart (m.address .rbp (some (c.frame.offset v)))
      (slotWord m c.firstParam) (c.returnType.size c.records).toNat) :
    ∃ m', m.execAll? (returnVariable c v) = some m' ∧ m'.regs .rax =
        m.address .rbp (some (c.frame.offset v)) := by
  let m₁ := m.set .rax (m.address .rbp (some (c.frame.offset v)))
  have hLea : m.exec? (.lea (c.slot v) .rax) = some m₁ := rfl
  have hAddress : m₁.regs .rax = m.address .rbp (some (c.frame.offset v)) := set_regs_self m .rax _
  obtain ⟨m', hExec, hHanded⟩ :=
    exec_returnInMemory c.records c.returnType c.firstParam m₁
      hSize (by rw [hAddress]; exact hApart)
  refine ⟨m', ?_, hHanded.address.trans hAddress⟩
  simp only [returnVariable, execAll?, hLea, Option.bind_some, hExec]

/- A function that returns a variable of 24 bytes. -/
def returnsVariable : Context :=
  let p : Program :=
    { globals := []
      objects :=
        #[{ name := [], type := .ptr (.record 0), align := 8,
            isLocal := true },
          { name := [], type := .record 0, align := 8,
            isLocal := true }]
      records :=
        #[{ isUnion := false, size := 24, align := 8,
            root := 0,
            members :=
              [⟨.array 0 .long 3 24 8, none, 0, 8, 0, none⟩] }]
      jumps := #[] }
  let fn : Obj :=
    { name := [], type := .func (.record 0) [] [] false,
      align := 1, params := [0], locals := [1, 0] }
  ⟨p, false, fn, Frame.of p fn⟩

/- The variable as a value. -/
def variableValue : Expr :=
  .var { tok := default, type? := some (.record 0) } 1

/-
  A machine before the copy: the frame ends at 4096, the
  variable is 24 bytes below that, and the buffer is at 8192.
-/
def beforeCopy : Machine where
  regs := fun
    | .rax => 4072
    | .rbp => 4096
    | .rsp => 4048
    | _ => 0
  flags? := none
  mem := fun a =>
    if 4072 ≤ a then a.setWidth 8
    else if a = 4065 then 32
    else 0

theorem slotWord_beforeCopy : slotWord beforeCopy returnsVariable.firstParam = 8192 := by
  decide +kernel

/- The variable and the buffer are far from each other. -/
theorem apart_beforeCopy :
    Memory.Apart (beforeCopy.regs .rax) (slotWord beforeCopy returnsVariable.firstParam) 24 := by
  rw [slotWord_beforeCopy]
  intro i j hij hj hEq
  have hNat := congrArg BitVec.toNat hEq
  have hBuffer : (8192 : BitVec 64).toNat = 8192 := rfl
  have hVariable : (4072 : BitVec 64).toNat = 4072 := rfl
  simp only [beforeCopy, BitVec.toNat_add, hBuffer, hVariable, BitVec.toNat_ofNat] at hNat
  omega

/- All 24 bytes arrive. -/
theorem large_record_handed_over_variable :
    ∃ m', beforeCopy.execAll? (returnInMemory returnsVariable.records returnsVariable.returnType
          returnsVariable.firstParam) = some m' ∧
      ∀ i < 24, m'.mem (8192 + BitVec.ofNat 64 i) = beforeCopy.mem (4072 + BitVec.ofNat 64 i) := by
  obtain ⟨r, hRun⟩ : ∃ r, stmt returnsVariable (.ret default (some variableValue)) {} = .ok r :=
    ⟨_, rfl⟩
  have hAll := large_record_handed_over rfl (by decide) (by decide) hRun
  obtain ⟨m', hExec, hHanded, -⟩ := hAll.2.1 beforeCopy apart_beforeCopy
  refine ⟨m', hExec, fun i hi => ?_⟩
  have hInside := hHanded.inside i hi
  rwa [slotWord_beforeCopy] at hInside

/-
  The address that is left is that of the variable and not
  that of the buffer.
-/
theorem returned_variable_dangles :
    stmt returnsVariable (.ret default (some variableValue))
        {} = .ok ⟨(), locLine default :: locLine default ::
        (returnVariable returnsVariable 1).map .instr ++
          [leaveLine returnsVariable], {}⟩ ∧ ∃ m', beforeCopy.execAll?
        (returnVariable returnsVariable 1) = some m' ∧ m'.regs .rax = 4072 ∧
      slotWord beforeCopy returnsVariable.firstParam =
        8192 := by
  refine ⟨stmt_returnVariable rfl (by decide) rfl rfl, ?_⟩
  have hPlace : beforeCopy.address .rbp (some (returnsVariable.frame.offset 1)) =
        beforeCopy.regs .rax := by
    decide +kernel
  obtain ⟨m', hExec, hAddress⟩ :=
    exec_returnVariable (m := beforeCopy) (c := returnsVariable) (v := 1) (by decide)
      (by rw [hPlace]; exact apart_beforeCopy)
  exact ⟨m', hExec, hAddress.trans hPlace, slotWord_beforeCopy⟩

end Codegen

end CCompiler
