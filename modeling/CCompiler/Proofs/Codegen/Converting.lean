import Mathlib
import CCompiler.Codegen.Conversion
import CCompiler.Proofs.Codegen.Running
import CCompiler.Proofs.Codegen.Term

/-
  Numbers in registers, and what the instructions of tests,
  conversions and loads do with them.

  A value narrower than 64 bits is held in the low half of a
  register, extended to 32 bits; a truth value fills a whole
  register, as values of 64 bits do.

  Main declarations:
    * `IntType.Represents`
    * `Codegen.exec_compareZero`, `Codegen.exec_truth`
    * `Codegen.convert_converts`
    * `Codegen.exec_load`
-/

------------
-- Words of Numbers
------------

namespace CCompiler

namespace Word

variable {n k : Nat} {a b v : Int}

/- Congruent numbers have the same word. -/
theorem ofInt_congr (hCongr : a ≡ b [ZMOD 2 ^ n]) : BitVec.ofInt n a = BitVec.ofInt n b := by
  apply BitVec.eq_of_toNat_eq
  rw [BitVec.toNat_ofInt, BitVec.toNat_ofInt]
  have hRest : a % (2 ^ n : Nat) = b % (2 ^ n : Nat) := by exact_mod_cast hCongr
  rw [hRest]

/- Close numbers with the same word are equal. -/
theorem eq_of_ofInt_eq (hEq : BitVec.ofInt n a = BitVec.ofInt n b) (hLow : -2 ^ n < a - b)
    (hHigh : a - b < 2 ^ n) : a = b := by
  have hNat := congrArg BitVec.toNat hEq
  rw [BitVec.toNat_ofInt, BitVec.toNat_ofInt] at hNat
  have hPos : (0 : Int) < (2 ^ n : Nat) := by positivity
  have hRest : a % (2 ^ n : Nat) = b % (2 ^ n : Nat) := by
    have hA := Int.emod_nonneg a hPos.ne'
    have hB := Int.emod_nonneg b hPos.ne'
    omega
  obtain ⟨q, hq⟩ := Int.ModEq.dvd (n := ((2 ^ n : Nat) : Int)) (a := b) (b := a) hRest.symm
  push_cast at hq
  have hZero : q = 0 := by nlinarith
  rw [hZero] at hq
  omega

/- The low part of a word. -/
theorem setWidth_ofInt (hLe : k ≤ n) (v : Int) :
    (BitVec.ofInt n v).setWidth k = BitVec.ofInt k v := by
  apply BitVec.eq_of_toNat_eq
  rw [BitVec.toNat_setWidth, BitVec.toNat_ofInt, BitVec.toNat_ofInt]
  have hDvd : ((2 ^ k : Nat) : Int) ∣ ((2 ^ n : Nat) : Int) := by
    exact_mod_cast Nat.pow_dvd_pow 2 hLe
  have hPosN := Int.emod_nonneg v (b := ((2 ^ n : Nat) : Int)) (by positivity)
  have hPosK := Int.emod_nonneg v (b := ((2 ^ k : Nat) : Int)) (by positivity)
  have hRest := Int.emod_emod_of_dvd v hDvd
  zify
  push_cast at hPosN hPosK hRest
  rw [Int.toNat_of_nonneg hPosN, Int.toNat_of_nonneg hPosK]
  exact hRest

/- A word of a number that is not negative with zeros before it. -/
theorem setWidth_ofInt_of_nonneg (hLe : n ≤ k) (hLow : 0 ≤ v) (hHigh : v < 2 ^ n) :
    (BitVec.ofInt n v).setWidth k = BitVec.ofInt k v := by
  apply BitVec.eq_of_toNat_eq
  rw [BitVec.toNat_setWidth, BitVec.toNat_ofInt, BitVec.toNat_ofInt]
  have hPow : (2 : Int) ^ n ≤ 2 ^ k := pow_le_pow_right₀ (by norm_num) hLe
  rw [Int.emod_eq_of_lt hLow (by push_cast; exact hHigh),
    Int.emod_eq_of_lt hLow (by push_cast; omega)]
  refine Nat.mod_eq_of_lt ?_
  zify
  rw [Int.toNat_of_nonneg hLow]
  omega

/- A word of a number that has a sign with the sign before it. -/
theorem signExtend_ofInt (hPos : 0 < n) (hLe : n ≤ k) (hLow : -2 ^ (n - 1) ≤ v)
    (hHigh : v < 2 ^ (n - 1)) : (BitVec.ofInt n v).signExtend k = BitVec.ofInt k v := by
  apply BitVec.eq_of_toInt_eq
  rw [BitVec.toInt_signExtend_of_le hLe, BitVec.toInt_ofInt_eq_self hPos hLow hHigh,
    BitVec.toInt_ofInt_eq_self (by omega)]
  · have hPow : (2 : Int) ^ (n - 1) ≤ 2 ^ (k - 1) := pow_le_pow_right₀ (by norm_num) (by omega)
    omega
  · have hPow : (2 : Int) ^ (n - 1) ≤ 2 ^ (k - 1) := pow_le_pow_right₀ (by norm_num) (by omega)
    omega

end Word

------------
-- Values in Registers
------------

open Assembly

namespace IntType

/- The part of a register that holds a value of a type. -/
def held : IntType → Width
| .bool | .of .long _ => .quad
| .of _ _ => .long

/- A register holds a value of a type. -/
def Represents (τ : IntType) (v : Int) (x : BitVec 64) : Prop :=
  x.setWidth τ.held.bits = BitVec.ofInt τ.held.bits v

variable {τ : IntType} {v a b : Int} {x : BitVec 64}

/- A whole register that holds a number. -/
theorem represents_ofInt (τ : IntType) (v : Int) : τ.Represents v (BitVec.ofInt 64 v) := by
  have hBits : τ.held.bits ≤ 64 := by cases τ.held <;> decide
  exact Word.setWidth_ofInt hBits v

/- The low half holds the value, whatever the type. -/
theorem Represents.low (hRep : τ.Represents v x) : x.setWidth 32 = BitVec.ofInt 32 v := by
  have hQuad : x.setWidth 64 = BitVec.ofInt 64 v → x.setWidth 32 = BitVec.ofInt 32 v := by
    intro hAll
    rw [BitVec.setWidth_eq] at hAll
    rw [hAll, Word.setWidth_ofInt (by decide)]
  obtain _ | ⟨k, u⟩ := τ
  · exact hQuad hRep
  · cases k
    · exact hRep
    · exact hRep
    · exact hRep
    · exact hQuad hRep

/- Values of a type lie close to one another. -/
theorem Has.near (hFirst : τ.Has a) (hNext : τ.Has b) :
    -2 ^ τ.bits < a - b ∧ a - b < 2 ^ τ.bits := by
  obtain _ | ⟨k, u⟩ := τ
  · simp only [Has, least, greatest, isUnsigned, bits, if_true] at *
    omega
  · cases k <;> cases u <;> simp only [Has, least, greatest, isUnsigned, bits,
        if_true, Bool.false_eq_true, if_false] at * <;>
      omega

variable {n : Nat}

/- Values with one word of at least their bits are equal. -/
theorem Has.ofInt_inj (hFirst : τ.Has a) (hNext : τ.Has b) (hBits : τ.bits ≤ n) :
    BitVec.ofInt n a = BitVec.ofInt n b ↔ a = b := by
  refine ⟨fun hEq => ?_, fun hEq => by rw [hEq]⟩
  have hPow : (2 : Int) ^ τ.bits ≤ 2 ^ n := pow_le_pow_right₀ (by norm_num) hBits
  have hNear := hFirst.near hNext
  exact Word.eq_of_ofInt_eq hEq (by omega) (by omega)

/- The word of a value that was converted. -/
theorem ofInt_convert (k : IntKind) (u : Bool) (hBits : n ≤ (IntType.of k u).bits) (v : Int) :
    BitVec.ofInt n ((IntType.of k u).convert v) = BitVec.ofInt n v := by
  refine Word.ofInt_congr ?_
  exact (convert_modEq k u v).of_dvd (pow_dvd_pow 2 hBits)

/- The word of a signed type with its sign before it. -/
theorem signExtend_convert (k : IntKind) (hBits : (IntType.of k false).bits ≤ n) (v : Int) :
    (BitVec.ofInt (IntType.of k false).bits v).signExtend n =
      BitVec.ofInt n ((IntType.of k false).convert v) := by
  have hHas := has_convert (.of k false) v
  rw [← ofInt_convert k false le_rfl v, Word.signExtend_ofInt (by cases k <;> decide) hBits hHas.1]
  have hHigh := hHas.2
  simp only [greatest, isUnsigned, Bool.false_eq_true, if_false] at hHigh
  omega

/- The word of an unsigned type with zeros before it. -/
theorem setWidth_convert (k : IntKind) (hBits : (IntType.of k true).bits ≤ n) (v : Int) :
    (BitVec.ofInt (IntType.of k true).bits v).setWidth n =
      BitVec.ofInt n ((IntType.of k true).convert v) := by
  have hHas := has_convert (.of k true) v
  rw [← ofInt_convert k true le_rfl v, Word.setWidth_ofInt_of_nonneg hBits hHas.1]
  have hHigh := hHas.2
  simp only [greatest, isUnsigned, if_true] at hHigh
  omega

end IntType

------------
-- Registers
------------

namespace Machine

variable {m : Machine} {r : Reg}

@[simp]
theorem set_regs_self (m : Machine) (r : Reg) (x : BitVec 64) :
    (m.set r x).regs r = x := by simp [set]

theorem set_regs_of_ne {s : Reg} (m : Machine) (x : BitVec 64) (hNe : s ≠ r) :
    (m.set r x).regs s = m.regs s := by simp [set, hNe]

@[simp]
theorem set_mem (m : Machine) (r : Reg) (x : BitVec 64) :
    (m.set r x).mem = m.mem := rfl

/- Another value of a register that is free. -/
theorem kept_set (m : Machine) (x : BitVec 64) (hStack : r ≠ .rsp) (hFrame : r ≠ .rbp) :
    Kept m (m.set r x) :=
  ⟨set_regs_of_ne m x hStack.symm, set_regs_of_ne m x hFrame.symm, fun _ _ => rfl⟩

/- Other flags. -/
theorem kept_flags (m : Machine) (f? : Option Flags) : Kept m { m with flags? := f? } :=
  ⟨rfl, rfl, fun _ _ => rfl⟩

/- A register after one of its parts has changed. -/
theorem setPart_eq (m : Machine) (r : Reg) (w : Width) (x : BitVec w.bits) :
    ∃ y, m.setPart r w x = m.set r y ∧ y.setWidth w.bits = x := by
  cases w
  · refine ⟨_, rfl, ?_⟩
    exact BitVec.setWidth_append_eq_right
  · refine ⟨_, rfl, ?_⟩
    exact BitVec.setWidth_append_eq_right
  · refine ⟨_, rfl, ?_⟩
    exact BitVec.setWidth_setWidth_of_le _ (by decide)
  · exact ⟨x, rfl, BitVec.setWidth_eq x⟩

end Machine

------------
-- Tests
------------

namespace Codegen

open Machine

variable {m : Machine} {τ : IntType} {v : Int}

/- The part of a register that is compared with zero. -/
def tested : IntType → Width
| .of .long _ => .quad
| _ => .long

theorem compareZero_eq (rs : Records) (τ : IntType) :
    compareZero rs τ.toCType = [.alu .cmp (.imm 0) (.reg .rax (tested τ))] := by
  obtain _ | ⟨k, u⟩ := τ
  · rfl
  · cases k <;> rfl

theorem setWidth_tested (hRep : τ.Represents v (m.regs .rax)) :
    (m.regs .rax).setWidth (tested τ).bits = BitVec.ofInt (tested τ).bits v := by
  have hLow := hRep.low
  obtain _ | ⟨k, u⟩ := τ
  · exact hLow
  · cases k <;> first | exact hLow | exact hRep

theorem bits_le_tested (τ : IntType) : τ.bits ≤ (tested τ).bits := by
  obtain _ | ⟨k, u⟩ := τ
  · decide
  · cases k <;> cases u <;> decide

/- A comparison of a value with zero. -/
theorem exec_compareZero (rs : Records) (hHas : τ.Has v) (hRep : τ.Represents v (m.regs .rax)) :
    ∃ f : Flags, m.execAll? (compareZero rs τ.toCType) = some { m with flags? := some f } ∧
      f.zero = decide (v = 0) := by
  refine ⟨.ofSub ((m.regs .rax).setWidth (tested τ).bits) (BitVec.ofInt (tested τ).bits 0), ?_, ?_⟩
  · rw [compareZero_eq]
    cases tested τ <;> rfl
  · have hEqual := hHas.ofInt_inj (IntType.has_zero τ) (bits_le_tested τ)
    simp only [Flags.ofSub, setWidth_tested hRep]
    rw [Bool.eq_iff_iff, beq_iff_eq, decide_eq_true_iff]
    exact hEqual

variable {c : Cond} {f : Flags} {p : Prop}

/- A condition on the flags as the low byte of a register. -/
theorem exec_set [Decidable p] (hFlags : m.flags? = some f)
    (hHolds : c.holds? f = some (decide p)) :
    ∃ y, m.exec? (.set c .al) = some (m.set .rax y) ∧
      y.setWidth 8 = BitVec.ofInt 8 (truthValue p) := by
  obtain ⟨y, hSet, hLow⟩ := setPart_eq m .rax .byte (if decide p then 1 else 0)
  refine ⟨y, ?_, ?_⟩
  · simp only [exec?, hFlags, Option.bind_eq_bind, Option.bind_some, hHolds, write?, if_true, hSet]
  · refine hLow.trans ?_
    unfold truthValue
    by_cases hp : p <;> simp only [hp, decide_true, decide_false, if_true, if_false] <;> rfl

variable {x : Extension} {w : Width}

/- A widening move to a register. -/
theorem exec_extend {src : Operand} {a : BitVec (sourceWidth x).bits} (r : Reg)
    (hRead : m.read? (sourceWidth x) src = some a) (hWidth : (resultWidth? x).getD w = w) :
    m.exec? (.extend x src (.reg r w)) = some (m.setPart r w (widened w.bits a x)) := by
  simp only [exec?, extend?, hRead, Option.bind_eq_bind,
    Option.bind_some, Operand.width?, hWidth, if_true, write?]

/- The moves that bring a low byte to a whole register. -/
def Spreads (x : Extension) (w : Width) : Prop :=
  x = .zeroByteAny ∧ (w = .long ∨ w = .quad) ∨
    x = .zeroByteQuad ∧ w = .quad

/- A condition on the flags as a number. -/
theorem exec_truth [Decidable p] (hSpreads : Spreads x w) (hFlags : m.flags? = some f)
    (hHolds : c.holds? f = some (decide p)) :
    ∃ m', m.execAll? [.set c .al, .extend x .al (.reg .rax w)] = some m' ∧ Kept m m' ∧
      m'.regs .rax = BitVec.ofInt 64 (truthValue p) := by
  obtain ⟨y, hSet, hLow⟩ := exec_set hFlags hHolds
  have hRange : 0 ≤ truthValue p ∧ truthValue p < 2 ^ 8 := by
    unfold truthValue
    split <;> decide
  have hWide : ∀ n, 8 ≤ n → (y.setWidth 8).setWidth n =
        BitVec.ofInt n (truthValue p) := fun n hn => by
    rw [hLow, Word.setWidth_ofInt_of_nonneg hn hRange.1 hRange.2]
  have hRead : (m.set .rax y).read? .byte .al = some (y.setWidth 8) := by
    simp only [read?, if_true, set_regs_self]
    rfl
  refine ⟨(m.set .rax y).set .rax (BitVec.ofInt 64 (truthValue p)), ?_,
    (kept_set m y (by decide) (by decide)).trans (kept_set _ _ (by decide) (by decide)),
    set_regs_self _ _ _⟩
  simp only [execAll?, hSet, Option.bind_some]
  rcases hSpreads with ⟨rfl, rfl | rfl⟩ | ⟨rfl, rfl⟩
  · rw [exec_extend .rax hRead rfl]
    change some ((m.set .rax y).set .rax (((y.setWidth 8).setWidth 32).setWidth 64)) = _
    rw [hWide 32 (by decide), Word.setWidth_ofInt_of_nonneg (by decide) hRange.1 (by omega)]
  · rw [exec_extend .rax hRead rfl]
    change some ((m.set .rax y).set .rax ((y.setWidth 8).setWidth 64)) = _
    rw [hWide 64 (by decide)]
  · rw [exec_extend .rax hRead rfl]
    change some ((m.set .rax y).set .rax ((y.setWidth 8).setWidth 64)) = _
    rw [hWide 64 (by decide)]

end Codegen

variable {y : BitVec 32}

------------
-- Conversions
------------

namespace Codegen

open Machine

variable {m : Machine} {σ τ : IntType} {v : Int}

/- Some instructions take a value to its conversion. -/
def Converts
    (is : List Instr)
    (σ τ : IntType) : Prop :=
  ∀ (m : Machine) (v : Int), σ.Has v →
    σ.Represents v (m.regs .rax) →
    ∃ m', m.execAll? is = some m' ∧ Kept m m' ∧
      τ.Represents (τ.convert v) (m'.regs .rax)

/- A conversion to a truth value. -/
theorem converts_bool (rs : Records) (σ : IntType) :
    Converts (compareZero rs σ.toCType ++ [.set .notEqual .al, .extend .zeroByteAny .al .eax])
      σ .bool := by
  intro m v hHas hRep
  obtain ⟨f, hCompare, hZero⟩ := exec_compareZero rs hHas hRep
  have hHolds : Cond.holds? f .notEqual = some (decide (v ≠ 0)) := by simp [Cond.holds?, hZero]
  obtain ⟨m', hExec, hKept, hRax⟩ :=
    exec_truth (m := { m with flags? := some f }) (.inl ⟨rfl, .inl rfl⟩) rfl hHolds
  refine ⟨m', ?_, (kept_flags m _).trans hKept, ?_⟩
  · rw [compareZero_eq] at hCompare ⊢
    simp only [execAll?, Option.bind_eq_some_iff, Option.some.injEq, exists_eq_right] at hCompare
    simp only [List.singleton_append, execAll?, hCompare, Option.bind_some]
    exact hExec
  · rw [hRax]
    have hValue : IntType.bool.convert v = truthValue (v ≠ 0) := by
      by_cases hv : v = 0 <;> simp [IntType.convert, truthValue, hv]
    rw [hValue]
    exact IntType.represents_ofInt _ _

/- A conversion that leaves the register as it is. -/
theorem converts_nil
    (hSame : ∀ v x, σ.Has v → σ.Represents v x →
      τ.Represents (τ.convert v) x) :
    Converts [] σ τ := fun m v hHas hRep =>
  ⟨m, rfl, Kept.refl m, hSame v _ hHas hRep⟩

/- A conversion by one instruction on the register. -/
theorem converts_one {i : Instr} (f : BitVec 64 → BitVec 64)
    (hExec : ∀ m : Machine, m.exec? i =
      some (m.set .rax (f (m.regs .rax))))
    (hValue : ∀ v x, σ.Has v → σ.Represents v x →
      τ.Represents (τ.convert v) (f x)) : Converts [i] σ τ := by
  intro m v hHas hRep
  refine ⟨m.set .rax (f (m.regs .rax)), ?_, kept_set m _ (by decide) (by decide), ?_⟩
  · simp only [execAll?, hExec, Option.bind_some]
  · rw [set_regs_self]
    exact hValue v _ hHas hRep

/- The low bits of a register that holds a value. -/
theorem setWidth_low {n : Nat} {x : BitVec 64} (hRep : σ.Represents v x) (hBits : n ≤ 32) :
    x.setWidth n = BitVec.ofInt n v := by
  have hLow := congrArg (BitVec.setWidth n) hRep.low
  rw [BitVec.setWidth_setWidth_of_le x hBits, Word.setWidth_ofInt hBits] at hLow
  exact hLow

/- A word of 32 bits that fills the low half. -/
theorem represents_long (hHeld : τ.held = .long) (hWord : y = BitVec.ofInt 32 v) :
    τ.Represents v (y.setWidth 64) := by
  unfold IntType.Represents
  rw [hHeld]
  change (y.setWidth 64).setWidth 32 = _
  rw [BitVec.setWidth_setWidth_of_le _ (by decide), BitVec.setWidth_eq]
  exact hWord

variable {k : IntKind}

/- Cutting a value down to a narrow type. -/
theorem converts_cut (σ : IntType) (hNarrow : k = .char ∨ k = .short) (u : Bool) :
    ∃ i, (cutTo k u).flatMap ConvStep.lines = [Line.instr i] ∧ Converts [i] σ (.of k u) := by
  rcases hNarrow with rfl | rfl <;> cases u
  · refine ⟨_, rfl, converts_one (fun x => ((x.setWidth 8).signExtend 32).setWidth 64)
      (fun _ => rfl) fun v x _ hRep => represents_long rfl ?_⟩
    rw [setWidth_low hRep (by decide)]
    exact IntType.signExtend_convert .char (by decide) v
  · refine ⟨_, rfl, converts_one (fun x => ((x.setWidth 8).setWidth 32).setWidth 64)
      (fun _ => rfl) fun v x _ hRep => represents_long rfl ?_⟩
    rw [setWidth_low hRep (by decide)]
    exact IntType.setWidth_convert .char (by decide) v
  · refine ⟨_, rfl, converts_one (fun x => ((x.setWidth 16).signExtend 32).setWidth 64)
      (fun _ => rfl) fun v x _ hRep => represents_long rfl ?_⟩
    rw [setWidth_low hRep (by decide)]
    exact IntType.signExtend_convert .short (by decide) v
  · refine ⟨_, rfl, converts_one (fun x => ((x.setWidth 16).setWidth 32).setWidth 64)
      (fun _ => rfl) fun v x _ hRep => represents_long rfl ?_⟩
    rw [setWidth_low hRep (by decide)]
    exact IntType.setWidth_convert .short (by decide) v

/- The values of a narrow type that fits another one. -/
theorem has_of_narrowFits {k' : IntKind} {u u' : Bool} (hFits : narrowFits k u k' u' = true)
    (hHas : (IntType.of k u).Has v) : (IntType.of k' u').Has v := by
  have hRange : (IntType.of k u).Fits (.of k' u') := by
    revert hFits
    cases k <;> cases k' <;> cases u <;> cases u' <;> decide
  exact ⟨hRange.1.trans hHas.1, hHas.2.trans hRange.2⟩

/- A conversion to a narrow type. -/
theorem converts_narrow (σ : IntType) (hNarrow : k = .char ∨ k = .short) (u : Bool) :
    ∃ is, (conversion (.of σ.toCType) (.integer k u)).flatMap ConvStep.lines =
        is.map Line.instr ∧ Converts is σ (.of k u) := by
  obtain ⟨i, hCut, hConverts⟩ := converts_cut σ hNarrow u
  cases σ with
  | bool =>
    refine ⟨[i], Eq.trans ?_ hCut, hConverts⟩
    rcases hNarrow with rfl | rfl <;> rfl
  | of k₀ u₀ =>
    have hSteps : conversion (.of (IntType.of k₀ u₀).toCType) (.integer k u) =
        if narrowFits k₀ u₀ k u then [] else cutTo k u := by
      rcases hNarrow with rfl | rfl <;> rfl
    rw [hSteps]
    by_cases hFits : narrowFits k₀ u₀ k u = true
    · refine ⟨[], by simp [hFits], converts_nil ?_⟩
      intro v x hHas hRep
      rw [IntType.convert_of_has (has_of_narrowFits hFits hHas)]
      rcases hNarrow with rfl | rfl <;> exact hRep.low
    · refine ⟨[i], ?_, hConverts⟩
      rw [if_neg hFits, hCut]
      rfl

/- A conversion to a type of 32 bits. -/
theorem converts_int (σ : IntType) (u : Bool) : Converts [] σ (.of .int u) := by
  refine converts_nil fun v x _ hRep => ?_
  exact hRep.low.trans (IntType.ofInt_convert .int u le_rfl v).symm

/- A conversion to a type of 64 bits. -/
theorem converts_long (σ : IntType) (u : Bool) :
    ∃ is, (conversion (.of σ.toCType) (.integer .long u)).flatMap ConvStep.lines =
        is.map Line.instr ∧ Converts is σ (.of .long u) := by
  have hWhole : ∀ {v x}, x = BitVec.ofInt 64 v → (IntType.of .long u).Represents
        ((IntType.of .long u).convert v) x := by
    intro v x hx
    change x.setWidth 64 = _
    rw [BitVec.setWidth_eq, hx]
    exact (IntType.ofInt_convert .long u le_rfl v).symm
  have hSame : ∀ {v x}, BitVec.setWidth 64 x = BitVec.ofInt 64 v → x = BitVec.ofInt 64 v := by
    intro v x hx
    rwa [BitVec.setWidth_eq] at hx
  have hSign : ∀ {σ : IntType}, σ.Fits .int → Converts [.extend .signLong .eax .rax] σ
        (.of .long u) := by
    intro σ hFits
    refine converts_one (fun x => (x.setWidth 32).signExtend 64) (fun _ => rfl)
      fun v x hHas hRep => hWhole ?_
    have hLow : -2 ^ 31 ≤ v := hFits.1.trans hHas.1
    have hHigh : v ≤ 2 ^ 31 - 1 := hHas.2.trans hFits.2
    rw [hRep.low, Word.signExtend_ofInt (by decide) (by decide) hLow (by omega)]
  cases σ with
  | bool => exact ⟨[], rfl, converts_nil fun v x _ hRep => hWhole (hSame hRep)⟩
  | of k₀ u₀ =>
    cases k₀ with
    | char => exact ⟨_, rfl, hSign (by cases u₀ <;> decide)⟩
    | short => exact ⟨_, rfl, hSign (by cases u₀ <;> decide)⟩
    | long => exact ⟨[], rfl, converts_nil fun v x _ hRep => hWhole (hSame hRep)⟩
    | int =>
      cases u₀ with
      | false => exact ⟨_, rfl, hSign (by decide)⟩
      | true =>
        refine ⟨_, rfl, converts_one (fun x => (x.setWidth 32).setWidth 64)
          (fun _ => rfl) fun v x hHas hRep => hWhole ?_⟩
        have hHigh : v ≤ 2 ^ 32 - 1 := hHas.2
        rw [hRep.low, Word.setWidth_ofInt_of_nonneg (by decide) hHas.1 (by omega)]

/- The code of a conversion converts. -/
theorem convert_converts (rs : Records) (σ τ : IntType) :
    ∃ is, convert rs σ.toCType τ.toCType = is.map Line.instr ∧ Converts is σ τ := by
  cases τ with
  | bool => exact ⟨_, rfl, converts_bool rs σ⟩
  | of k u =>
    cases k with
    | char => exact converts_narrow σ (.inl rfl) u
    | short => exact converts_narrow σ (.inr rfl) u
    | int =>
      refine ⟨[], ?_, converts_int σ u⟩
      obtain _ | ⟨k₀, u₀⟩ := σ <;> rfl
    | long => exact converts_long σ u

end Codegen

------------
-- Variables
------------

namespace Codegen

open Machine

variable {m : Machine} {τ : IntType} {v : Int}

/- The width of a value in memory. -/
def stored : IntType → Width
| .bool | .of .char _ => .byte
| .of .short _ => .word
| .of .int _ => .long
| .of .long _ => .quad

/- Memory holds a value of a type at an address. -/
def HoldsAt
    (m : Machine)
    (τ : IntType)
    (v : Int)
    (a : BitVec 64) : Prop :=
  m.mem.load a (stored τ) = BitVec.ofInt (stored τ).bits v

/- The operand that a register points at. -/
theorem read?_deref (m : Machine) (w : Width) :
    m.read? w (.deref .rax) = some (m.mem.load (m.regs .rax) w) := by simp [read?, address]

/- A widening move from memory to 32 bits. -/
theorem exec_extend_deref {x : Extension} {a : BitVec (sourceWidth x).bits}
    (hLoad : m.mem.load (m.regs .rax) (sourceWidth x) = a) (hTo : resultWidth? x = some .long)
    (hWord : widened 32 a x = y) :
    m.execAll? [.extend x (.deref .rax) .eax] = some (m.set .rax (y.setWidth 64)) := by
  simp only [execAll?, exec_extend (w := .long) .rax
    (read?_deref m (sourceWidth x)) (by rw [hTo]; rfl),
    Option.bind_some, hLoad]
  rw [← hWord]
  rfl

/- A load from an address that holds a value. -/
theorem exec_load (rs : Records) (hHas : τ.Has v) (hHolds : HoldsAt m τ v (m.regs .rax)) :
    ∃ m', m.execAll? (load rs τ.toCType) = some m' ∧ Kept m m' ∧ τ.Represents v (m'.regs .rax) := by
  unfold HoldsAt at hHolds
  have hSet : ∀ x : BitVec 64, τ.Represents v x →
      m.execAll? (load rs τ.toCType) = some (m.set .rax x) →
      ∃ m', m.execAll? (load rs τ.toCType) = some m' ∧ Kept m m' ∧ τ.Represents v (m'.regs .rax) :=
    fun x hRep hExec => ⟨_, hExec, kept_set m x (by decide) (by decide), by rwa [set_regs_self]⟩
  have hSame := IntType.convert_of_has hHas
  have hSigned : ∀ k : IntKind, τ = .of k false → (IntType.of k false).bits ≤ 32 →
      (BitVec.ofInt (IntType.of k false).bits v).signExtend 32 = BitVec.ofInt 32 v := by
    rintro k rfl hBits
    rw [IntType.signExtend_convert k hBits v, hSame]
  have hUnsigned : ∀ k : IntKind, τ = .of k true → (IntType.of k true).bits ≤ 32 →
      (BitVec.ofInt (IntType.of k true).bits v).setWidth 32 = BitVec.ofInt 32 v := by
    rintro k rfl hBits
    rw [IntType.setWidth_convert k hBits v, hSame]
  cases τ with
  | bool =>
    have hRange : 0 ≤ v ∧ v ≤ 1 := hHas
    have hWord : (BitVec.ofInt 8 v).signExtend 32 = BitVec.ofInt 32 v :=
      Word.signExtend_ofInt (by decide) (by decide) (by omega) (by omega)
    refine hSet _ (IntType.represents_ofInt _ v)
      ((exec_extend_deref (x := .signByte) hHolds rfl
        hWord).trans ?_)
    rw [Word.setWidth_ofInt_of_nonneg (by decide) hRange.1 (by omega)]
  | of k u =>
    cases k with
    | char =>
      cases u with
      | false =>
        exact hSet _ (represents_long rfl rfl) (exec_extend_deref (x := .signByte) hHolds rfl
            (hSigned .char rfl (by decide)))
      | true =>
        exact hSet _ (represents_long rfl rfl) (exec_extend_deref (x := .zeroByte) hHolds rfl
            (hUnsigned .char rfl (by decide)))
    | short =>
      cases u with
      | false =>
        exact hSet _ (represents_long rfl rfl) (exec_extend_deref (x := .signWord) hHolds rfl
            (hSigned .short rfl (by decide)))
      | true =>
        exact hSet _ (represents_long rfl rfl) (exec_extend_deref (x := .zeroWord) hHolds rfl
            (hUnsigned .short rfl (by decide)))
    | int =>
      -- the upper half is extended, but not relied on
      have hWord : m.mem.load (m.regs .rax) .long = BitVec.ofInt 32 v := hHolds
      refine hSet ((BitVec.ofInt 32 v).signExtend 64) ?_ ?_
      · have hWide := IntType.signExtend_convert (n := 64) .int (by decide) v
        change BitVec.setWidth 32 _ = BitVec.ofInt 32 v
        refine (congrArg (BitVec.setWidth 32) hWide).trans ?_
        rw [Word.setWidth_ofInt (by decide)]
        exact IntType.ofInt_convert .int false le_rfl v
      · have hExec := exec_extend (x := .signLong) (w := .quad) .rax (read?_deref m .long) rfl
        change m.execAll? [.extend .signLong (.deref .rax) .rax] = _
        simp only [execAll?, hExec, Option.bind_some]
        exact congrArg (fun z : BitVec 32 => some (m.set .rax (z.signExtend 64))) hWord
    | long =>
      have hWord : m.mem.load (m.regs .rax) .quad = BitVec.ofInt 64 v := hHolds
      refine hSet (BitVec.ofInt 64 v) (IntType.represents_ofInt _ v) ?_
      have hExec : m.exec? (.mov (.deref .rax) .rax) = (m.read? .quad (.deref .rax)).bind
            fun x => some (m.set .rax x) := rfl
      change m.execAll? [.mov (.deref .rax) .rax] = _
      simp only [execAll?, hExec, read?_deref, Option.bind_some]
      exact congrArg (fun z : BitVec 64 => some (m.set .rax z)) hWord

end Codegen

end CCompiler
