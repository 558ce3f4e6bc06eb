import Mathlib
import CCompiler.Codegen.Operation
import CCompiler.Proofs.Codegen.Converting

/-
  What the instructions of operators do.

  The operands of an operator are in two registers, in the
  width of their common type; the result is the value that C
  gives to the operator, if it gives one.

  Main declarations:
    * `Codegen.exec_negate`, `Codegen.exec_not`
    * `Codegen.exec_arith`
    * `Codegen.exec_shift`
-/

------------
-- Words
------------

namespace CCompiler

namespace Word

variable {n : Nat} {a b : Int}

theorem ofInt_sub (a b : Int) :
    BitVec.ofInt n (a - b) = BitVec.ofInt n a - BitVec.ofInt n b := by
  rw [Int.sub_eq_add_neg, BitVec.ofInt_add, BitVec.ofInt_neg, BitVec.sub_eq_add_neg]

theorem ofInt_not (a : Int) : BitVec.ofInt n (-a - 1) = ~~~BitVec.ofInt n a := by
  rw [BitVec.not_eq_neg_add, ofInt_sub, BitVec.ofInt_neg]
  rfl

theorem ofInt_shiftLeft (a : Int) (i : Nat) :
    BitVec.ofInt n (a * 2 ^ i) = BitVec.ofInt n a <<< i := by
  rw [BitVec.shiftLeft_eq_mul_twoPow, BitVec.ofInt_mul]
  congr 1
  apply BitVec.eq_of_toNat_eq
  rw [BitVec.toNat_twoPow, BitVec.toNat_ofInt]
  exact_mod_cast rfl

/- The number of a word that is not negative. -/
theorem toNat_ofInt (hLow : 0 ≤ a) (hHigh : a < 2 ^ n) : (BitVec.ofInt n a).toNat = a.toNat := by
  rw [BitVec.toNat_ofInt, Int.emod_eq_of_lt hLow (by
    push_cast
    exact hHigh)]

/- The word of a number that was cut off below. -/
theorem ofInt_ushiftRight (hLow : 0 ≤ a) (hHigh : a < 2 ^ n) (i : Nat) :
    BitVec.ofInt n (a / 2 ^ i) = BitVec.ofInt n a >>> i := by
  apply BitVec.eq_of_toNat_eq
  have hLess : a / 2 ^ i ≤ a := Int.ediv_le_self _ hLow
  have hPos : 0 ≤ a / 2 ^ i := Int.ediv_nonneg hLow (by positivity)
  rw [BitVec.toNat_ushiftRight, toNat_ofInt hLow hHigh,
    toNat_ofInt hPos (by omega), Nat.shiftRight_eq_div_pow]
  zify
  rw [Int.toNat_of_nonneg hPos, Int.toNat_of_nonneg hLow]

theorem ofInt_sshiftRight (hPos : 0 < n) (hLow : -2 ^ (n - 1) ≤ a) (hHigh : a < 2 ^ (n - 1))
    (i : Nat) :
    BitVec.ofInt n (a / 2 ^ i) = (BitVec.ofInt n a).sshiftRight i := by
  have hInt := BitVec.toInt_sshiftRight (x := BitVec.ofInt n a) (n := i)
  rw [BitVec.toInt_ofInt_eq_self hPos hLow hHigh, Int.shiftRight_eq_div_pow] at hInt
  push_cast at hInt
  rw [← hInt, BitVec.ofInt_toInt]

/- An operation on bits keeps to the low bits. -/
theorem ofInt_bitwise (hLe : n ≤ 64) (z : BitVec 64) : BitVec.ofInt n z.toInt = z.setWidth n := by
  rw [← setWidth_ofInt hLe, BitVec.ofInt_toInt]

/- The order of words without sign. -/
theorem ult_ofInt (hLowA : 0 ≤ a) (hHighA : a < 2 ^ n) (hLowB : 0 ≤ b) (hHighB : b < 2 ^ n) :
    (BitVec.ofInt n a).ult (BitVec.ofInt n b) = decide (a < b) := by
  rw [BitVec.ult_eq_decide, toNat_ofInt hLowA hHighA, toNat_ofInt hLowB hHighB]
  exact decide_eq_decide.mpr (by omega)

variable {k : Nat}

/- The sign of a difference that may have wrapped around. -/
theorem bmod_neg_iff {d : Int} (hLow : -2 * 2 ^ k < d) (hHigh : d < 2 * 2 ^ k) :
    d.bmod (2 ^ (k + 1)) < 0 ↔ (d < 0 ↔ ¬ (2 ^ k ≤ d ∨ d < -2 ^ k)) := by
  have hPos : (0 : Int) < 2 ^ k := by positivity
  have hTwice : ((2 ^ (k + 1) : Nat) : Int) = 2 * 2 ^ k := by
    push_cast
    ring
  have hInside : ∀ e : Int, -2 ^ k ≤ e → e < 2 ^ k → e.bmod (2 ^ (k + 1)) = e := by
    intro e hLow hHigh
    exact Int.bmod_eq_of_le (by rw [hTwice]; omega) (by rw [hTwice]; omega)
  rcases lt_or_ge d (-2 ^ k) with hUnder | hUnder
  · rw [← Int.add_bmod_right, hTwice, hInside _ (by omega) (by omega)]
    omega
  · rcases lt_or_ge d (2 ^ k) with hOver | hOver
    · rw [hInside d hUnder hOver]
      omega
    · rw [← Int.sub_bmod_right, hTwice, hInside _ (by omega) (by omega)]
      omega

/- Sign and overflow of a difference tell the signed order. -/
theorem msb_ne_overflow (x y : BitVec (k + 1)) :
    ((x - y).msb != x.ssubOverflow y) = decide (x.toInt < y.toInt) := by
  have hX := x.le_toInt
  have hX' := x.toInt_lt
  have hY := y.le_toInt
  have hY' := y.toInt_lt
  simp only [Nat.add_sub_cancel] at hX hX' hY hY'
  have hSign := bmod_neg_iff (d := x.toInt - y.toInt) (k := k) (by omega) (by omega)
  have hLess : x.toInt < y.toInt ↔ x.toInt - y.toInt < 0 := sub_neg.symm
  have hLogic : ∀ p q : Prop, ¬ ((p ↔ ¬ q) ↔ q) ↔ p := by
    intro p q
    by_cases hq : q <;> simp [hq]
  rw [BitVec.msb_eq_toInt, BitVec.toInt_sub,
    BitVec.ssubOverflow, Bool.eq_iff_iff, bne_iff_ne, ne_eq, Bool.eq_iff_iff]
  simp only [Nat.add_sub_cancel, decide_eq_true_eq, Bool.or_eq_true, ge_iff_le, hSign, hLess]
  exact hLogic _ _

/- The signed order of words of numbers. -/
theorem less_ofInt (hLowA : -2 ^ k ≤ a) (hHighA : a < 2 ^ k) (hLowB : -2 ^ k ≤ b)
    (hHighB : b < 2 ^ k) :
    let x := BitVec.ofInt (k + 1) a
    let y := BitVec.ofInt (k + 1) b
    ((x - y).msb != x.ssubOverflow y) = decide (a < b) := by
  intro x y
  rw [msb_ne_overflow, BitVec.toInt_ofInt_eq_self
    (by omega) hLowA hHighA, BitVec.toInt_ofInt_eq_self
    (by omega) hLowB hHighB]

end Word

------------
-- Operators with One Operand
------------

open Assembly

namespace IntType

variable {τ : IntType} {v : Int} {x : BitVec 64}

/- The types that are not promoted have 32 or 64 bits. -/
theorem wide_cases (hWide : τ.promote = τ) : ∃ u, τ = .of .int u ∨ τ = .of .long u := by
  rcases promote_cases τ with h | h | h | h <;> rw [hWide] at h <;> rw [h]
  · exact ⟨false, .inl rfl⟩
  · exact ⟨true, .inl rfl⟩
  · exact ⟨false, .inr rfl⟩
  · exact ⟨true, .inr rfl⟩

/- They fill the part of the register that holds them. -/
theorem bits_eq_held (hWide : τ.promote = τ) : τ.bits = τ.held.bits := by
  obtain ⟨u, rfl | rfl⟩ := wide_cases hWide <;> rfl

/- A register with the word of a number holds its conversion. -/
theorem represents_convert (hWide : τ.promote = τ)
    (hWord : x.setWidth τ.held.bits = BitVec.ofInt τ.held.bits v) :
    τ.Represents (τ.convert v) x := by
  have hBits := bits_eq_held hWide
  unfold Represents
  rw [hWord]
  obtain ⟨u, rfl | rfl⟩ := wide_cases hWide
  · exact (ofInt_convert .int u le_rfl v).symm
  · exact (ofInt_convert .long u le_rfl v).symm

theorem held_le (τ : IntType) : τ.held.bits ≤ 64 := by cases τ.held <;> decide

end IntType

namespace Codegen

open Machine

variable {m : Machine} {τ : IntType} {v : Int}

/- The value of a whole register. -/
theorem read?_quad (m : Machine) (r : Reg) : m.read? .quad (.reg r .quad) = some (m.regs r) :=
  congrArg some (BitVec.setWidth_eq (m.regs r))

/- A copy of a whole register. -/
theorem exec_movQuad (m : Machine) (r s : Reg) :
    m.exec? (.mov (.reg r .quad) (.reg s .quad)) = some (m.set s (m.regs r)) :=
  congrArg (fun x? : Option (BitVec 64) => x?.bind fun x => some (m.set s x)) (read?_quad m r)

/- A change of the sign. -/
theorem exec_negate (hWide : τ.promote = τ) (hRep : τ.Represents v (m.regs .rax)) :
    ∃ m', m.execAll? (negate τ.toCType) = some m' ∧ Kept m m' ∧
      τ.Represents (τ.convert (-v)) (m'.regs .rax) := by
  refine ⟨m.unflagged.set .rax (-m.regs .rax), ?_, (kept_flags m none).trans
      (kept_set _ _ (by decide) (by decide)), ?_⟩
  · have hCode : negate τ.toCType = [.unary .neg .rax] := by obtain _ | ⟨k, u⟩ := τ <;> rfl
    have hExec : m.exec? (.unary .neg .rax) = (m.read? .quad .rax).bind fun a =>
          some (m.unflagged.set .rax (-a)) := rfl
    simp only [hCode, execAll?, hExec, read?_quad]
    rfl
  · rw [set_regs_self]
    refine IntType.represents_convert hWide ?_
    rw [BitVec.setWidth_neg_of_le τ.held_le, hRep, BitVec.ofInt_neg]

/- All bits flipped. -/
theorem exec_bitNot (hWide : τ.promote = τ) (hRep : τ.Represents v (m.regs .rax)) :
    ∃ m', m.execAll? [.unary .not .rax] = some m' ∧ Kept m m' ∧
      τ.Represents (τ.convert (-v - 1)) (m'.regs .rax) := by
  refine ⟨m.set .rax (~~~m.regs .rax), ?_, kept_set _ _ (by decide) (by decide), ?_⟩
  · have hExec : m.exec? (.unary .not .rax) = (m.read? .quad .rax).bind fun a =>
          some (m.set .rax (~~~a)) := rfl
    simp only [execAll?, hExec, read?_quad]
    rfl
  · rw [set_regs_self]
    refine IntType.represents_convert hWide ?_
    rw [BitVec.setWidth_not τ.held_le, hRep, Word.ofInt_not]

end Codegen

------------
-- Operators with Two Operands
------------

namespace Codegen

open Machine

variable {m : Machine} {τ : IntType} {a b v : Int}

/- The operands of an operator in their registers. -/
structure Operands
    (m : Machine)
    (τ : IntType)
    (a b : Int) : Prop where
  wide : τ.promote = τ
  hasLeft : τ.Has a
  hasRight : τ.Has b
  left : (m.regs .rax).setWidth τ.held.bits = BitVec.ofInt τ.held.bits a
  right : (m.regs .rdi).setWidth τ.held.bits = BitVec.ofInt τ.held.bits b

/- A result in the part of the register that holds it. -/
def Results
    (is : List Instr)
    (m : Machine)
    (τ : IntType)
    (v : Int) : Prop :=
  ∃ m', m.execAll? is = some m' ∧ Kept m m' ∧ τ.Represents v (m'.regs .rax)

theorem operandWidth_eq (hWide : τ.promote = τ) : operandWidth τ.toCType = τ.held := by
  obtain ⟨u, rfl | rfl⟩ := IntType.wide_cases hWide <;> rfl

variable {w : Width}

/- An operation that leaves its result in the first register. -/
theorem exec_alu {op : AluOp} {c : BitVec w.bits}
    (hResult : aluResult? ((m.regs .rax).setWidth w.bits)
      ((m.regs .rdi).setWidth w.bits) op = some c) :
    ∃ y, m.execAll? [.alu op (.reg .rdi w) (.reg .rax w)] = some (m.unflagged.set .rax y) ∧
      y.setWidth w.bits = c := by
  obtain ⟨y, hSet, hLow⟩ := setPart_eq m.unflagged .rax w c
  refine ⟨y, ?_, hLow⟩
  have hAlu : m.alu? op w (.reg .rdi w) (.reg .rax w) = m.unflagged.write? w c (.reg .rax w) := by
    cases op <;> first
      | cases hResult; done
      | simp only [alu?, read?, if_true, Option.bind_eq_bind, Option.bind_some, hResult]
  have hExec : m.exec? (.alu op (.reg .rdi w) (.reg .rax w)) =
      m.alu? op w (.reg .rdi w) (.reg .rax w) := rfl
  simp only [execAll?, hExec, hAlu, write?, if_true, hSet, Option.bind_some]

/- The result of an operation in the common type. -/
theorem results_alu {op : AluOp} (hOperands : Operands m τ a b)
    (hResult : aluResult? (BitVec.ofInt τ.held.bits a)
      (BitVec.ofInt τ.held.bits b) op = some (BitVec.ofInt τ.held.bits v)) :
    Results [.alu op (.reg .rdi τ.held) (.reg .rax τ.held)] m τ (τ.convert v) := by
  rw [← hOperands.left, ← hOperands.right] at hResult
  obtain ⟨y, hExec, hWord⟩ := exec_alu hResult
  refine ⟨_, hExec, (kept_flags m none).trans (kept_set _ y (by decide) (by decide)), ?_⟩
  rw [set_regs_self]
  exact IntType.represents_convert hOperands.wide hWord

/- The result of a comparison. -/
theorem results_compare {c : Cond} {p : Prop} [Decidable p] (hOperands : Operands m τ a b)
    (hHolds : c.holds? (.ofSub (BitVec.ofInt τ.held.bits a)
        (BitVec.ofInt τ.held.bits b)) = some (decide p)) :
    Results (.alu .cmp (.reg .rdi τ.held) (.reg .rax τ.held) :: truth c) m .int (truthValue p) := by
  rw [← hOperands.left, ← hOperands.right] at hHolds
  obtain ⟨m', hExec, hKept, hRax⟩ :=
    exec_truth (m := { m with flags? := some _ }) (.inr ⟨rfl, rfl⟩) rfl hHolds
  refine ⟨m', ?_, (kept_flags m _).trans hKept, ?_⟩
  · have hCompare : m.exec? (.alu .cmp (.reg .rdi τ.held) (.reg .rax τ.held)) =
        some { m with flags? := some (.ofSub ((m.regs .rax).setWidth τ.held.bits)
          ((m.regs .rdi).setWidth τ.held.bits)) } := by
      cases τ.held <;> rfl
    simp only [execAll?, hCompare, Option.bind_some]
    exact hExec
  · rw [hRax]
    exact IntType.represents_ofInt _ _

/- A division: quotient and remainder in their registers. -/
def Divides
    (is : List Instr)
    (m : Machine)
    (τ : IntType)
    (a b : Int) : Prop :=
  ∃ m', m.execAll? is = some m' ∧ Kept m m' ∧
    τ.Represents (a.tdiv b) (m'.regs .rax) ∧
    τ.Represents (a.tmod b) (m'.regs .rdx)

/- Both registers after a division. -/
theorem setPart_both (m : Machine) (w : Width) (q r : BitVec w.bits) :
    ∃ m', (m.unflagged.setPart .rax w q).setPart .rdx w r = m' ∧ Kept m m' ∧
      (m'.regs .rax).setWidth w.bits = q ∧
      (m'.regs .rdx).setWidth w.bits = r := by
  obtain ⟨y, hQuot, hLowQ⟩ := setPart_eq m.unflagged .rax w q
  rw [hQuot]
  obtain ⟨z, hRest, hLowR⟩ := setPart_eq (m.unflagged.set .rax y) .rdx w r
  rw [hRest]
  refine ⟨_, rfl, (kept_flags m none).trans ((kept_set _ y (by decide) (by decide)).trans
      (kept_set _ z (by decide) (by decide))), ?_, ?_⟩
  · rw [set_regs_of_ne _ _ (by decide), set_regs_self]
    exact hLowQ
  · rw [set_regs_self]
    exact hLowR

variable {d : BitVec w.bits}

/- A division that does not trap. -/
theorem divide?_eq {x y : Nat} (hUpper : ((m.regs .rdx).setWidth w.bits).toNat = 0)
    (hLower : ((m.regs .rax).setWidth w.bits).toNat = x) (hDivisor : d.toNat = y) (hZero : y ≠ 0) :
    ∃ m', m.divide? w d = some m' ∧ Kept m m' ∧ (m'.regs .rax).setWidth w.bits =
        BitVec.ofNat w.bits (x / y) ∧ (m'.regs .rdx).setWidth w.bits =
        BitVec.ofNat w.bits (x % y) := by
  obtain ⟨m', hBoth, hKept, hQuot, hRest⟩ := setPart_both m w
    (BitVec.ofNat w.bits (x / y)) (BitVec.ofNat w.bits (x % y))
  refine ⟨m', ?_, hKept, hQuot, hRest⟩
  have hFits : x / y < 2 ^ w.bits :=
    (Nat.div_le_self x y).trans_lt (hLower ▸ ((m.regs .rax).setWidth w.bits).isLt)
  unfold divide?
  simp only [hUpper, hLower, hDivisor, Nat.zero_mul, Nat.zero_add]
  rw [if_neg (not_or.mpr ⟨hZero, by omega⟩), hBoth]

theorem divideSigned?_eq
    (hNumber : ((m.regs .rdx).setWidth w.bits).toInt * 2 ^ w.bits +
        ((m.regs .rax).setWidth w.bits).toNat = a) (hDivisor : d.toInt = b) (hZero : b ≠ 0)
    (hLow : -2 ^ (w.bits - 1) ≤ a.tdiv b) (hHigh : a.tdiv b < 2 ^ (w.bits - 1)) :
    ∃ m', m.divideSigned? w d = some m' ∧ Kept m m' ∧
      (m'.regs .rax).setWidth w.bits = BitVec.ofInt w.bits (a.tdiv b) ∧
      (m'.regs .rdx).setWidth w.bits = BitVec.ofInt w.bits (a.tmod b) := by
  obtain ⟨m', hBoth, hKept, hQuot, hRest⟩ := setPart_both m w (BitVec.ofInt w.bits (a.tdiv b))
    (BitVec.ofInt w.bits (a.tmod b))
  refine ⟨m', ?_, hKept, hQuot, hRest⟩
  unfold divideSigned?
  simp only [hNumber, hDivisor]
  rw [if_neg (by omega), hBoth]

/- A division of values without sign. -/
theorem divides_unsigned (hOperands : Operands m τ a b) (hUnsigned : τ.isUnsigned = true)
    (hZero : b ≠ 0) :
    Divides [.mov (.imm 0) (.reg .rdx τ.held), .unary .div (.reg .rdi τ.held)] m τ a b := by
  have hBits := IntType.bits_eq_held hOperands.wide
  have hRange : ∀ {c : Int}, τ.Has c → 0 ≤ c ∧ c < 2 ^ τ.held.bits := by
    intro c hHas
    obtain ⟨hLow, hHigh⟩ := hHas
    simp only [IntType.least, IntType.greatest, hUnsigned, if_true, hBits] at hLow hHigh
    omega
  have hA := hRange hOperands.hasLeft
  have hB := hRange hOperands.hasRight
  obtain ⟨z, hSet, hLow⟩ := setPart_eq m .rdx τ.held (BitVec.ofInt τ.held.bits 0)
  have hMov : m.exec? (.mov (.imm 0) (.reg .rdx τ.held)) = some (m.set .rdx z) := by
    rw [← hSet]
    cases τ.held <;> rfl
  obtain ⟨m', hDivide, hKept, hQuot, hRest⟩ :=
    divide?_eq (m := m.set .rdx z) (w := τ.held) (d := (m.regs .rdi).setWidth τ.held.bits)
      (x := a.toNat) (y := b.toNat)
      (by rw [set_regs_self, hLow]; simp)
      (by rw [set_regs_of_ne _ _ (by decide), hOperands.left, Word.toNat_ofInt hA.1 hA.2])
      (by rw [hOperands.right, Word.toNat_ofInt hB.1 hB.2])
      (by omega)
  have hDiv : (m.set .rdx z).exec? (.unary .div (.reg .rdi τ.held)) = some m' := by
    rw [← hDivide]
    obtain ⟨u, hτ | hτ⟩ := IntType.wide_cases hOperands.wide <;> rw [hτ] <;> rfl
  refine ⟨m', ?_, (kept_set m z (by decide) (by decide)).trans hKept, ?_, ?_⟩
  · simp only [execAll?, hMov, hDiv, Option.bind_some]
  · refine hQuot.trans ?_
    rw [Int.tdiv_eq_ediv_of_nonneg hA.1, ← BitVec.ofInt_natCast, Int.natCast_ediv,
      Int.toNat_of_nonneg hA.1, Int.toNat_of_nonneg hB.1]
  · refine hRest.trans ?_
    rw [Int.tmod_eq_emod_of_nonneg hA.1, ← BitVec.ofInt_natCast, Int.natCast_emod,
      Int.toNat_of_nonneg hA.1, Int.toNat_of_nonneg hB.1]

/- The double word of a word and copies of its sign. -/
theorem signed_double {n : Nat} (hPos : 0 < n) (x : BitVec n) :
    (if x.msb then (-1 : BitVec n) else 0).toInt * 2 ^ n +
      x.toNat = x.toInt := by
  have hOnes : (-1 : BitVec n).toInt = -1 := by
    have hPow : (0 : Int) < 2 ^ (n - 1) := by positivity
    have hWord : (-1 : BitVec n) = BitVec.ofInt n (-1) := by
      rw [BitVec.ofInt_neg]
      rfl
    rw [hWord]
    exact BitVec.toInt_ofInt_eq_self hPos (by omega) (by omega)
  rw [BitVec.toInt_eq_msb_cond x]
  cases x.msb
  · simp
  · simp only [if_true, hOnes]
    push_cast
    ring

/- A division of values with a sign. -/
theorem divides_signed (hOperands : Operands m τ a b) (hSigned : τ.isUnsigned = false)
    (hZero : b ≠ 0) (hFits : τ.Has (a.tdiv b)) :
    Divides [.signExtendAcc τ.held, .unary .idiv (.reg .rdi τ.held)] m τ a b := by
  have hBits := IntType.bits_eq_held hOperands.wide
  have hPos : 0 < τ.held.bits := by cases τ.held <;> decide
  have hRange : ∀ {c : Int}, τ.Has c → -2 ^ (τ.held.bits - 1) ≤ c ∧ c < 2 ^ (τ.held.bits - 1) := by
    intro c hHas
    obtain ⟨hLow, hHigh⟩ := hHas
    simp only [IntType.least, IntType.greatest, hSigned,
      Bool.false_eq_true, if_false, hBits] at hLow hHigh
    omega
  have hA := hRange hOperands.hasLeft
  have hB := hRange hOperands.hasRight
  have hQ := hRange hFits
  obtain ⟨z, hSet, hLow⟩ := setPart_eq m .rdx τ.held
    (if ((m.regs .rax).setWidth τ.held.bits).msb then -1 else 0)
  have hSpread : m.exec? (.signExtendAcc τ.held) = some (m.set .rdx z) := by
    rw [← hSet]
    rfl
  obtain ⟨m', hDivide, hKept, hQuot, hRest⟩ :=
    divideSigned?_eq (m := m.set .rdx z) (w := τ.held) (d := (m.regs .rdi).setWidth τ.held.bits)
      (a := a) (b := b)
      (by
        rw [set_regs_self, set_regs_of_ne _ _ (by decide), hLow, signed_double hPos, hOperands.left,
          BitVec.toInt_ofInt_eq_self hPos hA.1 hA.2])
      (by rw [hOperands.right, BitVec.toInt_ofInt_eq_self hPos hB.1 hB.2])
      hZero hQ.1 hQ.2
  have hDiv : (m.set .rdx z).exec? (.unary .idiv (.reg .rdi τ.held)) = some m' := by
    rw [← hDivide]
    obtain ⟨u, hτ | hτ⟩ := IntType.wide_cases hOperands.wide <;> rw [hτ] <;> rfl
  refine ⟨m', ?_, (kept_set m z (by decide) (by decide)).trans hKept, hQuot, hRest⟩
  simp only [execAll?, hSpread, hDiv, Option.bind_some]

variable {is : List Instr}

/- Instructions one after the other. -/
theorem execAll?_append {js : List Instr} {m₁ m₂ : Machine} (hFirst : m.execAll? is = some m₁)
    (hNext : m₁.execAll? js = some m₂) : m.execAll? (is ++ js) = some m₂ := by
  induction is generalizing m with
  | nil =>
    cases hFirst
    exact hNext
  | cons i is ih =>
    obtain ⟨m', hStep, hRest⟩ := Option.bind_eq_some_iff.mp hFirst
    simp only [List.cons_append, execAll?, hStep, Option.bind_some]
    exact ih hRest

/- The quotient of a division. -/
theorem Divides.quotient (hDivides : Divides is m τ a b) : Results is m τ (a.tdiv b) := by
  obtain ⟨m', hExec, hKept, hQuot, -⟩ := hDivides
  exact ⟨m', hExec, hKept, hQuot⟩

/- The remainder of a division, moved to the first register. -/
theorem Divides.remainder (hDivides : Divides is m τ a b) :
    Results (is ++ [.mov .rdx .rax]) m τ (a.tmod b) := by
  obtain ⟨m', hExec, hKept, -, hRest⟩ := hDivides
  have hMov : m'.execAll? [.mov .rdx .rax] = some (m'.set .rax (m'.regs .rdx)) := by
    simp only [execAll?, exec_movQuad, Option.bind_some]
  refine ⟨_, execAll?_append hExec hMov, hKept.trans (kept_set m' _ (by decide) (by decide)), ?_⟩
  rw [set_regs_self]
  exact hRest

/- The flags of a comparison tell the order of two values. -/
theorem Operands.holds (hOperands : Operands m τ a b) :
    let f := Flags.ofSub (BitVec.ofInt τ.held.bits a)
      (BitVec.ofInt τ.held.bits b)
    f.zero = decide (a = b) ∧ (τ.isUnsigned = true → f.carry = decide (a < b)) ∧
      (τ.isUnsigned = false → (f.sign != f.overflow) = decide (a < b)) := by
  have hBits := IntType.bits_eq_held hOperands.wide
  have hEqual := hOperands.hasLeft.ofInt_inj hOperands.hasRight hBits.le
  refine ⟨?_, fun hUnsigned => ?_, fun hSigned => ?_⟩
  · simp only [Flags.ofSub]
    rw [Bool.eq_iff_iff, beq_iff_eq, decide_eq_true_iff]
    exact hEqual
  · obtain ⟨hLowA, hHighA⟩ := hOperands.hasLeft
    obtain ⟨hLowB, hHighB⟩ := hOperands.hasRight
    simp only [IntType.least, IntType.greatest, hUnsigned,
      if_true, hBits] at hLowA hHighA hLowB hHighB
    exact Word.ult_ofInt hLowA (by omega) hLowB (by omega)
  · obtain ⟨hLowA, hHighA⟩ := hOperands.hasLeft
    obtain ⟨hLowB, hHighB⟩ := hOperands.hasRight
    simp only [IntType.least, IntType.greatest, hSigned, Bool.false_eq_true, if_false, hBits]
      at hLowA hHighA hLowB hHighB
    obtain ⟨u, rfl | rfl⟩ := IntType.wide_cases hOperands.wide
    · exact Word.less_ofInt (k := 31) hLowA (Int.lt_of_le_sub_one hHighA) hLowB
        (Int.lt_of_le_sub_one hHighB)
    · exact Word.less_ofInt (k := 63) hLowA (Int.lt_of_le_sub_one hHighA) hLowB
        (Int.lt_of_le_sub_one hHighB)

/- The code of a division. -/
theorem divides_code (hOperands : Operands m τ a b) (hZero : b ≠ 0) (hFits : τ.Has (a.tdiv b)) :
    Divides (if τ.isUnsigned = true then [.mov (.imm 0) (.reg .rdx τ.held),
          .unary .div (.reg .rdi τ.held)] else [.signExtendAcc τ.held,
          .unary .idiv (.reg .rdi τ.held)]) m τ a b := by
  cases hSign : τ.isUnsigned with
  | true => exact divides_unsigned hOperands hSign hZero
  | false => exact divides_signed hOperands hSign hZero hFits

/- The type of an operator that converts its operands. -/
def resultType (op : BinOp) (τ : IntType) : IntType :=
  if op.isComparison then .int else τ

variable {op : BinOp}

theorem resultType_of_not_comparison (hOp : op.isComparison = false) : resultType op τ = τ := by
  simp [resultType, hOp]

/- The code of an operator that converts its operands. -/
theorem exec_arith (rs : Records) (hOperands : Operands m τ a b)
    (hValue : op.value τ a b = some v) :
    Results (intBinary rs op τ.toCType (resultType op τ).toCType) m (resultType op τ) v := by
  have hWidth := operandWidth_eq hOperands.wide
  have hUnsigned : τ.toCType.isUnsigned = τ.isUnsigned := by
    obtain ⟨u, rfl | rfl⟩ := IntType.wide_cases hOperands.wide <;> rfl
  have hSize : (if τ.toCType.size rs = 8 then Width.quad
      else .long) = τ.held := by
    obtain ⟨u, rfl | rfl⟩ := IntType.wide_cases hOperands.wide <;> rfl
  have hBitwise : ∀ (f : BitVec 64 → BitVec 64 → BitVec 64)
      (g : BitVec τ.held.bits → BitVec τ.held.bits → BitVec τ.held.bits),
      (∀ x y, (f x y).setWidth τ.held.bits = g (x.setWidth _) (y.setWidth _)) →
      g (BitVec.ofInt _ a) (BitVec.ofInt _ b) =
        BitVec.ofInt _ (f (.ofInt 64 a) (.ofInt 64 b)).toInt := by
    intro f g hCut
    rw [Word.ofInt_bitwise τ.held_le, hCut, Word.setWidth_ofInt τ.held_le,
      Word.setWidth_ofInt τ.held_le]
  obtain ⟨hZero, hBelow, hLess⟩ := hOperands.holds
  cases op <;> simp only [BinOp.value, reduceCtorEq, Option.some.injEq] at hValue
  case add =>
    rw [← hValue]
    simp only [intBinary, hWidth]
    exact results_alu hOperands (congrArg some (BitVec.ofInt_add a b).symm)
  case sub =>
    rw [← hValue]
    simp only [intBinary, hWidth]
    exact results_alu hOperands (congrArg some (Word.ofInt_sub a b).symm)
  case mul =>
    rw [← hValue]
    simp only [intBinary, hWidth]
    exact results_alu hOperands (congrArg some (BitVec.ofInt_mul a b).symm)
  case bitAnd =>
    rw [← hValue]
    simp only [intBinary, hWidth]
    exact results_alu hOperands (congrArg some (hBitwise _ _ fun x y => BitVec.setWidth_and))
  case bitOr =>
    rw [← hValue]
    simp only [intBinary, hWidth]
    exact results_alu hOperands (congrArg some (hBitwise _ _ fun x y => BitVec.setWidth_or))
  case bitXor =>
    rw [← hValue]
    simp only [intBinary, hWidth]
    exact results_alu hOperands (congrArg some (hBitwise _ _ fun x y => BitVec.setWidth_xor))
  case div =>
    split at hValue
    · cases hValue
    · rename_i hDefined
      obtain ⟨hNonzero, hFits⟩ := not_or.mp hDefined
      cases hValue
      simp only [intBinary, hWidth, hSize]
      rw [resultType_of_not_comparison rfl, hUnsigned]
      exact (divides_code hOperands hNonzero (not_not.mp hFits)).quotient
  case mod =>
    split at hValue
    · cases hValue
    · rename_i hDefined
      obtain ⟨hNonzero, hFits⟩ := not_or.mp hDefined
      cases hValue
      simp only [intBinary, hWidth, hSize]
      rw [resultType_of_not_comparison rfl, hUnsigned]
      exact (divides_code hOperands hNonzero (not_not.mp hFits)).remainder
  case eq =>
    rw [← hValue]
    simp only [intBinary, hWidth]
    refine results_compare hOperands ?_
    simp only [Cond.holds?, hZero]
  case ne =>
    rw [← hValue]
    simp only [intBinary, hWidth]
    refine results_compare hOperands ?_
    simp [Cond.holds?, hZero]
  case lt =>
    rw [← hValue]
    simp only [intBinary, hWidth, hUnsigned]
    refine results_compare hOperands ?_
    cases hSign : τ.isUnsigned with
    | true => exact congrArg some (hBelow hSign)
    | false => exact congrArg some (hLess hSign)
  case le =>
    rw [← hValue]
    simp only [intBinary, hWidth, hUnsigned]
    refine results_compare hOperands ?_
    have hEither : (decide (a < b) || decide (a = b)) = decide (a ≤ b) := by
      rw [← Bool.decide_or]
      exact decide_eq_decide.mpr le_iff_lt_or_eq.symm
    cases hSign : τ.isUnsigned with
    | true =>
      refine congrArg some ?_
      rw [hBelow hSign, hZero, hEither]
    | false =>
      refine congrArg some ?_
      rw [hLess hSign, hZero, Bool.or_comm, hEither]

variable {n : Int}

/- The count of a shift, as the machine takes it. -/
theorem shift_count (hWide : τ.promote = τ)
    (hRight : (m.regs .rdi).setWidth 32 = BitVec.ofInt 32 n) (hLow : 0 ≤ n) (hHigh : n < τ.bits) :
    ((m.regs .rdi).setWidth 8).toNat % (if τ.held = Width.quad then 64 else 32) =
      n.toNat := by
  have hByte : (m.regs .rdi).setWidth 8 = BitVec.ofInt 8 n := by
    rw [← BitVec.setWidth_setWidth_of_le _ (by decide : 8 ≤ 32), hRight,
      Word.setWidth_ofInt (by decide)]
  obtain ⟨u, rfl | rfl⟩ := IntType.wide_cases hWide
  · simp only [IntType.bits] at hHigh
    rw [hByte, Word.toNat_ofInt hLow (by omega)]
    exact Nat.mod_eq_of_lt (by
      simp only [IntType.held, reduceCtorEq, if_false]
      omega)
  · simp only [IntType.bits] at hHigh
    rw [hByte, Word.toNat_ofInt hLow (by omega)]
    exact Nat.mod_eq_of_lt (by
      simp only [IntType.held, if_true]
      omega)

/- A shift of the first register by the second one. -/
theorem exec_shiftInstrs (op : ShiftOp) (hWide : τ.promote = τ)
    (hLeft : τ.Represents a (m.regs .rax))
    (hRight : (m.regs .rdi).setWidth 32 = BitVec.ofInt 32 n) (hLow : 0 ≤ n) (hHigh : n < τ.bits)
    (hWord : shifted (BitVec.ofInt τ.held.bits a) n.toNat op =
      BitVec.ofInt τ.held.bits v) :
    Results [.mov .rdi .rcx, .shift op .cl (.reg .rax τ.held)] m τ (τ.convert v) := by
  obtain ⟨y, hSet, hPart⟩ := setPart_eq (m.set .rcx (m.regs .rdi)).unflagged .rax τ.held
    (shifted ((m.regs .rax).setWidth τ.held.bits) n.toNat op)
  have hShift : (m.set .rcx (m.regs .rdi)).exec? (.shift op .cl (.reg .rax τ.held)) =
      some ((m.set .rcx (m.regs .rdi)).unflagged.set .rax y) := by
    rw [← hSet, ← shift_count hWide hRight hLow hHigh]
    cases τ.held <;> rfl
  have hCopy : Kept m (m.set .rcx (m.regs .rdi)) := kept_set m _ (by decide) (by decide)
  have hResult : Kept (m.set .rcx (m.regs .rdi)).unflagged
        ((m.set .rcx (m.regs .rdi)).unflagged.set .rax y) :=
    kept_set _ y (by decide) (by decide)
  refine ⟨_, ?_, hCopy.trans ((kept_flags _ none).trans hResult), ?_⟩
  · simp only [execAll?, exec_movQuad, Option.bind_some, hShift]
  · rw [set_regs_self]
    refine IntType.represents_convert hWide ?_
    rw [hPart, hLeft, hWord]

/- The code of a shift. -/
theorem exec_shift (rs : Records) (hWide : τ.promote = τ) (hHas : τ.Has a)
    (hLeft : τ.Represents a (m.regs .rax))
    (hRight : (m.regs .rdi).setWidth 32 = BitVec.ofInt 32 n)
    (hValue : op.shiftValue τ a n = some v) :
    Results (intBinary rs op τ.toCType τ.toCType) m τ v := by
  have hWidth := operandWidth_eq hWide
  have hUnsigned : τ.toCType.isUnsigned = τ.isUnsigned := by
    obtain ⟨u, rfl | rfl⟩ := IntType.wide_cases hWide <;> rfl
  have hBits := IntType.bits_eq_held hWide
  have hSame := IntType.convert_of_has (BinOp.has_shiftValue hHas hValue)
  unfold BinOp.shiftValue at hValue
  split at hValue
  · rename_i hCount
    cases op <;> simp only [reduceCtorEq, Option.some.injEq] at hValue
    case shl =>
      rw [← hValue]
      simp only [intBinary, hWidth]
      exact exec_shiftInstrs .left hWide hLeft hRight
        hCount.1 hCount.2 (Word.ofInt_shiftLeft a _).symm
    case shr =>
      rw [← hSame, ← hValue]
      simp only [intBinary, hWidth, hUnsigned]
      obtain ⟨hLow, hHigh⟩ := hHas
      cases hSign : τ.isUnsigned with
      | true =>
        simp only [IntType.least, IntType.greatest, hSign, if_true, hBits] at hLow hHigh
        exact exec_shiftInstrs .right hWide hLeft hRight hCount.1 hCount.2
          (Word.ofInt_ushiftRight hLow (by omega) _).symm
      | false =>
        simp only [IntType.least, IntType.greatest, hSign,
          Bool.false_eq_true, if_false, hBits] at hLow hHigh
        exact exec_shiftInstrs .arithmeticRight hWide hLeft hRight hCount.1 hCount.2
          (Word.ofInt_sshiftRight (by cases τ.held <;> decide) hLow (by omega) _).symm
  · cases hValue

end Codegen

end CCompiler
