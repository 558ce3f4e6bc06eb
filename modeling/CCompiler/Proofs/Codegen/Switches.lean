import Mathlib
import CCompiler.Proofs.Codegen.Operators
import CCompiler.Proofs.Codegen.RecordReturns

/-
  Where the code of a switch goes.

  The arms of a switch are tried one after the other.  A range
  is tested by a single unsigned comparison: the distance of a
  value from the first one, modulo the width of the register,
  is at most the distance of the last one exactly for the
  values of the range, in the order of the type.

  Main declarations:
    * `IntType.Covers`, `IntType.landing`
    * `Codegen.exec_armTest`, `Codegen.lands_dispatch`
    * `Codegen.stmt_switch_lands`
-/

------------
-- Arms
------------

namespace CCompiler

namespace IntType

/-
  The values of an arm lie between its bounds, both converted
  to the type of the switch.
-/
def Covers (τ : IntType) (a : CaseArm) (v : Int) : Prop :=
  τ.convert a.first.toInt ≤ v ∧ v ≤ τ.convert a.last.toInt

instance  (τ : IntType) (a : CaseArm) (v : Int) : Decidable (τ.Covers a v) :=
  inferInstanceAs (Decidable (_ ∧ _))

/-
  The label for a value: that of the first arm with the value,
  else that of the default, else the one past the switch.
-/
def landing
    (τ : IntType)
    (arms : List CaseArm)
    (default? : Option Bytes)
    (brk : Bytes)
    (v : Int) : Bytes :=
  match arms.find? fun a => decide (τ.Covers a v) with
  | some a => a.label
  | none => default?.getD brk

variable {τ : IntType} {a : CaseArm} {v : Int}

/-
  Distances from the least number of a range, as unsigned words
  of at least the bits of the type.
-/
theorem Has.distance_le {n : Nat} {low high : Int} (hLow : τ.Has low) (hHigh : τ.Has high)
    (hValue : τ.Has v) (hLe : low ≤ high) (hBits : τ.bits ≤ n) :
    (BitVec.ofInt n (v - low)).toNat ≤ (BitVec.ofInt n (high - low)).toNat ↔
      low ≤ v ∧ v ≤ high := by
  have hPow : (2 : Int) ^ τ.bits ≤ 2 ^ n := pow_le_pow_right₀ (by norm_num) hBits
  have hSpan := hHigh.near hLow
  have hUp := hValue.near hLow
  have hDown := hHigh.near hValue
  rw [BitVec.toNat_ofInt, BitVec.toNat_ofInt]
  push_cast
  rw [Int.emod_eq_of_lt (a := high - low) (by omega) (by omega)]
  rcases le_or_gt low v with hAbove | hBelow
  · rw [Int.emod_eq_of_lt (by omega) (by omega)]
    omega
  · -- Below the range the distance wraps around.
    have hWrap : (v - low) % 2 ^ n = v - low + 2 ^ n := by
      rw [← Int.add_emod_right]
      exact Int.emod_eq_of_lt (by omega) (by omega)
    rw [hWrap]
    omega

end IntType

------------
-- Tests
------------

open Assembly

namespace Codegen

open Machine

variable {m : Machine} {τ : IntType} {a : CaseArm} {v : Int}

/- The word of a bound is the word of its conversion. -/
theorem ofInt_bound (hWide : τ.promote = τ) (b : Int) :
    BitVec.ofInt τ.held.bits b = BitVec.ofInt τ.held.bits (τ.convert b) := by
  have hBits := (IntType.bits_eq_held hWide).ge
  obtain ⟨u, rfl | rfl⟩ := IntType.wide_cases hWide
  · exact (IntType.ofInt_convert .int u hBits b).symm
  · exact (IntType.ofInt_convert .long u hBits b).symm

/- The distance of the last value as an immediate operand. -/
theorem ofInt_span (hWide : τ.promote = τ) (a : CaseArm) :
    BitVec.ofInt τ.held.bits (a.last - a.first).toInt = BitVec.ofInt τ.held.bits
        (τ.convert a.last.toInt - τ.convert a.first.toInt) := by
  have hWrap : (a.last - a.first).toInt ≡ a.last.toInt - a.first.toInt [ZMOD 2 ^ τ.held.bits] := by
    rw [Int64.toInt_sub]
    have hLong : (a.last.toInt - a.first.toInt).bmod (2 ^ 64) ≡ a.last.toInt - a.first.toInt
          [ZMOD 2 ^ 64] := by exact_mod_cast Int.bmod_emod
    exact hLong.of_dvd (pow_dvd_pow 2 τ.held_le)
  rw [Word.ofInt_congr hWrap, Word.ofInt_sub, ofInt_bound hWide a.last.toInt,
    ofInt_bound hWide a.first.toInt, ← Word.ofInt_sub]

/- What the instructions before a conditional jump lead to. -/
def Tests
    (is : List Instr)
    (c : Cond)
    (p : Prop)
    [Decidable p]
    (m : Machine) : Prop :=
  ∃ m', m.execAll? is = some m' ∧ m'.taken? c = some (decide p) ∧
    Kept m m' ∧ m'.regs .rax = m.regs .rax

/- The test of an arm with one value. -/
theorem tests_value (hWide : τ.promote = τ) (hHas : τ.Has v) (hRep : τ.Represents v (m.regs .rax))
    (hSingle : a.first = a.last) :
    Tests [.alu .cmp (.imm a.first.toInt) (.reg .rax τ.held)] .equal (τ.Covers a v) m := by
  have hExec : m.exec? (.alu .cmp (.imm a.first.toInt) (.reg .rax τ.held)) =
      some { m with flags? := some (.ofSub ((m.regs .rax).setWidth τ.held.bits)
        (BitVec.ofInt τ.held.bits a.first.toInt)) } := by
    simp only [exec?, Operand.width?, alu?, read?, if_true, Option.bind_eq_bind, Option.bind_some,
      Option.orElse_eq_orElse, Option.orElse_eq_or, Option.some_or]
  have hBits := (IntType.bits_eq_held hWide).le
  have hEqual := hHas.ofInt_inj (IntType.has_convert τ a.first.toInt) hBits
  refine ⟨{ m with flags? := some (.ofSub ((m.regs .rax).setWidth τ.held.bits)
      (BitVec.ofInt τ.held.bits a.first.toInt)) },
    by rw [execAll?, hExec]; rfl, ?_, kept_flags m _, rfl⟩
  have hCovers : τ.Covers a v ↔ v = τ.convert a.first.toInt := by
    unfold IntType.Covers
    rw [← hSingle]
    omega
  refine congrArg some ?_
  rw [hRep, ofInt_bound hWide a.first.toInt, decide_eq_decide.mpr (hCovers.trans hEqual.symm)]
  rfl

/- The test of an arm with a range of values. -/
theorem tests_range (hWide : τ.promote = τ) (hHas : τ.Has v) (hRep : τ.Represents v (m.regs .rax))
    (hOrder : τ.convert a.first.toInt ≤ τ.convert a.last.toInt) :
    Tests [ .mov (.reg .rax τ.held) (.reg .rdi τ.held),
        .alu .sub (.imm a.first.toInt) (.reg .rdi τ.held),
        .alu .cmp (.imm (a.last - a.first).toInt) (.reg .rdi τ.held) ]
      .belowOrEqual (τ.Covers a v) m := by
  obtain ⟨x, hCopy, hWord⟩ := setPart_eq m .rdi τ.held ((m.regs .rax).setWidth τ.held.bits)
  obtain ⟨y, hSub, hDistance⟩ := setPart_eq (m.set .rdi x).unflagged .rdi τ.held
    (BitVec.ofInt τ.held.bits (v - τ.convert a.first.toInt))
  have hMov : m.exec? (.mov (.reg .rax τ.held) (.reg .rdi τ.held)) = some (m.set .rdi x) := by
    simp only [exec?, Operand.width?, read?, write?, if_true, Option.bind_eq_bind, Option.bind_some,
      Option.orElse_eq_orElse, Option.orElse_eq_or, Option.some_or, hCopy]
  have hAlu : (m.set .rdi x).exec? (.alu .sub (.imm a.first.toInt) (.reg .rdi τ.held)) =
      some ((m.set .rdi x).unflagged.set .rdi y) := by
    simp only [exec?, Operand.width?, alu?, read?, write?,
      if_true, Option.bind_eq_bind, Option.bind_some,
      Option.orElse_eq_orElse, Option.orElse_eq_or,
      Option.some_or, aluResult?, set_regs_self, hWord]
    rw [hRep, ofInt_bound hWide a.first.toInt, ← Word.ofInt_sub, hSub]
  refine ⟨{ (m.set .rdi x).unflagged.set .rdi y with
    flags? := some (.ofSub (BitVec.ofInt τ.held.bits (v - τ.convert a.first.toInt))
      (BitVec.ofInt τ.held.bits (a.last - a.first).toInt)) }, ?_, ?_, ?_, ?_⟩
  · simp only [execAll?, hMov, hAlu, Option.bind_some]
    simp only [exec?, Operand.width?, alu?, read?, if_true, Option.bind_eq_bind, Option.bind_some,
      Option.orElse_eq_orElse, Option.orElse_eq_or,
      Option.some_or, set_regs_self, hDistance]
  · have hCovers : _ ↔ τ.Covers a v :=
      IntType.Has.distance_le (IntType.has_convert τ a.first.toInt)
        (IntType.has_convert τ a.last.toInt) hHas hOrder
        (IntType.bits_eq_held hWide).le
    refine congrArg some ?_
    rw [ofInt_span hWide, Bool.eq_iff_iff, decide_eq_true_iff, ← hCovers]
    simp only [Flags.ofSub, BitVec.ult, Bool.or_eq_true, decide_eq_true_eq, beq_iff_eq]
    rw [← BitVec.toNat_inj]
    omega
  · exact (kept_set m x (by decide) (by decide)).trans ((kept_flags _ none).trans
        ((kept_set _ y (by decide) (by decide)).trans (kept_flags _ _)))
  · rfl

/- The code of an arm tests whether the value is one of it. -/
theorem exec_armTest (hWide : τ.promote = τ) (hHas : τ.Has v)
    (hRep : τ.Represents v (m.regs .rax))
    (hOrder : τ.convert a.first.toInt ≤ τ.convert a.last.toInt) :
    ∃ is c, armTest τ.held a = is ++ [.jumpIf c (.label (.named a.label))] ∧
      Tests is c (τ.Covers a v) m := by
  unfold armTest
  split
  · rename_i hSingle
    exact ⟨_, _, rfl, tests_value hWide hHas hRep (beq_iff_eq.mp hSingle)⟩
  · exact ⟨_, _, rfl, tests_range hWide hHas hRep hOrder⟩

end Codegen

------------
-- Dispatch
------------

namespace Codegen

open Machine

variable {m : Machine} {τ : IntType} {arms : List CaseArm}
  {default? : Option Bytes} {brk : Bytes} {v : Int}

/-
  Wherever some lines stand, they lead to a jump to a label;
  the stack and the first register stay as they are.
-/
def Lands
    (code : List Line)
    (m : Machine)
    (l : Bytes) : Prop :=
  ∀ before after, ∃ s : State,
    Runs (before ++ code ++ after) ⟨before.length, m⟩ s ∧
    step? (before ++ code ++ after) s = (target? (before ++ code ++ after)
        (.label (.named l))).map (⟨·, s.machine⟩) ∧
    Kept m s.machine ∧ s.machine.regs .rax = m.regs .rax

variable {l : Bytes}

/- A jump at the start of some lines. -/
theorem lands_jump {i : Instr} (hJumps : Jumps i (.named l) m) (rest : List Line) :
    Lands (.instr i :: rest) m l := by
  intro before after
  refine ⟨_, .refl, ?_, .refl m, rfl⟩
  unfold step?
  rw [List.append_assoc, List.cons_append, getElem?_after]
  exact hJumps _ _

/- Lines have a largest number among their labels. -/
theorem exists_fresh (code : List Line) : ∃ lo, Fresh lo code := by
  induction code with
  | nil => exact ⟨0, fun _ _ hMem => by cases hMem⟩
  | cons line code ih =>
    obtain ⟨lo, hFresh⟩ := ih
    cases line with
    | label l =>
      cases l with
      | numbered role n =>
        refine ⟨max n lo, fun role' n' hMem => ?_⟩
        rcases List.mem_cons.mp hMem with hEq | hMem
        · cases hEq
          exact le_max_left ..
        · exact (hFresh _ _ hMem).trans (le_max_right ..)
      | _ => exact ⟨lo, fun _ _ hMem => hFresh _ _ (by simpa using hMem)⟩
    | _ => exact ⟨lo, fun _ _ hMem => hFresh _ _ (by simpa using hMem)⟩

/- Instructions before lines that lead to a jump. -/
theorem Lands.after_takes {code first : List Line} {m' : Machine}
    (hTakes : ∀ lo, Takes lo first m m') (hKept : Kept m m') (hRax : m'.regs .rax = m.regs .rax)
    (hLands : Lands code m' l) : Lands (first ++ code) m l := by
  intro before after
  obtain ⟨s, hRuns, hStep, hRest, hSame⟩ := hLands (before ++ first) after
  obtain ⟨lo, hFresh⟩ := exists_fresh before
  have hFirst := hTakes lo before (code ++ after) hFresh
  simp only [List.append_assoc, List.length_append] at hFirst hRuns hStep ⊢
  exact ⟨s, hFirst.trans hRuns, hStep, hKept.trans hRest, hSame.trans hRax⟩

/- The jumps behind all arms. -/
theorem lands_otherwise (default? : Option Bytes) (brk : Bytes) (m : Machine) :
    Lands ((dispatch τ.held [] default? brk).map .instr) m (default?.getD brk) := by
  cases default? with
  | none => exact lands_jump (jumps_jump _ m) []
  | some l => exact lands_jump (jumps_jump _ m) _

theorem dispatch_cons (w : Width) (a : CaseArm) :
    dispatch w (a :: arms) default? brk = armTest w a ++ dispatch w arms default? brk := by
  simp only [dispatch, List.flatMap_cons, List.append_assoc]

/- The code of all arms goes to the label for the value. -/
theorem lands_dispatch (hWide : τ.promote = τ) (hHas : τ.Has v)
    (hOrder : ∀ a ∈ arms, τ.convert a.first.toInt ≤ τ.convert a.last.toInt)
    (hRep : τ.Represents v (m.regs .rax)) :
    Lands ((dispatch τ.held arms default? brk).map .instr) m (τ.landing arms default? brk v) := by
  induction arms generalizing m with
  | nil => exact lands_otherwise default? brk m
  | cons a arms ih =>
    obtain ⟨is, c, hCode, m', hExec, hTaken, hKept, hRax⟩ :=
      exec_armTest hWide hHas hRep (hOrder a List.mem_cons_self)
    rw [dispatch_cons, hCode, List.append_assoc, List.map_append]
    refine Lands.after_takes (fun _ => takes_instrs hExec) hKept hRax ?_
    by_cases hCovers : τ.Covers a v
    · have hLabel : τ.landing (a :: arms) default? brk v =
          a.label := by
        simp only [IntType.landing, List.find?_cons, decide_eq_true hCovers]
      rw [hLabel]
      rw [decide_eq_true hCovers] at hTaken
      exact lands_jump (jumps_jumpIf _ hTaken) _
    · have hLabel : τ.landing (a :: arms) default? brk v = τ.landing arms default? brk v := by
        simp only [IntType.landing, List.find?_cons, decide_eq_false hCovers]
      rw [hLabel]
      rw [decide_eq_false hCovers] at hTaken
      exact Lands.after_takes (fun _ => takes_jumpIf _ hTaken) (.refl m') rfl (ih (fun b hMem =>
          hOrder b (List.mem_cons_of_mem a hMem)) (hRax ▸ hRep))

/-
  The code of a switch is that of its controlling expression,
  that of its arms and that of its body.  With a value of 32 or
  64 bits in the first register the arms lead to the label of
  the first one in the order of the source that has the value,
  to the default if there is none, and past the switch if there
  is no default either.
-/
theorem stmt_switch_lands {c : Context} {t : Token} {test : Expr} {body : Stmt} {k : Counters}
    {r : Emitted Unit} (hRun : stmt c (.switch t test body arms default? brk) k = .ok r)
    (hWide : τ.promote = τ) (hSize : test.type.size c.records * 8 = τ.bits)
    (hOrder : ∀ a ∈ arms, τ.convert a.first.toInt ≤ τ.convert a.last.toInt) :
    ∃ first rest, (do Emit.loc t; expr c .value test : Emit Unit) k = .ok first ∧
      (do stmt c body; Emit.label (.named brk) : Emit Unit) first.counters = .ok rest ∧
      ∃ code, r.code = first.code ++ code ++ rest.code ∧
        ∀ m v, τ.Has v → τ.Represents v (m.regs .rax) →
          Lands code m (τ.landing arms default? brk v) := by
  have hWidth : (if test.type.size c.records = 8 then
      Width.quad else .long) = τ.held := by
    obtain ⟨u, rfl | rfl⟩ := IntType.wide_cases hWide
    · exact if_neg fun hEq => by
        rw [hEq] at hSize
        cases hSize
    · refine if_pos ?_
      have hBits : ((IntType.of .long u).bits : Int) = 64 := rfl
      omega
  obtain ⟨loc, _, hLoc, hMore, rfl⟩ := Emit.exists_steps hRun
  obtain ⟨value, _, hValue, hArms, rfl⟩ := Emit.exists_steps hMore
  obtain ⟨arm, rest, hArm, hRest, rfl⟩ := Emit.exists_steps hArms
  rw [hWidth] at hArm
  cases hArm
  refine ⟨⟨value.value, loc.code ++ value.code, value.counters⟩, rest, ?_, hRest, _,
    by simp only [List.append_assoc], fun m v hHas hRep => lands_dispatch hWide hHas hOrder hRep⟩
  change Emit.andThen (Emit.loc t) (fun _ => expr c .value test) k = _
  simp only [Emit.andThen, hLoc, hValue]

/- Two arms that overlap, one of them around zero. -/
def overlapping : List CaseArm :=
  [⟨ascii "first", -3, 5⟩, ⟨ascii "second", 5, 9⟩]

theorem stmt_switch_lands_overlapping :
    ∃ r code, stmt ⟨⟨[], #[], #[], #[]⟩, false, default, default⟩
        (.switch default (.num ⟨default, some .int⟩ 5)
          (.block default []) overlapping none (ascii "past"))
        {} = .ok r ∧ code <:+: r.code ∧
      (∀ m : Machine, IntType.int.Represents 5 (m.regs .rax) → Lands code m (ascii "first")) ∧
      ∀ m : Machine, IntType.int.Represents 10 (m.regs .rax) → Lands code m (ascii "past") := by
  obtain ⟨r, hRun⟩ : ∃ r, stmt ⟨⟨[], #[], #[], #[]⟩, false, default, default⟩
        (.switch default (.num ⟨default, some .int⟩ 5)
          (.block default []) overlapping none (ascii "past"))
        {} = .ok r := ⟨_, rfl⟩
  obtain ⟨first, rest, -, -, code, hCode, hLands⟩ :=
    stmt_switch_lands (τ := .int) hRun (by decide) (by decide) (by decide)
  refine ⟨r, code, hRun, ?_, fun m hRep => ?_, fun m hRep => ?_⟩
  · rw [hCode]
    exact ⟨first.code, rest.code, rfl⟩
  · exact hLands m 5 (by decide) hRep
  · exact hLands m 10 (by decide) hRep

end Codegen

end CCompiler
