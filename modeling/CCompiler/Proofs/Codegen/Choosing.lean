import Mathlib
import CCompiler.Codegen.Tree
import CCompiler.Proofs.Codegen.Converting

/-
  What code does that keeps a word on the stack, or that
  chooses between pieces of code.

  A piece that is not run still has to be written, so the
  lemmas ask of it only that it does something under a
  condition, which may be false.

  Main declarations:
    * `Codegen.Lowered`, `Codegen.does_operands`
    * `Codegen.does_choose`
    * `Codegen.does_shortCircuit`
-/

------------
-- The Stack
------------

namespace CCompiler

open Assembly

namespace Codegen

open Machine

variable {m m₁ m₂ m₃ : Machine}

/- One machine has a word more on its stack than another. -/
structure Lowered (m m' : Machine) : Prop where
  stack : m'.regs .rsp = m.regs .rsp - 8
  frame : m'.regs .rbp = m.regs .rbp
  memory : ∀ a, m.regs .rsp ≤ a → m'.mem a = m.mem a

/- The first register pushed. -/
theorem exec_push (hRoom : 8 ≤ (m.regs .rsp).toNat) :
    ∃ m', m.execAll? [.push .rax] = some m' ∧ Lowered m m' ∧
      m'.mem.load (m'.regs .rsp) .quad = m.regs .rax := by
  refine ⟨_, rfl, ⟨?_, ?_, ?_⟩, ?_⟩
  · exact set_regs_self m .rsp _
  · exact set_regs_of_ne (r := .rsp) (s := .rbp) m (m.regs .rsp - 8) (by decide)
  · intro a hAbove
    exact Memory.store_above m.mem _ hRoom hAbove
  · change Memory.load _ ((m.set .rsp _).regs .rsp) _ = _
    rw [set_regs_self]
    exact Memory.load_store m.mem _ .quad _

/- A word that was pushed is popped after code that keeps it. -/
theorem exec_pop {x : BitVec 64} (hRoom : 8 ≤ (m₁.regs .rsp).toNat) (hLowered : Lowered m₁ m₂)
    (hWord : m₂.mem.load (m₂.regs .rsp) .quad = x) (hKept : Kept m₂ m₃) :
    ∃ m', m₃.execAll? [.pop .rdi] = some m' ∧ Kept m₁ m' ∧ m'.regs .rax = m₃.regs .rax ∧
      m'.regs .rdi = x := by
  have hTop : m₃.regs .rsp = m₁.regs .rsp - 8 := hKept.stack.trans hLowered.stack
  have hLoad : m₃.mem.load (m₃.regs .rsp) .quad = x := by
    have hInside : (m₂.regs .rsp).toNat + Width.bytes .quad ≤ 2 ^ 64 := by
      rw [hLowered.stack]
      simp only [Width.bytes]
      bv_omega
    rw [hKept.stack, ← hWord]
    exact Memory.load_above hKept.memory (BitVec.le_refl _) hInside
  have hExec : m₃.execAll? [.pop .rdi] = some ((m₃.set .rsp (m₃.regs .rsp + 8)).set .rdi x) := by
    rw [← hLoad]
    rfl
  refine ⟨_, hExec, ⟨?_, ?_, ?_⟩, ?_, ?_⟩
  · rw [set_regs_of_ne _ _ (by decide), set_regs_self, hTop, BitVec.sub_add_cancel]
  · rw [set_regs_of_ne _ _ (by decide), set_regs_of_ne _ _ (by decide)]
    exact hKept.frame.trans hLowered.frame
  · intro a hAbove
    have hBelow : m₂.regs .rsp ≤ a := by
      rw [hLowered.stack]
      rw [BitVec.le_def] at hAbove ⊢
      bv_omega
    exact (hKept.memory a hBelow).trans (hLowered.memory a hAbove)
  · rw [set_regs_of_ne _ _ (by decide), set_regs_of_ne _ _ (by decide)]
  · exact set_regs_self _ _ _

/- A value, if there is one, ends up in the first register. -/
def Leaves
    (τ : IntType)
    (v? : Option Int)
    (m m' : Machine) : Prop :=
  Kept m m' ∧ ∀ v ∈ v?, τ.Represents v (m'.regs .rax)

variable {x y : Emit Unit} {P Q Q₁ Q₂ : Machine → Prop}
  {σ τ : IntType} {a? b? v? : Option Int} {lo hi : Nat}

theorem within_instrs (is : List Instr) : Within lo hi (is.map .instr) := by
  intro l hMem
  simp at hMem

variable {is : List Instr} {R : Machine → Machine → Prop}

/- Code that computes a value and works on it. -/
theorem does_then (hInner : Does 0 x Q (Leaves τ a?)) (hFirst : ∀ m, P m → Q m)
    (hLast : ∀ m m₁, P m → Kept m m₁ →
      (∀ a ∈ a?, τ.Represents a (m₁.regs .rax)) →
      ∃ m', m₁.execAll? is = some m' ∧ R m m') :
    Does 0 (do
      x
      Emit.code is) P R := by
  intro k
  rcases hInner k with ⟨r, hRun, hActs⟩
  refine ⟨⟨(), r.code ++ is.map .instr, r.counters⟩, ?_, hActs.depth, hActs.labels,
    hActs.within.append (within_instrs is) hActs.labels le_rfl, ?_⟩
  · simp only [bind, Emit.andThen, hRun]
    rfl
  · intro m hP
    rcases hActs.runs m (hFirst m hP) with
      ⟨m₁, hTakes, hKept, hRep⟩
    rcases hLast m m₁ hP hKept hRep with ⟨m', hExec, hR⟩
    exact ⟨m', hTakes.append hActs.within.fresh hActs.labels (takes_instrs hExec), hR⟩

/-
  Code that computes one value, keeps it on the stack while it
  computes another, and works on both.
-/
theorem does_operands (hRight : Does 0 y Q₂ (Leaves σ b?)) (hLeft : Does 0 x Q₁ (Leaves τ a?))
    (hFirst : ∀ m, P m → 8 ≤ (m.regs .rsp).toNat ∧ Q₂ m)
    (hBetween : ∀ m m₁ m₂, P m → Kept m m₁ → Lowered m₁ m₂ → Q₁ m₂)
    (hLast : ∀ m m₁, P m → Kept m m₁ →
      (∀ a ∈ a?, τ.Represents a (m₁.regs .rax)) →
      (∀ b ∈ b?, σ.Represents b (m₁.regs .rdi)) →
      ∃ m', m₁.execAll? is = some m' ∧ R m m') :
    Does 0 (do
      y
      Emit.push
      x
      Emit.pop .rdi
      Emit.code is) P R := by
  intro k
  rcases hRight k with ⟨r, hRun, hActs⟩
  rcases hLeft { r.counters with
    depth := r.counters.depth + 1 } with ⟨s, hMore, hThen⟩
  refine ⟨⟨(), r.code ++ ([Instr.push .rax].map .instr ++
    (s.code ++ ([Instr.pop .rdi].map .instr ++ is.map .instr))),
    { s.counters with depth := s.counters.depth - 1 }⟩, ?_, ?_⟩
  · simp only [bind, Emit.andThen, hRun, Emit.push, Emit.code,
      Emit.lines, Emit.deepen, hMore, Emit.pop, List.append_nil]
    rfl
  · have hDepth := hThen.depth
    have hOwn := hActs.within
    refine ⟨?_, hActs.labels.trans hThen.labels, ?_, ?_⟩
    · simp only [hActs.depth] at hDepth ⊢
      omega
    · have hEnd : Within s.counters.labels s.counters.labels
          ([Instr.pop .rdi].map .instr ++ is.map .instr) :=
        (within_instrs _).append (within_instrs _) le_rfl le_rfl
      have hInner := hThen.within.append hEnd hThen.labels le_rfl
      exact hOwn.append ((within_instrs _).append hInner
        le_rfl hThen.labels) hActs.labels hThen.labels
    · intro m hP
      rcases hFirst m hP with ⟨hRoom, hQ⟩
      rcases hActs.runs m hQ with ⟨m₁, hTakes₁, hKept₁, hB⟩
      have hRoom₁ : 8 ≤ (m₁.regs .rsp).toNat := by
        rw [hKept₁.stack]
        exact hRoom
      rcases exec_push hRoom₁ with
        ⟨m₂, hPush, hLowered, hWord⟩
      rcases hThen.runs m₂ (hBetween m m₁ m₂ hP hKept₁ hLowered) with
        ⟨m₃, hTakes₃, hKept₃, hA⟩
      rcases exec_pop hRoom₁ hLowered hWord hKept₃ with
        ⟨m₄, hPop, hKept₄, hRax, hRdi⟩
      rcases hLast m m₄ hP (hKept₁.trans hKept₄)
        (by rw [hRax]; exact hA) (by rw [hRdi]; exact hB) with
        ⟨m', hExec, hR⟩
      refine ⟨m', ?_, hR⟩
      have hEnd : Takes s.counters.labels ([Instr.pop .rdi].map .instr ++ is.map .instr) m₃ m' :=
        (takes_instrs hPop).append (fresh_instrs _) le_rfl (takes_instrs hExec)
      have hInner := hTakes₃.append hThen.within.fresh hThen.labels hEnd
      exact hTakes₁.append hOwn.fresh hActs.labels
        ((takes_instrs hPush).append (fresh_instrs _) le_rfl hInner)

end Codegen

variable {code : List Line}

------------
-- Choices
------------

namespace Codegen

open Machine

variable {x y z : Emit Unit} {P Q Q₁ Q₂ : Machine → Prop}
  {σ τ : IntType} {a? b? c? v? : Option Int} {lo hi n : Nat}

/- A label of another role or another number is not there. -/
theorem not_mem_of_within {role : LabelRole} (hWithin : Within lo hi code) (hOutside : n ≤ lo) :
    Line.label (.numbered role n) ∉ code := by
  intro hMem
  rcases hWithin _ hMem with ⟨role', n', hEq, hLow, -⟩
  cases hEq
  omega

/- Code that computes a value and compares it with zero. -/
theorem takes_test {m m₁ : Machine} {a : Int} (rs : Records) (hTakes : Takes lo code m m₁)
    (hFresh : Fresh hi code) (hLe : lo ≤ hi) (hKept : Kept m m₁) (hHas : τ.Has a)
    (hRep : τ.Represents a (m₁.regs .rax)) :
    ∃ m', Takes lo (code ++ (compareZero rs τ.toCType).map .instr) m m' ∧ Kept m m' ∧
      m'.taken? .equal = some (decide (a = 0)) ∧
      m'.taken? .notEqual = some (decide (a ≠ 0)) := by
  rcases exec_compareZero rs hHas hRep with
    ⟨f, hCompare, hZero⟩
  refine ⟨_, hTakes.append hFresh hLe
    (takes_instrs hCompare), hKept.trans (kept_flags m₁ _), ?_, ?_⟩
  · simp [taken?, Cond.holds?, hZero]
  · simp [taken?, Cond.holds?, hZero]

section Lines

variable {i j k : Nat} {test thn els : List Line}
  {m m₁ m₂ : Machine}

/- The lines of a choice with number `n`. -/
def choiceLines (n : Nat) (test thn els : List Line) :
    List Line :=
  test ++ .instr (.jumpIf .equal (.label (.numbered .elseArm n))) ::
    (thn ++ [.instr (.jump (.label (.numbered .finish n)))])
    ++ [.label (.numbered .elseArm n)] ++
    (els ++ [.label (.numbered .finish n)])

/-
  The labels of three pieces of code that are numbered after
  `n`, one piece after the other.
-/
structure Numbered
    (n i j k : Nat)
    (test thn els : List Line) : Prop where
  test : Within n i test
  thn : Within i j thn
  els : Within j k els
  first : n ≤ i
  next : i ≤ j
  last : j ≤ k

theorem Numbered.within (hNumbered : Numbered n i j k test thn els) (hNew : lo < n) :
    Within lo k (choiceLines n test thn els) := by
  have hTest := hNumbered.test
  have hThen := hNumbered.thn
  have hElse := hNumbered.els
  have hFirst := hNumbered.first
  have hNext := hNumbered.next
  have hLast := hNumbered.last
  intro l hMem
  simp only [choiceLines, List.mem_append, List.mem_cons,
    List.not_mem_nil, or_false, reduceCtorEq, false_or,
    Line.label.injEq] at hMem
  rcases hMem with ((hMem | hMem) | rfl) | hMem | rfl
  · rcases hTest l hMem with ⟨role, n', hEq, hLow, hHigh⟩
    exact ⟨role, n', hEq, by omega, by omega⟩
  · rcases hThen l hMem with ⟨role, n', hEq, hLow, hHigh⟩
    exact ⟨role, n', hEq, by omega, by omega⟩
  · exact ⟨_, n, rfl, hNew, by omega⟩
  · rcases hElse l hMem with ⟨role, n', hEq, hLow, hHigh⟩
    exact ⟨role, n', hEq, by omega, by omega⟩
  · exact ⟨_, n, rfl, hNew, by omega⟩

/- A choice whose value is not zero. -/
theorem takes_thn (hNumbered : Numbered n i j k test thn els) (hNew : lo < n)
    (hTest : Takes n test m m₁) (hTaken : m₁.taken? .equal = some false)
    (hThen : Takes i thn m₁ m₂) : Takes lo (choiceLines n test thn els) m m₂ := by
  have hFrom := hNumbered.first
  have hNext := hNumbered.next
  have hSkip : Takes i [.instr (.jumpIf .equal (.label (.numbered .elseArm n)))] m₁ m₁ :=
    takes_jumpIf _ hTaken
  have hBefore := hTest.append hNumbered.test.fresh hFrom
    (hSkip.append (fresh_instrs [_]) le_rfl hThen)
  have hJumps := jumps_jump (.numbered .finish n) m₂
  have hAll := hBefore.jump (b := .label (.numbered .elseArm n) :: els) hNew ?_ ?_ hJumps
  · simpa [choiceLines] using hAll
  · simp only [List.mem_append, List.mem_singleton, reduceCtorEq, false_or, not_or]
    exact ⟨not_mem_of_within hNumbered.test le_rfl, not_mem_of_within hNumbered.thn hFrom⟩
  · simp only [List.mem_cons, Line.label.injEq,
      Label.numbered.injEq, reduceCtorEq, false_and, false_or]
    exact not_mem_of_within hNumbered.els (by omega)

/- A choice whose value is zero. -/
theorem takes_els (hNumbered : Numbered n i j k test thn els) (hNew : lo < n)
    (hTest : Takes n test m m₁) (hTaken : m₁.taken? .equal = some true)
    (hElse : Takes j els m₁ m₂) : Takes lo (choiceLines n test thn els) m m₂ := by
  have hFrom := hNumbered.first
  have hNext := hNumbered.next
  have hJumps := jumps_jumpIf (.numbered .elseArm n) hTaken
  have hJump := hTest.jump (b := thn ++ [.instr (.jump (.label (.numbered .finish n)))])
    hNew (not_mem_of_within hNumbered.test le_rfl) ?_ hJumps
  · refine hJump.append ?_ (by omega)
      (hElse.append hNumbered.els.fresh hNumbered.last (takes_label _ m₂))
    intro role n' hMem
    simp only [List.mem_append, List.mem_cons, List.not_mem_nil, or_false, reduceCtorEq, false_or,
      Line.label.injEq, Label.numbered.injEq] at hMem
    rcases hMem with (hMem | hMem) | ⟨-, rfl⟩
    · exact (hNumbered.test.fresh role n' hMem).trans hNext
    · exact hNumbered.thn.fresh role n' hMem
    · omega
  · simp only [List.mem_append, List.mem_singleton, reduceCtorEq, or_false]
    exact not_mem_of_within hNumbered.thn hFrom

end Lines

/- A choice by a value, if there is one. -/
theorem does_choose (rs : Records) (hTest : Does 0 x Q (Leaves τ a?))
    (hThen : Does 0 y Q₁ (Leaves σ b?)) (hElse : Does 0 z Q₂ (Leaves σ c?))
    (hFirst : ∀ m, P m → Q m ∧ ∃ a ∈ a?, τ.Has a)
    (hTrue : ∀ m m₁ a, P m → Kept m m₁ → a ∈ a? → a ≠ 0 → Q₁ m₁ ∧ v? = b?)
    (hFalse : ∀ m m₁, P m → Kept m m₁ → 0 ∈ a? → Q₂ m₁ ∧ v? = c?) :
    Does 0 (choose rs τ.toCType x y z false) P (Leaves σ v?) := by
  intro k
  rcases hTest { k with labels := k.labels + 1 } with
    ⟨r, hRun, hActs⟩
  rcases hThen r.counters with ⟨s, hRunThen, hActsThen⟩
  rcases hElse s.counters with ⟨u, hRunElse, hActsElse⟩
  have hNumbered : Numbered (k.labels + 1) r.counters.labels s.counters.labels u.counters.labels
      (r.code ++ (compareZero rs τ.toCType).map .instr)
      s.code u.code :=
    { test := hActs.within.append (within_instrs _)
        hActs.labels le_rfl
      thn := hActsThen.within
      els := hActsElse.within
      first := hActs.labels
      next := hActsThen.labels
      last := hActsElse.labels }
  refine ⟨⟨(), choiceLines (k.labels + 1) (r.code ++ (compareZero rs τ.toCType).map .instr)
    s.code u.code, u.counters⟩, ?_, ?_⟩
  · simp only [choose, bind, Emit.andThen, Emit.fresh, hRun,
      Emit.code, Emit.lines, hRunThen, hRunElse, Emit.label,
      List.nil_append, List.append_assoc, Bool.false_eq_true,
      if_false, List.map_cons, List.map_nil, choiceLines, List.cons_append]
  · have hDepth := hActs.depth
    have hDepthThen := hActsThen.depth
    have hDepthElse := hActsElse.depth
    simp only at hDepth
    refine ⟨by simp only; omega, ?_, hNumbered.within (Nat.lt_succ_self _), ?_⟩
    · have hLe := hNumbered.first.trans (hNumbered.next.trans hNumbered.last)
      exact (Nat.le_succ _).trans hLe
    · intro m hP
      rcases hFirst m hP with ⟨hQ, a, hA, hHas⟩
      rcases hActs.runs m hQ with ⟨m₁, hTakes, hKept, hRep⟩
      rcases takes_test rs hTakes hActs.within.fresh hActs.labels hKept hHas (hRep a hA) with
        ⟨m₂, hTakesTest, hKept₂, hTaken, -⟩
      by_cases hZero : a = 0
      · rcases hFalse m m₂ hP hKept₂ (hZero ▸ hA) with
          ⟨hQ₂, hValue⟩
        rcases hActsElse.runs m₂ hQ₂ with
          ⟨m₃, hTakesElse, hKept₃, hOut⟩
        rw [hValue]
        exact ⟨m₃, takes_els hNumbered (Nat.lt_succ_self _)
          hTakesTest (by rw [hTaken]; simp [hZero])
          hTakesElse, hKept₂.trans hKept₃, hOut⟩
      · rcases hTrue m m₂ a hP hKept₂ hA hZero with
          ⟨hQ₁, hValue⟩
        rcases hActsThen.runs m₂ hQ₁ with
          ⟨m₃, hTakesThen, hKept₃, hOut⟩
        rw [hValue]
        exact ⟨m₃, takes_thn hNumbered (Nat.lt_succ_self _)
          hTakesTest (by rw [hTaken]; simp [hZero])
          hTakesThen, hKept₂.trans hKept₃, hOut⟩

end Codegen

------------
-- Operands That May Be Left Out
------------

namespace Codegen

open Machine

variable {x y : Emit Unit} {P Q₁ Q₂ : Machine → Prop}
  {σ τ : IntType} {a? b? v? : Option Int} {lo n : Nat}

/- Whether a value decides an operator by itself. -/
def decides (isAnd : Bool) (a : Int) : Bool :=
  decide (a = 0) == isAnd

/- The role of the label where an operator is decided. -/
def decidedRole (isAnd : Bool) : LabelRole :=
  if isAnd then .whenFalse else .whenTrue

/- The jump that is taken if a value decides. -/
def leaveInstr (isAnd : Bool) (n : Nat) : Instr :=
  .jumpIf (if isAnd then .equal else .notEqual)
    (.label (.numbered (decidedRole isAnd) n))

/- The value of an operator that was decided, or was not. -/
def outcome (isAnd decided : Bool) : Int :=
  if isAnd = decided then 0 else 1

section Lines

variable {i j : Nat} {left right : List Line}
  {isAnd : Bool} {m m₁ m₂ : Machine} {a : Int}

/- The lines of an operator with number `n`. -/
def circuitLines (isAnd : Bool) (n : Nat)
    (left right : List Line) : List Line :=
  left ++ .instr (leaveInstr isAnd n) ::
    (right ++ .instr (leaveInstr isAnd n) ::
      [ .instr (.mov (.imm (outcome isAnd false)) .rax),
        .instr (.jump (.label (.numbered .finish n))) ]) ++
    [.label (.numbered (decidedRole isAnd) n)] ++
    [ .instr (.mov (.imm (outcome isAnd true)) .rax),
      .label (.numbered .finish n) ]

theorem decidedRole_ne (isAnd : Bool) : decidedRole isAnd ≠ .finish := by cases isAnd <;> decide

/- A constant in the first register. -/
theorem takes_constant (m : Machine) (v : Int) :
    Takes lo [.instr (.mov (.imm v) .rax)] m (m.set .rax (BitVec.ofInt 64 v)) := takes_instr rfl

/- A value that was compared with zero. -/
structure Compared (m : Machine) (a : Int) : Prop where
  equal : m.taken? .equal = some (decide (a = 0))
  notEqual : m.taken? .notEqual = some (decide (a ≠ 0))

theorem Compared.leave (hCompared : Compared m a) (isAnd : Bool) :
    m.taken? (if isAnd then .equal else .notEqual) =
      some (decides isAnd a) := by
  cases isAnd
  · refine hCompared.notEqual.trans ?_
    by_cases hZero : a = 0 <;> simp [decides, hZero]
  · refine hCompared.equal.trans ?_
    by_cases hZero : a = 0 <;> simp [decides, hZero]

theorem within_circuitLines (hLeft : Within n i left) (hRight : Within i j right) (hFirst : n ≤ i)
    (hNext : i ≤ j) (hNew : lo < n) : Within lo j (circuitLines isAnd n left right) := by
  intro l hMem
  simp only [circuitLines, List.mem_append, List.mem_cons,
    List.not_mem_nil, or_false, reduceCtorEq, false_or,
    Line.label.injEq] at hMem
  rcases hMem with ((hMem | hMem) | rfl) | rfl
  · rcases hLeft l hMem with ⟨role, n', hEq, hLow, hHigh⟩
    exact ⟨role, n', hEq, by omega, by omega⟩
  · rcases hRight l hMem with ⟨role, n', hEq, hLow, hHigh⟩
    exact ⟨role, n', hEq, by omega, by omega⟩
  · exact ⟨_, n, rfl, hNew, by omega⟩
  · exact ⟨_, n, rfl, hNew, by omega⟩

/- Lines whose labels are those of both operands and one more. -/
theorem fresh_parts (role : LabelRole) (hLeft : Within n i left) (hRight : Within i j right)
    (hFirst : n ≤ i) (hNext : i ≤ j)
    (hParts : ∀ l, Line.label l ∈ code →
      Line.label l ∈ left ∨ Line.label l ∈ right ∨ l = .numbered role n) : Fresh j code := by
  intro role' n' hMem
  rcases hParts _ hMem with hMem | hMem | hEq
  · exact (hLeft.fresh role' n' hMem).trans hNext
  · exact hRight.fresh role' n' hMem
  · cases hEq
    exact hFirst.trans hNext

/- The lines after the label where an operator is decided. -/
theorem takes_decided (isAnd : Bool) (n hi : Nat) (m : Machine) :
    Takes hi [ .instr (.mov (.imm (outcome isAnd true)) .rax), .label (.numbered .finish n) ] m
      (m.set .rax (BitVec.ofInt 64 (outcome isAnd true))) :=
  (takes_constant m _).append (fresh_instrs [_]) le_rfl (takes_label _ _)

/- The first operand decides. -/
theorem takes_left (hLeft : Within n i left) (hRight : Within i j right) (hFirst : n ≤ i)
    (hNext : i ≤ j) (hNew : lo < n) (hTakes : Takes n left m m₁) (hCompared : Compared m₁ a)
    (hDecides : decides isAnd a = true) :
    Takes lo (circuitLines isAnd n left right) m (m₁.set .rax
        (BitVec.ofInt 64 (outcome isAnd true))) := by
  have hTaken := hCompared.leave isAnd
  rw [hDecides] at hTaken
  have hJumps := jumps_jumpIf (.numbered (decidedRole isAnd) n) hTaken
  have hJump := hTakes.jump (b := right ++ .instr (leaveInstr isAnd n) ::
      [ .instr (.mov (.imm (outcome isAnd false)) .rax),
        .instr (.jump (.label (.numbered .finish n))) ])
    hNew (not_mem_of_within hLeft le_rfl) ?_ hJumps
  · refine hJump.append (fresh_parts (decidedRole isAnd) hLeft hRight hFirst hNext ?_) (by omega)
      (takes_decided isAnd n j m₁)
    intro l hMem
    simpa [or_assoc] using hMem
  · simp only [List.mem_append, List.mem_cons, List.not_mem_nil, or_false, reduceCtorEq]
    exact not_mem_of_within hRight hFirst

/- Both operands were computed and compared. -/
theorem takes_both (hLeft : Within n i left) (hFirst : n ≤ i) (hTakes : Takes n left m m₁)
    (hCompared : Compared m₁ a) (hDecides : decides isAnd a = false) (hRun : Takes i right m₁ m₂) :
    Takes n (left ++ .instr (leaveInstr isAnd n) :: right) m m₂ := by
  have hTaken := hCompared.leave isAnd
  rw [hDecides] at hTaken
  have hSkip : Takes i [.instr (leaveInstr isAnd n)] m₁ m₁ := takes_jumpIf _ hTaken
  exact hTakes.append hLeft.fresh hFirst (hSkip.append (fresh_instrs [_]) le_rfl hRun)

/- The second operand decides, or does not. -/
theorem takes_right (hLeft : Within n i left) (hRight : Within i j right) (hFirst : n ≤ i)
    (hNext : i ≤ j) (hNew : lo < n)
    (hTakes : Takes n (left ++ .instr (leaveInstr isAnd n) :: right) m m₁)
    (hCompared : Compared m₁ a) :
    Takes lo (circuitLines isAnd n left right) m (m₁.set .rax (BitVec.ofInt 64
        (outcome isAnd (decides isAnd a)))) := by
  have hTaken := hCompared.leave isAnd
  have hAbsent : ∀ role, Line.label (.numbered role n) ∉
      left ++ .instr (leaveInstr isAnd n) :: right := by
    intro role
    simp only [List.mem_append, List.mem_cons, reduceCtorEq, false_or, not_or]
    exact ⟨not_mem_of_within hLeft le_rfl, not_mem_of_within hRight hFirst⟩
  cases hDecides : decides isAnd a with
  | true =>
    rw [hDecides] at hTaken
    have hJumps := jumps_jumpIf (.numbered (decidedRole isAnd) n) hTaken
    have hJump := hTakes.jump (b := [ .instr (.mov (.imm (outcome isAnd false)) .rax),
        .instr (.jump (.label (.numbered .finish n))) ])
      hNew (hAbsent _) (by simp) hJumps
    have hAll := hJump.append (fresh_parts (decidedRole isAnd) hLeft hRight hFirst hNext ?_)
      (by omega) (takes_decided isAnd n j m₁)
    · simpa [circuitLines, leaveInstr] using hAll
    · intro l hMem
      simpa [or_assoc] using hMem
  | false =>
    rw [hDecides] at hTaken
    have hSkip : Takes j [.instr (leaveInstr isAnd n)] m₁ m₁ := takes_jumpIf _ hTaken
    have hFresh : Fresh j (left ++ .instr (leaveInstr isAnd n) :: right) := by
      refine fresh_parts .finish hLeft hRight hFirst hNext fun l hMem => ?_
      rw [← or_assoc]
      exact .inl (by simpa using hMem)
    have hBefore := hTakes.append hFresh (hFirst.trans hNext)
      (hSkip.append (fresh_instrs [_]) le_rfl (takes_constant m₁ (outcome isAnd false)))
    have hAll := hBefore.jump (b := [ .label (.numbered (decidedRole isAnd) n),
        .instr (.mov (.imm (outcome isAnd true)) .rax) ])
      hNew ?_ ?_ (jumps_jump (.numbered .finish n) _)
    · simpa [circuitLines] using hAll
    · rw [List.mem_append]
      simpa using hAbsent .finish
    · simpa using (decidedRole_ne isAnd).symm

end Lines

/- An operator that may leave out its second operand. -/
theorem does_shortCircuit (rs : Records) (isAnd : Bool) (hLeft : Does 0 x Q₁ (Leaves σ a?))
    (hRight : Does 0 y Q₂ (Leaves τ b?))
    (hFirst : ∀ m, P m → Q₁ m ∧ ∃ a ∈ a?, σ.Has a ∧
      (decides isAnd a = true → v? = some (outcome isAnd true)))
    (hNext : ∀ m m₁ a, P m → Kept m m₁ → a ∈ a? → decides isAnd a = false →
      Q₂ m₁ ∧ ∃ b ∈ b?, τ.Has b ∧ v? = some (outcome isAnd (decides isAnd b))) :
    Does 0 (shortCircuit rs isAnd σ.toCType τ.toCType x y) P (Leaves .int v?) := by
  intro k
  rcases hLeft { k with labels := k.labels + 1 } with
    ⟨r, hRun, hActs⟩
  rcases hRight r.counters with ⟨s, hRunRight, hActsRight⟩
  have hWithin : Within (k.labels + 1) r.counters.labels
      (r.code ++ (compareZero rs σ.toCType).map .instr) :=
    hActs.within.append (within_instrs _) hActs.labels le_rfl
  have hWithinRight : Within r.counters.labels s.counters.labels
      (s.code ++ (compareZero rs τ.toCType).map .instr) :=
    hActsRight.within.append (within_instrs _) hActsRight.labels le_rfl
  have hLabels := hActs.labels
  have hLabelsRight := hActsRight.labels
  have hNew : k.labels < k.labels + 1 := Nat.lt_succ_self _
  -- However it ends, the register holds the outcome.
  have hLeaves : ∀ {m m' : Machine} {v : Int}, Kept m m' → v? = some v →
      Leaves .int v? m (m'.set .rax (BitVec.ofInt 64 v)) := by
    intro m m' v hKept hValue
    refine ⟨hKept.trans (kept_set m' _ (by decide) (by decide)), ?_⟩
    intro w hMem
    rw [hValue] at hMem
    cases hMem
    rw [set_regs_self]
    exact IntType.represents_ofInt _ _
  refine ⟨⟨(), circuitLines isAnd (k.labels + 1) (r.code ++ (compareZero rs σ.toCType).map .instr)
    (s.code ++ (compareZero rs τ.toCType).map .instr), s.counters⟩, ?_, ?_⟩
  · cases isAnd <;> simp only [shortCircuit, bind, Emit.andThen, Emit.fresh,
      hRun, Emit.code, Emit.lines, hRunRight, Emit.label,
      List.nil_append, List.append_assoc, List.map_cons,
      List.map_nil, circuitLines, List.cons_append,
      leaveInstr, decidedRole, outcome] <;> rfl
  · have hDepth := hActs.depth
    have hDepthRight := hActsRight.depth
    simp only at hDepth hLabels
    refine ⟨by simp only; omega, by simp only; omega,
      within_circuitLines hWithin hWithinRight hLabels hLabelsRight hNew, ?_⟩
    intro m hP
    rcases hFirst m hP with ⟨hQ, a, hA, hHas, hDecided⟩
    rcases hActs.runs m hQ with ⟨m₁, hTakes, hKept, hRep⟩
    rcases takes_test rs hTakes hActs.within.fresh hActs.labels hKept hHas (hRep a hA) with
      ⟨m₂, hTakes₂, hKept₂, hEqual, hNotEqual⟩
    have hCompared : Compared m₂ a := ⟨hEqual, hNotEqual⟩
    cases hDecides : decides isAnd a with
    | true =>
      exact ⟨_, takes_left hWithin hWithinRight hLabels
        hLabelsRight hNew hTakes₂ hCompared hDecides,
        hLeaves hKept₂ (hDecided hDecides)⟩
    | false =>
      rcases hNext m m₂ a hP hKept₂ hA hDecides with
        ⟨hQ₂, b, hB, hHasB, hValue⟩
      rcases hActsRight.runs m₂ hQ₂ with
        ⟨m₃, hTakes₃, hKept₃, hRepB⟩
      rcases takes_test rs hTakes₃ hActsRight.within.fresh
        hActsRight.labels hKept₃ hHasB (hRepB b hB) with
        ⟨m₄, hTakes₄, hKept₄, hEqual', hNotEqual'⟩
      have hBoth := takes_both hWithin hLabels hTakes₂ hCompared hDecides hTakes₄
      exact ⟨_, takes_right hWithin hWithinRight hLabels
        hLabelsRight hNew hBoth ⟨hEqual', hNotEqual'⟩,
        hLeaves (hKept₂.trans hKept₄) hValue⟩

end Codegen

end CCompiler
