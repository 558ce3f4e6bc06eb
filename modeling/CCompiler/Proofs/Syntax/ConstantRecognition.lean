import Mathlib
import CCompiler.Proofs.Syntax.DeclaratorReading

/-
  Which trees are recognised as constant expressions.

  Recognition and evaluation walk over a tree independently.
  Both pass over the first operand of a comma and over the
  branch that a test does not choose; the nodes that are left
  count.  A tree is recognised if all of them are numbers and
  operators other than the remainder.  Evaluation reaches no
  others, so the only thing that it can miss a value for is a
  divisor of zero.

  Main declarations:
    * `Expr.nodes`, `Constant.counted`
    * `Constant.evalInt_of_isConstant`
    * `Constant.Arithmetic.arrayLength_of_numbers`
-/

------------
-- Nodes
------------

namespace CCompiler

namespace Expr

mutual

/- The nodes of a tree, without those in blocks of statements. -/
def nodes : Expr → List Expr
| .unary i op a => .unary i op a :: a.nodes
| .binary i op l r => .binary i op l r :: (l.nodes ++ r.nodes)
| .assign i l r => .assign i l r :: (l.nodes ++ r.nodes)
| .comma i l r => .comma i l r :: (l.nodes ++ r.nodes)
| .ternary i c t e =>
  .ternary i c t e :: (c.nodes ++ (t.nodes ++ e.nodes))
| .member i a m => .member i a m :: a.nodes
| .cast i a => .cast i a :: a.nodes
| .call i f t args b => .call i f t args b :: (f.nodes ++ nodesAll args)
| .cas i a o n => .cas i a o n :: (a.nodes ++ (o.nodes ++ n.nodes))
| .exch i a v => .exch i a v :: (a.nodes ++ v.nodes)
| e => [e]

def nodesAll : List Expr → List Expr
| [] => []
| e :: es => e.nodes ++ nodesAll es

end

/- Numbers, and the operators that constants are combined with. -/
def isArithmetic : Expr → Bool
| .num _ _ | .fnum _ _ | .cast _ _ | .binary _ _ _ _
| .ternary _ _ _ _ | .comma _ _ _ => true
| .unary _ op _ => op == .neg || op == .not || op == .bitNot
| _ => false

def isRemainder : Expr → Bool
| .binary _ op _ _ => op == .mod
| _ => false

/- The nodes that a constant expression may have where they count. -/
def isRecognizable (e : Expr) : Bool :=
  e.isArithmetic && !e.isRemainder

/- An expression that is known to be an integer. -/
def Integral (e : Expr) : Prop :=
  ∃ t, e.type? = some t ∧ t.isInteger = true

theorem mem_nodes_self (e : Expr) : e ∈ e.nodes := by cases e <;> simp [nodes]

end Expr

namespace Constant

variable {env : Env} {e : Expr}

/-
  The nodes that count: those outside of the first operands of
  commas and of branches that are not chosen.
-/
def counted (env : Env) : Expr → List Expr
| .unary i op a => .unary i op a :: counted env a
| .binary i op l r => .binary i op l r :: (counted env l ++ counted env r)
| .ternary i c t e => .ternary i c t e :: (counted env c ++
    match evalNode env false false c with
    | .ok v => if v.word != 0 then counted env t else counted env e
    | .error _ => [])
| .comma i l r => .comma i l r :: counted env r
| .cast i a => .cast i a :: counted env a
| e => [e]

/- Of a choice the test and the branch that it chooses count. -/
theorem counted_ternary {i : Info} {c t : Expr} {v : ConstValue}
    (hTest : evalNode env false false c = .ok v) :
    counted env (.ternary i c t e) = .ternary i c t e ::
      (counted env c ++ counted env (if v.word != 0 then t else e)) := by
  rw [counted, hTest, apply_ite (counted env)]

section Parts

variable {i : Info} {op : UnOp} {op' : BinOp} {a c t l r : Expr}
  {v : ConstValue}

theorem counted_unary : counted env a ⊆ counted env (.unary i op a) := List.subset_cons_self _ _

theorem counted_cast : counted env a ⊆ counted env (.cast i a) := List.subset_cons_self _ _

theorem counted_comma : counted env r ⊆ counted env (.comma i l r) := List.subset_cons_self _ _

theorem counted_left : counted env l ⊆ counted env (.binary i op' l r) :=
  List.subset_cons_of_subset _ (List.subset_append_left _ _)

theorem counted_right : counted env r ⊆ counted env (.binary i op' l r) :=
  List.subset_cons_of_subset _ (List.subset_append_right _ _)

theorem counted_test : counted env c ⊆ counted env (.ternary i c t e) :=
  List.subset_cons_of_subset _ (List.subset_append_left _ _)

theorem counted_chosen (hTest : evalNode env false false c = .ok v) :
    counted env (if v.word != 0 then t else e) ⊆
      counted env (.ternary i c t e) := by
  rw [counted_ternary hTest]
  exact List.subset_cons_of_subset _ (List.subset_append_right _ _)

end Parts

theorem mem_counted_self (e : Expr) : e ∈ counted env e := by cases e <;> exact List.mem_cons_self

theorem counted_subset :
    ∀ e : Expr, counted env e ⊆ e.nodes
| .unary i op a | .cast i a => by
    rw [counted, Expr.nodes]
    exact List.cons_subset_cons _ (counted_subset a)
| .binary i op l r => by
    rw [counted, Expr.nodes]
    apply List.cons_subset_cons
    apply List.append_subset.mpr
    exact ⟨List.subset_append_of_subset_left _ (counted_subset l),
      List.subset_append_of_subset_right _ (counted_subset r)⟩
| .comma i l r => by
    rw [counted, Expr.nodes]
    apply List.cons_subset_cons
    exact List.subset_append_of_subset_right _ (counted_subset r)
| .ternary i c t e => by
    rw [counted, Expr.nodes]
    apply List.cons_subset_cons
    apply List.append_subset.mpr
    refine ⟨List.subset_append_of_subset_left _ (counted_subset c),
      List.subset_append_of_subset_right _ ?_⟩
    split
    · split
      · exact List.subset_append_of_subset_left _ (counted_subset t)
      · exact List.subset_append_of_subset_right _ (counted_subset e)
    · exact List.nil_subset _
| .null _ | .num _ _ | .fnum _ _ | .stmtExpr _ _ | .var _ _
| .vlaPtr _ _ | .memZero _ _ | .labelVal _ _ _ | .assign _ _ _
| .member _ _ _ | .call _ _ _ _ _ | .cas _ _ _ _ | .exch _ _ _ => by
    intro n hMem
    rw [counted] at hMem <;> first
      | exact List.mem_singleton.mp hMem ▸ Expr.mem_nodes_self _
      | simp

------------
-- Recognition
------------

/- A conjunction whose second part may be left out. -/
theorem both_ok {l r : Except Failure Bool} {b : Bool}
    (hOk : (do if ← l then r else return false) = Except.ok b) :
    ∃ a, l = .ok a ∧ (a = false ∧ b = false ∨ a = true ∧ r = .ok b) := by
  cases l with
  | error f => cases hOk
  | ok a =>
    refine ⟨a, rfl, ?_⟩
    cases a
    · cases hOk
      exact .inl ⟨rfl, rfl⟩
    · exact .inr ⟨rfl, hOk⟩

/-
  Recognition answers whether all nodes that count are numbers
  and operators other than the remainder.
-/
theorem isConstant_counted :
    ∀ (e : Expr) (b : Bool), isConstant env e = .ok b → b = (counted env e).all Expr.isRecognizable
| .unary i op a, b, hOk => by
    rw [counted, List.all_cons]
    cases op with
    | neg | not | bitNot => exact isConstant_counted a b hOk
    | addressOf | deref =>
      cases hOk
      rfl
| .cast i a, b, hOk => by
    rw [counted, List.all_cons]
    exact isConstant_counted a b hOk
| .comma i l r, b, hOk => by
    rw [counted, List.all_cons]
    exact isConstant_counted r b hOk
| .binary i op l r, b, hOk => by
    rw [counted, List.all_cons, List.all_append]
    have hNode : Expr.isRecognizable (.binary i op l r) = (op != .mod) := rfl
    rw [isConstant] at hOk
    rw [hNode, bne]
    by_cases hMod : (op == .mod) = true
    · rw [if_pos hMod] at hOk
      cases hOk
      rw [hMod]
      rfl
    rw [if_neg hMod] at hOk
    rw [Bool.not_eq_true] at hMod
    rw [hMod]
    rcases both_ok hOk with ⟨a, hLeft, ⟨rfl, rfl⟩ | ⟨rfl, hRight⟩⟩
    · rw [← isConstant_counted l _ hLeft]
      rfl
    · rw [← isConstant_counted l _ hLeft, ← isConstant_counted r _ hRight]
      rfl
| .ternary i c t e, b, hOk => by
    rw [isConstant] at hOk
    rcases both_ok hOk with ⟨a, hTest, ⟨rfl, rfl⟩ | ⟨rfl, hBranch⟩⟩
    · rw [counted, List.all_cons, List.all_append, ← isConstant_counted c _ hTest]
      rfl
    cases hEval : evalNode env false false c with
    | error f =>
      rw [hEval] at hBranch
      cases hBranch
    | ok v =>
      rw [hEval] at hBranch
      rw [counted_ternary hEval, List.all_cons, List.all_append, ← isConstant_counted c _ hTest]
      change (if v.word != 0 then isConstant env t else isConstant env e) =
        .ok b at hBranch
      rw [← apply_ite (isConstant env)] at hBranch
      cases hWord : v.word != 0 <;> rw [hWord] at hBranch
      · rw [← isConstant_counted _ b hBranch]
        rfl
      · rw [← isConstant_counted _ b hBranch]
        rfl
| .num _ _, b, hOk | .fnum _ _, b, hOk | .null _, b, hOk
| .assign _ _ _, b, hOk | .member _ _ _, b, hOk | .call _ _ _ _ _, b, hOk
| .stmtExpr _ _, b, hOk | .var _ _, b, hOk | .vlaPtr _ _, b, hOk
| .memZero _ _, b, hOk | .labelVal _ _ _, b, hOk | .cas _ _ _ _, b, hOk
| .exch _ _ _, b, hOk => by
    cases hOk
    rfl

------------
-- Evaluation
------------

/-
  What evaluation comes to: a value, or the report of a divisor
  of zero at a node that counts.
-/
inductive Settles (env : Env) (e : Expr) : Except Failure ConstValue → Prop
| value {v} :
    Settles env e (.ok v)
| division {i op l r v}
    (hNode : .binary i op l r ∈ counted env e)
    (hOp : op = .div ∨ op = .mod)
    (hDivisor : evalNode env false false r = .ok v)
    (hZero : v.word = 0) :
    Settles env e (.error (.fault .divisionByZero i.tok.place))

/- What the evaluation of a part comes to comes first. -/
theorem Settles.bind {a : Expr} {o : Except Failure ConstValue}
    {f : ConstValue → Except Failure ConstValue} (hPart : Settles env a o)
    (hSubset : counted env a ⊆ counted env e) (hNext : ∀ v, o = .ok v → Settles env e (f v)) :
    Settles env e (o >>= f) := by
  cases hPart with
  | value => exact hNext _ rfl
  | division hNode hOp hDivisor hZero => exact .division (hSubset hNode) hOp hDivisor hZero

/- Only a divisor of zero leaves an operator without a value. -/
theorem intBinary?_none {op : BinOp} {t u : CType} {size : Int} {x y : Int64}
    (hLogical : op.isLogical = false) (hNone : intBinary? op t size u x y = none) :
    (op = .div ∨ op = .mod) ∧ y = 0 := by
  cases op with
  | div | mod =>
    simp only [intBinary?] at hNone
    split at hNone
    · rename_i hZero
      exact ⟨by simp, beq_iff_eq.mp hZero⟩
    · split at hNone <;> cases hNone
  | shr | lt | le =>
    simp only [intBinary?] at hNone
    split at hNone <;> cases hNone
  | logAnd | logOr => cases hLogical
  | add | sub | mul | bitAnd | bitOr | bitXor | shl | eq | ne => cases hNone

/- A node of a constant expression of integers. -/
def Plain (e : Expr) : Prop :=
  e.isArithmetic = true ∧ e.Integral

theorem Plain.type {i : Info} (hPlain : Plain e) (hInfo : e.info = i) :
    ∃ t, i.type? = some t ∧ t.isFloating = false ∧ t.isInteger = true := by
  rcases hPlain with ⟨-, t, hType, hInteger⟩
  rcases CType.exists_values? hInteger with ⟨τ, hValues⟩
  exact ⟨t, hInfo ▸ hType, (CType.shares_values #[] hValues).isFloating, hInteger⟩

/-
  Where all nodes that count are those of constant expressions
  of integers, evaluation comes to a value or to a divisor of
  zero.
-/
theorem settles :
    ∀ e : Expr, (∀ n ∈ counted env e, Plain n) → Settles env e (evalNode env false false e)
| .num i v, hPlain => by
    rcases (hPlain (.num i v) (mem_counted_self _)).type (i := i) rfl with
      ⟨t, hType, hFloating, -⟩
    rw [evalNode_num env v hType hFloating]
    exact .value
| .fnum i d, hPlain => by
    rcases (hPlain (.fnum i d) (mem_counted_self _)).type (i := i) rfl with
      ⟨t, hType, hFloating, -⟩
    rw [evalNode]
    simp only [Expr.type?, Expr.info, hType]
    exact .value
| .cast i a, hPlain => by
    rcases (hPlain (.cast i a) (mem_counted_self _)).type (i := i) rfl with
      ⟨t, hType, hFloating, hInteger⟩
    rw [evalNode_cast env hType hFloating hInteger]
    exact (settles a fun n hMem => hPlain n (counted_cast hMem)).bind counted_cast fun _ _ => .value
| .unary i op a, hPlain => by
    have hNode := hPlain (.unary i op a) (mem_counted_self _)
    rcases hNode.type (i := i) rfl with ⟨t, hType, hFloating, -⟩
    have hInner := settles a fun n hMem => hPlain n (counted_unary hMem)
    cases op with
    | neg =>
      rw [evalNode_sign env hType hFloating (.inl rfl)]
      exact hInner.bind counted_unary fun _ _ => .value
    | bitNot =>
      rw [evalNode_sign env hType hFloating (.inr rfl)]
      exact hInner.bind counted_unary fun _ _ => .value
    | not =>
      rw [evalNode_not env hType hFloating]
      exact hInner.bind counted_unary fun _ _ => .value
    | addressOf | deref => cases hNode.1
| .binary i op l r, hPlain => by
    rcases (hPlain (.binary i op l r) (mem_counted_self _)).type (i := i) rfl with
      ⟨t, hType, hFloating, -⟩
    have hLeft := settles l fun n hMem => hPlain n (counted_left hMem)
    have hRight := settles r fun n hMem => hPlain n (counted_right hMem)
    cases hLogical : op.isLogical with
    | true =>
      rw [evalNode_logical env hType hFloating hLogical]
      apply hLeft.bind counted_left
      intro a hA
      split
      · exact .value
      split
      · exact .value
      exact hRight.bind counted_right fun _ _ => .value
    | false =>
      rw [evalNode_binary env hType hFloating hLogical]
      apply hLeft.bind counted_left
      intro a hA
      apply hRight.bind counted_right
      intro b hB
      split
      · exact .value
      · rename_i hNone
        rcases intBinary?_none hLogical hNone with ⟨hOp, hZero⟩
        exact .division (mem_counted_self _) hOp hB hZero
| .ternary i c t e, hPlain => by
    rcases (hPlain (.ternary i c t e) (mem_counted_self _)).type (i := i) rfl with
      ⟨u, hType, hFloating, -⟩
    rw [evalNode_ternary env hType hFloating]
    apply (settles c fun n hMem => hPlain n (counted_test hMem)).bind counted_test
    intro v hEval
    have hSubset := counted_chosen (i := i) (t := t) (e := e) hEval
    split <;> rename_i hWord
    · rw [if_pos hWord] at hSubset
      exact (settles t fun n hMem => hPlain n (hSubset hMem)).bind hSubset fun _ _ => .value
    · rw [if_neg hWord] at hSubset
      exact (settles e fun n hMem => hPlain n (hSubset hMem)).bind hSubset fun _ _ => .value
| .comma i l r, hPlain => by
    rcases (hPlain (.comma i l r) (mem_counted_self _)).type (i := i) rfl with
      ⟨t, hType, hFloating, -⟩
    rw [evalNode_comma env hType hFloating]
    exact (settles r fun n hMem => hPlain n (counted_comma hMem)).bind
      counted_comma fun _ _ => .value
| .null _, hPlain | .assign _ _ _, hPlain | .member _ _ _, hPlain
| .call _ _ _ _ _, hPlain | .stmtExpr _ _, hPlain | .var _ _, hPlain
| .vlaPtr _ _, hPlain | .memZero _ _, hPlain | .labelVal _ _ _, hPlain
| .cas _ _ _ _, hPlain | .exch _ _ _, hPlain => by cases (hPlain _ (mem_counted_self _)).1

------------
-- Recognised Trees
------------

open Typing Parse TranslationUnit

/-
  What is recognised as a constant expression of integers has a
  value, or divides by zero at one of its operators.
-/
theorem evalInt_of_isConstant {e e' : Expr} {s s' : ParseState} (hAdd : addType e s = .ok e' s')
    (hInteger : ∀ n ∈ e'.nodes, n.Integral)
    (hConstant : run (fun env => isConstant env e') s' = .ok true s') :
    (∃ v, evalInt e s = .ok v s') ∨ ∃ i l r v, .binary i .div l r ∈ e'.nodes ∧
        evalNode ⟨s'.objects, s'.records⟩ false false r = .ok v ∧
        v.word = 0 ∧
        evalInt e s = .error (.fault .divisionByZero i.tok.place) s' := by
  have hRecognized : isConstant ⟨s'.objects, s'.records⟩ e' = .ok true := by
    rw [run_apply] at hConstant
    split at hConstant
    · rename_i hOk
      cases hConstant
      exact hOk
    · cases hConstant
  have hAll := isConstant_counted e' true hRecognized
  have hNodes : ∀ n ∈ counted ⟨s'.objects, s'.records⟩ e',
      n.isArithmetic = true ∧ n.isRemainder = false := by
    intro n hMem
    have hNode := List.all_eq_true.mp hAll.symm n hMem
    rw [Expr.isRecognizable, Bool.and_eq_true, Bool.not_eq_true'] at hNode
    exact hNode
  have hSettles := settles e' fun n hMem => ⟨(hNodes n hMem).1, hInteger n (counted_subset e' hMem)⟩
  rw [evalInt_eq hAdd]
  cases hEval : evalNode ⟨s'.objects, s'.records⟩ false false e' with
  | ok v => exact .inl ⟨v.word, rfl⟩
  | error f =>
    rw [hEval] at hSettles
    cases hSettles with
    | @division i op l r v hNode hOp hDivisor hZero =>
      have hDiv : op = .div := by
        rcases hOp with rfl | rfl
        · rfl
        · cases (hNodes _ hNode).2
      subst hDiv
      exact .inr ⟨i, l, r, v, counted_subset e' hNode, hDivisor, hZero, rfl⟩

open Formula (sample sign sampleState)

/- Two numbers with an operator between them, as they are read. -/
def sampleTree (op : BinOp) (text : String) (a b : Int64) : Expr :=
  .binary ⟨sign text, none⟩ op
    (.num ⟨sample (.int .int a) "a", some .int⟩ a)
    (.num ⟨sample (.int .int b) "b", some .int⟩ b)

/- The same with types. -/
def sampleTyped (op : BinOp) (text : String) (a b : Int64) : Expr :=
  .binary ⟨sign text, some .int⟩ op
    (.cast ⟨sample (.int .int a) "a", some .int⟩
      (.num ⟨sample (.int .int a) "a", some .int⟩ a))
    (.cast ⟨sample (.int .int b) "b", some .int⟩
      (.num ⟨sample (.int .int b) "b", some .int⟩ b))

/- 6 / 0 is recognised, and has no value. -/
theorem evalInt_of_isConstant_quotient :
    (∃ v, evalInt (sampleTree .div "/" 6 0) sampleState = .ok v sampleState) ∨
      ∃ i l r v, .binary i .div l r ∈ (sampleTyped .div "/" 6 0).nodes ∧
        evalNode ⟨sampleState.objects, sampleState.records⟩ false false r = .ok v ∧
        v.word = 0 ∧
        evalInt (sampleTree .div "/" 6 0) sampleState =
          .error (.fault .divisionByZero i.tok.place) sampleState := by
  have hAdd : addType (sampleTree .div "/" 6 0) sampleState =
      .ok (sampleTyped .div "/" 6 0) sampleState := rfl
  refine evalInt_of_isConstant hAdd ?_ rfl
  intro n hMem
  simp only [sampleTyped, Expr.nodes, List.cons_append, List.nil_append,
    List.mem_cons, List.not_mem_nil, or_false] at hMem
  rcases hMem with rfl | rfl | rfl | rfl | rfl <;> exact ⟨.int, rfl, rfl⟩

------------
-- Trees of Numbers
------------

theorem Converted.node (hTree : Converted e) : Plain e := by
  rcases hTree.exists_type with ⟨t, τ, hType, hValues, -⟩
  refine ⟨?_, t, hType, (CType.shares_values #[] hValues).isInteger⟩
  cases hTree with
  | sign hOp => rcases hOp with rfl | rfl <;> rfl
  | _ => rfl

/- All nodes of a converted tree are those of constant expressions. -/
theorem Converted.nodes (hTree : Converted e) : ∀ n ∈ e.nodes, Plain n := by
  have hSelf := hTree.node
  induction hTree with
  | num =>
    intro n hMem
    rw [Expr.nodes, List.mem_singleton] at hMem <;> simp_all
  | cast _ _ hInner ih | sign _ _ hInner ih | not _ hInner ih =>
    rw [Expr.nodes]
    exact List.forall_mem_cons.mpr ⟨hSelf, ih hInner.node⟩
  | logical _ _ hLeft hRight ihl ihr | shift _ _ hLeft hRight ihl ihr
  | compare _ _ _ hLeft hRight ihl ihr
  | arith _ _ _ _ _ hLeft hRight ihl ihr
  | comma _ hLeft hRight ihl ihr =>
    rw [Expr.nodes]
    exact List.forall_mem_cons.mpr ⟨hSelf, List.forall_mem_append.mpr
      ⟨ihl hLeft.node, ihr hRight.node⟩⟩
  | ternary _ _ hTest hThen hElse ihc iht ihe =>
    rw [Expr.nodes]
    exact List.forall_mem_cons.mpr ⟨hSelf, List.forall_mem_append.mpr
      ⟨ihc hTest.node, List.forall_mem_append.mpr ⟨iht hThen.node, ihe hElse.node⟩⟩⟩

/-
  All nodes that count are those of constant expressions of
  integers, and no divisor among their operands is zero.
-/
structure Sound (env : Env) (e : Expr) : Prop where
  plain : ∀ n ∈ counted env e, Plain n
  divides : ∀ i op l r v, .binary i op l r ∈ counted env e →
    op = .div ∨ op = .mod → evalNode env false false r = .ok v →
    v.word ≠ 0

theorem Sound.part {a : Expr} (hSound : Sound env e) (hPart : counted env a ⊆ counted env e) :
    Sound env a := by
  refine ⟨fun n hMem => hSound.plain n (hPart hMem), ?_⟩
  intro i op l r v hMem
  exact hSound.divides i op l r v (hPart hMem)

theorem Sound.value (hSound : Sound env e) : ∃ v, evalNode env false false e = .ok v := by
  cases hEval : evalNode env false false e with
  | ok v => exact ⟨v, rfl⟩
  | error f =>
    have hSettles := settles e hSound.plain
    rw [hEval] at hSettles
    cases hSettles with
    | division hNode hOp hDivisor hZero =>
      exact absurd hZero (hSound.divides _ _ _ _ _ hNode hOp hDivisor)

/- Recognition has an answer, for every test has a value. -/
theorem Sound.isConstant :
    ∀ {e : Expr}, Sound env e → ∃ b, isConstant env e = .ok b
| .unary i op a, hSound => by
    rcases (hSound.part counted_unary).isConstant with ⟨b, hOk⟩
    cases op with
    | neg | not | bitNot => exact ⟨b, hOk⟩
    | addressOf | deref => exact ⟨false, rfl⟩
| .cast _ _, hSound => (hSound.part counted_cast).isConstant
| .comma _ _ _, hSound => (hSound.part counted_comma).isConstant
| .binary i op l r, hSound => by
    rcases (hSound.part counted_left).isConstant with ⟨a, hLeft⟩
    rcases (hSound.part counted_right).isConstant with ⟨b, hRight⟩
    rw [Constant.isConstant, hLeft, hRight]
    split
    · exact ⟨false, rfl⟩
    · cases a
      · exact ⟨false, rfl⟩
      · exact ⟨b, rfl⟩
| .ternary i c t e, hSound => by
    have hTest := hSound.part counted_test
    rcases hTest.value with ⟨v, hEval⟩
    rcases hTest.isConstant with ⟨a, hOk⟩
    have hChosen := hSound.part (counted_chosen hEval)
    rw [Constant.isConstant, hOk, hEval]
    cases a with
    | false => exact ⟨false, rfl⟩
    | true =>
      change ∃ b, (if v.word != 0 then Constant.isConstant env t
        else Constant.isConstant env e) = .ok b
      cases hWord : v.word != 0 <;> rw [hWord] at hChosen
      · exact Sound.isConstant (e := e) hChosen
      · exact Sound.isConstant (e := t) hChosen
| .num _ _, _ | .fnum _ _, _ => ⟨true, rfl⟩
| .null _, _ | .assign _ _ _, _ | .member _ _ _, _ | .call _ _ _ _ _, _
| .stmtExpr _ _, _ | .var _ _, _ | .vlaPtr _ _, _ | .memZero _ _, _
| .labelVal _ _ _, _ | .cas _ _ _ _, _ | .exch _ _ _, _ => ⟨false, rfl⟩

/- No divisor in a tree is zero. -/
def Divides (env : Env) (e : Expr) : Prop :=
  ∀ i op l r v, .binary i op l r ∈ e.nodes → op = .div ∨ op = .mod →
    evalNode env false false r = .ok v → v.word ≠ 0

theorem Converted.sound (hTree : Converted e) (hDivides : Divides env e) : Sound env e := by
  refine ⟨fun n hMem => hTree.nodes n (counted_subset e hMem), ?_⟩
  intro i op l r v hMem
  exact hDivides i op l r v (counted_subset e hMem)

/- A tree of numbers is recognised unless a remainder counts. -/
theorem Converted.isConstant (hTree : Converted e) (hDivides : Divides env e) :
    isConstant env e = .ok (!(counted env e).any Expr.isRemainder) := by
  rcases (hTree.sound hDivides).isConstant with ⟨b, hOk⟩
  rw [hOk, isConstant_counted e b hOk, List.not_any_eq_all_not]
  congr 1
  rw [Bool.eq_iff_iff, List.all_eq_true, List.all_eq_true]
  refine forall₂_congr fun n hMem => ?_
  rw [Expr.isRecognizable, (hTree.nodes n (counted_subset e hMem)).1, Bool.true_and]

/-
  A length that is made of numbers makes an array of as many
  elements.  Only a remainder that counts, or elements of which
  the size is not known, make it one whose size is found at run
  time.
-/
theorem Arithmetic.arrayLength_of_numbers {read : Reader} {base base' : CType} {e e' : Expr}
    {t : Token} {ts : List Token} {s s₁ s₂ s₃ s₄ : ParseState} (hTree : Arithmetic e)
    (hFree : t.Free ["static", "restrict", "const", "]"])
    (hRead : read .conditional (s.before (t :: ts)) = .ok e s₁)
    (hClose : expect "]" s₁ = .ok () s₂) (hRest : read (.typeSuffix base) s₂ = .ok base' s₃)
    (hAdd : Typing.addType e s₃ = .ok e' s₄) (hDivides : Divides ⟨s₃.objects, s₃.records⟩ e') :
    ∃ v, evalInt e s₃ = .ok v s₃ ∧ run (fun env => Constant.isConstant env e') s₃ =
        .ok (!(counted ⟨s₃.objects, s₃.records⟩ e').any Expr.isRemainder) s₃ ∧
      Declarator.arrayLength read base (s.before (t :: ts)) = (if base'.isVla then vlaOf base' e
        else if (counted ⟨s₃.objects, s₃.records⟩ e').any
          Expr.isRemainder then vlaOf base' e'
        else arrayOf base' v.toInt) s₃ := by
  rcases hTree.addType with ⟨e'', hAll, hConverted⟩
  have hSame := (hAll s₃).symm.trans hAdd
  cases hSame
  rcases (hConverted.sound hDivides).value with ⟨v, hEval⟩
  have hWord : evalInt e s₃ = .ok v.word s₃ := by rw [evalInt_eq (hAll s₃), hEval]
  have hInner : evalInt e' s₃ = .ok v.word s₃ := by
    rw [evalInt_eq (addType_of_isSome hConverted.isInteger.1 s₃), hEval]
  have hConstant := run_apply (fun env => Constant.isConstant env e') s₃
  rw [hConverted.isConstant hDivides] at hConstant
  refine ⟨v.word, hWord, hConstant, ?_⟩
  unfold Declarator.arrayLength
  rw [run_bind (qualifiers_none (hFree.mono (by decide)) s),
    run_bind (accept_miss (hFree "]" (by decide))),
    if_neg Bool.false_ne_true, run_bind hRead, run_bind hClose,
    run_bind hRest]
  split
  · rfl
  rw [run_bind (hAll s₃), run_bind hConstant]
  cases (counted ⟨s₃.objects, s₃.records⟩ e').any Expr.isRemainder with
  | false => exact run_bind hInner
  | true => rfl

theorem arithmetic_sample (op : BinOp) (text : String) (a b : Int64) :
    Arithmetic (sampleTree op text a b) := by
  have hNumber : ∀ (t : Token) (v : Int64), Arithmetic (.num ⟨t, some .int⟩ v) := by
    intro t v
    refine .num ?_
    rintro u ⟨⟩
    rfl
  exact .binary rfl (hNumber _ a) (hNumber _ b)

/- No operator of a sample divides by zero if its right operand is not zero. -/
theorem divides_sample {op : BinOp} {text : String} {a b : Int64}
    (hDivisor : truncate env.records b .int ≠ 0) : Divides env (sampleTyped op text a b) := by
  intro i op l r v hMem hOp hEval
  simp only [sampleTyped, Expr.nodes, List.cons_append, List.nil_append,
    List.mem_cons, List.not_mem_nil, or_false, reduceCtorEq] at hMem
  cases hMem
  rw [evalNode_cast env rfl rfl rfl, evalNode_num env b rfl rfl] at hEval
  cases hEval
  exact hDivisor

/- The state behind a number. -/
def sampleRest : ParseState :=
  sampleState.before [sign ";"]

/- `[5 - 3]` is an array of two elements. -/
theorem arrayLength_of_numbers_difference :
    ∃ v, evalInt (sampleTree .sub "-" 5 3) sampleRest = .ok v sampleRest ∧
      run (fun env => Constant.isConstant env (sampleTyped .sub "-" 5 3))
          sampleRest = .ok true sampleRest ∧
      Declarator.arrayLength (read 1024) .int (sampleState.before
          [sample (.int .int 5) "a", sign "-", sample (.int .int 3) "b", sign "]", sign ";"]) =
        arrayOf .int v.toInt sampleRest := by
  have hRead : read 1024 .conditional (sampleState.before
      [sample (.int .int 5) "a", sign "-", sample (.int .int 3) "b",
        sign "]", sign ";"]) = .ok (sampleTree .sub "-" 5 3)
          (sampleState.before [sign "]", sign ";"]) := rfl
  have hRest : read 1024 (.typeSuffix .int) sampleRest = .ok .int sampleRest := rfl
  exact (arithmetic_sample .sub "-" 5 3).arrayLength_of_numbers (by decide)
    hRead rfl hRest rfl (divides_sample (by decide))

/-
  5 % 3 is made of numbers, and no divisor is zero.  It is not
  recognised, so `[5 % 3]` has a size that is found at run time.
-/
theorem remainder_length :
    Arithmetic (sampleTree .mod "%" 5 3) ∧
    (∀ s, Typing.addType (sampleTree .mod "%" 5 3) s = .ok (sampleTyped .mod "%" 5 3) s) ∧
    (∀ env, Divides env (sampleTyped .mod "%" 5 3) ∧
      Constant.isConstant env (sampleTyped .mod "%" 5 3) = .ok false) ∧
    Declarator.arrayLength (read 1024) .int (sampleState.before
        [sample (.int .int 5) "a", sign "%", sample (.int .int 3) "b", sign "]", sign ";"]) =
      vlaOf .int (sampleTyped .mod "%" 5 3) sampleRest := by
  refine ⟨arithmetic_sample .mod "%" 5 3, fun _ => rfl, ?_, rfl⟩
  intro env
  refine ⟨divides_sample ?_, rfl⟩
  change (3 : Int64) ≠ 0
  decide

end Constant

end CCompiler
