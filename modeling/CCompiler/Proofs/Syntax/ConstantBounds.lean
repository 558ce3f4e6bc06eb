import Mathlib
import CCompiler.Proofs.Syntax.FormulaReading

/-
  Constant expressions as the lengths of arrays.

  The value of a formula is worked out with numbers of any size
  from its tokens alone.  A formula that is recognised as
  constant becomes a length of this value; one with a remainder
  in a place that counts is not recognised.

  Main declarations:
    * `Formula.value`, `Formula.Recognized`
    * `Formula.Bounds`
    * `Formula.Bounds.evaluates`
-/

------------
-- Values of Formulas
------------

namespace CCompiler

open Constant (Confirmed confirmed_refl ideal valuesOf ideal_binary)

variable {op : Dyadic}

namespace Formula

/-
  The number that an operator gives for values of two types.
  Only shifts and logical operators take them as they are.
-/
def exact (op : Dyadic) (t : Token) (σ τ : ArithType) (a b : Int) :
    Except Irregular Int :=
  if op.node.isShift || op.node.isLogical then op.node.exact t a b
  else if op.swaps then
    let ρ := (τ.merged σ).values
    op.node.exact t (ρ.convert b) (ρ.convert a)
  else
    let ρ := (σ.merged τ).values
    op.node.exact t (ρ.convert a) (ρ.convert b)

/- The value of a formula, if its types hold what is reached. -/
def value : Formula → Except Irregular Int
| .number t =>
  match t.kind with
  | .int _ v => (numberType t).values.settle v.toInt
  | _ => .error .outsideType
| .name _ _ | .assign _ _ _ => .error .outsideType
| .paren _ _ a => a.value
| .unary op t a => do
  let v ← a.value
  let τ := (unary op t a).given.values
  match op with
  | .plus => return v
  | .minus => τ.settle (-τ.convert v)
  | .complement => τ.settle (-v - 1)
  | .not => return truthValue (v = 0)
| .cast _ _ _ τ a => do
  return τ.values.convert (← a.value)
| .binary op t l r => do
  let a ← l.value
  if op = .logAnd ∧ a = 0 then return 0
  else if op = .logOr ∧ a ≠ 0 then return 1
  else
    let b ← r.value
    (binary op t l r).given.values.settle
      (← exact op t l.given r.given a b)
| .cond q c b t e => do
  let τ := (cond q c b t e).given.values
  if (← b.value) ≠ 0 then return τ.convert (← t.value)
  else return τ.convert (← e.value)
| .comma _ _ r => r.value

variable {a b : Formula} {e : Expr} {i : Info} {τ : ArithType}

/- The values that an expression of an arithmetic type has. -/
theorem valuesOf_eq (hType : i.arith? = some τ) : valuesOf i = τ.values := by
  rcases Option.bind_eq_some_iff.mp hType with ⟨t, hSome, hArith⟩
  rw [CType.arith?_eq_some_iff] at hArith
  rw [valuesOf, hSome, Option.bind_some, CType.values?, hArith]
  rcases τ with (_ | _) | _ | _ <;> rfl

/- The place of an operator has no part in its result. -/
theorem confirmed_exact (op : BinOp) (t u : Token) (a b : Int) :
    Confirmed (op.exact t a b) (op.exact u a b) := by
  intro v hOk
  cases op <;> simp only [BinOp.exact] at hOk ⊢ <;> first | exact hOk | (split at hOk <;> simp_all)

/- An outcome that is not regular says nothing. -/
theorem confirmed_error (i : Irregular) (r : Except Irregular Int) : Confirmed (.error i) r := by
  intro v hOk
  cases hOk

/- Both orders in which two operands are worked out. -/
theorem confirmed_swap {r r' q q' : Except Irregular Int}
    {f f' : Int → Int → Except Irregular Int} (hLeft : Confirmed r r') (hRight : Confirmed q q')
    (hNext : ∀ a b, Confirmed (f a b) (f' b a)) :
    Confirmed (do let a ← r; let b ← q; f a b) (do let b ← q'; let a ← r'; f' b a) := by
  intro v hOk
  cases hFirst : r with
  | error reason =>
    rw [hFirst] at hOk
    cases hOk
  | ok a =>
    cases hSecond : q with
    | error reason =>
      rw [hFirst, hSecond] at hOk
      cases hOk
    | ok b =>
      rw [hFirst, hSecond] at hOk
      rw [hLeft a hFirst, hRight b hSecond]
      exact hNext a b v hOk

/- An operator that uses both operands. -/
theorem value_binary {t : Token} {l r : Formula} (hLogical : op.node.isLogical = false) :
    (binary op t l r).value = (do
      let a ← l.value
      let b ← r.value
      (binary op t l r).given.values.settle (← exact op t l.given r.given a b)) := by
  rw [value]
  cases op <;> first | (cases hLogical; done) | simp

/- The tree of a formula has its value. -/
theorem Carries.confirmed (hCarries : Carries given a e) : Confirmed a.value (ideal false e) := by
  induction hCarries with
  | number hKind hType =>
    simp only [value, hKind, ideal, valuesOf_eq hType]
    exact confirmed_refl _
  | fnumber hKind hType =>
    simp only [value, hKind]
    exact confirmed_error _ _
  | object | constant | assign => exact confirmed_error _ _
  | paren hType hInner ih => exact ih
  | plus hType hInner ih =>
    rw [value]
    simpa using ih
  | minus hType hOperand hInner ih =>
    rw [value, ideal, ideal, valuesOf_eq hType, valuesOf_eq hOperand]
    simp only [bind_assoc, pure_bind]
    exact ih.bind fun v => confirmed_refl _
  | complement hType hInner ih =>
    rw [value, ideal, valuesOf_eq hType]
    exact ih.bind fun v => confirmed_refl _
  | not hType hInner ih =>
    rw [value, ideal]
    exact ih.bind fun v => confirmed_refl _
  | cast hType hInner ih =>
    rw [value, ideal, valuesOf_eq hType]
    exact ih.bind fun v => confirmed_refl _
  | @plain op t l r i a b hOp hType hLeft hRight ihl ihr =>
    have hExact : ∀ x y, exact op t l.given r.given x y = op.node.exact t x y := by
      intro x y
      unfold exact
      rw [if_pos (by simpa using hOp)]
    have hAnd : op.node = .logAnd ↔ op = .logAnd := by cases op <;> decide
    have hOr : op.node = .logOr ↔ op = .logOr := by cases op <;> decide
    rw [value, ideal, valuesOf_eq hType]
    simp only [hAnd, hOr, hExact]
    apply ihl.bind
    intro x
    split
    · exact confirmed_refl _
    split
    · exact confirmed_refl _
    apply ihr.bind
    intro y
    exact (confirmed_exact _ _ _ _ _).bind fun _ => confirmed_refl _
  | @arith op t l r i j k a b hShift hLogical hCompare hType hFirst hSecond hLeft hRight ihl ihr =>
      have hExact : ∀ x y, exact op t l.given r.given x y =
          op.node.exact t ((binary op t l r).given.values.convert x)
            ((binary op t l r).given.values.convert y) := by
        intro x y
        have hSwaps : op.swaps = false := by cases op <;> first | rfl | cases hCompare
        simp [exact, given, hShift, hLogical, hCompare, hSwaps]
      rw [value_binary hLogical, ideal_binary hLogical, ideal, ideal,
        valuesOf_eq hType, valuesOf_eq hFirst, valuesOf_eq hSecond]
      simp only [hExact, bind_assoc, pure_bind]
      apply ihl.bind
      intro x
      apply ihr.bind
      intro y
      exact (confirmed_exact _ _ _ _ _).bind fun _ => confirmed_refl _
  | @compare op t l r i j k a b hCompare hSwaps hType hFirst hSecond hLeft hRight ihl ihr =>
      have hOther : op.node.isLogical = false ∧ op.node.isShift = false := by
        cases op <;> first | (cases hCompare; done) | exact ⟨rfl, rfl⟩
      rw [value_binary hOther.1, ideal_binary hOther.1, ideal, ideal,
        valuesOf_eq hType, valuesOf_eq hFirst, valuesOf_eq hSecond]
      simp only [exact, hOther, hSwaps, Bool.or_self,
        Bool.false_eq_true, if_false, bind_assoc, pure_bind]
      apply ihl.bind
      intro x
      apply ihr.bind
      intro y
      exact (confirmed_exact _ _ _ _ _).bind fun _ => confirmed_refl _
  | @swapped op t l r i j k a b hCompare hSwaps hType hFirst hSecond hLeft hRight ihl ihr =>
      have hOther : op.node.isLogical = false ∧ op.node.isShift = false := by
        cases op <;> first | (cases hCompare; done) | exact ⟨rfl, rfl⟩
      rw [value_binary hOther.1, ideal_binary hOther.1, ideal, ideal,
        valuesOf_eq hType, valuesOf_eq hFirst, valuesOf_eq hSecond]
      simp only [exact, hOther, hSwaps, Bool.or_self,
        Bool.false_eq_true, if_false, if_true, bind_assoc, pure_bind]
      apply confirmed_swap ihl ihr
      intro x y
      exact (confirmed_exact _ _ _ _ _).bind fun _ => confirmed_refl _
  | cond hType hFirst hSecond hTest hThen hElse ihb iht ihe =>
    rw [value, ideal, ideal, ideal, valuesOf_eq hFirst, valuesOf_eq hSecond]
    apply ihb.bind
    intro v
    split
    · exact iht.bind fun _ => confirmed_refl _
    · exact ihe.bind fun _ => confirmed_refl _
  | comma hType hLeft hRight ihl ihr => exact ihr

end Formula

------------
-- Recognition
------------

open Constant (Converted isConstant)

namespace Formula

/-
  A constant expression that is recognised as one: no remainder
  stands in it but beside a choice or a comma that leaves it out,
  and the tests of choices have values.
-/
def Recognized : Formula → Prop
| .number _ => True
| .name _ _ | .assign _ _ _ => False
| .paren _ _ a | .unary _ _ a | .cast _ _ _ _ a => a.Recognized
| .binary op _ l r => op ≠ .mod ∧ l.Recognized ∧ r.Recognized
| .cond _ _ b t e =>
  b.Recognized ∧
    match b.value with
    | .ok v => if v ≠ 0 then t.Recognized else e.Recognized
    | .error _ => False
| .comma _ _ r => r.Recognized

variable {r l : Expr} {i : Info}

/- The operands of a converted tree are converted. -/
theorem converted_operands {op : BinOp} (hTree : Converted (.binary i op l r)) :
    Converted l ∧ Converted r := by cases hTree <;> exact ⟨by assumption, by assumption⟩

theorem converted_operand {op : UnOp} {e : Expr} (hTree : Converted (.unary i op e)) :
    Converted e := by cases hTree <;> assumption

theorem converted_inner {e : Expr} (hTree : Converted (.cast i e)) : Converted e := by
  cases hTree
  assumption

/- An operator on constant operands, but for the remainder. -/
theorem isConstant_binary {env : Constant.Env} (hMod : op ≠ .mod)
    (hLeft : isConstant env l = .ok true) (hRight : isConstant env r = .ok true) :
    isConstant env (.binary i op.node l r) = .ok true := by
  have hNode : ¬ (op.node == .mod) = true := by cases op <;> first | exact absurd rfl hMod | decide
  rw [isConstant, if_neg hNode, hLeft]
  exact hRight

variable {a : Formula} {e : Expr}

/- The trees of recognised formulas are constant. -/
theorem Carries.isConstant (hCarries : Carries given a e) (hTree : Converted e)
    (hRecognized : a.Recognized) (env : Constant.Env) : isConstant env e = .ok true := by
  induction hCarries with
  | number | fnumber => rfl
  | object | constant | assign => cases hRecognized
  | paren hType hInner ih | plus hType hInner ih => exact ih hTree hRecognized
  | minus hType hOperand hInner ih =>
    exact ih (converted_inner (converted_operand hTree)) hRecognized
  | complement hType hInner ih | not hType hInner ih =>
    exact ih (converted_operand hTree) hRecognized
  | cast hType hInner ih => exact ih (converted_inner hTree) hRecognized
  | plain hOp hType hLeft hRight ihl ihr =>
    rcases converted_operands hTree with ⟨hL, hR⟩
    rcases hRecognized with ⟨hMod, hRecL, hRecR⟩
    exact isConstant_binary hMod (ihl hL hRecL) (ihr hR hRecR)
  | arith _ _ _ hType hFirst hSecond hLeft hRight ihl ihr
  | compare _ _ hType hFirst hSecond hLeft hRight ihl ihr =>
    rcases converted_operands hTree with ⟨hL, hR⟩
    rcases hRecognized with ⟨hMod, hRecL, hRecR⟩
    exact isConstant_binary hMod (ihl (converted_inner hL) hRecL) (ihr (converted_inner hR) hRecR)
  | swapped _ _ hType hFirst hSecond hLeft hRight ihl ihr =>
    rcases converted_operands hTree with ⟨hR, hL⟩
    rcases hRecognized with ⟨hMod, hRecL, hRecR⟩
    exact isConstant_binary hMod (ihr (converted_inner hR) hRecR) (ihl (converted_inner hL) hRecL)
  | @cond q c b t e i j k u v w hType hFirst hSecond hTest hThen hElse ihb iht ihe =>
      rcases hRecognized with ⟨hRecB, hTaken⟩
      cases hTree with
      | ternary hOwn hSame hB hT hE =>
      cases hValue : b.value with
      | error reason =>
        rw [hValue] at hTaken
        cases hTaken
      | ok x =>
        rw [hValue] at hTaken
        have hMeets := hB.meets env
        rw [hTest.confirmed x hValue] at hMeets
        rcases hMeets.of_ok with ⟨hHas, hEval⟩
        change (if x ≠ 0 then t.Recognized else e.Recognized) at hTaken
        have hWord : (Int64.ofInt x != 0) = true ↔ x ≠ 0 := by
          rw [bne_iff_ne, Ne, Constant.word_eq_zero hHas]
        rw [Constant.isConstant, ihb hB hRecB, hEval]
        change (if (Int64.ofInt x != 0) = true then Constant.isConstant env v
          else Constant.isConstant env w) = .ok true
        by_cases hZero : x ≠ 0
        · rw [if_pos hZero] at hTaken
          rw [if_pos (hWord.mpr hZero)]
          exact iht (converted_inner hT) hTaken
        · rw [if_neg hZero] at hTaken
          rw [if_neg (mt hWord.mp hZero)]
          exact ihe (converted_inner hE) hTaken
  | comma hType hLeft hRight ihl ihr =>
    cases hTree with
    | comma hType hL hR => exact ihr hR hRecognized

end Formula

------------
-- Lengths
------------

open Constant (isConstant evalInt)

/- What has the same outcome with all tables. -/
theorem Constant.run_ok {α : Type} {f : Env → Except Failure α} {v : α}
    (hOk : ∀ env, f env = .ok v) (s : ParseState) : run f s = .ok v s := by
  simp only [run, bind, EStateM.bind, get, getThe, MonadStateOf.get, EStateM.get, hOk]
  rfl

namespace Formula

variable {s : ParseState} {a : Formula} {e : Expr} {n : Int}

/- A constant expression that is recognised as one is the length of an array. -/
structure Bounds (s : ParseState) (a : Formula) (n : Int) : Prop where
  written : a.Written
  rank : 2 ≤ a.rank
  means : a.Means s
  constant : a.Constant
  recognized : a.Recognized
  value : a.value = .ok n
  range : 0 ≤ n ∧ n < 2 ^ 63

/-
  The tree of such a length gets its types in all states; it is
  constant and has the value.
-/
theorem Bounds.evaluates (hBounds : Bounds s a n) (hTypable : Typable s a e) :
    ∃ e', (∀ s', Typing.addType e s' = .ok e' s') ∧ (∀ env, isConstant env e' = .ok true) ∧
      ∀ s', evalInt e' s' = .ok (Int64.ofInt n) s' := by
  rcases hTypable with ⟨e', hCarries, hAdd, hConstant⟩
  rcases (hConstant hBounds.constant).addType with
    ⟨e'', hAll, hConverted⟩
  have hSame := (hAll (s.before [])).symm.trans (hAdd [])
  cases hSame
  have hIdeal := hCarries.confirmed n hBounds.value
  refine ⟨e', hAll, ?_, ?_⟩
  · exact hCarries.isConstant hConverted hBounds.recognized
  · intro s'
    have hMeets := hConverted.meets ⟨s'.objects, s'.records⟩
    rw [hIdeal] at hMeets
    rw [Constant.evalInt_eq (hCarries.addType s'), hMeets.of_ok.2]
    rfl

theorem Bounds.toInt_word (hBounds : Bounds s a n) : (Int64.ofInt n).toInt = n := by
  rcases hBounds.range with ⟨hLow, hHigh⟩
  exact Int64.toInt_ofInt_of_le (by omega) hHigh

end Formula

end CCompiler
