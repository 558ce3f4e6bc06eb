import Mathlib
import CCompiler.Preprocess.Preprocessor
import CCompiler.Proofs.Syntax.ConvertedTrees

/-
  The values of constant expressions.

  The ideal value of an expression is worked out with numbers
  of any size.  It exists as long as types narrower than 64
  bits hold the result of every operator that is reached, the
  counts of shifts are numbers of bits and no divisor is zero.
  Evaluation in words gives the word of this value, or reports
  the division by zero.  The first operand of a comma counts
  as not reached.

  Main declarations:
    * `Constant.ideal`
    * `Constant.Meets`, `Constant.Converted.meets`
    * `Constant.evalInt_ideal`
-/

------------
-- Ideal Values
------------

namespace CCompiler

variable {i : Info} {t : CType}

namespace Constant

/-
  The ideal value of an expression whose operands have been
  converted.  `whole` says whether the first operands of commas
  are evaluated too.
-/
def ideal (whole : Bool) : Expr → Except Irregular Int
| .num i v => (valuesOf i).settle v.toInt
| .cast i e => do
  return (valuesOf i).convert (← ideal whole e)
| .unary i .neg e => do
  (valuesOf i).settle (-(← ideal whole e))
| .unary i .bitNot e => do
  (valuesOf i).settle (-(← ideal whole e) - 1)
| .unary _ .not e => do
  return truthValue ((← ideal whole e) = 0)
| .binary i op l r => do
  let a ← ideal whole l
  if op = .logAnd ∧ a = 0 then return 0
  else if op = .logOr ∧ a ≠ 0 then return 1
  else
    let b ← ideal whole r
    (valuesOf i).settle (← op.exact i.tok a b)
| .ternary _ c t e => do
  if (← ideal whole c) ≠ 0 then ideal whole t else ideal whole e
| .comma _ l r =>
  if whole then do
    let _ ← ideal whole l
    ideal whole r
  else ideal whole r
| _ => .error .outsideType

/- An outcome with a value has it in another outcome too. -/
def Confirmed (r r' : Except Irregular Int) : Prop :=
  ∀ v, r = .ok v → r' = .ok v

variable {f : Int → Except Irregular Int}

theorem Confirmed.bind {r r' : Except Irregular Int} {f' : Int → Except Irregular Int}
    (hFirst : Confirmed r r') (hNext : ∀ a, Confirmed (f a) (f' a)) :
    Confirmed (r >>= f) (r' >>= f') := by
  intro v hOk
  cases hValue : r with
  | error reason =>
    rw [hValue] at hOk
    cases hOk
  | ok a =>
    rw [hValue] at hOk
    rw [hFirst a hValue]
    exact hNext a v hOk

theorem confirmed_refl (r : Except Irregular Int) : Confirmed r r := by
  intro v hOk
  exact hOk

/- Operands that are left out do not change a value. -/
theorem confirmed_whole :
    ∀ e : Expr, Confirmed (ideal true e) (ideal false e)
| .num i v => by
    unfold ideal
    exact confirmed_refl _
| .cast i e => by
    unfold ideal
    exact (confirmed_whole e).bind fun _ => confirmed_refl _
| .unary i op e => by
    cases op <;> unfold ideal
    case addressOf | deref => exact confirmed_refl _
    all_goals
      exact (confirmed_whole e).bind fun _ => confirmed_refl _
| .binary i op l r => by
    unfold ideal
    apply (confirmed_whole l).bind
    intro a
    split
    · exact confirmed_refl _
    split
    · exact confirmed_refl _
    exact (confirmed_whole r).bind fun _ => confirmed_refl _
| .ternary i c t e => by
    unfold ideal
    apply (confirmed_whole c).bind
    intro a
    split
    · exact confirmed_whole t
    · exact confirmed_whole e
| .comma i l r => by
    unfold ideal
    intro v hOk
    cases hLeft : ideal true l with
    | error reason =>
      rw [hLeft] at hOk
      cases hOk
    | ok a =>
      rw [hLeft] at hOk
      exact confirmed_whole r v hOk
| .null _ | .fnum _ _ | .assign _ _ _ | .member _ _ _
| .call _ _ _ _ _ | .stmtExpr _ _ | .var _ _ | .vlaPtr _ _
| .memZero _ _ | .labelVal _ _ _ | .cas _ _ _ _ | .exch _ _ _ => by
    unfold ideal
    exact confirmed_refl _

------------
-- Words of Ideal Values
------------

open Typing Parse

/- A number. -/
theorem evalNode_num (env : Env) (v : Int64) (hType : i.type? = some t)
    (hFloating : t.isFloating = false) :
    evalNode env false false (.num i v) = .ok (.int v none) := by
  rw [evalNode]
  simp only [Expr.type?, Expr.info, hType, inDouble, hFloating]
  rfl

/-
  What the ideal value of an expression says about an
  evaluation: it gives the word of the value, or reports the
  division by zero.
-/
inductive Meets (τ : IntType) :
    Except Irregular Int → Except Failure ConstValue → Prop
| value {v}
    (hHas : τ.Has v) :
    Meets τ (.ok v) (.ok (.int (.ofInt v) none))
| division {tok} :
    Meets τ (.error (.divisionByZero tok))
      (.error (.fault .divisionByZero tok.place))
| outside {o} :
    Meets τ (.error .outsideType) o
| count {o} :
    Meets τ (.error .shiftCount) o

variable {σ τ : IntType} {r : Except Irregular Int}
  {o : Except Failure ConstValue} {x : Int} {w : Int64}

theorem Meets.bind {g : ConstValue → Except Failure ConstValue} (hFirst : Meets σ r o)
    (hNext : ∀ v, σ.Has v → Meets τ (f v) (g (.int (.ofInt v) none))) :
    Meets τ (r >>= f) (o >>= g) := by
  cases hFirst with
  | value hHas => exact hNext _ hHas
  | division => exact .division
  | outside => exact .outside
  | count => exact .count

theorem Meets.of_ok (hMeets : Meets τ (.ok x) o) : τ.Has x ∧ o = .ok (.int (.ofInt x) none) := by
  cases hMeets with
  | value hHas => exact ⟨hHas, rfl⟩

theorem Meets.of_division {tok : Token} (hMeets : Meets τ (.error (.divisionByZero tok)) o) :
    o = .error (.fault .divisionByZero tok.place) := by
  cases hMeets
  rfl

/- The value of a part as the value of the whole. -/
theorem Meets.passed (hMeets : Meets τ r o) (isUnsigned : Bool) :
    Meets τ r (do
      let v ← o
      .ok (v.convert false isUnsigned)) := by
  cases hMeets with
  | value hHas => exact .value hHas
  | division => exact .division
  | outside => exact .outside
  | count => exact .count

end Constant

------------
-- Evaluation of Nodes
------------

namespace Constant

variable {e : Expr}

/- A conversion. -/
theorem evalNode_cast (env : Env) (hType : i.type? = some t) (hFloating : t.isFloating = false)
    (hInteger : t.isInteger = true) :
    evalNode env false false (.cast i e) = (do
      let v ← evalNode env false false e
      .ok (.int (truncate env.records v.word t) v.symbol?)) := by
  rw [evalNode]
  simp only [Expr.type?, Expr.info, hType, inDouble, hFloating, hInteger]
  rfl

/- A change of the sign, or of every bit. -/
theorem evalNode_sign {op : UnOp} (env : Env) (hType : i.type? = some t)
    (hFloating : t.isFloating = false) (hOp : op = .neg ∨ op = .bitNot) :
    evalNode env false false (.unary i op e) = (do
      let v ← evalNode env false false e
      .ok (.int (if op = .neg then -v.word else ~~~v.word) none)) := by
  rw [evalNode]
  simp only [Expr.type?, Expr.info, hType, inDouble, hFloating]
  rcases hOp with rfl | rfl <;> rfl

theorem evalNode_not (env : Env) (hType : i.type? = some t) (hFloating : t.isFloating = false) :
    evalNode env false false (.unary i .not e) = (do
      let v ← evalNode env false false e
      .ok (.int (ofBool (v.word == 0)) none)) := by
  rw [evalNode]
  simp only [Expr.type?, Expr.info, hType, inDouble, hFloating]
  rfl

variable {op : BinOp} {l : Expr}

/- An operator with its operands evaluated. -/
theorem evalNode_binary {r : Expr} (env : Env) (hType : i.type? = some t)
    (hFloating : t.isFloating = false) (hLogical : op.isLogical = false) :
    evalNode env false false (.binary i op l r) = (do
      let a ← evalNode env false false l
      let b ← evalNode env false false r
      match intBinary? op t (t.size env.records) l.type
        a.word b.word with
      | some v => .ok (.int v a.symbol?)
      | none => .error (.fault .divisionByZero i.tok.place)) := by
  rw [evalNode]
  simp only [Expr.type?, Expr.info, hType, inDouble, hFloating,
    Bool.false_and, Bool.or_false, Bool.false_eq_true, if_false]
  cases op <;> first | (cases hLogical; done) | rfl

/- An operator that may leave out its second operand. -/
theorem evalNode_logical {r : Expr} (env : Env) (hType : i.type? = some t)
    (hFloating : t.isFloating = false) (hOp : op.isLogical = true) :
    evalNode env false false (.binary i op l r) = (do
      let a ← evalNode env false false l
      if op = .logAnd ∧ a.word = 0 then .ok (.int 0 none)
      else if op = .logOr ∧ a.word ≠ 0 then .ok (.int 1 none)
      else
        let b ← evalNode env false false r
        .ok (.int (ofBool (b.word != 0)) none)) := by
  rw [evalNode]
  simp only [Expr.type?, Expr.info, hType, inDouble, hFloating]
  cases op <;> first | (cases hOp; done) | (simp; rfl)

/- A choice between two expressions. -/
theorem evalNode_ternary {c a b : Expr} (env : Env) (hType : i.type? = some t)
    (hFloating : t.isFloating = false) :
    evalNode env false false (.ternary i c a b) = (do
      let v ← evalNode env false false c
      if v.word != 0 then do
        let w ← evalNode env false false a
        .ok (w.convert false t.isUnsigned)
      else do
        let w ← evalNode env false false b
        .ok (w.convert false t.isUnsigned)) := by
  rw [evalNode]
  simp only [Expr.type?, Expr.info, hType, inDouble, hFloating]
  rfl

/- Of a comma only the second operand is evaluated. -/
theorem evalNode_comma {r : Expr} (env : Env) (hType : i.type? = some t)
    (hFloating : t.isFloating = false) :
    evalNode env false false (.comma i l r) = (do
      let v ← evalNode env false false r
      .ok (v.convert false t.isUnsigned)) := by
  rw [evalNode]
  simp only [Expr.type?, Expr.info, hType, inDouble, hFloating]
  rfl

------------
-- Evaluation and Ideal Values
------------

open Typing Parse

variable {σ τ : IntType} {r : Except Irregular Int}
  {o : Except Failure ConstValue} {x : Int} {w : Int64}

/- A number that is settled in its type. -/
theorem meets_settle (τ : IntType) (hWord : w = Int64.ofInt x) :
    Meets τ (τ.settle x) (.ok (.int w none)) := by
  cases hSettle : τ.settle x with
  | ok v =>
    rcases IntType.settle_spec hSettle with ⟨hSame, hHas⟩
    rw [hWord, ← hSame]
    exact .value hHas
  | error i =>
    cases i with
    | divisionByZero tok => exact absurd hSettle IntType.settle_ne_division
    | outsideType => exact .outside
    | shiftCount => exact .count

/- Of the values of a type only zero has the word zero. -/
theorem word_eq_zero {v : Int} (hHas : σ.Has v) : Int64.ofInt v = 0 ↔ v = 0 :=
  hHas.int64_inj (IntType.has_zero σ)

theorem meets_truth (hType : i.type? = some .int) (p : Prop) [Decidable p] :
    Meets (valuesOf i) (.ok (truthValue p)) (.ok (.int (ofBool (decide p)) none)) := by
  rw [ofBool_word, valuesOf, hType]
  exact .value (IntType.has_truthValue p)

/- The ideal value of an operator that uses both operands. -/
theorem ideal_binary {r : Expr} {whole : Bool} (hLogical : op.isLogical = false) :
    ideal whole (.binary i op l r) = (do
      let a ← ideal whole l
      let b ← ideal whole r
      (valuesOf i).settle (← op.exact i.tok a b)) := by
  rw [ideal]
  cases op <;> first | (cases hLogical; done) | simp

/- An operator has no result only for a bad count or a divisor of zero. -/
theorem exact_error {tok : Token} {a b : Int} {reason : Irregular}
    (hExact : op.exact tok a b = .error reason) :
    reason = .shiftCount ∨ reason = .divisionByZero tok ∧
      ∀ t size u x, intBinary? op t size u x (Int64.ofInt b) =
        none := by
  cases op
  case div | mod =>
    simp only [BinOp.exact] at hExact
    split at hExact
    · rename_i hZero
      cases hExact
      subst hZero
      exact .inr ⟨rfl, fun t size u x => rfl⟩
    · cases hExact
  case shl | shr =>
    simp only [BinOp.exact] at hExact
    split at hExact
    · cases hExact
    · cases hExact
      exact .inl rfl
  all_goals cases hExact

/-
  An operator meets its ideal value if on words it gives the
  word of the exact result.
-/
theorem meets_binary {r : Expr} {env : Env} (hType : i.type? = some t)
    (hFloating : t.isFloating = false) (hLogical : op.isLogical = false)
    (hLeft : Meets σ (ideal false l) (evalNode env false false l))
    (hRight : Meets τ (ideal false r) (evalNode env false false r))
    (hWords : ∀ a b x, σ.Has a → τ.Has b → op.exact i.tok a b = .ok x →
      intBinary? op t (t.size env.records) l.type (Int64.ofInt a)
        (Int64.ofInt b) = some (Int64.ofInt x)) :
    Meets (valuesOf i) (ideal false (.binary i op l r))
      (evalNode env false false (.binary i op l r)) := by
  rw [ideal_binary hLogical, evalNode_binary env hType hFloating hLogical]
  apply hLeft.bind
  intro a hA
  apply hRight.bind
  intro b hB
  cases hExact : op.exact i.tok a b with
  | ok x =>
    simp only [ConstValue.word, hWords a b x hA hB hExact]
    exact meets_settle _ rfl
  | error reason =>
    rcases exact_error hExact with rfl | ⟨rfl, hNone⟩
    · exact .count
    · simp only [ConstValue.word, hNone]
      exact .division

/-
  Evaluating a converted tree gives what its ideal value says.
-/
theorem Converted.meets (hTree : Converted e) (env : Env) :
    Meets (valuesOf e.info) (ideal false e) (evalNode env false false e) := by
  induction hTree with
  | @num i t v hType hInteger =>
    rcases CType.exists_values? hInteger with ⟨τ, hValues⟩
    have hShares := CType.shares_values env.records hValues
    rw [evalNode_num env v hType hShares.isFloating]
    exact meets_settle _ (Int64.ofInt_toInt v).symm
  | @cast i t e hType hInteger hInner ih =>
    rcases CType.exists_values? hInteger with ⟨τ, hValues⟩
    have hShares := CType.shares_values env.records hValues
    have hOf : valuesOf i = τ := by
      rw [valuesOf, hType, Option.bind_some, hValues]
      rfl
    rw [evalNode_cast env hType hShares.isFloating hInteger]
    apply ih.bind
    intro v hHas
    change Meets (valuesOf i) (.ok ((valuesOf i).convert v))
      (.ok (.int (truncate env.records (Int64.ofInt v) t) none))
    rw [hOf, truncate_word env.records hValues hHas]
    exact .value (IntType.has_convert τ v)
  | @sign i op e hOp hType hInner ih =>
    rcases hInner.exists_type with ⟨t, τ, hSome, hValues, -⟩
    have hShares := CType.shares_values env.records hValues
    rw [evalNode_sign env (hType.trans hSome) hShares.isFloating hOp]
    rcases hOp with rfl | rfl
    · apply ih.bind
      intro v hHas
      exact meets_settle _ (Int64.ofInt_neg v).symm
    · apply ih.bind
      intro v hHas
      exact meets_settle _ (Word.int64_not v).symm
  | @not i e hType hInner ih =>
    rw [evalNode_not env hType rfl]
    apply ih.bind
    intro v hHas
    simp only [ConstValue.word, Bool.beq_eq_decide_eq, word_eq_zero hHas]
    exact meets_truth hType (v = 0)
  | @logical i op l r hOp hType hLeft hRight ihl ihr =>
    rw [ideal, evalNode_logical env hType rfl hOp]
    apply ihl.bind
    intro a hA
    simp only [ConstValue.word, word_eq_zero hA, ne_eq]
    split
    · exact meets_truth hType False
    split
    · exact meets_truth hType True
    -- the first operand has not decided, so the second one does
    apply ihr.bind
    intro b hB
    have hExact : op.exact i.tok a b = .ok (truthValue (b ≠ 0)) := by
      cases op <;> first | (cases hOp; done) | simp_all [BinOp.exact]
    have hWord : (Int64.ofInt b != 0) = decide (b ≠ 0) := by
      rw [bne, Bool.beq_eq_decide_eq, ← decide_not]
      exact decide_eq_decide.mpr (not_congr (word_eq_zero hB))
    change Meets _ ((op.exact i.tok a b) >>= (valuesOf i).settle)
      (.ok (.int (ofBool (Int64.ofInt b != 0)) none))
    rw [hExact, hWord, ofBool_word]
    exact meets_settle _ rfl
  | @shift i op l r hOp hType hLeft hRight ihl ihr =>
    rcases hLeft.exists_type with ⟨t, τ, hSome, hValues, hOf⟩
    have hShares := CType.shares_values env.records hValues
    have hLogical : op.isLogical = false := by cases op <;> first | rfl | cases hOp
    rw [hOf] at ihl
    apply meets_binary (hType.trans hSome) hShares.isFloating hLogical ihl ihr
    intro a b x hA hB hExact
    exact intBinary?_shift env.records hOp hValues hA hExact
  | @compare i op l r hOp hType hSame hLeft hRight ihl ihr =>
    rcases hLeft.exists_type with ⟨t, τ, hSome, hValues, hOf⟩
    have hShares := CType.shares_values env.records hValues
    have hLogical : op.isLogical = false := by cases op <;> first | rfl | cases hOp
    rw [hOf] at ihl
    rw [← valuesOf_congr hSame, hOf] at ihr
    apply meets_binary hType rfl hLogical ihl ihr
    intro a b x hA hB hExact
    apply intBinary?_comparison _ hOp _ hA hB hExact
    rw [Expr.type, hSome]
    exact hShares.isUnsigned
  | @arith i op l r hLogical hCompare hShift hType hSame hLeft hRight ihl ihr =>
      rcases hLeft.exists_type with ⟨t, τ, hSome, hValues, hOf⟩
      have hShares := CType.shares_values env.records hValues
      rw [hOf] at ihl
      rw [← valuesOf_congr hSame, hOf] at ihr
      apply meets_binary (hType.trans hSome) hShares.isFloating hLogical ihl ihr
      intro a b x hA hB hExact
      exact intBinary?_exact env.records hLogical hCompare hShift hValues hA hB hExact
  | @ternary i c t e hType hSame hTest hThen hElse ihc iht ihe =>
    rcases hThen.exists_type with ⟨u, τ, hSome, hValues, -⟩
    have hShares := CType.shares_values env.records hValues
    have hOwn : valuesOf (Expr.ternary i c t e).info = valuesOf t.info := valuesOf_congr hType
    rw [evalNode_ternary env (hType.trans hSome) hShares.isFloating, ideal, hOwn]
    apply ihc.bind
    intro v hHas
    simp only [ConstValue.word, bne_iff_ne, ne_eq, word_eq_zero hHas]
    split
    · exact iht.passed u.isUnsigned
    · rw [valuesOf_congr hSame]
      exact ihe.passed u.isUnsigned
  | @comma i l r hType hLeft hRight ihl ihr =>
    rcases hRight.exists_type with ⟨t, τ, hSome, hValues, -⟩
    have hShares := CType.shares_values env.records hValues
    have hOwn : valuesOf (Expr.comma i l r).info = valuesOf r.info := valuesOf_congr hType
    rw [evalNode_comma env (hType.trans hSome) hShares.isFloating, ideal, hOwn]
    exact ihr.passed t.isUnsigned

/- An evaluation with the present tables. -/
theorem run_apply {α : Type} (f : Env → Except Failure α) (s : ParseState) :
    run f s = match f ⟨s.objects, s.records⟩ with
      | .ok v => .ok v s
      | .error e => .error e s := by
  simp only [run, bind, EStateM.bind, get, getThe, MonadStateOf.get, EStateM.get]
  cases f ⟨s.objects, s.records⟩ <;> rfl

/- The word of a tree is that of the tree with its types. -/
theorem evalInt_eq {e' : Expr} {s s' : ParseState} (hAdd : Typing.addType e s = .ok e' s') :
    evalInt e s = match evalNode ⟨s'.objects, s'.records⟩ false false e' with
      | .ok v => .ok v.word s'
      | .error f => .error f s' := by
  have hRun := run_apply (fun env => evalNode env false false e') s'
  rw [evalInt, run_bind hAdd]
  cases hEval : evalNode ⟨s'.objects, s'.records⟩ false false e' with
  | ok v =>
    rw [hEval] at hRun
    exact run_bind hRun
  | error f =>
    rw [hEval] at hRun
    change EStateM.bind _ _ s' = _
    unfold EStateM.bind
    rw [hRun]

/-
  A tree of constants gets its types, and is then evaluated to
  the word of its ideal value.  If a divisor that is reached is
  zero, the division is reported at its operator.
-/
theorem evalInt_ideal {e : Expr} (hTree : Arithmetic e) (s : ParseState) :
    ∃ e', Typing.addType e s = .ok e' s ∧ (∀ whole v, ideal whole e' = .ok v →
        (valuesOf e'.info).Has v ∧ evalInt e s = .ok (Int64.ofInt v) s) ∧
      ∀ tok, ideal false e' = .error (.divisionByZero tok) → evalInt e s =
          .error (.fault .divisionByZero tok.place) s := by
  rcases hTree.addType with ⟨e', hAll, hConverted⟩
  have hAdd := hAll s
  have hMeets := hConverted.meets ⟨s.objects, s.records⟩
  refine ⟨e', hAdd, ?_, ?_⟩
  · intro whole v hIdeal
    have hValue : ideal false e' = .ok v := by
      cases whole
      · exact hIdeal
      · exact confirmed_whole e' v hIdeal
    rw [hValue] at hMeets
    rcases hMeets.of_ok with ⟨hHas, hEval⟩
    rw [evalInt_eq hAdd, hEval]
    exact ⟨hHas, rfl⟩
  · intro tok hIdeal
    rw [hIdeal] at hMeets
    rw [evalInt_eq hAdd, hMeets.of_division]

/- A state before anything was read. -/
def blankState : ParseState := { toks := [] }

/- A number of a type, and operators without types. -/
def literal (t : CType) (v : Int64) : Expr :=
  .num ⟨default, some t⟩ v

def operation (op : BinOp) (l r : Expr) : Expr :=
  .binary ⟨default, none⟩ op l r

/- (unsigned char)300 * -7L / 2 < (3u << 4) ? ~0UL >> 60 : 1 / 0 -/
def choiceTree : Expr :=
  .ternary ⟨default, none⟩
    (operation .lt (operation .div (operation .mul
          (.cast ⟨default, some .uchar⟩ (literal .int 300))
          (.unary ⟨default, none⟩ .neg (literal .long 7))) (literal .int 2))
      (operation .shl (literal .uint 3) (literal .int 4)))
    (operation .shr (.unary ⟨default, none⟩ .bitNot (literal .ulong 0))
      (literal .int 60))
    (operation .div (literal .int 1) (literal .int 0))

/- 0 || 1 % (2 - 2) -/
def zeroTree : Expr :=
  operation .logOr (literal .int 0)
    (operation .mod (literal .int 1)
      (operation .sub (literal .int 2) (literal .int 2)))

theorem arithmetic_literal (hInteger : t.isInteger) (v : Int64) : Arithmetic (literal t v) := by
  apply Arithmetic.num
  rintro u ⟨⟩
  exact hInteger

theorem arithmetic_choiceTree : Arithmetic choiceTree := by
  refine .ternary rfl (.binary rfl (.binary rfl (.binary rfl
    (.cast rfl rfl ?_ rfl) (.unary rfl (.inl rfl) ?_)) ?_)
    (.binary rfl ?_ ?_)) (.binary rfl (.unary rfl (.inr (.inr rfl)) ?_) ?_) (.binary rfl ?_ ?_)
  all_goals exact arithmetic_literal rfl _

theorem arithmetic_zeroTree : Arithmetic zeroTree := by
  refine .binary rfl ?_ (.binary rfl ?_ (.binary rfl ?_ ?_))
  all_goals exact arithmetic_literal rfl _

/- A choice that leaves out a division by zero, and one that reaches it. -/
theorem evalInt_ideal_choice :
    evalInt choiceTree blankState = .ok 15 blankState ∧
    evalInt zeroTree blankState = .error (.fault .divisionByZero (default : Token).place)
        blankState := by
  constructor
  · rcases evalInt_ideal arithmetic_choiceTree blankState with
      ⟨e, hAdd, hValue, -⟩
    cases hAdd
    exact (hValue true 15 rfl).2
  · rcases evalInt_ideal arithmetic_zeroTree blankState with
      ⟨e, hAdd, -, hDivision⟩
    cases hAdd
    exact hDivision default rfl

/- The word of an expression in a text without macros and files. -/
def wordOf? (text : String) : Option Int64 :=
  match (Preprocessor.process (ascii "m.c") (some (ascii text)) []).run {} with
  | .error _ _ => none
  | .ok ts _ =>
    match (TranslationUnit.constant ts).result with
    | .ok (v, _) => some v
    | .error _ => none

/- (1 / 0, 2) -/
def commaTree : Expr :=
  .comma ⟨default, none⟩
    (operation .div (literal .int 1) (literal .int 0))
    (literal .int 2)

/-
  The first operand of a comma is not evaluated, and a division
  by zero in it is not reported.
-/
theorem comma_hides_division :
    Arithmetic commaTree ∧ (∃ e, Typing.addType commaTree blankState =
        .ok e blankState ∧ ideal true e = .error (.divisionByZero default)) ∧
    evalInt commaTree blankState = .ok 2 blankState ∧
    wordOf? "(1 / 0, 2)" = some 2 := by
  refine ⟨?_, ⟨_, rfl, rfl⟩, rfl, by decide +kernel⟩
  exact .comma rfl (.binary rfl (arithmetic_literal rfl 1)
    (arithmetic_literal rfl 0)) (arithmetic_literal rfl 2)

end Constant

end CCompiler
