import Mathlib
import CCompiler.Proofs.Preprocess.Watched
import CCompiler.Proofs.Syntax.ConstantBounds

/-
  The values of conditions.

  In the condition of a group all signed types are the widest
  signed one and all unsigned types the widest unsigned one.
  The evaluator of constant expressions gives constants their
  ordinary types instead and converts operands to these.  Both
  agree as long as no conversion that is reached cuts bits off
  an operand, and no operator that reads the signs of its
  operands finds them to be of another sign.

  Main declarations:
    * `Formula.wideValue`
    * `Formula.Kept`, `Formula.Uncut`
    * `Formula.Carries.wide`
    * `Directive.conditionTokens`, `Directive.condition_wide`
-/

------------
-- Values in the Widest Types
------------

namespace CCompiler

/- The widest type with or without a sign. -/
def IntType.widest (isUnsigned : Bool) : IntType :=
  .of .long isUnsigned

namespace Formula

/-
  Whether a constant has no sign where all types are the widest
  ones: one that is written as unsigned, or too large.
-/
def isUnsignedConstant (t : Token) : Bool :=
  match t.kind with
  | .int .uint _ => t.text.any fun c => c == 117 || c == 85
  | _ => (numberType t).values.isUnsigned

/- Whether a formula has no sign where all types are the widest ones. -/
def isUnsigned : Formula → Bool
| .number t => isUnsignedConstant t
| .name _ τ | .cast _ _ _ τ _ => τ.values.isUnsigned
| .paren _ _ a => a.isUnsigned
| .unary op _ a => op != .not && a.isUnsigned
| .binary op _ l r =>
  if op.node.isShift then l.isUnsigned
  else if op.node.isLogical || op.node.isComparison then false
  else l.isUnsigned || r.isUnsigned
| .cond _ _ _ t e => t.isUnsigned || e.isUnsigned
| .comma _ _ r => r.isUnsigned
| .assign _ l _ => l.isUnsigned

/- The type of a formula where all types are the widest ones. -/
def widest (a : Formula) : IntType :=
  .widest a.isUnsigned

/- The type that both operands of an operator have in common there. -/
def shared (l r : Formula) : IntType :=
  .widest (l.isUnsigned || r.isUnsigned)

/- The number that an operator gives for values of the widest types. -/
def wideExact (op : Dyadic) (t : Token) (l r : Formula) (a b : Int) :
    Except Irregular Int :=
  if op.node.isShift || op.node.isLogical then op.node.exact t a b
  else if op.swaps then
    op.node.exact t ((shared l r).convert b) ((shared l r).convert a)
  else
    op.node.exact t ((shared l r).convert a) ((shared l r).convert b)

/-
  The value of a formula of integer constants, all operands and
  results being numbers of the widest types.
-/
def wideValue : Formula → Except Irregular Int
| .number t =>
  match t.kind with
  | .int _ v => .ok ((number t).widest.convert v.toInt)
  | _ => .error .outsideType
| .name _ _ | .cast _ _ _ _ _ | .assign _ _ _ => .error .outsideType
| .paren _ _ a => a.wideValue
| .unary op t a => do
  let v ← a.wideValue
  match op with
  | .plus => return v
  | .minus => return (unary op t a).widest.convert (-v)
  | .complement => return (unary op t a).widest.convert (-v - 1)
  | .not => return truthValue (v = 0)
| .binary op t l r => do
  let a ← l.wideValue
  if op = .logAnd ∧ a = 0 then return 0
  else if op = .logOr ∧ a ≠ 0 then return 1
  else
    let b ← r.wideValue
    return (binary op t l r).widest.convert (← wideExact op t l r a b)
| .cond q c b t e => do
  let τ := (cond q c b t e).widest
  if (← b.wideValue) ≠ 0 then return τ.convert (← t.wideValue)
  else return τ.convert (← e.wideValue)
| .comma _ l r => do
  let _ ← l.wideValue
  r.wideValue

end Formula

------------
-- Conversions that Cut Nothing Off
------------

/- A conversion to a type keeps the word of a number. -/
def IntType.KeepsWord (τ : IntType) (x : Int) : Prop :=
  τ.convert x ≡ x [ZMOD 2 ^ 64]

theorem IntType.Has.keepsWord {τ : IntType} {x : Int} (hHas : τ.Has x) : τ.KeepsWord x := by
  rw [IntType.KeepsWord, IntType.convert_of_has hHas]

/- Whether the result of an operator depends on the signs of its operands. -/
def Dyadic.readsSign : Dyadic → Bool
| .div | .mod | .lt | .le | .gt | .ge => true
| _ => false

namespace Formula

/-
  The type that both operands of an operator have in common in
  expressions that are no conditions.
-/
def ordinary (op : Dyadic) (l r : Formula) : IntType :=
  (if op.swaps then r.given.merged l.given else l.given.merged r.given).values

/-
  Nothing of the operands of an operator is lost in its ordinary
  type: their words are kept, and where their signs are read,
  so are the numbers.
-/
def Kept (op : Dyadic) (l r : Formula) (a b : Int) : Prop :=
  match op with
  | .logAnd | .logOr | .shl => True
  | .shr => (IntType.widest (l.given.values = .of .long true)).Has a
  | op =>
    let τ := ordinary op l r
    if op.readsSign then
      τ.Has ((shared l r).convert a) ∧ τ.Has ((shared l r).convert b)
    else
      τ.KeepsWord ((shared l r).convert a) ∧
        τ.KeepsWord ((shared l r).convert b)

/- A formula of integer constants: without names, conversions and assignments. -/
def OfConstants : Formula → Prop
| .number t => ∃ type v, t.kind = .int type v ∧
    (CType.ofLit type).isInteger = true
| .name _ _ | .cast _ _ _ _ _ | .assign _ _ _ => False
| .paren _ _ a | .unary _ _ a => a.OfConstants
| .binary _ _ l r | .comma _ l r => l.OfConstants ∧ r.OfConstants
| .cond _ _ b t e => b.OfConstants ∧ t.OfConstants ∧ e.OfConstants

/- No conversion that is reached cuts anything off its operand. -/
def Uncut : Formula → Prop
| .number _ | .name _ _ | .cast _ _ _ _ _ | .assign _ _ _ => True
| .paren _ _ a => a.Uncut
| .unary op t a =>
  a.Uncut ∧ (op = .minus → ∀ v, a.wideValue = .ok v →
    (unary op t a).given.values.KeepsWord v)
| .binary op _ l r =>
  l.Uncut ∧ ∀ a, l.wideValue = .ok a →
    ¬ (op = .logAnd ∧ a = 0 ∨ op = .logOr ∧ a ≠ 0) →
      r.Uncut ∧ ∀ b, r.wideValue = .ok b → Kept op l r a b
| .cond q c b t e =>
  let keeps (x : Int) : Prop :=
    (cond q c b t e).given.values.KeepsWord
      ((cond q c b t e).widest.convert x)
  b.Uncut ∧ ∀ v, b.wideValue = .ok v →
    if v ≠ 0 then t.Uncut ∧ ∀ x, t.wideValue = .ok x → keeps x
    else e.Uncut ∧ ∀ x, e.wideValue = .ok x → keeps x
| .comma _ _ r => r.Uncut

end Formula

------------
-- Evaluation in the Widest Types
------------

open Constant

namespace Formula

variable {a l r : Formula} {e : Expr} {i : Info} {v : Int}

theorem OfConstants.constant (hConstants : a.OfConstants) : a.Constant := by
  induction a with
  | number t => exact hConstants
  | name | cast | assign => cases hConstants
  | paren o c a ih | unary op t a ih => exact ih hConstants
  | binary op t l r ihl ihr | comma t l r ihl ihr => exact ⟨ihl hConstants.1, ihr hConstants.2⟩
  | cond q c b t e ihb iht ihe => exact ⟨ihb hConstants.1, iht hConstants.2.1, ihe hConstants.2.2⟩

theorem OfConstants.means (hConstants : a.OfConstants) (s : ParseState) : a.Means s := by
  induction a with
  | number t => exact trivial
  | name | cast | assign => cases hConstants
  | paren o c a ih | unary op t a ih => exact ih hConstants
  | binary op t l r ihl ihr | comma t l r ihl ihr => exact ⟨ihl hConstants.1, ihr hConstants.2⟩
  | cond q c b t e ihb iht ihe => exact ⟨ihb hConstants.1, iht hConstants.2.1, ihe hConstants.2.2⟩

theorem has_truthValue_wide (u : Bool) (p : Prop) [Decidable p] :
    (IntType.widest u).Has (truthValue p) := by
  unfold truthValue
  split <;> cases u <;> decide

/- Values are numbers of their widest types. -/
theorem wideValue_has (hValue : a.wideValue = .ok v) : a.widest.Has v := by
  induction a generalizing v with
  | number t =>
    rw [wideValue] at hValue
    split at hValue <;> cases hValue
    exact IntType.has_convert _ _
  | name | cast | assign => cases hValue
  | paren o c a ih => exact ih hValue
  | unary op t a ih =>
    rcases exists_of_bind_ok hValue with ⟨x, hInner, hResult⟩
    cases op <;> cases hResult
    · exact ih hInner
    · exact IntType.has_convert _ _
    · exact IntType.has_convert _ _
    · exact has_truthValue_wide _ _
  | binary op t l r ihl ihr =>
    rcases exists_of_bind_ok hValue with ⟨x, hLeft, hRest⟩
    split at hRest
    · cases hRest
      exact IntType.has_zero _
    split at hRest
    · cases hRest
      exact has_truthValue_wide _ True
    rcases exists_of_bind_ok hRest with ⟨y, hRight, hRest⟩
    rcases exists_of_bind_ok hRest with ⟨z, hExact, hResult⟩
    cases hResult
    exact IntType.has_convert _ _
  | cond q c b t e ihb iht ihe =>
    rcases exists_of_bind_ok hValue with ⟨x, hTest, hRest⟩
    split at hRest <;> rcases exists_of_bind_ok hRest with ⟨y, hTaken, hResult⟩ <;>
      cases hResult <;> exact IntType.has_convert _ _
  | comma t l r ihl ihr =>
    rcases exists_of_bind_ok hValue with ⟨x, -, hRight⟩
    exact ihr hRight

/- A conversion to a widest type changes no word. -/
theorem word_widest (u : Bool) (x : Int) :
    Int64.ofInt ((IntType.widest u).convert x) = Int64.ofInt x :=
  Word.int64_congr (IntType.convert_modEq .long u x)

variable {env : Env} {j : Info}

/- A conversion of a word that keeps it. -/
theorem evalNode_kept {τ : ArithType} {σ : IntType} (hTree : Converted (.cast j e))
    (hType : j.arith? = some τ) (hEval : evalNode env false false e = .ok (.int (.ofInt v) none))
    (hHas : σ.Has v) (hKept : τ.values.KeepsWord v) :
    evalNode env false false (.cast j e) = .ok (.int (.ofInt v) none) := by
  rcases hTree.exists_type with ⟨t, ρ, hSome, hValues, hOf⟩
  change j.type? = some t at hSome
  have hSame : ρ = τ.values := hOf.symm.trans (valuesOf_eq hType)
  have hShares := CType.shares_values env.records hValues
  rw [evalNode_cast env hSome hShares.isFloating hShares.isInteger, hEval]
  change Except.ok (ConstValue.int (truncate env.records (Int64.ofInt v) t) none) = _
  rw [truncate_word env.records hValues hHas, hSame, Word.int64_congr hKept]

/- The value of an operator that uses both operands. -/
theorem wideValue_binary {op : Dyadic} {t : Token} (hLogical : op.node.isLogical = false) :
    (binary op t l r).wideValue = (do
      let a ← l.wideValue
      let b ← r.wideValue
      return (binary op t l r).widest.convert (← wideExact op t l r a b)) := by
  rw [wideValue]
  cases op <;> first | (cases hLogical; done) | simp

variable {A B : Expr}

section Operators

variable {op : BinOp} {t u : CType} {τ σ ω : IntType} {x y z : Int}
  {tok : Token} {size : Int}

/- Operators on words that do not read the signs of their operands. -/
theorem intBinary?_plain
    (hOp : op = .add ∨ op = .sub ∨ op = .mul ∨ op = .bitAnd ∨
      op = .bitOr ∨ op = .bitXor) (hExact : op.exact tok x y = .ok z) :
    intBinary? op t size u (.ofInt x) (.ofInt y) = some (.ofInt z) := by
  rcases hOp with rfl | rfl | rfl | rfl | rfl | rfl <;> cases hExact
  · exact congrArg some (Int64.ofInt_add x y).symm
  · exact congrArg some (Int64.ofInt_sub x y).symm
  · exact congrArg some (Int64.ofInt_mul x y).symm
  · exact congrArg some (Word.int64_land x y).symm
  · exact congrArg some (Word.int64_lor x y).symm
  · exact congrArg some (Word.int64_xor x y).symm

/- Words of numbers of one type are equal just if the numbers are. -/
theorem intBinary?_equality (hOp : op = .eq ∨ op = .ne) (hLeft : σ.Has x) (hRight : σ.Has y)
    (hExact : op.exact tok x y = .ok z) :
    intBinary? op t size u (.ofInt x) (.ofInt y) = some (.ofInt z) := by
  have hEqual : (Int64.ofInt x == Int64.ofInt y) = decide (x = y) := by
    rw [Bool.beq_eq_decide_eq]
    exact decide_eq_decide.mpr (hLeft.int64_inj hRight)
  rcases hOp with rfl | rfl <;> cases hExact
  · simp only [intBinary?, hEqual, ofBool_word]
  · simp only [intBinary?, bne, hEqual, ← decide_not, ofBool_word]

/- A shift of a number whose sign its type has. -/
theorem intBinary?_wide_shift (rs : Records) (hValues : t.values? = some τ)
    (hOp : op = .shl ∨ op = .shr ∧ (IntType.widest (τ = .of .long true)).Has x)
    (hExact : op.exact tok x y = .ok z) :
    intBinary? op t (t.size rs) u (.ofInt x) (.ofInt y) = some (.ofInt z) := by
  have hShares := CType.shares_values rs hValues
  have hLong : (t.isUnsigned && t.size rs == 8) = decide (τ = .of .long true) := by
    rw [hShares.isUnsigned, hShares.size]
    rcases τ with _ | ⟨k, v⟩
    · rfl
    · cases k <;> cases v <;> rfl
  rcases hOp with rfl | ⟨rfl, hHas⟩ <;> simp only [BinOp.exact] at hExact <;>
    split at hExact <;> cases hExact
  · rename_i hCount
    simp only [intBinary?, Word.int64_shiftLeft hCount.1 hCount.2]
  · rename_i hCount
    simp only [intBinary?, hLong]
    split
    · rename_i hIs
      rw [hIs] at hHas
      have hRange : 0 ≤ x ∧ x ≤ 2 ^ 64 - 1 := hHas
      rw [Word.int64_ushiftRight hCount.1 hCount.2 hRange.1 (by omega)]
    · rename_i hIs
      rw [Bool.eq_false_of_not_eq_true hIs] at hHas
      have hRange : -2 ^ 63 ≤ x ∧ x ≤ 2 ^ 63 - 1 := hHas
      rw [Word.int64_shiftRight hCount.1 hCount.2 hRange.1 (by omega)]

/-
  Operators that convert their operands: on words that were
  kept they give the word of the exact result.
-/
theorem intBinary?_kept {op : Dyadic} (rs : Records) (hShift : op.node.isShift = false)
    (hLogical : op.node.isLogical = false)
    (hValues : op.node.isComparison = false → t.values? = some τ)
    (hOperands : u.isUnsigned = τ.toCType.isUnsigned) (hLeft : σ.Has x) (hRight : σ.Has y)
    (hKept : op.readsSign = true → τ.Has x ∧ τ.Has y) (hExact : op.node.exact tok x y = .ok z) :
    intBinary? op.node t (t.size rs) u (.ofInt x) (.ofInt y) = some (.ofInt z) := by
  cases op
  case add | sub | mul | bitAnd | bitOr | bitXor =>
    exact intBinary?_plain (by simp [Dyadic.node]) hExact
  case eq | ne => exact intBinary?_equality (by simp [Dyadic.node]) hLeft hRight hExact
  case lt | le | gt | ge =>
    have hHas := hKept rfl
    exact intBinary?_comparison _ rfl hOperands hHas.1 hHas.2 hExact
  case div | mod =>
    have hHas := hKept rfl
    exact intBinary?_exact rs rfl rfl rfl (hValues rfl) hHas.1 hHas.2 hExact
  case shl | shr => cases hShift
  case logAnd | logOr => cases hLogical

/- An operator on operands that have been evaluated. -/
theorem evalNode_operator {v w : Int64} (hType : i.type? = some t)
    (hFloating : t.isFloating = false) (hLogical : op.isLogical = false)
    (hLeft : evalNode env false false A = .ok (.int v none))
    (hRight : evalNode env false false B = .ok (.int w none))
    (hWords : intBinary? op t (t.size env.records) A.type v w =
      some (.ofInt z)) :
    evalNode env false false (.binary i op A B) = .ok (.int (.ofInt z) none) := by
  rw [evalNode_binary env hType hFloating hLogical, hLeft, hRight]
  simp only [bind, Except.bind, ConstValue.word, hWords]
  rfl

/- An operator on operands that were converted without a loss. -/
theorem evalNode_converting {op : Dyadic} {ρ : ArithType} {k : Info}
    (hTree : Converted (.binary i op.node (.cast j A) (.cast k B)))
    (hShift : op.node.isShift = false) (hLogical : op.node.isLogical = false)
    (hFirst : j.arith? = some ρ) (hSecond : k.arith? = some ρ)
    (hEvalA : evalNode env false false A = .ok (.int (.ofInt x) none))
    (hEvalB : evalNode env false false B = .ok (.int (.ofInt y) none)) (hLeft : σ.Has x)
    (hRight : σ.Has y)
    (hKept : if op.readsSign then ρ.values.Has x ∧ ρ.values.Has y
      else ρ.values.KeepsWord x ∧ ρ.values.KeepsWord y) (hExact : op.node.exact tok x y = .ok z) :
    evalNode env false false (.binary i op.node (.cast j A) (.cast k B)) =
      .ok (.int (.ofInt z) none) := by
  rcases converted_operands hTree with ⟨hL, hR⟩
  have hWords : ρ.values.KeepsWord x ∧ ρ.values.KeepsWord y := by
    split at hKept
    · exact ⟨hKept.1.keepsWord, hKept.2.keepsWord⟩
    · exact hKept
  have hSigns : op.readsSign = true → ρ.values.Has x ∧ ρ.values.Has y := by
    intro hReads
    rwa [if_pos hReads] at hKept
  rcases hTree.exists_type with ⟨t, τ, hSome, hValues, -⟩
  change i.type? = some t at hSome
  rcases hL.exists_type with ⟨u, τ', hSomeL, hValuesL, hOf⟩
  change j.type? = some u at hSomeL
  have hSame : τ' = ρ.values := hOf.symm.trans (valuesOf_eq hFirst)
  rw [hSame] at hValuesL
  refine evalNode_operator hSome (CType.shares_values env.records hValues).isFloating hLogical
    (evalNode_kept hL hFirst hEvalA hLeft hWords.1)
    (evalNode_kept hR hSecond hEvalB hRight hWords.2) ?_
  refine intBinary?_kept env.records hShift hLogical ?_ ?_ hLeft hRight hSigns hExact
  · intro hCompare
    have hOwn : i.type? = j.type? := by
      cases hTree with
      | arith _ _ _ hType => exact hType
      | compare hOp => rw [hCompare] at hOp; cases hOp
      | shift hOp => rw [hShift] at hOp; cases hOp
      | logical hOp => rw [hLogical] at hOp; cases hOp
    rw [hOwn, hSomeL] at hSome
    cases hSome
    exact hValuesL
  · have hType : (Expr.cast j A).type = u := by
      rw [Expr.type, Expr.type?, Expr.info, hSomeL]
      rfl
    rw [hType]
    exact (CType.shares_values #[] hValuesL).isUnsigned

end Operators

/- An operator with its operands cuts nothing off. -/
theorem uncut_binary {op : Dyadic} {t : Token} {x y : Int} (hLeft : l.Uncut) (hRight : r.Uncut)
    (hX : l.wideValue = .ok x) (hY : r.wideValue = .ok y) (hKept : Kept op l r x y) :
    (binary op t l r).Uncut := by
  refine ⟨hLeft, fun x' hX' _ => ⟨hRight, fun y' hY' => ?_⟩⟩
  cases hX.symm.trans hX'
  cases hY.symm.trans hY'
  exact hKept

/- The parts of the value of an operator that uses both operands. -/
theorem exists_operands {op : Dyadic} {t : Token} (hLogical : op.node.isLogical = false)
    (hUncut : (binary op t l r).Uncut) (hValue : (binary op t l r).wideValue = .ok v) :
    ∃ x y z, l.wideValue = .ok x ∧ r.wideValue = .ok y ∧ r.Uncut ∧
      Kept op l r x y ∧ wideExact op t l r x y = .ok z ∧
      v = (binary op t l r).widest.convert z := by
  rw [wideValue_binary hLogical] at hValue
  rcases exists_of_bind_ok hValue with ⟨x, hX, hRest⟩
  rcases exists_of_bind_ok hRest with ⟨y, hY, hRest⟩
  rcases exists_of_bind_ok hRest with ⟨z, hExact, hResult⟩
  cases hResult
  have hDecides : ¬ (op = .logAnd ∧ x = 0 ∨ op = .logOr ∧ x ≠ 0) := by
    rintro (⟨rfl, -⟩ | ⟨rfl, -⟩) <;> cases hLogical
  rcases hUncut.2 x hX hDecides with ⟨hRight, hKept⟩
  exact ⟨x, y, z, hX, hY, hRight, hKept y hY, hExact, rfl⟩

section Converting

variable {op : Dyadic} {t : Token} {x y : Int}

theorem comparison_converts (hCompare : op.node.isComparison = true) :
    op.node.isShift = false ∧ op.node.isLogical = false := by
  cases op <;> first | (cases hCompare; done) | exact ⟨rfl, rfl⟩

theorem wideExact_unswapped (hShift : op.node.isShift = false)
    (hLogical : op.node.isLogical = false) (hSwaps : op.swaps = false) :
    wideExact op t l r x y = op.node.exact t ((shared l r).convert x)
        ((shared l r).convert y) := by simp [wideExact, hShift, hLogical, hSwaps]

theorem wideExact_swapped (hShift : op.node.isShift = false)
    (hLogical : op.node.isLogical = false) (hSwaps : op.swaps = true) :
    wideExact op t l r x y = op.node.exact t ((shared l r).convert y)
        ((shared l r).convert x) := by simp [wideExact, hShift, hLogical, hSwaps]

theorem ordinary_unswapped (hSwaps : op.swaps = false) :
    ordinary op l r = (l.given.merged r.given).values := by simp [ordinary, hSwaps]

theorem ordinary_swapped (hSwaps : op.swaps = true) :
    ordinary op l r = (r.given.merged l.given).values := by simp [ordinary, hSwaps]

theorem kept_converting (hShift : op.node.isShift = false) (hLogical : op.node.isLogical = false)
    (hKept : Kept op l r x y) :
    if op.readsSign then
      (ordinary op l r).Has ((shared l r).convert x) ∧
        (ordinary op l r).Has ((shared l r).convert y)
    else
      (ordinary op l r).KeepsWord ((shared l r).convert x) ∧
        (ordinary op l r).KeepsWord ((shared l r).convert y) := by
  cases op <;> first | (cases hShift; done) | (cases hLogical; done) | exact hKept

end Converting

/- An operator that may leave out its second operand. -/
theorem evalNode_wide_logical {op : Dyadic} {t : Token} (hInt : i.type? = some .int)
    (hLogical : op.node.isLogical = true)
    (hLeft : ∀ {x}, l.wideValue = .ok x →
      evalNode env false false A = .ok (.int (.ofInt x) none))
    (hRight : ∀ {y}, r.Uncut → r.wideValue = .ok y →
      evalNode env false false B = .ok (.int (.ofInt y) none)) (hUncut : (binary op t l r).Uncut)
    (hValue : (binary op t l r).wideValue = .ok v) :
    evalNode env false false (.binary i op.node A B) = .ok (.int (.ofInt v) none) := by
  have hAnd : op.node = .logAnd ↔ op = .logAnd := by cases op <;> decide
  have hOr : op.node = .logOr ↔ op = .logOr := by cases op <;> decide
  rcases exists_of_bind_ok hValue with ⟨x, hX, hRest⟩
  have hZero : Int64.ofInt x = 0 ↔ x = 0 := word_eq_zero (wideValue_has hX)
  have hNonzero : Int64.ofInt x ≠ 0 ↔ x ≠ 0 := not_congr hZero
  rw [evalNode_logical env hInt rfl hLogical, hLeft hX]
  simp only [bind, Except.bind, ConstValue.word, hAnd, hOr, hZero, hNonzero]
  split at hRest
  · rename_i hFalse
    cases hRest
    rw [if_pos hFalse]
    rfl
  rename_i hTrue
  split at hRest
  · rename_i hDecides
    cases hRest
    rw [if_neg hTrue, if_pos hDecides]
    rfl
  rename_i hOpen
  rw [if_neg hTrue, if_neg hOpen]
  rcases exists_of_bind_ok hRest with ⟨y, hY, hRest⟩
  rcases exists_of_bind_ok hRest with ⟨z, hExact, hResult⟩
  cases hResult
  have hSecond := (hUncut.2 x hX (not_or.mpr ⟨hTrue, hOpen⟩)).1
  rw [hRight hSecond hY]
  have hWord : (Int64.ofInt y != 0) = decide (y ≠ 0) := by
    rw [bne, Bool.beq_eq_decide_eq, ← decide_not]
    exact decide_eq_decide.mpr (not_congr (word_eq_zero (wideValue_has hY)))
  have hResult : z = truthValue (y ≠ 0) := by
    rw [wideExact, if_pos (by simp [hLogical])] at hExact
    cases op <;> first | (cases hLogical; done) | skip
    all_goals
      cases hExact
      simp_all
  simp only [hWord, ofBool_word, hResult, widest, word_widest]

/-
  As long as nothing is cut off, a tree is evaluated to the word
  of the value in the widest types.
-/
theorem Carries.wide (hCarries : Carries given a e) (hTree : Converted e) (hUncut : a.Uncut)
    (hValue : a.wideValue = .ok v) (env : Env) :
    evalNode env false false e = .ok (.int (.ofInt v) none) := by
  induction hCarries generalizing v with
  | @number t i type w hKind hType =>
    rcases hTree.exists_type with ⟨u, ρ, hSome, hValues, -⟩
    change i.type? = some u at hSome
    rw [evalNode_num env w hSome (CType.shares_values env.records hValues).isFloating]
    simp only [wideValue, hKind, Except.ok.injEq] at hValue
    rw [← hValue, widest, word_widest, Int64.ofInt_toInt]
  | fnumber hKind hType => simp [wideValue, hKind] at hValue
  | object | constant | cast | assign => cases hValue
  | paren hType hInner ih => exact ih hTree hUncut hValue
  | plus hType hInner ih =>
    rcases exists_of_bind_ok hValue with ⟨x, hX, hResult⟩
    cases hResult
    exact ih hTree hUncut.1 hX
  | @minus t a i j e hType hOperand hInner ih =>
    rcases exists_of_bind_ok hValue with ⟨x, hX, hResult⟩
    cases hResult
    have hCast := converted_operand hTree
    have hKept := evalNode_kept hCast hOperand
      (ih (converted_inner hCast) hUncut.1 hX) (wideValue_has hX)
      (hUncut.2 rfl x hX)
    rcases hTree.exists_type with ⟨u, ρ, hSome, hValues, -⟩
    change i.type? = some u at hSome
    rw [evalNode_sign env hSome (CType.shares_values env.records hValues).isFloating (.inl rfl),
      hKept, widest, word_widest, Int64.ofInt_neg]
    rfl
  | @complement t a i e hType hInner ih =>
    rcases exists_of_bind_ok hValue with ⟨x, hX, hResult⟩
    cases hResult
    rcases hTree.exists_type with ⟨u, ρ, hSome, hValues, -⟩
    change i.type? = some u at hSome
    rw [evalNode_sign env hSome (CType.shares_values env.records hValues).isFloating (.inr rfl),
      ih (converted_operand hTree) hUncut.1 hX, widest, word_widest,
      Word.int64_not]
    rfl
  | @not t a i e hType hInner ih =>
    rcases exists_of_bind_ok hValue with ⟨x, hX, hResult⟩
    cases hResult
    have hInt : i.type? = some .int := by
      cases hTree with
      | not hInt => exact hInt
      | sign hOp => rcases hOp with hOp | hOp <;> cases hOp
    rw [evalNode_not env hInt rfl, ih (converted_operand hTree) hUncut.1 hX]
    change Except.ok (ConstValue.int (ofBool (Int64.ofInt x == 0)) none) = _
    rw [Bool.beq_eq_decide_eq, ofBool_word]
    simp only [word_eq_zero (wideValue_has hX)]
  | @plain op t l r i a b hOp hType hLeft hRight ihl ihr =>
    rcases converted_operands hTree with ⟨hL, hR⟩
    rcases hTree.exists_type with ⟨u, ρ, hSome, hValues, hOf⟩
    have hSame : ρ = (binary op t l r).given.values := hOf.symm.trans (valuesOf_eq hType)
    change i.type? = some u at hSome
    have hFloating := (CType.shares_values env.records hValues).isFloating
    rcases hOp with hShift | hLogical
    · have hLogical : op.node.isLogical = false := by cases op <;> first | rfl | cases hShift
      rcases exists_operands hLogical hUncut hValue with
        ⟨x, y, z, hX, hY, hUncutR, hKept, hExact, rfl⟩
      rw [given, if_pos hShift] at hSame
      rw [wideExact, if_pos (by simp [hShift])] at hExact
      rw [widest, word_widest]
      refine evalNode_operator hSome hFloating hLogical (ihl hL hUncut.1 hX) (ihr hR hUncutR hY) ?_
      refine intBinary?_wide_shift env.records hValues ?_ hExact
      cases op <;> first | (cases hShift; done) | exact .inl rfl | skip
      exact .inr ⟨rfl, hSame ▸ hKept⟩
    · have hInt : i.type? = some .int := by
        cases hTree with
        | logical _ hInt => exact hInt
        | shift hOp => cases op <;> first | (cases hLogical; done) | cases hOp
        | compare hOp => cases op <;> first | (cases hLogical; done) | cases hOp
        | arith hNot => rw [hLogical] at hNot; cases hNot
      exact evalNode_wide_logical hInt hLogical (ihl hL hUncut.1) (ihr hR) hUncut hValue
  | @arith op t l r i j k a b hShift hLogical hCompare hType hFirst hSecond hLeft hRight ihl ihr =>
      rcases converted_operands hTree with ⟨hL, hR⟩
      rcases exists_operands hLogical hUncut hValue with
        ⟨x, y, z, hX, hY, hUncutR, hKept, hExact, rfl⟩
      have hEvalL := ihl (converted_inner hL) hUncut.1 hX
      have hEvalR := ihr (converted_inner hR) hUncutR hY
      have hSwaps : op.swaps = false := by cases op <;> first | rfl | cases hCompare
      have hGiven : (binary op t l r).given = l.given.merged r.given := by
        simp [given, hShift, hLogical, hCompare]
      rw [hGiven] at hFirst hSecond
      have hKeep := kept_converting hShift hLogical hKept
      rw [ordinary_unswapped hSwaps] at hKeep
      rw [wideExact_unswapped hShift hLogical hSwaps] at hExact
      rw [widest, word_widest]
      rw [← word_widest (l.isUnsigned || r.isUnsigned)] at hEvalL hEvalR
      exact evalNode_converting hTree hShift hLogical hFirst hSecond
        hEvalL hEvalR (IntType.has_convert _ _)
        (IntType.has_convert _ _) hKeep hExact
  | @compare op t l r i j k a b hCompare hSwaps hType hFirst hSecond hLeft hRight ihl ihr =>
      rcases converted_operands hTree with ⟨hL, hR⟩
      rcases comparison_converts hCompare with ⟨hShift, hLogical⟩
      rcases exists_operands hLogical hUncut hValue with
        ⟨x, y, z, hX, hY, hUncutR, hKept, hExact, rfl⟩
      have hEvalL := ihl (converted_inner hL) hUncut.1 hX
      have hEvalR := ihr (converted_inner hR) hUncutR hY
      have hKeep := kept_converting hShift hLogical hKept
      rw [ordinary_unswapped hSwaps] at hKeep
      rw [wideExact_unswapped hShift hLogical hSwaps] at hExact
      rw [widest, word_widest]
      rw [← word_widest (l.isUnsigned || r.isUnsigned)] at hEvalL hEvalR
      exact evalNode_converting hTree hShift hLogical hFirst hSecond
        hEvalL hEvalR (IntType.has_convert _ _)
        (IntType.has_convert _ _) hKeep hExact
  | @swapped op t l r i j k a b hCompare hSwaps hType hFirst hSecond hLeft hRight ihl ihr =>
      rcases converted_operands hTree with ⟨hR, hL⟩
      rcases comparison_converts hCompare with ⟨hShift, hLogical⟩
      rcases exists_operands hLogical hUncut hValue with
        ⟨x, y, z, hX, hY, hUncutR, hKept, hExact, rfl⟩
      have hEvalL := ihl (converted_inner hL) hUncut.1 hX
      have hEvalR := ihr (converted_inner hR) hUncutR hY
      have hKeep := kept_converting hShift hLogical hKept
      rw [ordinary_swapped hSwaps] at hKeep
      rw [wideExact_swapped hShift hLogical hSwaps] at hExact
      rw [widest, word_widest]
      rw [← word_widest (l.isUnsigned || r.isUnsigned)] at hEvalL hEvalR
      refine evalNode_converting hTree hShift hLogical hFirst hSecond
        hEvalR hEvalL (IntType.has_convert _ _)
        (IntType.has_convert _ _) ?_ hExact
      split_ifs at hKeep ⊢
      · exact hKeep.symm
      · exact hKeep.symm
  | @cond q c b t e i j k u v w hType hFirst hSecond hTest hThen hElse ihb iht ihe =>
      rcases exists_of_bind_ok hValue with ⟨x, hX, hRest⟩
      rcases hTree.exists_type with ⟨T, ρ, hSome, hValues, -⟩
      change i.type? = some T at hSome
      cases hTree with
      | ternary hOwn hSame hB hT hE =>
      rw [evalNode_ternary env hSome (CType.shares_values env.records hValues).isFloating,
        ihb hB hUncut.1 hX]
      have hTaken := hUncut.2 x hX
      have hWord : (Int64.ofInt x != 0) = decide (x ≠ 0) := by
        rw [bne, Bool.beq_eq_decide_eq, ← decide_not]
        exact decide_eq_decide.mpr (not_congr (word_eq_zero (wideValue_has hX)))
      change (if (Int64.ofInt x != 0) = true then _ else _) = _
      rw [hWord]
      by_cases hTrue : x ≠ 0
      · rw [if_pos hTrue] at hRest hTaken
        rcases exists_of_bind_ok hRest with ⟨y, hY, hResult⟩
        cases hResult
        have hEval := iht (converted_inner hT) hTaken.1 hY
        rw [← word_widest (Formula.cond q c b t e).isUnsigned] at hEval
        rw [if_pos (by simpa using hTrue), evalNode_kept hT hFirst hEval
          (IntType.has_convert _ _) (hTaken.2 y hY)]
        rfl
      · rw [if_neg hTrue] at hRest hTaken
        rcases exists_of_bind_ok hRest with ⟨y, hY, hResult⟩
        cases hResult
        have hEval := ihe (converted_inner hE) hTaken.1 hY
        rw [← word_widest (Formula.cond q c b t e).isUnsigned] at hEval
        rw [if_neg (by simpa using hTrue), evalNode_kept hE hSecond hEval
          (IntType.has_convert _ _) (hTaken.2 y hY)]
        rfl
  | @comma t l r i a b hType hLeft hRight ihl ihr =>
    rcases exists_of_bind_ok hValue with ⟨x, -, hY⟩
    rcases hTree.exists_type with ⟨u, ρ, hSome, hValues, -⟩
    change i.type? = some u at hSome
    have hInner : Converted b := by
      cases hTree
      assumption
    rw [evalNode_comma env hSome (CType.shares_values env.records hValues).isFloating,
      ihr hInner hUncut hY]
    rfl

end Formula

------------
-- Lines of Conditions
------------

open Parse

namespace Formula

variable {a : Formula} {u : Token} {v : Int}

/- The end of a list of tokens stops every formula. -/
theorem stops_end (k : Nat) (hKind : u.kind = .eof) (hText : u.text = []) : Stops k u := by
  have hIs : ∀ w, u.is w = ([] == ascii w) := by
    intro w
    simp [Token.is, hKind, hText, TokenKind.isStr]
  constructor
  · intro w hMem
    rw [hIs]
    revert w
    decide
  · intro _
    unfold Expression.precedence
    rw [if_pos (by simp [hKind])]
  · intro _
    rw [hIs]
    decide
  · intro _
    refine ⟨by rw [hIs]; decide, ?_⟩
    unfold Expression.compoundOp?
    simp only [hIs]
    decide
  · intro _
    rw [hIs]
    decide

/- A line that spells a formula of constants has the word of its value. -/
theorem constant_wide {ts : List Token} (hTokens : ts.map Token.detached = a.tokens ++ [u])
    (hKind : u.kind = .eof) (hText : u.text = []) (hWritten : a.Written) (hRank : 2 ≤ a.rank)
    (hConstants : a.OfConstants) (hUncut : a.Uncut) (hValue : a.wideValue = .ok v) :
    (TranslationUnit.constant ts).result = .ok (.ofInt v, ts.drop (ts.length - 1)) := by
  let s : ParseState := { toks := a.tokens ++ [u] }
  have hLength := congrArg List.length hTokens
  simp only [List.length_map, List.length_append, List.length_cons, List.length_nil] at hLength
  have hLimit : a.tokens.length ≤ s.limit := by
    change _ ≤ (a.tokens ++ [u]).length
    simp
  have hFuel : 32 * a.tokens.length ≤ TranslationUnit.depth ts := by
    unfold TranslationUnit.depth
    omega
  rcases (readable hWritten (hConstants.means s) hLimit).2 2 hRank
    (TranslationUnit.depth ts) u [] (by omega)
    (stops_end 2 hKind hText) with ⟨e, hTypable, hRead⟩
  rcases hTypable with ⟨e', hCarries, hAdd, hArithmetic⟩
  rcases (hArithmetic hConstants.constant).addType with
    ⟨e'', hAll, hConverted⟩
  cases (hAll (s.before [])).symm.trans (hAdd [])
  have hEval := hCarries.wide hConverted hUncut hValue
    ⟨(s.before [u]).objects, (s.before [u]).records⟩
  change TranslationUnit.read _ .conditional _ = _ at hRead
  have hInt : Constant.evalInt e (s.before [u]) = .ok (.ofInt v) (s.before [u]) := by
    rw [Constant.evalInt_eq (hAdd [u]), hEval]
    rfl
  have hRun : (Grammar.constExpr (TranslationUnit.read (TranslationUnit.depth ts))).run
        { toks := ts.map Token.detached } =
      .ok (.ofInt v) (s.before [u]) := by
    rw [hTokens]
    change (TranslationUnit.read _ .conditional >>= Constant.evalInt)
      (s.before (a.tokens ++ u :: [])) = _
    rw [run_bind hRead]
    exact hInt
  unfold TranslationUnit.constant
  rw [hRun]
  rfl

end Formula

namespace Directive

open Pre Formula

/- The tokens that a condition is worked out from. -/
def conditionTokens
    (expand : Expand)
    (start : Token)
    (ts : List Token) : Pre (List Token) := do
  let (line, _) := Arguments.copyLine ts
  let line ← answerDefined (line.length + 1) #[] line
  let line := (← expand line).output
  if (first line).isEof then fail start .noExpression
  settle (← convert (← zeroNames line))

/- A condition is worked out from the tokens of its line. -/
theorem condition_tokens (expand : Expand) (start : Token) (ts : List Token) :
    condition expand start ts = (do
      let line ← conditionTokens expand start ts
      match (TranslationUnit.constant line).result with
      | .error e => throw e
      | .ok (v, more) =>
        if !(first more).isEof then fail (first more) .extraToken
        return (v, (Arguments.copyLine ts).2)) := by
  unfold condition conditionTokens
  simp only [bind_assoc]
  refine bind_congr fun line => ?_
  refine bind_congr fun e => ?_
  split <;> simp only [bind_assoc] <;> rfl

variable {expand : Expand} {start : Token} {ts line : List Token}
  {s s' : Session} {a : Formula} {u : Token} {v : Int}

/-
  The value of a condition is the one in the widest types, as
  long as no conversion to a narrower type that is reached cuts
  anything off an operand.
-/
theorem condition_wide (hLine : conditionTokens expand start ts s = .ok line s')
    (hTokens : line.map Token.detached = a.tokens ++ [u]) (hKind : u.kind = .eof)
    (hText : u.text = []) (hWritten : a.Written) (hRank : 2 ≤ a.rank) (hConstants : a.OfConstants)
    (hUncut : a.Uncut) (hValue : a.wideValue = .ok v) :
    condition expand start ts s = .ok (.ofInt v, (Arguments.copyLine ts).2) s' ∧ a.widest.Has v ∧
      (Int64.ofInt v = 0 ↔ v = 0) := by
  have hHas := wideValue_has hValue
  refine ⟨?_, hHas, Constant.word_eq_zero hHas⟩
  have hLength := congrArg List.length hTokens
  simp only [List.length_map, List.length_append, List.length_cons, List.length_nil] at hLength
  -- only the end is left of the line
  have hEnd : (first (line.drop (line.length - 1))).isEof = true := by
    have hIndex : line.length - 1 = a.tokens.length := by omega
    have hLast := congrArg (List.drop a.tokens.length) hTokens
    rw [← List.map_drop, List.drop_left] at hLast
    rw [hIndex]
    rcases List.map_eq_singleton_iff.mp hLast with ⟨w, hDrop, hEof⟩
    rw [hDrop]
    have hSame : w.detached.kind = u.kind := congrArg Token.kind hEof
    change w.kind = u.kind at hSame
    change (w.kind == .eof) = true
    rw [hSame, hKind]
    rfl
  rw [condition_tokens, Expansion.bind_ok hLine, constant_wide hTokens hKind
    hText hWritten hRank hConstants hUncut hValue]
  simp only [hEnd, Bool.not_true, Bool.false_eq_true, if_false]
  rfl

/- 1 << 40 >> 38 == 4 -/
def shiftedLine : List Token :=
  [sample .ppNum "1", sign "<<", sample .ppNum "40", sign ">>",
    sample .ppNum "38", sign "==", sample .ppNum "4", sample .eof ""]

def shiftedFormula : Formula :=
  .binary .eq (sign "==")
    (.binary .shr (sign ">>") (.binary .shl (sign "<<") (sampleNumber 1 "1")
        (sampleNumber 40 "40")) (sampleNumber 38 "38"))
    (sampleNumber 4 "4")

/- The shifted number has more bits than its type, and none is lost. -/
theorem condition_wide_shifted :
    condition (Expansion.expandAll 32) default shiftedLine {} = .ok (1, [sample .eof ""]) {} := by
  have hWord : (IntType.of .int false).KeepsWord 4 := IntType.Has.keepsWord (by decide)
  have hUncut : shiftedFormula.Uncut :=
    uncut_binary (uncut_binary (uncut_binary trivial trivial rfl rfl trivial) trivial rfl rfl
      (show (IntType.widest false).Has (2 ^ 40) by decide)) trivial rfl rfl ⟨hWord, hWord⟩
  have hConstants : shiftedFormula.OfConstants :=
    ⟨⟨⟨⟨_, _, rfl, rfl⟩, _, _, rfl, rfl⟩, _, _, rfl, rfl⟩, _, _, rfl, rfl⟩
  have hLine : conditionTokens (Expansion.expandAll 32) default shiftedLine
      {} = .ok (shiftedFormula.tokens ++ [sample .eof ""]) {} := rfl
  exact (condition_wide hLine rfl rfl rfl (by decide) (by decide) hConstants hUncut rfl).1

/- 2147483647 + 1 < 0 -/
def overflowLine : List Token :=
  [sample .ppNum "2147483647", sign "+", sample .ppNum "1", sign "<",
    sample .ppNum "0", sample .eof ""]

def overflowFormula : Formula :=
  .binary .lt (sign "<")
    (.binary .add (sign "+") (sampleNumber 2147483647 "2147483647")
      (sampleNumber 1 "1"))
    (sampleNumber 0 "0")

/-
  The sum is no value of `int`, to which it is converted before
  it is compared.
-/
theorem overflow_is_negative :
    overflowFormula.Written ∧ overflowFormula.OfConstants ∧
    overflowFormula.wideValue = .ok 0 ∧
    conditionTokens (Expansion.expandAll 32) default overflowLine {} =
      .ok (overflowFormula.tokens ++ [sample .eof ""]) {} ∧
    (match condition (Expansion.expandAll 32) default overflowLine {}
      with
      | .ok (v, _) _ => some v
      | .error _ _ => none) = some 1 := by
  refine ⟨by decide, ⟨⟨⟨_, _, rfl, rfl⟩, _, _, rfl, rfl⟩, _, _, rfl, rfl⟩, rfl, rfl, ?_⟩
  decide +kernel

end Directive

end CCompiler
