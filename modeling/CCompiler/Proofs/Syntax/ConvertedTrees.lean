import Mathlib
import CCompiler.Proofs.Codegen.TypedTree
import CCompiler.Proofs.Syntax.Notes
import CCompiler.Proofs.Syntax.WordArithmetic

/-
  Trees of integer constants, before and after they get types.

  Types may have been added to any part of a tree.  Adding them
  to the whole always succeeds and leaves the state as it is;
  afterwards every part has an integer type, and both operands
  of an operator have the same one where C converts them.

  Main declarations:
    * `Constant.Arithmetic`, `Constant.Converted`
    * `Constant.valuesOf`
    * `Constant.Arithmetic.addType`
-/

------------
-- Trees
------------

namespace CCompiler

namespace Constant

open Typing

/-
  A tree of integer constants.  A number may have its type from
  the start, and a conversion is made of a tree that has one;
  types may have been added to any tree.
-/
inductive Arithmetic : Expr → Prop
| num {i v}
    (hType : ∀ t ∈ i.type?, t.isInteger) :
    Arithmetic (.num i v)
| cast {i t e}
    (hType : i.type? = some t)
    (hInteger : t.isInteger)
    (hInner : Arithmetic e)
    (hTyped : e.type?.isSome = true) :
    Arithmetic (.cast i e)
| unary {i op e}
    (hType : i.type? = none)
    (hOp : op = .neg ∨ op = .not ∨ op = .bitNot)
    (hInner : Arithmetic e) :
    Arithmetic (.unary i op e)
| binary {i op l r}
    (hType : i.type? = none)
    (hLeft : Arithmetic l)
    (hRight : Arithmetic r) :
    Arithmetic (.binary i op l r)
| ternary {i c t e}
    (hType : i.type? = none)
    (hTest : Arithmetic c)
    (hThen : Arithmetic t)
    (hElse : Arithmetic e) :
    Arithmetic (.ternary i c t e)
| comma {i l r}
    (hType : i.type? = none)
    (hLeft : Arithmetic l)
    (hRight : Arithmetic r) :
    Arithmetic (.comma i l r)
| typed {e e' s s'}
    (hTree : Arithmetic e)
    (hAdd : addType e s = .ok e' s') :
    Arithmetic e'

/-
  A tree of integer constants in which every part has its type
  and operands are converted where C prescribes it.
-/
inductive Converted : Expr → Prop
| num {i t v}
    (hType : i.type? = some t)
    (hInteger : t.isInteger) :
    Converted (.num i v)
| cast {i t e}
    (hType : i.type? = some t)
    (hInteger : t.isInteger)
    (hInner : Converted e) :
    Converted (.cast i e)
| sign {i op e}
    (hOp : op = .neg ∨ op = .bitNot)
    (hType : i.type? = e.type?)
    (hInner : Converted e) :
    Converted (.unary i op e)
| not {i e}
    (hType : i.type? = some .int)
    (hInner : Converted e) :
    Converted (.unary i .not e)
| logical {i op l r}
    (hOp : op.isLogical = true)
    (hType : i.type? = some .int)
    (hLeft : Converted l)
    (hRight : Converted r) :
    Converted (.binary i op l r)
| shift {i op l r}
    (hOp : op.isShift = true)
    (hType : i.type? = l.type?)
    (hLeft : Converted l)
    (hRight : Converted r) :
    Converted (.binary i op l r)
| compare {i op l r}
    (hOp : op.isComparison = true)
    (hType : i.type? = some .int)
    (hSame : l.type? = r.type?)
    (hLeft : Converted l)
    (hRight : Converted r) :
    Converted (.binary i op l r)
| arith {i op l r}
    (hLogical : op.isLogical = false)
    (hCompare : op.isComparison = false)
    (hShift : op.isShift = false)
    (hType : i.type? = l.type?)
    (hSame : l.type? = r.type?)
    (hLeft : Converted l)
    (hRight : Converted r) :
    Converted (.binary i op l r)
| ternary {i c t e}
    (hType : i.type? = t.type?)
    (hSame : t.type? = e.type?)
    (hTest : Converted c)
    (hThen : Converted t)
    (hElse : Converted e) :
    Converted (.ternary i c t e)
| comma {i l r}
    (hType : i.type? = r.type?)
    (hLeft : Converted l)
    (hRight : Converted r) :
    Converted (.comma i l r)

/- The integer type of an expression. -/
def valuesOf (i : Info) : IntType :=
  (i.type?.bind CType.values?).getD .int

/- Expressions of one type have the same values. -/
theorem valuesOf_congr {i j : Info} (hType : i.type? = j.type?) : valuesOf i = valuesOf j := by
  rw [valuesOf, hType]
  rfl

variable {e : Expr}

/- Every part of such a tree has an integer type. -/
theorem Converted.exists_type (hTree : Converted e) :
    ∃ t τ, e.type? = some t ∧ t.values? = some τ ∧ valuesOf e.info = τ := by
  have hInt : ∀ {i : Info} {t : CType}, i.type? = some t →
      t.isInteger = true → ∃ t τ, i.type? = some t ∧ t.values? = some τ ∧ valuesOf i = τ := by
    intro i t hType hInteger
    rcases CType.exists_values? hInteger with ⟨τ, hValues⟩
    refine ⟨t, τ, hType, hValues, ?_⟩
    unfold valuesOf
    rw [hType, Option.bind_some, hValues]
    rfl
  have hAs : ∀ {i : Info} {e : Expr}, i.type? = e.type? →
      (∃ t τ, e.type? = some t ∧ t.values? = some τ ∧ valuesOf e.info = τ) →
      ∃ t τ, i.type? = some t ∧ t.values? = some τ ∧ valuesOf i = τ := by
    intro i e hType hInner
    unfold valuesOf at *
    rw [hType]
    exact hInner
  induction hTree with
  | num hType hInteger => exact hInt hType hInteger
  | cast hType hInteger => exact hInt hType hInteger
  | sign hOp hType hInner ih => exact hAs hType ih
  | not hType => exact hInt hType rfl
  | logical hOp hType => exact hInt hType rfl
  | shift hOp hType hLeft hRight ihl ihr => exact hAs hType ihl
  | compare hOp hType => exact hInt hType rfl
  | arith hLogical hCompare hShift hType hSame hLeft hRight ihl => exact hAs hType ihl
  | ternary hType hSame hTest hThen hElse ihc iht => exact hAs hType iht
  | comma hType hLeft hRight ihl ihr => exact hAs hType ihr

------------
-- Adding Types
------------

open Typing Parse

variable {t : CType}

/- What an integer type is not. -/
theorem not_of_isInteger (hInteger : t.isInteger = true) :
    t.isRecord = false ∧ t.isVoid = false ∧ t.base? = none ∧
      t.isFunction = false ∧ ∀ k, t.isFloatKind k = false := by
  unfold CType.isInteger at hInteger
  unfold CType.isRecord CType.isVoid CType.base? CType.isFunction CType.isFloatKind
  split at hInteger <;> simp_all

variable {u : CType}

/- The common type of integer types is one. -/
theorem isInteger_common (rs : Records) (hLeft : t.isInteger = true) (hRight : u.isInteger = true) :
    (CType.common rs t u).isInteger = true := by
  rcases not_of_isInteger hLeft with ⟨-, -, hBase, hFunc, hFloat⟩
  rcases not_of_isInteger hRight with ⟨-, -, -, hFunc', hFloat'⟩
  unfold CType.common
  simp only [hBase, hFunc, hFunc', hFloat, hFloat', Bool.or_self, Bool.false_eq_true, if_false]
  split_ifs <;> first | rfl | exact hLeft | exact hRight

/- It is the same whatever records there are. -/
theorem common_records (rs rs' : Records) (hLeft : t.isInteger = true)
    (hRight : u.isInteger = true) : CType.common rs t u = CType.common rs' t u := by
  have hSize : ∀ {t : CType}, t.isInteger = true → t.size rs = t.size rs' := by
    intro t hInteger
    unfold CType.isInteger at hInteger
    unfold CType.size
    split at hInteger <;> simp_all
  have hWidened : ∀ {t : CType}, t.isInteger = true →
      (if t.size rs < 4 then CType.int else t).size rs =
        (if t.size rs' < 4 then CType.int else t).size rs' := by
    intro t hInteger
    rw [hSize hInteger]
    split
    · rfl
    · exact hSize hInteger
  unfold CType.common
  simp only [hWidened hLeft, hWidened hRight]
  rw [hSize hLeft, hSize hRight]

theorem Converted.isInteger {e : Expr} (hTree : Converted e) :
    e.type?.isSome = true ∧ e.type.isInteger = true := by
  rcases hTree.exists_type with ⟨t, τ, hType, hValues, -⟩
  rw [Expr.type, hType]
  exact ⟨rfl, (CType.shares_values #[] hValues).isInteger⟩

theorem Converted.checkOperand {e : Expr} (hTree : Converted e) : checkOperand e = pure () := by
  rcases not_of_isInteger hTree.isInteger.2 with ⟨hRecord, hVoid, -⟩
  unfold Typing.checkOperand
  rw [hRecord, hVoid]
  rfl

/- Both operands in their common type. -/
theorem Converted.convertBoth {l r : Expr} (hLeft : Converted l) (hRight : Converted r) :
    ∃ a b, (∀ s : ParseState, convertBoth l r s = .ok (a, b) s) ∧
      Converted a ∧ Converted b ∧ a.type? = b.type? := by
  have hInteger := isInteger_common #[] hLeft.isInteger.2 hRight.isInteger.2
  have hRecord := (not_of_isInteger hInteger).1
  refine ⟨.cast ⟨l.tok, some _⟩ l, .cast ⟨r.tok, some _⟩ r, ?_,
    .cast rfl hInteger hLeft, .cast rfl hInteger hRight, rfl⟩
  intro s
  unfold Typing.convertBoth
  rw [hLeft.checkOperand, hRight.checkOperand]
  simp only [pure_bind]
  change (Typing.castTo l (CType.common s.records l.type r.type) >>= fun a => Typing.castTo r
      (CType.common s.records l.type r.type) >>= fun b => pure (a, b)) s = _
  rw [common_records s.records #[] hLeft.isInteger.2
    hRight.isInteger.2, castTo_eq l hRecord, castTo_eq r hRecord]
  rfl

/- A tree without a type gets one from its parts. -/
theorem addType_untyped (hType : e.type? = none) : ¬ e.type?.isSome = true := by simp [hType]

theorem Converted.typeUnary {i : Info} {op : UnOp} {e : Expr} (hTree : Converted e)
    (hOp : op = .neg ∨ op = .not ∨ op = .bitNot) :
    ∃ e', (∀ s : ParseState, typeUnary i op e s = .ok e' s) ∧ Converted e' := by
  rcases hOp with rfl | rfl | rfl
  · have hInteger := isInteger_common #[] (t := .int) rfl hTree.isInteger.2
    have hRecord := (not_of_isInteger hInteger).1
    refine ⟨.unary ⟨i.tok, some _⟩ .neg (.cast ⟨e.tok, some _⟩ e),
      ?_, .sign (.inl rfl) rfl (.cast rfl hInteger hTree)⟩
    intro s
    unfold Typing.typeUnary
    simp only [hTree.checkOperand, pure_bind]
    change (Typing.castTo e (CType.common s.records .int e.type) >>=
      fun a => pure (Expr.unary ⟨i.tok, some (CType.common s.records .int e.type)⟩ .neg a)) s = _
    rw [common_records s.records #[] rfl hTree.isInteger.2, castTo_eq e hRecord]
    rfl
  · exact ⟨_, fun _ => rfl, .not rfl hTree⟩
  · exact ⟨_, fun _ => rfl, .sign (.inr rfl) rfl hTree⟩

theorem Converted.typeBinary {l r : Expr} (hLeft : Converted l) (hRight : Converted r) (i : Info)
    (op : BinOp) :
    ∃ e', (∀ s : ParseState, typeBinary i op l r s = .ok e' s) ∧ Converted e' := by
  rcases hLeft.convertBoth hRight with ⟨a, b, hBoth, hA, hB, hSame⟩
  have hBase := (not_of_isInteger hLeft.isInteger.2).2.2.1
  have hCompare : ∀ op : BinOp, op.isComparison = true → ∃ e', (∀ s : ParseState,
        Typing.typeBinary i op l r s = .ok e' s) ∧
        Converted e' := by
    intro op hOp
    refine ⟨.binary ⟨i.tok, some .int⟩ op a b, ?_, .compare hOp rfl hSame hA hB⟩
    intro s
    unfold Typing.typeBinary
    simp only [hBase, Option.isSome_none, Bool.false_and, Bool.false_eq_true, if_false]
    cases op <;> first
      | (cases hOp; done)
      | exact run_bind (hBoth s)
  have hArith : ∀ op : BinOp, op.isLogical = false → op.isComparison = false → op.isShift = false →
      ∃ e', (∀ s : ParseState, Typing.typeBinary i op l r s = .ok e' s) ∧ Converted e' := by
    intro op hLogical hCompare hShift
    refine ⟨.binary ⟨i.tok, a.type?⟩ op a b, ?_, .arith hLogical hCompare hShift rfl hSame hA hB⟩
    intro s
    cases op <;> first
      | (cases hLogical; done)
      | (cases hCompare; done)
      | (cases hShift; done)
      | exact run_bind (hBoth s)
  cases op with
  | logAnd | logOr => exact ⟨_, fun _ => rfl, .logical rfl rfl hLeft hRight⟩
  | shl | shr => exact ⟨_, fun _ => rfl, .shift rfl rfl hLeft hRight⟩
  | eq | ne | lt | le => exact hCompare _ rfl
  | add | sub | mul | div | mod | bitAnd | bitOr | bitXor => exact hArith _ rfl rfl rfl

theorem Converted.typeTernary {i : Info} {c t e : Expr} (hTest : Converted c)
    (hThen : Converted t) (hElse : Converted e) :
    ∃ e', (∀ s : ParseState, typeTernary i c t e s = .ok e' s) ∧ Converted e' := by
  rcases hThen.convertBoth hElse with ⟨a, b, hBoth, hA, hB, hSame⟩
  rcases not_of_isInteger hThen.isInteger.2 with ⟨hRec, hVoid, -⟩
  rcases not_of_isInteger hElse.isInteger.2 with ⟨hRec', hVoid', -⟩
  refine ⟨.ternary ⟨i.tok, a.type?⟩ c a b, ?_, .ternary rfl hSame hTest hA hB⟩
  intro s
  unfold Typing.typeTernary
  simp only [hRec, hVoid, hRec', hVoid', Bool.or_self, Bool.false_eq_true, if_false]
  exact run_bind (hBoth s)

/-
  Adding types to a tree of constants converts it, in the same
  way in all states.
-/
theorem Arithmetic.addType {e : Expr} (hTree : Arithmetic e) :
    ∃ e', (∀ s : ParseState, Typing.addType e s = .ok e' s) ∧ Converted e' := by
  induction hTree with
  | @num i v hType =>
    cases hSome : i.type? with
    | some t =>
      exact ⟨_, fun s => addType_of_isSome (by
        simp [Expr.type?, Expr.info, hSome]) s,
        .num hSome (hType t hSome)⟩
    | none =>
      refine ⟨.num ⟨i.tok, some .int⟩ v, ?_, .num rfl rfl⟩
      intro s
      rw [Typing.addType, if_neg (addType_untyped (e := .num i v) hSome)]
      rfl
  | @cast i t e hType hInteger hInner hTyped ih =>
    rcases ih with ⟨e', hAdd, hConverted⟩
    have hSame := hAdd { toks := [] }
    rw [addType_of_isSome hTyped] at hSame
    cases hSame
    exact ⟨_, fun s => addType_of_isSome (by
      simp [Expr.type?, Expr.info, hType]) s,
      .cast hType hInteger hConverted⟩
  | @unary i op e hType hOp hInner ih =>
    rcases ih with ⟨a, hAdd, hConverted⟩
    rcases hConverted.typeUnary (i := i) hOp with
      ⟨e', hNode, hOut⟩
    refine ⟨e', ?_, hOut⟩
    intro s
    rw [Typing.addType, if_neg (addType_untyped (e := .unary i op e) hType)]
    exact (run_bind (hAdd s)).trans (hNode s)
  | @binary i op l r hType hLeft hRight ihl ihr =>
    rcases ihl with ⟨a, hAddL, hL⟩
    rcases ihr with ⟨b, hAddR, hR⟩
    rcases hL.typeBinary hR i op with ⟨e', hNode, hOut⟩
    refine ⟨e', ?_, hOut⟩
    intro s
    rw [Typing.addType, if_neg (addType_untyped (e := .binary i op l r) hType)]
    exact (run_bind (hAddL s)).trans ((run_bind (hAddR s)).trans (hNode s))
  | @ternary i c t e hType hTest hThen hElse ihc iht ihe =>
    rcases ihc with ⟨a, hAddC, hC⟩
    rcases iht with ⟨b, hAddT, hT⟩
    rcases ihe with ⟨d, hAddE, hE⟩
    rcases hC.typeTernary (i := i) hT hE with ⟨e', hNode, hOut⟩
    refine ⟨e', ?_, hOut⟩
    intro s
    rw [Typing.addType, if_neg (addType_untyped (e := .ternary i c t e) hType)]
    exact (run_bind (hAddC s)).trans ((run_bind (hAddT s)).trans
        ((run_bind (hAddE s)).trans (hNode s)))
  | @comma i l r hType hLeft hRight ihl ihr =>
    rcases ihl with ⟨a, hAddL, hL⟩
    rcases ihr with ⟨b, hAddR, hR⟩
    refine ⟨.comma ⟨i.tok, b.type?⟩ a b, ?_, .comma rfl hL hR⟩
    intro s
    rw [Typing.addType, if_neg (addType_untyped (e := .comma i l r) hType)]
    exact (run_bind (hAddL s)).trans (run_bind (hAddR s))
  | @typed e e' s₀ s' hInner hAdd ih =>
    rcases ih with ⟨e'', hAdd', hConverted⟩
    have hSame := hAdd' s₀
    rw [hAdd] at hSame
    cases hSame
    exact ⟨e', fun s => addType_of_isSome hConverted.isInteger.1 s, hConverted⟩

end Constant

end CCompiler
