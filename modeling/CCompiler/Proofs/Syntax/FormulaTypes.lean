import Mathlib
import CCompiler.Proofs.Syntax.ConvertedTrees
import CCompiler.Proofs.Syntax.Formula

/-
  Adding types to the trees of formulas.

  Reading a formula gives a tree in which some parts have their
  types and others do not.  Adding types to the rest gives every
  part its type, whichever parts had one before, and converts
  operands to their common type.

  Main declarations:
    * `Formula.Carries`
    * `Formula.Typable`
-/

------------
-- Arithmetic Types of Trees
------------

namespace CCompiler

/- An arithmetic type as the trees have it. -/
def ArithType.toCType : ArithType → CType
| .integer τ => τ.toCType
| .enum id => .enum id
| .floating k => .floating k

namespace CType

variable {t u : CType} {σ τ : ArithType}

theorem arith?_eq_some_iff : t.arith? = some τ ↔ t.plain = τ.toCType := by
  unfold arith?
  constructor
  · intro hArith
    split at hArith <;> simp_all <;> subst hArith <;> rfl
  · intro hPlain
    rw [hPlain]
    rcases τ with (_ | _) | _ | _ <;> rfl

/- What an arithmetic type is not. -/
theorem not_of_arith? (hArith : t.arith? = some τ) :
    t.isRecord = false ∧ t.isVoid = false ∧ t.base? = none ∧
      t.isFunction = false ∧ t.isArray = false := by
  rw [arith?_eq_some_iff] at hArith
  unfold isRecord isVoid base? isFunction isArray
  rw [hArith]
  rcases τ with (_ | _) | _ | _ <;> exact ⟨rfl, rfl, rfl, rfl, rfl⟩

theorem arith?_int : int.arith? = some .int := rfl

theorem isNumeric_of_arith? (hArith : t.arith? = some τ) : t.isNumeric = true := by
  rw [arith?_eq_some_iff] at hArith
  unfold isNumeric isInteger isFloating
  rw [hArith]
  rcases τ with (_ | _) | _ | _ <;> rfl

theorem isInteger_of_arith? (hArith : t.arith? = some τ) (hInteger : τ.isInteger = true) :
    t.isInteger = true := by
  rw [arith?_eq_some_iff] at hArith
  unfold isInteger
  rw [hArith]
  rcases τ with (_ | _) | _ | _ <;> first | rfl | cases hInteger

theorem plain_plain (t : CType) : t.plain.plain = t.plain := by
  fun_induction plain t with
  | case1 t ih => exact ih
  | case2 t hPlain => cases t <;> first | rfl | exact absurd rfl (hPlain _)

/- Whether operands are atomic has no influence on what is common to them. -/
theorem plain_common (rs : Records) (hBase : t.base? = none) (hLeft : t.isFunction = false)
    (hRight : u.isFunction = false) :
    (common rs t u).plain = (common rs t.plain u.plain).plain := by
  have hSize : ∀ t : CType, t.plain.size rs = t.size rs := by
    intro t
    simp only [size, plain_plain]
  have hSign : ∀ t : CType, t.plain.isUnsigned = t.isUnsigned := by
    intro t
    simp only [isUnsigned, plain_plain]
  have hFloat : ∀ (t : CType) k, t.plain.isFloatKind k = t.isFloatKind k := by
    intro t k
    simp only [isFloatKind, plain_plain]
  have hFunction : ∀ t : CType, t.plain.isFunction = t.isFunction := by
    intro t
    simp only [isFunction, plain_plain]
  have hPlain : t.plain.base? = none := by simpa only [base?, plain_plain] using hBase
  unfold common
  simp only [hBase, hPlain, hFunction, hLeft, hRight, hFloat, hSize, Bool.false_eq_true, if_false]
  by_cases hNarrow : t.size rs < 4 <;> by_cases hNarrow' : u.size rs < 4 <;>
    simp only [hNarrow, hNarrow', if_true, if_false, hSize, hSign, apply_ite plain, plain_plain]

/- The common type of arithmetic types. -/
theorem common_toCType (rs : Records) (σ τ : ArithType) :
    (common rs σ.toCType τ.toCType).plain = (σ.merged τ).toCType := by
  rcases σ with (_ | ⟨k, u⟩) | i | k <;> rcases τ with (_ | ⟨k', u'⟩) | j | k'
  · rfl
  · cases k' <;> cases u' <;> rfl
  · rfl
  · cases k' <;> rfl
  · cases k <;> cases u <;> rfl
  · cases k <;> cases u <;> cases k' <;> cases u' <;> rfl
  · cases k <;> cases u <;> rfl
  · cases k <;> cases u <;> cases k' <;> rfl
  · rfl
  · cases k' <;> cases u' <;> rfl
  · rfl
  · cases k' <;> rfl
  · cases k <;> rfl
  · cases k <;> cases k' <;> cases u' <;> rfl
  · cases k <;> rfl
  · cases k <;> cases k' <;> rfl

theorem arith?_common (rs : Records) (hLeft : t.arith? = some σ) (hRight : u.arith? = some τ) :
    (common rs t u).arith? = some (σ.merged τ) := by
  rcases not_of_arith? hLeft with ⟨-, -, hBase, hFunc, -⟩
  rcases not_of_arith? hRight with ⟨-, -, -, hFunc', -⟩
  rw [arith?_eq_some_iff] at *
  rw [plain_common rs hBase hFunc hFunc', hLeft, hRight, common_toCType]

/- A value is promoted to what it has in common with an `int`. -/
theorem merged_int (τ : ArithType) : ArithType.int.merged τ = τ.promote := by
  rcases τ with (_ | ⟨k, u⟩) | i | k
  · rfl
  · cases k <;> cases u <;> rfl
  · rfl
  · cases k <;> rfl

end CType

------------
-- Trees with Types
------------

namespace Formula

/-
  A tree of a formula in which every part has the type that `f`
  says, and operands are converted to the type of their operator
  where C converts them.  The operands of a comparison are
  converted to the type that they merge into.
-/
inductive Carries (f : Formula → ArithType) : Formula → Expr → Prop
| number {t i type v}
    (hKind : t.kind = .int type v)
    (hType : i.arith? = some (f (.number t))) :
    Carries f (.number t) (.num i v)
| fnumber {t i type v}
    (hKind : t.kind = .float type v)
    (hType : i.arith? = some (f (.number t))) :
    Carries f (.number t) (.fnum i v)
| object {t τ i x}
    (hType : i.arith? = some (f (.name t τ))) :
    Carries f (.name t τ) (.var i x)
| constant {t τ i v}
    (hType : i.arith? = some (f (.name t τ))) :
    Carries f (.name t τ) (.num i v)
| paren {o c a e}
    (hType : e.info.arith? = some (f (.paren o c a)))
    (hInner : Carries f a e) :
    Carries f (.paren o c a) e
| plus {t a e}
    (hType : e.info.arith? = some (f (.unary .plus t a)))
    (hInner : Carries f a e) :
    Carries f (.unary .plus t a) e
| minus {t a i j e}
    (hType : i.arith? = some (f (.unary .minus t a)))
    (hOperand : j.arith? = some (f (.unary .minus t a)))
    (hInner : Carries f a e) :
    Carries f (.unary .minus t a) (.unary i .neg (.cast j e))
| complement {t a i e}
    (hType : i.arith? = some (f (.unary .complement t a)))
    (hInner : Carries f a e) :
    Carries f (.unary .complement t a) (.unary i .bitNot e)
| not {t a i e}
    (hType : i.arith? = some (f (.unary .not t a)))
    (hInner : Carries f a e) :
    Carries f (.unary .not t a) (.unary i .not e)
| cast {o ws c τ a i e}
    (hType : i.arith? = some (f (.cast o ws c τ a)))
    (hInner : Carries f a e) :
    Carries f (.cast o ws c τ a) (.cast i e)
| plain {op t l r i a b}
    (hOp : op.node.isShift = true ∨ op.node.isLogical = true)
    (hType : i.arith? = some (f (.binary op t l r)))
    (hLeft : Carries f l a)
    (hRight : Carries f r b) :
    Carries f (.binary op t l r) (.binary i op.node a b)
| arith {op t l r i j k a b}
    (hShift : op.node.isShift = false)
    (hLogical : op.node.isLogical = false)
    (hCompare : op.node.isComparison = false)
    (hType : i.arith? = some (f (.binary op t l r)))
    (hFirst : j.arith? = some (f (.binary op t l r)))
    (hSecond : k.arith? = some (f (.binary op t l r)))
    (hLeft : Carries f l a)
    (hRight : Carries f r b) :
    Carries f (.binary op t l r)
      (.binary i op.node (.cast j a) (.cast k b))
| compare {op t l r i j k a b}
    (hCompare : op.node.isComparison = true)
    (hSwaps : op.swaps = false)
    (hType : i.arith? = some (f (.binary op t l r)))
    (hFirst : j.arith? = some ((f l).merged (f r)))
    (hSecond : k.arith? = some ((f l).merged (f r)))
    (hLeft : Carries f l a)
    (hRight : Carries f r b) :
    Carries f (.binary op t l r)
      (.binary i op.node (.cast j a) (.cast k b))
| swapped {op t l r i j k a b}
    (hCompare : op.node.isComparison = true)
    (hSwaps : op.swaps = true)
    (hType : i.arith? = some (f (.binary op t l r)))
    (hFirst : j.arith? = some ((f r).merged (f l)))
    (hSecond : k.arith? = some ((f r).merged (f l)))
    (hLeft : Carries f l a)
    (hRight : Carries f r b) :
    Carries f (.binary op t l r)
      (.binary i op.node (.cast j b) (.cast k a))
| cond {q c b t e i j k u v w}
    (hType : i.arith? = some (f (.cond q c b t e)))
    (hFirst : j.arith? = some (f (.cond q c b t e)))
    (hSecond : k.arith? = some (f (.cond q c b t e)))
    (hTest : Carries f b u)
    (hThen : Carries f t v)
    (hElse : Carries f e w) :
    Carries f (.cond q c b t e)
      (.ternary i u (.cast j v) (.cast k w))
| comma {t l r i a b}
    (hType : i.arith? = some (f (.comma t l r)))
    (hLeft : Carries f l a)
    (hRight : Carries f r b) :
    Carries f (.comma t l r) (.comma i a b)
| assign {t l r i j a b}
    (hType : i.arith? = some (f (.assign t l r)))
    (hOperand : j.arith? = some (f (.assign t l r)))
    (hLeft : Carries f l a)
    (hRight : Carries f r b) :
    Carries f (.assign t l r) (.assign i a (.cast j b))

variable {f g : Formula → ArithType} {a b : Formula} {e : Expr}

/- The type of the whole tree. -/
theorem Carries.arith?_eq (hCarries : Carries f a e) : e.info.arith? = some (f a) := by
  cases hCarries <;> assumption

theorem Carries.exists_type (hCarries : Carries f a e) :
    ∃ t, e.type? = some t ∧ e.type = t ∧ t.arith? = some (f a) := by
  rcases Option.bind_eq_some_iff.mp hCarries.arith?_eq with
    ⟨t, hType, hArith⟩
  refine ⟨t, hType, ?_, hArith⟩
  rw [Expr.type, Expr.type?, hType]
  rfl

/- Other types that are the same for all parts. -/
theorem Carries.congr (hCarries : Carries f a e) (hSame : ∀ b ∈ a.parts, f b = g b) :
    Carries g a e := by
  induction hCarries with
  | number hKind hType => exact .number hKind (hSame _ (mem_parts _) ▸ hType)
  | fnumber hKind hType => exact .fnumber hKind (hSame _ (mem_parts _) ▸ hType)
  | object hType => exact .object (hSame _ (mem_parts _) ▸ hType)
  | constant hType => exact .constant (hSame _ (mem_parts _) ▸ hType)
  | paren hType hInner ih =>
    rcases List.forall_mem_cons.mp hSame with ⟨hHead, hRest⟩
    exact .paren (hHead ▸ hType) (ih hRest)
  | plus hType hInner ih =>
    rcases List.forall_mem_cons.mp hSame with ⟨hHead, hRest⟩
    exact .plus (hHead ▸ hType) (ih hRest)
  | minus hType hOperand hInner ih =>
    rcases List.forall_mem_cons.mp hSame with ⟨hHead, hRest⟩
    exact .minus (hHead ▸ hType) (hHead ▸ hOperand) (ih hRest)
  | complement hType hInner ih =>
    rcases List.forall_mem_cons.mp hSame with ⟨hHead, hRest⟩
    exact .complement (hHead ▸ hType) (ih hRest)
  | not hType hInner ih =>
    rcases List.forall_mem_cons.mp hSame with ⟨hHead, hRest⟩
    exact .not (hHead ▸ hType) (ih hRest)
  | cast hType hInner ih =>
    rcases List.forall_mem_cons.mp hSame with ⟨hHead, hRest⟩
    exact .cast (hHead ▸ hType) (ih hRest)
  | plain hOp hType hLeft hRight ihl ihr =>
    rcases List.forall_mem_cons.mp hSame with ⟨hHead, hRest⟩
    rcases List.forall_mem_append.mp hRest with ⟨hL, hR⟩
    exact .plain hOp (hHead ▸ hType) (ihl hL) (ihr hR)
  | arith hShift hLogical hCompare hType hFirst hSecond hLeft hRight ihl ihr =>
      rcases List.forall_mem_cons.mp hSame with ⟨hHead, hRest⟩
      rcases List.forall_mem_append.mp hRest with ⟨hL, hR⟩
      exact .arith hShift hLogical hCompare (hHead ▸ hType)
        (hHead ▸ hFirst) (hHead ▸ hSecond) (ihl hL) (ihr hR)
  | compare hCompare hSwaps hType hFirst hSecond hLeft hRight ihl ihr =>
    rcases List.forall_mem_cons.mp hSame with ⟨hHead, hRest⟩
    rcases List.forall_mem_append.mp hRest with ⟨hL, hR⟩
    rw [hL _ (mem_parts _), hR _ (mem_parts _)] at hFirst hSecond
    exact .compare hCompare hSwaps (hHead ▸ hType) hFirst hSecond (ihl hL) (ihr hR)
  | swapped hCompare hSwaps hType hFirst hSecond hLeft hRight ihl ihr =>
    rcases List.forall_mem_cons.mp hSame with ⟨hHead, hRest⟩
    rcases List.forall_mem_append.mp hRest with ⟨hL, hR⟩
    rw [hL _ (mem_parts _), hR _ (mem_parts _)] at hFirst hSecond
    exact .swapped hCompare hSwaps (hHead ▸ hType) hFirst hSecond (ihl hL) (ihr hR)
  | cond hType hFirst hSecond hTest hThen hElse ihb iht ihe =>
    rcases List.forall_mem_cons.mp hSame with ⟨hHead, hRest⟩
    rcases List.forall_mem_append.mp hRest with ⟨hBT, hE⟩
    rcases List.forall_mem_append.mp hBT with ⟨hB, hT⟩
    exact .cond (hHead ▸ hType) (hHead ▸ hFirst) (hHead ▸ hSecond) (ihb hB) (iht hT) (ihe hE)
  | comma hType hLeft hRight ihl ihr =>
    rcases List.forall_mem_cons.mp hSame with ⟨hHead, hRest⟩
    rcases List.forall_mem_append.mp hRest with ⟨hL, hR⟩
    exact .comma (hHead ▸ hType) (ihl hL) (ihr hR)
  | assign hType hOperand hLeft hRight ihl ihr =>
    rcases List.forall_mem_cons.mp hSame with ⟨hHead, hRest⟩
    rcases List.forall_mem_append.mp hRest with ⟨hL, hR⟩
    exact .assign (hHead ▸ hType) (hHead ▸ hOperand) (ihl hL) (ihr hR)

end Formula

------------
-- Adding Types
------------

namespace Formula

open Typing Parse

variable {s : ParseState} {a l r : Formula} {e e' x y : Expr}

/- An integer constant expression: a formula without names and assignments. -/
def Constant : Formula → Prop
| .number t => ∃ type v, t.kind = .int type v ∧
    (CType.ofLit type).isInteger = true
| .name _ _ | .assign _ _ _ => False
| .paren _ _ a | .unary _ _ a => a.Constant
| .cast _ _ _ τ a => τ.isInteger = true ∧ a.Constant
| .binary _ _ l r | .comma _ l r => l.Constant ∧ r.Constant
| .cond _ _ b t e => b.Constant ∧ t.Constant ∧ e.Constant

/-
  Adding types to a tree of a formula gives every part its type
  and does not depend on the tokens to come.  That of a constant
  expression is a tree of constants.
-/
def Typable (s : ParseState) (a : Formula) (e : Expr) : Prop :=
  ∃ e', Carries given a e' ∧
    (∀ ts, addType e (s.before ts) = .ok e' (s.before ts)) ∧
    (a.Constant → Constant.Arithmetic e)

/- A tree with types is left as it is. -/
theorem Carries.addType (hCarries : Carries given a e) (s : ParseState) :
    addType e s = .ok e s := by
  rcases hCarries.exists_type with ⟨t, hType, -⟩
  apply addType_of_isSome
  rw [hType]
  rfl

theorem Carries.typable (hCarries : Carries given a e)
    (hConstant : a.Constant → Constant.Arithmetic e) : Typable s a e :=
  ⟨e, hCarries, fun _ => hCarries.addType _, hConstant⟩

theorem Carries.checkOperand (hCarries : Carries given a e) : checkOperand e = pure () := by
  rcases hCarries.exists_type with ⟨t, -, hType, hArith⟩
  rcases CType.not_of_arith? hArith with ⟨hRecord, hVoid, -⟩
  unfold Typing.checkOperand
  rw [hType, hRecord, hVoid]
  rfl

variable {τ : ArithType}

/- A conversion to an arithmetic type. -/
theorem castTo_arith {t : CType} (e : Expr) (s : ParseState) (hArith : t.arith? = some τ) :
    castTo e t s = .ok (.cast ⟨e.tok, some t⟩ e) s := by
  rw [castTo_eq e (CType.not_of_arith? hArith).1]
  rfl

/- Both operands in their common type. -/
theorem Carries.convertBoth (hLeft : Carries given l x) (hRight : Carries given r y)
    (s : ParseState) :
    ∃ i j : Info, i.type? = j.type? ∧ i.arith? = some (l.given.merged r.given) ∧
      ∀ ts, convertBoth x y (s.before ts) = .ok (.cast i x, .cast j y) (s.before ts) := by
  rcases hLeft.exists_type with ⟨t, -, hType, hArith⟩
  rcases hRight.exists_type with ⟨u, -, hType', hArith'⟩
  have hCommon := CType.arith?_common s.records hArith hArith'
  refine ⟨⟨x.tok, some _⟩, ⟨y.tok, some _⟩, rfl, hCommon, ?_⟩
  intro ts
  unfold Typing.convertBoth
  rw [hLeft.checkOperand, hRight.checkOperand, hType, hType']
  simp only [pure_bind]
  rw [run_bind records_before, run_bind (castTo_arith x _ hCommon),
    run_bind (castTo_arith y _ hCommon)]
  rfl

/- A tree with an operator gets its type after its operand. -/
theorem Typable.unary {op : UnOp} {t : Token} (hInner : Typable s a e)
    (hNode : ∀ e', Carries given a e' → ∃ e'', Carries given b e'' ∧
        ∀ ts, typeUnary ⟨t, none⟩ op e' (s.before ts) = .ok e'' (s.before ts))
    (hOp : op = .neg ∨ op = .not ∨ op = .bitNot) (hConstant : b.Constant → a.Constant) :
    Typable s b (Operator.unary op e t) := by
  rcases hInner with ⟨e', hCarries, hAdd, hInner⟩
  rcases hNode e' hCarries with ⟨e'', hCarries', hTyped⟩
  refine ⟨e'', hCarries', ?_, fun h => .unary rfl hOp (hInner (hConstant h))⟩
  intro ts
  rw [Operator.unary, Typing.addType, if_neg (Constant.addType_untyped rfl)]
  exact (run_bind (hAdd ts)).trans (hTyped ts)

theorem Typable.minus (hInner : Typable s a e) (t : Token) :
    Typable s (.unary .minus t a) (Operator.unary .neg e t) := by
  refine hInner.unary ?_ (.inl rfl) id
  intro e' hCarries
  rcases hCarries.exists_type with ⟨u, -, hType, hArith⟩
  have hCommon := CType.arith?_common s.records CType.arith?_int hArith
  rw [CType.merged_int] at hCommon
  refine ⟨.unary ⟨t, some _⟩ .neg (.cast ⟨e'.tok, some _⟩ e'), .minus hCommon hCommon hCarries, ?_⟩
  intro ts
  unfold typeUnary
  rw [hCarries.checkOperand, hType]
  simp only [pure_bind]
  rw [run_bind records_before, run_bind (castTo_arith e' _ hCommon)]
  rfl

theorem Typable.complement (hInner : Typable s a e) (t : Token) :
    Typable s (.unary .complement t a) (Operator.unary .bitNot e t) := by
  refine hInner.unary ?_ (.inr (.inr rfl)) id
  intro e' hCarries
  exact ⟨.unary ⟨t, e'.type?⟩ .bitNot e', .complement hCarries.arith?_eq hCarries, fun _ => rfl⟩

theorem Typable.not (hInner : Typable s a e) (t : Token) :
    Typable s (.unary .not t a) (Operator.unary .not e t) := by
  refine hInner.unary ?_ (.inr (.inl rfl)) id
  intro e' hCarries
  exact ⟨.unary ⟨t, some .int⟩ .not e', .not CType.arith?_int hCarries, fun _ => rfl⟩

variable {t : Token}

/- A constant has its type from its token. -/
theorem typable_number {type : LitType} {v : Int64} (hKind : t.kind = .int type v) :
    Typable s (.number t) (.num ⟨t, some (CType.ofLit type)⟩ v) := by
  apply Carries.typable
  · apply Carries.number hKind
    simp only [given, numberType, hKind]
    cases type <;> rfl
  · rintro ⟨type', v', hKind', hInteger⟩
    rw [hKind] at hKind'
    cases hKind'
    apply Constant.Arithmetic.num
    rintro u ⟨⟩
    exact hInteger

theorem typable_fnumber {type : LitType} {v : Double} (hKind : t.kind = .float type v) :
    Typable s (.number t) (.fnum ⟨t, some (CType.ofLit type)⟩ v) := by
  apply Carries.typable
  · apply Carries.fnumber hKind
    simp only [given, numberType, hKind]
    cases type <;> rfl
  · rintro ⟨type', v', hKind', -⟩
    rw [hKind] at hKind'
    cases hKind'

/- A variable has the type of its object. -/
theorem typable_object {v : ObjId} (hArith : (s.objects.entry v).type.arith? = some τ) (t : Token) :
    Typable s (.name t τ) (Operator.var v t) := by
  refine ⟨.var ⟨t, some (s.objects.entry v).type⟩ v, .object hArith, ?_, False.elim⟩
  intro ts
  rw [Operator.var, Typing.addType, if_neg (Constant.addType_untyped rfl)]
  rfl

/- A constant of an enumeration is an `int`. -/
theorem typable_constant (t : Token) (v : Int64) :
    Typable s (.name t .int) (Operator.number v t) := by
  refine ⟨.num ⟨t, some .int⟩ v, .constant CType.arith?_int, ?_, False.elim⟩
  intro ts
  rw [Operator.number, Typing.addType, if_neg (Constant.addType_untyped rfl)]
  rfl

theorem Typable.paren (hInner : Typable s a e) (o c : Token) : Typable s (.paren o c a) e := by
  rcases hInner with ⟨e', hCarries, hAdd, hConstant⟩
  exact ⟨e', .paren hCarries.arith?_eq hCarries, hAdd, hConstant⟩

theorem Typable.plus (hInner : Typable s a e) (t : Token) : Typable s (.unary .plus t a) e := by
  rcases hInner with ⟨e', hCarries, hAdd, hConstant⟩
  exact ⟨e', .plus hCarries.arith?_eq hCarries, hAdd, hConstant⟩

/- A conversion that is written gives its operand types at once. -/
theorem Typable.newCast {t : CType} {τ : ArithType} (hInner : Typable s a e) (o : Token)
    (ws : List Token) (c : Token) (hArith : t.arith? = some τ) (ts : List Token) :
    ∃ e', newCast e t (s.before ts) = .ok e' (s.before ts) ∧
      Typable s (.cast o ws c τ a) (e'.withTok o) := by
  rcases hInner with ⟨e', hCarries, hAdd, hInner⟩
  refine ⟨.cast ⟨e'.tok, some t⟩ e', ?_, ?_⟩
  · unfold Typing.newCast
    rw [run_bind (hAdd ts)]
    exact castTo_arith e' _ hArith
  · have hConverted : Carries given (.cast o ws c τ a)
        (.cast ⟨o, some t⟩ e') := .cast hArith hCarries
    apply hConverted.typable
    rintro ⟨hInteger, hConstant⟩
    rcases hCarries.exists_type with ⟨u, hType, -⟩
    refine .cast rfl ?_ ((hInner hConstant).typed (hAdd ts)) ?_
    · exact CType.isInteger_of_arith? hArith hInteger
    · rw [hType]
      rfl

/- A comparison of operands in their common type. -/
theorem Carries.typeComparison (hLeft : Carries given l x) (hRight : Carries given r y)
    (op : BinOp) (hOp : op.isComparison = true) (t : Token) (s : ParseState) :
    ∃ i j : Info, i.arith? = some (l.given.merged r.given) ∧
      j.arith? = some (l.given.merged r.given) ∧
      ∀ ts, typeBinary ⟨t, none⟩ op x y (s.before ts) =
        .ok (.binary ⟨t, some .int⟩ op (.cast i x) (.cast j y)) (s.before ts) := by
  rcases hLeft.convertBoth hRight s with ⟨i, j, hSame, hCommon, hBoth⟩
  rcases hLeft.exists_type with ⟨u, -, hType, hArith⟩
  have hBase := (CType.not_of_arith? hArith).2.2.1
  refine ⟨i, j, hCommon, ?_, ?_⟩
  · rw [Info.arith?, ← hSame]
    exact hCommon
  intro ts
  unfold typeBinary
  simp only [hType, hBase, Option.isSome_none, Bool.false_and, Bool.false_eq_true, if_false]
  cases op <;> first | (cases hOp; done) | exact run_bind (hBoth ts)

/- The type that the tree of an operator is given. -/
theorem Carries.typeBinary (hLeft : Carries given l x) (hRight : Carries given r y) (op : Dyadic)
    (t : Token) (s : ParseState) :
    ∃ e', Carries given (.binary op t l r) e' ∧ ∀ ts, typeBinary ⟨t, none⟩ op.node
          (if op.swaps then y else x) (if op.swaps then x else y)
          (s.before ts) = .ok e' (s.before ts) := by
  have hArith : ∀ op : Dyadic, op.node.isShift = false →
      op.node.isLogical = false → op.node.isComparison = false →
      ∃ e', Carries given (.binary op t l r) e' ∧
        ∀ ts, Typing.typeBinary ⟨t, none⟩ op.node x y (s.before ts) = .ok e' (s.before ts) := by
    intro op hShift hLogical hCompare
    rcases hLeft.convertBoth hRight s with ⟨i, j, hSame, hType, hBoth⟩
    have hGiven : (Formula.binary op t l r).given = l.given.merged r.given := by
      simp [given, hShift, hLogical, hCompare]
    rw [← hGiven] at hType
    refine ⟨.binary ⟨t, i.type?⟩ op.node (.cast i x) (.cast j y),
      .arith hShift hLogical hCompare hType hType ?_ hLeft hRight, ?_⟩
    · rw [Info.arith?, ← hSame]
      exact hType
    · intro ts
      cases op <;> first
        | (cases hShift; done)
        | (cases hLogical; done)
        | (cases hCompare; done)
        | exact run_bind (hBoth ts)
  have hCompare : ∀ op : Dyadic, op.node.isComparison = true →
      ∃ e', Carries given (.binary op t l r) e' ∧ ∀ ts, Typing.typeBinary ⟨t, none⟩ op.node
            (if op.swaps then y else x) (if op.swaps then x else y)
            (s.before ts) = .ok e' (s.before ts) := by
    intro op hOp
    have hGiven : (Formula.binary op t l r).given = .int := by
      cases op <;> first | (cases hOp; done) | rfl
    have hInt : (⟨t, some .int⟩ : Info).arith? = some (Formula.binary op t l r).given := by
      rw [hGiven]
      rfl
    cases hSwaps : op.swaps
    · rcases hLeft.typeComparison hRight op.node hOp t s with
        ⟨i, j, hFirst, hSecond, hTyped⟩
      exact ⟨_, .compare hOp hSwaps hInt hFirst hSecond hLeft hRight, hTyped⟩
    · rcases hRight.typeComparison hLeft op.node hOp t s with
        ⟨i, j, hFirst, hSecond, hTyped⟩
      exact ⟨_, .swapped hOp hSwaps hInt hFirst hSecond hLeft hRight, hTyped⟩
  cases op with
  | logAnd | logOr =>
    exact ⟨.binary ⟨t, some .int⟩ _ x y, .plain (.inr rfl)
      CType.arith?_int hLeft hRight, fun _ => rfl⟩
  | shl | shr =>
    exact ⟨.binary ⟨t, x.type?⟩ _ x y, .plain (.inl rfl) hLeft.arith?_eq hLeft hRight, fun _ => rfl⟩
  | lt | le | gt | ge | eq | ne => exact hCompare _ rfl
  | mul | div | mod | add | sub | bitAnd | bitXor | bitOr => exact hArith _ rfl rfl rfl

/- The tree of an operator whose operands may have types already. -/
theorem Typable.binary (hLeft : Typable s l x) (hRight : Typable s r y) (op : Dyadic) (t : Token) :
    Typable s (.binary op t l r) (Operator.binary op.node (if op.swaps then y else x)
        (if op.swaps then x else y) t) := by
  rcases hLeft with ⟨x', hCarries, hAdd, hConstant⟩
  rcases hRight with ⟨y', hCarries', hAdd', hConstant'⟩
  rcases hCarries.typeBinary hCarries' op t s with ⟨e', hOut, hTyped⟩
  refine ⟨e', hOut, ?_, ?_⟩
  rotate_left
  · rintro ⟨hL, hR⟩
    cases op.swaps
    · exact .binary rfl (hConstant hL) (hConstant' hR)
    · exact .binary rfl (hConstant' hR) (hConstant hL)
  intro ts
  rw [Operator.binary, Typing.addType, if_neg (Constant.addType_untyped rfl)]
  cases hSwaps : op.swaps <;> rw [hSwaps] at hTyped
  · exact (run_bind (hAdd ts)).trans ((run_bind (hAdd' ts)).trans (hTyped ts))
  · exact (run_bind (hAdd' ts)).trans ((run_bind (hAdd ts)).trans (hTyped ts))

/- Sums and differences of numbers are plain trees of operands with types. -/
theorem Typable.operands (hLeft : Typable s l x) (hRight : Typable s r y) :
    ∃ x' y', Typable s l x' ∧ Typable s r y' ∧
      (∀ ts, addType x (s.before ts) = .ok x' (s.before ts)) ∧
      (∀ ts, addType y (s.before ts) = .ok y' (s.before ts)) ∧ ∀ t ts,
        Operator.newAdd x y t (s.before ts) = .ok (Operator.binary .add x' y' t) (s.before ts) ∧
        Operator.newSub x y t (s.before ts) = .ok (Operator.binary .sub x' y' t) (s.before ts) := by
  rcases hLeft with ⟨x', hCarries, hAdd, hConstant⟩
  rcases hRight with ⟨y', hCarries', hAdd', hConstant'⟩
  rcases hCarries.exists_type with ⟨u, -, hType, hArith⟩
  rcases hCarries'.exists_type with ⟨v, -, hType', hArith'⟩
  have hNumeric : (x'.type.isNumeric && y'.type.isNumeric) = true := by
    rw [hType, hType', CType.isNumeric_of_arith? hArith, CType.isNumeric_of_arith? hArith']
    rfl
  refine ⟨x', y', hCarries.typable fun h => (hConstant h).typed (hAdd []),
    hCarries'.typable fun h => (hConstant' h).typed (hAdd' []), hAdd, hAdd', ?_⟩
  intro t ts
  constructor
  · unfold Operator.newAdd
    rw [run_bind (hAdd ts), run_bind (hAdd' ts), if_pos hNumeric]
    rfl
  · unfold Operator.newSub
    rw [run_bind (hAdd ts), run_bind (hAdd' ts), if_pos hNumeric]
    rfl

theorem Typable.sum (hLeft : Typable s l x) (hRight : Typable s r y) (t : Token) (ts : List Token) :
    (∃ e, Operator.newAdd x y t (s.before ts) = .ok e (s.before ts) ∧
      Typable s (.binary .add t l r) e) ∧
    ∃ e, Operator.newSub x y t (s.before ts) = .ok e (s.before ts) ∧
      Typable s (.binary .sub t l r) e := by
  rcases hLeft.operands hRight with ⟨x', y', hLeft, hRight, -, -, hSums⟩
  exact ⟨⟨_, (hSums t ts).1, hLeft.binary hRight .add t⟩,
    ⟨_, (hSums t ts).2, hLeft.binary hRight .sub t⟩⟩

theorem Typable.cond {b t : Formula} {u v w : Expr} (hTest : Typable s b u)
    (hThen : Typable s t v) (hElse : Typable s r w) (q c : Token) :
    Typable s (.cond q c b t r) (.ternary ⟨q, none⟩ u v w) := by
  rcases hTest with ⟨u', hCarriesB, hAddB, hConstB⟩
  rcases hThen with ⟨v', hCarriesT, hAddT, hConstT⟩
  rcases hElse with ⟨w', hCarriesE, hAddE, hConstE⟩
  rcases hCarriesT.convertBoth hCarriesE s with
    ⟨i, j, hSame, hType, hBoth⟩
  refine ⟨.ternary ⟨q, i.type?⟩ u' (.cast i v') (.cast j w'),
    .cond hType hType ?_ hCarriesB hCarriesT hCarriesE, ?_,
    fun h => .ternary rfl (hConstB h.1) (hConstT h.2.1) (hConstE h.2.2)⟩
  · rw [Info.arith?, ← hSame]
    exact hType
  intro ts
  rcases hCarriesT.exists_type with ⟨y, -, hTypeT, hArithT⟩
  rcases hCarriesE.exists_type with ⟨z, -, hTypeE, hArithE⟩
  rcases CType.not_of_arith? hArithT with ⟨hRec, hVoid, -⟩
  rcases CType.not_of_arith? hArithE with ⟨hRec', hVoid', -⟩
  rw [Typing.addType, if_neg (Constant.addType_untyped rfl),
    run_bind (hAddB ts), run_bind (hAddT ts), run_bind (hAddE ts)]
  unfold typeTernary
  simp only [hTypeT, hTypeE, hRec, hVoid, hRec', hVoid', Bool.or_self, Bool.false_eq_true, if_false]
  exact run_bind (hBoth ts)

theorem Typable.comma (hLeft : Typable s l x) (hRight : Typable s r y) (t : Token) :
    Typable s (.comma t l r) (Operator.comma x y t) := by
  rcases hLeft with ⟨x', hCarries, hAdd, hConstant⟩
  rcases hRight with ⟨y', hCarries', hAdd', hConstant'⟩
  refine ⟨.comma ⟨t, y'.type?⟩ x' y', .comma hCarries'.arith?_eq hCarries hCarries', ?_,
    fun h => .comma rfl (hConstant h.1) (hConstant' h.2)⟩
  intro ts
  rw [Operator.comma, Typing.addType, if_neg (Constant.addType_untyped rfl)]
  exact (run_bind (hAdd ts)).trans (run_bind (hAdd' ts))

theorem Typable.assign (hLeft : Typable s l x) (hRight : Typable s r y) (t : Token) :
    Typable s (.assign t l r) (Operator.assign x y t) := by
  rcases hLeft with ⟨x', hCarries, hAdd, -⟩
  rcases hRight with ⟨y', hCarries', hAdd', -⟩
  rcases hCarries.exists_type with ⟨u, hSome, hType, hArith⟩
  rcases CType.not_of_arith? hArith with ⟨hRecord, -, -, -, hArray⟩
  refine ⟨.assign ⟨t, x'.type?⟩ x' (.cast ⟨y'.tok, some u⟩ y'),
    .assign hCarries.arith?_eq hArith hCarries hCarries', ?_, False.elim⟩
  intro ts
  rw [Operator.assign, Typing.addType, if_neg (Constant.addType_untyped rfl), run_bind (hAdd ts),
    run_bind (hAdd' ts)]
  unfold typeAssign
  simp only [hType, hRecord, hArray, Bool.false_eq_true, if_false, pure_bind]
  exact run_bind (castTo_arith y' _ hArith)

end Formula

end CCompiler
