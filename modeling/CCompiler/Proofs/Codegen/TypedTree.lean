import Mathlib
import CCompiler.Proofs.Codegen.Term
import CCompiler.Syntax.Typing

/-
  Trees of integer terms before and after they get types.

  A tree that spells a term has no conversions but those that
  are written; types may have been added to any part of it
  before.  A typed tree converts operands as C prescribes.

  Main declarations:
    * `Spells`, `Typed`
    * `Spells.addType`
-/

------------
-- Trees
------------

namespace CCompiler

/- The variables of a term have their types in a state. -/
def Declares
    (Γ : ObjId → IntType)
    (s : ParseState)
    (t : Term) : Prop :=
  ∀ x ∈ t.vars, (s.objects.entry x).type = (Γ x).toCType

/-
  A tree spells a term.  A number may have its type from the
  start, and a conversion is made of a tree that has one;
  types may have been added to any tree.
-/
inductive Spells (Γ : ObjId → IntType) : Term → Expr → Prop
| const {i τ v}
    (hType : i.type? = some τ.toCType ∨ i.type? = none ∧ τ = .int) :
    Spells Γ (.const τ v) (.num i (Int64.ofInt v))
| var {i x}
    (hType : i.type? = none) :
    Spells Γ (.var x) (.var i x)
| cast {i τ t e}
    (hType : i.type? = some τ.toCType)
    (hInner : Spells Γ t e)
    (hTyped : e.type?.isSome = true) :
    Spells Γ (.cast τ t) (.cast i e)
| neg {i t e}
    (hType : i.type? = none)
    (hInner : Spells Γ t e) :
    Spells Γ (.neg t) (.unary i .neg e)
| not {i t e}
    (hType : i.type? = none)
    (hInner : Spells Γ t e) :
    Spells Γ (.not t) (.unary i .not e)
| bitNot {i t e}
    (hType : i.type? = none)
    (hInner : Spells Γ t e) :
    Spells Γ (.bitNot t) (.unary i .bitNot e)
| binary {i op l r a b}
    (hType : i.type? = none)
    (hLeft : Spells Γ l a)
    (hRight : Spells Γ r b) :
    Spells Γ (.binary op l r) (.binary i op a b)
| cond {i c t e a b d}
    (hType : i.type? = none)
    (hTest : Spells Γ c a)
    (hThen : Spells Γ t b)
    (hElse : Spells Γ e d) :
    Spells Γ (.cond c t e) (.ternary i a b d)
| comma {i l r a b}
    (hType : i.type? = none)
    (hLeft : Spells Γ l a)
    (hRight : Spells Γ r b) :
    Spells Γ (.comma l r) (.comma i a b)
| typed {t e e' s s'}
    (hSpells : Spells Γ t e)
    (hDeclares : Declares Γ s t)
    (hAdd : Typing.addType e s = .ok e' s') :
    Spells Γ t e'

/-
  A tree of a term in which every part has its type, and the
  operands that C converts stand in conversions.
-/
inductive Typed (Γ : ObjId → IntType) : Term → Expr → Prop
| const {i τ v}
    (hType : i.type? = some τ.toCType) :
    Typed Γ (.const τ v) (.num i (Int64.ofInt v))
| var {i x}
    (hType : i.type? = some (Γ x).toCType) :
    Typed Γ (.var x) (.var i x)
| cast {i τ t e}
    (hType : i.type? = some τ.toCType)
    (hInner : Typed Γ t e) :
    Typed Γ (.cast τ t) (.cast i e)
| neg {i t e}
    (hType : i.type? = some (t.type Γ).promote.toCType)
    (hInner : Typed Γ (.cast (t.type Γ).promote t) e) :
    Typed Γ (.neg t) (.unary i .neg e)
| not {i t e}
    (hType : i.type? = some .int)
    (hInner : Typed Γ t e) :
    Typed Γ (.not t) (.unary i .not e)
| bitNot {i t e}
    (hType : i.type? = some (t.type Γ).promote.toCType)
    (hInner : Typed Γ t e) :
    Typed Γ (.bitNot t) (.unary i .bitNot e)
| logical {i op l r a b}
    (hOp : op.isLogical = true)
    (hType : i.type? = some .int)
    (hLeft : Typed Γ l a)
    (hRight : Typed Γ r b) :
    Typed Γ (.binary op l r) (.binary i op a b)
| shift {i op l r a b}
    (hOp : op.isShift = true)
    (hType : i.type? = some (l.type Γ).promote.toCType)
    (hLeft : Typed Γ l a)
    (hRight : Typed Γ r b) :
    Typed Γ (.binary op l r) (.binary i op a b)
| arith {i op l r a b}
    (hLogical : op.isLogical = false)
    (hShift : op.isShift = false)
    (hType : i.type? = some ((Term.binary op l r).type Γ).toCType)
    (hLeft : Typed Γ (.cast ((l.type Γ).common (r.type Γ)) l) a)
    (hRight : Typed Γ (.cast ((l.type Γ).common (r.type Γ)) r) b) :
    Typed Γ (.binary op l r) (.binary i op a b)
| cond {i c t e a b d}
    (hType : i.type? = some ((t.type Γ).common (e.type Γ)).toCType)
    (hTest : Typed Γ c a)
    (hThen : Typed Γ (.cast ((t.type Γ).common (e.type Γ)) t) b)
    (hElse : Typed Γ (.cast ((t.type Γ).common (e.type Γ)) e) d) :
    Typed Γ (.cond c t e) (.ternary i a b d)
| comma {i l r a b}
    (hType : i.type? = some (r.type Γ).toCType)
    (hLeft : Typed Γ l a)
    (hRight : Typed Γ r b) :
    Typed Γ (.comma l r) (.comma i a b)

variable {Γ : ObjId → IntType} {t : Term} {e : Expr}

/- A typed tree has the type of its term. -/
theorem Typed.type?_eq (hTyped : Typed Γ t e) : e.type? = some (t.type Γ).toCType := by
  cases hTyped with
  | const hType => exact hType
  | var hType => exact hType
  | cast hType => exact hType
  | neg hType => exact hType
  | not hType => exact hType
  | bitNot hType => exact hType
  | logical hOp hType =>
    rw [Term.type_logical hOp]
    exact hType
  | shift hOp hType =>
    simp only [Term.type, hOp, if_true]
    exact hType
  | arith hLogical hShift hType => exact hType
  | cond hType => exact hType
  | comma hType => exact hType

theorem Typed.type_eq (hTyped : Typed Γ t e) : e.type = (t.type Γ).toCType := by
  unfold Expr.type
  rw [hTyped.type?_eq]
  rfl

end CCompiler

------------
-- Adding Types
------------

namespace CCompiler

open Typing

variable {Γ : ObjId → IntType}

namespace IntType

/- The common type is the one that C prescribes. -/
theorem common_toCType (rs : Records) (σ τ : IntType) :
    CType.common rs σ.toCType τ.toCType = (σ.common τ).toCType := by
  obtain _ | ⟨k, u⟩ := σ <;> obtain _ | ⟨k', u'⟩ := τ
  · rfl
  · cases k' <;> cases u' <;> rfl
  · cases k <;> cases u <;> rfl
  · cases k <;> cases u <;> cases k' <;> cases u' <;> rfl

theorem common_int (rs : Records) (τ : IntType) :
    CType.common rs .int τ.toCType = τ.promote.toCType := by
  obtain _ | ⟨k, u⟩ := τ
  · rfl
  · cases k <;> cases u <;> rfl

theorem copyType_toCType (τ : IntType) (s : ParseState) :
    Parse.copyType τ.toCType s = .ok τ.toCType s := by obtain _ | ⟨k, u⟩ := τ <;> rfl

end IntType

variable {t l r : Term} {e a b : Expr} {s : ParseState}

/- A conversion of a typed tree. -/
theorem Typed.castTo (hTyped : Typed Γ t e) (τ : IntType) (s : ParseState) :
    ∃ e', Typing.castTo e τ.toCType s = .ok e' s ∧ Typed Γ (.cast τ t) e' := by
  refine ⟨.cast ⟨e.tok, some τ.toCType⟩ e, ?_, .cast rfl hTyped⟩
  unfold Typing.castTo
  simp only [bind, EStateM.bind, IntType.copyType_toCType]
  rfl

/- Integers are operands. -/
theorem Typed.checkOperand (hTyped : Typed Γ t e) (s : ParseState) :
    Typing.checkOperand e s = .ok () s := by
  unfold Typing.checkOperand
  rw [hTyped.type_eq]
  obtain _ | ⟨k, u⟩ := t.type Γ <;> rfl

/- Both operands in their common type. -/
theorem Typed.convertBoth (hLeft : Typed Γ l a) (hRight : Typed Γ r b) (s : ParseState) :
    ∃ a' b', Typing.convertBoth a b s = .ok (a', b') s ∧
      Typed Γ (.cast ((l.type Γ).common (r.type Γ)) l) a' ∧
      Typed Γ (.cast ((l.type Γ).common (r.type Γ)) r) b' := by
  obtain ⟨a', hA, hTypedA⟩ := hLeft.castTo ((l.type Γ).common (r.type Γ)) s
  obtain ⟨b', hB, hTypedB⟩ := hRight.castTo ((l.type Γ).common (r.type Γ)) s
  refine ⟨a', b', ?_, hTypedA, hTypedB⟩
  unfold Typing.convertBoth
  simp only [bind, EStateM.bind, hLeft.checkOperand,
    hRight.checkOperand, Parse.records, get, getThe,
    MonadStateOf.get, EStateM.get, pure, EStateM.pure,
    hLeft.type_eq, hRight.type_eq, IntType.common_toCType, hA, hB]

/- A tree that has a type is left as it is. -/
theorem addType_of_isSome (hType : e.type?.isSome = true) (s : ParseState) :
    addType e s = .ok e s := by cases e <;> (rw [addType]; rw [if_pos hType]; rfl)

section Nodes

variable {i : Info}

/- The sign of a typed tree changed. -/
theorem Typed.typeNeg (hTyped : Typed Γ t e) (s : ParseState) :
    ∃ e', typeUnary i .neg e s = .ok e' s ∧ Typed Γ (.neg t) e' := by
  obtain ⟨a, hCast, hInner⟩ := hTyped.castTo (t.type Γ).promote s
  refine ⟨_, ?_, .neg (i := { i with
    type? := some (t.type Γ).promote.toCType }) rfl hInner⟩
  unfold typeUnary
  simp only [bind, EStateM.bind, hTyped.checkOperand, Parse.records, get, getThe, MonadStateOf.get,
    EStateM.get, pure, EStateM.pure, hTyped.type_eq, IntType.common_int, hCast]

/- An operator between typed trees. -/
theorem Typed.typeBinary {op : BinOp} (hLeft : Typed Γ l a) (hRight : Typed Γ r b)
    (hShift : op.isShift = true → (l.type Γ).promote = l.type Γ) (s : ParseState) :
    ∃ e', Typing.typeBinary i op a b s = .ok e' s ∧ Typed Γ (.binary op l r) e' := by
  obtain ⟨a', b', hBoth, hA, hB⟩ := hLeft.convertBoth hRight s
  have hBase : a.type.base?.isSome = false := by
    rw [hLeft.type_eq]
    obtain _ | ⟨k, u⟩ := l.type Γ <;> rfl
  cases hLogical : op.isLogical with
  | true =>
    refine ⟨_, ?_, .logical (i := { i with
      type? := some .int }) hLogical rfl hLeft hRight⟩
    cases op <;> first | rfl | cases hLogical
  | false =>
    cases hOp : op.isShift with
    | true =>
      refine ⟨_, ?_, .shift (i := { i with
        type? := a.type? }) hOp ?_ hLeft hRight⟩
      · cases op <;> first | rfl | cases hOp
      · rw [hShift hOp]
        exact hLeft.type?_eq
    | false =>
      cases hCompare : op.isComparison with
      | true =>
        refine ⟨_, ?_, .arith (i := { i with
          type? := some .int }) hLogical hOp ?_ hA hB⟩
        · unfold Typing.typeBinary
          cases op <;> first
            | cases hCompare; done
            | simp only [bind, EStateM.bind, hBase, Bool.false_and, Bool.false_eq_true,
                if_false, pure, EStateM.pure, hBoth]
        · simp only [Term.type, hOp, hCompare, Bool.or_true, if_true, Bool.false_eq_true, if_false]
          rfl
      | false =>
        refine ⟨_, ?_, .arith (i := { i with
          type? := a'.type? }) hLogical hOp ?_ hA hB⟩
        · unfold Typing.typeBinary
          cases op <;> first
            | cases hCompare; done
            | cases hOp; done
            | cases hLogical; done
            | simp only [bind, EStateM.bind, pure, EStateM.pure, hBoth]
        · rw [hA.type?_eq]
          simp only [Term.type, hOp, hCompare, hLogical,
            Bool.or_false, Bool.false_eq_true, if_false]

/- A choice between typed trees. -/
theorem Typed.typeTernary {c : Term} {d : Expr} (hTest : Typed Γ c d) (hThen : Typed Γ l a)
    (hElse : Typed Γ r b) (s : ParseState) :
    ∃ e', Typing.typeTernary i d a b s = .ok e' s ∧ Typed Γ (.cond c l r) e' := by
  obtain ⟨a', b', hBoth, hA, hB⟩ := hThen.convertBoth hElse s
  refine ⟨_, ?_, .cond (i := { i with type? := a'.type? }) hA.type?_eq hTest hA hB⟩
  have hPlain : ∀ {t : Term} {e : Expr}, Typed Γ t e →
      e.type.isVoid = false ∧ e.type.isRecord = false := by
    intro t e hTyped
    rw [hTyped.type_eq]
    obtain _ | ⟨k, u⟩ := t.type Γ <;> exact ⟨rfl, rfl⟩
  unfold Typing.typeTernary
  simp only [hPlain hThen, hPlain hElse, Bool.or_false,
    Bool.false_eq_true, if_false, bind, EStateM.bind, hBoth]
  rfl

end Nodes

/-
  Adding types to a tree of a term succeeds, and gives a typed
  tree of it.
-/
theorem Spells.addType (hSpells : Spells Γ t e) (hProper : t.Proper Γ) (s : ParseState)
    (hDeclares : Declares Γ s t) : ∃ e', Typing.addType e s = .ok e' s ∧ Typed Γ t e' := by
  have untyped : ∀ {e : Expr}, e.type? = none → ¬ e.type?.isSome = true := by
    intro e hNone
    simp [hNone]
  induction hSpells generalizing s with
  | @const i τ v hType =>
    rcases hType with hSome | ⟨hNone, rfl⟩
    · exact ⟨_, addType_of_isSome (by simp [Expr.type?, Expr.info, hSome]) s, .const hSome⟩
    · refine ⟨.num { i with type? := some .int } _, ?_, .const rfl⟩
      rw [Typing.addType, if_neg (untyped (e := .num i _) hNone)]
      rfl
  | @var i x hType =>
    refine ⟨.var { i with type? := some (Γ x).toCType } x, ?_, .var rfl⟩
    have hObject := hDeclares x (by simp [Term.vars])
    rw [Typing.addType, if_neg (untyped (e := .var i x) hType)]
    simp only [bind, EStateM.bind, Parse.object, get, getThe,
      MonadStateOf.get, EStateM.get, pure, EStateM.pure, hObject]
  | @cast i τ t e hType hInner hTyped ih =>
    obtain ⟨e', hAdd, hInner'⟩ := ih hProper s hDeclares
    rw [addType_of_isSome hTyped] at hAdd
    cases hAdd
    exact ⟨_, addType_of_isSome (by simp [Expr.type?, Expr.info, hType]) s, .cast hType hInner'⟩
  | @neg i t e hType hInner ih =>
    obtain ⟨a, hAdd, hTyped⟩ := ih hProper s hDeclares
    obtain ⟨e', hNode, hTyped'⟩ := hTyped.typeNeg (i := i) s
    refine ⟨e', ?_, hTyped'⟩
    rw [Typing.addType, if_neg (untyped (e := .unary i .neg e) hType)]
    simp only [bind, EStateM.bind, hAdd, hNode]
  | @not i t e hType hInner ih =>
    obtain ⟨a, hAdd, hTyped⟩ := ih hProper s hDeclares
    refine ⟨_, ?_, .not (i := { i with type? := some .int }) rfl hTyped⟩
    rw [Typing.addType, if_neg (untyped (e := .unary i .not e) hType)]
    simp only [bind, EStateM.bind, hAdd]
    rfl
  | @bitNot i t e hType hInner ih =>
    obtain ⟨a, hAdd, hTyped⟩ := ih hProper.1 s hDeclares
    refine ⟨_, ?_, .bitNot (i := { i with type? := a.type? }) ?_ hTyped⟩
    · rw [Typing.addType, if_neg (untyped (e := .unary i .bitNot e) hType)]
      simp only [bind, EStateM.bind, hAdd]
      rfl
    · rw [hProper.2]
      exact hTyped.type?_eq
  | @binary i op l r a b hType hLeft hRight ihl ihr =>
    obtain ⟨hProperL, hProperR, hShift⟩ := hProper
    obtain ⟨a', hAddL, hTypedL⟩ := ihl hProperL s fun x hx => hDeclares x (by simp [Term.vars, hx])
    obtain ⟨b', hAddR, hTypedR⟩ := ihr hProperR s fun x hx => hDeclares x (by simp [Term.vars, hx])
    obtain ⟨e', hNode, hTyped⟩ := hTypedL.typeBinary (i := i) hTypedR hShift s
    refine ⟨e', ?_, hTyped⟩
    rw [Typing.addType, if_neg (untyped (e := .binary i op a b) hType)]
    simp only [bind, EStateM.bind, hAddL, hAddR, hNode]
  | @cond i c t e a b d hType hTest hThen hElse ihc iht ihe =>
    obtain ⟨a', hAddC, hTypedC⟩ := ihc hProper.1 s fun x hx => hDeclares x (by simp [Term.vars, hx])
    obtain ⟨b', hAddT, hTypedT⟩ := iht hProper.2.1 s
      fun x hx => hDeclares x (by simp [Term.vars, hx])
    obtain ⟨d', hAddE, hTypedE⟩ := ihe hProper.2.2 s
      fun x hx => hDeclares x (by simp [Term.vars, hx])
    obtain ⟨e', hNode, hTyped⟩ := hTypedC.typeTernary (i := i) hTypedT hTypedE s
    refine ⟨e', ?_, hTyped⟩
    rw [Typing.addType, if_neg (untyped (e := .ternary i a b d) hType)]
    simp only [bind, EStateM.bind, hAddC, hAddT, hAddE, hNode]
  | @comma i l r a b hType hLeft hRight ihl ihr =>
    obtain ⟨a', hAddL, hTypedL⟩ := ihl hProper.1 s fun x hx => hDeclares x (by simp [Term.vars, hx])
    obtain ⟨b', hAddR, hTypedR⟩ := ihr hProper.2 s fun x hx => hDeclares x (by simp [Term.vars, hx])
    refine ⟨_, ?_, .comma (i := { i with type? := b'.type? }) hTypedR.type?_eq hTypedL hTypedR⟩
    rw [Typing.addType, if_neg (untyped (e := .comma i a b) hType)]
    simp only [bind, EStateM.bind, hAddL, hAddR]
    rfl
  | @typed t e e' s₀ s' hInner hKnown hAdd ih =>
    obtain ⟨e'', hAdd', hTyped⟩ := ih hProper s₀ hKnown
    rw [hAdd] at hAdd'
    cases hAdd'
    exact ⟨e', addType_of_isSome (by rw [hTyped.type?_eq]; rfl) s, hTyped⟩

end CCompiler
