import Mathlib
import CCompiler.Proofs.Syntax.CompoundTrees
import CCompiler.Proofs.Syntax.Evaluation

/-
  Trees that get their types, and what they compute then.

  One equation per node gives the tree with types that adding
  types makes of it.  From these and the rules of evaluation
  follow the steps of an assignment: an operator on two
  integers computes what C says, a variable of the compiler
  gets an address or a value, and what it points to is updated.

  Main declarations:
    * `Operator.valueIn`, `Operator.isCompound`
    * `Operator.operator_typed`, `Operator.update_typed`
    * `Operator.pointTo_typed`, `Operator.keep_typed`
-/

------------
-- Adding Types
------------

namespace CCompiler

namespace Operator

open Parse Typing Evaluation

variable {s : ParseState} {e e' l l' r r' : Expr} {t : Token}
  {T : CType} {v : ObjId} {τ ρ : IntType} {op : BinOp}

theorem addType_var (hType : (s.objects.entry v).type = T) :
    addType (var v t) s = .ok (.var ⟨t, some T⟩ v) s := by
  subst hType
  rfl

theorem addType_addressOf (hInner : addType e s = .ok e' s) :
    addType (unary .addressOf e t) s = .ok (.unary ⟨t, some (addressType e'.type)⟩ .addressOf e')
        s := by
  change (addType e >>= fun a => typeUnary ⟨t, none⟩ .addressOf a) s = _
  rw [Parse.run_bind hInner]
  rfl

theorem addType_not (hInner : addType e s = .ok e' s) :
    addType (unary .not e t) s = .ok (.unary ⟨t, some .int⟩ .not e') s := by
  change (addType e >>= fun a => typeUnary ⟨t, none⟩ .not a) s = _
  rw [Parse.run_bind hInner]
  rfl

theorem addType_deref (hInner : addType e s = .ok e' s) (hBase : e'.type.base? = some T)
    (hVoid : T.isVoid = false) :
    addType (unary .deref e t) s = .ok (.unary ⟨t, some T⟩ .deref e') s := by
  change (addType e >>= fun a => typeUnary ⟨t, none⟩ .deref a) s = _
  rw [Parse.run_bind hInner]
  unfold typeUnary
  simp only [hBase, hVoid]
  rfl

theorem addType_member (m : Member) (hInner : addType e s = .ok e' s) :
    addType (.member ⟨t, none⟩ e m) s = .ok (.member ⟨t, some m.type⟩ e' m) s := by
  change (addType e >>= fun a => pure (Expr.member ⟨t, some m.type⟩ a m)) s = _
  rw [Parse.run_bind hInner]
  rfl

theorem addType_comma (hLeft : addType l s = .ok l' s) (hRight : addType r s = .ok r' s) :
    addType (comma l r t) s = .ok (.comma ⟨t, r'.type?⟩ l' r') s := by
  change (addType l >>= fun a => addType r >>= fun b => pure (Expr.comma ⟨t, b.type?⟩ a b)) s = _
  rw [Parse.run_bind hLeft, Parse.run_bind hRight]
  rfl

/- An integer or a pointer is no other type. -/
theorem isWord_cases (hWord : isWord T = true) :
    T.isRecord = false ∧ T.isVoid = false ∧ T.isArray = false ∧ ∀ s, copyType T s = .ok T s := by
  have hPlain : ∀ id, T.plain ≠ .record id := by
    intro id hRecord
    simp [isWord, CType.isPointer, CType.values?, hRecord] at hWord
  refine ⟨?_, ?_, ?_, fun s => ?_⟩
  · unfold CType.isRecord
    split
    · exact absurd ‹_› (hPlain _)
    · rfl
  · unfold CType.isVoid
    split
    · rename_i hVoid
      simp [isWord, CType.isPointer, CType.values?, hVoid] at hWord
    · rfl
  · unfold CType.isArray
    split
    · rename_i hArray
      simp [isWord, CType.isPointer, CType.values?, hArray] at hWord
    · rfl
  · unfold copyType
    split
    · exact absurd rfl (hPlain _)
    · exact absurd rfl (hPlain _)
    · rfl

/- Types of integers and pointers are not copied. -/
theorem castTo_word (e : Expr) (hWord : isWord T = true) :
    castTo e T s = .ok (.cast ⟨e.tok, some T⟩ e) s := by
  unfold castTo
  rw [Parse.run_bind ((isWord_cases hWord).2.2.2 s)]
  rfl

theorem addType_assign (hLeft : addType l s = .ok l' s) (hRight : addType r s = .ok r' s)
    (hWord : isWord l'.type = true) :
    addType (assign l r t) s = .ok (.assign ⟨t, l'.type?⟩ l'
        (.cast ⟨r'.tok, some l'.type⟩ r')) s := by
  obtain ⟨hRecord, -, hArray, -⟩ := isWord_cases hWord
  change (addType l >>= fun a => addType r >>= fun b => typeAssign ⟨t, none⟩ a b) s = _
  rw [Parse.run_bind hLeft, Parse.run_bind hRight]
  unfold typeAssign
  simp only [hRecord, hArray, Bool.false_eq_true, if_false]
  change (castTo r' l'.type >>= fun b => pure (Expr.assign ⟨t, l'.type?⟩ l' b)) s = _
  rw [Parse.run_bind (castTo_word _ hWord)]
  rfl

/- Operators that have a form with an assignment. -/
def isCompound (op : BinOp) : Bool :=
  !op.isLogical && !op.isComparison

/- The value of `a op b` in C for values of two types. -/
def valueIn (op : BinOp) (τ ρ : IntType) (a b : Int) : Option Int :=
  (Term.binary op (.const τ a) (.const ρ b)).value
    (fun _ => .int) (fun _ => 0)

theorem valueIn_eq (hOp : isCompound op = true) (τ ρ : IntType) (a b : Int) :
    valueIn op τ ρ a b = if op.isShift then
        op.shiftValue τ.promote (τ.promote.convert a) b
      else
        op.value (τ.common ρ) ((τ.common ρ).convert a) ((τ.common ρ).convert b) := by
  have hLogical : op.isLogical = false := by cases op <;> first | rfl | cases hOp
  rw [valueIn, Term.value_binary hLogical]
  rfl

theorem isWord_of_values (hValues : T.values? = some τ) : isWord T = true := by
  simp [isWord, hValues]

/- An expression of an integer type has a type. -/
theorem type?_of_values (hValues : e.type.values? = some τ) : e.type? = some e.type := by
  unfold Expr.type at hValues ⊢
  cases hType : e.type? with
  | none =>
    rw [hType] at hValues
    cases hValues
  | some T => rfl

/- Integers are converted to their common type. -/
theorem convertBoth_integers (hLeft : l.type.values? = some τ) (hRight : r.type.values? = some ρ) :
    convertBoth l r s = .ok (.cast ⟨l.tok, some (CType.common s.records l.type r.type)⟩ l,
        .cast ⟨r.tok, some (CType.common s.records l.type r.type)⟩ r)
        s := by
  have hOperand : ∀ {e : Expr} {σ : IntType},
      e.type.values? = some σ → checkOperand e s = .ok () s := by
    intro e σ hValues
    obtain ⟨hRecord, hVoid, -, -⟩ := isWord_cases (isWord_of_values hValues)
    unfold checkOperand
    rw [hRecord, hVoid]
    rfl
  have hWord := isWord_of_values (CType.values?_common s.records hLeft hRight)
  unfold convertBoth
  rw [Parse.run_bind (hOperand hLeft), Parse.run_bind (hOperand hRight),
    Parse.run_bind (show records s = .ok s.records s from rfl),
    Parse.run_bind (castTo_word l hWord), Parse.run_bind (castTo_word r hWord)]
  rfl

/- The type of an operator that is no shift. -/
theorem addType_arithmetic (hOp : isCompound op = true) (hShift : op.isShift = false)
    (hLeft : addType l s = .ok l' s) (hRight : addType r s = .ok r' s)
    (hLeftType : l'.type.values? = some τ) (hRightType : r'.type.values? = some ρ) :
    let C := CType.common s.records l'.type r'.type
    addType (binary op l r t) s = .ok (.binary ⟨t, some C⟩ op (.cast ⟨l'.tok, some C⟩ l')
        (.cast ⟨r'.tok, some C⟩ r')) s := by
  intro C
  change (addType l >>= fun a => addType r >>= fun b => typeBinary ⟨t, none⟩ op a b) s = _
  rw [Parse.run_bind hLeft, Parse.run_bind hRight]
  have hNode : typeBinary ⟨t, none⟩ op l' r' = convertBoth l' r' >>= fun p => pure
        (Expr.binary ⟨t, p.1.type?⟩ op p.1 p.2) := by
    cases op <;> first
      | cases hOp; done
      | cases hShift; done
      | rfl
  rw [hNode, Parse.run_bind (convertBoth_integers hLeftType hRightType)]
  rfl

theorem addType_shift (hShift : op.isShift = true) (hLeft : addType l s = .ok l' s)
    (hRight : addType r s = .ok r' s) :
    addType (binary op l r t) s = .ok (.binary ⟨t, l'.type?⟩ op l' r') s := by
  change (addType l >>= fun a => addType r >>= fun b => typeBinary ⟨t, none⟩ op a b) s = _
  rw [Parse.run_bind hLeft, Parse.run_bind hRight]
  cases op <;> first | rfl | cases hShift

/-
  An operator between two integers gets a type, and computes
  the value of `a op b` in C.
-/
theorem operator_typed (hOp : isCompound op = true) (hLeft : addType l s = .ok l' s)
    (hRight : addType r s = .ok r' s) (hLeftType : l'.type.values? = some τ)
    (hRightType : r'.type.values? = some ρ) (hShift : op.isShift = true → τ.promote = τ) :
    ∃ e' κ, addType (binary op l r t) s = .ok e' s ∧ e'.type.values? = some κ ∧
      ∀ {W : Type} {h : Host W} {σ σ₁ σ₂ : Store W} {a b w : Int},
        τ.Has a → valueIn op τ ρ a b = some w →
        Gives h r' σ (.num b) σ₁ → Gives h l' σ₁ (.num a) σ₂ → Gives h e' σ (.num w) σ₂ := by
  have hLogical : op.isLogical = false := by cases op <;> first | rfl | cases hOp
  cases hKind : op.isShift with
  | true =>
    have hSame := hShift hKind
    refine ⟨_, τ, addType_shift hKind hLeft hRight, hLeftType, ?_⟩
    intro W h σ σ₁ σ₂ a b w hHas hValue hR hL
    rw [valueIn_eq hOp, if_pos hKind, hSame, IntType.convert_of_has hHas] at hValue
    refine .binary (type?_of_values hLeftType) (Option.isSome_of_eq_some hLeftType) hLeftType
      (Option.isSome_of_eq_some hRightType)
      hLogical hR hL ?_
    rw [result?, if_pos hKind, hValue]
  | false =>
    have hCommon := CType.values?_common s.records hLeftType hRightType
    refine ⟨_, τ.common ρ, addType_arithmetic hOp hKind hLeft hRight
      hLeftType hRightType, hCommon, ?_⟩
    intro W h σ σ₁ σ₂ a b w _ hValue hR hL
    rw [valueIn_eq hOp, if_neg (by simp [hKind])] at hValue
    have hSome := Option.isSome_of_eq_some hCommon
    refine .binary rfl hSome hCommon hSome hLogical (hR.cast rfl hCommon hRightType)
      (hL.cast rfl hCommon hLeftType) ?_
    rw [result?, if_neg (by simp [hKind]), hValue]

------------
-- Steps
------------

theorem isPointer_addressType (T : CType) : (addressType T).isPointer = true := by
  unfold addressType
  split <;> rfl

variable {W : Type}

variable {h : Host W}

theorem home_own (hOwn : h.first ≤ v) : h.home v = .own v := if_pos hOwn

/- A variable of the compiler gets the address of an lvalue. -/
theorem pointTo_typed (hVar : (s.objects.entry v).type = .ptr T) (hInner : addType l s = .ok l' s) :
    ∃ e', addType (assign (var v t) (unary .addressOf l t) t) s = .ok e' s ∧
      ∀ {W : Type} {h : Host W} {σ σ₁ : Store W} {p : Location}, h.first ≤ v → Denotes h l' σ p σ₁ →
          Gives h e' σ p.pointer (σ₁.set v p.pointer) := by
  refine ⟨_, addType_assign (addType_var hVar) (addType_addressOf hInner) rfl, ?_⟩
  intro W h σ σ₁ p hOwn hDenotes
  refine Gives.assign rfl (denotes_var v)
    (hDenotes.addressOf.castPointer rfl rfl (isPointer_addressType l'.type)) ?_
  rw [home_own hOwn]
  rfl

/- A variable of the compiler gets the value of an integer. -/
theorem keep_typed (hVar : (s.objects.entry v).type = T) (hTarget : T.values? = some τ)
    (hInner : addType e s = .ok e' s) (hSource : e'.type.values? = some ρ) :
    ∃ u, addType (assign (var v t) e t) s = .ok u s ∧
      ∀ {W : Type} {h : Host W} {σ σ₁ : Store W} {n : Int}, h.first ≤ v → Gives h e' σ (.num n) σ₁ →
          Gives h u σ (.num (τ.convert n)) (σ₁.set v (.num (τ.convert n))) := by
  have hWord : isWord T = true := isWord_of_values hTarget
  refine ⟨_, addType_assign (addType_var hVar) hInner hWord, ?_⟩
  intro W h σ σ₁ n hOwn hGives
  refine Gives.assign ?_ (denotes_var v) (hGives.cast rfl hTarget hSource) ?_
  · exact Bool.and_eq_true_iff.mpr ⟨hWord, rfl⟩
  · rw [home_own hOwn]
    rfl

/- What one of the compiler's variables holds. -/
theorem own_gives {σ : Store W} {i : Info} {y : Value} (hType : i.type? = some T)
    (hWord : isWord T = true) (hOwn : h.first ≤ v) (hHolds : σ.own v = y) :
    Gives h (.var i v) σ y σ := by
  subst hHolds
  refine Denotes.read ?_ (denotes_var v) ?_
  · have hSame : (Expr.var i v).type = T := by simp [Expr.type, Expr.type?, Expr.info, hType]
    exact Bool.and_eq_true_iff.mpr ⟨by rw [hSame]; exact hWord, rfl⟩
  · rw [home_own hOwn]
    rfl

/- What such a variable points to. -/
theorem pointee_typed (hVar : (s.objects.entry v).type = .ptr T) (hVoid : T.isVoid = false) :
    ∃ e', addType (unary .deref (var v t) t) s = .ok e' s ∧
      e'.type? = some T ∧ e'.isMember = false ∧
      (isWord T = true → isWordPlace e' = true) ∧
      ∀ {W : Type} {h : Host W} {σ : Store W} {p : Location}, h.first ≤ v → σ.own v = p.pointer →
          Denotes h e' σ p σ := by
  refine ⟨_, addType_deref (addType_var hVar) rfl hVoid, rfl, rfl,
    fun hWord => Bool.and_eq_true_iff.mpr ⟨hWord, rfl⟩, ?_⟩
  intro W h σ p hOwn hPoints
  have hValue : Gives h (.var ⟨t, some (.ptr T)⟩ v) σ p.pointer σ := own_gives rfl rfl hOwn hPoints
  simpa using hValue.deref (i := ⟨t, some T⟩)

/-
  A place gets the value of an operator on what it holds and
  another operand.
-/
theorem update_typed (hOp : isCompound op = true) (hPlace : addType e s = .ok e' s)
    (hWord : isWordPlace e' = true) (hType : e'.type.values? = some τ)
    (hRight : addType r s = .ok r' s) (hRightType : r'.type.values? = some ρ)
    (hShift : op.isShift = true → τ.promote = τ) :
    ∃ u, addType (assign e (binary op e r t) t) s = .ok u s ∧ u.type? = some e'.type ∧
      ∀ {W : Type} {h : Host W} {σ σ₁ : Store W} {a : BitVec 64} {b w : Int},
        Denotes h e' σ (.byte a) σ → Denotes h e' σ₁ (.byte a) σ₁ →
        Gives h r' σ (.num b) σ₁ →
        valueIn op τ ρ (σ₁.outside.1.loadValue a τ) b = some w → Gives h u σ (.num (τ.convert w))
            (σ₁.give a τ (τ.convert w)) := by
  obtain ⟨f, κ, hOperator, hResult, hValue⟩ := operator_typed (t := t)
    hOp hPlace hRight hType hRightType hShift
  refine ⟨_, addType_assign hPlace hOperator (isWord_of_values hType), type?_of_values hType, ?_⟩
  intro W h σ σ₁ a b w hBefore hAfter hGives hDefined
  have hRead : Gives h e' σ₁ (.num (σ₁.outside.1.loadValue a τ)) σ₁ :=
    hAfter.read hWord (σ₁.read_byte hType)
  exact Gives.assign hWord hBefore
    ((hValue Memory.has_loadValue hDefined hGives hRead).cast rfl hType
      hResult) (σ₁.write_byte _ hType)

/- A compare-and-swap has the type of truth values. -/
theorem addType_cas {addr old new addr' old' new' : Expr} (hAddr : addType addr s = .ok addr' s)
    (hOld : addType old s = .ok old' s) (hNew : addType new s = .ok new' s)
    (hPointer : addr'.type.isPointer = true) (hPointer' : old'.type.isPointer = true) :
    addType (.cas ⟨t, none⟩ addr old new) s = .ok (.cas ⟨t, some .bool⟩ addr' old' new') s := by
  change (addType addr >>= fun a => addType old >>= fun o =>
    addType new >>= fun n => typeCas ⟨t, none⟩ a o n) s = _
  rw [Parse.run_bind hAddr, Parse.run_bind hOld, Parse.run_bind hNew]
  unfold typeCas
  rw [hPointer, hPointer']
  rfl

theorem addTypeStmt_expr (hInner : addType e s = .ok e' s) :
    addTypeStmt (.expr t e) s = .ok (.expr t e') s := by
  change (addType e >>= fun a => pure (Stmt.expr t a)) s = _
  rw [Parse.run_bind hInner]
  rfl

theorem addTypeStmts_nil : addTypeStmts [] s = .ok [] s := rfl

variable {a a' : Stmt} {as as' : List Stmt}

theorem addTypeStmts_cons (hFirst : addTypeStmt a s = .ok a' s)
    (hRest : addTypeStmts as s = .ok as' s) : addTypeStmts (a :: as) s = .ok (a' :: as') s := by
  change (addTypeStmt a >>= fun b => addTypeStmts as >>= fun bs => pure (b :: bs)) s = _
  rw [Parse.run_bind hFirst, Parse.run_bind hRest]
  rfl

theorem addTypeStmt_block (hInner : addTypeStmts as s = .ok as' s) :
    addTypeStmt (.block t as) s = .ok (.block t as') s := by
  change (addTypeStmts as >>= fun b => pure (Stmt.block t b)) s = _
  rw [Parse.run_bind hInner]
  rfl

theorem addTypeStmt_doLoop (brk cont : Bytes) (hCond : addType e s = .ok e' s)
    (hBody : addTypeStmt a s = .ok a' s) :
    addTypeStmt (.doLoop t a e brk cont) s = .ok (.doLoop t a' e' brk cont) s := by
  change (addType e >>= fun c => addTypeStmt a >>= fun b => pure (Stmt.doLoop t b c brk cont)) s = _
  rw [Parse.run_bind hCond, Parse.run_bind hBody]
  rfl

theorem addType_stmtExpr {u : Token} (hInner : addTypeStmts as s = .ok as' s)
    (hLast : as'.getLast? = some (.expr u e)) :
    addType (.stmtExpr ⟨t, none⟩ as) s = .ok (.stmtExpr ⟨t, e.type?⟩ as') s := by
  change (addTypeStmts as >>= fun b => typeStmtExpr ⟨t, none⟩ b) s = _
  rw [Parse.run_bind hInner]
  unfold typeStmtExpr
  rw [hLast]
  rfl

end Operator

end CCompiler
