import Mathlib
import CCompiler.Proofs.Syntax.KeptValues

/-
  Reading expressions keeps an account.  What a tree names has
  been looked up or was added on the way.

  Main declarations:
    * `Expression.keeps_name`, `Expression.keeps_atom`
    * `Expression.keeps_call`, `Expression.keeps_suffixed`
    * `Expression.keeps_expr`, `Expression.keeps_unary`
-/

namespace CCompiler

set_option synthInstance.maxSize 20000

open Parse Account

variable {A : Account} {s : ParseState} {r : Reader} [hReads : A.Reads r]

namespace Expression

open Grammar Specifier Typing

variable {e : Expr}

------------
-- Forms that Add Nothing
------------

instance safe_typeArgument : A.Safe (typeArgument? r) := by
  dsimp only [typeArgument?]
  infer_instance

theorem keeps_argument (params : List CType) (variadic : Bool) (i : Nat) (hExpr : A.expr s e) :
    A.Keeps s (argument params variadic i e) A.expr := by
  refine keeps_typed hExpr fun e hExpr => ?_
  split
  · exact keeps_ite (fun _ => keeps_tree hExpr) (fun _ => Operator.keeps_newCast _ hExpr)
  · exact keeps_ite (fun _ => keeps_after fun _ => keeps_fail _ _)
      fun _ => keeps_ite (fun _ => Operator.keeps_newCast _ hExpr) (fun _ => keeps_tree hExpr)

theorem keeps_alignof (t : Token) : A.Keeps s (alignof r t) A.expr := by
  refine keeps_after fun type? => ?_
  cases type? with
  | some type => exact keeps_after fun _ => keeps_tree oks_nil
  | none =>
    exact keeps_after fun e =>
      keeps_after fun _ =>
      keeps_after fun _ => keeps_tree oks_nil

theorem keeps_genericSelection : A.Keeps s (genericSelection r) A.expr := by
  refine keeps_after fun start =>
    keeps_after fun _ =>
    keeps_after fun ctrl =>
    keeps_after fun ctrl => ?_
  have hArms : A.Keeps s (iterate none fun (chosen? : Option Expr) => do
      if ← accept ")" then return .inr chosen?
      expect ","
      if ← accept "default" then
        expect ":"
        let e ← r .assign
        return .inl (some (chosen?.getD e))
      else
        let arm ← r .typeName
        expect ":"
        let e ← r .assign
        if CType.compatible (← records) (controlType ctrl.type) arm then
          return .inl (some e)
        else return .inl chosen?)
      fun u chosen? => ∀ e, chosen? = some e → A.expr u e := by
    have hStable : ∀ {u w} {chosen? : Option Expr}, A.grows u w →
        (∀ e, chosen? = some e → A.expr u e) →
        ∀ e, chosen? = some e → A.expr w e :=
      fun hGrows h e he => (h e he).mono hGrows
    refine keeps_iterate (R := fun u chosen? => ∀ e, chosen? = some e → A.expr u e)
      (J := fun u chosen? => ∀ e, chosen? = some e → A.expr u e)
      hStable (fun u chosen? _ hChosen => ?_)
      (fun e he => by cases he)
    refine keeps_after fun _ => keeps_ite
      (fun _ => keeps_pure fun _ _ hLater => hStable hLater hChosen)
      fun _ => keeps_after fun _ =>
      keeps_after fun _ => keeps_ite (fun _ => ?_) fun _ => ?_
    · refine keeps_after fun _ =>
        hReads.assign.bind fun w e hMore hExpr => keeps_pure fun x _ hLater d hd => ?_
      cases chosen? with
      | none =>
        cases hd
        exact hExpr.mono hLater
      | some c =>
        cases hd
        exact (hChosen c rfl).mono (A.trans hMore hLater)
    · refine keeps_after fun arm =>
        keeps_after fun _ =>
        hReads.assign.bind fun w e hMore hExpr =>
        keeps_after fun rs => keeps_ite
          (fun _ => keeps_pure fun x _ hLater d hd => ?_)
          (fun _ => keeps_pure fun x _ hLater => hStable (A.trans hMore hLater) hChosen)
      cases hd
      exact hExpr.mono hLater
  refine hArms.bind fun u chosen? _ hChosen => ?_
  cases chosen? with
  | some e => exact keeps_tree (hChosen e rfl)
  | none => exact keeps_fail _ _

theorem keeps_typesCompatible (t : Token) :
    A.Keeps s (typesCompatible r t) A.expr :=
  keeps_after fun _ => keeps_after fun _ =>
    keeps_after fun _ => keeps_after fun _ =>
    keeps_after fun _ =>
    keeps_after fun _ => keeps_tree oks_nil

theorem keeps_registerClass (t : Token) :
    A.Keeps s (registerClass r t) A.expr :=
  keeps_after fun _ => keeps_after fun _ =>
    keeps_after fun _ => keeps_ite (fun _ => keeps_tree oks_nil) fun _ => keeps_ite
      (fun _ => keeps_tree oks_nil) (fun _ => keeps_tree oks_nil)

theorem keeps_compareAndSwap (t : Token) :
    A.Keeps s (compareAndSwap r t) A.expr :=
  keeps_after fun _ =>
    hReads.assign.bind fun _ _ _ hAddr =>
    keeps_after fun _ =>
    hReads.assign.bind fun _ _ hOlder hOld =>
    keeps_after fun _ =>
    hReads.assign.bind fun _ _ hNewer hNew =>
    keeps_after fun _ => keeps_tree
      (((hAddr.mono (A.trans hOlder hNewer)).append
        (hOld.mono hNewer)).append hNew)

theorem keeps_exchange (t : Token) : A.Keeps s (exchange r t) A.expr :=
  keeps_after fun _ =>
    hReads.assign.bind fun _ _ _ hAddr =>
    keeps_after fun _ =>
    hReads.assign.bind fun _ _ hLater hValue =>
    keeps_after fun _ => keeps_tree ((hAddr.mono hLater).append hValue)

theorem keeps_statementExpr (t : Token) :
    A.Keeps s (statementExpr r t) A.expr := by
  refine keeps_after fun _ =>
    keeps_after fun _ =>
    hReads.compound.bind fun u b _ hBody => ?_
  split
  · exact keeps_after fun _ => keeps_tree hBody
  · exact keeps_throw _

theorem keeps_expr : A.Keeps s (expr r) A.expr :=
  hReads.assign.bind fun _ _ _ hLeft =>
    keeps_after fun _ => keeps_ite (fun _ => keeps_after fun _ =>
        hReads.expr.bind fun _ _ hLater hRight => keeps_tree ((hLeft.mono hLater).append hRight))
      (fun _ => keeps_tree hLeft)

theorem keeps_cast : A.Keeps s (cast r) A.expr := by
  refine keeps_after fun _ => keeps_ite (fun _ => ?_) fun _ => hReads.unary
  refine keeps_after fun start =>
    keeps_after fun t => keeps_after fun _ =>
    keeps_after fun type => keeps_after fun _ => keeps_after fun _ => keeps_ite
      (fun _ => keeps_after fun _ => hReads.unary)
      fun _ => ?_
  refine hReads.cast.bind fun u e _ hExpr =>
    (Operator.keeps_newCast type hExpr).bind fun w d _ hTree => keeps_tree ?_
  rw [Account.expr, Expr.names_withTok]
  exact hTree

theorem keeps_addressOf (t : Token) (hExpr : A.expr s e) : A.Keeps s (addressOf e t) A.expr := by
  refine keeps_typed hExpr fun e hExpr => ?_
  split
  · exact keeps_ite (fun _ => keeps_fail_bind _ _ _) (fun _ => keeps_tree hExpr)
  · exact keeps_tree hExpr

theorem keeps_deref (t : Token) (hExpr : A.expr s e) : A.Keeps s (deref e t) A.expr :=
  keeps_typed hExpr fun _ hExpr => keeps_ite (fun _ => keeps_tree hExpr) (fun _ => keeps_tree hExpr)

theorem keeps_labelAddress (t : Token) : A.Keeps s (labelAddress t) A.expr :=
  keeps_after fun _ => keeps_after fun _ =>
    keeps_after fun _ =>
    keeps_after fun _ => keeps_tree oks_nil

end Expression

variable [hRules : A.Rules]

------------
-- Names
------------

/- A name that is found is bound. -/
theorem ParseState.binds_of_lookup {name : Bytes} {v : ObjId} {scopes : List Scope}
    (hScopes : ∀ sc ∈ scopes, sc ∈ s.scopes)
    (hFound : scopes.findSome? (fun sc => sc.vars.lookup name) =
      some (.object v)) : s.Binds v := by
  obtain ⟨sc, hScope, hName⟩ := List.exists_of_findSome?_eq_some hFound
  obtain ⟨before, after, hVars, -⟩ := List.lookup_eq_some_iff.mp hName
  exact ⟨sc, hScopes sc hScope, name, by simp [hVars]⟩

theorem Account.keeps_lookup? (name : Bytes) :
    A.Keeps s (lookup? name) fun u b =>
      ∀ v, b = some (.object v) → v < u.objects.size :=
  keeps_get fun _ hSound _ => keeps_pure fun _ _ hLater _ hFound =>
    (hRules.bound hSound (ParseState.binds_of_lookup
      (fun _ h => h) hFound)).trans_le (A.kept hLater).size

namespace Expression

open Grammar Specifier Typing

/- A name that is read stands for what it may. -/
theorem keeps_name (t : Token) : A.Keeps s (name t) A.expr := by
  refine keeps_after fun _ =>
    (keeps_lookup? t.text).bind fun u b _ hBound => ?_
  split
  · rename_i v
    exact (hRules.noteReference u v (hBound v rfl)).bind
      fun w _ _ hOk => keeps_tree (oks_singleton.mpr hOk)
  · exact keeps_tree oks_nil
  · exact keeps_after fun _ => keeps_ite
      (fun _ => keeps_fail_bind _ _ _) (fun _ => keeps_fail _ _)

/- The elements of a string fill its type. -/
theorem spelt_literal {t : Token} {elem : LitType} {bytes : Bytes}
    (hKind : t.kind = .str elem bytes) (rs : Records) (id : Nat) :
    Spelt bytes (CType.arrayOf rs id (CType.ofLit elem) t.stringLength) := by
  intro rs'
  have hCount : t.stringLength = bytes.length / elem.size := by rw [Token.stringLength, hKind]
  have hFits : (CType.ofLit elem).size rs * t.stringLength ≤
      bytes.length := by
    rw [hCount]
    cases elem <;> norm_num [CType.ofLit, CType.size, CType.plain,
      CType.intSize, CType.floatSize, LitType.size] <;> omega
  have hWrap : ∀ n : Int, 0 ≤ n → wrap64 n ≤ n := by
    intro n hn
    unfold wrap64
    rw [Int.bmod_def]
    omega
  have hNonneg : 0 ≤ (CType.ofLit elem).size rs * t.stringLength := by
    refine Int.mul_nonneg ?_ (by omega)
    cases elem <;> norm_num [CType.ofLit, CType.size, CType.plain, CType.intSize, CType.floatSize]
  exact (hWrap _ hNonneg).trans hFits

theorem keeps_atom (t : Token) : A.Keeps s (atom t) A.expr := by
  unfold atom
  split
  · exact keeps_name t
  · rename_i elem bytes hKind
    refine keeps_known (Q := Spelt bytes) ?_ fun type hSpelt => ?_
    · exact quiet_after fun id => quiet_after fun rs => quiet_pure (spelt_literal hKind rs id)
    · exact (hRules.newString s bytes type hSpelt).bind
        fun u v _ hNew => keeps_after fun _ => keeps_tree (oks_singleton.mpr hNew.1)
  · exact keeps_after fun _ => keeps_tree oks_nil
  · exact keeps_after fun _ => keeps_tree oks_nil
  · exact keeps_fail _ _

variable {e : Expr}

------------
-- Calls and Suffixes
------------

/- The trees of several arguments. -/
theorem names_push (es : Array Expr) (e : Expr) :
    Expr.namesAll (es.push e).toList = Expr.namesAll es.toList ++ e.names := by
  rw [Array.toList_push, Expr.namesAll_append, Expr.namesAll, Expr.namesAll, List.append_nil]

theorem keeps_call {fn : Expr} (hCallee : A.expr s fn) :
    A.Keeps s (call r fn) A.expr := by
  refine keeps_typed hCallee fun fn hCallee => ?_
  split
  · exact keeps_fail _ _
  · rename_i type hType
    split
    · rename_i ret params names variadic hPlain
      have hArgs : A.Keeps s (iterate #[] fun (args : Array Expr) => do
          if ← check ")" then return .inr args
          if args.size > 0 then expect ","
          let e ← r .assign
          return .inl (args.push (← argument params variadic args.size e)))
          fun u args => A.Oks u (Expr.namesAll args.toList) := by
        refine keeps_iterate (R := fun u (args : Array Expr) => A.Oks u (Expr.namesAll args.toList))
          (J := fun u (args : Array Expr) => A.Oks u (Expr.namesAll args.toList))
          (fun hGrows h => Oks.mono h hGrows) (fun u args _ hOks => ?_)
          oks_nil
        refine keeps_after fun _ => keeps_ite
          (fun _ => keeps_pure fun _ _ hLater => Oks.mono hOks hLater)
          fun _ => ?_
        refine keeps_separated ?_
        exact hReads.assign.bind fun w e hMore hExpr =>
          (keeps_argument params variadic args.size hExpr).bind
            fun x d hLast hArg => keeps_pure fun y _ hLater => by
              change A.Oks y (Expr.namesAll (args.push d).toList)
              rw [names_push]
              exact (hOks.mono (A.trans hMore (A.trans hLast hLater))).append (hArg.mono hLater)
      refine hArgs.bind fun u args hGrows hOks => ?_
      have hDone : ∀ {w} (t : Token) (buffer? : Option ObjId),
          A.grows u w → A.Keeps w (pure (Expr.call ⟨t, some ret⟩ fn type
            args.toList buffer?)) A.expr :=
        fun t buffer? hLater => keeps_tree (Oks.append
          (hCallee.mono (A.trans hGrows hLater)) (hOks.mono hLater))
      refine keeps_ite (fun _ => keeps_after fun _ => keeps_fail_bind _ _ _) fun _ => ?_
      refine keeps_after fun t =>
        keeps_after fun _ => keeps_ite
          (fun _ => ?_) (fun _ => hDone t none (A.refl u))
      refine Keeps.bind (Q := fun _ _ => True) ?_ fun w buffer? hLater _ => hDone t buffer? hLater
      rw [map_eq_pure_bind]
      exact (hRules.newLocal u _ _).runs.step fun _ => runs_pure _
    · exact keeps_throw _

theorem keeps_compoundLiteral :
    A.Keeps s (compoundLiteral r) A.expr := by
  refine keeps_after fun start =>
    keeps_after fun _ => keeps_after fun type =>
    keeps_after fun _ =>
    keeps_after fun _ => keeps_ite (fun _ => ?_) fun _ => ?_
  · refine (hRules.newAnonymous s type).bind fun u v _ hVar => ?_
    refine Keeps.step (hRules.globalInit u r v hVar.2) fun _ =>
      keeps_tree (oks_singleton.mpr hVar.1)
  · refine (hRules.newLocal s [] type).bind fun u v _ hVar => keeps_after fun t => ?_
    refine (InitialValue.keeps_localInit hVar.1
      hVar.2).bind fun w e hLater hValues => keeps_tree ?_
    exact hValues.append (oks_singleton.mpr (A.mono hLater hVar.1))

theorem keeps_suffix (hExpr : A.expr s e) :
    A.Keeps s (suffix r e) fun u x =>
      Sum.elim (A.expr u) (A.expr u) x := by
  have hNext : ∀ {p : Parse Expr}, A.Keeps s p A.expr → A.Keeps s (do return .inl (← p)) fun u x =>
        Sum.elim (A.expr u) (A.expr u) (x : Sum Expr Expr) :=
    fun hRead => hRead.bind fun u e _ hTree => keeps_pure fun _ _ hLater => Oks.mono hTree hLater
  have hMember : ∀ {e : Expr}, A.expr s e → A.Keeps s (do
      let e ← Operator.memberAccess e (← tok)
      advance
      return .inl e) fun u x =>
        Sum.elim (A.expr u) (A.expr u) (x : Sum Expr Expr) :=
    fun hExpr => keeps_after fun t =>
      (Operator.keeps_memberAccess t hExpr).bind fun u e _ hTree =>
        keeps_after fun _ =>
        keeps_pure fun _ _ hLater => Oks.mono hTree hLater
  refine keeps_after fun t =>
    keeps_after fun _ => keeps_ite
      (fun _ => hNext (keeps_call hExpr)) fun _ =>
    keeps_after fun _ => keeps_ite (fun _ => ?_) fun _ =>
    keeps_after fun _ => keeps_ite (fun _ => hMember hExpr) fun _ =>
    keeps_after fun _ => keeps_ite (fun _ => hMember hExpr) fun _ =>
    keeps_after fun _ => keeps_ite
      (fun _ => hNext (Operator.keeps_newIncDec t 1 hExpr))
      fun _ =>
    keeps_after fun _ => keeps_ite
      (fun _ => hNext (Operator.keeps_newIncDec t (-1) hExpr))
      fun _ => keeps_pure fun _ _ hLater => Oks.mono hExpr hLater
  refine hReads.expr.bind fun u i hGrows hIndex => keeps_after fun _ => ?_
  exact (Operator.keeps_newAdd (hExpr.mono hGrows) hIndex).bind
    fun w e _ hTree => keeps_pure fun _ _ hLater => Oks.mono hTree hLater

------------
-- Primary Expressions
------------

theorem keeps_sizeof (t : Token) :
    A.Keeps s (sizeof r t) A.expr := by
  refine keeps_after fun type? => ?_
  cases type? with
  | some type =>
    refine keeps_ite (fun _ => ?_) fun _ => keeps_after fun _ => keeps_tree oks_nil
    refine (Operator.keeps_vlaSize? type).bind fun u v? _ hOk => ?_
    cases v? with
    | some v => exact keeps_tree (oks_singleton.mpr (hOk v rfl))
    | none =>
      exact (Vla.keeps_storeSizes t type).bind fun w e _ hSizes =>
          (Operator.keeps_vlaSizeVar type t).bind fun x v hLater hVar =>
              keeps_tree ((hSizes.mono hLater).append hVar)
  | none =>
    refine hReads.unary.bind fun u e _ hExpr =>
      keeps_typed hExpr fun e hExpr => keeps_ite (fun _ => Operator.keeps_vlaSizeVar _ t)
        (fun _ => keeps_after fun _ => keeps_tree oks_nil)

theorem keeps_primary : A.Keeps s (primary r) A.expr := by
  refine keeps_after fun t => keeps_ite (fun _ => ?_) fun _ => ?_
  · exact keeps_after fun _ => keeps_ite (fun _ => keeps_statementExpr t)
      (fun _ => keeps_after fun _ =>
        hReads.expr.bind fun u e _ hExpr =>
        keeps_after fun _ => keeps_tree hExpr)
  · have hForms : ∀ x ∈ keywordForms r, A.Keeps s (x.2 t) A.expr := by
      intro x hForm
      simp only [keywordForms, List.mem_cons, List.not_mem_nil, or_false] at hForm
      rcases hForm with rfl | rfl | rfl | rfl | rfl | rfl | rfl | rfl
      · exact keeps_sizeof t
      · exact keeps_alignof t
      · exact keeps_alignof t
      · exact keeps_genericSelection
      · exact keeps_typesCompatible t
      · exact keeps_registerClass t
      · exact keeps_compareAndSwap t
      · exact keeps_exchange t
    split
    · rename_i word form hFind
      exact keeps_after fun _ => hForms _ (List.mem_of_find?_eq_some hFind)
    · exact keeps_atom t

theorem keeps_suffixed : A.Keeps s (suffixed r) A.expr :=
  keeps_after fun _ => keeps_ite (fun _ => keeps_compoundLiteral)
    (fun _ => keeps_primary.bind fun _ _ _ hExpr =>
      keeps_iterate (R := A.expr) (J := A.expr) (fun hGrows h => Oks.mono h hGrows)
        (fun _ _ _ hTree => keeps_suffix hTree) hExpr)

variable {l : Expr}

------------
-- Operators
------------

theorem keeps_compoundTree (op : BinOp) (t : Token) (hLeft : A.expr s l)
    (hRight : A.expr s e) : A.Keeps s (compoundTree op l e t) A.expr := by
  unfold compoundTree
  split
  · exact Operator.keeps_newAdd hLeft hRight
  · exact Operator.keeps_newSub hLeft hRight
  · exact keeps_tree (hLeft.append hRight)

theorem keeps_assign : A.Keeps s (assign r) A.expr := by
  refine hReads.conditional.bind fun u l _ hLeft =>
    keeps_after fun t => keeps_ite
      (fun _ => keeps_tree hLeft) fun _ => keeps_ite (fun _ => ?_)
      fun _ => ?_
  · exact keeps_after fun _ =>
      hReads.assign.bind fun w e hLater hRight => keeps_tree ((hLeft.mono hLater).append hRight)
  · split
    · exact keeps_after fun _ =>
        hReads.assign.bind fun w e hLater hRight =>
        (keeps_compoundTree _ t (hLeft.mono hLater) hRight).bind fun x d _ hTree =>
          Operator.keeps_toAssign hTree
    · exact keeps_tree hLeft

theorem keeps_elvis {cond : Expr} (t : Token)
    (hCond : A.expr s cond) : A.Keeps s (elvis r cond t) A.expr := by
  refine keeps_typed hCond fun cond hCond =>
    (hRules.newLocal s [] cond.type).bind fun u v hGrows hVar =>
    hReads.conditional.bind fun w els hLater hElse => keeps_tree ?_
  have hVar := oks_singleton.mpr (A.mono hLater hVar.1)
  have hCond := hCond.mono (A.trans hGrows hLater)
  exact (hVar.append hCond).append ((hVar.append hVar).append hElse)

theorem keeps_conditional :
    A.Keeps s (conditional r) A.expr := by
  refine (hReads.binary 1).bind fun u cond _ hCond =>
    keeps_after fun t => keeps_ite (fun _ => keeps_tree hCond) fun _ =>
    keeps_after fun _ =>
    keeps_after fun _ => keeps_ite
      (fun _ => keeps_elvis t hCond) fun _ => ?_
  exact hReads.expr.bind fun w thn hMore hThen =>
    keeps_after fun _ =>
    hReads.conditional.bind fun x els hLater hElse => keeps_tree
      (((hCond.mono (A.trans hMore hLater)).append
        (hThen.mono hLater)).append hElse)

theorem keeps_binaryTree (t : Token) (hLeft : A.expr s l)
    (hRight : A.expr s e) : A.Keeps s (binaryTree t l e) A.expr := by
  have hAdd := Operator.keeps_newAdd hLeft hRight (t := t)
  have hSub := Operator.keeps_newSub hLeft hRight (t := t)
  have hPlain : ∀ op, A.Keeps s (pure (Operator.binary op l e t))
      A.expr := fun _ => keeps_tree (hLeft.append hRight)
  have hFlipped : ∀ op, A.Keeps s (pure (Operator.binary op e l t))
      A.expr := fun _ => keeps_tree (hRight.append hLeft)
  exact keeps_ite (fun _ => hAdd) fun _ =>
    keeps_ite (fun _ => hSub) fun _ =>
    keeps_ite (fun _ => hPlain .mul) fun _ =>
    keeps_ite (fun _ => hPlain .div) fun _ =>
    keeps_ite (fun _ => hPlain .mod) fun _ =>
    keeps_ite (fun _ => hPlain .shl) fun _ =>
    keeps_ite (fun _ => hPlain .shr) fun _ =>
    keeps_ite (fun _ => hPlain .lt) fun _ =>
    keeps_ite (fun _ => hPlain .le) fun _ =>
    keeps_ite (fun _ => hFlipped .lt) fun _ =>
    keeps_ite (fun _ => hFlipped .le) fun _ =>
    keeps_ite (fun _ => hPlain .eq) fun _ =>
    keeps_ite (fun _ => hPlain .ne) fun _ =>
    keeps_ite (fun _ => hPlain .bitAnd) fun _ =>
    keeps_ite (fun _ => hPlain .bitXor) fun _ =>
    keeps_ite (fun _ => hPlain .bitOr) fun _ =>
    keeps_ite (fun _ => hPlain .logAnd) fun _ =>
    keeps_ite (fun _ => hPlain .logOr) fun _ => keeps_throw _

theorem keeps_binary (least : Nat) :
    A.Keeps s (binary r least) A.expr := by
  refine hReads.cast.bind fun u first _ hFirst =>
    keeps_iterate (R := A.expr) (J := A.expr) (fun hGrows h => Oks.mono h hGrows)
      (fun w l _ hLeft => ?_) hFirst
  refine keeps_after fun t => keeps_ite
    (fun _ => keeps_pure fun _ _ hLater => Oks.mono hLeft hLater)
    fun _ => keeps_after fun _ =>
    (hReads.binary _).bind fun x e hMore hRight => ?_
  exact (keeps_binaryTree t (hLeft.mono hMore) hRight).bind
    fun y d _ hTree => keeps_pure fun _ _ hLater => Oks.mono hTree hLater

theorem keeps_unary : A.Keeps s (unary r) A.expr := by
  have hOperand : ∀ (op : UnOp) (t : Token), A.Keeps s (do
      advance
      return Operator.unary op (← r .cast) t) A.expr := fun _ _ =>
    keeps_after fun _ => hReads.cast.bind fun _ _ _ hExpr => keeps_tree hExpr
  refine keeps_after fun t => keeps_ite
    (fun _ => keeps_suffixed) fun _ => keeps_ite
    (fun _ => keeps_after fun _ => hReads.cast) fun _ =>
    keeps_ite (fun _ => hOperand _ _) fun _ => keeps_ite
    (fun _ => keeps_after fun _ =>
      hReads.cast.bind fun _ _ _ hExpr => keeps_addressOf t hExpr)
    fun _ => keeps_ite
    (fun _ => keeps_after fun _ =>
      hReads.cast.bind fun _ _ _ hExpr => keeps_deref t hExpr)
    fun _ => keeps_ite (fun _ => hOperand _ _) fun _ => keeps_ite
    (fun _ => hOperand _ _) fun _ => keeps_ite (fun _ => ?_) fun _ =>
    keeps_ite (fun _ => ?_) fun _ => keeps_ite
    (fun _ => keeps_after fun _ => keeps_labelAddress t)
    fun _ => keeps_suffixed
  · exact keeps_after fun _ =>
      hReads.unary.bind fun _ _ _ hExpr =>
      (Operator.keeps_newAdd hExpr oks_nil).bind
        fun _ _ _ hSum => Operator.keeps_toAssign hSum
  · exact keeps_after fun _ =>
      hReads.unary.bind fun _ _ _ hExpr =>
      (Operator.keeps_newSub hExpr oks_nil).bind
        fun _ _ _ hSum => Operator.keeps_toAssign hSum

end Expression

end CCompiler
