import Mathlib
import CCompiler.Proofs.Syntax.KeptTypes

/-
  Building trees keeps an account.  The trees of operators name
  what their operands name and the variables they add.  The
  values of an initializer name what the expressions in it name.

  Main declarations:
    * `Operator.keeps_newAdd`, `Operator.keeps_toAssign`
    * `Vla.keeps_storeSizes`
    * `Initializer.keeps_initializer`, `Initializer.keeps_complete`
    * `InitialValue.keeps_localInit`
-/

------------
-- Steps about Trees
------------

namespace CCompiler

set_option synthInstance.maxSize 20000

open Parse

variable {A : Account} {s : ParseState} {r : Reader} [hReads : A.Reads r]

variable {e : Expr} {σ : Type}

namespace Account

variable {α β : Type} {f : α → Parse β} {R : ParseState → β → Prop}

theorem Oks.append {vs ws : List ObjId} (hFirst : A.Oks s vs) (hSecond : A.Oks s ws) :
    A.Oks s (vs ++ ws) := oks_append.mpr ⟨hFirst, hSecond⟩

/- A tree as the result. -/
theorem keeps_tree (hExpr : A.expr s e) : A.Keeps s (pure e) A.expr :=
  keeps_return (fun hGrows hExpr => Oks.mono hExpr hGrows) hExpr

/- The values of an initializer as the result. -/
theorem keeps_values {i : Init} (hInit : A.init s i) : A.Keeps s (pure i) A.init :=
  keeps_return (fun hGrows hInit => init.mono hInit hGrows) hInit

/- A tree is typed first. -/
theorem keeps_typed {f : Expr → Parse β} (hExpr : A.expr s e)
    (hNext : ∀ e', A.expr s e' → A.Keeps s (f e') R) : A.Keeps s (Typing.addType e >>= f) R :=
  keeps_known (Typing.quiet_addType e) fun e' hSame =>
    hNext e' (by
      rw [Account.expr, hSame]
      exact hExpr)

/- The state is read first. -/
theorem keeps_get {f : ParseState → Parse β}
    (hNext : ∀ t, A.sound t → A.grows s t → A.Keeps t (f t) R) : A.Keeps s (get >>= f) R := by
  intro s₁ hSound hGrows b s₂ hRun
  exact hNext s₁ hSound hGrows s₁ hSound (A.refl s₁) b s₂ hRun

/- A loop over a list. -/
theorem keeps_foldlM {Q : ParseState → σ → Prop} {step : σ → α → Parse σ}
    (hStable : ∀ {t u x}, A.grows t u → Q t x → Q u x)
    (hStep : ∀ t x a, A.grows s t → Q t x → A.Keeps t (step x a) Q) (as : List α) {x : σ}
    (hStart : Q s x) : A.Keeps s (as.foldlM step x) Q := by
  have hAll : ∀ (as : List α) t x, A.grows s t → Q t x → A.Keeps t (as.foldlM step x) Q := by
    intro as
    induction as with
    | nil => exact fun t x _ hNow => keeps_return hStable hNow
    | cons a as ih =>
      intro t x hGrows hNow
      rw [List.foldlM_cons]
      exact (hStep t x a hGrows hNow).bind fun u y hLater hNext =>
        ih u y (A.trans hGrows hLater) hNext
  exact hAll as s x (A.refl s) hStart

end Account

open Account

------------
-- Operators
------------

namespace Operator

theorem keeps_newCast (t : CType) (hExpr : A.expr s e) : A.Keeps s (Typing.newCast e t) A.expr := by
  have hSame := Typing.quiet_newCast e t
  refine hSame.keeps.mono fun u e' _ hGrows hNames => ?_
  rw [Account.expr, hNames]
  exact Oks.mono hExpr hGrows

theorem keeps_memberPath (rs : Records) (t : Token) (fuel : Nat) (type : CType)
    (hExpr : A.expr s e) : A.Keeps s (memberPath rs t fuel e type) A.expr := by
  induction fuel generalizing e type with
  | zero => exact keeps_throw _
  | succ fuel ih =>
    unfold memberPath
    split
    · exact keeps_fail _ _
    · exact keeps_ite (fun _ => keeps_tree hExpr) (fun _ => ih _ hExpr)

theorem keeps_memberAccess (t : Token) (hExpr : A.expr s e) :
    A.Keeps s (memberAccess e t) A.expr := by
  refine keeps_typed hExpr fun e hExpr =>
    keeps_ite (fun _ => keeps_fail_bind _ _ _) fun _ =>
    keeps_after fun _ =>
    keeps_ite (fun _ => keeps_fail_bind _ _ _) fun _ =>
    keeps_after fun _ => keeps_memberPath _ _ _ _ hExpr

variable [hRules : A.Rules]

theorem keeps_vlaSize? (t : CType) :
    A.Keeps s (vlaSize? t) fun u v? => ∀ v, v? = some v → A.ok u v := by
  have hNone : A.Keeps s (pure (none : Option ObjId)) fun u v? =>
      ∀ v, v? = some v → A.ok u v :=
    keeps_pure fun _ _ _ v hv => by cases hv
  unfold vlaSize?
  split
  · rename_i id base hPlain
    refine keeps_get fun t hSound hGrows => keeps_pure fun u _ hLater v hv => ?_
    obtain ⟨a, hVla, hSize⟩ := Option.bind_eq_some_iff.mp hv
    exact A.mono hLater ((hRules.vla hSound hVla).2 v hSize)
  · exact hNone

theorem keeps_vlaSizeVar (type : CType) (t : Token) :
    A.Keeps s (vlaSizeVar type t) A.expr := by
  refine (keeps_vlaSize? type).bind fun u v? _ hOk => ?_
  cases v? with
  | none => exact keeps_throw _
  | some v => exact keeps_tree (oks_singleton.mpr (hOk v rfl))

variable {t : Token}

theorem keeps_scaled {base : CType} {n : Expr} (hExpr : A.expr s n) :
    A.Keeps s (scaled base n t) A.expr := by
  refine keeps_ite (fun _ => ?_) fun _ =>
    keeps_after fun _ => keeps_tree (hExpr.append oks_nil)
  exact (keeps_vlaSizeVar base t).bind fun u e hGrows hSize =>
    keeps_tree ((hExpr.mono hGrows).append hSize)

variable {l : Expr}

/- A sum names what its operands name. -/
theorem keeps_newAdd {r : Expr} (hLeft : A.expr s l) (hRight : A.expr s r) :
    A.Keeps s (newAdd l r t) A.expr := by
  refine keeps_typed hLeft fun l hLeft => keeps_typed hRight fun r hRight => ?_
  refine keeps_ite (fun _ => keeps_tree (hLeft.append hRight))
    fun _ => keeps_ite (fun _ => keeps_fail_bind _ _ _) fun _ => ?_
  have hPair : A.expr s (if l.type.base?.isNone && r.type.base?.isSome
        then (r, l) else (l, r)).1 ∧
      A.expr s (if l.type.base?.isNone && r.type.base?.isSome
        then (r, l) else (l, r)).2 := by
    split
    · exact ⟨hRight, hLeft⟩
    · exact ⟨hLeft, hRight⟩
  generalize (if l.type.base?.isNone && r.type.base?.isSome
    then (r, l) else (l, r)) = x at hPair ⊢
  obtain ⟨p, n⟩ := x
  obtain ⟨hPointer, hNumber⟩ := hPair
  dsimp only
  split
  · exact keeps_fail _ _
  · refine keeps_ite (fun _ => keeps_fail_bind _ _ _) fun _ => ?_
    exact (keeps_scaled hNumber).bind fun u e hGrows hScaled =>
      keeps_tree ((hPointer.mono hGrows).append hScaled)

theorem keeps_newSub {r : Expr} (hLeft : A.expr s l) (hRight : A.expr s r) :
    A.Keeps s (newSub l r t) A.expr := by
  refine keeps_typed hLeft fun l hLeft => keeps_typed hRight fun r hRight => ?_
  refine keeps_ite (fun _ => keeps_tree (hLeft.append hRight)) fun _ => ?_
  dsimp only
  split
  · exact keeps_fail _ _
  · refine keeps_ite (fun _ => ?_) fun _ => keeps_ite (fun _ => ?_) fun _ => keeps_fail _ _
    · refine (keeps_scaled hRight).bind fun u e hGrows hScaled =>
        keeps_typed hScaled fun e hScaled => ?_
      exact keeps_tree ((hLeft.mono hGrows).append hScaled)
    · exact keeps_after fun _ => keeps_tree ((hLeft.append hRight).append oks_nil)

theorem keeps_assignMember (op : BinOp) {base r : Expr} (m : Member)
    (t : Token) (hBase : A.expr s base) (hRight : A.expr s r) :
    A.Keeps s (assignMember op base m r t) A.expr := by
  refine (hRules.newLocal s _ _).bind fun u v hGrows hVar => ?_
  have hVar := oks_singleton.mpr hVar.1
  have hRight := hRight.mono hGrows
  exact keeps_tree ((hVar.append (hBase.mono hGrows)).append (hVar.append (hVar.append hRight)))

theorem keeps_assignPlain (op : BinOp) {r : Expr} (t : Token)
    (hLeft : A.expr s l) (hRight : A.expr s r) : A.Keeps s (assignPlain op l r t) A.expr := by
  refine (hRules.newLocal s _ _).bind fun u v hGrows hVar => ?_
  have hVar := oks_singleton.mpr hVar.1
  have hRight := hRight.mono hGrows
  exact keeps_tree ((hVar.append (hLeft.mono hGrows)).append (hVar.append (hVar.append hRight)))

theorem keeps_assignAtomic (op : BinOp) {r : Expr} (t : Token)
    (hLeft : A.expr s l) (hRight : A.expr s r) : A.Keeps s (assignAtomic op l r t) A.expr := by
  refine (hRules.newLocal s _ _).bind fun s₁ addr h₁ hAddr =>
    (hRules.newLocal s₁ _ _).bind fun s₂ val h₂ hVal =>
    (hRules.newLocal s₂ _ _).bind fun s₃ old h₃ hOld =>
    (hRules.newLocal s₃ _ _).bind fun s₄ new h₄ hNew =>
    keeps_after fun _ =>
    keeps_after fun _ => keeps_tree ?_
  have hAddr := A.mono h₄ (A.mono h₃ (A.mono h₂ hAddr.1))
  have hVal := A.mono h₄ (A.mono h₃ hVal.1)
  have hOld := A.mono h₄ hOld.1
  have hNew := hNew.1
  have hAll := A.trans (A.trans (A.trans h₁ h₂) h₃) h₄
  simp only [Account.expr, Expr.names, Stmt.namesAll, Stmt.names, var,
    unary, binary, assign, oks_append, oks_singleton, oks_nil, hAddr,
    hVal, hOld, hNew, hLeft.mono hAll, hRight.mono hAll, and_self]

/- A compound assignment names what the operator in it names. -/
theorem keeps_toAssign (hExpr : A.expr s e) :
    A.Keeps s (toAssign e) A.expr := by
  unfold toAssign
  split
  · rename_i i op l r
    obtain ⟨hLeft, hRight⟩ := oks_append.mp hExpr
    refine keeps_typed hLeft fun l hLeft => keeps_typed hRight fun r hRight => ?_
    split
    · rename_i i' base m
      exact keeps_assignMember op m i.tok hLeft hRight
    · exact keeps_ite (fun _ => keeps_assignAtomic op i.tok hLeft hRight)
        (fun _ => keeps_assignPlain op i.tok hLeft hRight)
  · exact keeps_throw _

theorem keeps_newIncDec (t : Token) (n : Int64) (hExpr : A.expr s e) :
    A.Keeps s (newIncDec e t n) A.expr := by
  refine keeps_typed hExpr fun e hExpr => ?_
  refine (keeps_newAdd hExpr oks_nil).bind fun u sum _ hSum => ?_
  refine (keeps_toAssign hSum).bind fun w set _ hSet => ?_
  exact (keeps_newAdd hSet oks_nil).bind fun x back _ hBack => keeps_newCast _ hBack

end Operator

------------
-- Variable-Length Arrays
------------

namespace Vla

open Operator

variable [hRules : A.Rules]

theorem keeps_length (id : Nat) (t : Token) :
    A.Keeps s (length id t) A.expr := by
  refine keeps_get fun u hSound _ => ?_
  split
  · rename_i a hVla
    exact keeps_tree (hRules.vla hSound hVla).1
  · exact keeps_tree oks_nil

theorem keeps_elementSize (base : CType) (t : Token) :
    A.Keeps s (elementSize base t) A.expr :=
  keeps_ite (fun _ => keeps_vlaSizeVar base t) fun _ =>
    keeps_after fun _ => keeps_tree oks_nil

/- The code for the sizes of a type names lengths and new variables. -/
theorem keeps_storeSizes (t : Token) (type : CType) :
    A.Keeps s (storeSizes t type) A.expr := by
  fun_induction storeSizes t type generalizing s with
  | case1 base ih | case2 id base n size align ih =>
    exact ih.bind fun u e _ hSizes => keeps_tree (Oks.append oks_nil hSizes)
  | case4 inner ih => exact ih
  | case3 id base ih =>
    refine ih.bind fun s₁ inner _ hInner => ?_
    refine (keeps_elementSize base t).bind fun s₂ size h₂ hSize => ?_
    refine (hRules.newLocal s₂ _ _).bind fun s₃ v h₃ hVar => ?_
    refine Keeps.step (hRules.setSize s₃ id v hVar.1 hVar.2) fun _ => ?_
    refine (keeps_length id t).bind fun s₄ len h₄ hLen => keeps_tree ?_
    have hInner := hInner.mono (A.trans (A.trans h₂ h₃) h₄)
    have hSize := hSize.mono (A.trans h₃ h₄)
    have hVar := oks_singleton.mpr (A.mono h₄ hVar.1)
    exact (oks_nil.append hInner).append (hVar.append (hLen.append hSize))
  | case5 => exact keeps_tree oks_nil

theorem keeps_alloca {size : Expr} (hSize : A.expr s size) :
    A.Keeps s (alloca size) A.expr := by
  refine keeps_get fun u hSound hGrows =>
    keeps_after fun _ =>
    keeps_typed (hSize.mono hGrows) fun arg hArg => keeps_tree ?_
  have hCallee := oks_singleton.mpr (hRules.alloca hSound)
  exact hCallee.append (hArg.append oks_nil)

end Vla

------------
-- Initializers
------------

namespace Init

variable {P : Expr → Prop}

theorem all_blankWith {record : CType → Bool → Init}
    (hRecord : ∀ t isOpen, (record t isOpen).All P) (t : CType) (isOpen : Bool) :
    (blankWith record t isOpen).All P := by
  fun_induction blankWith record t isOpen with
  | case1 => exact all_empty _ _ (by simp)
  | case2 id base n size align isOpen type hClosed ih =>
    refine all_empty _ _ fun c hc => ?_
    rw [Array.toList_replicate] at hc
    rw [List.eq_of_mem_replicate hc]
    exact ih
  | case3 t isOpen u o e c m hBlank ih =>
    rw [hBlank] at ih
    exact ih.withType _
  | case4 id => exact hRecord _ _
  | case5 => exact all_empty _ _ (by simp)

/- A tree without values holds no expression. -/
theorem all_blank (rs : Records) (fuel : Nat) (t : CType) (isOpen : Bool) :
    (blank rs fuel t isOpen).All P := by
  induction fuel generalizing t isOpen with
  | zero => exact all_empty _ _ (by simp)
  | succ fuel ih =>
    refine all_blankWith (fun t isOpen => ?_) t isOpen
    refine all_empty _ _ fun c hc => ?_
    obtain ⟨m, -, rfl⟩ := List.mem_map.mp hc
    split
    · exact all_empty _ _ (by simp)
    · exact ih _ _

theorem All.setExprs {P : Expr → Prop} {values : List Expr} (hValues : ∀ e ∈ values, P e)
    {i : Init} (hInit : i.All P) : (i.setExprs values).All P := by
  unfold Init.setExprs
  have hAll : ∀ (xs : List (Expr × Nat)), (∀ x ∈ xs, P x.1) →
      ∀ i : Init, i.All P → (xs.foldl (fun i x =>
        i.setChild x.2 ((i.child x.2).withExpr (some x.1))) i).All P := by
    intro xs
    induction xs with
    | nil => exact fun _ i hInit => hInit
    | cons x xs ih =>
      intro hXs i hInit
      refine ih (fun y hy => hXs y (by simp [hy])) _ ?_
      refine hInit.setChild _ ((hInit.child _).withExpr ?_)
      rintro d ⟨⟩
      exact hXs x (by simp)
  refine hAll _ (fun x hx => hValues x.1 ?_) i hInit
  exact List.fst_mem_of_mem_zipIdx hx

end Init

namespace Initializer

open Grammar

variable {i : Init}

theorem keeps_blank (t : CType) (isOpen : Bool) : A.Keeps s (blank t isOpen) A.init :=
  keeps_after fun _ => keeps_values (Init.all_blank _ _ _ _)

theorem keeps_closeArray (i : Init) (n : Int) : A.Keeps s (closeArray i n) A.init := by
  unfold closeArray
  split
  · exact keeps_after fun _ => keeps_blank _ _
  · exact keeps_throw _

theorem keeps_stringInit (hInit : A.init s i) : A.Keeps s (stringInit i) A.init := by
  refine keeps_after fun t => ?_
  split
  · rename_i elem bytes hKind
    have hRest : ∀ {u} (i : Init), A.init u i → A.Keeps u (do
        let n := min i.type.arrayLen t.stringLength
        let values := (stringElements elem.size bytes).take n.toNat
        advance
        return i.setExprs (values.map fun v => Operator.number v t))
          A.init := by
      intro u i hInit
      refine keeps_after fun _ =>
        keeps_values (Init.All.setExprs (fun e he => ?_) hInit)
      obtain ⟨v, -, rfl⟩ := List.mem_map.mp he
      exact oks_nil
    exact keeps_ite (fun _ => (keeps_closeArray i _).bind fun _ j _ hClosed => hRest j hClosed)
      (fun _ => hRest i hInit)
  · exact keeps_throw _

instance safe_arrayDesignator (type : CType) : A.Safe (arrayDesignator r type) := by
  dsimp only [arrayDesignator]
  infer_instance

instance still_memberDesignator (type : CType) : Still (memberDesignator type) := by
  dsimp only [memberDesignator]
  refine still_step fun start => still_step fun _ => still_step fun t => ?_
  refine still_choice inferInstance (still_step fun rs => ?_)
  split <;> infer_instance

theorem keeps_rangeInit (first last : Int) (hInit : A.init s i) :
    A.Keeps s (rangeInit r i first last) A.init := by
  refine keeps_after fun start =>
    keeps_foldlM (Q := A.init) (fun hGrows hInit => init.mono hInit hGrows)
      (fun t i n _ hInit => ?_) _ hInit
  refine keeps_after fun _ => ?_
  exact (hReads.designation (Init.All.child hInit n)).bind fun u c hGrows hChild => keeps_values
      (Init.All.setChild (init.mono hInit hGrows) n hChild)

instance safe_skipExcess : A.Safe (skipExcess r) := by
  dsimp only [skipExcess]
  infer_instance

instance safe_countElements (base : CType) :
    A.Safe (countElements r base) := by
  refine ⟨fun s => ?_⟩
  refine keeps_after fun start =>
    (keeps_blank base true).bind fun t dummy _ hDummy => ?_
  refine Keeps.step (p := iterate (true, dummy, (0 : Int64), (0 : Int64))
    _) ?_ fun n => keeps_after fun _ => runs_pure _
  refine keeps_iterate (J := fun u x => A.init u x.2.1)
    (fun _ h => h) (fun u x _ hInit => ?_) hDummy
  obtain ⟨first, dummy, i, most⟩ := x
  have hNext : ∀ {w} (b : Bool) (d : Init) (n m : Int64),
      A.init w d → A.Keeps w (pure (Sum.inl (b, d, n, m)))
        fun u r => Sum.elim (fun x : Bool × Init × Int64 × Int64 =>
          A.init u x.2.1) (fun _ : Int64 => True) r :=
    fun b d n m hInit => keeps_pure fun _ _ hLater => init.mono hInit hLater
  refine keeps_after fun _ =>
    keeps_ite (fun _ => keeps_pure fun _ _ _ => trivial) fun _ => ?_
  refine keeps_separated ?_
  refine keeps_after fun _ =>
    keeps_ite (fun _ => ?_) fun _ =>
    (hReads.initializer hInit).bind fun w d _ hRead => hNext _ _ _ _ hRead
  have hRest : ∀ i : Int64, A.Keeps u (do
      expect "]"
      let dummy ← r (.designation dummy)
      return .inl (false, dummy, i + 1, max most (i + 1)) :
        Parse (Sum (Bool × Init × Int64 × Int64) Int64))
      fun u r => Sum.elim (fun x : Bool × Init × Int64 × Int64 =>
        A.init u x.2.1) (fun _ : Int64 => True) r :=
    fun i => keeps_after fun _ =>
      (hReads.designation hInit).bind fun w d _ hRead => hNext _ _ _ _ hRead
  exact keeps_after fun i =>
    keeps_after fun _ => keeps_ite
      (fun _ => keeps_after fun _ => hRest _)
      (fun _ => hRest _)

theorem keeps_settleLength (hInit : A.init s i) :
    A.Keeps s (settleLength r i) A.init := by
  refine keeps_ite (fun _ => ?_) fun _ => keeps_values hInit
  split
  · exact keeps_after fun _ => keeps_closeArray _ _
  · exact keeps_throw _

variable {p : Parse Init}

/- A child is read and put back. -/
theorem keeps_setChild {β : Type} {J : ParseState → σ → Prop} {Q : ParseState → β → Prop}
    (next : Init → σ) (n : Nat) (hInit : A.init s i) (hRead : A.Keeps s p A.init)
    (hNext : ∀ u j, A.init u j → J u (next j)) :
    A.Keeps s (do
      let c ← p
      return Sum.inl (next (i.setChild n c)))
      fun u x => Sum.elim (J u) (Q u) x :=
  hRead.bind fun _ _ hGrows hChild => keeps_pure fun w _ hLater =>
    hNext w _ (Init.All.setChild (init.mono hInit (A.trans hGrows hLater)) n
      (init.mono hChild hLater))

theorem keeps_arrayBraced (hInit : A.init s i) :
    A.Keeps s (arrayBraced r i) A.init := by
  refine keeps_after fun _ =>
    (keeps_settleLength hInit).bind fun t i _ hInit => ?_
  refine keeps_iterate (R := A.init) (J := fun u (x : Bool × Int × Init) => A.init u x.2.2)
    (fun hGrows h => init.mono h hGrows) (fun u x _ hInit => ?_) hInit
  obtain ⟨first, k, i⟩ := x
  refine keeps_after fun _ => keeps_ite
    (fun _ => keeps_pure fun _ _ hLater => init.mono hInit hLater)
    fun _ => ?_
  refine keeps_separated ?_
  refine keeps_after fun _ => keeps_ite
    (fun _ => keeps_after fun d => ?_)
    fun _ => keeps_ite (fun _ => ?_) fun _ =>
      keeps_after fun _ => keeps_pure fun _ _ hLater => init.mono hInit hLater
  · exact (keeps_rangeInit d.1 d.2 hInit).bind
      fun w j _ hRange => keeps_pure fun _ _ hLater => init.mono hRange hLater
  · exact keeps_setChild (fun j => (false, k + 1, j)) _ hInit
      (hReads.initializer (Init.All.child hInit _)) fun _ _ h => h

theorem keeps_arrayUnbraced (k : Int) (hInit : A.init s i) :
    A.Keeps s (arrayUnbraced r i k) A.init := by
  refine (keeps_settleLength hInit).bind fun t i _ hInit => ?_
  refine keeps_iterate (R := A.init) (J := fun u (x : Int × Init) => A.init u x.2)
    (fun hGrows h => init.mono h hGrows) (fun u x _ hInit => ?_) hInit
  obtain ⟨k, i⟩ := x
  have hDone : A.Keeps u (pure (Sum.inr i)) fun u x => Sum.elim (fun x : Int × Init => A.init u x.2)
        (A.init u) x :=
    keeps_pure fun _ _ hLater => init.mono hInit hLater
  refine keeps_after fun _ => keeps_ite
    (fun _ => hDone) fun _ => keeps_after fun start => ?_
  refine keeps_separated ?_
  exact keeps_after fun _ => keeps_ite
    (fun _ => keeps_after fun _ => hDone)
    (fun _ => keeps_setChild (fun j => (k + 1, j)) _ hInit
      (hReads.initializer (Init.All.child hInit _)) fun _ _ h => h)

theorem keeps_structBraced (hInit : A.init s i) :
    A.Keeps s (structBraced r i) A.init := by
  refine keeps_after fun _ => keeps_after fun rs => ?_
  generalize i.type.members rs = ms
  refine keeps_iterate (R := A.init) (J := fun u (x : Bool × Nat × Init) => A.init u x.2.2)
    (fun hGrows h => init.mono h hGrows) (fun u x _ hInit => ?_) hInit
  obtain ⟨first, k, i⟩ := x
  refine keeps_after fun _ => keeps_ite
    (fun _ => keeps_pure fun _ _ hLater => init.mono hInit hLater)
    fun _ => ?_
  refine keeps_separated ?_
  refine keeps_after fun _ => keeps_ite
    (fun _ => keeps_after fun m => ?_)
    fun _ => keeps_ite (fun _ => ?_) fun _ =>
      keeps_after fun _ => keeps_pure fun _ _ hLater => init.mono hInit hLater
  · exact keeps_setChild (J := fun u (x : Bool × Nat × Init) => A.init u x.2.2)
      (fun j => (false, nextMember ms (m.index + 1), j)) _
      hInit (hReads.designation (Init.All.child hInit _))
      fun _ _ h => h
  · exact keeps_setChild (J := fun u (x : Bool × Nat × Init) => A.init u x.2.2)
      (fun j => (false, nextMember ms (k + 1), j)) _ hInit
      (hReads.initializer (Init.All.child hInit _)) fun _ _ h => h

theorem keeps_structUnbraced (k : Nat) (comma : Bool) (hInit : A.init s i) :
    A.Keeps s (structUnbraced r i k comma) A.init := by
  refine keeps_after fun rs => ?_
  generalize i.type.members rs = ms
  refine keeps_iterate (R := A.init) (J := fun u (x : Bool × Nat × Init) => A.init u x.2.2)
    (fun hGrows h => init.mono h hGrows) (fun u x _ hInit => ?_) hInit
  obtain ⟨comma, k, i⟩ := x
  have hDone : A.Keeps u (pure (Sum.inr i)) fun u x => Sum.elim (fun x : Bool × Nat × Init =>
        A.init u x.2.2) (A.init u) x :=
    keeps_pure fun _ _ hLater => init.mono hInit hLater
  refine keeps_after fun _ => keeps_ite
    (fun _ => hDone) fun _ => keeps_after fun start => ?_
  refine keeps_separated ?_
  exact keeps_after fun _ => keeps_ite
    (fun _ => keeps_after fun _ => hDone)
    (fun _ => keeps_setChild (fun j => (true, nextMember ms (k + 1), j)) _ hInit
      (hReads.initializer (Init.All.child hInit _)) fun _ _ h => h)

/- One child is given its values, and what follows says nothing. -/
theorem keeps_onlyChild (n : Nat) (hInit : A.init s i) (hRead : A.Keeps s p A.init) :
    A.Keeps s (do
      let c ← p
      return i.setChild n c) A.init :=
  hRead.bind fun _ _ hGrows hChild => keeps_values
    (Init.All.setChild (init.mono hInit hGrows) n hChild)

theorem keeps_onlyChild_braced (n : Nat) (hInit : A.init s i) (hRead : A.Keeps s p A.init) :
    A.Keeps s (do
      let c ← p
      let _ ← accept ","
      expect "\x7d"
      return i.setChild n c) A.init :=
  hRead.bind fun _ _ hGrows hChild =>
    keeps_after fun _ =>
    keeps_after fun _ => keeps_values
      (Init.All.setChild (init.mono hInit hGrows) n hChild)

theorem keeps_unionInit (hInit : A.init s i) :
    A.Keeps s (unionInit r i) A.init := by
  refine keeps_after fun rs => ?_
  split
  · exact keeps_after fun _ => keeps_fail _ _
  · rename_i m ms hMembers
    refine keeps_after fun _ =>
      keeps_after fun _ => keeps_ite
      (fun _ => ?_) fun _ => ?_
    · refine keeps_after fun _ => keeps_after fun m => ?_
      exact keeps_onlyChild_braced m.index (Init.All.withMember hInit m)
        (hReads.designation (Init.All.child hInit _))
    · have hChosen := Init.All.withMember hInit m
      have hFirst := hReads.initializer (Init.All.child hChosen 0)
      exact keeps_after fun _ => keeps_ite
        (fun _ => keeps_onlyChild_braced 0 hChosen hFirst)
        (fun _ => keeps_onlyChild 0 hChosen hFirst)

/- The value of a leaf. -/
theorem withExpr_some (hInit : A.init s i) (hExpr : A.expr s e) : A.init s (i.withExpr (some e)) :=
  Init.All.withExpr hInit (by rintro d ⟨⟩; exact hExpr)

theorem keeps_structInit (hInit : A.init s i) :
    A.Keeps s (structInit r i) A.init := by
  refine keeps_after fun _ => keeps_ite
    (fun _ => keeps_structBraced hInit) fun _ =>
    keeps_after fun start => ?_
  refine hReads.assign.bind fun t e hGrows hExpr =>
    keeps_typed hExpr fun e hExpr =>
    keeps_after fun rs => keeps_ite (fun _ => ?_)
      fun _ => keeps_after fun _ => ?_
  · exact keeps_values (withExpr_some (init.mono hInit hGrows) hExpr)
  · exact keeps_structUnbraced 0 false (init.mono hInit hGrows)

theorem keeps_scalarInit (hInit : A.init s i) :
    A.Keeps s (scalarInit r i) A.init :=
  keeps_after fun _ => keeps_ite
    (fun _ => (hReads.initializer hInit).bind fun _ _ _ hRead =>
      keeps_after fun _ =>
      keeps_after fun _ => keeps_values hRead)
    (fun _ => hReads.assign.bind fun _ _ hGrows hExpr =>
      keeps_values (withExpr_some (init.mono hInit hGrows) hExpr))

/- The values of an object name what the expressions read name. -/
theorem keeps_initializer (hInit : A.init s i) :
    A.Keeps s (initializer r i) A.init := by
  refine keeps_after fun rs => keeps_ite (fun _ => ?_)
    fun _ => keeps_ite (fun _ => keeps_structInit hInit) fun _ =>
      keeps_ite (fun _ => keeps_unionInit hInit) (fun _ => keeps_scalarInit hInit)
  exact keeps_after fun _ => keeps_ite (fun _ => keeps_stringInit hInit) fun _ =>
    keeps_after fun _ => keeps_ite (fun _ => keeps_arrayBraced hInit)
      (fun _ => keeps_arrayUnbraced 0 hInit)

theorem keeps_designation (hInit : A.init s i) :
    A.Keeps s (designation r i) A.init := by
  refine keeps_after fun rs =>
    keeps_after fun _ => keeps_ite (fun _ => ?_) fun _ =>
    keeps_after fun _ => keeps_ite (fun _ => ?_) fun _ =>
    keeps_after fun _ => hReads.initializer hInit
  · refine keeps_ite (fun _ => keeps_after fun _ => keeps_fail_bind _ _ _) fun _ => ?_
    refine keeps_after fun d => ?_
    exact (keeps_rangeInit d.1 d.2 hInit).bind
      fun u j _ hRange => keeps_arrayUnbraced _ hRange
  · refine keeps_ite (fun _ => ?_) fun _ => keeps_ite (fun _ => ?_)
      fun _ => keeps_after fun _ => keeps_fail _ _
    · refine keeps_after fun m => ?_
      refine (hReads.designation (Init.All.child hInit _)).bind
        fun u c hGrows hChild => keeps_structUnbraced _ true ?_
      exact Init.All.withExpr (Init.All.setChild (init.mono hInit hGrows) _ hChild) (by simp)
    · exact keeps_after fun m =>
        keeps_onlyChild m.index (Init.All.withMember hInit m)
          (hReads.designation (Init.All.child hInit _))

instance still_completeRecord (t : CType) (rec : Record) (i : Init) :
    Still (completeRecord t rec i) := by
  unfold completeRecord
  infer_instance

theorem keeps_complete (t : CType) : A.Keeps s (complete r t) A.init := by
  refine (keeps_blank t true).bind fun u b _ hBlank =>
    (hReads.initializer hBlank).bind fun w j _ hRead =>
    keeps_after fun rs => ?_
  split
  · exact keeps_ite (fun _ => keeps_after fun _ =>
        keeps_values (Init.All.withType hRead _))
      (fun _ => keeps_values hRead)
  · exact keeps_values hRead

end Initializer

------------
-- Variables of a Function
------------

/- The variable that a path starts at. -/
def Path.root : Path → ObjId
| .object v => v
| .element outer _ | .field outer _ => outer.root

namespace InitialValue

open Operator

/- The assignments of a value name what it and its variable may. -/
def Assigns
    (A : Account)
    (s : ParseState)
    (rs : Records)
    (t : Token)
    (i : Init) : Prop :=
  ∀ path type u, A.grows s u → A.ok u path.root →
    A.Keeps u (assignments rs t path type i) A.expr

variable {rs : Records} {t : Token} {u : ParseState} {path : Path}
  {cs : List Init} {acc : Expr}

theorem keeps_elements (hAll : ∀ c ∈ cs, Assigns A s rs t c) (type : CType) (n : Int) (k : Nat)
    (hGrows : A.grows s u) (hRoot : A.ok u path.root) (hAcc : A.expr u acc) :
    A.Keeps u (elements rs t path type n cs k acc) A.expr := by
  induction cs generalizing u k acc with
  | nil =>
    unfold elements
    exact keeps_tree hAcc
  | cons c cs ih =>
    unfold elements
    refine keeps_ite (fun _ => ?_) fun _ => keeps_tree hAcc
    have hFirst := hAll c (by simp) (.element path k) type u hGrows hRoot
    refine hFirst.bind fun w e hLater hChild => ?_
    exact ih (fun d hd => hAll d (by simp [hd])) _ (A.trans hGrows hLater) (A.mono hLater hRoot)
      (Oks.append (hAcc.mono hLater) hChild)

theorem keeps_fields (hAll : ∀ c ∈ cs, Assigns A s rs t c) (ms : List Member)
    (hGrows : A.grows s u) (hRoot : A.ok u path.root) (hAcc : A.expr u acc) :
    A.Keeps u (fields rs t path ms cs acc) A.expr := by
  induction cs generalizing u ms acc with
  | nil =>
    unfold fields
    cases ms <;> exact keeps_tree hAcc
  | cons c cs ih =>
    have hRest := fun d hd => hAll d (List.mem_cons_of_mem c hd)
    cases ms with
    | nil =>
      unfold fields
      exact keeps_tree hAcc
    | cons m ms =>
      unfold fields
      refine keeps_ite (fun _ => ih hRest ms hGrows hRoot hAcc) fun _ => ?_
      have hFirst := hAll c (by simp) (.field path m) m.type u hGrows hRoot
      refine hFirst.bind fun w e hLater hChild => ?_
      exact ih hRest ms (A.trans hGrows hLater) (A.mono hLater hRoot)
        (Oks.append (hAcc.mono hLater) hChild)

theorem keeps_oneField (hAll : ∀ c ∈ cs, Assigns A s rs t c) (type : CType) (n : Nat)
    (hGrows : A.grows s u) (hRoot : A.ok u path.root) :
    A.Keeps u (oneField rs t path type cs n) A.expr := by
  induction cs generalizing n with
  | nil =>
    unfold oneField
    exact keeps_throw _
  | cons c cs ih =>
    unfold oneField
    cases n with
    | zero => exact hAll c (by simp) path type u hGrows hRoot
    | succ n => exact ih (fun d hd => hAll d (by simp [hd])) n

variable [hRules : A.Rules]

theorem keeps_lvalue (t : Token) (path : Path) (hRoot : A.ok s path.root) :
    A.Keeps s (lvalue t path) A.expr := by
  induction path with
  | object v => exact keeps_tree (oks_singleton.mpr hRoot)
  | element outer k ih =>
    exact (ih hRoot).bind fun u e _ hOuter =>
      (keeps_newAdd hOuter oks_nil).bind fun w sum _ hSum => keeps_tree hSum
  | field outer m ih => exact (ih hRoot).bind fun u e _ hOuter => keeps_tree hOuter

theorem assigns_of_init (rs : Records) (t : Token) {i : Init}
    (hInit : A.init s i) : Assigns A s rs t i := by
  induction hInit with
  | @mk type' isOpen expr? children member? hOwn hChildren ih =>
    obtain ⟨cs⟩ := children
    intro path type u hGrows hRoot
    unfold assignments
    refine keeps_ite (fun _ => keeps_elements ih _ _ _ hGrows hRoot oks_nil) fun _ => keeps_ite
      (fun _ => keeps_fields ih _ hGrows hRoot oks_nil)
      fun _ => keeps_ite (fun _ => ?_) fun _ => ?_
    · split
      · exact keeps_tree oks_nil
      · exact keeps_oneField ih _ _ hGrows hRoot
    · cases expr? with
      | none => exact keeps_tree oks_nil
      | some e =>
        exact (keeps_lvalue t path hRoot).bind
          fun w l hLater hPlace => keeps_tree (hPlace.append
            ((hOwn e rfl).mono (A.trans hGrows hLater)))

/- The values of a variable name what is read, and the variable. -/
theorem keeps_localInit {v : ObjId} (hOk : A.ok s v)
    (hLocal : s.Local v) : A.Keeps s (localInit r v) A.expr := by
  refine keeps_after fun t => keeps_after fun o => ?_
  refine (Initializer.keeps_complete _).bind fun u i hGrows hInit => ?_
  refine Keeps.step (hRules.setType u v _ (hLocal.kept (A.kept hGrows))) fun _ =>
    keeps_after fun rs => ?_
  have hRoot := A.mono hGrows hOk
  exact (assigns_of_init rs t hInit (.object v) _ u
    (A.refl u) hRoot).bind fun w e hLater hValues => keeps_tree (Oks.append oks_nil hValues)

end InitialValue

end CCompiler
