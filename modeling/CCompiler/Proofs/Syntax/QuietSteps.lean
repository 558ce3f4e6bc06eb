import Mathlib
import CCompiler.Proofs.Syntax.Keeping

/-
  Steps that are not about objects.  Moving over tokens, making
  types and typing a tree leave all objects as they are, and a
  tree names the same objects with types as without.

  Main declarations:
    * `Parse.Quiet`, `Parse.Quiet.keeps`
    * `Typing.quiet_addType`, `Typing.quiet_addTypeStmt`
    * `Constant.quiet_evalInt`, `Constant.quiet_evalAddress`
-/

------------
-- Quiet Steps
------------

namespace CCompiler

namespace Parse

variable {α β σ : Type} {p q : Parse α} {f : α → Parse β}
  {Q : α → Prop} {R : β → Prop}

/- A computation that is not about objects, with a result as described. -/
def Quiet (p : Parse α) (Q : α → Prop) : Prop :=
  ∀ s a s', p s = .ok a s' → s.Quiet s' ∧ Q a

/- A computation about whose result nothing is said. -/
class Still (p : Parse α) : Prop where
  quiet : Quiet p fun _ => True

theorem Quiet.mono {Q' : α → Prop} (hQuiet : Quiet p Q) (hWeaker : ∀ a, Q a → Q' a) :
    Quiet p Q' := by
  intro s a s' hRun
  obtain ⟨hSame, hResult⟩ := hQuiet s a s' hRun
  exact ⟨hSame, hWeaker a hResult⟩

theorem Quiet.still (hQuiet : Quiet p Q) : Still p := ⟨hQuiet.mono fun _ _ => trivial⟩

theorem quiet_pure {a : α} (hResult : Q a) : Quiet (pure a) Q := by
  intro s b s' hRun
  cases hRun
  exact ⟨.refl s, hResult⟩

theorem quiet_throw (e : Failure) : Quiet (throw e : Parse α) Q := by
  intro s a s' hRun
  cases hRun

theorem quiet_fail (t : Token) (cause : Fault) : Quiet (fail t cause : Parse α) Q := quiet_throw _

theorem Quiet.bind (hFirst : Quiet p Q) (hNext : ∀ a, Q a → Quiet (f a) R) : Quiet (p >>= f) R := by
  intro s b s' hRun
  obtain ⟨a, t, hRun₁, hRun₂⟩ := exists_of_bind hRun
  obtain ⟨hSame₁, hResult₁⟩ := hFirst s a t hRun₁
  obtain ⟨hSame₂, hResult₂⟩ := hNext a hResult₁ t b s' hRun₂
  exact ⟨hSame₁.trans hSame₂, hResult₂⟩

theorem quiet_after [hFirst : Still p] (hNext : ∀ a, Quiet (f a) R) : Quiet (p >>= f) R :=
  hFirst.quiet.bind fun a _ => hNext a

theorem quiet_ite {c : Prop} [Decidable c] (hThen : c → Quiet p Q) (hElse : ¬ c → Quiet q Q) :
    Quiet (if c then p else q) Q := by
  split
  · exact hThen ‹_›
  · exact hElse ‹_›

theorem quiet_fail_bind (t : Token) (cause : Fault) (f : α → Parse β) :
    Quiet (fail t cause >>= f) R :=
  (quiet_fail (Q := fun _ => False) t cause).bind fun _ hNever => hNever.elim

instance still_pure (a : α) : Still (pure a) := ⟨quiet_pure trivial⟩

instance still_throw (e : Failure) : Still (throw e : Parse α) := ⟨quiet_throw e⟩

instance still_bind [Still p] [hNext : ∀ a, Still (f a)] : Still (p >>= f) :=
  ⟨quiet_after fun a => (hNext a).quiet⟩

theorem still_step [Still p] (hNext : ∀ a, Still (f a)) : Still (p >>= f) := still_bind

instance still_fail (t : Token) (cause : Fault) : Still (fail t cause : Parse α) :=
  ⟨quiet_fail t cause⟩

/- Nothing follows a fault. -/
instance still_fail_bind (t : Token) (cause : Fault) (f : α → Parse β) :
    Still (fail t cause >>= f) := ⟨quiet_fail_bind t cause f⟩

instance still_ite {c : Prop} [Decidable c] [hThen : Still p] [hElse : Still q] :
    Still (if c then p else q) := by
  split <;> infer_instance

theorem still_choice {c : Prop} [Decidable c] (hThen : Still p) (hElse : Still q) :
    Still (if c then p else q) := still_ite

instance still_map (g : α → β) [Still p] : Still (g <$> p) := by
  rw [map_eq_pure_bind]
  infer_instance

instance still_iterate (x : σ) {step : σ → Parse (Sum σ β)} [hStep : ∀ x, Still (step x)] :
    Still (iterate x step) := by
  have hAll : ∀ n x, Still (repeatN step n x) := by
    intro n
    induction n with
    | zero => exact fun _ => still_throw _
    | succ n ih =>
      intro x
      refine (Quiet.bind (hStep x).quiet fun r _ => ?_).still (Q := fun _ => True)
      cases r with
      | inl y => exact (ih y).quiet
      | inr b => exact quiet_pure trivial
  exact ⟨fun s => (hAll _ x).quiet s⟩

/- A quiet step keeps every account. -/
theorem Quiet.keeps {A : Account} {s : ParseState} (hQuiet : Quiet p Q) :
    A.Keeps s p fun _ a => Q a := by
  intro s₁ hSound _ a s₂ hRun
  obtain ⟨hSame, hResult⟩ := hQuiet s₁ a s₂ hRun
  obtain ⟨hSound₂, hGrows⟩ := A.quiet hSound hSame
  exact ⟨hSound₂, hGrows, hResult⟩

/- A step that reads the state. -/
instance still_get : Still (get : Parse ParseState) := by
  refine ⟨fun s a s' hRun => ?_⟩
  cases hRun
  exact ⟨.refl s, trivial⟩

/- A step that changes the state. -/
theorem still_modify {g : ParseState → ParseState} (hQuiet : ∀ s : ParseState, s.Quiet (g s)) :
    Still (modify g) := by
  refine ⟨fun s a s' hRun => ?_⟩
  cases hRun
  exact ⟨hQuiet s, trivial⟩

------------
-- Tokens
------------

/- A state with other tokens, or other notices, or other tables of types. -/
instance still_notify (t : Token) (group : Warning) (n : Notice) : Still (notify t group n) :=
  still_modify fun _ => ⟨rfl, rfl, rfl, rfl, rfl, rfl, fun _ h => h⟩

instance still_tok : Still tok := by
  unfold tok
  infer_instance

instance still_next : Still next? := by
  unfold next?
  infer_instance

instance still_advance : Still advance := by
  refine still_modify fun s => ?_
  split
  · exact ⟨rfl, rfl, rfl, rfl, rfl, rfl, fun _ h => h⟩
  · exact .refl s

instance still_cursor : Still cursor := by
  unfold cursor
  infer_instance

instance still_rewind (ts : List Token) : Still (rewind ts) :=
  still_modify fun _ => ⟨rfl, rfl, rfl, rfl, rfl, rfl, fun _ h => h⟩

instance still_check (w : String) : Still (check w) := by
  unfold check
  infer_instance

instance still_checkAny (ws : List String) : Still (checkAny ws) := by
  unfold checkAny
  infer_instance

instance still_peekIs (w : String) : Still (peekIs w) := by
  unfold peekIs
  infer_instance

instance still_accept (w : String) : Still (accept w) := by
  unfold accept
  infer_instance

instance still_expect (w : String) : Still (expect w) := by
  unfold expect
  infer_instance

instance still_identOf (t : Token) : Still (identOf t) := by
  unfold identOf
  infer_instance

instance still_atListEnd : Still atListEnd := by
  dsimp only [atListEnd]
  infer_instance

instance still_acceptListEnd : Still acceptListEnd := by
  dsimp only [acceptListEnd]
  infer_instance

------------
-- Scopes and Types
------------

instance still_enterScope : Still enterScope :=
  still_modify fun s => ⟨rfl, rfl, rfl, rfl, rfl, rfl, by
    rintro id ⟨sc, hScope, n, hName⟩
    rcases List.mem_cons.mp hScope with rfl | hOld
    · cases hName
    · exact ⟨sc, hOld, n, hName⟩⟩

instance still_leaveScope : Still leaveScope :=
  still_modify fun s => ⟨rfl, rfl, rfl, rfl, rfl, rfl, by
    rintro id ⟨sc, hScope, n, hName⟩
    exact ⟨sc, List.mem_of_mem_tail hScope, n, hName⟩⟩

instance still_atFileScope : Still atFileScope := by
  unfold atFileScope
  infer_instance

instance still_lookup (name : Bytes) : Still (lookup? name) := by
  unfold lookup?
  infer_instance

instance still_lookupGlobal (name : Bytes) : Still (lookupGlobal? name) := by
  unfold lookupGlobal?
  infer_instance

instance still_lookupTag (name : Bytes) : Still (lookupTag? name) := by
  unfold lookupTag?
  infer_instance

instance still_lookupTagHere (name : Bytes) : Still (lookupTagHere? name) := by
  unfold lookupTagHere?
  infer_instance

instance still_typedef (t : Token) : Still (typedef? t) := by
  have hFound : ∀ b? : Option Binding, Still (match b? with
      | some (.typedef type) => pure (some type)
      | _ => pure none : Parse (Option CType)) := by
    intro b?
    split <;> infer_instance
  dsimp only [typedef?]
  infer_instance

/- A change of the present block that lets no name stand for an object. -/
theorem still_modifyScope {g : Scope → Scope}
    (hVars : ∀ sc n id, (n, Binding.object id) ∈ (g sc).vars →
      (n, Binding.object id) ∈ sc.vars) : Still (modifyScope g) := by
  refine still_modify fun s => ?_
  split
  · rename_i sc rest hScopes
    refine ⟨rfl, rfl, rfl, rfl, rfl, rfl, ?_⟩
    rintro id ⟨sc', hScope, n, hName⟩
    rcases List.mem_cons.mp hScope with rfl | hOld
    · exact ⟨sc, by simp [hScopes], n, hVars sc n id hName⟩
    · exact ⟨sc', by simp [hScopes, hOld], n, hName⟩
  · exact .refl s

theorem still_bindName (name : Bytes) {b : Binding} (hOther : ∀ id, b ≠ .object id) :
    Still (bindName name b) :=
  still_modifyScope fun sc n id hName => by
    rcases List.mem_cons.mp hName with hNew | hOld
    · exact absurd (Prod.mk.inj hNew).2.symm (hOther id)
    · exact hOld

instance still_bindConstant (name : Bytes) (t : CType) (n : Int64) :
    Still (bindName name (.constant t n)) := still_bindName name nofun

instance still_bindTypedef (name : Bytes) (t : CType) : Still (bindName name (.typedef t)) :=
  still_bindName name nofun

instance still_bindTag (name : Bytes) (t : CType) : Still (bindTag name t) :=
  still_modifyScope fun _ _ _ hName => hName

instance still_freshType : Still freshType := by
  refine ⟨fun s a s' hRun => ?_⟩
  cases hRun
  exact ⟨⟨rfl, rfl, rfl, rfl, rfl, rfl, fun _ h => h⟩, trivial⟩

instance still_records : Still records := by
  unfold records
  infer_instance

instance still_sizeOf (t : CType) : Still (sizeOf t) := by
  unfold sizeOf
  infer_instance

instance still_alignOf (t : CType) : Still (alignOf t) := by
  unfold alignOf
  infer_instance

instance still_arrayOf (base : CType) (n : Int) : Still (arrayOf base n) := by
  unfold arrayOf
  infer_instance

instance still_addRecord (r : Record) : Still (addRecord r) := by
  refine ⟨fun s a s' hRun => ?_⟩
  cases hRun
  exact ⟨⟨rfl, rfl, rfl, rfl, rfl, rfl, fun _ h => h⟩, trivial⟩

instance still_setRecord (id : Nat) (r : Record) : Still (setRecord id r) :=
  still_modify fun _ => ⟨rfl, rfl, rfl, rfl, rfl, rfl, fun _ h => h⟩

instance still_copyType (t : CType) : Still (copyType t) := by
  unfold copyType
  split <;> infer_instance

instance still_object (id : ObjId) : Still (object id) := by
  unfold object
  infer_instance

/- A name that no source text can spell is given. -/
theorem quiet_freshName : Quiet freshName ParseState.Hidden := by
  intro s a s' hRun
  cases hRun
  exact ⟨⟨rfl, rfl, rfl, rfl, rfl, rfl, fun _ h => h⟩, _, rfl⟩

instance still_freshName : Still freshName := quiet_freshName.still

instance still_newJump (t : Token) : Still (newJump t) := by
  refine ⟨fun s a s' hRun => ?_⟩
  cases hRun
  exact ⟨⟨rfl, rfl, rfl, rfl, rfl, rfl, fun _ h => h⟩, trivial⟩

instance still_vlaSize (t : CType) : Still (vlaSize? t) := by
  unfold vlaSize?
  split <;> infer_instance

end Parse

------------
-- Typing
------------

namespace Typing

open Parse

/- The same names. -/
abbrev Same (e e' : Expr) : Prop :=
  e'.names = e.names

theorem same_refl (e : Expr) : Same e e := rfl

theorem quiet_castTo (e : Expr) (t : CType) : Quiet (castTo e t) (Same e) :=
  quiet_after fun _ => quiet_pure rfl

instance still_castTo (e : Expr) (t : CType) : Still (castTo e t) := (quiet_castTo e t).still

instance still_checkOperand (e : Expr) : Still (checkOperand e) := by
  unfold checkOperand
  infer_instance

theorem quiet_convertBoth (l r : Expr) :
    Quiet (convertBoth l r) fun x => Same l x.1 ∧ Same r x.2 :=
  quiet_after fun _ => quiet_after fun _ => quiet_after fun _ =>
    (quiet_castTo l _).bind fun _ hLeft =>
    (quiet_castTo r _).bind fun _ hRight => quiet_pure ⟨hLeft, hRight⟩

theorem quiet_typeUnary (i : Info) (op : UnOp) (e : Expr) :
    Quiet (typeUnary i op e) (Same (.unary i op e)) := by
  have hSame : ∀ i' e', Same e e' → Same (.unary i op e) (.unary i' op e') := by
    intro i' e' hSame
    simp only [Same, Expr.names, hSame]
  cases op with
  | neg =>
    exact quiet_after fun _ => quiet_after fun _ =>
      (quiet_castTo e _).bind fun e' h => quiet_pure (hSame _ _ h)
  | not => exact quiet_pure (hSame _ _ (same_refl e))
  | bitNot => exact quiet_pure (hSame _ _ (same_refl e))
  | addressOf => exact quiet_pure (hSame _ _ (same_refl e))
  | deref =>
    unfold typeUnary
    dsimp only
    split
    · exact quiet_fail _ _
    · exact quiet_ite (fun _ => quiet_fail _ _) (fun _ => quiet_pure (hSame _ _ (same_refl e)))

theorem quiet_typeBinary (i : Info) (op : BinOp) (l r : Expr) :
    Quiet (typeBinary i op l r) (Same (.binary i op l r)) := by
  have hSame : ∀ i' l' r', Same l l' → Same r r' →
      Same (.binary i op l r) (.binary i' op l' r') := by
    intro i' l' r' hLeft hRight
    simp only [Same, Expr.names, hLeft, hRight]
  have hPair : ∀ f : Expr → Info, Quiet (do
      let x ← convertBoth l r
      return Expr.binary (f x.1) op x.1 x.2) (Same (.binary i op l r)) := fun f =>
    (quiet_convertBoth l r).bind fun x hx => quiet_pure (hSame _ _ _ hx.1 hx.2)
  have hInt := hPair fun _ => { i with type? := some .int }
  cases op with
  | add | sub | mul | div | mod | bitAnd | bitOr | bitXor =>
    exact hPair fun l' => { i with type? := l'.type? }
  | eq | ne | lt | le =>
    unfold typeBinary
    dsimp only
    split
    · exact quiet_after fun _ => hInt
    · exact hInt
  | logAnd | logOr | shl | shr => exact quiet_pure (hSame _ _ _ (same_refl l) (same_refl r))

theorem quiet_typeAssign (i : Info) (l r : Expr) :
    Quiet (typeAssign i l r) (Same (.assign i l r)) := by
  have hSame : ∀ i' r', Same r r' → Same (.assign i l r) (.assign i' l r') := by
    intro i' r' hRight
    simp only [Same, Expr.names, hRight]
  refine quiet_ite (fun _ => quiet_fail_bind _ _ _) fun _ => ?_
  refine quiet_ite (fun _ => ?_) fun _ => ?_
  · exact quiet_pure (hSame _ _ (same_refl r))
  · exact (quiet_castTo r _).bind fun r' hRight => quiet_pure (hSame _ _ hRight)

theorem quiet_typeTernary (i : Info) (c t e : Expr) :
    Quiet (typeTernary i c t e) (Same (.ternary i c t e)) := by
  have hSame : ∀ i' t' e', Same t t' → Same e e' →
      Same (.ternary i c t e) (.ternary i' c t' e') := by
    intro i' t' e' hThen hElse
    simp only [Same, Expr.names, hThen, hElse]
  refine quiet_ite (fun _ => quiet_pure (hSame _ _ _ (same_refl t) (same_refl e))) fun _ => ?_
  refine quiet_ite (fun _ => quiet_pure (hSame _ _ _ (same_refl t) (same_refl e))) fun _ => ?_
  exact (quiet_convertBoth t e).bind fun x hx => quiet_pure (hSame _ _ _ hx.1 hx.2)

theorem quiet_typeStmtExpr (i : Info) (body : List Stmt) :
    Quiet (typeStmtExpr i body) (Same (.stmtExpr i body)) := by
  unfold typeStmtExpr
  split
  · exact quiet_pure rfl
  · exact quiet_fail _ _

theorem quiet_typeCas (i : Info) (a o n : Expr) : Quiet (typeCas i a o n) (Same (.cas i a o n)) :=
  quiet_ite (fun _ => quiet_fail_bind _ _ _) fun _ =>
    quiet_ite (fun _ => quiet_fail_bind _ _ _) fun _ => quiet_pure rfl

theorem quiet_typeExch (i : Info) (a v : Expr) : Quiet (typeExch i a v) (Same (.exch i a v)) :=
  quiet_ite (fun _ => quiet_fail_bind _ _ _) fun _ => quiet_pure rfl

/- A typed node is typed as its parts are. -/
theorem Same.trans {e e' e'' : Expr} (hFirst : Same e e') (hSecond : Same e' e'') : Same e e'' :=
  Eq.trans hSecond hFirst

mutual

/- Typing a tree is quiet, and the tree names the same objects. -/
theorem quiet_addType (e : Expr) : Quiet (addType e) (Same e) := by
  rw [addType.eq_def]
  refine quiet_ite (fun _ => quiet_pure (same_refl e)) fun _ => ?_
  cases e with
  | null i => exact quiet_pure (same_refl _)
  | memZero i v => exact quiet_pure (same_refl _)
  | num i v => exact quiet_pure rfl
  | fnum i v => exact quiet_pure rfl
  | unary i op a =>
    refine (quiet_addType a).bind fun a' hA => ?_
    refine (quiet_typeUnary i op a').mono fun e' h => ?_
    exact Same.trans (by simp only [Same, Expr.names, hA]) h
  | binary i op l r =>
    refine (quiet_addType l).bind fun l' hL => ?_
    refine (quiet_addType r).bind fun r' hR => ?_
    refine (quiet_typeBinary i op l' r').mono fun e' h => ?_
    exact Same.trans (by simp only [Same, Expr.names, hL, hR]) h
  | assign i l r =>
    refine (quiet_addType l).bind fun l' hL => ?_
    refine (quiet_addType r).bind fun r' hR => ?_
    refine (quiet_typeAssign i l' r').mono fun e' h => ?_
    exact Same.trans (by simp only [Same, Expr.names, hL, hR]) h
  | comma i l r =>
    refine (quiet_addType l).bind fun l' hL => ?_
    refine (quiet_addType r).bind fun r' hR => ?_
    exact quiet_pure (by simp only [Same, Expr.names, hL, hR])
  | ternary i c t f =>
    refine (quiet_addType c).bind fun c' hC => ?_
    refine (quiet_addType t).bind fun t' hT => ?_
    refine (quiet_addType f).bind fun f' hF => ?_
    refine (quiet_typeTernary i c' t' f').mono fun e' h => ?_
    exact Same.trans (by simp only [Same, Expr.names, hC, hT, hF]) h
  | member i a m =>
    refine (quiet_addType a).bind fun a' hA => ?_
    exact quiet_pure (by simp only [Same, Expr.names, hA])
  | cast i a =>
    refine (quiet_addType a).bind fun a' hA => ?_
    exact quiet_pure (by simp only [Same, Expr.names, hA])
  | call i f t args b =>
    refine (quiet_addType f).bind fun f' hF => ?_
    refine (quiet_addTypes args).bind fun args' hArgs => ?_
    exact quiet_pure (by simp only [Same, Expr.names, hF, hArgs])
  | stmtExpr i body =>
    refine (quiet_addTypeStmts body).bind fun body' hBody => ?_
    refine (quiet_typeStmtExpr i body').mono fun e' h => ?_
    exact Same.trans (by simp only [Same, Expr.names, hBody]) h
  | var i v => exact quiet_after fun _ => quiet_pure rfl
  | vlaPtr i v => exact quiet_after fun _ => quiet_pure rfl
  | labelVal i l j => exact quiet_pure rfl
  | cas i a o n =>
    refine (quiet_addType a).bind fun a' hA => ?_
    refine (quiet_addType o).bind fun o' hO => ?_
    refine (quiet_addType n).bind fun n' hN => ?_
    refine (quiet_typeCas i a' o' n').mono fun e' h => ?_
    exact Same.trans (by simp only [Same, Expr.names, hA, hO, hN]) h
  | exch i a v =>
    refine (quiet_addType a).bind fun a' hA => ?_
    refine (quiet_addType v).bind fun v' hV => ?_
    refine (quiet_typeExch i a' v').mono fun e' h => ?_
    exact Same.trans (by simp only [Same, Expr.names, hA, hV]) h

theorem quiet_addTypes (es : List Expr) :
    Quiet (addTypes es) fun es' =>
      Expr.namesAll es' = Expr.namesAll es := by
  cases es with
  | nil => exact quiet_pure rfl
  | cons e es =>
    refine (quiet_addType e).bind fun e' hE => ?_
    refine (quiet_addTypes es).bind fun es' hEs => ?_
    exact quiet_pure (by simp only [Expr.namesAll, hE, hEs])

theorem quiet_addType? (e? : Option Expr) :
    Quiet (addType? e?) fun e' =>
      Expr.names? e' = Expr.names? e? := by
  cases e? with
  | none => exact quiet_pure rfl
  | some e => exact (quiet_addType e).bind fun e' hE => quiet_pure (by simp only [Expr.names?, hE])

/- A statement with types names the same objects. -/
theorem quiet_addTypeStmt (b : Stmt) :
    Quiet (addTypeStmt b) fun b' =>
      b'.names = b.names := by
  cases b with
  | ret t e => exact (quiet_addType? e).bind fun e' hE => quiet_pure (by simp only [Stmt.names, hE])
  | cond t c a b =>
    refine (quiet_addType c).bind fun c' hC => ?_
    refine (quiet_addTypeStmt a).bind fun a' hA => ?_
    refine (quiet_addTypeStmt? b).bind fun b' hB => ?_
    exact quiet_pure (by simp only [Stmt.names, hC, hA, hB])
  | loop t i c n b brk cont =>
    refine (quiet_addType? c).bind fun c' hC => ?_
    refine (quiet_addTypeStmt b).bind fun b' hB => ?_
    refine (quiet_addTypeStmt? i).bind fun i' hI => ?_
    refine (quiet_addType? n).bind fun n' hN => ?_
    exact quiet_pure (by simp only [Stmt.names, hC, hB, hI, hN])
  | doLoop t b c brk cont =>
    refine (quiet_addType c).bind fun c' hC => ?_
    refine (quiet_addTypeStmt b).bind fun b' hB => ?_
    exact quiet_pure (by simp only [Stmt.names, hC, hB])
  | switch t c b arms df brk =>
    refine (quiet_addType c).bind fun c' hC => ?_
    refine (quiet_addTypeStmt b).bind fun b' hB => ?_
    exact quiet_pure (by simp only [Stmt.names, hC, hB])
  | case t l f z b =>
    exact (quiet_addTypeStmt b).bind fun b' hB => quiet_pure (by simp only [Stmt.names, hB])
  | block t b =>
    exact (quiet_addTypeStmts b).bind fun b' hB => quiet_pure (by simp only [Stmt.names, hB])
  | goto t l j => exact quiet_pure rfl
  | jump t l => exact quiet_pure rfl
  | gotoExpr t e =>
    exact (quiet_addType e).bind fun e' hE => quiet_pure (by simp only [Stmt.names, hE])
  | label t n u b =>
    exact (quiet_addTypeStmt b).bind fun b' hB => quiet_pure (by simp only [Stmt.names, hB])
  | expr t e => exact (quiet_addType e).bind fun e' hE => quiet_pure (by simp only [Stmt.names, hE])
  | asm t s => exact quiet_pure rfl

theorem quiet_addTypeStmt? (b? : Option Stmt) :
    Quiet (addTypeStmt? b?) fun b' =>
      Stmt.names? b' = Stmt.names? b? := by
  cases b? with
  | none => exact quiet_pure rfl
  | some b =>
    exact (quiet_addTypeStmt b).bind fun b' hB => quiet_pure (by simp only [Stmt.names?, hB])

theorem quiet_addTypeStmts (bs : List Stmt) :
    Quiet (addTypeStmts bs) fun bs' =>
      Stmt.namesAll bs' = Stmt.namesAll bs := by
  cases bs with
  | nil => exact quiet_pure rfl
  | cons b bs =>
    refine (quiet_addTypeStmt b).bind fun b' hB => ?_
    refine (quiet_addTypeStmts bs).bind fun bs' hBs => ?_
    exact quiet_pure (by simp only [Stmt.namesAll, hB, hBs])

end

theorem quiet_newCast (e : Expr) (t : CType) : Quiet (newCast e t) (Same e) :=
  (quiet_addType e).bind fun e' hE => (quiet_castTo e' t).mono fun _ h => hE.trans h

instance still_addType (e : Expr) : Still (addType e) := (quiet_addType e).still

end Typing

namespace Constant

open Parse

variable {α : Type}

/- Working out a value with the present tables changes nothing. -/
theorem quiet_run {Q : α → Prop} {f : Env → Except Failure α}
    (hResult : ∀ env v, f env = .ok v → Q v) : Quiet (run f) Q := by
  intro s a s' hRun
  obtain ⟨s₁, t, hGet, hRun⟩ := exists_of_bind hRun
  cases hGet
  cases hValue : f ⟨s.objects, s.records⟩ with
  | error e =>
    simp only [hValue] at hRun
    cases hRun
  | ok v =>
    simp only [hValue] at hRun
    cases hRun
    exact ⟨.refl s, hResult _ a hValue⟩

instance still_run (f : Env → Except Failure α) : Still (run f) :=
  ⟨quiet_run fun _ _ _ => trivial⟩

instance still_evalInt (e : Expr) : Still (evalInt e) := by
  unfold evalInt
  infer_instance

instance still_evalAddress (e : Expr) : Still (evalAddress e) := by
  unfold evalAddress
  infer_instance

instance still_evalDouble (e : Expr) : Still (evalDouble e) := by
  unfold evalDouble
  infer_instance

end Constant

end CCompiler
