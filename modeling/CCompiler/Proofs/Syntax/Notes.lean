import Mathlib
import CCompiler.Syntax.Constant

/-
  Typing an expression reads the tables of objects and records
  and changes neither: all that it adds to the state are
  notices.  A constant has therefore the same value whatever
  has been typed before it.

  Main declarations:
    * `Parse.Notes`
    * `Typing.notes_addType`
    * `Constant.notes_evalInt`, `Constant.notes_evalAddress`
-/

------------
-- Steps That Only Add Notices
------------

namespace CCompiler

variable {c : Prop}

namespace Parse

variable {α β : Type}

/- A step that adds at most notices, and does not read them. -/
def Notes (p : Parse α) : Prop :=
  ∀ s : ParseState,
    (∃ a more, ∀ n, p { s with notices := n } =
      .ok a { s with notices := n ++ more }) ∨
    (∃ e, ∀ n, ∃ s', p { s with notices := n } = .error e s')

theorem notes_pure (a : α) : Notes (pure a : Parse α) := by
  intro s
  exact .inl ⟨a, [], fun n => by rw [List.append_nil]; rfl⟩

theorem notes_throw (e : Failure) : Notes (throw e : Parse α) := by
  intro s
  exact .inr ⟨e, fun n => ⟨_, rfl⟩⟩

theorem notes_fail (t : Token) (cause : Fault) : Notes (fail t cause : Parse α) := notes_throw _

/- Nothing follows a fault. -/
theorem notes_fail_bind (t : Token) (cause : Fault) (f : α → Parse β) :
    Notes (fail t cause >>= f) := by
  intro s
  exact .inr ⟨.fault cause t.place, fun n => ⟨_, rfl⟩⟩

variable {p : Parse α} {s s' : ParseState} {a : α}

/- A step after one that has succeeded. -/
theorem run_bind {f : α → Parse β} (hRun : p s = .ok a s') : (p >>= f) s = f a s' := by
  change EStateM.bind p f s = _
  unfold EStateM.bind
  rw [hRun]

theorem Notes.bind {p : Parse α} {f : α → Parse β} (hFirst : Notes p) (hNext : ∀ a, Notes (f a)) :
    Notes (p >>= f) := by
  intro s
  rcases hFirst s with ⟨a, more, hRun⟩ | ⟨e, hRun⟩
  · rcases hNext a s with ⟨b, rest, hRest⟩ | ⟨e, hRest⟩
    · refine .inl ⟨b, more ++ rest, fun n => ?_⟩
      rw [run_bind (hRun n), ← List.append_assoc]
      exact hRest (n ++ more)
    · refine .inr ⟨e, fun n => ?_⟩
      obtain ⟨s', hError⟩ := hRest (n ++ more)
      refine ⟨s', ?_⟩
      rw [run_bind (hRun n)]
      exact hError
  · refine .inr ⟨e, fun n => ?_⟩
    obtain ⟨s', hError⟩ := hRun n
    refine ⟨s', ?_⟩
    change EStateM.bind p f _ = _
    unfold EStateM.bind
    rw [hError]

theorem notes_ite [Decidable c] {q : Parse α} (hThen : Notes p) (hElse : Notes q) :
    Notes (if c then p else q) := by
  split
  · exact hThen
  · exact hElse

theorem notes_records : Notes records := by
  intro s
  exact .inl ⟨s.records, [], fun n => by rw [List.append_nil]; rfl⟩

theorem notes_object (v : ObjId) : Notes (object v) := by
  intro s
  exact .inl ⟨s.objects.entry v, [], fun n => by rw [List.append_nil]; rfl⟩

theorem notes_notify (t : Token) (group : Warning) (notice : Notice) :
    Notes (notify t group notice) := by
  intro s
  exact .inl ⟨(), Diagnostic.notice s.cfg group notice t.place, fun n => rfl⟩

/- The value of such a step, before other notices and after them. -/
theorem Notes.of_ok (hNotes : Notes p) (hRun : p s = .ok a s') :
    ∃ more, ∀ n, p { s with notices := n } =
      .ok a { s with notices := n ++ more } := by
  rcases hNotes s with ⟨b, more, hAll⟩ | ⟨e, hAll⟩
  · have hSame := hAll s.notices
    rw [show p { s with notices := s.notices } = p s from rfl, hRun] at hSame
    cases hSame
    exact ⟨more, hAll⟩
  · obtain ⟨t, hSame⟩ := hAll s.notices
    rw [show p { s with notices := s.notices } = p s from rfl, hRun] at hSame
    cases hSame

end Parse

------------
-- Typing
------------

namespace Typing

open Parse

variable {t : CType}

/- Only records are copied with a number of their own. -/
/- Only records are copied. -/
theorem castTo_eq (e : Expr) (hType : t.isRecord = false) :
    castTo e t = pure (.cast ⟨e.tok, some t⟩ e) := by
  unfold castTo copyType
  split
  · cases hType
  · cases hType
  · rfl

theorem notes_castTo (e : Expr) (hType : t.isRecord = false) : Notes (castTo e t) := by
  rw [castTo_eq e hType]
  exact notes_pure _

/- Operands that pass the check are no records. -/
theorem notes_checked {α : Type} {e : Expr} {p : Parse α}
    (hNext : e.type.isRecord = false → Notes p) : Notes (do checkOperand e; p) := by
  unfold checkOperand
  split
  · exact notes_fail_bind _ _ _
  · rename_i hPlain
    exact (notes_pure _).bind fun _ => hNext (by simp_all)

variable {u : CType}

theorem isRecord_ite [Decidable c] (hThen : t.isRecord = false) (hElse : u.isRecord = false) :
    (if c then t else u).isRecord = false := by
  split
  · exact hThen
  · exact hElse

/- The common type of types that are no records is none. -/
theorem isRecord_common (rs : Records) (hLeft : t.isRecord = false) (hRight : u.isRecord = false) :
    (CType.common rs t u).isRecord = false := by
  have hFirst : (if t.size rs < 4 then .int else t).isRecord =
      false := isRecord_ite rfl hLeft
  have hSecond : (if u.size rs < 4 then .int else u).isRecord =
      false := isRecord_ite rfl hRight
  unfold CType.common
  split
  · rfl
  · refine isRecord_ite rfl (isRecord_ite rfl (isRecord_ite rfl
      (isRecord_ite rfl (isRecord_ite rfl ?_))))
    exact isRecord_ite (isRecord_ite hSecond hFirst) (isRecord_ite hSecond hFirst)

theorem notes_convertBoth (l r : Expr) : Notes (convertBoth l r) := by
  refine notes_checked fun hLeft => notes_checked fun hRight => ?_
  refine notes_records.bind fun rs => ?_
  have hCommon := isRecord_common rs hLeft hRight
  exact (notes_castTo l hCommon).bind fun _ => (notes_castTo r hCommon).bind fun _ => notes_pure _

theorem notes_typeUnary (i : Info) (op : UnOp) (e : Expr) : Notes (typeUnary i op e) := by
  cases op with
  | neg =>
    refine notes_checked fun hPlain => ?_
    refine notes_records.bind fun rs => ?_
    exact (notes_castTo e (isRecord_common rs rfl hPlain)).bind fun _ => notes_pure _
  | not => exact notes_pure _
  | bitNot => exact notes_pure _
  | addressOf => exact notes_pure _
  | deref =>
    unfold typeUnary
    dsimp only
    split
    · exact notes_fail _ _
    · exact notes_ite (notes_fail _ _) (notes_pure _)

theorem notes_typeBinary (i : Info) (op : BinOp) (l r : Expr) : Notes (typeBinary i op l r) := by
  have hBoth : ∀ f : Expr × Expr → Expr, Notes (do return f (← convertBoth l r)) := fun f =>
    (notes_convertBoth l r).bind fun _ => notes_pure _
  have hCompare : ∀ (c : Bool) (f : Expr × Expr → Expr), Notes (do
        if c then notify i.tok .pedantic .pointerIntegerComparison
        return f (← convertBoth l r)) := fun c f =>
    notes_ite ((notes_notify _ _ _).bind fun _ => hBoth f) (hBoth f)
  cases op with
  | add | sub | mul | div | mod | bitAnd | bitOr | bitXor => exact hBoth _
  | eq | ne | lt | le => exact hCompare _ _
  | logAnd | logOr | shl | shr => exact notes_pure _

theorem notes_typeAssign (i : Info) (l r : Expr) : Notes (typeAssign i l r) := by
  have hRest : Notes (do
      let r ← if l.type.isRecord then pure r else castTo r l.type
      return Expr.assign { i with type? := l.type? } l r) := by
    split
    · exact notes_pure _
    · rename_i hPlain
      exact (notes_castTo r (by simpa using hPlain)).bind fun _ => notes_pure _
  exact notes_ite (notes_fail_bind _ _ _) hRest

theorem notes_typeTernary (i : Info) (c t e : Expr) : Notes (typeTernary i c t e) :=
  notes_ite (notes_pure _) (notes_ite (notes_pure _)
    ((notes_convertBoth t e).bind fun _ => notes_pure _))

theorem notes_typeStmtExpr (i : Info) (body : List Stmt) : Notes (typeStmtExpr i body) := by
  unfold typeStmtExpr
  split
  · exact notes_pure _
  · exact notes_fail _ _

theorem notes_typeCas (i : Info) (a o n : Expr) : Notes (typeCas i a o n) :=
  notes_ite (notes_fail_bind _ _ _) (notes_ite (notes_fail_bind _ _ _) (notes_pure _))

theorem notes_typeExch (i : Info) (a v : Expr) : Notes (typeExch i a v) :=
  notes_ite (notes_fail_bind _ _ _) (notes_pure _)

mutual

/- Typing an expression only adds notices. -/
theorem notes_addType (e : Expr) : Notes (addType e) := by
  rw [addType.eq_def]
  refine notes_ite (notes_pure _) ?_
  cases e with
  | null i => exact notes_pure _
  | memZero i v => exact notes_pure _
  | num i v => exact notes_pure _
  | fnum i v => exact notes_pure _
  | unary i op a => exact (notes_addType a).bind fun _ => notes_typeUnary _ _ _
  | binary i op l r =>
    exact (notes_addType l).bind fun _ => (notes_addType r).bind fun _ => notes_typeBinary _ _ _ _
  | assign i l r =>
    exact (notes_addType l).bind fun _ => (notes_addType r).bind fun _ => notes_typeAssign _ _ _
  | comma i l r =>
    exact (notes_addType l).bind fun _ => (notes_addType r).bind fun _ => notes_pure _
  | ternary i c t f =>
    exact (notes_addType c).bind fun _ =>
      (notes_addType t).bind fun _ => (notes_addType f).bind fun _ => notes_typeTernary _ _ _ _
  | member i a m => exact (notes_addType a).bind fun _ => notes_pure _
  | cast i a => exact (notes_addType a).bind fun _ => notes_pure _
  | call i f t args b =>
    exact (notes_addType f).bind fun _ => (notes_addTypes args).bind fun _ => notes_pure _
  | stmtExpr i body => exact (notes_addTypeStmts body).bind fun _ => notes_typeStmtExpr _ _
  | var i v => exact (notes_object v).bind fun _ => notes_pure _
  | vlaPtr i v => exact (notes_object v).bind fun _ => notes_pure _
  | labelVal i l j => exact notes_pure _
  | cas i a o n =>
    exact (notes_addType a).bind fun _ =>
      (notes_addType o).bind fun _ => (notes_addType n).bind fun _ => notes_typeCas _ _ _ _
  | exch i a v =>
    exact (notes_addType a).bind fun _ => (notes_addType v).bind fun _ => notes_typeExch _ _ _

theorem notes_addTypes (es : List Expr) : Notes (addTypes es) := by
  cases es with
  | nil => exact notes_pure _
  | cons e es =>
    exact (notes_addType e).bind fun _ => (notes_addTypes es).bind fun _ => notes_pure _

theorem notes_addType? (e? : Option Expr) : Notes (addType? e?) := by
  cases e? with
  | none => exact notes_pure _
  | some e => exact (notes_addType e).bind fun _ => notes_pure _

theorem notes_addTypeStmt (s : Stmt) : Notes (addTypeStmt s) := by
  cases s with
  | ret t e => exact (notes_addType? e).bind fun _ => notes_pure _
  | cond t c a b =>
    exact (notes_addType c).bind fun _ =>
      (notes_addTypeStmt a).bind fun _ => (notes_addTypeStmt? b).bind fun _ => notes_pure _
  | loop t i c n b brk cont =>
    exact (notes_addType? c).bind fun _ =>
      (notes_addTypeStmt b).bind fun _ =>
        (notes_addTypeStmt? i).bind fun _ => (notes_addType? n).bind fun _ => notes_pure _
  | doLoop t b c brk cont =>
    exact (notes_addType c).bind fun _ => (notes_addTypeStmt b).bind fun _ => notes_pure _
  | switch t c b arms d brk =>
    exact (notes_addType c).bind fun _ => (notes_addTypeStmt b).bind fun _ => notes_pure _
  | case t l f z b => exact (notes_addTypeStmt b).bind fun _ => notes_pure _
  | block t b => exact (notes_addTypeStmts b).bind fun _ => notes_pure _
  | goto t l j => exact notes_pure _
  | jump t l => exact notes_pure _
  | gotoExpr t e => exact (notes_addType e).bind fun _ => notes_pure _
  | label t n u b => exact (notes_addTypeStmt b).bind fun _ => notes_pure _
  | expr t e => exact (notes_addType e).bind fun _ => notes_pure _
  | asm t s => exact notes_pure _

theorem notes_addTypeStmt? (s? : Option Stmt) : Notes (addTypeStmt? s?) := by
  cases s? with
  | none => exact notes_pure _
  | some s => exact (notes_addTypeStmt s).bind fun _ => notes_pure _

theorem notes_addTypeStmts (ss : List Stmt) : Notes (addTypeStmts ss) := by
  cases ss with
  | nil => exact notes_pure _
  | cons s ss =>
    exact (notes_addTypeStmt s).bind fun _ => (notes_addTypeStmts ss).bind fun _ => notes_pure _

end

end Typing

------------
-- Constants
------------

namespace Constant

open Parse

theorem notes_run {α : Type} (f : Env → Except Failure α) : Notes (run f) := by
  intro s
  have hGet (n : Bytes) : (get : Parse ParseState) { s with notices := n } =
        .ok { s with notices := n } { s with notices := n } :=
    rfl
  cases hValue : f ⟨s.objects, s.records⟩ with
  | ok v =>
    refine .inl ⟨v, [], fun n => ?_⟩
    rw [List.append_nil, run, run_bind (hGet _)]
    simp only [hValue]
    rfl
  | error e =>
    refine .inr ⟨e, fun n => ⟨{ s with notices := n }, ?_⟩⟩
    rw [run, run_bind (hGet _)]
    simp only [hValue]
    rfl

theorem notes_evalInt (e : Expr) : Notes (evalInt e) :=
  (Typing.notes_addType e).bind fun _ => (notes_run _).bind fun _ => notes_pure _

theorem notes_evalAddress (e : Expr) : Notes (evalAddress e) :=
  (Typing.notes_addType e).bind fun _ => (notes_run _).bind fun _ => notes_pure _

theorem notes_evalDouble (e : Expr) : Notes (evalDouble e) :=
  (Typing.notes_addType e).bind fun _ => (notes_run _).bind fun _ => notes_pure _

end Constant

end CCompiler
