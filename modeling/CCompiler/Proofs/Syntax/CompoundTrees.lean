import Mathlib
import CCompiler.Proofs.Syntax.AtomicUpdates
import CCompiler.Proofs.Syntax.ObjectSteps
import CCompiler.Proofs.Codegen.TypedTree
import CCompiler.Syntax.Expression

/-
  The trees of compound assignments, increments and
  decrements.

  The tree of an operator is turned into one that computes the
  address of its left operand once and writes the result back
  through it.  There are three forms of it: for a member, for
  another lvalue that is atomic, and for all others.

  Main declarations:
    * `Operator.throughRecord`, `Operator.throughPointer`
    * `Operator.Lowered`, `Operator.toAssign_run`
    * `Operator.Update`, `Operator.newIncDec_eq`
-/

------------
-- New Variables
------------

namespace CCompiler

namespace ParseState

/- A variable of a type that a state has and another one lacks. -/
structure Gains
    (s t : ParseState)
    (v : ObjId)
    (type : CType) : Prop where
  new : s.objects.size ≤ v
  inside : v < t.objects.size
  type : (t.objects.entry v).type = type

variable {s t u : ParseState} {o : Obj} {v : ObjId} {type : CType}

theorem Pushes.gains (hPushes : s.Pushes t o) : s.Gains t s.objects.size o.type where
  new := le_rfl
  inside := by
    rw [hPushes.size]
    exact Nat.lt_succ_self _
  type := by rw [hPushes.new]

/- One more variable leaves those that were there. -/
theorem Gains.pushed (hGains : s.Gains t v type) (hPushes : t.Pushes u o) : s.Gains u v type where
  new := hGains.new
  inside := by
    rw [hPushes.size]
    exact Nat.lt_succ_of_lt hGains.inside
  type := by rw [hPushes.old hGains.inside, hGains.type]

/- So does what is not about objects. -/
theorem Gains.quiet (hGains : s.Gains t v type) (hQuiet : t.Quiet u) : s.Gains u v type where
  new := hGains.new
  inside := by
    rw [hQuiet.objects]
    exact hGains.inside
  type := by rw [hQuiet.objects, hGains.type]

/- What is new later is new before it. -/
theorem Gains.earlier (hGains : t.Gains u v type) (hSize : s.objects.size ≤ t.objects.size) :
    s.Gains u v type where
  new := hSize.trans hGains.new
  inside := hGains.inside
  type := hGains.type

end ParseState

------------
-- Forms
------------

/- Whether an expression accesses a member. -/
def Expr.isMember : Expr → Bool
| .member _ _ _ => true
| _ => false

namespace Operator

open Parse Typing Interleaving

variable {s s' s₁ s₂ : ParseState} {op : BinOp}
  {left right l r tree : Expr} {t : Token}

/- `tmp = &A, (*tmp).x = (*tmp).x op B` for the member x of A -/
def throughRecord
    (v : ObjId)
    (op : BinOp)
    (base : Expr)
    (m : Member)
    (r : Expr)
    (t : Token) : Expr :=
  let field : Expr := .member ⟨t, none⟩ (unary .deref (var v t) t) m
  comma (assign (var v t) (unary .addressOf base t) t)
    (assign field (binary op field r t) t) t

/- `tmp = &A, *tmp = *tmp op B` -/
def throughPointer
    (v : ObjId)
    (op : BinOp)
    (l r : Expr)
    (t : Token) : Expr :=
  comma (assign (var v t) (unary .addressOf l t) t)
    (assign (unary .deref (var v t) t)
      (binary op (unary .deref (var v t) t) r t) t) t

/- The loop over compare-and-swap as an expression. -/
def swapLoop
    (x : Slots)
    (op : BinOp)
    (l r : Expr)
    (brk cont : Bytes)
    (t : Token) : Expr :=
  .stmtExpr ⟨t, none⟩ (x.body t op l r brk cont)

/- The variables of a loop are new, and have the types it needs. -/
structure SlotsGained
    (s s' : ParseState)
    (x : Slots)
    (left right : CType) : Prop where
  addr : s.Gains s' x.addr (.ptr left)
  val : s.Gains s' x.val right
  old : s.Gains s' x.old left
  new : s.Gains s' x.new left

/-
  The tree that writes `l op r` back to `l`, with variables
  that are added to a state.
-/
inductive Lowered
    (s s' : ParseState)
    (op : BinOp)
    (l r : Expr)
    (t : Token) : Expr → Prop
| member {i base m v}
    (hLeft : l = .member i base m)
    (hPointer : s.Gains s' v (.ptr base.type)) :
    Lowered s s' op l r t (throughRecord v op base m r t)
| swap {x brk cont}
    (hLeft : l.isMember = false)
    (hAtomic : l.type.isAtomic = true)
    (hSlots : SlotsGained s s' x l.type r.type) :
    Lowered s s' op l r t (swapLoop x op l r brk cont t)
| pointer {v}
    (hLeft : l.isMember = false)
    (hPlain : l.type.isAtomic = false)
    (hPointer : s.Gains s' v (.ptr l.type)) :
    Lowered s s' op l r t (throughPointer v op l r t)

/- A new variable of a function. -/
theorem newLocal_pushes (name : Bytes) (type : CType) (s : ParseState) :
    ∃ s', newLocal name type s = .ok s.objects.size s' ∧
      s.Pushes s' { name := name
                    type := type
                    align := type.align s.records
                    isLocal := true } := by
  obtain ⟨s', hRun, -⟩ := Interleaving.newLocal_run name type s
  exact ⟨s', hRun, (Parse.newLocal_run hRun).2.2⟩

theorem assignMember_run (op : BinOp) (base : Expr) (m : Member) (r : Expr) (t : Token)
    (s : ParseState) :
    ∃ v s', assignMember op base m r t s = .ok (throughRecord v op base m r t) s' ∧
      s.Gains s' v (.ptr base.type) := by
  obtain ⟨s', hNew, hPushes⟩ := newLocal_pushes [] (.ptr base.type) s
  refine ⟨_, s', ?_, hPushes.gains⟩
  unfold assignMember
  rw [Parse.run_bind hNew]
  rfl

theorem assignPlain_run (op : BinOp) (l r : Expr) (t : Token) (s : ParseState) :
    ∃ v s', assignPlain op l r t s = .ok (throughPointer v op l r t) s' ∧
      s.Gains s' v (.ptr l.type) := by
  obtain ⟨s', hNew, hPushes⟩ := newLocal_pushes [] (.ptr l.type) s
  refine ⟨_, s', ?_, hPushes.gains⟩
  unfold assignPlain
  rw [Parse.run_bind hNew]
  rfl

theorem assignAtomic_runs (op : BinOp) (l r : Expr) (t : Token) (s : ParseState) :
    ∃ (x : Slots) (brk cont : Bytes) (s' : ParseState),
      assignAtomic op l r t s = .ok (swapLoop x op l r brk cont t) s' ∧
      SlotsGained s s' x l.type r.type := by
  obtain ⟨s₁, hAddr, hOne⟩ := newLocal_pushes [] (.ptr l.type) s
  obtain ⟨s₂, hVal, hTwo⟩ := newLocal_pushes [] r.type s₁
  obtain ⟨s₃, hOld, hThree⟩ := newLocal_pushes [] l.type s₂
  obtain ⟨s₄, hNew, hFour⟩ := newLocal_pushes [] l.type s₃
  have hDistinct : [s.objects.size, s₁.objects.size, s₂.objects.size, s₃.objects.size].Nodup := by
    have h₁ := hOne.size
    have h₂ := hTwo.size
    have h₃ := hThree.size
    simp only [List.nodup_cons, List.mem_cons, List.not_mem_nil, or_false, not_or, List.nodup_nil,
      not_false_eq_true, and_true]
    omega
  obtain ⟨brk, s₅, hBrk⟩ : ∃ brk s', freshName s₄ = .ok brk s' := ⟨_, _, rfl⟩
  obtain ⟨cont, s₆, hCont⟩ : ∃ c s', freshName s₅ = .ok c s' := ⟨_, _, rfl⟩
  have hQuiet : s₄.Quiet s₆ := (quiet_freshName _ _ _ hBrk).1.trans (quiet_freshName _ _ _ hCont).1
  refine ⟨⟨_, _, _, _, hDistinct⟩, brk, cont, s₆, ?_, ?_, ?_, ?_, ?_⟩
  · unfold assignAtomic
    rw [Parse.run_bind hAddr, Parse.run_bind hVal, Parse.run_bind hOld, Parse.run_bind hNew,
      Parse.run_bind hBrk, Parse.run_bind hCont]
    rfl
  · exact (((hOne.gains.pushed hTwo).pushed hThree).pushed hFour).quiet hQuiet
  · exact (((hTwo.gains.pushed hThree).pushed hFour).quiet hQuiet).earlier hOne.kept.size
  · exact ((hThree.gains.pushed hFour).quiet hQuiet).earlier (hOne.kept.size.trans hTwo.kept.size)
  · exact (hFour.gains.quiet hQuiet).earlier
      (hOne.kept.size.trans (hTwo.kept.size.trans hThree.kept.size))

/- The assignment to a left operand that has its type. -/
def writeBack (op : BinOp) (l r : Expr) (t : Token) : Parse Expr :=
  match l with
  | .member _ base m => assignMember op base m r t
  | l =>
    if l.type.isAtomic then assignAtomic op l r t
    else assignPlain op l r t

theorem toAssign_eq (i : Info) (op : BinOp) (left right : Expr) :
    toAssign (.binary i op left right) = (do
      let l ← addType left
      let r ← addType right
      writeBack op l r i.tok) := rfl

theorem writeBack_of_other (hMember : l.isMember = false) :
    writeBack op l r t = if l.type.isAtomic then assignAtomic op l r t
      else assignPlain op l r t := by cases l <;> first | rfl | cases hMember

/- It has the form that the left operand asks for. -/
theorem writeBack_run (op : BinOp) (l r : Expr) (t : Token) (s : ParseState) :
    ∃ tree s', writeBack op l r t s = .ok tree s' ∧ Lowered s s' op l r t tree := by
  cases hMember : l.isMember with
  | true =>
    cases l with
    | member j base m =>
      obtain ⟨v, s', hRun, hGains⟩ := assignMember_run op base m r t s
      exact ⟨_, s', hRun, .member rfl hGains⟩
    | _ => cases hMember
  | false =>
    rw [writeBack_of_other hMember]
    cases hAtomic : l.type.isAtomic with
    | true =>
      obtain ⟨x, brk, cont, s', hRun, hSlots⟩ := assignAtomic_runs op l r t s
      exact ⟨_, s', hRun, .swap hMember hAtomic hSlots⟩
    | false =>
      obtain ⟨v, s', hRun, hGains⟩ := assignPlain_run op l r t s
      exact ⟨_, s', hRun, .pointer hMember hAtomic hGains⟩

/- The assignment of an operator whose operands can be typed. -/
theorem toAssign_run (i : Info) (op : BinOp) (hLeft : addType left s = .ok l s₁)
    (hRight : addType right s₁ = .ok r s₂) :
    ∃ tree s', toAssign (.binary i op left right) s = .ok tree s' ∧
      Lowered s₂ s' op l r i.tok tree := by
  rw [toAssign_eq, Parse.run_bind hLeft, Parse.run_bind hRight]
  exact writeBack_run op l r i.tok s₂

/- An assignment that has been made is of that form. -/
theorem lowered_of_toAssign {i : Info} (hRun : toAssign (.binary i op left right) s = .ok tree s') :
    ∃ l s₁ r s₂, addType left s = .ok l s₁ ∧ addType right s₁ = .ok r s₂ ∧
      Lowered s₂ s' op l r i.tok tree := by
  obtain ⟨l, s₁, hLeft, hRest⟩ := Parse.exists_of_bind hRun
  obtain ⟨r, s₂, hRight, -⟩ := Parse.exists_of_bind hRest
  obtain ⟨tree', s'', hRun', hLowered⟩ := toAssign_run i op hLeft hRight
  rw [hRun] at hRun'
  cases hRun'
  exact ⟨l, s₁, r, s₂, hLeft, hRight, hLowered⟩

end Operator

------------
-- Updates
------------

namespace Operator

open Parse Typing

/-
  The ways to update an lvalue: `A op= B`, `++A` and `--A`,
  `A++` and `A--`.
-/
inductive Update
| compound (op : BinOp) (right : Expr)
| before (isDown : Bool)
| after (isDown : Bool)

namespace Update

/- The operator inside an update; `A--` adds -1. -/
def op : Update → BinOp
| .compound op _ => op
| .before true => .sub
| .before false | .after _ => .add

/- Its right operand. -/
def right (t : Token) : Update → Expr
| .compound _ e => e
| .before _ | .after false => number 1 t
| .after true => number (-1) t

/- The tree that is turned into an assignment. -/
def operation (u : Update) (left : Expr) (t : Token) : Parse Expr :=
  match u with
  | .compound op right => Expression.compoundTree op left right t
  | .before false => newAdd left (number 1 t) t
  | .before true => newSub left (number 1 t) t
  | .after isDown => do
    let l ← addType left
    newAdd l (right t (.after isDown)) t

/- The tree that updates an lvalue. -/
def assigned (u : Update) (left : Expr) (t : Token) : Parse Expr := do
  toAssign (← u.operation left t)

end Update

variable {s s₁ : ParseState} {left l : Expr}

/- An expression has a type if something is known of it. -/
theorem isSome_of_type {e : Expr} {p : CType → Bool} (hVoid : p .void = false)
    (hType : p e.type = true) : e.type?.isSome = true := by
  cases hNone : e.type? with
  | some _ => rfl
  | none =>
    rw [Expr.type, hNone, Option.getD_none, hVoid] at hType
    cases hType

/-
  `A++` and `A--` update A, take the update back from its
  value, and convert what they get to the type of A.
-/
theorem newIncDec_eq (t : Token) (isDown : Bool) (hLeft : addType left s = .ok l s₁)
    (hTyped : l.type?.isSome = true) :
    newIncDec left t (if isDown then -1 else 1) s =
      (do
        let sum ← (Update.after isDown).assigned l t
        let back ← newAdd sum (number (if isDown then 1 else -1) t) t
        newCast back l.type) s₁ := by
  have hAgain := addType_of_isSome hTyped s₁
  unfold newIncDec Update.assigned Update.operation
  simp only [Parse.run_bind hLeft, bind_assoc]
  rw [Parse.run_bind hAgain]
  cases isDown <;> rfl

end Operator

end CCompiler
