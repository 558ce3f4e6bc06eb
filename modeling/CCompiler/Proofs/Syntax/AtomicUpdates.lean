import Mathlib
import CCompiler.Proofs.Syntax.Stepping
import CCompiler.Syntax.Operator

/-
  Threads that run statements on one shared cell, and compound
  assignment to an atomic object.

  Each thread has variables of its own.  A step of a thread
  reads the cell at most once, or compares and swaps it, and the
  steps of the threads follow each other in any order.  The tree
  of a compound assignment is a loop that computes the new value
  from the old one and stores it by compare-and-swap.  However
  the steps of threads with such loops follow each other, each
  update takes place exactly once, and at the moment of its
  compare-and-swap.

  Main declarations:
    * `Interleaving.eval`, `Interleaving.swap`
    * `Interleaving.Thread.step`
    * `Interleaving.State.step`, `Interleaving.State.run`
    * `Interleaving.AtomicUpdate`
    * `Interleaving.Slots.body`, `Interleaving.exists_body`
    * `Interleaving.Pending.step`, `Interleaving.Settled.step`
    * `Interleaving.updates_kept`
-/

------------
-- Values
------------

namespace CCompiler

namespace Interleaving

variable {ι α : Type}

/-
  What a variable of a thread holds: data, the address of the
  shared cell, or the address of another variable of the
  thread.
-/
inductive Value (α : Type)
| data (a : α)
| cell
| slot (v : ObjId)
deriving DecidableEq

/- The variables of a thread that have been set. -/
abbrev Locals (α : Type) :=
  ObjId → Option (Value α)

/- Set one variable. -/
def Locals.set
    (m : Locals α)
    (v : ObjId)
    (a : Value α) : Locals α :=
  Function.update m v (some a)

@[simp]
theorem Locals.set_same (m : Locals α) (v : ObjId) (a : Value α) :
    m.set v a v = some a := Function.update_self ..

@[simp]
theorem Locals.set_other (m : Locals α) {v w : ObjId} (a : Value α) (hOther : w ≠ v) :
    m.set v a w = m w := Function.update_of_ne hOther ..

/-
  The value of an expression without effects.  It reads the
  cell at most once.  An operator is applied to data as
  `apply` says, converted to the type of the cell.
-/
def eval
    (apply : BinOp → α → α → α)
    (cell : α)
    (m : Locals α) : Expr → Option (Value α)
| .var _ v => m v
| .unary _ .addressOf (.var _ v) => some (.slot v)
| .unary _ .deref (.var _ v) =>
  match m v with
  | some .cell => some (.data cell)
  | some (.slot w) => m w
  | _ => none
| .binary _ op (.var _ v) (.var _ w) =>
  match m v, m w with
  | some (.data a), some (.data b) =>
    some (.data (apply op a b))
  | _, _ => none
| _ => none

/- What a compare-and-swap has installed, and the variables after it. -/
structure Swap (α : Type) where
  installed? : Option α
  locals : Locals α

/-
  Compare the cell with a variable.  If they are equal the new
  value is installed; otherwise the variable becomes a copy of
  the cell.
-/
def swap
    [DecidableEq α]
    (cell : α)
    (m : Locals α)
    (addr old new : Option (Value α)) : Option (Swap α) :=
  match addr, old, new with
  | some .cell, some (.slot v), some (.data a) =>
    match m v with
    | some (.data o) =>
      if cell = o then some ⟨some a, m⟩
      else some ⟨none, m.set v (.data cell)⟩
    | _ => none
  | _, _, _ => none

------------
-- Threads
------------

/- A statement to run, or the test at the end of a loop. -/
inductive Task
| run (s : Stmt)
| test (body : Stmt) (cond : Expr)

/-
  A thread: what it still has to do, its variables, and the
  value of the last expression.  The first assignments store
  operands, whose values are `given`.
-/
structure Thread (α : Type) where
  tasks : List Task
  given : List (Value α)
  locals : Locals α
  result? : Option (Value α)

/- A thread after a step, and what the step has installed in the cell. -/
structure Move (α : Type) where
  thread : Thread α
  installed? : Option α := none

/- Run the first task of a thread; none is left of a thread that has finished. -/
def Thread.step
    [DecidableEq α]
    (apply : BinOp → α → α → α)
    (cell : α)
    (t : Thread α) : Option (Move α) :=
  match t.tasks with
  | .run (.expr _ (.assign _ (.var _ v) e)) :: rest =>
    match t.given with
    | a :: given =>
      some ⟨⟨rest, given, t.locals.set v a, some a⟩, none⟩
    | [] =>
      (eval apply cell t.locals e).map fun a =>
        ⟨⟨rest, [], t.locals.set v a, some a⟩, none⟩
  | .run (.expr _ e) :: rest =>
    (eval apply cell t.locals e).map fun a =>
      ⟨{ t with tasks := rest, result? := some a }, none⟩
  | .run (.block _ ss) :: rest =>
    some ⟨{ t with tasks := ss.map .run ++ rest }, none⟩
  | .run (.doLoop _ body cond _ _) :: rest =>
    some ⟨{ t with
      tasks := .run body :: .test body cond :: rest }, none⟩
  | .test body
      (.unary i .not (.cas j addr old new)) :: rest =>
    (swap cell t.locals (eval apply cell t.locals addr)
      (eval apply cell t.locals old)
      (eval apply cell t.locals new)).map fun w =>
        match w.installed? with
        | some a => ⟨{ t with tasks := rest, locals := w.locals }, some a⟩
        | none =>
          ⟨{ t with
            tasks := .run body :: .test body
              (.unary i .not (.cas j addr old new)) :: rest
            locals := w.locals }, none⟩
  | _ => none

------------
-- Interleavings
------------

section

variable [DecidableEq ι] [DecidableEq α]

/-
  The cell, the threads, and those of them whose
  compare-and-swap has succeeded, in this order.
-/
structure State (ι α : Type) where
  cell : α
  threads : ι → Thread α
  history : List ι := []

/- One step of one thread. -/
def State.step
    (apply : BinOp → α → α → α)
    (s : State ι α)
    (i : ι) : State ι α :=
  match (s.threads i).step apply s.cell with
  | none => s
  | some ⟨t, none⟩ =>
    { s with threads := Function.update s.threads i t }
  | some ⟨t, some a⟩ =>
    { cell := a
      threads := Function.update s.threads i t
      history := s.history ++ [i] }

/- The steps of threads, in a given order. -/
def State.run
    (apply : BinOp → α → α → α)
    (s : State ι α)
    (schedule : List ι) : State ι α :=
  schedule.foldl (State.step apply) s

/- What every step preserves holds of every run. -/
theorem State.run_preserves {apply : BinOp → α → α → α} {P : State ι α → Prop}
    (hStep : ∀ s i, P s → P (s.step apply i)) {s : State ι α} (hStart : P s) (schedule : List ι) :
    P (s.run apply schedule) := by
  unfold State.run
  induction schedule generalizing s with
  | nil => exact hStart
  | cons i rest ih => exact ih (hStep s i hStart)

end

end Interleaving

------------
-- The Loop
------------

namespace Interleaving

open Operator

/- The four variables of the loop. -/
structure Slots where
  addr : ObjId
  val : ObjId
  old : ObjId
  new : ObjId
  distinct : [addr, val, old, new].Nodup

namespace Slots

/- Store a value in a variable. -/
def set (t : Token) (v : ObjId) (e : Expr) : Stmt :=
  .expr t (assign (var v t) e t)

/- `{ new = old op val; }` -/
def compute (x : Slots) (t : Token) (op : BinOp) : Stmt :=
  .block t
    [set t x.new (binary op (var x.old t) (var x.val t) t)]

/- `!cas(addr, &old, new)` -/
def failed (x : Slots) (t : Token) : Expr :=
  unary .not
    (.cas ⟨t, none⟩ (var x.addr t)
      (unary .addressOf (var x.old t) t) (var x.new t)) t

/-
  `addr = &A; val = B; old = *addr;
  do { new = old op val; } while (!cas(addr, &old, new));
  new;`
-/
def body
    (x : Slots)
    (t : Token)
    (op : BinOp)
    (l r : Expr)
    (brk cont : Bytes) : List Stmt :=
  [set t x.addr (unary .addressOf l t), set t x.val r,
    set t x.old (unary .deref (var x.addr t) t),
    .doLoop t (x.compute t op) (x.failed t) brk cont, .expr t (var x.new t)]

end Slots

/- A new variable gets the next number. -/
theorem newLocal_run (name : Bytes) (t : CType) (s : ParseState) :
    ∃ s', Parse.newLocal name t s = .ok s.objects.size s' ∧
      s'.objects.size = s.objects.size + 1 := by
  refine ⟨_, rfl, ?_⟩
  cases hScopes : s.scopes <;> simp [hScopes]

/- The loop for `l op= r`, with variables of its own. -/
theorem assignAtomic_run (op : BinOp) (l r : Expr) (t : Token) (s : ParseState) :
    ∃ (x : Slots) (brk cont : Bytes) (s' : ParseState), assignAtomic op l r t s =
        .ok (.stmtExpr ⟨t, none⟩ (x.body t op l r brk cont))
          s' := by
  obtain ⟨s₁, hAddr, hOne⟩ := newLocal_run [] (.ptr l.type) s
  obtain ⟨s₂, hVal, hTwo⟩ := newLocal_run [] r.type s₁
  obtain ⟨s₃, hOld, hThree⟩ := newLocal_run [] l.type s₂
  obtain ⟨s₄, hNew, -⟩ := newLocal_run [] l.type s₃
  have hDistinct : [s.objects.size, s₁.objects.size, s₂.objects.size, s₃.objects.size].Nodup := by
    simp only [List.nodup_cons, List.mem_cons, List.not_mem_nil, or_false, not_or, List.nodup_nil,
      not_false_eq_true, and_true]
    omega
  unfold assignAtomic
  rw [Parse.run_bind hAddr, Parse.run_bind hVal, Parse.run_bind hOld, Parse.run_bind hNew]
  exact ⟨⟨_, _, _, _, hDistinct⟩, _, _, _, rfl⟩

/-
  A compound assignment whose tree is a loop.  The numbers of
  variables are those of the function that it stands in.
-/
structure AtomicUpdate (α : Type) where
  info : Info
  op : BinOp
  left : Expr
  right : Expr
  before : ParseState
  tree : Info
  body : List Stmt
  operand : α
  built : ∃ after,
    toAssign (.binary info op left right) before =
      .ok (.stmtExpr tree body) after

/- The loop of an update, with the operands as they are typed. -/
theorem AtomicUpdate.exists_body {α : Type} (u : AtomicUpdate α) :
    ∃ (x : Slots) (l r : Expr) (brk cont : Bytes),
      u.body = x.body u.info.tok u.op l r brk cont := by
  obtain ⟨after, hBuilt⟩ := u.built
  obtain ⟨l, s₁, -, hRest⟩ := Parse.exists_of_bind hBuilt
  obtain ⟨r, s₂, -, hTree⟩ := Parse.exists_of_bind hRest
  split at hTree
  · cases hTree
  · split at hTree
    · obtain ⟨x, brk, cont, s', hRun⟩ := assignAtomic_run u.op l r u.info.tok s₂
      rw [hRun] at hTree
      injection hTree with hExpr
      injection hExpr with _ hBody
      exact ⟨x, l, r, brk, cont, hBody.symm⟩
    · cases hTree

------------
-- One Thread
------------

variable {ι α : Type}

/- A thread that has run nothing of its update. -/
def AtomicUpdate.start (u : AtomicUpdate α) : Thread α where
  tasks := u.body.map .run
  given := [.cell, .data u.operand]
  locals := fun _ => none
  result? := none

section

variable [DecidableEq α] {apply : BinOp → α → α → α} {x : Slots}
  {tok : Token} {op : BinOp} {l r : Expr} {brk cont : Bytes}
  {b c w : α} {t : Thread α} {v : Move α}

/- The loop and what follows it. -/
def Slots.tail
    (x : Slots)
    (tok : Token)
    (op : BinOp) : List Task :=
  [.test (x.compute tok op) (x.failed tok), .run (.expr tok (var x.new tok))]

/- The variables of a thread whose operands have been stored. -/
structure Ready (x : Slots) (b : α) (m : Locals α) : Prop where
  addr : m x.addr = some .cell
  val : m x.val = some (.data b)

/-
  The states of a thread whose compare-and-swap has not yet
  succeeded.  What `old` holds may be out of date, but `new`
  is always computed from it.
-/
inductive Pending
    (apply : BinOp → α → α → α)
    (x : Slots)
    (tok : Token)
    (op : BinOp)
    (b : α) : Thread α → Prop
| first {l r brk cont m a} :
  Pending apply x tok op b
    ⟨(x.body tok op l r brk cont).map .run, [.cell, .data b], m, a⟩
| second {l r brk cont m a} :
  m x.addr = some .cell → Pending apply x tok op b
    ⟨(x.body tok op l r brk cont).tail.map .run, [.data b], m, a⟩
| load {l r brk cont m a} :
  Ready x b m → Pending apply x tok op b
    ⟨((x.body tok op l r brk cont).drop 2).map .run, [], m, a⟩
| enter {l r brk cont m a o} :
  Ready x b m → m x.old = some (.data o) → Pending apply x tok op b
    ⟨((x.body tok op l r brk cont).drop 3).map .run, [], m, a⟩
| block {m a o} :
  Ready x b m → m x.old = some (.data o) → Pending apply x tok op b
    ⟨.run (x.compute tok op) :: x.tail tok op, [], m, a⟩
| compute {m a o} :
  Ready x b m → m x.old = some (.data o) → Pending apply x tok op b
    ⟨.run (Slots.set tok x.new
        (binary op (var x.old tok) (var x.val tok) tok)) ::
      x.tail tok op, [], m, a⟩
| test {m a o} :
  Ready x b m → m x.old = some (.data o) →
  m x.new = some (.data (apply op o b)) →
  Pending apply x tok op b ⟨x.tail tok op, [], m, a⟩

/- The states of a thread that has installed a value. -/
inductive Settled
    (x : Slots)
    (tok : Token)
    (w : α) : Thread α → Prop
| value {m a} :
  m x.new = some (.data w) → Settled x tok w
    ⟨[.run (.expr tok (var x.new tok))], [], m, a⟩
| finished {m} :
  Settled x tok w ⟨[], [], m, some (.data w)⟩

/- A step of a thread that has not installed its value. -/
def Pending.After
    (apply : BinOp → α → α → α)
    (x : Slots)
    (tok : Token)
    (op : BinOp)
    (b c : α)
    (v : Move α) : Prop :=
  (v.installed? = none ∧ Pending apply x tok op b v.thread) ∨
    (v.installed? = some (apply op c b) ∧ Settled x tok (apply op c b) v.thread)

/- A thread stores the value of an expression. -/
theorem step_set {i : ObjId} {e : Expr} {m : Locals α} {a : Value α} {r : Option (Value α)}
    {rest : List Task} (hValue : eval apply c m e = some a) :
    Thread.step apply c ⟨.run (Slots.set tok i e) :: rest, [], m, r⟩ =
        some ⟨⟨rest, [], m.set i a, some a⟩, none⟩ := by
  change (eval apply c m e).map _ = _
  rw [hValue]
  rfl

/-
  A thread is never stuck.  A step leaves the cell as it is,
  or applies the operator to what the cell holds at this
  moment.
-/
theorem Pending.step (hPending : Pending apply x tok op b t) (c : α) :
    ∃ v, t.step apply c = some v ∧ Pending.After apply x tok op b c v := by
  have hDistinct := x.distinct
  simp only [List.nodup_cons, List.mem_cons, List.not_mem_nil,
    or_false, not_or, List.nodup_nil, not_false_eq_true, and_true] at hDistinct
  obtain ⟨⟨hAddrVal, hAddrOld, hAddrNew⟩, ⟨hValOld, hValNew⟩, hOldNew⟩ := hDistinct
  cases hPending with
  | @first l => exact ⟨_, rfl, .inl ⟨rfl, .second (l := l) (by simp)⟩⟩
  | @second l r _ _ _ _ hAddr =>
    exact ⟨_, rfl, .inl ⟨rfl, .load (l := l) (r := r) ⟨by simpa [hAddrVal] using hAddr, by simp⟩⟩⟩
  | @load l r brk cont m a hReady =>
    have hLoad : eval apply c m (unary .deref (var x.addr tok) tok) = some (.data c) := by
      simp [eval, unary, var, hReady.addr]
    refine ⟨_, step_set hLoad, .inl ⟨rfl, ?_⟩⟩
    exact .enter (l := l) (r := r) ⟨by simpa [hAddrOld] using hReady.addr,
        by simpa [hValOld] using hReady.val⟩
      (Locals.set_same ..)
  | enter hReady hOld => exact ⟨_, rfl, .inl ⟨rfl, .block hReady hOld⟩⟩
  | block hReady hOld => exact ⟨_, rfl, .inl ⟨rfl, .compute hReady hOld⟩⟩
  | @compute m a o hReady hOld =>
    have hValue : eval apply c m (binary op (var x.old tok) (var x.val tok) tok) =
          some (.data (apply op o b)) := by
      simp [eval, binary, var, hReady.val, hOld]
    refine ⟨_, step_set hValue, .inl ⟨rfl, ?_⟩⟩
    exact .test ⟨by simpa [hAddrNew] using hReady.addr, by simpa [hValNew] using hReady.val⟩
      (by simpa [hOldNew] using hOld) (by simp)
  | @test m a o hReady hOld hNew =>
    have hSwap : Thread.step apply c ⟨x.tail tok op, [], m, a⟩ = if c = o then
            some ⟨⟨[.run (.expr tok (var x.new tok))], [], m, a⟩, some (apply op o b)⟩
          else
            some ⟨⟨.run (x.compute tok op) :: x.tail tok op, [],
              m.set x.old (.data c), a⟩, none⟩ := by
      simp only [Thread.step, Slots.tail, Slots.failed, unary,
        var, eval, swap, hReady.addr, hOld, hNew]
      split <;> rfl
    rw [hSwap]
    split
    · rename_i hSame
      subst hSame
      exact ⟨_, rfl, .inr ⟨rfl, .value hNew⟩⟩
    · refine ⟨_, rfl, .inl ⟨rfl, ?_⟩⟩
      exact .block ⟨by simpa [hAddrOld] using hReady.addr, by simpa [hValOld] using hReady.val⟩
        (Locals.set_same ..)

/- A thread that has installed its value leaves the cell alone. -/
theorem Settled.step (hSettled : Settled x tok w t) (hStep : t.step apply c = some v) :
    v.installed? = none ∧ Settled x tok w v.thread := by
  cases hSettled with
  | @value m a hNew =>
    have hRun : Thread.step apply c ⟨[.run (.expr tok (var x.new tok))], [], m, a⟩ =
            some ⟨⟨[], [], m, some (.data w)⟩, none⟩ := by
      simp [Thread.step, var, eval, hNew]
    rw [hRun] at hStep
    cases hStep
    exact ⟨rfl, .finished⟩
  | finished => cases hStep

/- It is not stuck before its end. -/
theorem Settled.moves (hSettled : Settled x tok w t) (hTasks : t.tasks ≠ []) (c : α) :
    (t.step apply c).isSome := by
  cases hSettled with
  | value hNew => simp [Thread.step, var, eval, hNew]
  | finished => exact absurd rfl hTasks

end

------------
-- All Threads
------------

section

variable [DecidableEq ι] [DecidableEq α]
  {apply : BinOp → α → α → α}

/- The cell after some updates, one after the other. -/
def valueAfter
    (apply : BinOp → α → α → α)
    (updates : ι → AtomicUpdate α)
    (x : α)
    (history : List ι) : α :=
  history.foldl
    (fun a i => apply (updates i).op a (updates i).operand) x

/- The cell and the threads before any of them has run. -/
def State.start
    (updates : ι → AtomicUpdate α)
    (x : α) : State ι α where
  cell := x
  threads := fun i => (updates i).start

/-
  The history of a state explains it: no thread is in it
  twice, the cell is what the updates of the history make of
  it, and a thread is in the history from the moment on at
  which it has installed its value.
-/
structure Explained
    (apply : BinOp → α → α → α)
    (updates : ι → AtomicUpdate α)
    (slots : ι → Slots)
    (x : α)
    (s : State ι α) : Prop where
  nodup : s.history.Nodup
  cell : s.cell = valueAfter apply updates x s.history
  pending : ∀ i, i ∉ s.history →
    Pending apply (slots i) (updates i).info.tok (updates i).op
      (updates i).operand (s.threads i)
  settled : ∀ earlier i later,
    s.history = earlier ++ i :: later → Settled (slots i) (updates i).info.tok
        (valueAfter apply updates x (earlier ++ [i]))
        (s.threads i)

variable {updates : ι → AtomicUpdate α} {slots : ι → Slots}
  {x : α} {s : State ι α}

omit [DecidableEq α] in
variable {i : ι} {t : Thread α}

/- A step that installs nothing leaves the history as it is. -/
theorem Explained.quiet (hSound : Explained apply updates slots x s)
    (hPending : i ∉ s.history → Pending apply (slots i) (updates i).info.tok
        (updates i).op (updates i).operand t)
    (hSettled : ∀ earlier later, s.history = earlier ++ i :: later →
        Settled (slots i) (updates i).info.tok
          (valueAfter apply updates x (earlier ++ [i])) t) :
    Explained apply updates slots x { s with threads := Function.update s.threads i t } where
  nodup := hSound.nodup
  cell := hSound.cell
  pending := by
    intro j hFresh
    obtain rfl | hOther := eq_or_ne j i
    · simpa using hPending hFresh
    · simpa [hOther] using hSound.pending j hFresh
  settled := by
    intro earlier j later hHistory
    obtain rfl | hOther := eq_or_ne j i
    · simpa using hSettled earlier later hHistory
    · simpa [hOther] using hSound.settled earlier j later hHistory

omit [DecidableEq α] in
/- A step that installs a value ends the history with its thread. -/
theorem Explained.installing (hSound : Explained apply updates slots x s) (hFresh : i ∉ s.history)
    (hSettled : Settled (slots i) (updates i).info.tok
      (apply (updates i).op s.cell (updates i).operand) t) :
    Explained apply updates slots x
      { cell := apply (updates i).op s.cell (updates i).operand
        threads := Function.update s.threads i t
        history := s.history ++ [i] } := by
  have hValue : apply (updates i).op s.cell (updates i).operand =
        valueAfter apply updates x (s.history ++ [i]) := by
    simp [valueAfter, hSound.cell]
  refine ⟨?_, hValue, ?_, ?_⟩
  · rw [List.nodup_append]
    refine ⟨hSound.nodup, List.nodup_singleton i, ?_⟩
    rintro j hOld k hLast rfl
    rw [List.mem_singleton] at hLast
    exact hFresh (hLast ▸ hOld)
  · intro j hNew
    have hOther : j ≠ i := by
      rintro rfl
      simp at hNew
    simpa [hOther] using hSound.pending j fun hOld => hNew (by simp [hOld])
  · intro earlier j later hHistory
    dsimp only at hHistory ⊢
    obtain rfl | ⟨front, last, rfl⟩ := List.eq_nil_or_concat later
    · obtain ⟨rfl, hSame⟩ := List.append_inj' hHistory rfl
      cases hSame
      rw [Function.update_self, ← hValue]
      exact hSettled
    · have hOld : s.history = earlier ++ j :: front := by
        simp only [List.concat_eq_append] at hHistory
        rw [← List.cons_append, ← List.append_assoc] at hHistory
        exact (List.append_inj' hHistory rfl).1
      have hOther : j ≠ i := by
        rintro rfl
        exact hFresh (by simp [hOld])
      rw [Function.update_of_ne hOther]
      exact hSound.settled earlier j front hOld

/- Every step of every thread is explained. -/
theorem Explained.step (hSound : Explained apply updates slots x s) (i : ι) :
    Explained apply updates slots x (s.step apply i) := by
  unfold State.step
  by_cases hDone : i ∈ s.history
  · obtain ⟨earlier, later, hHistory⟩ := List.append_of_mem hDone
    have hSettled := hSound.settled earlier i later hHistory
    cases hStep : (s.threads i).step apply s.cell with
    | none => exact hSound
    | some v =>
      obtain ⟨t, a⟩ := v
      obtain ⟨hNone, -⟩ := hSettled.step hStep
      cases hNone
      refine hSound.quiet (fun hFresh => absurd hDone hFresh) ?_
      intro earlier later hHistory
      exact ((hSound.settled earlier i later hHistory).step hStep).2
  · obtain ⟨⟨t, a⟩, hStep, hAfter⟩ := (hSound.pending i hDone).step s.cell
    rw [hStep]
    obtain ⟨hNone, hPending⟩ | ⟨hSome, hSettled⟩ := hAfter
    · cases hNone
      refine hSound.quiet (fun _ => hPending) ?_
      intro earlier later hHistory
      exact absurd (by simp [hHistory]) hDone
    · cases hSome
      exact hSound.installing hDone hSettled

/-
  In every interleaving of any number of threads the cell is
  what the updates that have succeeded make of its first value,
  one after the other in the order of their successes, and none
  of them takes place twice.  No thread is ever stuck, and the
  result of one that has finished is the value it installed.
-/
theorem updates_kept (apply : BinOp → α → α → α) (updates : ι → AtomicUpdate α) (x : α)
    (schedule : List ι) :
    let s := (State.start updates x).run apply schedule
    s.history.Nodup ∧ s.cell = valueAfter apply updates x s.history ∧ ∀ i,
      ((s.threads i).tasks ≠ [] → ((s.threads i).step apply s.cell).isSome) ∧
      ((s.threads i).tasks = [] → ∃ earlier later, s.history = earlier ++ i :: later ∧
          (s.threads i).result? = some (.data (valueAfter apply updates x (earlier ++ [i])))) := by
  choose slots l r brk cont hBody using fun i => (updates i).exists_body
  have hStart : Explained apply updates slots x (State.start updates x) := by
    refine ⟨List.nodup_nil, rfl, ?_, by simp [State.start]⟩
    intro i _
    simp only [State.start, AtomicUpdate.start, hBody i]
    exact .first
  intro s
  have hSound : Explained apply updates slots x s :=
    State.run_preserves (fun _ i hSound => hSound.step i) hStart schedule
  refine ⟨hSound.nodup, hSound.cell, fun i => ?_⟩
  by_cases hDone : i ∈ s.history
  · obtain ⟨earlier, later, hHistory⟩ := List.append_of_mem hDone
    have hSettled := hSound.settled earlier i later hHistory
    refine ⟨fun hTasks => hSettled.moves hTasks _, ?_⟩
    intro hTasks
    refine ⟨earlier, later, hHistory, ?_⟩
    cases hThread : s.threads i
    rw [hThread] at hSettled hTasks
    cases hSettled with
    | value hNew => cases hTasks
    | finished => rfl
  · have hPending := hSound.pending i hDone
    obtain ⟨v, hStep, -⟩ := hPending.step s.cell
    refine ⟨fun _ => by rw [hStep]; rfl, fun hTasks => ?_⟩
    rw [Thread.step, hTasks] at hStep
    cases hStep

end

/- `x += 1` for an atomic `int`, with a value for the operand. -/
def atomicSum (n : Int) : AtomicUpdate Int where
  info := default
  op := .add
  left := .var ⟨default, some (.atomic .int)⟩ 0
  right := .num ⟨default, some .int⟩ 1
  before := { toks := [] }
  tree := ⟨default, none⟩
  body := Slots.body ⟨0, 1, 2, 3, by decide⟩ default .add
    (.var ⟨default, some (.atomic .int)⟩ 0)
    (.num ⟨default, some .int⟩ 1) (ascii ".L..0")
    (ascii ".L..1")
  operand := n
  built := ⟨_, rfl⟩

/- Two threads, of which `true` adds three and `false` adds five. -/
def twoSums (i : Bool) : AtomicUpdate Int :=
  atomicSum (if i then 3 else 5)

/-
  The thread `false` reads the cell, then the other one runs to
  its end: the first compare-and-swap of `false` fails.
-/
def overtaking : List Bool :=
  List.replicate 3 false ++ List.replicate 10 true ++ List.replicate 10 false

theorem updates_kept_overtaking :
    let s := (State.start twoSums 10).run (fun _ a b => a + b)
      overtaking
    s.history = [true, false] ∧
    s.cell = valueAfter (fun _ a b => a + b) twoSums 10
      s.history ∧ ∃ earlier later, s.history = earlier ++ false :: later ∧
      (s.threads false).result? = some (.data (valueAfter (fun _ a b => a + b) twoSums 10
          (earlier ++ [false]))) := by
  obtain ⟨-, hCell, hThreads⟩ := updates_kept (fun _ a b => a + b) twoSums 10 overtaking
  exact ⟨by decide +kernel, hCell, (hThreads false).2 (List.eq_nil_of_length_eq_zero
      (by decide +kernel))⟩

end Interleaving

end CCompiler
