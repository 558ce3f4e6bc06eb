import Mathlib
import CCompiler.Proofs.Syntax.Stepping

/-
  What reading keeps.  An account says which states are sound,
  how a state may grow, and which objects a tree may name.
  Reading a phrase keeps an account if it leads from sound
  states to sound ones that have grown, with trees that name
  only what they may.

  Main declarations:
    * `Expr.names`, `Stmt.names`, `Init.All`
    * `ParseState.Quiet`, `ParseState.Kept`
    * `Account`, `Account.Keeps`
    * `Account.Keeps.bind`, `Account.Keeps.step`,
      `Account.keeps_iterate`
-/

------------
-- Names in Trees
------------

namespace CCompiler

mutual

/-
  The variables and functions that a tree names, those in its
  statement expressions with them.
-/
def Expr.names : Expr → List ObjId
| .null _ | .num _ _ | .fnum _ _ | .labelVal _ _ _
| .vlaPtr _ _ | .memZero _ _ => []
| .unary _ _ e | .member _ e _ | .cast _ e => e.names
| .binary _ _ l r | .assign _ l r | .comma _ l r
| .exch _ l r => l.names ++ r.names
| .ternary _ c t e | .cas _ c t e =>
  c.names ++ t.names ++ e.names
| .call _ f _ args _ => f.names ++ Expr.namesAll args
| .stmtExpr _ body => Stmt.namesAll body
| .var _ v => [v]

/- The names in several trees. -/
def Expr.namesAll : List Expr → List ObjId
| [] => []
| e :: es => e.names ++ Expr.namesAll es

/- The names in a tree, if there is one. -/
def Expr.names? : Option Expr → List ObjId
| none => []
| some e => e.names

/- The names in a statement. -/
def Stmt.names : Stmt → List ObjId
| .goto _ _ _ | .jump _ _ | .asm _ _ => []
| .ret _ e => Expr.names? e
| .gotoExpr _ e | .expr _ e => e.names
| .cond _ c a b =>
  c.names ++ a.names ++ Stmt.names? b
| .loop _ i c n b _ _ =>
  Stmt.names? i ++ Expr.names? c ++ Expr.names? n ++ b.names
| .doLoop _ b c _ _ => b.names ++ c.names
| .switch _ c b _ _ _ => c.names ++ b.names
| .case _ _ _ _ b | .label _ _ _ b => b.names
| .block _ body => Stmt.namesAll body

/- The names in a statement, if there is one. -/
def Stmt.names? : Option Stmt → List ObjId
| none => []
| some s => s.names

/- The names in several statements. -/
def Stmt.namesAll : List Stmt → List ObjId
| [] => []
| s :: ss => s.names ++ Stmt.namesAll ss

end

@[simp]
theorem Expr.names_withInfo (i : Info) (e : Expr) :
    (e.withInfo i).names = e.names := by cases e <;> simp only [withInfo, names]

@[simp]
theorem Expr.names_withTok (t : Token) (e : Expr) :
    (e.withTok t).names = e.names := names_withInfo ..

theorem Expr.namesAll_append (es fs : List Expr) :
    Expr.namesAll (es ++ fs) = Expr.namesAll es ++ Expr.namesAll fs := by
  induction es with
  | nil => rfl
  | cons e es ih => simp only [List.cons_append, Expr.namesAll, ih, List.append_assoc]

theorem Stmt.namesAll_append (ss ts : List Stmt) :
    Stmt.namesAll (ss ++ ts) = Stmt.namesAll ss ++ Stmt.namesAll ts := by
  induction ss with
  | nil => rfl
  | cons s ss ih => simp only [List.cons_append, Stmt.namesAll, ih, List.append_assoc]

/- A property of all the expressions in an initializer. -/
inductive Init.All (P : Expr → Prop) : Init → Prop
| mk {t isOpen expr? children member?}
    (hExpr : ∀ e, expr? = some e → P e)
    (hChildren : ∀ c ∈ children.toList, Init.All P c) :
    Init.All P (.mk t isOpen expr? children member?)

namespace Init

variable {P Q : Expr → Prop} {i c : Init}

theorem All.expr (hAll : i.All P) {e : Expr} (hExpr : i.expr? = some e) : P e := by
  cases hAll with
  | mk hOwn hChildren => exact hOwn e hExpr

theorem All.children (hAll : i.All P) : ∀ c ∈ i.children.toList, c.All P := by
  cases hAll with
  | mk hOwn hChildren => exact hChildren

/- Every initializer is a tree of initializers. -/
theorem all_true : ∀ i : Init, i.All fun _ => True
| .mk t isOpen expr? ⟨children⟩ member? =>
  .mk (fun _ _ => trivial) fun c hc =>
    have : sizeOf c < sizeOf children := List.sizeOf_lt_of_mem hc
    all_true c
termination_by i => sizeOf i
decreasing_by
  simp only [Init.mk.sizeOf_spec, Array.mk.sizeOf_spec]
  omega

theorem all_empty (t : CType) (isOpen : Bool) {children : Array Init}
    (hChildren : ∀ c ∈ children.toList, c.All P) : (Init.empty t isOpen children).All P :=
  .mk (by simp) hChildren

theorem All.child (hAll : i.All P) (n : Nat) : (i.child n).All P := by
  unfold Init.child
  rw [Array.getD_eq_getD_getElem?]
  cases hGet : i.children[n]? with
  | none => exact all_empty _ _ (by simp)
  | some c => exact hAll.children c (Array.mem_toList_iff.mpr (Array.mem_of_getElem? hGet))

theorem All.setChild (hAll : i.All P) (n : Nat) (hChild : c.All P) : (i.setChild n c).All P := by
  obtain ⟨t, o, e, ⟨cs⟩, m⟩ := i
  cases hAll with
  | mk hOwn hChildren =>
    refine .mk hOwn fun d hd => ?_
    simp only [List.setIfInBounds_toArray] at hd
    rcases List.mem_or_eq_of_mem_set hd with hOld | rfl
    · exact hChildren d hOld
    · exact hChild

theorem All.withType (hAll : i.All P) (t : CType) : (i.withType t).All P := by
  cases hAll with
  | mk hOwn hChildren => exact .mk hOwn hChildren

theorem All.withMember (hAll : i.All P) (m : Member) : (i.withMember m).All P := by
  cases hAll with
  | mk hOwn hChildren => exact .mk hOwn hChildren

theorem All.withExpr (hAll : i.All P) {e : Option Expr} (hExpr : ∀ d, e = some d → P d) :
    (i.withExpr e).All P := by
  cases hAll with
  | mk hOwn hChildren => exact .mk hExpr hChildren

theorem All.mono (hAll : i.All P) (hWeaker : ∀ e, P e → Q e) : i.All Q := by
  induction hAll with
  | mk hOwn hChildren ih => exact .mk (fun e he => hWeaker e (hOwn e he)) ih

end Init

------------
-- States That Have Grown
------------

namespace ParseState

/- Some name stands for an object. -/
def Binds (s : ParseState) (id : ObjId) : Prop :=
  ∃ sc ∈ s.scopes, ∃ n, (n, Binding.object id) ∈ sc.vars

/-
  A step that is not about objects.  No name that has stood for
  something else comes to stand for an object.
-/
structure Quiet (s t : ParseState) : Prop where
  objects : t.objects = s.objects
  globals : t.globals = s.globals
  function? : t.function? = s.function?
  vlas : t.vlas = s.vlas
  alloca : t.alloca = s.alloca
  initialized : t.initialized = s.initialized
  binds : ∀ id, t.Binds id → s.Binds id

theorem Quiet.refl (s : ParseState) : s.Quiet s := ⟨rfl, rfl, rfl, rfl, rfl, rfl, fun _ h => h⟩

theorem Quiet.trans {s t u : ParseState} (hFirst : s.Quiet t) (hSecond : t.Quiet u) : s.Quiet u :=
  ⟨hSecond.objects.trans hFirst.objects, hSecond.globals.trans hFirst.globals,
    hSecond.function?.trans hFirst.function?, hSecond.vlas.trans hFirst.vlas,
    hSecond.alloca.trans hFirst.alloca,
    hSecond.initialized.trans hFirst.initialized,
    fun id h => hFirst.binds id (hSecond.binds id h)⟩

/- What holds of every growth: objects stay what they are. -/
structure Kept (s t : ParseState) : Prop where
  size : s.objects.size ≤ t.objects.size
  name : ∀ v < s.objects.size,
    (t.objects.entry v).name = (s.objects.entry v).name
  isLocal : ∀ v < s.objects.size,
    (t.objects.entry v).isLocal = (s.objects.entry v).isLocal
  isFunction : ∀ v < s.objects.size,
    (t.objects.entry v).isFunction = (s.objects.entry v).isFunction
  isTentative : ∀ v < s.objects.size,
    (t.objects.entry v).isTentative = (s.objects.entry v).isTentative

theorem Kept.refl (s : ParseState) : s.Kept s :=
  ⟨le_rfl, fun _ _ => rfl, fun _ _ => rfl, fun _ _ => rfl, fun _ _ => rfl⟩

theorem Kept.trans {s t u : ParseState} (hFirst : s.Kept t) (hSecond : t.Kept u) : s.Kept u where
  size := hFirst.size.trans hSecond.size
  name v hv := (hSecond.name v (hv.trans_le hFirst.size)).trans (hFirst.name v hv)
  isLocal v hv := (hSecond.isLocal v (hv.trans_le hFirst.size)).trans (hFirst.isLocal v hv)
  isFunction v hv := (hSecond.isFunction v (hv.trans_le hFirst.size)).trans (hFirst.isFunction v hv)
  isTentative v hv :=
    (hSecond.isTentative v (hv.trans_le hFirst.size)).trans (hFirst.isTentative v hv)

/- A variable of a function. -/
structure Local (s : ParseState) (v : ObjId) : Prop where
  lt : v < s.objects.size
  isLocal : (s.objects.entry v).isLocal = true
  isFunction : (s.objects.entry v).isFunction = false

theorem Local.kept {s t : ParseState} {v : ObjId} (hLocal : s.Local v) (hKept : s.Kept t) :
    t.Local v :=
  ⟨hLocal.lt.trans_le hKept.size, (hKept.isLocal v hLocal.lt).trans hLocal.isLocal,
    (hKept.isFunction v hLocal.lt).trans hLocal.isFunction⟩

/- A name that no source text can spell. -/
def Hidden (name : Bytes) : Prop :=
  ∃ n, name = ascii ".L.." ++ Bytes.ofNat n

/- A variable of the unit without a name of its own. -/
structure Anonymous (s : ParseState) (v : ObjId) : Prop where
  lt : v < s.objects.size
  isLocal : (s.objects.entry v).isLocal = false
  isFunction : (s.objects.entry v).isFunction = false
  isTentative : (s.objects.entry v).isTentative = false
  hidden : Hidden (s.objects.entry v).name

theorem Anonymous.kept {s t : ParseState} {v : ObjId} (hAnonymous : s.Anonymous v)
    (hKept : s.Kept t) : t.Anonymous v where
  lt := hAnonymous.lt.trans_le hKept.size
  isLocal := (hKept.isLocal v hAnonymous.lt).trans hAnonymous.isLocal
  isFunction := (hKept.isFunction v hAnonymous.lt).trans hAnonymous.isFunction
  isTentative := (hKept.isTentative v hAnonymous.lt).trans hAnonymous.isTentative
  hidden := by
    rw [hKept.name v hAnonymous.lt]
    exact hAnonymous.hidden

end ParseState

------------
-- Accounts
------------

/-
  An account of reading: the sound states, how they grow, what
  a tree may name in a state, and which states it takes to be
  outside of all functions.
-/
structure Account where
  sound : ParseState → Prop
  grows : ParseState → ParseState → Prop
  ok : ParseState → ObjId → Prop
  outer : ParseState → Prop
  refl : ∀ s, grows s s
  trans : ∀ {s t u}, grows s t → grows t u → grows s u
  kept : ∀ {s t}, grows s t → s.Kept t
  mono : ∀ {s t v}, grows s t → ok s v → ok t v
  stays : ∀ {s t}, grows s t → outer s → outer t
  quiet : ∀ {s t}, sound s → s.Quiet t → sound t ∧ grows s t

namespace Account

open Parse

variable {A : Account} {α β σ : Type} {s t : ParseState}

/- Each of these objects may be named. -/
def Oks (A : Account) (s : ParseState) (vs : List ObjId) : Prop :=
  ∀ v ∈ vs, A.ok s v

theorem Oks.mono {vs : List ObjId} (hOks : A.Oks s vs) (hGrows : A.grows s t) : A.Oks t vs :=
  fun v hv => A.mono hGrows (hOks v hv)

@[simp]
theorem oks_nil : A.Oks s [] := by simp [Oks]

@[simp]
theorem oks_singleton {v : ObjId} : A.Oks s [v] ↔ A.ok s v := by simp [Oks]

@[simp]
theorem oks_append {vs ws : List ObjId} :
    A.Oks s (vs ++ ws) ↔ A.Oks s vs ∧ A.Oks s ws := by
  simp only [Oks, List.mem_append, or_imp, forall_and]

/- A tree that names only what it may. -/
abbrev expr (A : Account) (s : ParseState) (e : Expr) : Prop :=
  A.Oks s e.names

abbrev stmt (A : Account) (s : ParseState) (b : Stmt) : Prop :=
  A.Oks s b.names

def init (A : Account) (s : ParseState) (i : Init) : Prop :=
  i.All (A.expr s)

/- What a tree may name it may name later. -/
theorem init.mono {i : Init} (hInit : A.init s i) (hGrows : A.grows s t) : A.init t i :=
  Init.All.mono hInit fun _ hExpr => Oks.mono hExpr hGrows

/-
  A computation keeps the account from a state on: wherever
  that has grown to, it leads on to a sound state, with a
  result as described.
-/
def Keeps
    (A : Account)
    (s : ParseState)
    (p : Parse α)
    (Q : ParseState → α → Prop) : Prop :=
  ∀ s₁, A.sound s₁ → A.grows s s₁ → ∀ a s₂,
    p s₁ = .ok a s₂ → A.sound s₂ ∧ A.grows s₁ s₂ ∧ Q s₂ a

/- A computation about whose result nothing is said. -/
abbrev Runs
    (A : Account)
    (s : ParseState)
    (p : Parse α) : Prop :=
  A.Keeps s p fun _ _ => True

variable {p : Parse α} {f : α → Parse β} {Q : ParseState → α → Prop}
  {R : ParseState → β → Prop}

theorem Keeps.mono {Q' : ParseState → α → Prop} (hKeeps : A.Keeps s p Q)
    (hWeaker : ∀ t a, A.sound t → A.grows s t → Q t a → Q' t a) : A.Keeps s p Q' := by
  intro s₁ hSound hGrows a s₂ hRun
  obtain ⟨hSound₂, hGrows₂, hResult⟩ := hKeeps s₁ hSound hGrows a s₂ hRun
  exact ⟨hSound₂, hGrows₂, hWeaker s₂ a hSound₂ (A.trans hGrows hGrows₂) hResult⟩

theorem Keeps.runs (hKeeps : A.Keeps s p Q) : A.Runs s p := hKeeps.mono fun _ _ _ _ _ => trivial

/- What every run gives, besides. -/
theorem Keeps.giving {P : α → Prop} (hKeeps : A.Keeps s p Q) (hGives : Gives p P) :
    A.Keeps s p fun t a => Q t a ∧ P a := by
  intro s₁ hSound hGrows a s₂ hRun
  obtain ⟨hSound₂, hGrows₂, hResult⟩ := hKeeps s₁ hSound hGrows a s₂ hRun
  exact ⟨hSound₂, hGrows₂, hResult, hGives s₁ a s₂ hRun⟩

variable {a : α}

/- One run of a computation that keeps the account. -/
theorem Keeps.run (hKeeps : A.Keeps s p Q) (hSound : A.sound s) (hRun : p s = .ok a t) :
    A.sound t ∧ A.grows s t ∧ Q t a := hKeeps s hSound (A.refl s) a t hRun

/- What is kept from a state on is kept from later ones on. -/
theorem Keeps.later (hKeeps : A.Keeps s p Q) (hGrows : A.grows s t) :
    A.Keeps t p Q := fun s₁ hSound hLater =>
  hKeeps s₁ hSound (A.trans hGrows hLater)

theorem keeps_pure (hResult : ∀ t, A.sound t → A.grows s t → Q t a) : A.Keeps s (pure a) Q := by
  intro s₁ hSound hGrows b s₂ hRun
  cases hRun
  exact ⟨hSound, A.refl _, hResult _ hSound hGrows⟩

theorem runs_pure (a : α) : A.Runs s (pure a : Parse α) := keeps_pure fun _ _ _ => trivial

theorem keeps_throw (e : Failure) : A.Keeps s (throw e : Parse α) Q := by
  intro s₁ _ _ a s₂ hRun
  cases hRun

theorem keeps_fail (tok : Token) (cause : Fault) : A.Keeps s (fail tok cause : Parse α) Q :=
  keeps_throw _

/- One computation after another. -/
theorem Keeps.bind (hFirst : A.Keeps s p Q)
    (hNext : ∀ t a, A.grows s t → Q t a → A.Keeps t (f a) R) : A.Keeps s (p >>= f) R := by
  intro s₁ hSound hGrows b s₂ hRun
  obtain ⟨a, t, hRun₁, hRun₂⟩ := exists_of_bind hRun
  obtain ⟨hSound₁, hGrows₁, hResult⟩ := hFirst s₁ hSound hGrows a t hRun₁
  obtain ⟨hSound₂, hGrows₂, hEnd⟩ :=
    hNext t a (A.trans hGrows hGrows₁) hResult t hSound₁ (A.refl t) b s₂ hRun₂
  exact ⟨hSound₂, A.trans hGrows₁ hGrows₂, hEnd⟩

/- A first computation about whose result nothing is used. -/
theorem Keeps.step (hFirst : A.Runs s p) (hNext : ∀ a, A.Keeps s (f a) R) : A.Keeps s (p >>= f) R :=
  hFirst.bind fun _ a hGrows _ => (hNext a).later hGrows

/- A result that stays as described. -/
theorem keeps_return (hStable : ∀ {t u a}, A.grows t u → Q t a → Q u a) (hResult : Q s a) :
    A.Keeps s (pure a) Q := keeps_pure fun _ _ hGrows => hStable hGrows hResult

variable {c : Prop} {q : Parse α}

theorem keeps_ite [Decidable c] (hThen : c → A.Keeps s p Q) (hElse : ¬ c → A.Keeps s q Q) :
    A.Keeps s (if c then p else q) Q := by
  split
  · exact hThen ‹_›
  · exact hElse ‹_›

/- Nothing follows a fault. -/
theorem keeps_fail_bind (tok : Token) (cause : Fault) (f : α → Parse β) :
    A.Keeps s (fail tok cause >>= f) R :=
  (keeps_fail (Q := fun _ _ => False) tok cause).bind fun _ _ _ hNever => hNever.elim

variable {x : σ}

/-
  A loop, with what holds before each of its rounds and, with
  whatever comes later, of its result.
-/
theorem keeps_iterate {step : σ → Parse (Sum σ β)} {J : ParseState → σ → Prop}
    (hStable : ∀ {t u b}, A.grows t u → R t b → R u b)
    (hStep : ∀ t x, A.grows s t → J t x →
      A.Keeps t (step x) fun u r => r.elim (J u) (R u)) (hStart : J s x) :
    A.Keeps s (iterate x step) R := by
  have hAll : ∀ n t x, A.grows s t → J t x → A.Keeps t (repeatN step n x) R := by
    intro n
    induction n with
    | zero => exact fun _ _ _ _ => keeps_throw _
    | succ n ih =>
      intro t x hGrows hJ
      refine (hStep t x hGrows hJ).bind fun u r hLater hResult => ?_
      cases r with
      | inl y => exact ih u y (A.trans hGrows hLater) hResult
      | inr b => exact keeps_pure fun _ _ hEnd => hStable hEnd hResult
  intro s₁ hSound hGrows b s₂ hRun
  exact hAll _ s x (A.refl s) hStart s₁ hSound hGrows b s₂ hRun

/-
  A computation that keeps the account up to its last steps:
  only where it ends is described.
-/
def Ends
    (A : Account)
    (s : ParseState)
    (p : Parse α)
    (E : ParseState → Prop) : Prop :=
  ∀ s₁, A.sound s₁ → A.grows s s₁ → ∀ a s₂, p s₁ = .ok a s₂ → E s₂

variable {E : ParseState → Prop}

theorem Keeps.ends (hFirst : A.Keeps s p Q)
    (hNext : ∀ t a, A.grows s t → Q t a → A.Ends t (f a) E) : A.Ends s (p >>= f) E := by
  intro s₁ hSound hGrows b s₂ hRun
  obtain ⟨a, t, hRun₁, hRun₂⟩ := exists_of_bind hRun
  obtain ⟨hSound₁, hGrows₁, hResult⟩ := hFirst s₁ hSound hGrows a t hRun₁
  exact hNext t a (A.trans hGrows hGrows₁) hResult t hSound₁ (A.refl t) b s₂ hRun₂

/- A first computation about whose result nothing is used. -/
theorem ends_step (hFirst : A.Runs s p) (hNext : ∀ a, A.Ends s (f a) E) : A.Ends s (p >>= f) E :=
  hFirst.ends fun _ a hGrows _ s₁ hSound hLater => hNext a s₁ hSound (A.trans hGrows hLater)

theorem ends_ite [Decidable c] (hThen : A.Ends s p E) (hElse : A.Ends s q E) :
    A.Ends s (if c then p else q) E := by
  split
  · exact hThen
  · exact hElse

/- A loop about whose state and result nothing is said. -/
theorem runs_iterate {step : σ → Parse (Sum σ β)} (hStep : ∀ x, A.Runs s (step x)) :
    A.Runs s (iterate x step) :=
  keeps_iterate (J := fun _ _ => True) (fun _ h => h)
    (fun t x hGrows _ => ((hStep x).later hGrows).mono fun _ r _ _ _ => by cases r <;> trivial)
    trivial

end Account

end CCompiler
