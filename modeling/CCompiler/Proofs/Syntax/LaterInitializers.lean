import Mathlib
import CCompiler.Proofs.Syntax.KeptValues
import CCompiler.Proofs.Syntax.StaticData
import CCompiler.Proofs.Syntax.Stepping

/-
  What is left of an earlier initializer.

  Initializers are read into a tree that may hold values
  already.  Two readings run in step as long as the expressions
  do, whatever the trees hold: the same parts are written.  So
  an initializer lays its own values over those of an earlier
  one, and the parts that it leaves out keep what they had.

  Main declarations:
    * `Init.part`, `Init.Alike`, `Init.Laid`
    * `Parse.Paired`, `Parse.Paired.bind`
    * `Initializer.Mirrors`, `Initializer.Follows`
    * `Initializer.follows_read`
    * `Initializer.later_lays_over`
-/

------------
-- Parts of Trees
------------

namespace CCompiler

namespace Init

variable {γ : Type} {i b r a c d : Init}

/- The part of a tree that a path of elements and members leads to. -/
def part : Init → List Nat → Init
| i, [] => i
| i, n :: p => (i.child n).part p

@[simp]
theorem part_nil (i : Init) : i.part [] = i := rfl

/- The type of a part, whether it is open, and how many children it has. -/
def shape (i : Init) : CType × Bool × Nat :=
  (i.type, i.isOpen, i.children.size)

theorem part_setChild (i c : Init) (n m : Nat) (p : List Nat) :
    (i.setChild n c).part (m :: p) = if m = n ∧ n < i.children.size then c.part p
      else i.part (m :: p) := by
  obtain ⟨t, o, e, cs, k⟩ := i
  change ((cs.setIfInBounds n c).getD m default).part p = if m = n ∧ n < cs.size then c.part p
    else (cs.getD m default).part p
  rw [Array.getD_eq_getD_getElem?, Array.getD_eq_getD_getElem?, Array.getElem?_setIfInBounds]
  by_cases hSame : n = m
  · subst hSame
    by_cases hInside : n < cs.size <;> simp [hInside]
  · rw [if_neg hSame, if_neg fun h => hSame h.1.symm]

@[simp]
theorem shape_setChild (i c : Init) (n : Nat) :
    (i.setChild n c).shape = i.shape := by
  obtain ⟨t, o, e, cs, k⟩ := i
  simp [setChild, shape, type, isOpen, children]

/- Trees for the same object, none of whose parts is open. -/
def Alike (i b : Init) : Prop :=
  ∀ p, (i.part p).shape = (b.part p).shape ∧ (i.part p).isOpen = false

theorem Alike.type_eq (hAlike : i.Alike b) : i.type = b.type := congrArg Prod.fst (hAlike []).1

theorem Alike.closed (hAlike : i.Alike b) : i.isOpen = false := (hAlike []).2

theorem Alike.size_eq (hAlike : i.Alike b) : i.children.size = b.children.size :=
  congrArg (·.2.2) (hAlike []).1

theorem Alike.symm (hAlike : i.Alike b) : b.Alike i :=
  fun p => ⟨(hAlike p).1.symm, (congrArg (·.2.1) (hAlike p).1).symm.trans (hAlike p).2⟩

theorem Alike.trans (hFirst : i.Alike b) (hSecond : b.Alike c) : i.Alike c :=
  fun p => ⟨(hFirst p).1.trans (hSecond p).1, (hFirst p).2⟩

theorem Alike.child (hAlike : i.Alike b) (n : Nat) : (i.child n).Alike (b.child n) :=
  fun p => hAlike (n :: p)

/- A child that is like the old one may take its place. -/
theorem Alike.setChild {n : Nat} (hAlike : i.Alike b) (hChild : (i.child n).Alike c) :
    i.Alike (b.setChild n c) := by
  rintro (_ | ⟨m, p⟩)
  · rw [part_nil, part_nil, shape_setChild]
    exact hAlike []
  · rw [part_setChild]
    split
    · rename_i hHere
      rw [hHere.1]
      exact hChild p
    · exact hAlike (m :: p)

variable {p : List Nat}

theorem part_withExpr (i : Init) (e : Option Expr) (hPath : p ≠ []) :
    (i.withExpr e).part p = i.part p := by
  cases p with
  | nil => exact absurd rfl hPath
  | cons n p => cases i; rfl

theorem part_withMember (i : Init) (m : Member) (hPath : p ≠ []) :
    (i.withMember m).part p = i.part p := by
  cases p with
  | nil => exact absurd rfl hPath
  | cons n p => cases i; rfl

@[simp]
theorem shape_withExpr (i : Init) (e : Option Expr) :
    (i.withExpr e).shape = i.shape := by
  cases i
  rfl

@[simp]
theorem shape_withMember (i : Init) (m : Member) :
    (i.withMember m).shape = i.shape := by
  cases i
  rfl

/- Parts of the same shape are all that being alike is about. -/
theorem Alike.of_shape (hAlike : i.Alike b) (hShape : c.shape = b.shape)
    (hParts : ∀ p, p ≠ [] → c.part p = b.part p) : i.Alike c := by
  intro p
  by_cases hPath : p = []
  · subst hPath
    exact ⟨(hAlike []).1.trans hShape.symm, (hAlike []).2⟩
  · rw [hParts p hPath]
    exact hAlike p

end Init

variable {n : Nat}

------------
-- Trees Without Values
------------

namespace Init

/- None of the parts of a tree is open. -/
abbrev Closed (i : Init) : Prop := i.Alike i

theorem closed_empty (t : CType) {cs : Array Init} (hChildren : ∀ c ∈ cs, c.Closed) :
    (Init.empty t false cs).Closed := by
  have hDefault : ∀ p, ((default : Init).part p).isOpen = false := by
    intro p
    induction p with
    | nil => rfl
    | cons n p ih => exact ih
  rintro (_ | ⟨n, p⟩)
  · exact ⟨rfl, rfl⟩
  · refine ⟨rfl, ?_⟩
    change ((cs.getD n default).part p).isOpen = false
    rw [Array.getD_eq_getD_getElem?]
    cases hGet : cs[n]? with
    | none => exact hDefault p
    | some c => exact (hChildren c (Array.mem_of_getElem? hGet) p).2

theorem closed_blankWith {record : CType → Bool → Init} (hRecord : ∀ t, (record t false).Closed)
    (t : CType) {isOpen : Bool} (hClosed : isOpen = false) :
    (blankWith record t isOpen).Closed := by
  fun_induction blankWith record t isOpen with
  | case1 isOpen id base n size align type hOpen =>
    rw [hClosed] at hOpen
    exact absurd hOpen (by simp)
  | case2 isOpen id base n size align type hOpen ih =>
    refine closed_empty _ fun c hChild => ?_
    rw [Array.eq_of_mem_replicate hChild]
    exact ih rfl
  | case3 isOpen t u o e c m hParts ih =>
    have hInner := ih hClosed
    rw [hParts] at hInner
    rintro (_ | ⟨n, p⟩)
    · exact ⟨rfl, (hInner []).2⟩
    · exact hInner (n :: p)
  | case4 isOpen id =>
    subst hClosed
    exact hRecord _
  | case5 isOpen t => exact closed_empty _ (by simp)

/- A tree without values that waits for no length has no open part. -/
theorem closed_blank (rs : Records) (fuel : Nat) (t : CType) : (blank rs fuel t false).Closed := by
  induction fuel generalizing t with
  | zero => exact closed_empty _ (by simp)
  | succ fuel ih =>
    refine closed_blankWith (fun t => closed_empty _ ?_) t rfl
    intro c hChild
    simp only [List.mem_toArray, List.mem_map] at hChild
    obtain ⟨m, -, rfl⟩ := hChild
    exact ih _

------------
-- Values Laid Over Trees
------------

variable {γ : Type} {g : Init → γ} {S : γ → γ → Prop}
  {E : Expr → Expr → Prop} {i b r a r' a' c d : Init}

/-
  Two trees are changed in step: in each part they now agree,
  or both are what they were.
-/
def Over (g : Init → γ) (S : γ → γ → Prop) (i b r a : Init) : Prop :=
  ∀ p, S (g (r.part p)) (g (a.part p)) ∨
    g (r.part p) = g (i.part p) ∧ g (a.part p) = g (b.part p)

theorem Over.refl : Over g S i b i b := fun _ => .inr ⟨rfl, rfl⟩

theorem Over.trans (hFirst : Over g S i b r a) (hSecond : Over g S r a r' a') :
    Over g S i b r' a' := by
  intro p
  rcases hSecond p with hNew | ⟨hLeft, hRight⟩
  · exact .inl hNew
  · rw [hLeft, hRight]
    exact hFirst p

/- A change at the root alone. -/
theorem Over.root (hRoot : S (g r) (g a) ∨ g r = g i ∧ g a = g b)
    (hLeft : ∀ p, p ≠ [] → r.part p = i.part p) (hRight : ∀ p, p ≠ [] → a.part p = b.part p) :
    Over g S i b r a := by
  intro p
  by_cases hPath : p = []
  · subst hPath
    exact hRoot
  · exact .inr ⟨by rw [hLeft p hPath], by rw [hRight p hPath]⟩

theorem Over.setChild {n : Nat} (hOwn : ∀ (i c : Init), g (i.setChild n c) = g i)
    (hAlike : i.Alike b) (hChild : Over g S (i.child n) (b.child n) c d) :
    Over g S i b (i.setChild n c) (b.setChild n d) := by
  rintro (_ | ⟨m, p⟩)
  · exact .inr ⟨hOwn _ _, hOwn _ _⟩
  · rw [part_setChild, part_setChild, ← hAlike.size_eq]
    split
    · rename_i hHere
      rw [hHere.1]
      exact hChild p
    · exact .inr ⟨rfl, rfl⟩

/-
  The same values are laid over two trees: from the first and
  the second come the third and the fourth.
-/
structure Laid (E : Expr → Expr → Prop) (i b r a : Init) : Prop where
  left : i.Alike r
  right : b.Alike a
  value : Over expr? (Option.Rel E) i b r a
  choice : Over member? Eq i b r a

theorem Laid.alike (hLaid : Laid E i b r a) (hAlike : i.Alike b) : r.Alike a :=
  hLaid.left.symm.trans (hAlike.trans hLaid.right)

theorem Laid.refl (hAlike : i.Alike b) : Laid E i b i b where
  left := hAlike.trans hAlike.symm
  right := hAlike.symm.trans hAlike
  value := .refl
  choice := .refl

theorem Laid.trans (hFirst : Laid E i b r a) (hSecond : Laid E r a r' a') : Laid E i b r' a' where
  left := hFirst.left.trans hSecond.left
  right := hFirst.right.trans hSecond.right
  value := hFirst.value.trans hSecond.value
  choice := hFirst.choice.trans hSecond.choice

theorem Laid.setChild {n : Nat} (hAlike : i.Alike b) (hChild : Laid E (i.child n) (b.child n) c d) :
    Laid E i b (i.setChild n c) (b.setChild n d) where
  left := (hAlike.trans hAlike.symm).setChild hChild.left
  right := (hAlike.symm.trans hAlike).setChild hChild.right
  value := .setChild (by rintro ⟨⟩ _; rfl) hAlike hChild.value
  choice := .setChild (by rintro ⟨⟩ _; rfl) hAlike hChild.choice

theorem Laid.withExpr {e f : Option Expr} (hAlike : i.Alike b) (hSame : Option.Rel E e f) :
    Laid E i b (i.withExpr e) (b.withExpr f) where
  left := (hAlike.trans hAlike.symm).of_shape (shape_withExpr _ _) fun _ => part_withExpr i e
  right := (hAlike.symm.trans hAlike).of_shape (shape_withExpr _ _) fun _ => part_withExpr b f
  value := .root (.inl (by cases i; cases b; exact hSame))
    (fun _ => part_withExpr i e) (fun _ => part_withExpr b f)
  choice := .root (.inr ⟨by cases i; rfl, by cases b; rfl⟩)
    (fun _ => part_withExpr i e) (fun _ => part_withExpr b f)

theorem Laid.withMember (hAlike : i.Alike b) (m : Member) :
    Laid E i b (i.withMember m) (b.withMember m) where
  left := (hAlike.trans hAlike.symm).of_shape (shape_withMember _ _) fun _ => part_withMember i m
  right := (hAlike.symm.trans hAlike).of_shape (shape_withMember _ _) fun _ => part_withMember b m
  value := .root (.inr ⟨by cases i; rfl, by cases b; rfl⟩)
    (fun _ => part_withMember i m) (fun _ => part_withMember b m)
  choice := .root (.inl (by cases i; cases b; rfl))
    (fun _ => part_withMember i m) (fun _ => part_withMember b m)

/- A child of a tree over which something has been laid. -/
theorem Laid.thenChild (hAlike : i.Alike b) (hLaid : Laid E i b r a)
    (hChild : Laid E (r.child n) (a.child n) c d) : Laid E i b (r.setChild n c) (a.setChild n d) :=
  hLaid.trans (.setChild (hLaid.alike hAlike) hChild)

theorem Laid.setExprs (hSame : ∀ e, E e e) (hAlike : i.Alike b) (values : List Expr) :
    Laid E i b (i.setExprs values) (b.setExprs values) := by
  unfold Init.setExprs
  generalize values.zipIdx = xs
  induction xs generalizing i b with
  | nil => exact .refl hAlike
  | cons x xs ih =>
    have hFirst : Laid E i b (i.setChild x.2 ((i.child x.2).withExpr (some x.1)))
        (b.setChild x.2 ((b.child x.2).withExpr (some x.1))) :=
      .setChild hAlike (.withExpr (hAlike.child _) (.some (hSame _)))
    exact hFirst.trans (ih (hFirst.alike hAlike))

end Init

------------
-- Readings in Step
------------

namespace Parse

variable {α α' β β' σ σ' : Type}

/-
  Two computations run in step: from states that go together
  the second gives a result whenever the first does, with
  states and results that go together.
-/
def Paired
    (R : ParseState → ParseState → Prop)
    (Q : α → β → Prop)
    (p : Parse α)
    (q : Parse β) : Prop :=
  ∀ s t a s', R s t → p s = .ok a s' → ∃ b t', q t = .ok b t' ∧ R s' t' ∧ Q a b

variable {R : ParseState → ParseState → Prop} {Q : α → β → Prop}
  {Q' : α' → β' → Prop} {p : Parse α} {q : Parse β}
  {f : α → Parse α'} {g : β → Parse β'}

theorem paired_pure {a : α} {b : β} (hResult : Q a b) : Paired R Q (pure a) (pure b) := by
  rintro s t _ _ hStates ⟨⟩
  exact ⟨b, t, rfl, hStates, hResult⟩

theorem paired_throw (e : Failure) : Paired R Q (throw e : Parse α) q := by rintro s t _ _ _ ⟨⟩

theorem paired_fail (t : Token) (cause : Fault) : Paired R Q (fail t cause : Parse α) q :=
  paired_throw _

/- One computation after another. -/
theorem Paired.bind (hFirst : Paired R Q p q) (hNext : ∀ a b, Q a b → Paired R Q' (f a) (g b)) :
    Paired R Q' (p >>= f) (q >>= g) := by
  intro s t a s' hStates hRun
  obtain ⟨x, s₁, hFirstRun, hNextRun⟩ := exists_of_bind hRun
  obtain ⟨y, t₁, hOther, hStates₁, hResult⟩ := hFirst s t x s₁ hStates hFirstRun
  obtain ⟨b, t', hOtherNext, hEnd⟩ := hNext x y hResult s₁ t₁ a s' hStates₁ hNextRun
  exact ⟨b, t', by rw [run_bind hOther, hOtherNext], hEnd⟩

theorem Paired.mono {Q'' : α → β → Prop} (hPaired : Paired R Q p q)
    (hWeaker : ∀ a b, Q a b → Q'' a b) : Paired R Q'' p q := by
  intro s t a s' hStates hRun
  obtain ⟨b, t', hOther, hStates', hResult⟩ := hPaired s t a s' hStates hRun
  exact ⟨b, t', hOther, hStates', hWeaker a b hResult⟩

/- A first computation with the same result in both. -/
theorem Paired.step {q : Parse α} {g : α → Parse β'} (hFirst : Paired R Eq p q)
    (hNext : ∀ a, Paired R Q' (f a) (g a)) : Paired R Q' (p >>= f) (q >>= g) :=
  hFirst.bind fun a _ hSame => hSame ▸ hNext a

theorem paired_fail_bind {q : Parse β'} (t : Token) (cause : Fault) :
    Paired R Q' ((fail t cause : Parse α) >>= f) q := by
  intro s _ a s' _ hRun
  obtain ⟨x, s₁, hNever, -⟩ := exists_of_bind hRun
  cases hNever

theorem paired_ite {c : Prop} [Decidable c] {p' : Parse α} {q' : Parse β}
    (hThen : c → Paired R Q p q) (hElse : ¬ c → Paired R Q p' q') :
    Paired R Q (if c then p else p') (if c then q else q') := by
  split
  · exact hThen ‹_›
  · exact hElse ‹_›

variable {J : σ → σ' → Prop} {x : σ} {y : σ'}

theorem paired_foldlM {ι : Type} {step : σ → ι → Parse σ} {step' : σ' → ι → Parse σ'}
    (hStep : ∀ x y n, J x y → Paired R J (step x n) (step' y n)) (ns : List ι) (hStart : J x y) :
    Paired R J (ns.foldlM step x) (ns.foldlM step' y) := by
  induction ns generalizing x y with
  | nil => exact paired_pure hStart
  | cons n ns ih =>
    rw [List.foldlM_cons, List.foldlM_cons]
    exact (hStep x y n hStart).bind fun _ _ hNext => ih hNext

/- Loops whose rounds run in step. -/
theorem paired_iterate {step : σ → Parse (Sum σ β)} {step' : σ' → Parse (Sum σ' β')}
    {Q : β → β' → Prop} (hLimit : ∀ {s t}, R s t → s.limit = t.limit)
    (hStep : ∀ x y, J x y → Paired R (Sum.LiftRel J Q) (step x) (step' y)) (hStart : J x y) :
    Paired R Q (iterate x step) (iterate y step') := by
  have hAll : ∀ n x y, J x y → Paired R Q (repeatN step n x) (repeatN step' n y) := by
    intro n
    induction n with
    | zero => exact fun _ _ _ => paired_throw _
    | succ n ih =>
      intro x y hJ
      refine (hStep x y hJ).bind fun u v hResult => ?_
      cases hResult with
      | inl hNext => exact ih _ _ hNext
      | inr hEnd => exact paired_pure hEnd
  intro s t a s' hStates hRun
  rw [iterate_apply] at hRun ⊢
  rw [← hLimit hStates]
  exact hAll _ x y hStart s t a s' hStates hRun

/- Every computation runs in step with itself. -/
theorem paired_self (p : Parse α) : Paired Eq Eq p p := by
  rintro s _ a s' rfl hRun
  exact ⟨a, s', hRun, rfl, rfl⟩

/- What is read off states that agree on it. -/
theorem paired_get {h : ParseState → α} (hSame : ∀ {s t}, R s t → h s = h t) :
    Paired R Eq (do return h (← get)) (do return h (← get)) := by
  rintro s t _ _ hStates ⟨⟩
  exact ⟨h t, t, rfl, hStates, hSame hStates⟩

end Parse

------------
-- Steps Over Tokens
------------

namespace Initializer

open Parse Grammar

/-
  States from which expressions are read in step.  They stand
  at the same place and have the same records, and looking
  ahead leads back to states that go together again.
-/
structure Mirrors
    (read : Reader)
    (R : ParseState → ParseState → Prop)
    (E : Expr → Expr → Prop) : Prop where
  toks : ∀ {s t}, R s t → s.toks = t.toks
  limit : ∀ {s t}, R s t → s.limit = t.limit
  records : ∀ {s t}, R s t → s.records = t.records
  advance : Paired R Eq advance advance
  rewind : ∀ {s t s₀ t₀}, R s t → R s₀ t₀ →
    R (s.before s₀.toks) (t.before t₀.toks)
  same : ∀ e, E e e
  assign : Paired R E (read .assign) (read .assign)
  typed : Paired R
    (fun e f => E e f ∧ ∀ rs, e.type.isStruct rs = f.type.isStruct rs)
    (read .assign >>= Typing.addType) (read .assign >>= Typing.addType)
  constant : Paired R Eq (constExpr read) (constExpr read)

/- From one and the same state everything is read in step. -/
theorem mirrors_eq (read : Reader) : Mirrors read Eq Eq where
  toks := congrArg _
  limit := congrArg _
  records := congrArg _
  advance := paired_self _
  rewind := by rintro s _ s₀ _ rfl rfl; rfl
  same _ := rfl
  assign := paired_self _
  typed := by
    rintro s _ e s' rfl hRun
    exact ⟨e, s', hRun, rfl, rfl, fun _ => rfl⟩
  constant := paired_self _

variable {read : Reader} {R : ParseState → ParseState → Prop}
  {E : Expr → Expr → Prop} {σ σ' : Type} {α α' : Type}
  {Q : α → α' → Prop} {i b : Init}

section

variable (hMirrors : Mirrors read R E)
include hMirrors

theorem paired_tok : Paired R Eq tok tok := paired_get fun hStates => by rw [hMirrors.toks hStates]

theorem paired_next : Paired R Eq next? next? :=
  paired_get fun hStates => by rw [hMirrors.toks hStates]

theorem paired_records : Paired R Eq Parse.records Parse.records := paired_get hMirrors.records

theorem paired_check (w : String) : Paired R Eq (check w) (check w) :=
  (paired_tok hMirrors).step fun _ => paired_pure rfl

theorem paired_checkAny (ws : List String) : Paired R Eq (checkAny ws) (checkAny ws) :=
  (paired_tok hMirrors).step fun _ => paired_pure rfl

theorem paired_peekIs (w : String) : Paired R Eq (peekIs w) (peekIs w) :=
  (paired_next hMirrors).step fun _ => paired_pure rfl

theorem paired_accept (w : String) : Paired R Eq (accept w) (accept w) :=
  (paired_check hMirrors w).step fun _ => paired_ite
    (fun _ => hMirrors.advance.step fun _ => paired_pure rfl)
    (fun _ => paired_pure rfl)

theorem paired_expect (w : String) : Paired R Eq (expect w) (expect w) :=
  (paired_accept hMirrors w).step fun _ => paired_ite
    (fun _ => (paired_tok hMirrors).step fun _ => paired_fail _ _)
    (fun _ => paired_pure rfl)

/- A separator, unless it is the first round. -/
theorem paired_separated {c : Prop} [Decidable c] {w : String} {p : Parse α} {q : Parse α'}
    (hNext : Paired R Q p q) :
    Paired R Q (do
      if c then expect w
      p) (do
      if c then expect w
      q) := paired_ite (fun _ => (paired_expect hMirrors w).step fun _ => hNext) (fun _ => hNext)

theorem paired_atListEnd : Paired R Eq atListEnd atListEnd :=
  (paired_check hMirrors _).step fun _ => paired_ite (fun _ => paired_pure rfl)
    (fun _ => (paired_check hMirrors _).step fun _ => paired_ite
      (fun _ => paired_peekIs hMirrors _) (fun _ => paired_pure rfl))

theorem paired_acceptListEnd : Paired R Eq acceptListEnd acceptListEnd :=
  (paired_accept hMirrors _).step fun _ => paired_ite (fun _ => paired_pure rfl)
    (fun _ => (paired_check hMirrors _).step fun _ => paired_ite
      (fun _ => (paired_peekIs hMirrors _).step fun _ => paired_ite
        (fun _ => hMirrors.advance.step fun _ => hMirrors.advance.step fun _ => paired_pure rfl)
        (fun _ => paired_pure rfl)) (fun _ => paired_pure rfl))

/- Looking ahead: the place is kept, and gone back to. -/
theorem paired_cursor {f : List Token → Parse α} {g : List Token → Parse α'}
    (hNext : ∀ start, Paired R Eq (rewind start) (rewind start) →
      Paired R Q (f start) (g start)) : Paired R Q (cursor >>= f) (cursor >>= g) := by
  intro s t a s' hStates hRun
  have hBack : Paired R Eq (rewind s.toks) (rewind s.toks) := by
    rintro u v _ _ hLater ⟨⟩
    refine ⟨(), v.before s.toks, rfl, ?_, rfl⟩
    have hSame := hMirrors.rewind hLater hStates
    rwa [← hMirrors.toks hStates] at hSame
  obtain ⟨x, t', hOther, hEnd⟩ := hNext s.toks hBack s t a s' hStates hRun
  refine ⟨x, t', ?_, hEnd⟩
  rw [hMirrors.toks hStates] at hOther
  exact hOther

theorem paired_arrayDesignator (type : CType) :
    Paired R Eq (arrayDesignator read type) (arrayDesignator read type) := by
  refine (paired_expect hMirrors _).step fun _ =>
    hMirrors.constant.step fun first => paired_ite (fun _ => (paired_tok hMirrors).step fun _ =>
        paired_fail_bind _ _) fun _ => ?_
  have hEnd : ∀ last : Int, Paired R Eq (do expect "]"; return (first.toInt, last))
      (do expect "]"; return (first.toInt, last)) := fun _ =>
    (paired_expect hMirrors _).step fun _ => paired_pure rfl
  refine (paired_accept hMirrors _).step fun _ => paired_ite
    (fun _ => hMirrors.constant.step fun last => ?_) fun _ => hEnd _
  refine paired_ite (fun _ => (paired_tok hMirrors).step fun _ => paired_fail_bind _ _) fun _ => ?_
  exact paired_ite (fun _ => (paired_tok hMirrors).step fun _ =>
    paired_fail_bind _ _) fun _ => hEnd _

theorem paired_memberDesignator (type : CType) :
    Paired R Eq (memberDesignator type) (memberDesignator type) := by
  refine paired_cursor hMirrors fun start hBack =>
    (paired_expect hMirrors _).step fun _ =>
    (paired_tok hMirrors).step fun t => paired_ite (fun _ => paired_fail_bind _ _) fun _ =>
    (paired_records hMirrors).step fun rs => ?_
  cases Operator.findMember? rs type t.text with
  | none => exact paired_fail _ _
  | some m =>
    exact paired_ite (fun _ => hMirrors.advance.step fun _ => paired_pure rfl)
      (fun _ => hBack.step fun _ => paired_pure rfl)

theorem paired_stringInit (hAlike : i.Alike b) :
    Paired R (Init.Laid E i b) (stringInit i) (stringInit b) := by
  refine (paired_tok hMirrors).step fun t => ?_
  cases t.kind with
  | str elem bytes =>
    dsimp only
    rw [hAlike.closed, hAlike.symm.closed, if_neg Bool.false_ne_true, if_neg Bool.false_ne_true,
      pure_bind, pure_bind, hAlike.type_eq]
    exact hMirrors.advance.step fun _ => paired_pure (.setExprs hMirrors.same hAlike _)
  | _ => exact paired_throw _

end

/- The phrases of initializers are read in step, into trees that are alike. -/
structure Follows
    (read : Reader)
    (R : ParseState → ParseState → Prop)
    (E : Expr → Expr → Prop) : Prop where
  initializer : ∀ {i b}, i.Alike b →
    Paired R (Init.Laid E i b) (read (.initializer i))
      (read (.initializer b))
  designation : ∀ {i b}, i.Alike b →
    Paired R (Init.Laid E i b) (read (.designation i))
      (read (.designation b))
  skipExcess : Paired R Eq (read .skipExcess) (read .skipExcess)

theorem settleLength_closed (hClosed : i.isOpen = false) : settleLength read i = pure i := by
  unfold settleLength
  rw [hClosed, if_neg Bool.false_ne_true]

/- Loops are at the same place, with the same values laid over their trees. -/
abbrev SameAt
    {κ : Type}
    (E : Expr → Expr → Prop)
    (i b : Init)
    (x y : Bool × κ × Init) : Prop :=
  x.1 = y.1 ∧ x.2.1 = y.2.1 ∧ Init.Laid E i b x.2.2 y.2.2

/- A child is read and put back, and the loop goes on. -/
theorem paired_child {p q : Parse Init} {J : σ → σ' → Prop} {D : Init → Init → Prop} {r a : Init}
    (hAlike : i.Alike b) (hLaid : Init.Laid E i b r a)
    (hRead : Paired R (Init.Laid E (r.child n) (a.child n)) p q) (next : Init → σ)
    (next' : Init → σ') (hNext : ∀ r a, Init.Laid E i b r a → J (next r) (next' a)) :
    Paired R (Sum.LiftRel J D) (do
        let c ← p
        return .inl (next (r.setChild n c)))
      (do
        let c ← q
        return .inl (next' (a.setChild n c))) :=
  hRead.bind fun _ _ hChild => paired_pure (.inl (hNext _ _ (hLaid.thenChild hAlike hChild)))

section

variable (hMirrors : Mirrors read R E) (hFollows : Follows read R E)
include hMirrors hFollows

theorem paired_skipExcess : Paired R Eq (skipExcess read) (skipExcess read) :=
  (paired_accept hMirrors _).step fun _ => paired_ite (fun _ => hFollows.skipExcess.step fun _ =>
      paired_expect hMirrors _)
    (fun _ => hMirrors.assign.bind fun _ _ _ => paired_pure rfl)

theorem paired_rangeInit (hAlike : i.Alike b) (first last : Int) :
    Paired R (Init.Laid E i b) (rangeInit read i first last) (rangeInit read b first last) := by
  refine paired_cursor hMirrors fun start hBack =>
    paired_foldlM (fun r a n hLaid => hBack.step fun _ => ?_) _ (.refl hAlike)
  exact (hFollows.designation ((hLaid.alike hAlike).child n)).bind
    fun _ _ hChild => paired_pure (hLaid.thenChild hAlike hChild)

theorem paired_arrayBraced (hAlike : i.Alike b) :
    Paired R (Init.Laid E i b) (arrayBraced read i) (arrayBraced read b) := by
  refine (paired_expect hMirrors _).step fun _ => ?_
  rw [settleLength_closed hAlike.closed,
    settleLength_closed hAlike.symm.closed, pure_bind, pure_bind]
  refine paired_iterate hMirrors.limit (J := SameAt E i b) ?_ ⟨rfl, rfl, .refl hAlike⟩
  rintro ⟨first, k, r⟩ ⟨_, _, a⟩ ⟨rfl, rfl, hLaid⟩
  have hNow := hLaid.alike hAlike
  have hType := hNow.type_eq
  refine (paired_acceptListEnd hMirrors).step fun _ => paired_ite
    (fun _ => paired_pure (.inr hLaid)) fun _ =>
    paired_separated hMirrors ?_
  dsimp only
  rw [hType]
  refine (paired_check hMirrors _).step fun _ => paired_ite
    (fun _ => (paired_arrayDesignator hMirrors _).step fun d => ?_)
    fun _ => paired_ite (fun _ => ?_) fun _ =>
      (paired_skipExcess hMirrors hFollows).step fun _ => paired_pure (.inl ⟨rfl, rfl, hLaid⟩)
  · exact (paired_rangeInit hMirrors hFollows hNow d.1 d.2).bind fun _ _ hRange => paired_pure
        (.inl ⟨rfl, rfl, hLaid.trans hRange⟩)
  · exact paired_child hAlike hLaid (hFollows.initializer (hNow.child _))
      (fun r => (false, k + 1, r)) (fun a => (false, k + 1, a))
      fun _ _ h => ⟨rfl, rfl, h⟩

theorem paired_arrayUnbraced (hAlike : i.Alike b) (k : Int) :
    Paired R (Init.Laid E i b) (arrayUnbraced read i k) (arrayUnbraced read b k) := by
  unfold arrayUnbraced
  rw [settleLength_closed hAlike.closed,
    settleLength_closed hAlike.symm.closed, pure_bind, pure_bind]
  refine paired_iterate hMirrors.limit (J := fun x y => x.1 = y.1 ∧ Init.Laid E i b x.2 y.2) ?_
    ⟨rfl, .refl hAlike⟩
  rintro ⟨k, r⟩ ⟨_, a⟩ ⟨rfl, hLaid⟩
  have hNow := hLaid.alike hAlike
  dsimp only
  rw [hNow.type_eq]
  refine (paired_atListEnd hMirrors).step fun _ => paired_ite
    (fun _ => paired_pure (.inr hLaid)) fun _ =>
    paired_cursor hMirrors fun start hBack =>
    paired_separated hMirrors ?_
  exact (paired_checkAny hMirrors _).step fun _ => paired_ite
    (fun _ => hBack.step fun _ => paired_pure (.inr hLaid))
    fun _ => paired_child hAlike hLaid (hFollows.initializer (hNow.child _))
      (fun r => (k + 1, r)) (fun a => (k + 1, a)) fun _ _ h => ⟨rfl, h⟩

theorem paired_structBraced (hAlike : i.Alike b) :
    Paired R (Init.Laid E i b) (structBraced read i) (structBraced read b) := by
  refine (paired_expect hMirrors _).step fun _ => (paired_records hMirrors).step fun rs => ?_
  rw [hAlike.type_eq]
  generalize b.type.members rs = ms
  refine paired_iterate hMirrors.limit (J := SameAt E i b) ?_ ⟨rfl, rfl, .refl hAlike⟩
  rintro ⟨first, k, r⟩ ⟨_, _, a⟩ ⟨rfl, rfl, hLaid⟩
  have hNow := hLaid.alike hAlike
  refine (paired_acceptListEnd hMirrors).step fun _ => paired_ite
    (fun _ => paired_pure (.inr hLaid)) fun _ =>
    paired_separated hMirrors ?_
  dsimp only
  rw [hNow.type_eq]
  refine (paired_check hMirrors _).step fun _ => paired_ite
    (fun _ => (paired_memberDesignator hMirrors _).step fun m => ?_)
    fun _ => paired_ite (fun _ => ?_) fun _ =>
      (paired_skipExcess hMirrors hFollows).step fun _ => paired_pure (.inl ⟨rfl, rfl, hLaid⟩)
  · exact paired_child hAlike hLaid (hFollows.designation (hNow.child _))
      (fun r => (false, nextMember ms (m.index + 1), r))
      (fun a => (false, nextMember ms (m.index + 1), a))
      fun _ _ h => ⟨rfl, rfl, h⟩
  · exact paired_child hAlike hLaid (hFollows.initializer (hNow.child _))
      (fun r => (false, nextMember ms (k + 1), r))
      (fun a => (false, nextMember ms (k + 1), a))
      fun _ _ h => ⟨rfl, rfl, h⟩

theorem paired_structUnbraced (hAlike : i.Alike b) (k : Nat) (comma : Bool) :
    Paired R (Init.Laid E i b) (structUnbraced read i k comma) (structUnbraced read b k comma) := by
  refine (paired_records hMirrors).step fun rs => ?_
  rw [hAlike.type_eq]
  generalize b.type.members rs = ms
  refine paired_iterate hMirrors.limit (J := SameAt E i b) ?_ ⟨rfl, rfl, .refl hAlike⟩
  rintro ⟨comma, k, r⟩ ⟨_, _, a⟩ ⟨rfl, rfl, hLaid⟩
  have hNow := hLaid.alike hAlike
  refine (paired_atListEnd hMirrors).step fun _ => paired_ite
    (fun _ => paired_pure (.inr hLaid)) fun _ =>
    paired_cursor hMirrors fun start hBack =>
    paired_separated hMirrors ?_
  exact (paired_checkAny hMirrors _).step fun _ => paired_ite
    (fun _ => hBack.step fun _ => paired_pure (.inr hLaid))
    fun _ => paired_child hAlike hLaid (hFollows.initializer (hNow.child _))
      (fun r => (true, nextMember ms (k + 1), r))
      (fun a => (true, nextMember ms (k + 1), a))
      fun _ _ h => ⟨rfl, rfl, h⟩

theorem paired_unionInit (hAlike : i.Alike b) :
    Paired R (Init.Laid E i b) (unionInit read i) (unionInit read b) := by
  refine (paired_records hMirrors).step fun rs => ?_
  rw [hAlike.type_eq]
  cases b.type.members rs with
  | nil => exact (paired_tok hMirrors).step fun _ => paired_fail _ _
  | cons m ms =>
    have hEnd : ∀ {m : Member} {n : Nat} {c d : Init}, Init.Laid E ((i.withMember m).child n)
          ((b.withMember m).child n) c d →
        Init.Laid E i b ((i.withMember m).setChild n c) ((b.withMember m).setChild n d) :=
      Init.Laid.thenChild hAlike (.withMember hAlike _)
    have hChild : ∀ (m : Member) n, ((i.withMember m).child n).Alike ((b.withMember m).child n) :=
      fun m n => ((Init.Laid.withMember (E := E) hAlike m).alike hAlike).child n
    have hRest : ∀ {m : Member} {n : Nat} {c d : Init}, Init.Laid E ((i.withMember m).child n)
          ((b.withMember m).child n) c d → Paired R (Init.Laid E i b)
          (do
            let _ ← accept ","
            expect "\x7d"
            return (i.withMember m).setChild n c)
          (do
            let _ ← accept ","
            expect "\x7d"
            return (b.withMember m).setChild n d) := fun hLaid =>
      (paired_accept hMirrors _).step fun _ =>
        (paired_expect hMirrors _).step fun _ => paired_pure (hEnd hLaid)
    refine (paired_check hMirrors _).step fun _ =>
      (paired_peekIs hMirrors _).step fun _ => paired_ite
        (fun _ => hMirrors.advance.step fun _ => ?_) fun _ =>
        (paired_accept hMirrors _).step fun _ => paired_ite
          (fun _ => (hFollows.initializer (hChild m 0)).bind fun _ _ h => hRest h)
          (fun _ => (hFollows.initializer (hChild m 0)).bind fun _ _ h => paired_pure (hEnd h))
    refine (paired_memberDesignator hMirrors _).step fun m => ?_
    have hSame : ∀ (j : Init) n, j.child n = (j.withMember m).child n := by
      rintro ⟨⟩ n
      rfl
    rw [hSame i, hSame b]
    exact (hFollows.designation (hChild m _)).bind fun _ _ h => hRest h

theorem paired_structInit (hAlike : i.Alike b) :
    Paired R (Init.Laid E i b) (structInit read i) (structInit read b) := by
  refine (paired_check hMirrors _).step fun _ => paired_ite
    (fun _ => paired_structBraced hMirrors hFollows hAlike) fun _ =>
    paired_cursor hMirrors fun start hBack => ?_
  simp only [← bind_assoc]
  refine hMirrors.typed.bind fun e f hTyped => (paired_records hMirrors).step fun rs => ?_
  rw [hTyped.2 rs]
  exact paired_ite (fun _ => paired_pure (.withExpr hAlike (.some hTyped.1)))
    (fun _ => hBack.step fun _ => paired_structUnbraced hMirrors hFollows hAlike 0 false)

theorem paired_scalarInit (hAlike : i.Alike b) :
    Paired R (Init.Laid E i b) (scalarInit read i) (scalarInit read b) :=
  (paired_accept hMirrors _).step fun _ => paired_ite
    (fun _ => (hFollows.initializer hAlike).bind fun _ _ hLaid =>
      (paired_accept hMirrors _).step fun _ =>
      (paired_expect hMirrors _).step fun _ => paired_pure hLaid)
    (fun _ => hMirrors.assign.bind fun _ _ hSame => paired_pure (.withExpr hAlike (.some hSame)))

theorem paired_initializer (hAlike : i.Alike b) :
    Paired R (Init.Laid E i b) (initializer read i) (initializer read b) := by
  refine (paired_records hMirrors).step fun rs => ?_
  rw [hAlike.type_eq]
  refine paired_ite (fun _ => ?_) fun _ => paired_ite
    (fun _ => paired_structInit hMirrors hFollows hAlike) fun _ =>
    paired_ite (fun _ => paired_unionInit hMirrors hFollows hAlike)
      (fun _ => paired_scalarInit hMirrors hFollows hAlike)
  exact (paired_tok hMirrors).step fun _ => paired_ite
    (fun _ => paired_stringInit hMirrors hAlike) fun _ =>
    (paired_check hMirrors _).step fun _ => paired_ite
      (fun _ => paired_arrayBraced hMirrors hFollows hAlike)
      (fun _ => paired_arrayUnbraced hMirrors hFollows hAlike 0)

theorem paired_designation (hAlike : i.Alike b) :
    Paired R (Init.Laid E i b) (designation read i) (designation read b) := by
  refine (paired_records hMirrors).step fun rs => ?_
  rw [hAlike.type_eq]
  refine (paired_check hMirrors _).step fun _ => paired_ite
    (fun _ => paired_ite (fun _ => (paired_tok hMirrors).step fun _ =>
      paired_fail_bind _ _) fun _ => ?_) fun _ =>
    (paired_check hMirrors _).step fun _ => paired_ite
      (fun _ => paired_ite (fun _ => ?_) fun _ => paired_ite
        (fun _ => ?_) fun _ => (paired_tok hMirrors).step fun _ =>
          paired_fail _ _) fun _ =>
    (paired_accept hMirrors _).step fun _ => hFollows.initializer hAlike
  · refine (paired_arrayDesignator hMirrors _).step fun d =>
      (paired_rangeInit hMirrors hFollows hAlike d.1 d.2).bind fun r a hRange => ?_
    exact (paired_arrayUnbraced hMirrors hFollows
      (hRange.alike hAlike) _).mono fun _ _ => hRange.trans
  · refine (paired_memberDesignator hMirrors _).step fun m =>
      (hFollows.designation (hAlike.child _)).bind fun c d hChild => ?_
    have hSet := Init.Laid.setChild hAlike hChild
    have hLaid := hSet.trans (.withExpr (hSet.alike hAlike) (e := none) (f := none) .none)
    exact (paired_structUnbraced hMirrors hFollows
      (hLaid.alike hAlike) _ _).mono fun _ _ => hLaid.trans
  · refine (paired_memberDesignator hMirrors _).step fun m =>
      (hFollows.designation (hAlike.child _)).bind fun c d hChild => paired_pure ?_
    have hChosen := Init.Laid.withMember (E := E) hAlike m
    refine hChosen.thenChild hAlike ?_
    revert hChild
    cases i
    cases b
    exact id

end

end Initializer

variable {s : ParseState}

------------
-- Whole Readings
------------

namespace Initializer

open Parse

variable {R : ParseState → ParseState → Prop} {E : Expr → Expr → Prop}

/-
  If expressions are read in step at every depth, so are
  initializers, by induction on the depth.
-/
theorem follows_read (hMirrors : ∀ k < n, Mirrors (TranslationUnit.read k) R E) :
    Follows (TranslationUnit.read n) R E := by
  induction n with
  | zero => exact ⟨fun _ => paired_throw _, fun _ => paired_throw _, paired_throw _⟩
  | succ n ih =>
    have hNow := hMirrors n n.lt_succ_self
    have hInner := ih fun k hk => hMirrors k (hk.trans n.lt_succ_self)
    exact ⟨fun hAlike => paired_initializer hNow hInner hAlike,
      fun hAlike => paired_designation hNow hInner hAlike,
      paired_skipExcess hNow hInner⟩

/- From one state the same values are laid over trees that are alike. -/
theorem laid_read {phrase : Init → Phrase Init} {i b r : Init} {s' : ParseState}
    (hPhrase : phrase = .initializer ∨ phrase = .designation) (hAlike : i.Alike b)
    (hRead : TranslationUnit.read n (phrase i) s = .ok r s') :
    ∃ a, TranslationUnit.read n (phrase b) s = .ok a s' ∧ Init.Laid Eq i b r a := by
  have hFollows : Follows (TranslationUnit.read n) Eq Eq := follows_read fun _ _ => mirrors_eq _
  have hPaired : Paired Eq (Init.Laid Eq i b) (TranslationUnit.read n (phrase i))
      (TranslationUnit.read n (phrase b)) := by
    rcases hPhrase with rfl | rfl
    · exact hFollows.initializer hAlike
    · exact hFollows.designation hAlike
  obtain ⟨a, _, hOther, rfl, hLaid⟩ := hPaired s s r s' rfl hRead
  exact ⟨a, hOther, hLaid⟩

end Initializer

namespace Init

variable {γ : Type} {g : Init → γ}

/-
  In some of its parts a tree has what one tree has, and in all
  others what another one has.
-/
def Replaces
    (g : Init → γ)
    (W : Set (List Nat))
    (old new r : Init) : Prop :=
  (∀ p ∈ W, g (r.part p) = g (new.part p)) ∧
    ∀ p ∉ W, g (r.part p) = g (old.part p)

theorem eq_of_rel {e f : Option Expr} (hSame : Option.Rel Eq e f) : e = f := by
  cases hSame with
  | some hSame => rw [hSame]
  | none => rfl

/-
  If any two trees are changed in step, then the parts that are
  replaced are the same in all of them: the parts where the
  outcome does not depend on the tree.
-/
theorem exists_replaces {D : Init → Prop} {f : Init → Init} {b : Init} (hStart : D b)
    (hOver : ∀ i j, D i → D j → Over g Eq i j (f i) (f j)) :
    ∃ W, ∀ i, D i → Replaces g W i (f b) (f i) := by
  refine ⟨{p | ∀ i, D i → g ((f i).part p) = g ((f b).part p)},
    fun i hTree => ⟨fun p hFixed => hFixed i hTree, fun p hFree => ?_⟩⟩
  simp only [Set.mem_ofPred_eq, not_forall] at hFree
  obtain ⟨j, hOther, hDiffers⟩ := hFree
  rcases hOver i b hTree hStart p with hSame | hKept
  · rcases hOver i j hTree hOther p with hAgain | hKept
    · exact absurd (hAgain.symm.trans hSame) hDiffers
    · exact hKept.1
  · exact hKept.1

end Init

namespace Initializer

open Init Parse

/-
  An initializer gives values to certain parts of an object, and
  chooses members for certain parts, whatever the tree of the
  object holds already: in these parts the tree comes to hold
  what the initializer alone gives, and all other parts keep what
  they had.  Alone it is read from the same tokens.
-/
theorem later_lays_over {n fuel : Nat} {rs : Records} {t : CType} {phrase : Init → Phrase Init}
    {i₀ r₀ : Init} {s s' : ParseState} (hPhrase : phrase = .initializer ∨ phrase = .designation)
    (hAlike : i₀.Alike (Init.blank rs fuel t false))
    (hRead : TranslationUnit.read n (phrase i₀) s = .ok r₀ s') :
    ∃ alone, TranslationUnit.read n (phrase (Init.blank rs fuel t false)) s = .ok alone s' ∧
      ∃ W V : Set (List Nat), ∀ i, i.Alike (Init.blank rs fuel t false) →
          ∃ r, TranslationUnit.read n (phrase i) s = .ok r s' ∧
            r.Alike i ∧ Replaces expr? W i alone r ∧
            Replaces member? V i alone r := by
  have hRuns : ∀ i, ∃ r, i.Alike (Init.blank rs fuel t false) →
      TranslationUnit.read n (phrase i) s = .ok r s' := by
    intro i
    by_cases hTree : i.Alike (Init.blank rs fuel t false)
    · obtain ⟨r, hRun, -⟩ := laid_read hPhrase (hAlike.trans hTree.symm) hRead
      exact ⟨r, fun _ => hRun⟩
    · exact ⟨i, fun h => absurd h hTree⟩
  choose f hRun using hRuns
  have hLaid : ∀ i j, i.Alike (Init.blank rs fuel t false) → j.Alike (Init.blank rs fuel t false) →
      Laid Eq i j (f i) (f j) := by
    intro i j hTree hOther
    obtain ⟨a, hAgain, hLaid⟩ := laid_read hPhrase (hTree.trans hOther.symm) (hRun i hTree)
    rw [hRun j hOther] at hAgain
    cases hAgain
    exact hLaid
  have hBlank := closed_blank rs fuel t
  obtain ⟨W, hValues⟩ := exists_replaces (g := expr?)
    (D := fun i => i.Alike (Init.blank rs fuel t false)) hBlank
    fun i j hTree hOther p => ((hLaid i j hTree hOther).value p).imp_left eq_of_rel
  obtain ⟨V, hChoices⟩ := exists_replaces (g := member?)
    (D := fun i => i.Alike (Init.blank rs fuel t false)) hBlank
    fun i j hTree hOther => (hLaid i j hTree hOther).choice
  exact ⟨_, hRun _ hBlank, W, V, fun i hTree => ⟨_, hRun i hTree,
    (hLaid i i hTree hTree).left.symm, hValues i hTree, hChoices i hTree⟩⟩

/- The tokens of a text without macros and files. -/
def tokensOf (text : String) : List Token :=
  match (Preprocessor.process (ascii "m.c") (some (ascii text)) []).run {} with
  | .ok ts _ => ts
  | .error _ _ => []

/- Whether a computation gives a result. -/
def succeeds {α : Type} (p : Parse α) (s : ParseState) : Bool :=
  match p s with
  | .ok _ _ => true
  | .error _ _ => false

theorem exists_of_succeeds {α : Type} {p : Parse α} (hCheck : succeeds p s = true) :
    ∃ a s', p s = .ok a s' := by
  unfold succeeds at hCheck
  split at hCheck
  · exact ⟨_, _, ‹_›⟩
  · cases hCheck

/- An array of two integers. -/
def pairType : CType := .array 0 .int 2 8 4

/- The same array with the values 1 and 2. -/
def filledPair : Init :=
  (Init.blank #[] 1 pairType false).setExprs
    [Operator.number 1 default, Operator.number 2 default]

/- A list with one value is read over two values. -/
theorem later_lays_over_pair :
    let s : ParseState := { toks := tokensOf "\x7b 3 \x7d;" }
    filledPair.Alike (Init.blank #[] 1 pairType false) ∧
    ∃ r₀ s', TranslationUnit.read 16 (.initializer filledPair) s = .ok r₀ s' ∧
      ∃ alone, TranslationUnit.read 16
          (.initializer (Init.blank #[] 1 pairType false)) s = .ok alone s' ∧
        ∃ W V : Set (List Nat), ∀ i, i.Alike (Init.blank #[] 1 pairType false) →
            ∃ r, TranslationUnit.read 16 (.initializer i) s = .ok r s' ∧
              r.Alike i ∧ Replaces expr? W i alone r ∧
              Replaces member? V i alone r := by
  have hAlike : filledPair.Alike (Init.blank #[] 1 pairType false) :=
    (Laid.setExprs (E := Eq) (fun _ => rfl) (closed_blank _ _ _) _).left.symm
  obtain ⟨r₀, s', hRead⟩ := exists_of_succeeds
    (p := TranslationUnit.read 16 (.initializer filledPair))
    (s := { toks := tokensOf "\x7b 3 \x7d;" }) (by decide +kernel)
  exact ⟨hAlike, r₀, s', hRead, later_lays_over (.inl rfl : Phrase.initializer = .initializer ∨ _)
      hAlike hRead⟩

/-
  What a later list or string leaves out keeps the value that an
  earlier one gave it.
-/
theorem earlier_values_remain :
    InitialValue.lastData? "int a[2][2] = \x7b [0] = \x7b 1, 2 \x7d, [0] = \x7b 3 \x7d \x7d;" =
      some [3, 0, 0, 0, 2, 0, 0, 0, 0, 0, 0, 0, 0, 0, 0, 0] ∧
    InitialValue.lastData? "int a[2][2] = \x7b [0] = \x7b 3 \x7d \x7d;" =
      some [3, 0, 0, 0, 0, 0, 0, 0, 0, 0, 0, 0, 0, 0, 0, 0] ∧
    InitialValue.lastData? "char a[1][4] = \x7b [0] = \"abc\", [0] = \"x\" \x7d;" =
      some [120, 0, 99, 0] := by decide +kernel

end Initializer

end CCompiler
