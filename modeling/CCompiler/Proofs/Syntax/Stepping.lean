import Mathlib
import CCompiler.Proofs.Syntax.Notes
import CCompiler.Syntax.TranslationUnit

/-
  Steps over the tokens of a translation unit.

  Reading moves a state along its tokens.  The lemmas here say
  what each basic step does in a state whose next tokens are
  known.

  Main declarations:
    * `Token.Spells`, `Token.Punct`, `Token.Free`
    * `ParseState.before`
    * `Parse.iterate_one`, `Parse.iterate_next`
    * `Parse.Gives`, `Parse.Gives.bind`
-/

------------
-- Spellings
------------

namespace CCompiler

namespace Token

/- A token that is not a string has a spelling. -/
def Spells (t : Token) (w : String) : Prop :=
  t.kind.isStr = false ∧ t.text = ascii w

/- A punctuator or an operator. -/
def Punct (t : Token) (w : String) : Prop :=
  t.kind = .punct ∧ t.text = ascii w

instance  (t : Token) (w : String) : Decidable (t.Punct w) := inferInstanceAs (Decidable (_ ∧ _))

variable {t : Token} {w : String}

theorem Punct.spells (hPunct : t.Punct w) : t.Spells w := by
  rcases hPunct with ⟨hKind, hText⟩
  exact ⟨by rw [hKind]; rfl, hText⟩

theorem Spells.is_eq (hSpells : t.Spells w) (v : String) : t.is v = (ascii w == ascii v) := by
  rcases hSpells with ⟨hKind, hText⟩
  unfold Token.is
  rw [hKind, hText]
  rfl

/- A token has none of the spellings of a list. -/
def Free (t : Token) (words : List String) : Prop :=
  ∀ w ∈ words, t.is w = false

instance  (t : Token) (words : List String) : Decidable (t.Free words) :=
  inferInstanceAs (Decidable (∀ w ∈ words, t.is w = false))

theorem Free.mono {words few : List String} (hFree : t.Free words) (hFew : few ⊆ words) :
    t.Free few := by
  intro w hWord
  exact hFree w (hFew hWord)

theorem Free.any {t : Token} {words : List String} (hFree : t.Free words) :
    words.any t.is = false := by
  rw [List.any_eq_false]
  intro w hWord
  rw [hFree w hWord]
  exact Bool.false_ne_true

end Token

------------
-- Basic Steps
------------

/- A state with the tokens that are still to come. -/
def ParseState.before (s : ParseState) (ts : List Token) : ParseState :=
  { s with toks := ts }

variable {σ : Type}

variable {x : σ}

namespace Parse

variable {α β : Type} {s : ParseState} {t u : Token}
  {ts : List Token} {w : String}

/- One step after another. -/
theorem bind_apply (p : Parse α) (f : α → Parse β) (s : ParseState) :
    (p >>= f) s = match p s with
      | .ok a s' => f a s'
      | .error e s' => .error e s' := by
  change EStateM.bind p f s = _
  unfold EStateM.bind
  cases p s <;> rfl

theorem pure_apply (a : α) (s : ParseState) :
    (pure a : Parse α) s = .ok a s := rfl

variable {s' : ParseState} {b : β}

/- What succeeds in two steps succeeds in each. -/
theorem exists_of_bind {p : Parse α} {f : α → Parse β} (hRun : (p >>= f) s = .ok b s') :
    ∃ a s₁, p s = .ok a s₁ ∧ f a s₁ = .ok b s' := by
  rw [bind_apply] at hRun
  cases hFirst : p s with
  | ok a s₁ =>
    rw [hFirst] at hRun
    exact ⟨a, s₁, rfl, hRun⟩
  | error e s₁ =>
    rw [hFirst] at hRun
    cases hRun

@[simp]
theorem tok_before :
    tok (s.before (t :: ts)) = .ok t (s.before (t :: ts)) := rfl

@[simp]
theorem next?_before :
    next? (s.before (t :: ts)) = .ok ts.head? (s.before (t :: ts)) := rfl

@[simp]
theorem advance_before :
    advance (s.before (t :: u :: ts)) = .ok () (s.before (u :: ts)) := rfl

theorem advance_append (us : List Token) :
    advance (s.before (t :: (us ++ u :: ts))) =
      .ok () (s.before (us ++ u :: ts)) := by cases us <;> rfl

@[simp]
theorem cursor_before :
    cursor (s.before ts) = .ok ts (s.before ts) := rfl

@[simp]
theorem rewind_before (us : List Token) :
    rewind us (s.before ts) = .ok () (s.before us) := rfl

@[simp]
theorem check_before :
    check w (s.before (t :: ts)) = .ok (t.is w) (s.before (t :: ts)) := rfl

@[simp]
theorem checkAny_before (ws : List String) :
    checkAny ws (s.before (t :: ts)) = .ok (ws.any t.is) (s.before (t :: ts)) := rfl

@[simp]
theorem peekIs_before :
    peekIs w (s.before (t :: u :: ts)) = .ok (u.is w) (s.before (t :: u :: ts)) := rfl

@[simp]
theorem records_before :
    records (s.before ts) = .ok s.records (s.before ts) := rfl

theorem accept_before :
    accept w (s.before (t :: u :: ts)) = if t.is w then .ok true (s.before (u :: ts))
      else .ok false (s.before (t :: u :: ts)) := by
  unfold accept
  rw [bind_apply, check_before]
  cases hIs : t.is w <;> rfl

theorem accept_hit (hIs : t.is w = true) :
    accept w (s.before (t :: u :: ts)) =
      .ok true (s.before (u :: ts)) := by rw [accept_before, if_pos hIs]

theorem accept_miss (hIs : t.is w = false) :
    accept w (s.before (t :: ts)) = .ok false (s.before (t :: ts)) := by
  unfold accept
  rw [bind_apply, check_before, hIs]
  rfl

theorem accept_append (us : List Token) (hIs : t.is w = true) :
    accept w (s.before (t :: (us ++ u :: ts))) =
      .ok true (s.before (us ++ u :: ts)) := by cases us <;> exact accept_hit hIs

theorem expect_hit (hIs : t.is w = true) :
    expect w (s.before (t :: u :: ts)) = .ok () (s.before (u :: ts)) := by
  unfold expect
  rw [bind_apply, accept_hit hIs]
  rfl

theorem expect_append (us : List Token) (hIs : t.is w = true) :
    expect w (s.before (t :: (us ++ u :: ts))) =
      .ok () (s.before (us ++ u :: ts)) := by cases us <;> exact expect_hit hIs

variable {step : σ → Parse (Sum σ β)}

/- A loop that ends at once. -/
theorem repeatN_one (n : Nat) (hStep : step x s = .ok (.inr b) s') :
    repeatN step (n + 1) x s = .ok b s' := by
  rw [repeatN, bind_apply, hStep]
  rfl

theorem repeatN_next {y : σ} (n : Nat) (hStep : step x s = .ok (.inl y) s') :
    repeatN step (n + 1) x s = repeatN step n y s' := by rw [repeatN, bind_apply, hStep]

theorem iterate_apply (x : σ) (step : σ → Parse (Sum σ β)) (s : ParseState) :
    iterate x step s = repeatN step (2 * s.limit + 8) x s := rfl

theorem iterate_one (hStep : step x s = .ok (.inr b) s') : iterate x step s = .ok b s' := by
  rw [iterate_apply]
  exact repeatN_one _ hStep

end Parse

------------
-- Results
------------

namespace Parse

variable {α β : Type} {p q : Parse α} {f : α → Parse β}
  {Q : α → Prop} {R : β → Prop}

/- Whatever a computation gives has a property. -/
def Gives (p : Parse α) (Q : α → Prop) : Prop :=
  ∀ s a s', p s = .ok a s' → Q a

theorem gives_pure {a : α} (hResult : Q a) : Gives (pure a) Q := by
  rintro s b s' ⟨⟩
  exact hResult

theorem gives_fail (tok : Token) (cause : Fault) : Gives (fail tok cause : Parse α) Q := by
  rintro s b s' ⟨⟩

theorem Gives.bind (hFirst : Gives p Q) (hNext : ∀ a, Q a → Gives (f a) R) : Gives (p >>= f) R := by
  intro s b s' hRun
  obtain ⟨a, s₁, hRun₁, hRun₂⟩ := exists_of_bind hRun
  exact hNext a (hFirst s a s₁ hRun₁) s₁ b s' hRun₂

theorem gives_bind (hNext : ∀ a, Gives (f a) R) : Gives (p >>= f) R :=
  Gives.bind (Q := fun _ => True) (fun _ _ _ _ => trivial) fun a _ => hNext a

variable {c : Prop}

theorem gives_ite [Decidable c] (hThen : c → Gives p Q) (hElse : ¬ c → Gives q Q) :
    Gives (if c then p else q) Q := by
  split
  · exact hThen ‹_›
  · exact hElse ‹_›

/- A fault where a condition holds. -/
theorem gives_unless [Decidable c] {tok : Token} {cause : Fault} (hNext : Gives p Q) :
    Gives (do
      if c then fail tok cause
      p) Q :=
  gives_ite (fun _ => Gives.bind (Q := fun _ => False)
    (gives_fail tok cause) fun _ hNever => hNever.elim) fun _ => hNext

/- A loop that keeps something until it is done. -/
theorem gives_iterate {step : σ → Parse (Sum σ α)} {I : σ → Prop}
    (hStep : ∀ x, I x → Gives (step x) (Sum.elim I Q)) (hStart : I x) :
    Gives (iterate x step) Q := by
  have hRepeat : ∀ n x, I x → Gives (repeatN step n x) Q := by
    intro n
    induction n with
    | zero => rintro x - s _ _ ⟨⟩
    | succ n ih =>
      intro x hHolds
      refine (hStep x hHolds).bind fun y hNext => ?_
      cases y with
      | inl y => exact ih y hNext
      | inr a => exact gives_pure hNext
  intro s a s' hRun
  exact hRepeat _ x hStart s a s' hRun

end Parse

end CCompiler
