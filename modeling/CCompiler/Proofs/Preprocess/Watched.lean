import Mathlib
import CCompiler.Proofs.Preprocess.Made

/-
  Expansion beside an expansion that keeps watch.

  An argument is expanded in place, and again wherever its
  parameter stands again.  What the first expansion passed
  over may then be replaced after all.  The watched expansion
  does the same steps, notes at the end of a list how many
  tokens were passed over, and stops where one of them is
  used.

  Main declarations:
    * `Expansion.revived`, `Expansion.watchedAll`
    * `Expansion.Agree`
    * `Expansion.watchedStep_eq`
-/

------------
-- The Watched Expansion
------------

namespace CCompiler

namespace Expansion

/- A token that was passed over is used after all. -/
def revived : Failure :=
  .plain (ascii "a token that was passed over is used")

/-
  How many tokens before the end of a list were passed over:
  as many as the end has notes.
-/
def passed (ts : List Token) : Nat :=
  ((ts.getLast?).map (·.joined.length)).getD 0

/- Stop at a use that takes a token that was passed over. -/
def watch (m : Nat) (p : Progress) : Pre Unit :=
  match p.toks with
  | [] => pure ()
  | t :: rest =>
    if t.isEof then pure ()
    else do
      match ← use? t rest with
      | some u =>
        if u.rest.length ≤ m then throw revived else pure ()
      | none => pure ()

/- A step under watch. -/
def watchedStep
    (m : Nat)
    (expand : Expand)
    (p : Progress) : Pre (Sum Progress Expanded) := do
  watch m p
  step expand p

/- With a note for each token that was passed over. -/
def withNotes (e : Expanded) : Expanded :=
  let kept := e.source.length - (e.used.length + 1)
  { e with
    eof := { e.eof with joined := List.replicate kept default } }

/- Expand a list of tokens under watch. -/
def watchedAll : Nat → Expand
| 0 => fun _ => throw .exhausted
| n + 1 => fun ts => do
  let e ← repeatStep
    (watchedStep (passed ts) (watchedAll n)) n { toks := ts }
  return withNotes e

------------
-- Agreement
------------

/-
  Two families of computations, indexed by fuel, agree in a
  state: from some fuel on they give related values, or the
  same failure, and always the same; or else the first one has
  been stopped.
-/
inductive Agree
    {α β : Type}
    (dangling : Prop)
    (s : Session)
    (x : Nat → Pre α)
    (y : Nat → Pre β)
    (Q : α → β → Prop) : Prop
| value
    (N : Nat)
    (a : α)
    (b : β)
    (s' : Session)
    (hRun : ∀ n ≥ N, x n s = .ok a s' ∧ y n s = .ok b s')
    (hMacros : s'.macros = s.macros)
    (hPost : Q a b)
| failure
    (N : Nat)
    (e : Failure)
    (s' : Session)
    (hRun : ∀ n ≥ N, x n s = .error e s' ∧ y n s = .error e s')
    (hFine : Fine dangling e)
| stopped
    (N : Nat)
    (s' : Session)
    (hRun : ∀ n ≥ N, x n s = .error revived s')

variable {α β γ δ : Type} {dangling : Prop} {s : Session}

variable {a : α}

theorem agree_pure {b : β} {Q : α → β → Prop} (hPost : Q a b) :
    Agree dangling s (fun _ => pure a) (fun _ => pure b) Q :=
  .value 0 a b s (fun _ _ => ⟨rfl, rfl⟩) rfl hPost

/- A computation agrees with itself. -/
theorem Gives.agree {x : Pre α} {Q : α → Prop} (hGives : Gives dangling s x Q) :
    Agree dangling s (fun _ => x) (fun _ => x) (fun a b => a = b ∧ Q a) := by
  unfold Gives at hGives
  cases hRun : x s with
  | error e s' =>
    rw [hRun] at hGives
    exact .failure 0 e s' (fun _ _ => ⟨hRun, hRun⟩) hGives
  | ok a s' =>
    rw [hRun] at hGives
    exact .value 0 a a s' (fun _ _ => ⟨hRun, hRun⟩) hGives.1 ⟨rfl, hGives.2⟩

variable {f : α → Pre γ} {s' : Session}

theorem bind_ok {x : Pre α} (hRun : x s = .ok a s') : (x >>= f) s = f a s' := by
  change EStateM.bind x f s = f a s'
  simp only [EStateM.bind, hRun]

variable {e : Failure}

theorem bind_error {x : Pre α} (hRun : x s = .error e s') : (x >>= f) s = .error e s' := by
  change EStateM.bind x f s = .error e s'
  simp only [EStateM.bind, hRun]

theorem Agree.bind {x : Nat → Pre α} {y : Nat → Pre β} {f : Nat → α → Pre γ} {g : Nat → β → Pre δ}
    {Q : α → β → Prop} {R : γ → δ → Prop} (hFirst : Agree dangling s x y Q)
    (hNext : ∀ a b s', s'.macros = s.macros → Q a b →
      Agree dangling s' (fun n => f n a) (fun n => g n b) R) :
    Agree dangling s (fun n => x n >>= f n) (fun n => y n >>= g n) R := by
  cases hFirst with
  | failure N e s' hRun hFine =>
    refine .failure N e s' (fun n hn => ?_) hFine
    exact ⟨bind_error (hRun n hn).1, bind_error (hRun n hn).2⟩
  | stopped N s' hRun => exact .stopped N s' fun n hn => bind_error (hRun n hn)
  | value N a b s' hRun hMacros hPost =>
    have hLeft := fun n hn => bind_ok (f := f n) (hRun n hn).1
    have hRight := fun n hn => bind_ok (f := g n) (hRun n hn).2
    cases hNext a b s' hMacros hPost with
    | failure M e s'' hMore hFine =>
      refine .failure (max N M) e s'' (fun n hn => ?_) hFine
      have hMax := max_le_iff.mp hn
      rw [hLeft n hMax.1, hRight n hMax.1]
      exact hMore n hMax.2
    | stopped M s'' hMore =>
      refine .stopped (max N M) s'' fun n hn => ?_
      have hMax := max_le_iff.mp hn
      rw [hLeft n hMax.1]
      exact hMore n hMax.2
    | value M c d s'' hMore hSame hAfter =>
      refine .value (max N M) c d s'' (fun n hn => ?_) (hSame.trans hMacros) hAfter
      have hMax := max_le_iff.mp hn
      rw [hLeft n hMax.1, hRight n hMax.1]
      exact hMore n hMax.2

/- A failure that both sides end with. -/
theorem agree_throw (hFine : Fine dangling e) (Q : α → β → Prop) :
    Agree dangling s (fun _ => throw e) (fun _ => throw e) Q :=
  .failure 0 e s (fun _ _ => ⟨rfl, rfl⟩) hFine

/- The result of a scan, which both sides see. -/
theorem agree_ofScan (scan : TokenScan α) :
    Agree dangling s (fun _ => Pre.ofScan scan) (fun _ => Pre.ofScan scan)
      fun a b => a = b ∧ scan = .ok a := by
  cases scan with
  | error f => exact .failure 0 _ s (fun _ _ => ⟨rfl, rfl⟩) trivial
  | ok a => exact agree_pure ⟨rfl, rfl⟩

theorem agree_fail (t : Token) (cause : Fault) (Q : α → β → Prop) :
    Agree dangling s (fun _ => Pre.fail t cause)
      (fun _ => Pre.fail t cause) Q := .failure 0 _ s (fun _ _ => ⟨rfl, rfl⟩) trivial

section Families

variable {α β : Type} {dangling : Prop} {s : Session}
  {x x' : Nat → Pre α} {y y' : Nat → Pre β}
  {Q : α → β → Prop}

/- Families that are the same from some fuel on. -/
theorem Agree.congr (hAgree : Agree dangling s x' y' Q) (N : Nat)
    (hLeft : ∀ n ≥ N, x n s = x' n s) (hRight : ∀ n ≥ N, y n s = y' n s) :
    Agree dangling s x y Q := by
  cases hAgree with
  | value M a b s' hRun hMacros hPost =>
    refine .value (max N M) a b s' (fun n hn => ?_) hMacros hPost
    have hMax := max_le_iff.mp hn
    rw [hLeft n hMax.1, hRight n hMax.1]
    exact hRun n hMax.2
  | failure M e s' hRun hFine =>
    refine .failure (max N M) e s' (fun n hn => ?_) hFine
    have hMax := max_le_iff.mp hn
    rw [hLeft n hMax.1, hRight n hMax.1]
    exact hRun n hMax.2
  | stopped M s' hRun =>
    refine .stopped (max N M) s' fun n hn => ?_
    have hMax := max_le_iff.mp hn
    rw [hLeft n hMax.1]
    exact hRun n hMax.2

/- The same families with one more unit of fuel. -/
theorem Agree.shift (hAgree : Agree dangling s (fun n => x (n + 1)) (fun n => y (n + 1)) Q) :
    Agree dangling s x y Q := by
  have hBack : ∀ {N n : Nat}, n ≥ N + 1 → n - 1 ≥ N ∧ n - 1 + 1 = n := by omega
  cases hAgree with
  | value N a b s' hRun hMacros hPost =>
    refine .value (N + 1) a b s' (fun n hn => ?_) hMacros hPost
    have hOne := hRun (n - 1) (hBack hn).1
    rwa [(hBack hn).2] at hOne
  | failure N e s' hRun hFine =>
    refine .failure (N + 1) e s' (fun n hn => ?_) hFine
    have hOne := hRun (n - 1) (hBack hn).1
    rwa [(hBack hn).2] at hOne
  | stopped N s' hRun =>
    refine .stopped (N + 1) s' fun n hn => ?_
    have hOne := hRun (n - 1) (hBack hn).1
    rwa [(hBack hn).2] at hOne

end Families

end Expansion

------------
-- Steps
------------

namespace Expansion

section Equations

variable {p : Progress} {t : Token} {rest : List Token}
  {s : Session}

variable {u : Use}

theorem step_found (expand : Expand) (hToks : p.toks = t :: rest) (hEof : t.isEof = false)
    (hUse : use? t rest s = .ok (some u) s) :
    step expand p s = (do
        let new ← u.tokens expand t
        let r := p.goOn new u.rest
        return .inl { r with toks := Pre.spacedAs t r.toks } :
        Pre (Sum Progress Expanded)) s := by
  unfold step
  rw [hToks]
  simp only [hEof, Bool.false_eq_true, if_false]
  exact bind_ok hUse

theorem step_none (expand : Expand) (hToks : p.toks = t :: rest) (hPlain : t.Plain)
    (hUse : use? t rest s = .ok none s) :
    step expand p s = (do
        let shown ← Pre.shownOf t
        return .inl (p.keep { t with
            lineDelta := shown.lineDelta
            filename := shown.name } rest) :
        Pre (Sum Progress Expanded)) s := by
  have hHash : Conditional.isHash t = false := by simp [Conditional.isHash, hPlain.atLineStart]
  unfold step
  rw [hToks]
  simp only [hPlain.isEof, Bool.false_eq_true, if_false]
  refine (bind_ok hUse).trans ?_
  simp only [hHash, Bool.false_eq_true, if_false]

variable {e : Failure}

theorem step_error (expand : Expand) (hToks : p.toks = t :: rest) (hEof : t.isEof = false)
    (hUse : use? t rest s = .error e s) : step expand p s = .error e s := by
  unfold step
  rw [hToks]
  simp only [hEof, Bool.false_eq_true, if_false]
  exact bind_error hUse

theorem step_end (expand : Expand) (hToks : p.toks = t :: rest) (hEof : t.isEof = true) :
    step expand p s = .ok (.inr ⟨p.used.toList, p.done.toList, p.kept?, t⟩) s := by
  unfold step
  rw [hToks]
  simp only [hEof, if_true]
  rfl

/- Nothing to watch: a step as it is. -/
theorem watchedStep_eq (m : Nat) (expand : Expand) (hWatch : watch m p s = .ok () s) :
    watchedStep m expand p s = step expand p s := by
  unfold watchedStep
  exact bind_ok hWatch

theorem watch_end (m : Nat) (hToks : p.toks = t :: rest) (hEof : t.isEof = true) :
    watch m p s = .ok () s := by
  unfold watch
  rw [hToks]
  simp only [hEof, if_true]
  rfl

theorem watch_none (m : Nat) (hToks : p.toks = t :: rest) (hUse : use? t rest s = .ok none s) :
    watch m p s = .ok () s := by
  unfold watch
  rw [hToks]
  simp only
  split
  · rfl
  · exact bind_ok hUse

theorem watch_found (m : Nat) (hToks : p.toks = t :: rest) (hEof : t.isEof = false)
    (hUse : use? t rest s = .ok (some u) s) :
    watch m p s = if u.rest.length ≤ m then .error revived s
      else .ok () s := by
  unfold watch
  rw [hToks]
  simp only [hEof, Bool.false_eq_true, if_false]
  refine (bind_ok hUse).trans ?_
  simp only
  split <;> rfl

theorem watch_error (m : Nat) (hToks : p.toks = t :: rest) (hEof : t.isEof = false)
    (hUse : use? t rest s = .error e s) : watch m p s = .error e s := by
  unfold watch
  rw [hToks]
  simp only [hEof, Bool.false_eq_true, if_false]
  exact bind_error hUse

end Equations

end Expansion

end CCompiler
