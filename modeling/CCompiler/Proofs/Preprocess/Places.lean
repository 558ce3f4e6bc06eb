import Mathlib
import CCompiler.Proofs.Preprocess.Inline

/-
  Later places in a list of tokens.

  A scan that reads some tokens of a list goes on at a later
  place in it, before the end, and what it leaves ends as the
  list does.  The line that a definition copies is a body.

  Main declarations:
    * `Expansion.Closed`, `Expansion.Within`
    * `Expansion.within_skipGroup`
    * `Expansion.within_parameters`
    * `Expansion.properBody_copyLine`
-/

------------
-- Later Places
------------

namespace CCompiler

namespace Expansion

/- A list that ends as lists of tokens do. -/
def Closed (ts : List Token) : Prop :=
  ∃ xs e, ts = xs ++ [e] ∧ e.Ends

/- A later place in a list, before its end. -/
structure Within (ts rest : List Token) : Prop where
  suffix : rest <:+ ts
  closed : Closed ts → Closed rest

variable {ts rest : List Token}

theorem Closed.suffix (hClosed : Closed ts) (hSuffix : rest <:+ ts) (hSome : rest ≠ []) :
    Closed rest := by
  rcases hClosed with ⟨xs, e, rfl, hEnds⟩
  rcases List.suffix_concat_iff.mp hSuffix with
    rfl | ⟨more, rfl, -⟩
  · exact absurd rfl hSome
  · exact ⟨more, e, rfl, hEnds⟩

theorem Closed.append (hClosed : Closed ts) (us : List Token) : Closed (us ++ ts) := by
  rcases hClosed with ⟨xs, e, rfl, hEnds⟩
  exact ⟨us ++ xs, e, (List.append_assoc _ _ _).symm, hEnds⟩

theorem within_refl (ts : List Token) : Within ts ts := ⟨List.suffix_rfl, id⟩

theorem Within.trans {ts mid rest : List Token} (hFirst : Within ts mid) (hNext : Within mid rest) :
    Within ts rest :=
  ⟨hNext.suffix.trans hFirst.suffix, fun hClosed => hNext.closed (hFirst.closed hClosed)⟩

variable {t : Token}

/- The place after a token that is not the end. -/
theorem within_tail (hNot : ¬ t.Ends) (rest : List Token) : Within (t :: rest) rest := by
  have hSuffix : rest <:+ t :: rest := List.suffix_cons t rest
  refine ⟨hSuffix, fun hClosed => hClosed.suffix hSuffix ?_⟩
  rintro rfl
  rcases hClosed with ⟨xs, e, hEq, hEnds⟩
  cases xs with
  | nil =>
    cases hEq
    exact hNot hEnds
  | cons u us => simp at hEq

theorem Closed.exists_cons (hClosed : Closed ts) : ∃ t rest, ts = t :: rest := by
  rcases hClosed with ⟨xs, e, rfl, -⟩
  cases xs with
  | nil => exact ⟨e, [], rfl⟩
  | cons x xs => exact ⟨x, xs ++ [e], rfl⟩

variable {text : String}

theorem not_ends_of_is (hText : ascii text ≠ []) (hIs : t.is text = true) : ¬ t.Ends := by
  intro hEnds
  rw [hEnds.is_eq_false hText] at hIs
  cases hIs

theorem not_ends_of_open (hOpen : t.isEof = false) : ¬ t.Ends := by
  intro hEnds
  rw [hEnds.isEof] at hOpen
  cases hOpen

theorem Closed.tail (hClosed : Closed (t :: rest)) (hOpen : t.isEof = false) : Closed rest :=
  (within_tail (not_ends_of_open hOpen) rest).closed hClosed

/- The start of the next line. -/
theorem within_nextLine (ts : List Token) :
    Within ts (ts.dropWhile fun t => !t.atLineStart && !t.isEof) := by
  induction ts with
  | nil => exact within_refl []
  | cons t ts ih =>
    rw [List.dropWhile_cons]
    split
    · rename_i hInside
      rw [Bool.and_eq_true_iff] at hInside
      exact (within_tail (not_ends_of_open (by simpa using hInside.2)) ts).trans ih
    · exact within_refl _

theorem within_copyLine (ts : List Token) : Within ts (Arguments.copyLine ts).2 := by
  induction ts with
  | nil => exact within_refl []
  | cons t ts ih =>
    rw [Arguments.copyLine]
    split
    · exact within_refl _
    · rename_i hInside
      have hOpen : t.isEof = false := by
        cases hEof : t.isEof with
        | false => rfl
        | true => simp [hEof] at hInside
      exact (within_tail (not_ends_of_open hOpen) ts).trans ih

/- A line of a list is a body. -/
theorem properBody_copyLine (hClosed : Closed ts) : ProperBody (Arguments.copyLine ts).1 := by
  induction ts with
  | nil =>
    rcases hClosed with ⟨xs, e, hEq, -⟩
    simp at hEq
  | cons t ts ih =>
    rw [Arguments.copyLine]
    split
    · exact ⟨[], t.toEof, rfl, Token.ends_toEof t, by simp [Flat]⟩
    · rename_i hInside
      rw [Bool.not_eq_true, Bool.or_eq_false_iff] at hInside
      rcases ih (hClosed.tail hInside.2) with
        ⟨front, e, hFront, hEnds, hFlat⟩
      refine ⟨t :: front, e, ?_, hEnds, ?_⟩
      · simp only [hFront, List.cons_append]
      · exact List.forall_mem_cons.mpr ⟨⟨hInside.2, hInside.1⟩, hFlat⟩

/- The directive that ends a group. -/
theorem within_skipGroup (level : Nat) (ts : List Token) :
    Within ts (Conditional.skipGroup level ts) := by
  have hHash : ∀ {h : Token} {b : Bool}, (Conditional.isHash h && b) = true → ¬ h.Ends := by
    intro h b hBoth
    rw [Bool.and_eq_true_iff, Conditional.isHash, Bool.and_eq_true_iff] at hBoth
    exact not_ends_of_is (by decide) hBoth.1.2
  fun_induction Conditional.skipGroup level ts with
  | case1 => exact within_refl _
  | case2 level h name rest hOpen hIs ih =>
    refine (within_tail (hHash hIs) _).trans ?_
    have hName : ¬ name.Ends := by
      rw [Bool.and_eq_true_iff] at hIs
      intro hEnds
      simp [Conditional.opens, hEnds.is_eq_false (s := "if") (by decide),
        hEnds.is_eq_false (s := "ifdef") (by decide),
        hEnds.is_eq_false (s := "ifndef") (by decide)]
        at hIs
    exact (within_tail hName rest).trans ih
  | case3 => exact within_refl _
  | case4 level h name rest hOpen hIs hEnds hClose ih =>
    rw [Bool.and_assoc, Bool.and_eq_true_iff, Bool.and_eq_true_iff] at hClose
    refine (within_tail (not_ends_of_open (by simpa using hOpen)) _).trans ?_
    exact (within_tail (not_ends_of_is (by decide) hClose.2.2) rest).trans ih
  | case5 level h name rest hOpen hIs hEnds hClose ih =>
    exact (within_tail (not_ends_of_open (by simpa using hOpen)) _).trans ih
  | case6 => exact within_refl _

theorem within_skip (hText : ascii text ≠ []) (hSkip : Arguments.skip text ts = .ok rest) :
    Within ts rest := by
  cases ts with
  | nil => cases hSkip
  | cons t ts =>
    rw [Arguments.skip] at hSkip
    split at hSkip
    · cases hSkip
      exact within_tail (not_ends_of_is hText ‹_›) _
    · cases hSkip

/- One parameter, and what follows it. -/
def oneParameter
    (next : Arguments.Parameters → List Token →
      TokenScan (Arguments.Parameters × List Token))
    (ps : Arguments.Parameters) :
    List Token → TokenScan (Arguments.Parameters × List Token)
| [] => .error (.expectedIdentifier, default)
| t :: after => do
  if t.is "..." then
    let rest ← Arguments.skip ")" after
    .ok ({ ps with rest? := some (ascii "__VA_ARGS__") }, rest)
  else if !t.isIdent then .error (.expectedIdentifier, t)
  else if ((after.head?).map (·.is "...")).getD false then
    let rest ← Arguments.skip ")" after.tail
    .ok ({ ps with rest? := some t.text }, rest)
  else next { ps with names := ps.names.push t.text } after

theorem parameters_succ (fuel : Nat) (ps : Arguments.Parameters) (ts : List Token) :
    Arguments.parameters (fuel + 1) ps ts = if ((ts.head?).map (·.is ")")).getD false then
        .ok (ps, ts.tail)
      else
        (if ps.names.isEmpty then pure ts else Arguments.skip "," ts) >>=
          oneParameter (Arguments.parameters fuel) ps := by
  rw [Arguments.parameters]
  split
  · rfl
  · split <;> rfl

/- The place after the parameters of a macro. -/
theorem within_parameters {fuel : Nat} {ps read : Arguments.Parameters}
    (hRead : Arguments.parameters fuel ps ts = .ok (read, rest)) : Within ts rest := by
  induction fuel generalizing ps ts with
  | zero => cases hRead
  | succ fuel ih =>
    have hClose : ∀ {qs : Arguments.Parameters} {us : List Token}, (do
          let rest ← Arguments.skip ")" us
          .ok (qs, rest) :
          TokenScan (Arguments.Parameters × List Token)) = .ok (read, rest) →
        Within us rest := by
      intro qs us hOk
      cases hSkip : Arguments.skip ")" us with
      | error f =>
        rw [hSkip] at hOk
        cases hOk
      | ok more =>
        rw [hSkip] at hOk
        cases hOk
        exact within_skip (by decide) hSkip
    have hOne : ∀ {us : List Token}, oneParameter (Arguments.parameters fuel) ps us =
          .ok (read, rest) → Within us rest := by
      intro us hOk
      cases us with
      | nil => cases hOk
      | cons t after =>
        rw [oneParameter] at hOk
        split at hOk
        · rename_i hDots
          exact (within_tail (not_ends_of_is (by decide) hDots) _).trans (hClose hOk)
        split at hOk
        · cases hOk
        rename_i hIdent
        have hName : ¬ t.Ends := by
          intro hEnds
          simp [Token.isIdent, hEnds.kind] at hIdent
        refine (within_tail hName after).trans ?_
        split at hOk
        · rename_i hDots
          cases after with
          | nil => cases hDots
          | cons u us =>
            exact (within_tail (not_ends_of_is (by decide) hDots) us).trans (hClose hOk)
        · exact ih hOk
    rw [parameters_succ] at hRead
    split at hRead
    · rename_i hParen
      cases hRead
      cases ts with
      | nil => exact within_refl []
      | cons t ts => exact within_tail (not_ends_of_is (by decide) hParen) ts
    · split at hRead
      · exact hOne hRead
      · cases hSkip : Arguments.skip "," ts with
        | error f =>
          rw [hSkip] at hRead
          cases hRead
        | ok more =>
          rw [hSkip] at hRead
          exact (within_skip (by decide) hSkip).trans (hOne hRead)

end Expansion

end CCompiler
