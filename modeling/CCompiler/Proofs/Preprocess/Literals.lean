import Mathlib
import CCompiler.Proofs.Preprocess.Spelling

/-
  Strings made of arguments.

  The strings that hashes make of the arguments of a call are
  those of the tokens that stand in the call, as long as no
  use of the same parameter before a hash changes its list.

  Main declarations:
    * `Substitution.Ahead`, `Substitution.Agreed`
    * `Substitution.agreed_subst`
    * `Expansion.literals_spell_arguments`
-/

------------
-- Steps of a Substitution
------------

namespace CCompiler

namespace Substitution

open Pre Expansion

variable {c : Call} {due : Bytes → Prop} {p q : Progress}
  {s s' : Session}

/- Joining tokens leaves the arguments alone. -/
theorem args_pasteLast {t : Token} (hRun : p.pasteLast t s = .ok q s') : q.args = p.args := by
  unfold Progress.pasteLast at hRun
  cases hBack : p.done.back? with
  | none =>
    rw [hBack] at hRun
    cases hRun
  | some last =>
    rw [hBack] at hRun
    rcases bind_split hRun with ⟨u, s₁, -, hPure⟩
    cases hPure
    rfl

theorem args_pasteNext {next : Token} (hRun : pasteNext p next s = .ok q s') : q.args = p.args := by
  unfold pasteNext at hRun
  cases hArg : p.arg? next with
  | none =>
    rw [hArg] at hRun
    exact args_pasteLast hRun
  | some a =>
    rw [hArg] at hRun
    cases hToks : a.toks with
    | nil =>
      simp only [hToks] at hRun
      cases hRun
      rfl
    | cons t rest =>
      simp only [hToks] at hRun
      split at hRun
      · cases hRun
        rfl
      · rcases bind_split hRun with ⟨r, s₁, hPaste, hPure⟩
        cases hPure
        exact args_pasteLast (q := r) hPaste

theorem args_afterEmpty (p : Progress) (next : Token) : (afterEmpty p next).args = p.args := by
  unfold afterEmpty
  split <;> rfl

/- What is left of a body, up to nothing. -/
def Remains (ts : List Token) : Prop :=
  ts = [] ∨ ProperBody ts

theorem Remains.suffix {ts rest : List Token} (hRemains : Remains ts) (hSuffix : rest <:+ ts) :
    Remains rest := by
  rcases hRemains with rfl | ⟨front, e, rfl, hEnds, hFlat⟩
  · exact .inl (List.suffix_nil.mp hSuffix)
  · rcases List.suffix_concat_iff.mp hSuffix with
      rfl | ⟨more, rfl, hMore⟩
    · exact .inl rfl
    · exact .inr ⟨more, e, rfl, hEnds, fun w hw => hFlat w (hMore.subset hw)⟩

/-
  A substitution before what is left of a body.  `late` are
  the names for which a hash comes after that.
-/
structure Ahead
    (c : Call)
    (late : Bytes → Bool)
    (p : Progress)
    (ts : List Token)
    (s : Session) : Prop where
  intact :
    Intact c (fun x => late x = true ∨ Hashes x ts = true) p s
  body : ∀ x, c.idle x → Remains ts
  spares : ∀ x, c.idle x ∨ spelled? c.args x = none ∨
    Spares x (late x) ts = true

/- The same names are spared in another part of a body. -/
theorem Ahead.sparing {late late' : Bytes → Bool} {ts us : List Token}
    (hAhead : Ahead c late p ts s)
    (hSpares : ∀ x, Spares x (late x) ts = true → Spares x (late' x) us = true) (x : Bytes) :
    c.idle x ∨ spelled? c.args x = none ∨ Spares x (late' x) us = true :=
  (hAhead.spares x).imp_right (Or.imp_right (hSpares x))

/- With some fuel, both ways to spell agree from every state. -/
def Agreed (c : Call) (expand : Expand) (fuel : Nat) : Prop :=
  ∀ (s : Session) (ts : List Token) (p : Progress)
    (late : Bytes → Bool), Ahead c late p ts s →
      Matches s (substVia spellFound expand fuel p ts)
        (substVia (spellWritten c.args) expand fuel p ts)
        (Intact c fun x => late x = true)

/- A step that gives a substitution and keeps the macros. -/
theorem Intact.quiet {y : Pre Progress} (hIntact : Intact c due p s)
    (hQuiet : Level p → Quiet s y Level) (hRun : y s = .ok q s') :
    ∀ x, c.idle x → s'.macros = c.macros ∧ Level q := by
  intro x hx
  rcases hIntact.level x hx with ⟨hMacros, hLevel⟩
  rcases (hQuiet hLevel).kept q s' hRun with ⟨hSame, hNext⟩
  exact ⟨hSame.trans hMacros, hNext⟩

section Branches

variable {lates : Bytes → Bool} {t : Token}
  {ts rest : List Token} {expand : Expand} {fuel : Nat}

/- A later place in the body, with the same arguments. -/
theorem Ahead.go (hAhead : Ahead c lates p ts s) (hSuffix : rest <:+ ts) (hArgs : q.args = p.args)
    (hLevel : ∀ x, c.idle x → s'.macros = c.macros ∧ Level q)
    (hSpares : ∀ x, Spares x (lates x) ts = true →
      Spares x (lates x) rest = true) : Ahead c lates q rest s' := by
  refine ⟨?_, fun x hx => (hAhead.body x hx).suffix hSuffix, hAhead.sparing hSpares⟩
  refine (hAhead.intact.kept hArgs hLevel).mono ?_
  intro x hx
  rcases hSuffix with ⟨gone, rfl⟩
  exact hx.imp_right (hashes_suffix gone)

/- The same, without a change of the state. -/
theorem Ahead.push (hAhead : Ahead c lates p (t :: rest) s) (hOpen : t.isEof = false)
    (hSpares : ∀ x, Spares x (lates x) (t :: rest) = true →
      Spares x (lates x) ts = true) (hSuffix : ts <:+ rest) : Ahead c lates (p.push t) ts s := by
  refine hAhead.go (hSuffix.trans (List.suffix_cons t rest)) rfl (fun x hx => ?_) hSpares
  rcases hAhead.intact.level x hx with ⟨hMacros, hLevel⟩
  refine ⟨hMacros, hLevel.push ?_⟩
  rcases hAhead.body x hx with hNil | hBody
  · cases hNil
  rcases hBody.cases with
    ⟨e, hOnly, hEnds⟩ | ⟨u, us, hCons, hPlain, -⟩
  · cases hOnly
    rw [hEnds.isEof] at hOpen
    cases hOpen
  · cases hCons
    exact hPlain

/- A hash makes the same string both ways. -/
theorem agreed_hash (hIndented : ∀ a ∈ c.args, Indented (a.toks.takeWhile (!·.isEof)))
    (hGo : Agreed c expand fuel) (hAhead : Ahead c lates p (t :: rest) s)
    (hHash : t.is "#" = true) :
    Matches s (do
        let made ← spellFound p.args t (rest.headD default)
        substVia spellFound expand fuel (p.push made) rest.tail)
      (do
        let made ←
          spellWritten c.args p.args t (rest.headD default)
        substVia (spellWritten c.args) expand fuel (p.push made) rest.tail)
      (Intact c fun x => lates x = true) := by
  have hFirst : Matches s (spellFound p.args t (rest.headD default))
        (spellWritten c.args p.args t (rest.headD default))
        fun made s' => ∀ x, c.idle x → s'.macros = c.macros ∧ Level (p.push made) := by
    refine ⟨congrFun (spell_eq hIndented t fun x hx =>
      hAhead.intact.due x (.inr ?_)) s, fun made s' hRun => ?_⟩
    · rw [Hashes, hHash, hx]
      rfl
    · intro x hx
      rcases hAhead.intact.level x hx with ⟨hMacros, hLevel⟩
      have hQuiet : Quiet s (spellFound p.args t (rest.headD default))
          Token.Plain := by
        unfold spellFound
        split
        · exact quiet_fail _ _ _
        · exact .of_gives (blind_stringize t _) (gives_stringize t _)
      rcases hQuiet.kept made s' hRun with ⟨hSame, hPlain⟩
      exact ⟨hSame.trans hMacros, hLevel.push hPlain⟩
  refine hFirst.bind fun made s' hLevel => ?_
  refine hGo s' rest.tail _ lates (hAhead.go
    ((List.tail_suffix rest).trans (List.suffix_cons t rest))
    rfl hLevel fun x => spares_operand (by simp [hHash]))

/- A double hash joins the same tokens. -/
theorem agreed_doubleHash (hGo : Agreed c expand fuel) (hAhead : Ahead c lates p (t :: rest) s)
    (hPaste : t.is "##" = true) :
    Matches s (do
        checkPaste p t (rest.headD default)
        let r ← pasteNext p (rest.headD default)
        substVia spellFound expand fuel r rest.tail)
      (do
        checkPaste p t (rest.headD default)
        let r ← pasteNext p (rest.headD default)
        substVia (spellWritten c.args) expand fuel r rest.tail)
      (Intact c fun x => lates x = true) := by
  have hCheck : Matches s (checkPaste p t (rest.headD default))
      (checkPaste p t (rest.headD default))
      fun _ s' => s' = s := by
    refine matches_refl fun u s' hRun => ?_
    unfold checkPaste at hRun
    split at hRun
    · cases hRun
    · split at hRun
      · cases hRun
      · cases hRun
        rfl
  refine hCheck.bind fun _ s' hSame => ?_
  subst hSame
  have hNext : Matches s' (pasteNext p (rest.headD default))
      (pasteNext p (rest.headD default)) fun r s'' =>
        r.args = p.args ∧ ∀ x, c.idle x → s''.macros = c.macros ∧ Level r :=
    matches_refl fun r s'' hRun => ⟨args_pasteNext hRun, hAhead.intact.quiet
        (fun hLevel => quiet_pasteNext hLevel _) hRun⟩
  refine hNext.bind fun r s'' hKept => ?_
  refine hGo s'' rest.tail r lates (hAhead.go
    ((List.tail_suffix rest).trans (List.suffix_cons t rest))
    hKept.1 hKept.2 fun x => spares_operand (by simp [hPaste]))

/- A walk past the end of a body. -/
theorem matches_nil (expand : Expand) (fuel : Nat) (spell spell' : Spell) (p : Progress)
    (Q : Progress → Session → Prop) :
    Matches s (substVia spell expand fuel p []) (substVia spell' expand fuel p []) Q := by
  cases fuel with
  | zero => exact matches_throw _ _
  | succ fuel => exact matches_throw _ _

/- A comma before a double hash and further arguments. -/
theorem agreed_comma (hGo : Agreed c expand fuel) (hAhead : Ahead c lates p (t :: rest) s)
    (hOpen : t.isEof = false) (hComma : t.is "," = true)
    (hPaste : (rest.headD default).is "##" = true) (a : MacroArg) :
    Matches s (if a.isEmpty then substVia spellFound expand fuel p rest.tail.tail else
        substVia spellFound expand fuel (p.push t) rest.tail)
      (if a.isEmpty then substVia (spellWritten c.args) expand fuel p
          rest.tail.tail else
        substVia (spellWritten c.args) expand fuel (p.push t) rest.tail)
      (Intact c fun x => lates x = true) := by
  have hNot : (t.is "#" || t.is "##") = false := not_operator hComma (by decide) (by decide)
  refine matches_ite (fun _ => ?_) fun _ => ?_
  · refine hGo s _ p lates (hAhead.go ?_ rfl hAhead.intact.level fun x hSpares => ?_)
    · exact (List.tail_suffix _).trans ((List.tail_suffix _).trans (List.suffix_cons t rest))
    · cases rest with
      | nil => rfl
      | cons next after =>
        exact spares_operand (by simpa using .inr hPaste) (spares_tail hNot hSpares)
  · refine hGo s _ _ lates (hAhead.push hOpen (fun x hSpares => ?_) (List.tail_suffix rest))
    cases rest with
    | nil => rfl
    | cons next after => exact spares_comma hComma hPaste hSpares

variable {a : MacroArg}

/- An argument before a double hash stays as it is. -/
theorem agreed_beforePaste (hGo : Agreed c expand fuel) (hAhead : Ahead c lates p (t :: rest) s)
    (hNot : (t.is "#" || t.is "##") = false) (hPaste : (rest.headD default).is "##" = true)
    (hArg : p.arg? t = some a) :
    Matches s (if a.isEmpty then substVia spellFound expand fuel
          (afterEmpty p (rest.tail.headD default)) rest.tail.tail else
        substVia spellFound expand fuel (p.append a.toks) rest)
      (if a.isEmpty then substVia (spellWritten c.args) expand fuel
          (afterEmpty p (rest.tail.headD default)) rest.tail.tail else
        substVia (spellWritten c.args) expand fuel (p.append a.toks) rest)
      (Intact c fun x => lates x = true) := by
  refine matches_ite (fun _ => ?_) fun _ => ?_
  · rcases rest with - | ⟨next, - | ⟨u, - | ⟨v, more⟩⟩⟩
    · exact matches_nil _ _ _ _ _ _
    · exact matches_nil _ _ _ _ _ _
    · exact matches_nil _ _ _ _ _ _
    refine hGo s (v :: more) _ lates (hAhead.go ⟨[t, next, u], rfl⟩ (args_afterEmpty p u)
      (fun x hx => ?_) fun x hSpares => ?_)
    · rcases hAhead.intact.level x hx with ⟨hMacros, hLevel⟩
      refine ⟨hMacros, level_afterEmpty hLevel ?_⟩
      -- a token with another one after it is not the end
      have hMiddle : Remains (u :: v :: more) := (hAhead.body x hx).suffix ⟨[t, next], rfl⟩
      rcases hMiddle with hNil | hBody
      · cases hNil
      · rcases hBody.cases with
          ⟨e, hOnly, -⟩ | ⟨w, ws, hCons, hPlain, -⟩
        · cases hOnly
        · cases hCons
          exact hPlain
    · exact spares_operand (by simpa using .inr hPaste) (spares_tail hNot hSpares)
  · refine hGo s rest _ lates (hAhead.go
      (List.suffix_cons t rest) rfl (fun x hx => ?_) fun x => spares_tail hNot)
    rcases hAhead.intact.level x hx with ⟨hMacros, hLevel⟩
    exact ⟨hMacros, hLevel.append (hLevel.arg? hArg).flat⟩

variable {more : List Token}

/- A part of a body, up to the token that closes it. -/
theorem Ahead.part {seg : List Token} {z : Token} (hAhead : Ahead c lates p ts s)
    (hInside : seg ++ z :: more <:+ ts) (hPaste : z.is "##" = false)
    (hSpares : ∀ x, Spares x (lates x) ts = true →
      Spares x (lates x) (seg ++ z :: more) = true) :
    Ahead c (fun x => lates x || Hashes x more) { args := p.args } (seg ++ [z.toEof]) s := by
  have hHashes : ∀ x, Hashes x (seg ++ z :: more) = true → Hashes x ts = true := by
    intro x hInner
    rcases hInside with ⟨gone, rfl⟩
    exact hashes_suffix gone hInner
  refine ⟨?_, fun x hx => ?_, hAhead.sparing fun x hAll => ?_⟩
  · have hKept : Intact c (fun x => lates x = true ∨ Hashes x ts = true) { args := p.args } s := by
      refine hAhead.intact.kept rfl fun x hx => ?_
      rcases hAhead.intact.level x hx with ⟨hMacros, hLevel⟩
      exact ⟨hMacros, by simp [Flat], hLevel.args⟩
    refine hKept.mono fun x hx => ?_
    rw [Bool.or_eq_true_iff] at hx
    rcases hx with (hLate | hAfter) | hPart
    · exact .inl hLate
    · exact .inr (hHashes x (hashes_suffix seg (hashes_tail hAfter)))
    · exact .inr (hHashes x (hashes_part seg (Token.ends_toEof z) _ hPart))
  · rcases (hAhead.body x hx).suffix hInside with
      hNil | ⟨front, e, hFront, hEnds, hFlat⟩
    · simp at hNil
    · have hPrefix : seg <+: front := by
        refine List.prefix_of_prefix_length_le (List.prefix_append seg (z :: more))
          (hFront ▸ List.prefix_append front [e]) ?_
        have hLength := congrArg List.length hFront
        simp only [List.length_append, List.length_cons, List.length_nil] at hLength
        omega
      exact .inr ⟨seg, _, rfl, Token.ends_toEof z, fun w hw => hFlat w (hPrefix.subset hw)⟩
  · exact spares_part (Token.ends_toEof z) hPaste more seg (hSpares x hAll)

/- The body after a part, with the arguments it left. -/
theorem Ahead.after (hAhead : Ahead c lates p ts s) (hMore : more <:+ ts)
    (hSpares : ∀ x, Spares x (lates x) ts = true →
      Spares x (lates x) more = true)
    (hIntact : Intact c (fun x => (lates x || Hashes x more) = true) q s') :
    Ahead c lates { p with done := p.done ++ q.done, args := q.args } more
      s' := by
  refine ⟨?_, fun x hx => (hAhead.body x hx).suffix hMore, hAhead.sparing hSpares⟩
  have hKept : Intact c (fun x => (lates x || Hashes x more) = true)
      { p with done := p.done ++ q.done, args := q.args }
      s' := by
    refine hIntact.kept rfl fun x hx => ?_
    rcases hIntact.level x hx with ⟨hMacros, hLevel⟩
    refine ⟨hMacros, fun w hw => ?_, hLevel.args⟩
    simp only [Array.toList_append, List.mem_append] at hw
    rcases hw with hOld | hNew
    · exact (hAhead.intact.level x hx).2.done w hOld
    · exact hLevel.done w hNew
  refine hKept.mono fun x hx => ?_
  rw [Bool.or_eq_true_iff]
  exact hx

/- A part of a body that depends on further arguments. -/
theorem agreed_optional (hGo : Agreed c expand fuel) (hAhead : Ahead c lates p (t :: rest) s)
    (hNot : (t.is "#" || t.is "##") = false) (hParen : (rest.headD default).is "(" = true) :
    Matches s (do
        let (opt, close) ←
          ofScan (Arguments.readOne true 0 rest.tail)
        let r ←
          if p.hasRest then do
            let inner ← substVia spellFound expand fuel { args := p.args } opt
            pure { p with
              done := p.done ++ inner.done
              args := inner.args }
          else pure p
        substVia spellFound expand fuel r (← ofScan (Arguments.skip ")" close)))
      (do
        let (opt, close) ←
          ofScan (Arguments.readOne true 0 rest.tail)
        let r ←
          if p.hasRest then do
            let inner ← substVia (spellWritten c.args) expand fuel { args := p.args } opt
            pure { p with
              done := p.done ++ inner.done
              args := inner.args }
          else pure p
        substVia (spellWritten c.args) expand fuel r (← ofScan (Arguments.skip ")" close)))
      (Intact c fun x => lates x = true) := by
  refine (matches_ofScan _).bind fun r s₁ hScan => ?_
  rcases r with ⟨opt, close⟩
  rcases hScan with ⟨hRead, rfl⟩
  rcases readOne_parts hRead with
    ⟨seg, z, more, hAfter, rfl, rfl, hClose⟩
  have hEnd : (z.is "#" || z.is "##") = false := not_operator hClose (by decide) (by decide)
  have hInside : seg ++ z :: more <:+ t :: rest := by
    rw [← hAfter]
    exact (List.tail_suffix rest).trans (List.suffix_cons t rest)
  have hMore : more <:+ t :: rest :=
    (List.suffix_cons z more).trans ((List.suffix_append seg _).trans hInside)
  have hSpares : ∀ x, Spares x (lates x) (t :: rest) = true →
      Spares x (lates x) (seg ++ z :: more) = true := by
    intro x hAll
    have hOuter := spares_tail hNot hAll
    cases rest with
    | nil => cases hRead
    | cons next after =>
      rw [List.tail_cons] at hAfter
      rw [← hAfter]
      exact spares_tail (not_operator hParen (by decide) (by decide)) hOuter
  have hTail : ∀ (r : Progress) (s₂ : Session), Ahead c lates r more s₂ → Matches s₂ (do
            let rest ← ofScan (Arguments.skip ")" (z :: more))
            substVia spellFound expand fuel r rest)
          (do
            let rest ← ofScan (Arguments.skip ")" (z :: more))
            substVia (spellWritten c.args) expand fuel r rest)
          (Intact c fun x => lates x = true) := by
    intro r s₂ hNext
    refine (matches_ofScan _).bind fun rest' s₃ hSkip => ?_
    rcases hSkip with ⟨hSkip, rfl⟩
    simp only [Arguments.skip, hClose, if_true] at hSkip
    cases hSkip
    exact hGo s₃ more r lates hNext
  by_cases hGiven : p.hasRest = true
  · simp only [hGiven, if_true]
    refine (hGo s₁ _ _ _ (hAhead.part hInside (Bool.or_eq_false_iff.mp hEnd).2 hSpares)).bind
      fun inner s₂ hIntact => ?_
    exact hTail _ s₂ (hAhead.after hMore (fun x hAll =>
      spares_after hEnd more seg (hSpares x hAll)) hIntact)
  · simp only [hGiven]
    exact hTail p s₁ (hAhead.go hMore rfl hAhead.intact.level fun x hAll =>
        spares_after hEnd more seg (hSpares x hAll))

/- An idle argument, expanded where it stands. -/
theorem repeated_arg (hExpand : Repeats c.macros expand) (hMacros : s.macros = c.macros)
    (hBody : ProperBody ts) (hIdle : ∀ w ∈ ts, Idle c.macros w) {e : Expanded}
    (hRun : expand ts s = .ok e s') (t : Token) :
    spellings ((e.spacedAs t).source.takeWhile (!·.isEof)) = spellings (ts.takeWhile (!·.isEof)) ∧
      ∀ w ∈ (e.spacedAs t).source, Idle c.macros w := by
  rcases hBody with ⟨front, end', rfl, hEnds, hFlat⟩
  have hShown := hExpand s s' front end' e hMacros hFlat
    (fun w hw => hIdle w (by simp [hw])) hEnds hRun
  rw [hShown, source_repeated]
  have hOpen : ∀ {ts : List Token}, Flat ts → ∀ u ∈ ts, (!u.isEof) = true := by
    intro ts hTs u hu
    simp [(hTs u hu).isEof]
  constructor
  · have hFront : (front ++ [end']).takeWhile (!·.isEof) = front := by
      rw [List.takeWhile_append_of_pos (hOpen hFlat)]
      simp [hEnds.isEof]
    rw [hFront, ← spellings_repeated s t front]
    cases front with
    | nil => simp [spacedAs, Token.isEof, hEnds.kind]
    | cons u front =>
      have hRest : ∀ w ∈ front.map (shownIn s), (!w.isEof) = true := by
        intro w hw
        rcases List.mem_map.mp hw with ⟨v, hv, rfl⟩
        exact hOpen hFlat v (by simp [hv])
      have hFirst : (shownIn s u).isEof = false := (hFlat u (by simp)).isEof
      simp only [List.map_cons, List.cons_append, spacedAs]
      rw [List.takeWhile_cons_of_pos (by
        simpa [Token.isEof] using hFirst), List.takeWhile_append_of_pos hRest]
      simp [hEnds.isEof]
  · intro w hw
    have hSame : ∃ v ∈ front ++ [end'], v.hidden = w.hidden ∧ v.text = w.text ∧
          v.kind = w.kind := by
      cases front with
      | nil =>
        rcases List.mem_singleton.mp hw with rfl
        exact ⟨end', by simp, rfl, rfl, rfl⟩
      | cons u front =>
        rcases List.mem_cons.mp hw with rfl | hLater
        · exact ⟨u, by simp, rfl, rfl, rfl⟩
        · rcases List.mem_append.mp hLater with hMapped | hLast
          · rcases List.mem_map.mp hMapped with ⟨v, hv, rfl⟩
            exact ⟨v, by simp [hv], rfl, rfl, rfl⟩
          · rcases List.mem_singleton.mp hLast with rfl
            exact ⟨w, by simp, rfl, rfl, rfl⟩
    rcases hSame with ⟨v, hv, hHidden, hText, hKind⟩
    have hOld := hIdle v hv
    unfold Idle Macros.ofToken? Token.isIdent at hOld ⊢
    rwa [hHidden, hText, hKind] at hOld

/- A parameter that stands alone. -/
theorem agreed_alone
    (hExpand : ∀ x, c.idle x →
      QuietExpand c.macros expand ∧ Repeats c.macros expand) (hGo : Agreed c expand fuel)
    (hAhead : Ahead c lates p (t :: rest) s) (hNot : (t.is "#" || t.is "##") = false)
    (hNext : (rest.headD default).is "##" = false) (hArg : p.arg? t = some a) :
    Matches s (do
        let r ← expandArg expand p t a
        substVia spellFound expand fuel r rest)
      (do
        let r ← expandArg expand p t a
        substVia (spellWritten c.args) expand fuel r rest)
      (Intact c fun x => lates x = true) := by
  have hFind : p.args.find? (·.name == a.name) = some a ∧ names a.name t = true := by
    have hKind := hArg
    unfold Progress.arg? at hKind
    split at hKind
    · rename_i hIs
      have hName := List.find?_some hKind
      rw [beq_iff_eq] at hName
      rw [hName]
      exact ⟨hKind, by simp [names, hIs]⟩
    · cases hKind
  cases rest with
  | nil =>
    refine Matches.bind (Q := fun _ _ => True) (matches_refl fun _ _ _ => trivial) fun r s' _ => ?_
    exact matches_nil _ _ _ _ _ _
  | cons next after =>
  have hFirst : Matches s (expandArg expand p t a) (expandArg expand p t a) fun r s' =>
        Ahead c lates r (next :: after) s' := by
    refine matches_refl fun r s' hRun => ?_
    have hLevel : ∀ x, c.idle x → s'.macros = c.macros ∧ Level r := by
      intro x hx
      rcases hAhead.intact.level x hx with ⟨hMacros, hLevel⟩
      have hStart : t.atLineStart = false := by
        rcases hAhead.body x hx with hNil | hBody
        · cases hNil
        rcases hBody.cases with
          ⟨e, hOnly, -⟩ | ⟨u, us, hCons, hPlain, -⟩
        · cases hOnly
        · cases hCons
          exact hPlain.atLineStart
      rcases (quiet_expandArg (hExpand x hx).1 hMacros hLevel
        hStart (hLevel.arg? hArg)).kept r s' hRun with
        ⟨hSame, hNew⟩
      exact ⟨hSame.trans hMacros, hNew⟩
    rcases bind_split hRun with ⟨e, s₁, hExpanded, hPure⟩
    cases hPure
    refine ⟨?_, fun x hx => (hAhead.body x hx).suffix
      (List.suffix_cons t _), hAhead.sparing fun x => spares_tail hNot⟩
    refine hAhead.intact.setArg hFind.1 (fun x hx => ?_) (fun hIdle => ?_) rfl hLevel
    · refine ⟨hx.imp_right hashes_tail, ?_⟩
      -- a name that is due is another one, or it is idle
      rcases hAhead.spares x with hIdle | hNone | hSpares
      · exact .inr hIdle
      · refine .inl ?_
        rintro rfl
        have hAbsent := hAhead.intact.absent _ hNone
        rw [spelled?, hFind.1] at hAbsent
        cases hAbsent
      refine .inl ?_
      rintro rfl
      rcases spares_alone hNot hNext hFind.2 hSpares with
        hNil | hNever
      · cases hNil
      · rw [Bool.or_eq_false_iff] at hNever
        rcases hx with hLate | hHashes
        · rw [hNever.1] at hLate
          cases hLate
        · rw [hNever.2] at hHashes
          cases hHashes
    · rcases hAhead.intact.level _ hIdle with
        ⟨hMacros, hArgs⟩
      exact repeated_arg (hExpand _ hIdle).2 hMacros (hArgs.arg? hArg)
        ((hAhead.intact.idle _ hIdle).2 a hFind.1) hExpanded t
  exact hFirst.bind fun r s' hNew => hGo s' _ r lates hNew

end Branches

/-
  Both ways to spell agree: the induction is on the fuel, with
  one lemma for each kind of token.
-/
theorem agreed_subst {expand : Expand}
    (hIndented : ∀ a ∈ c.args, Indented (a.toks.takeWhile (!·.isEof)))
    (hExpand : ∀ x, c.idle x →
      QuietExpand c.macros expand ∧ Repeats c.macros expand) (fuel : Nat) :
    Agreed c expand fuel := by
  induction fuel with
  | zero => exact fun _ _ _ _ _ => matches_throw _ _
  | succ fuel hGo =>
    intro s ts p late hAhead
    cases ts with
    | nil => exact matches_throw _ _
    | cons t rest =>
    rw [substVia, substVia]
    simp only
    refine matches_ite (fun _ => ?_) fun hEof => ?_
    · exact matches_pure (hAhead.intact.mono fun x hx => .inl hx)
    rw [Bool.not_eq_true] at hEof
    refine matches_ite (fun hHash => agreed_hash hIndented hGo hAhead hHash) fun hHash => ?_
    split
    · rename_i a hComma
      rw [Option.filter_eq_some_iff] at hComma
      rcases hComma with ⟨hArg, -⟩
      split at hArg
      · rename_i hBoth
        rw [Bool.and_eq_true_iff] at hBoth
        exact agreed_comma hGo hAhead hEof hBoth.1 hBoth.2 a
      · cases hArg
    refine matches_ite (fun hPaste => agreed_doubleHash hGo hAhead hPaste) fun hPaste => ?_
    have hNot : (t.is "#" || t.is "##") = false := by simp [hHash, hPaste]
    split
    · rename_i a hBefore
      rw [Option.filter_eq_some_iff] at hBefore
      exact agreed_beforePaste hGo hAhead hNot hBefore.2 hBefore.1
    rename_i hAlone
    refine matches_ite (fun hOpt => ?_) fun _ => ?_
    · rw [Bool.and_eq_true_iff] at hOpt
      exact agreed_optional hGo hAhead hNot hOpt.2
    cases hArg : p.arg? t with
    | none => exact hGo s rest _ late (hAhead.push hEof (fun x => spares_tail hNot) List.suffix_rfl)
    | some a =>
      refine agreed_alone hExpand hGo hAhead hNot ?_ hArg
      rw [hArg] at hAlone
      simpa [Option.filter] using hAlone

end Substitution

------------
-- Calls
------------

namespace Expansion

open Pre Substitution

/-
  The tokens that take the place of a use, with the strings of
  arguments as they are written.
-/
def Use.writtenTokens
    (expand : Expand)
    (t : Token)
    (u : Use) : Pre (List Token) := do
  match u.definition with
  | .function _ _ body =>
    let p ← substVia (spellWritten u.args) expand
      (body.length + 1) { args := u.args } body
    return markBody t u.hidden p.done
  | _ => u.tokens expand t

/-
  An argument that no string can miss: no use of its parameter
  that stands alone comes before a hash on it, or else nothing
  in it is replaced, in a call on one line.
-/
def Unspoiled
    (ms : Macros)
    (args : List MacroArg)
    (body : List Token)
    (a : MacroArg) : Prop :=
  Spares a.name false body = true ∨ Tame ms ∧ (∀ b ∈ args, ProperBody b.toks) ∧
      ∀ w ∈ a.toks, Idle ms w

/-
  The strings that hashes make of arguments are those of the
  tokens that stand in the call.
-/
theorem literals_spell_arguments (n : Nat) (s : Session) (t : Token) (xs : List Token) (e : Token)
    (hEnds : e.Ends) {u : Use} (hUse : use? t (xs ++ [e]) s = .ok (some u) s)
    {params : List Bytes} {rest? : Option Bytes} {body : List Token}
    (hDefinition : u.definition = .function params rest? body)
    (hIndented : ∀ a ∈ u.args, Indented (a.toks.takeWhile (!·.isEof)))
    (hUnspoiled : ∀ a ∈ u.args, Unspoiled s.macros u.args body a) :
    u.tokens (expandAll n) t s = u.writtenTokens (expandAll n) t s ∧
      ∃ call, call ++ u.rest = xs ++ [e] ∧ ∀ a ∈ u.args, ∃ seg e', a.toks = seg ++ [e'] ∧
          e'.Ends ∧ seg <:+: call := by
  rcases (quiet_use? t xs hEnds).kept _ _ hUse with ⟨-, hTaken⟩
  rcases hTaken u rfl with ⟨call, r, rfl, hRest, hFound⟩
  refine ⟨?_, call, by rw [hRest, List.append_assoc], hFound.args⟩
  let c : Call :=
    { macros := s.macros
      args := u.args
      idle := fun x =>
        Tame s.macros ∧ (∀ b ∈ u.args, ProperBody b.toks) ∧
          ∃ a, u.args.find? (·.name == x) = some a ∧ ∀ w ∈ a.toks, Idle s.macros w }
  have hBody : Tame s.macros → ProperBody body := by
    intro hTame
    have hMacro := hTame.macro hFound.defined
    rw [hDefinition] at hMacro
    exact hMacro
  have hAhead : Ahead c (fun _ => false) { args := u.args } body s := by
    refine ⟨⟨fun _ _ => rfl, fun _ hNone => hNone,
      fun x hx => ⟨rfl, fun a ha => ?_⟩, fun x hx => ?_⟩,
      fun x hx => .inr (hBody hx.1), fun x => ?_⟩
    · rcases hx.2.2 with ⟨b, hb, hIdle⟩
      rw [hb] at ha
      cases ha
      exact hIdle
    · exact ⟨rfl, by simp [Flat], hx.2.1⟩
    · cases hFind : u.args.find? (·.name == x) with
      | none => exact .inr (.inl (by rw [spelled?, hFind]; rfl))
      | some a =>
        have hName := List.find?_some hFind
        rw [beq_iff_eq] at hName
        have hMem := List.mem_of_find?_eq_some hFind
        rcases hUnspoiled a hMem with hSpares | hCalm
        · rw [hName] at hSpares
          exact .inr (.inr hSpares)
        · exact .inl ⟨hCalm.1, hCalm.2.1, a, hFind, hCalm.2.2⟩
  have hExpand : ∀ x, c.idle x → QuietExpand c.macros (expandAll n) ∧
        Repeats c.macros (expandAll n) :=
    fun x hx => ⟨quiet_expandAll hx.1 n, repeats_expandAll _ n⟩
  have hAgreed := agreed_subst hIndented hExpand
    (body.length + 1) s body { args := u.args } _ hAhead
  unfold Use.tokens Use.writtenTokens
  rw [hDefinition]
  simp only [subst_eq_via]
  exact (hAgreed.bind fun p s' _ =>
    matches_refl (Q := fun _ _ => True) fun _ _ _ => trivial).1

/- A word after a blank. -/
def blankWord (text : String) : Token :=
  { spelled .ident text with spaced := true }

/- A macro that stands for a number. -/
def numberMacro : Bytes × Macro :=
  (ascii "M", .object [spelled .ppNum "1", spelled .eof ""])

/- A string of one parameter first, and of the other last. -/
def bothWays : Macro :=
  .function [ascii "x", ascii "y"] none
    [spelled .punct "#", spelled .ident "x",
      spelled .ident "x", spelled .ident "y",
      spelled .punct "#", spelled .ident "y", spelled .eof ""]

def bothTable : Macros :=
  [numberMacro, (ascii "G", bothWays)]

/- The use of the macro with the arguments `a M` and `b`. -/
def bothUse : Use where
  definition := bothWays
  args :=
    [⟨ascii "x", false, [spelled .ident "a", blankWord "M",
        (spelled .punct ",").toEof]⟩, ⟨ascii "y", false,
        [spelled .ident "b", (spelled .punct ")").toEof]⟩]
  hidden := [ascii "G"]
  rest := [spelled .eof ""]

/- A name in an argument is not replaced in its string. -/
theorem literals_spell_arguments_both :
    bothUse.tokens (expandAll 20) (spelled .ident "G")
          { macros := bothTable } = bothUse.writtenTokens (expandAll 20)
          (spelled .ident "G") { macros := bothTable } ∧
      texts? (bothUse.tokens (expandAll 20) (spelled .ident "G") { macros := bothTable }) =
        some (["\"a M\"", "a", "1", "b", "\"b\""].map ascii) := by
  have hTame : Tame bothTable := by
    intro entry hEntry
    simp only [bothTable, List.mem_cons, List.not_mem_nil, or_false] at hEntry
    rcases hEntry with rfl | rfl
    · exact ⟨[_], _, rfl, ⟨rfl, rfl⟩, by decide, by decide⟩
    · exact ⟨[_, _, _, _, _, _], _, rfl, ⟨rfl, rfl⟩, by decide⟩
  have hLines : ∀ b ∈ bothUse.args, ProperBody b.toks := by
    intro b hb
    simp only [bothUse, List.mem_cons, List.not_mem_nil, or_false] at hb
    rcases hb with rfl | rfl
    · exact ⟨[_, _], _, rfl, ⟨rfl, rfl⟩, by decide⟩
    · exact ⟨[_], _, rfl, ⟨rfl, rfl⟩, by decide⟩
  refine ⟨(literals_spell_arguments 20 { macros := bothTable } (spelled .ident "G")
    [spelled .punct "(", spelled .ident "a", blankWord "M",
      spelled .punct ",", spelled .ident "b", spelled .punct ")"]
    (spelled .eof "") ⟨rfl, rfl⟩ (u := bothUse) rfl rfl ?_
    ?_).1, by decide +kernel⟩
  · unfold Indented
    decide
  · intro a ha
    simp only [bothUse, List.mem_cons, List.not_mem_nil, or_false] at ha
    rcases ha with rfl | rfl
    · exact .inl (by decide)
    · refine .inr ⟨hTame, hLines, ?_⟩
      unfold Idle
      decide +kernel

/- A string of a parameter after a use that stands alone. -/
def lateString : Use where
  definition :=
    .function [ascii "x"] none
      [spelled .ident "x", spelled .punct "#",
        spelled .ident "x", spelled .eof ""]
  args :=
    [⟨ascii "x", false, [spelled .ident "a", blankWord "M",
      (spelled .punct ")").toEof]⟩]
  hidden := [ascii "F"]
  rest := [spelled .eof ""]

/- The string is made of what the first use left. -/
theorem late_string_spells_expansion :
    let s : Session := { macros := [numberMacro] }
    let t := spelled .ident "F"
    texts? (lateString.tokens (expandAll 20) t s) = some (["a", "1", "\"a 1\""].map ascii) ∧
      texts? (lateString.writtenTokens (expandAll 20) t s) =
        some (["a", "1", "\"a M\""].map ascii) := by
  decide +kernel

end Expansion

end CCompiler
