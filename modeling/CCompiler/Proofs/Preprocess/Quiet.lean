import Mathlib
import CCompiler.Proofs.Preprocess.Termination

/-
  Computations that leave macros and sections alone.

  What makes tokens neither sees nor changes which conditional
  sections are open.  The same holds of substitution inside of
  a line, if it holds of the way to expand arguments, and no
  token that it makes starts a line.

  Main declarations:
    * `Session.under`
    * `Expansion.Blind`, `Expansion.Quiet`
    * `Expansion.QuietExpand`
    * `Expansion.quiet_subst`
-/

------------
-- Open Sections
------------

namespace CCompiler

/- A session in which other sections are open. -/
def Session.under
    (s : Session)
    (cs : List Conditional) : Session :=
  { s with conds := cs }

@[simp] theorem Session.under_under (s : Session) (cs cs' : List Conditional) :
    (s.under cs).under cs' = s.under cs' := rfl

@[simp] theorem Session.under_conds (s : Session) :
    s.under s.conds = s := rfl

@[simp] theorem Session.macros_under (s : Session) (cs : List Conditional) :
    (s.under cs).macros = s.macros := rfl

@[simp] theorem Session.conds_under (s : Session) (cs : List Conditional) :
    (s.under cs).conds = cs := rfl

namespace Expansion

variable {α β : Type}

variable {f : α → Pre β}

/- A first step of which the outcome is known. -/
theorem bind_split {x : Pre α} {s s' : Session} {b : β} (hRun : (x >>= f) s = .ok b s') :
    ∃ a s₁, x s = .ok a s₁ ∧ f a s₁ = .ok b s' := by
  cases hFirst : x s with
  | ok a s₁ =>
    rw [bind_ok hFirst] at hRun
    exact ⟨a, s₁, rfl, hRun⟩
  | error e s₁ =>
    rw [bind_error hFirst] at hRun
    cases hRun

/- An outcome in which other sections are open. -/
def outcomeUnder
    (cs : List Conditional) :
    EStateM.Result Failure Session α → EStateM.Result Failure Session α
| .ok a s => .ok a (s.under cs)
| .error e s => .error e (s.under cs)

/- A computation that has no regard for open sections. -/
def Blind (x : Pre α) : Prop :=
  ∀ s cs, x (s.under cs) = outcomeUnder cs (x s)

theorem blind_pure (a : α) : Blind (pure a : Pre α) := fun _ _ => rfl

theorem blind_throw (e : Failure) : Blind (throw e : Pre α) := fun _ _ => rfl

theorem blind_fail (t : Token) (cause : Fault) : Blind (Pre.fail t cause : Pre α) := fun _ _ => rfl

theorem blind_ofScan (scan : TokenScan α) : Blind (Pre.ofScan scan) := by
  cases scan with
  | ok a => exact blind_pure a
  | error f => exact blind_fail f.2 f.1

theorem blind_modify {f : Session → Session} (hSame : ∀ s cs, f (s.under cs) = (f s).under cs) :
    Blind (modify f : Pre PUnit) := by
  intro s cs
  exact congrArg (EStateM.Result.ok PUnit.unit) (hSame s cs)

theorem Blind.bind {x : Pre α} (hFirst : Blind x) (hNext : ∀ a, Blind (f a)) : Blind (x >>= f) := by
  intro s cs
  have hBefore := hFirst s cs
  cases hRun : x s with
  | error e s' =>
    rw [hRun] at hBefore
    rw [bind_error hBefore, bind_error hRun]
    rfl
  | ok a s' =>
    rw [hRun] at hBefore
    rw [bind_ok hBefore, bind_ok hRun]
    exact hNext a s' cs

/- What is read of the session has no regard for them. -/
theorem blind_get {f : Session → Pre β} (hSame : ∀ s cs, f (s.under cs) = f s)
    (hNext : ∀ s, Blind (f s)) : Blind (get >>= f) := by
  intro s cs
  change f (s.under cs) (s.under cs) = outcomeUnder cs (f s s)
  rw [hSame]
  exact hNext s s cs

variable {c : Prop} {y : Pre α}

theorem blind_ite [Decidable c] {x : Pre α} (hThen : Blind x) (hElse : Blind y) :
    Blind (if c then x else y) := by
  split
  · exact hThen
  · exact hElse

------------
-- Made Tokens
------------

theorem blind_shownOf (t : Token) : Blind (Pre.shownOf t) := fun _ _ => rfl

theorem blind_say (m : Message) : Blind (Pre.say m) :=
  blind_ite (blind_pure _) (blind_modify fun _ _ => rfl)

theorem blind_warn (t : Token) (group : Warning) (n : Notice) : Blind (Pre.warn t group n) := by
  refine Blind.bind (fun _ _ => rfl) fun place => ?_
  exact blind_get (fun _ _ => rfl) fun _ => blind_say _

theorem blind_tokenize (f : SourceFile) (shownName : Bytes) : Blind (Pre.tokenize f shownName) := by
  refine blind_get (fun _ _ => rfl) fun s => ?_
  refine (blind_say _).bind fun _ => ?_
  split
  · exact blind_pure _
  · exact blind_throw _

theorem blind_addText (name : Bytes) (number : Nat) (contents : Bytes) (shown : Shown) :
    Blind (Pre.addText name number contents shown) := by
  refine blind_get (fun _ _ => rfl) fun s => ?_
  exact (blind_modify fun _ _ => rfl).bind fun _ => blind_pure _

theorem blind_makeTokens (text : Bytes) (file : SourceFile) (line : Int) (spaced : Bool) :
    Blind (Pre.makeTokens text file line spaced) := by
  refine blind_get (fun _ _ => rfl) fun s => ?_
  refine (blind_addText _ _ _ _).bind fun f => ?_
  refine (blind_tokenize _ _).bind fun ts => ?_
  split <;> exact blind_pure _

theorem blind_makeToken (text : Bytes) (tmpl : Token) : Blind (Pre.makeToken text tmpl) := by
  refine (blind_makeTokens _ _ _ _).bind fun ts => ?_
  split
  · exact blind_pure _
  · exact blind_throw _

theorem blind_stringize (hash : Token) (arg : List Token) :
    Blind (Substitution.stringize hash arg) := blind_makeToken _ _

theorem blind_paste (l r : Token) : Blind (Substitution.paste l r) := by
  refine (blind_makeTokens _ _ _ _).bind fun ts => ?_
  split
  · exact blind_pure _
  · exact blind_fail _ _
  · exact blind_throw _

theorem blind_builtinToken (b : Builtin) (t : Token) : Blind (builtinToken b t) := by
  cases b with
  | file => exact (blind_shownOf _).bind fun _ => blind_makeToken _ _
  | line => exact (blind_shownOf _).bind fun _ => blind_makeToken _ _
  | counter =>
    refine blind_get (fun _ _ => rfl) fun s => ?_
    exact (blind_modify fun _ _ => rfl).bind fun _ => blind_makeToken _ _
  | timestamp => exact blind_makeToken _ _
  | baseFile => exact blind_get (fun _ _ => rfl) fun s => blind_makeToken _ _

------------
-- Quiet Computations
------------

/-
  A computation from a state that has no regard for open
  sections and leaves the macros as they are.
-/
structure Quiet
    (s : Session)
    (x : Pre α)
    (Q : α → Prop) : Prop where
  blind : ∀ cs, x (s.under cs) = outcomeUnder cs (x s)
  kept : ∀ a s', x s = .ok a s' → s'.macros = s.macros ∧ Q a

variable {s : Session}

variable {Q : α → Prop}

theorem Quiet.of_gives {x : Pre α} (hBlind : Blind x) (hGives : Gives True s x Q) :
    Quiet s x Q := by
  refine ⟨hBlind s, fun a s' hRun => ?_⟩
  unfold Gives at hGives
  rw [hRun] at hGives
  exact hGives

theorem quiet_pure {a : α} (hPost : Q a) : Quiet s (pure a) Q :=
  .of_gives (blind_pure a) (gives_pure hPost)

/- A failure. -/
theorem quiet_throw (e : Failure) (Q : α → Prop) : Quiet s (throw e) Q :=
  ⟨blind_throw e s, fun _ _ hRun => by cases hRun⟩

theorem quiet_fail (t : Token) (cause : Fault) (Q : α → Prop) : Quiet s (Pre.fail t cause) Q :=
  .of_gives (blind_fail t cause) (gives_fail t cause Q)

variable {R : β → Prop}

theorem Quiet.bind {x : Pre α} (hFirst : Quiet s x Q)
    (hNext : ∀ a s', s'.macros = s.macros → Q a → Quiet s' (f a) R) : Quiet s (x >>= f) R := by
  cases hRun : x s with
  | error e s' =>
    refine ⟨fun cs => ?_, fun b s'' hOk => ?_⟩
    · have hBefore := hFirst.blind cs
      rw [hRun] at hBefore
      rw [bind_error hBefore, bind_error hRun]
      rfl
    · rw [bind_error hRun] at hOk
      cases hOk
  | ok a s' =>
    rcases hFirst.kept a s' hRun with ⟨hMacros, hPost⟩
    have hAfter := hNext a s' hMacros hPost
    refine ⟨fun cs => ?_, fun b s'' hOk => ?_⟩
    · have hBefore := hFirst.blind cs
      rw [hRun] at hBefore
      rw [bind_ok hBefore, bind_ok hRun]
      exact hAfter.blind cs
    · rw [bind_ok hRun] at hOk
      rcases hAfter.kept b s'' hOk with ⟨hSame, hPost'⟩
      exact ⟨hSame.trans hMacros, hPost'⟩

theorem Quiet.mono {x : Pre α} {R : α → Prop} (hQuiet : Quiet s x Q) (hPost : ∀ a, Q a → R a) :
    Quiet s x R :=
  ⟨hQuiet.blind, fun a s' hRun => ⟨(hQuiet.kept a s' hRun).1, hPost a (hQuiet.kept a s' hRun).2⟩⟩

/- What is read of the session has no regard for sections. -/
theorem quiet_get {f : Session → Pre β} (hSame : ∀ cs, f (s.under cs) = f s)
    (hNext : Quiet s (f s) R) : Quiet s (get >>= f) R := by
  refine ⟨fun cs => ?_, hNext.kept⟩
  change f (s.under cs) (s.under cs) = _
  rw [hSame]
  exact hNext.blind cs

theorem quiet_ofScan (scan : TokenScan α) : Quiet s (Pre.ofScan scan) fun a => scan = .ok a := by
  cases scan with
  | ok a => exact quiet_pure rfl
  | error f => exact quiet_fail f.2 f.1 _

theorem quiet_ite [Decidable c] {x : Pre α} (hThen : c → Quiet s x Q) (hElse : ¬ c → Quiet s y Q) :
    Quiet s (if c then x else y) Q := by
  split
  · exact hThen ‹_›
  · exact hElse ‹_›

theorem quiet_warn (t : Token) (group : Warning) (n : Notice) :
    Quiet s (Pre.warn t group n) fun _ => True := by
  refine .of_gives (blind_warn t group n) ?_
  refine Gives.bind (Q := fun _ => True) ⟨rfl, trivial⟩ fun place _ _ _ => ?_
  exact (gives_get rfl).bind fun _ _ _ _ => gives_say _

------------
-- Substitution
------------

/- A way to expand that is quiet on lists inside of a line. -/
def QuietExpand (ms : Macros) (expand : Expand) : Prop :=
  ∀ (s : Session) (ts : List Token),
    s.macros = ms → ProperBody ts →
      Quiet s (expand ts) fun e =>
        Flat e.used ∧ Flat e.done ∧ e.eof.Ends

/- A substitution with nothing in it that starts a line. -/
structure Level (p : Substitution.Progress) : Prop where
  done : Flat p.done.toList
  args : ∀ a ∈ p.args, ProperBody a.toks

open Substitution

variable {ms : Macros} {expand : Expand}
  {p : Substitution.Progress}

theorem ProperBody.flat {ts : List Token} (hBody : ProperBody ts) :
    Flat (ts.takeWhile (!·.isEof)) := by
  rcases hBody with ⟨front, e, rfl, hEnds, hFlat⟩
  rw [takeWhile_front front hEnds]
  exact fun t ht => hFlat t ((List.takeWhile_prefix _).sublist.subset ht)

/- A body is at its end, or it goes on after a token. -/
theorem ProperBody.cases {ts : List Token} (hBody : ProperBody ts) :
    (∃ e, ts = [e] ∧ e.Ends) ∨ ∃ t rest, ts = t :: rest ∧ t.Plain ∧ ProperBody rest := by
  rcases hBody with ⟨front, e, rfl, hEnds, hFlat⟩
  cases front with
  | nil => exact .inl ⟨e, rfl, hEnds⟩
  | cons t front =>
    exact .inr ⟨t, front ++ [e], rfl, hFlat t (by simp), front, e, rfl, hEnds,
      fun u hu => hFlat u (by simp [hu])⟩

namespace Level

theorem arg? (hLevel : Level p) {t : Token} {a : MacroArg} (hArg : p.arg? t = some a) :
    ProperBody a.toks := by
  unfold Progress.arg? at hArg
  split at hArg
  · exact hLevel.args a (List.mem_of_find?_eq_some hArg)
  · cases hArg

theorem push (hLevel : Level p) {t : Token} (hPlain : t.Plain) : Level (p.push t) := by
  refine ⟨fun u hu => ?_, hLevel.args⟩
  simp only [Progress.push, Array.toList_push, List.mem_append, List.mem_singleton] at hu
  rcases hu with hOld | rfl
  · exact hLevel.done u hOld
  · exact hPlain

theorem append (hLevel : Level p) {ts : List Token} (hFlat : Flat (ts.takeWhile (!·.isEof))) :
    Level (p.append ts) := by
  refine ⟨fun u hu => ?_, hLevel.args⟩
  simp only [Progress.append, Array.toList_append, List.mem_append] at hu
  rcases hu with hOld | hNew
  · exact hLevel.done u hOld
  · exact hFlat u hNew

theorem setArg (hLevel : Level p) (name : Bytes) {ts : List Token} (hBody : ProperBody ts) :
    Level (p.setArg name ts) := by
  refine ⟨hLevel.done, ?_⟩
  have hGo : ∀ as : List MacroArg,
      (∀ a ∈ as, ProperBody a.toks) → ∀ a ∈ Progress.setArg.go name ts as, ProperBody a.toks := by
    intro as hArgs
    induction as with
    | nil => simp [Progress.setArg.go]
    | cons b as ih =>
      rw [List.forall_mem_cons] at hArgs
      unfold Progress.setArg.go
      split
      · exact List.forall_mem_cons.mpr ⟨hBody, hArgs.2⟩
      · exact List.forall_mem_cons.mpr ⟨hArgs.1, ih hArgs.2⟩
  exact hGo p.args hLevel.args

end Level

theorem blind_checkPaste (p : Substitution.Progress) (hash next : Token) :
    Blind (checkPaste p hash next) := by
  unfold checkPaste
  by_cases hEmpty : p.done.isEmpty = true
  · simp only [hEmpty, if_true]
    exact (blind_fail _ _).bind fun _ => blind_ite (blind_fail _ _) (blind_pure _)
  · simp only [hEmpty, Bool.false_eq_true, if_false]
    exact blind_ite (blind_fail _ _) (blind_pure _)

/- The last token joined to another one. -/
theorem quiet_pasteLast (hLevel : Level p) (t : Token) : Quiet s (p.pasteLast t) Level := by
  unfold Progress.pasteLast
  cases hBack : p.done.back? with
  | none => exact quiet_throw _ _
  | some last =>
    refine (Quiet.of_gives (blind_paste last t) (gives_paste last t)).bind fun u s' _ hPlain => ?_
    refine quiet_pure ⟨fun w hw => ?_, hLevel.args⟩
    simp only [Array.toList_push, Array.toList_pop, List.mem_append, List.mem_singleton] at hw
    rcases hw with hOld | rfl
    · exact hLevel.done w (List.mem_of_mem_dropLast hOld)
    · exact hPlain

/- The last token joined to the next one or to an argument. -/
theorem quiet_pasteNext (hLevel : Level p) (next : Token) : Quiet s (pasteNext p next) Level := by
  unfold pasteNext
  cases hArg : p.arg? next with
  | none => exact quiet_pasteLast hLevel next
  | some a =>
    simp only
    rcases (hLevel.arg? hArg).cases with
      ⟨e, hToks, hEnds⟩ | ⟨t, rest, hToks, -, hRest⟩
    · rw [hToks]
      refine quiet_ite (fun _ => quiet_pure hLevel) fun hSome => ?_
      simp [MacroArg.isEmpty, hToks, hEnds.isEof] at hSome
    · rw [hToks]
      refine quiet_ite (fun _ => quiet_pure hLevel) fun _ => ?_
      refine (quiet_pasteLast hLevel t).bind fun q s' _ hLevel' => ?_
      exact quiet_pure (hLevel'.append hRest.flat)

theorem level_afterEmpty (hLevel : Level p) {next : Token} (hPlain : next.Plain) :
    Level (afterEmpty p next) := by
  unfold afterEmpty
  cases hArg : p.arg? next with
  | none => exact hLevel.push hPlain
  | some a => exact hLevel.append (hLevel.arg? hArg).flat

variable {e : Expanded}

/- What is left of a list inside of a line is one again. -/
theorem properBody_source (hUsed : Flat e.used) (hDone : Flat e.done) (hEnds : e.eof.Ends) :
    ProperBody e.source := by
  unfold Expanded.source
  split
  · rename_i k _
    refine ⟨e.used ++ e.done.drop k, e.eof, rfl, hEnds, ?_⟩
    intro t ht
    rcases List.mem_append.mp ht with hFirst | hRest
    · exact hUsed t hFirst
    · exact hDone t (List.mem_of_mem_drop hRest)
  · exact ⟨e.used, e.eof, rfl, hEnds, hUsed⟩

/- The blanks of a token before what was expanded. -/
theorem spacedAs_level {t : Token} (hStart : t.atLineStart = false) (hUsed : Flat e.used)
    (hDone : Flat e.done) (hEnds : e.eof.Ends) :
    Flat (e.spacedAs t).done ∧ ProperBody (e.spacedAs t).source := by
  unfold Expanded.spacedAs
  split
  · rename_i hNone
    refine ⟨by simpa [hNone] using hDone, ?_⟩
    exact properBody_source hUsed hDone ⟨hEnds.kind, hEnds.text⟩
  · have hFlat := flat_spacedAs hStart hDone
    exact ⟨hFlat, properBody_source hUsed hFlat hEnds⟩

variable {a : MacroArg}

theorem quiet_expandArg (hExpand : QuietExpand ms expand) (hState : s.macros = ms)
    (hLevel : Level p) {t : Token} (hStart : t.atLineStart = false) (hArg : ProperBody a.toks) :
    Quiet s (expandArg expand p t a) Level := by
  unfold expandArg
  refine (hExpand s a.toks hState hArg).bind fun e s' _ hLists => ?_
  rcases hLists with ⟨hUsed, hDone, hEnds⟩
  rcases spacedAs_level hStart hUsed hDone hEnds with
    ⟨hFlat, hSource⟩
  refine quiet_pure ((hLevel.setArg a.name hSource).append ?_)
  exact fun u hu => hFlat u ((List.takeWhile_prefix _).sublist.subset hu)

/- Substitution with some fuel is quiet on every body. -/
def QuietSubst
    (ms : Macros)
    (expand : Expand)
    (fuel : Nat) : Prop :=
  ∀ (s : Session) (ts : List Token)
    (p : Substitution.Progress),
    s.macros = ms → ProperBody ts → Level p →
      Quiet s (subst expand fuel p ts) Level

/- A walk past the end of a body. -/
theorem quiet_subst_nil (fuel : Nat) (p : Substitution.Progress)
    (Q : Substitution.Progress → Prop) : Quiet s (subst expand fuel p []) Q := by
  cases fuel with
  | zero => exact quiet_throw _ _
  | succ fuel => exact quiet_throw _ _

section Branches

variable {fuel : Nat} {t : Token} {rest : List Token}

/- A hash makes a string of the argument after it. -/
theorem quiet_hash (hGo : QuietSubst ms expand fuel) (hState : s.macros = ms) (hLevel : Level p)
    (hRest : ProperBody rest) :
    Quiet s (match p.arg? (rest.headD default) with
      | none =>
        Pre.fail (rest.headD default) .hashWithoutParameter
      | some a => do
        let made ← stringize t a.toks
        subst expand fuel (p.push made) rest.tail)
      Level := by
  rcases hRest.cases with
    ⟨e, rfl, hEnds⟩ | ⟨next, after, rfl, -, hAfter⟩
  · simp only [List.headD_cons, arg?_ends _ hEnds]
    exact quiet_fail _ _ _
  · split
    · exact quiet_fail _ _ _
    · refine (Quiet.of_gives (blind_stringize t _) (gives_stringize t _)).bind
        fun u s' hMacros hPlain => ?_
      exact hGo s' after _ (hMacros.trans hState) hAfter (hLevel.push hPlain)

/- A double hash joins what stands before and after it. -/
theorem quiet_doubleHash (hGo : QuietSubst ms expand fuel) (hState : s.macros = ms)
    (hLevel : Level p) (hRest : ProperBody rest) :
    Quiet s (do
        checkPaste p t (rest.headD default)
        let r ← pasteNext p (rest.headD default)
        subst expand fuel r rest.tail)
      Level := by
  refine (Quiet.of_gives (blind_checkPaste p t _) (gives_checkPaste p t _)).bind
    fun _ s₁ hMacros hChecked => ?_
  rcases hRest.cases with
    ⟨e, rfl, hEnds⟩ | ⟨next, after, rfl, -, hAfter⟩
  · simp [hEnds.isEof] at hChecked
  · refine (quiet_pasteNext hLevel _).bind fun q s₂ hSame hLevel' => ?_
    exact hGo s₂ after q (hSame.trans (hMacros.trans hState)) hAfter hLevel'

/- A comma before a double hash and further arguments. -/
theorem quiet_comma (hGo : QuietSubst ms expand fuel) (hState : s.macros = ms) (hLevel : Level p)
    (hPlain : t.Plain) (hRest : ProperBody rest) (hPaste : (rest.headD default).is "##" = true)
    (hArg : p.arg? (rest.tail.headD default) = some a) :
    Quiet s (if a.isEmpty = true then
        subst expand fuel p rest.tail.tail
      else subst expand fuel (p.push t) rest.tail)
      Level := by
  rcases hRest.cases with
    ⟨e, rfl, hEnds⟩ | ⟨next, after, rfl, -, hAfter⟩
  · simp [hEnds.is_eq_false (s := "##") (by decide)] at hPaste
  rcases hAfter.cases with
    ⟨e, rfl, hEnds⟩ | ⟨u, more, rfl, -, hMore⟩
  · simp [arg?_ends p hEnds] at hArg
  exact quiet_ite (fun _ => hGo s more p hState hMore hLevel)
    fun _ => hGo s (u :: more) _ hState hAfter (hLevel.push hPlain)

/- An argument before a double hash stays as it is. -/
theorem quiet_beforePaste (hGo : QuietSubst ms expand fuel) (hState : s.macros = ms)
    (hLevel : Level p) (hRest : ProperBody rest) (hPaste : (rest.headD default).is "##" = true)
    (hArg : ProperBody a.toks) :
    Quiet s (if a.isEmpty = true then
        subst expand fuel (afterEmpty p (rest.tail.headD default))
          rest.tail.tail else subst expand fuel (p.append a.toks) rest)
      Level := by
  refine quiet_ite (fun _ => ?_) fun _ => hGo s rest _ hState hRest (hLevel.append hArg.flat)
  rcases hRest.cases with
    ⟨e, rfl, hEnds⟩ | ⟨next, after, rfl, -, hAfter⟩
  · simp [hEnds.is_eq_false (s := "##") (by decide)] at hPaste
  rcases hAfter.cases with
    ⟨e, rfl, hEnds⟩ | ⟨u, more, rfl, hPlain, hMore⟩
  · exact quiet_subst_nil fuel _ _
  · exact hGo s more _ hState hMore (level_afterEmpty hLevel hPlain)

variable {after : List Token}

/- Reading a part of a body gives two bodies. -/
theorem properBody_readOne {opt close : List Token} (hAfter : ProperBody after)
    (hRead : Arguments.readOne true 0 after = .ok (opt, close)) :
    ProperBody opt ∧ ∃ z more, close = z :: more ∧ z.is ")" = true ∧ ProperBody more := by
  have hPiece : Piece True after := ⟨hAfter, fun _ => trivial⟩
  rcases piece_readOne hPiece hRead with
    ⟨hOpt, -, z, more, hClose, hParen, hMore, -⟩
  exact ⟨hOpt.shape, z, more, hClose, hParen, hMore.shape⟩

/- A part of a body that depends on further arguments. -/
theorem quiet_optional (hGo : QuietSubst ms expand fuel) (hState : s.macros = ms)
    (hLevel : Level p) (hAfter : ProperBody after) :
    Quiet s (do
        let (opt, close) ←
          Pre.ofScan (Arguments.readOne true 0 after)
        let r ←
          if p.hasRest = true then do
            let inner ←
              subst expand fuel { args := p.args } opt
            pure { p with
              done := p.done ++ inner.done
              args := inner.args }
          else pure p
        subst expand fuel r (← Pre.ofScan (Arguments.skip ")" close)))
      Level := by
  refine (quiet_ofScan _).bind fun r s₁ hMacros hRead => ?_
  rcases r with ⟨opt, close⟩
  rcases properBody_readOne hAfter hRead with
    ⟨hOpt, z, more, rfl, hClose, hMore⟩
  have hSkip : Arguments.skip ")" (z :: more) = .ok more := by simp [Arguments.skip, hClose]
  have hTail : ∀ (s₂ : Session) (q : Substitution.Progress),
      s₂.macros = s₁.macros → Level q → Quiet s₂ (do
            let rest ←
              Pre.ofScan (Arguments.skip ")" (z :: more))
            subst expand fuel q rest)
          Level := by
    intro s₂ q hSame hLevel'
    rw [hSkip]
    exact hGo s₂ more q (hSame.trans (hMacros.trans hState)) hMore hLevel'
  by_cases hGiven : p.hasRest = true
  · simp only [hGiven, if_true]
    have hInner := hGo s₁ opt { args := p.args } (hMacros.trans hState) hOpt
      ⟨by simp [Flat], hLevel.args⟩
    refine hInner.bind fun q s₂ hSame hLevel' => ?_
    refine hTail s₂ _ hSame ⟨?_, hLevel'.args⟩
    intro u hu
    simp only [Array.toList_append, List.mem_append] at hu
    rcases hu with hOld | hNew
    · exact hLevel.done u hOld
    · exact hLevel'.done u hNew
  · simp only [hGiven]
    exact hTail s₁ p rfl hLevel

end Branches

/- Substitution is quiet, one token of the body at a time. -/
theorem quiet_subst (hExpand : QuietExpand ms expand) (fuel : Nat) : QuietSubst ms expand fuel := by
  induction fuel with
  | zero => exact fun _ _ _ _ _ _ => quiet_throw _ _
  | succ fuel hGo =>
    intro s ts p hState hBody hLevel
    rcases hBody.cases with
      ⟨e, rfl, hEnds⟩ | ⟨t, rest, rfl, hPlain, hRest⟩
    · simp only [subst, hEnds.isEof, if_true]
      exact quiet_pure hLevel
    simp only [subst, hPlain.isEof, Bool.false_eq_true, if_false]
    refine quiet_ite (fun _ => quiet_hash hGo hState hLevel hRest) fun _ => ?_
    split
    · rename_i a hComma
      rw [Option.filter_eq_some_iff] at hComma
      rcases hComma with ⟨hArg, -⟩
      split at hArg
      · rename_i hBoth
        exact quiet_comma hGo hState hLevel hPlain hRest (Bool.and_eq_true_iff.mp hBoth).2 hArg
      · cases hArg
    refine quiet_ite (fun _ => quiet_doubleHash hGo hState hLevel hRest) fun _ => ?_
    split
    · rename_i a hBefore
      rw [Option.filter_eq_some_iff] at hBefore
      exact quiet_beforePaste hGo hState hLevel hRest hBefore.2 (hLevel.arg? hBefore.1)
    refine quiet_ite (fun hOpt => ?_) fun _ => ?_
    · rcases hRest.cases with
        ⟨e, rfl, hEnds⟩ | ⟨next, after, rfl, -, hAfter⟩
      · simp [hEnds.is_eq_false (s := "(") (by decide)] at hOpt
      · exact quiet_optional hGo hState hLevel hAfter
    cases hArg : p.arg? t with
    | none => exact hGo s rest _ hState hRest (hLevel.push hPlain)
    | some a =>
      refine (quiet_expandArg hExpand hState hLevel hPlain.atLineStart (hLevel.arg? hArg)).bind
        fun q s' hMacros hLevel' => ?_
      exact hGo s' rest q (hMacros.trans hState) hRest hLevel'

end Expansion

end CCompiler
