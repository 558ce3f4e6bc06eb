import Mathlib
import CCompiler.Preprocess.Preprocessor
import CCompiler.Proofs.Preprocess.Places

/-
  Where reading goes on after a directive.

  A directive reads some tokens of a list and goes on at a
  later place in it, before the end.  It changes none of the
  tokens that are left; what it puts before them are tokens of
  another file, as they were read from it.  The bodies of the
  macros it defines are lines.

  Main declarations:
    * `Expansion.Arrives`, `Expansion.Still`
    * `Expansion.Lexed`
    * `Directive.Includes`, `Directive.arrives_run`
-/

------------
-- Computations that Keep Bodies Lines
------------

namespace CCompiler

namespace Expansion

/-
  A computation whose answers have a property.  If all is
  calm, the bodies of all macros stay lines.
-/
def Arrives
    {α : Type}
    (calm : Prop)
    (s : Session)
    (x : Pre α)
    (Q : α → Prop) : Prop :=
  (calm → Tame s.macros) → ∀ a s', x s = .ok a s' →
    (calm → Tame s'.macros) ∧ Q a

section Arriving

variable {α β : Type} {calm : Prop} {s : Session}

variable {Q : α → Prop}

theorem arrives_pure {a : α} (hPost : Q a) : Arrives calm s (pure a) Q := by
  intro hTame b s' hRun
  cases hRun
  exact ⟨hTame, hPost⟩

theorem arrives_throw (e : Failure) (Q : α → Prop) : Arrives calm s (throw e) Q :=
  fun _ _ _ hRun => by cases hRun

theorem arrives_fail (t : Token) (cause : Fault) (Q : α → Prop) :
    Arrives calm s (Pre.fail t cause) Q := fun _ _ _ hRun => by cases hRun

theorem arrives_ofScan (scan : TokenScan α) :
    Arrives calm s (Pre.ofScan scan) fun a =>
      scan = .ok a := by
  cases scan with
  | ok a => exact arrives_pure rfl
  | error f => exact arrives_fail _ _ _

variable {x : Pre α}

/- A failure that is put into other words. -/
theorem arrives_tryCatch (hArrives : Arrives calm s x Q) (reword : Failure → Failure) :
    Arrives calm s (tryCatch x fun e => throw (reword e)) Q := by
  intro hTame a s' hRun
  change EStateM.tryCatch x _ s = _ at hRun
  unfold EStateM.tryCatch at hRun
  cases hX : x s with
  | ok b s₁ =>
    rw [hX] at hRun
    exact hArrives hTame a s' (hX.trans hRun)
  | error e s₁ =>
    rw [hX] at hRun
    cases hRun

variable {f : α → Pre β}

theorem Arrives.bind {R : β → Prop} (hFirst : Arrives calm s x Q)
    (hNext : ∀ a s', Q a → Arrives calm s' (f a) R) : Arrives calm s (x >>= f) R := by
  intro hTame b s' hRun
  rcases bind_split hRun with ⟨a, s₁, hX, hF⟩
  rcases hFirst hTame a s₁ hX with ⟨hTame₁, hPost⟩
  exact hNext a s₁ hPost hTame₁ b s' hF

/- A failure before some more. -/
theorem arrives_failed (t : Token) {cause : Fault} (Q : β → Prop) :
    Arrives calm s (Pre.fail t cause >>= f) Q :=
  (arrives_fail t cause fun _ => False).bind fun _ _ hNever => hNever.elim

theorem Arrives.mono {R : α → Prop} (hArrives : Arrives calm s x Q) (hPost : ∀ a, Q a → R a) :
    Arrives calm s x R := fun hTame a s' hRun => (hArrives hTame a s' hRun).imp_right (hPost a)

variable {c : Prop} {y : Pre α}

theorem arrives_ite [Decidable c] (hThen : c → Arrives calm s x Q)
    (hElse : ¬ c → Arrives calm s y Q) : Arrives calm s (if c then x else y) Q := by
  split
  · exact hThen ‹_›
  · exact hElse ‹_›

/- A quiet computation leads to what it gives, if all is calm. -/
theorem arrives_quiet (hQuiet : calm → Tame s.macros → Quiet s x Q) :
    Arrives calm s x fun a => calm → Q a := by
  intro hTame a s' hRun
  refine ⟨fun hCalm => ?_, fun hCalm => ?_⟩
  · rw [((hQuiet hCalm (hTame hCalm)).kept a s' hRun).1]
    exact hTame hCalm
  · exact ((hQuiet hCalm (hTame hCalm)).kept a s' hRun).2

/- A computation that leaves the macros as they are. -/
def Still (x : Pre α) : Prop :=
  ∀ s a s', x s = .ok a s' → s'.macros = s.macros

theorem arrives_still (hStill : Still x) : Arrives calm s x fun _ => True := by
  intro hTame a s' hRun
  rw [hStill s a s' hRun]
  exact ⟨hTame, trivial⟩

theorem still_get : Still (get : Pre Session) := by
  intro s a s' hRun
  cases hRun
  rfl

theorem still_modify {f : Session → Session} (hSame : ∀ s, (f s).macros = s.macros) :
    Still (modify f : Pre PUnit) := by
  intro s a s' hRun
  cases hRun
  exact hSame s

theorem still_pure (a : α) : Still (pure a : Pre α) := by
  intro s b s' hRun
  cases hRun
  rfl

theorem still_fail (t : Token) (cause : Fault) : Still (Pre.fail t cause : Pre α) :=
  fun _ _ _ hRun => by cases hRun

theorem Still.bind (hFirst : Still x) (hNext : ∀ a, Still (f a)) : Still (x >>= f) := by
  intro s b s' hRun
  rcases bind_split hRun with ⟨a, s₁, hX, hF⟩
  exact (hNext a s₁ b s' hF).trans (hFirst s a s₁ hX)

theorem still_ite [Decidable c] (hThen : Still x) (hElse : Still y) :
    Still (if c then x else y) := by
  split
  · exact hThen
  · exact hElse

theorem still_warn (t : Token) (group : Warning) (n : Notice) : Still (Pre.warn t group n) :=
  fun _ _ _ hRun => ((quiet_warn t group n).kept _ _ hRun).1

end Arriving

end Expansion

------------
-- Conditions and Definitions
------------

namespace Directive

open Expansion Pre Conditional

variable {calm : Prop} {s : Session} {expand : Expand}
  {ts : List Token}

/- A directive goes on at a later place. -/
def GoesOn (ts : List Token) (r : Resume) : Prop :=
  Within ts r.rest ∧ r.inserted = []

theorem arrives_skipLine (ts : List Token) : Arrives calm s (skipLine ts) (Within ts) := by
  unfold skipLine
  cases ts with
  | nil => exact arrives_throw _ _
  | cons t ts =>
    refine arrives_ite (fun _ => arrives_pure (within_refl _)) fun _ => ?_
    exact (arrives_still (still_warn _ _ _)).bind fun _ _ _ => arrives_pure (within_nextLine _)

/- The next line, after one more token. -/
theorem arrives_skipLine_tail (ts : List Token) :
    Arrives calm s (skipLine ts.tail) (Within ts) := by
  rcases ts with - | ⟨t, - | ⟨u, us⟩⟩
  · exact arrives_throw _ _
  · exact arrives_throw _ _
  · refine (arrives_skipLine (u :: us)).mono fun rest hWithin =>
      Within.trans ⟨List.suffix_cons t _, fun hClosed => ?_⟩ hWithin
    exact hClosed.suffix (List.suffix_cons t _) (by simp)

theorem arrives_condition (hExpand : QuietInLines expand) (hClosed : calm → Closed ts)
    (start : Token) :
    Arrives calm s (condition expand start ts) fun r =>
      Within ts r.2 := by
  rw [condition_eq]
  refine Arrives.bind (arrives_quiet fun hCalm hTame =>
    quiet_conditionValue (hExpand _ hTame) rfl start (properBody_copyLine (hClosed hCalm)))
    fun v s' _ => ?_
  exact arrives_pure (within_copyLine ts)

variable {rest : List Token}

theorem goesOn_if (taken : Prop) [Decidable taken] (hWithin : Within ts rest) :
    GoesOn ts (resumeAt (if taken then skipGroup 0 rest else rest)) := by
  refine ⟨?_, rfl⟩
  unfold resumeAt
  split
  · exact hWithin.trans (within_skipGroup 0 rest)
  · exact hWithin

theorem still_openSection (start : Token) (taken : Bool) : Still (openSection start taken) :=
  still_modify fun _ => rfl

theorem still_modifySection (f : Conditional → Conditional) : Still (modifySection f) := by
  refine still_modify fun s => ?_
  split <;> rfl

theorem still_openGroup (hash : Token) (cause : Fault) : Still (openGroup hash cause) := by
  refine still_get.bind fun s => ?_
  split
  · exact still_ite (still_fail _ _) (still_pure _)
  · exact still_fail _ _

theorem arrives_if (hExpand : QuietInLines expand) (hClosed : calm → Closed ts)
    (hash name : Token) :
    Arrives calm s (ifDirective expand hash name ts) (GoesOn ts) := by
  refine (arrives_condition hExpand hClosed name).bind fun r s' hWithin => ?_
  refine (arrives_still (still_openSection _ _)).bind fun _ _ _ => ?_
  exact arrives_pure (goesOn_if _ hWithin)

theorem arrives_ifdef (name : Token) : Arrives calm s (ifdefDirective name ts) (GoesOn ts) := by
  refine (arrives_still still_get).bind fun s₁ _ _ => ?_
  refine (arrives_still (still_openSection _ _)).bind fun _ _ _ => ?_
  refine (arrives_skipLine_tail ts).bind fun rest s₂ hWithin => ?_
  refine arrives_pure ⟨?_, rfl⟩
  unfold resumeAt
  split
  · exact hWithin
  · exact hWithin.trans (within_skipGroup 0 rest)

theorem arrives_elif (hExpand : QuietInLines expand) (hClosed : calm → Closed ts) {name : Token}
    (hName : ¬ name.Ends) (hash : Token) :
    Arrives calm s (elifDirective expand hash name ts) (GoesOn (name :: ts)) := by
  have hTail : Within (name :: ts) ts := within_tail hName ts
  refine (arrives_still (still_openGroup _ _)).bind fun c _ _ => ?_
  refine (arrives_still (still_modifySection _)).bind fun _ _ _ => ?_
  refine arrives_ite (fun _ => ?_) fun _ => ?_
  · exact arrives_pure ⟨within_skipGroup 0 _, rfl⟩
  refine (arrives_condition hExpand hClosed name).bind fun r s' hWithin => ?_
  refine arrives_ite (fun _ => ?_) fun _ => ?_
  · refine (arrives_still (still_modifySection _)).bind fun _ _ _ => ?_
    exact arrives_pure ⟨hTail.trans hWithin, rfl⟩
  · exact arrives_pure ⟨(hTail.trans hWithin).trans (within_skipGroup 0 _), rfl⟩

theorem arrives_else (hash : Token) : Arrives calm s (elseDirective hash ts) (GoesOn ts) := by
  refine (arrives_still (still_openGroup _ _)).bind fun c _ _ => ?_
  refine (arrives_still (still_modifySection _)).bind fun _ _ _ => ?_
  refine (arrives_skipLine ts).bind fun rest s' hWithin => ?_
  exact arrives_pure (goesOn_if _ hWithin)

theorem arrives_endif (hash : Token) : Arrives calm s (endifDirective hash ts) (GoesOn ts) := by
  refine (arrives_still still_get).bind fun s₁ _ _ => ?_
  have hRest : ∀ s₂ : Session, Arrives calm s₂ (do
        modify fun s => { s with conds := s.conds.tail }
        return resumeAt (← skipLine ts)) (GoesOn ts) := by
    intro s₂
    refine Arrives.bind (arrives_still ?_) fun _ _ _ =>
      (arrives_skipLine ts).bind fun rest s' hWithin => arrives_pure ⟨hWithin, rfl⟩
    exact still_modify fun _ => rfl
  refine arrives_ite (fun _ => ?_) fun _ => hRest _
  exact arrives_failed _ _

theorem arrives_undef (ts : List Token) : Arrives calm s (undef ts) (GoesOn ts) := by
  have hRest : ∀ s₁ : Session, Arrives calm s₁ (do
        modify fun s => { s with macros := s.macros.erase (first ts).text }
        return resumeAt (← skipLine ts.tail))
      (GoesOn ts) := by
    intro s₁
    refine Arrives.bind (Q := fun _ => True) ?_ fun _ _ _ => (arrives_skipLine_tail ts).bind
        fun rest s' hWithin => arrives_pure ⟨hWithin, rfl⟩
    intro hTame a s' hRun
    cases hRun
    exact ⟨fun hCalm => tame_erase (hTame hCalm) _, trivial⟩
  refine arrives_ite (fun _ => ?_) fun _ => hRest _
  exact arrives_failed _ _

/- A macro whose body is a line is entered. -/
theorem arrives_enter (name : Token) {m : Macro} (hMacro : calm → TameMacro m)
    (hWithin : Within ts rest) :
    Arrives calm s (do
        if let some old := (← get).macros.find? name.text then
          if !old.sameAs m then
            warn name .macroRedefined (.macroRedefined name.text)
        modify fun s => { s with macros := s.macros.insert name.text m }
        return resumeAt rest : Pre Resume) (GoesOn ts) := by
  have hAdd : ∀ s₁ : Session, Arrives calm s₁ (do
          modify fun s => { s with macros := s.macros.insert name.text m }
          return resumeAt rest : Pre Resume) (GoesOn ts) := by
    intro s₁ hTame a s' hRun
    cases hRun
    exact ⟨fun hCalm => tame_insert (hTame hCalm) _ (hMacro hCalm), hWithin, rfl⟩
  refine (arrives_still still_get).bind fun s₁ s₂ _ => ?_
  cases s₁.macros.find? name.text with
  | none => exact hAdd s₂
  | some old =>
    refine arrives_ite (fun _ => ?_) fun _ => hAdd s₂
    exact (arrives_still (still_warn _ _ _)).bind fun _ s₃ _ => hAdd s₃

/- A definition enters a macro whose body is a line. -/
theorem arrives_define (hClosed : calm → Closed ts) : Arrives calm s (define ts) (GoesOn ts) := by
  have hLine : ∀ {us : List Token}, Within ts us → calm → ProperBody (Arguments.copyLine us).1 :=
    fun hWithin hCalm => properBody_copyLine (hWithin.closed (hClosed hCalm))
  unfold define
  refine arrives_ite (fun _ => ?_) fun hIdent => ?_
  · exact arrives_failed _ _
  have hTail : Within ts ts.tail := by
    cases ts with
    | nil => exact within_refl []
    | cons t ts =>
      refine within_tail ?_ ts
      intro hEnds
      simp [first, Token.isIdent, hEnds.kind] at hIdent
  simp only
  refine arrives_ite (fun hParen => ?_) fun _ => ?_
  · rw [Bool.and_eq_true_iff] at hParen
    have hOpen : Within ts ts.tail.tail := by
      refine hTail.trans ?_
      cases hRest : ts.tail with
      | nil => exact within_refl []
      | cons u us =>
        rw [hRest] at hParen
        exact within_tail (not_ends_of_is (by decide) hParen.2) us
    refine (arrives_ofScan _).bind fun r s₁ hRead => ?_
    have hAfter : Within ts r.2 := hOpen.trans (within_parameters hRead)
    exact arrives_enter (m := .function _ _ _) (first ts)
      (hLine hAfter) (hAfter.trans (within_copyLine _))
  · exact arrives_enter (m := .object _) (first ts) (fun hCalm => (hLine hTail hCalm).lineBody)
      (hTail.trans (within_copyLine _))

------------
-- Files
------------

end Directive

variable {name : Bytes}

namespace Expansion

open Pre

/- A token as it is read from the text of its file. -/
def Lexed (t : Token) : Prop :=
  ∃ (cfg : Config) (name : Bytes) (ts : List Token),
    (Lexer.tokenize cfg t.file name).tokens = .ok ts ∧ t ∈ ts

/- A list of tokens as they are read, up to its end. -/
structure Loaded (ts : List Token) : Prop where
  closed : Closed ts
  lexed : ∀ t ∈ ts, Lexed t

variable {f : SourceFile} {cfg : Config} {ts : List Token}

/-
  Reading the rest of a file gives tokens of that file, which
  stem from no macro, up to an end.
-/
theorem closed_lexer {fuel : Nat} {gap : Lexer.Gap} {c : Lexer.Cursor} {dollars : List Nat}
    {done : List Token} (hDone : ∀ t ∈ done, t.file = f ∧ t.origin? = none)
    (hRun : (Lexer.run cfg f name fuel gap c dollars done).result = .ok ts) :
    Closed ts ∧ ∀ t ∈ ts, t.file = f ∧ t.origin? = none := by
  induction fuel generalizing gap c dollars done with
  | zero => cases hRun
  | succ fuel ih =>
    rw [Lexer.run] at hRun
    split at hRun
    · cases hRun
    split at hRun
    · cases hRun
      refine ⟨⟨_, _, rfl, ⟨rfl, rfl⟩⟩, fun t ht => ?_⟩
      rcases List.mem_append.mp ht with hOld | hEof
      · exact hDone t (List.mem_reverse.mp hOld)
      · rw [List.mem_singleton.mp hEof]
        exact ⟨rfl, rfl⟩
    simp only at hRun
    split at hRun
    · cases hRun
    · exact ih (List.forall_mem_cons.mpr ⟨⟨rfl, rfl⟩, hDone⟩) hRun

theorem closed_tokenize (hRead : (Lexer.tokenize cfg f name).tokens = .ok ts) :
    Closed ts ∧ ∀ t ∈ ts, t.file = f ∧ t.origin? = none := by
  unfold Lexer.tokenize at hRead
  simp only at hRead
  cases hResult : (Lexer.lexFile cfg f name).result with
  | error e =>
    rw [hResult] at hRead
    cases hRead
  | ok us =>
    rw [hResult] at hRead
    cases hRead
    exact closed_lexer (by simp) hResult

/- A token that is read stems from no macro. -/
theorem Lexed.origin? {t : Token} (hLexed : Lexed t) : t.origin? = none := by
  rcases hLexed with ⟨cfg, name, ts, hRead, ht⟩
  exact ((closed_tokenize hRead).2 t ht).2

theorem loaded_tokenize (hRead : (Lexer.tokenize cfg f name).tokens = .ok ts) : Loaded ts := by
  rcases closed_tokenize hRead with ⟨hClosed, hTokens⟩
  refine ⟨hClosed, fun t ht => ⟨cfg, name, ts, ?_, ht⟩⟩
  rw [(hTokens t ht).1]
  exact hRead

variable {calm : Prop} {s : Session}

theorem still_say (m : Message) : Still (say m) :=
  still_ite (still_pure _) (still_modify fun _ => rfl)

theorem arrives_tokenize (f : SourceFile) (name : Bytes) :
    Arrives calm s (tokenize f name) Loaded := by
  refine (arrives_still still_get).bind fun s₁ _ _ => ?_
  refine (arrives_still (still_say _)).bind fun _ _ _ => ?_
  cases hTokens : (Lexer.tokenize s₁.cfg f name).tokens with
  | error e => exact arrives_throw _ _
  | ok ts => exact arrives_pure (loaded_tokenize hTokens)

theorem still_addFile (name contents : Bytes) : Still (addFile name contents) := by
  refine still_get.bind fun s => ?_
  refine Still.bind (still_get.bind fun _ => ?_) fun f => ?_
  · refine Still.bind ?_ fun _ => still_pure _
    exact still_modify fun _ => rfl
  · refine Still.bind ?_ fun _ => still_pure _
    exact still_modify fun _ => rfl

theorem arrives_tokenizeSource (name src : Bytes) :
    Arrives calm s (tokenizeSource name src) Loaded := by
  refine (arrives_still (still_addFile _ _)).bind fun f _ _ => ?_
  refine Arrives.bind (arrives_still ?_) fun _ _ _ => arrives_tokenize f name
  exact still_get.bind fun _ => still_ite (still_say _) (still_pure _)

end Expansion

namespace Include

open Expansion Pre

variable {calm : Prop} {s : Session}

theorem still_consult (path : Bytes) : Still (consult path) := by
  refine Still.bind ?_ fun _ => still_get.bind fun _ => still_pure _
  exact still_modify fun _ => rfl

theorem still_fileExists (path : Bytes) : Still (fileExists path) := by
  unfold fileExists
  split
  · exact still_pure _
  · exact (still_consult path).bind fun _ => still_pure _

theorem still_read (path : Bytes) : Still (read path) := by
  unfold read
  split
  · split <;> exact still_pure _
  · refine (still_consult path).bind fun store => ?_
    refine still_ite ?_ (still_pure _)
    refine Still.bind ?_ fun _ => still_pure _
    refine still_get.bind fun s => ?_
    refine Still.bind ?_ fun _ => still_pure _
    exact still_modify fun _ => rfl

theorem still_firstWith (name : Bytes) (dirs : List Bytes) (i : Nat) :
    Still (firstWith name i dirs) := by
  induction dirs generalizing i with
  | nil => exact still_pure _
  | cons dir dirs ih =>
    refine (still_fileExists _).bind fun _ => ?_
    exact still_ite (still_pure _) (ih (i + 1))

theorem still_search (name : Bytes) : Still (search name) := by
  refine still_ite (still_pure _) ?_
  refine still_get.bind fun s => ?_
  split
  · exact still_pure _
  · refine still_get.bind fun s₁ => ?_
    refine (still_firstWith _ _ _).bind fun found? => ?_
    split
    · refine Still.bind ?_ fun _ => still_pure _
      exact still_modify fun _ => rfl
    · exact still_pure _

theorem still_searchNext (name : Bytes) : Still (searchNext name) := by
  refine still_get.bind fun s => ?_
  refine still_get.bind fun s₁ => ?_
  refine (still_firstWith _ _ _).bind fun found? => ?_
  split
  · refine Still.bind ?_ fun _ => still_pure _
    exact still_modify fun _ => rfl
  · refine Still.bind ?_ fun _ => still_pure _
    exact still_modify fun _ => rfl

theorem still_searchBeside (asking name : Bytes) : Still (searchBeside asking name) :=
  (still_fileExists _).bind fun _ => still_ite (still_pure _) (still_pure _)

variable {ts : List Token}

theorem lexed_beforeEof (hLoaded : Loaded ts) : ∀ t ∈ beforeEof ts, Lexed t :=
  fun t ht => hLoaded.lexed t ((List.takeWhile_prefix _).sublist.subset ht)

/- The tokens of an included file are as they are read. -/
theorem arrives_includeFile (path : Bytes) (nameTok : Token) :
    Arrives calm s (includeFile path nameTok) fun ts =>
      ∀ t ∈ ts, Lexed t := by
  refine (arrives_still still_get).bind fun s₁ _ _ => ?_
  refine arrives_ite (fun _ => arrives_pure (by simp)) fun _ => ?_
  refine arrives_ite (fun _ => arrives_pure (by simp)) fun _ => ?_
  refine (arrives_still (still_read path)).bind fun r _ _ => ?_
  cases r with
  | error f => exact arrives_fail _ _ _
  | ok text =>
    refine (arrives_tokenizeSource path text).bind fun ts s₂ hLoaded => ?_
    have hBefore := lexed_beforeEof hLoaded
    simp only
    split
    · refine Arrives.bind (arrives_still ?_) fun _ _ _ => arrives_pure hBefore
      exact still_modify fun _ => rfl
    · exact arrives_pure hBefore

/- A file that is put before a text. -/
theorem arrives_forceOne (name : Bytes) : Arrives calm s (forceOne name) Loaded := by
  have hRead (s₁ : Session) (path : Bytes) (next : Except FileFault Bytes → Pre (List Token))
      (hError : ∀ f, ∃ e, next (.error f) = throw e)
      (hText : ∀ text, ∃ onFault : Failure → Failure, next (.ok text) =
        tryCatch (tokenizeSource path text) fun f => throw (onFault f)) :
      Arrives calm s₁ (read path >>= next) Loaded := by
    refine (arrives_still (still_read path)).bind fun r s₂ _ => ?_
    cases r with
    | error f =>
      obtain ⟨e, hEq⟩ := hError f
      rw [hEq]
      exact arrives_throw _ _
    | ok text =>
      obtain ⟨onFault, hEq⟩ := hText text
      rw [hEq]
      exact arrives_tryCatch (arrives_tokenizeSource path text) _
  refine (arrives_still (still_fileExists _)).bind fun found s₁ _ => ?_
  refine arrives_ite (fun _ => hRead s₁ name _ (fun _ => ⟨_, rfl⟩) fun _ => ⟨_, rfl⟩) fun _ => ?_
  refine (arrives_still (still_search _)).bind fun path? s₂ _ => ?_
  cases path? with
  | none => exact arrives_throw _ _
  | some path => exact hRead s₂ path _ (fun _ => ⟨_, rfl⟩) fun _ => ⟨_, rfl⟩

/- Files that are put before a text. -/
theorem arrives_force (names : List Bytes) (hLoaded : Loaded ts) :
    Arrives calm s (force names ts) Loaded := by
  unfold force
  induction names.reverse generalizing s ts with
  | nil => exact arrives_pure hLoaded
  | cons name names ih =>
    rw [List.foldlM_cons]
    refine Arrives.bind (Q := Loaded) ?_ fun us s₁ hNext => ih hNext
    refine (arrives_forceOne name).bind fun us s₁ hFile => arrives_pure ⟨?_, ?_⟩
    · exact hLoaded.closed.append (beforeEof us)
    · intro t ht
      rcases List.mem_append.mp ht with hNew | hOld
      · exact lexed_beforeEof hFile t hNew
      · exact hLoaded.lexed t hOld

end Include

namespace Preprocessor

open Expansion Pre

variable {calm : Prop} {s : Session}

/- What is preprocessed is as it was read. -/
theorem arrives_load (name : Bytes) (src? : Option Bytes) (forced : List Bytes) :
    Arrives calm s (load name src? >>= Include.force forced) Loaded := by
  refine Arrives.bind (Q := Loaded) ?_ fun ts s₁ hLoaded => Include.arrives_force forced hLoaded
  cases src? with
  | some src => exact arrives_tokenizeSource name src
  | none =>
    refine (arrives_still (Include.still_read name)).bind fun r s₁ _ => ?_
    cases r with
    | ok text => exact arrives_tokenizeSource name text
    | error f => exact arrives_throw _ _

end Preprocessor

------------
-- Directives
------------

namespace Directive

open Expansion Pre Conditional

variable {calm : Prop} {s : Session} {expand : Expand}
  {ts : List Token}

variable {done : Array Token}

/- The closing one of the brackets around a file name. -/
theorem suffix_angled {close : List Token} (hScan : angled done ts = .ok (name, close)) :
    close <:+ ts ∧ close ≠ [] := by
  induction ts generalizing done with
  | nil => cases hScan
  | cons t ts ih =>
    rw [angled] at hScan
    split at hScan
    · cases hScan
      exact ⟨List.suffix_rfl, by simp⟩
    · split at hScan
      · cases hScan
      · exact (ih hScan).imp_left fun hSuffix => hSuffix.trans (List.suffix_cons t ts)

theorem within_angled {r : Bytes × List Token} (hScan : angled done ts.tail = .ok r) :
    Within ts r.2 := by
  rcases suffix_angled hScan with ⟨hSuffix, hSome⟩
  have hAll : r.2 <:+ ts := hSuffix.trans (List.tail_suffix ts)
  exact ⟨hAll, fun hClosed => hClosed.suffix hAll hSome⟩

theorem arrives_fileName (hExpand : QuietInLines expand) (fuel : Nat) (hClosed : calm → Closed ts) :
    Arrives calm s (fileName expand fuel ts) fun r =>
      Within ts r.2.2 := by
  induction fuel generalizing s ts with
  | zero => exact arrives_throw _ _
  | succ fuel ih =>
    unfold fileName
    refine arrives_ite (fun _ => ?_) fun _ => ?_
    · exact (arrives_skipLine_tail ts).bind fun rest s' hWithin => arrives_pure hWithin
    refine arrives_ite (fun _ => ?_) fun _ => ?_
    · refine arrives_ite (fun _ => arrives_failed _ _) fun _ => ?_
      refine (arrives_ofScan _).bind fun r s₁ hScan => ?_
      exact (arrives_skipLine_tail r.2).bind fun rest s₂ hRest => arrives_pure
          ((within_angled hScan).trans hRest)
    refine arrives_ite (fun _ => ?_) fun _ => arrives_fail _ _ _
    refine Arrives.bind (arrives_quiet fun hCalm hTame =>
      hExpand _ hTame s _ rfl (properBody_copyLine (hClosed hCalm)))
      fun e s₁ hLists => ?_
    refine (ih fun hCalm => ?_).bind fun r s₂ _ => arrives_pure (within_copyLine ts)
    exact ⟨e.done, e.eof, rfl, (hLists hCalm).2.2⟩

/- An inclusion puts the tokens of a file before the rest. -/
def Includes (ts : List Token) (r : Resume) : Prop :=
  Within ts r.rest ∧ ∀ t ∈ r.inserted, Lexed t

theorem arrives_include (hExpand : QuietInLines expand) (hClosed : calm → Closed ts)
    (hash : Token) :
    Arrives calm s (includeDirective expand hash ts) (Includes ts) := by
  refine (arrives_fileName hExpand 64 hClosed).bind fun r s₁ hWithin => ?_
  rcases r with ⟨name, quoted, rest⟩
  have hFile : ∀ (s₂ : Session) (path : Bytes), Arrives calm s₂ (do
          let inserted ← Include.includeFile path (first ts)
          return { inserted := inserted, rest := rest })
        (Includes ts) :=
    fun s₂ path => (Include.arrives_includeFile _ _).bind
      fun inserted s₃ hLexed => arrives_pure ⟨hWithin, hLexed⟩
  have hSearch : ∀ s₂ : Session, Arrives calm s₂ (do
          let found? ← Include.search name
          let inserted ← Include.includeFile (found?.getD name) (first ts)
          return { inserted := inserted, rest := rest })
        (Includes ts) :=
    fun s₂ => (arrives_still (Include.still_search _)).bind fun found? s₃ _ => hFile s₃ _
  refine arrives_ite (fun _ => ?_) fun _ => hSearch s₁
  refine (arrives_still (Include.still_searchBeside _ _)).bind fun beside? s₂ _ => ?_
  cases beside? with
  | some path => exact hFile s₂ path
  | none => exact hSearch s₂

theorem arrives_includeNext (hExpand : QuietInLines expand) (hClosed : calm → Closed ts) :
    Arrives calm s (includeNext expand ts) (Includes ts) := by
  refine (arrives_fileName hExpand 64 hClosed).bind fun r s₁ hWithin => ?_
  refine (arrives_still (Include.still_searchNext _)).bind fun path? s₂ _ => ?_
  exact (Include.arrives_includeFile _ _).bind
    fun inserted s₃ hLexed => arrives_pure ⟨hWithin, hLexed⟩

theorem still_modifyShown (t : Token) (f : Shown → Shown) : Still (modifyShown t f) :=
  still_modify fun _ => rfl

theorem still_convert (ts : List Token) : Still (convert ts) := by
  unfold convert
  split
  · exact still_pure _
  · exact still_fail _ _

theorem arrives_lineMarker (hExpand : QuietInLines expand) (hClosed : calm → Closed ts) :
    Arrives calm s (lineMarker expand ts) (GoesOn ts) := by
  have hRest : GoesOn ts (resumeAt (Arguments.copyLine ts).2) := ⟨within_copyLine ts, rfl⟩
  refine Arrives.bind (arrives_quiet fun hCalm hTame =>
    hExpand _ hTame s _ rfl (properBody_copyLine (hClosed hCalm)))
    fun e s₁ _ => ?_
  refine Arrives.bind (arrives_still (still_convert _)) fun line s₂ _ => ?_
  simp only
  split
  · refine (arrives_still (still_modifyShown _ _)).bind fun _ _ _ => ?_
    split
    · exact arrives_pure hRest
    · exact (arrives_still (still_modifyShown _ _)).bind fun _ _ _ => arrives_pure hRest
    · exact arrives_fail _ _ _
  · exact arrives_fail _ _ _

theorem arrives_pragma (name : Token) : Arrives calm s (pragma name ts) (GoesOn ts) := by
  refine arrives_ite (fun _ => ?_) fun _ => ?_
  · refine Arrives.bind (arrives_still ?_) fun _ _ _ =>
      (arrives_skipLine_tail ts).bind fun rest s' hWithin => arrives_pure ⟨hWithin, rfl⟩
    exact still_modify fun _ => rfl
  · have hRest : GoesOn ts (resumeAt (ts.dropWhile fun t => !t.atLineStart && !t.isEof)) :=
      ⟨within_nextLine ts, rfl⟩
    refine arrives_ite (fun _ => ?_) fun _ => arrives_pure hRest
    exact (arrives_still (still_warn _ _ _)).bind fun _ _ _ => arrives_pure hRest

/- A directive that goes on in its own list includes nothing. -/
theorem GoesOn.includes {r : Resume} (hGoes : GoesOn ts r) : Includes ts r :=
  ⟨hGoes.1, by simp [hGoes.2]⟩

/-
  Every directive goes on at a later place in its list, after
  tokens of an included file, and enters bodies that are
  lines.
-/
theorem arrives_run (hExpand : QuietInLines expand) (hClosed : calm → Closed ts) (hash : Token) :
    Arrives calm s (run expand hash ts) (Includes ts) := by
  -- what follows a name is a later place
  have hTail : ∀ {text : String}, ascii text ≠ [] →
      (first ts).is text = true → Within ts ts.tail := by
    intro text hText hIs
    cases ts with
    | nil => exact within_refl []
    | cons t ts => exact within_tail (not_ends_of_is hText hIs) ts
  have hIn : ∀ {x : Pre Resume}, Within ts ts.tail → Arrives calm s x (Includes ts.tail) →
          Arrives calm s x (Includes ts) :=
    fun hWithin hArrives => hArrives.mono fun r hGoes => ⟨hWithin.trans hGoes.1, hGoes.2⟩
  have hOn : ∀ {x : Pre Resume}, Within ts ts.tail → Arrives calm s x (GoesOn ts.tail) →
        Arrives calm s x (Includes ts) :=
    fun hWithin hArrives => hIn hWithin (hArrives.mono fun r hGoes => hGoes.includes)
  unfold run
  refine arrives_ite (fun hIs => ?_) fun _ => ?_
  · have hW := hTail (by decide) hIs
    exact hIn hW (arrives_include hExpand (fun hCalm => hW.closed (hClosed hCalm)) hash)
  refine arrives_ite (fun hIs => ?_) fun _ => ?_
  · have hW := hTail (by decide) hIs
    exact hIn hW (arrives_includeNext hExpand fun hCalm => hW.closed (hClosed hCalm))
  refine arrives_ite (fun hIs => ?_) fun _ => ?_
  · have hW := hTail (by decide) hIs
    exact hOn hW (arrives_define fun hCalm => hW.closed (hClosed hCalm))
  refine arrives_ite (fun hIs => ?_) fun _ => ?_
  · exact hOn (hTail (by decide) hIs) (arrives_undef _)
  refine arrives_ite (fun hIs => ?_) fun _ => ?_
  · have hW := hTail (by decide) hIs
    exact hOn hW (arrives_if hExpand (fun hCalm => hW.closed (hClosed hCalm)) hash _)
  refine arrives_ite (fun hIs => ?_) fun _ => ?_
  · rw [Bool.or_eq_true_iff] at hIs
    have hW : Within ts ts.tail := hIs.elim (hTail (by decide)) (hTail (by decide))
    exact hOn hW (arrives_ifdef _)
  refine arrives_ite (fun hIs => ?_) fun _ => ?_
  · cases ts with
    | nil => exact absurd hIs (by decide)
    | cons name after =>
      have hName := not_ends_of_is (by decide) hIs
      exact (arrives_elif hExpand (fun hCalm =>
        (within_tail hName after).closed (hClosed hCalm))
        hName hash).mono fun r hGoes => hGoes.includes
  refine arrives_ite (fun hIs => ?_) fun _ => ?_
  · exact hOn (hTail (by decide) hIs) (arrives_else hash)
  refine arrives_ite (fun hIs => ?_) fun _ => ?_
  · exact hOn (hTail (by decide) hIs) (arrives_endif hash)
  refine arrives_ite (fun hIs => ?_) fun _ => ?_
  · have hW := hTail (by decide) hIs
    exact hOn hW (arrives_lineMarker hExpand fun hCalm => hW.closed (hClosed hCalm))
  refine arrives_ite (fun _ => ?_) fun _ => ?_
  · exact (arrives_lineMarker hExpand hClosed).mono fun r hGoes => hGoes.includes
  refine arrives_ite (fun hIs => ?_) fun _ => ?_
  · exact hOn (hTail (by decide) hIs) (arrives_pragma _)
  refine arrives_ite (fun _ => arrives_fail _ _ _) fun _ => ?_
  refine arrives_ite (fun _ => ?_) fun _ => arrives_fail _ _ _
  exact arrives_pure ⟨within_refl ts, by simp [resumeAt]⟩

end Directive

end CCompiler
