import Mathlib
import CCompiler.Proofs.Preprocess.Following

/-
  Files that are read again.

  A file that was read is not opened again while its guard is
  defined.  Beside this expansion stands one that reads such a
  file each time.  If no file is interrupted in the section of
  its guard, the two give the same tokens: what is read again
  is taken away by two steps.

  Main declarations:
    * `Include.readAgain`, `Directive.runAgain`
    * `Expansion.stepAgain`, `Expansion.expandAgain`
    * `Expansion.Catches`
    * `Expansion.follows_expandAgain`
    * `Expansion.skipped_files_unseen`
-/

------------
-- Reading Again
------------

namespace CCompiler

namespace Include

open Pre Expansion

/- Whether a file is one whose guard is noted and defined. -/
def shut (s : Session) (path : Bytes) : Bool :=
  ((s.guards.lookup path).map s.macros.contains).getD false

/-
  The tokens of a file that is read again.  The text is not
  counted among those that were read.
-/
def readAgain (path : Bytes) (nameTok : Token) :
    Pre (List Token) := do
  let s ← get
  match ← read path with
  | .error f => fail nameTok (.cannotOpen path f.reason.message)
  | .ok text =>
    let ts ← tokenizeSource path text
    modify fun t => { t with shown := s.shown, files := s.files }
    return beforeEof ts

/- The tokens of an included file, which is read each time. -/
def includeAgain (path : Bytes) (nameTok : Token) :
    Pre (List Token) := do
  let s ← get
  if s.once.contains path then return []
  if shut s path then readAgain path nameTok
  else load path nameTok

end Include

variable {ts rest : List Token} {s s' : Session}

namespace Directive

open Pre Expansion Include

/- The path of the file that a directive asks for, and the rest. -/
def located (expand : Expand) (hash : Token) (ts : List Token) :
    Pre (Bytes × List Token) :=
  if (first ts).is "include" then do
    let (name, quoted, rest) ← fileName expand 64 ts.tail
    let beside? ← if quoted then
        searchBeside hash.file.name name
      else pure none
    match beside? with
    | some path => return (path, rest)
    | none => return ((← search name).getD name, rest)
  else do
    let (name, _, rest) ← fileName expand 64 ts.tail
    return ((← searchNext name).getD name, rest)

/- Fetch the file that a directive asks for. -/
def bringIn
    (fetch : Bytes → Token → Pre (List Token))
    (expand : Expand)
    (hash : Token)
    (ts : List Token) : Pre Resume := do
  let (path, rest) ← located expand hash ts
  return { inserted := ← fetch path (first ts.tail), rest := rest }

/- Carry out a directive; files are read each time. -/
def runAgain (expand : Expand) (hash : Token) (ts : List Token) :
    Pre Resume :=
  if asksFile ts then bringIn includeAgain expand hash ts
  else run expand hash ts

/- A directive that asks for a file fetches it. -/
theorem run_asks (expand : Expand) (hash : Token) (hAsks : asksFile ts = true) :
    run expand hash ts = bringIn includeFile expand hash ts := by
  unfold run bringIn located
  by_cases hInclude : (first ts).is "include" = true
  · simp only [hInclude, if_true]
    unfold includeDirective
    simp only [bind_assoc]
    refine bind_congr (m := Pre) fun r => ?_
    rcases r with ⟨name, quoted, rest⟩
    cases quoted with
    | true =>
      simp only [if_true, bind_assoc]
      refine bind_congr (m := Pre) fun beside? => ?_
      cases beside? with
      | none => simp only [bind_assoc, pure_bind]
      | some path => simp only [pure_bind]
    | false => simp only [Bool.false_eq_true, if_false, pure_bind, bind_assoc]
  · have hNext : (first ts).is "include_next" = true := by simpa [asksFile, hInclude] using hAsks
    simp only [hInclude, hNext, Bool.false_eq_true, if_false, if_true]
    unfold includeNext
    simp only [bind_assoc, pure_bind]

variable {expand : Expand}

theorem follows_located {expand' : Expand} (hExpand : ∀ ts, Follows (expand ts) (expand' ts))
    (hash : Token) (ts : List Token) :
    Follows (located expand hash ts) (located expand' hash ts) := by
  have hSearch : ∀ name (rest : List Token),
      let found : Pre (Bytes × List Token) := do
        return ((← search name).getD name, rest)
      Follows found found := fun name rest =>
    (follows_search name).bind fun _ => follows_pure _
  refine follows_ite ?_ ?_
  · refine (follows_fileName hExpand _ _).bind fun r => ?_
    rcases r with ⟨name, quoted, rest⟩
    cases quoted with
    | true =>
      refine (follows_searchBeside _ _).bind fun beside? => ?_
      cases beside? with
      | none => exact hSearch name rest
      | some path => exact follows_pure _
    | false => exact hSearch name rest
  · refine (follows_fileName hExpand _ _).bind fun r => ?_
    exact (follows_searchNext _).bind fun _ => follows_pure _

------------
-- Where Lines End
------------

/- A list that goes on with a new line, or is at its end. -/
def Landed (ts : List Token) : Prop :=
  ∀ t ∈ ts.head?, Section.Bounds t

theorem landed_skipLine (hRun : skipLine ts s = .ok rest s') : Landed rest := by
  cases ts with
  | nil => cases hRun
  | cons t more =>
    unfold skipLine at hRun
    simp only at hRun
    split at hRun
    · rename_i hStart
      cases hRun
      rintro u ⟨⟩
      exact .inl hStart
    · obtain ⟨_, s₁, -, hDrop⟩ := bind_split hRun
      cases hDrop
      intro u hu
      have hNot := List.head?_dropWhile_not (fun t => !t.atLineStart && !t.isEof) (t :: more)
      rw [Option.mem_def.mp hu] at hNot
      simpa [Section.Bounds, or_iff_not_imp_left] using hNot

theorem landed_copyLine (ts : List Token) : Landed (Arguments.copyLine ts).2 := by
  fun_induction Arguments.copyLine ts with
  | case1 => rintro u ⟨⟩
  | case2 t ts hEnds =>
    rintro u ⟨⟩
    exact Bool.or_eq_true_iff.mp hEnds
  | case3 t ts hInside line rest hLine ih =>
    rw [hLine] at ih
    exact ih

theorem landed_fileName {fuel : Nat} {r : Bytes × Bool × List Token}
    (hRun : fileName expand fuel ts s = .ok r s') : Landed r.2.2 := by
  cases fuel with
  | zero => cases hRun
  | succ fuel =>
    unfold fileName at hRun
    simp only at hRun
    split at hRun
    · obtain ⟨rest, s₁, hSkip, hLast⟩ := bind_split hRun
      cases hLast
      exact landed_skipLine hSkip
    split at hRun
    · split at hRun
      · cases hRun
      · obtain ⟨scan, s₁, -, hRest⟩ := bind_split hRun
        obtain ⟨rest, s₂, hSkip, hLast⟩ := bind_split hRest
        cases hLast
        exact landed_skipLine hSkip
    split at hRun
    · obtain ⟨e, s₁, -, hRest⟩ := bind_split hRun
      obtain ⟨inner, s₂, -, hLast⟩ := bind_split hRest
      cases hLast
      exact landed_copyLine ts
    · cases hRun

theorem landed_located {hash : Token} {r : Bytes × List Token}
    (hRun : located expand hash ts s = .ok r s') : Landed r.2 := by
  have hSearch : ∀ {name : Bytes} {rest : List Token} {look : Pre (Option Bytes)} {s₁ : Session},
      (look >>= fun found? => pure (found?.getD name, rest)) s₁ = .ok r s' →
      r.2 = rest := by
    intro name rest look s₁ hFound
    obtain ⟨found?, s₂, -, hLast⟩ := bind_split hFound
    cases hLast
    rfl
  unfold located at hRun
  split at hRun
  · obtain ⟨⟨name, quoted, rest⟩, s₁, hName, hRest⟩ := bind_split hRun
    have hLanded := landed_fileName hName
    cases quoted with
    | true =>
      obtain ⟨beside?, s₂, -, hFound⟩ := bind_split hRest
      cases beside? with
      | none => exact hSearch hFound ▸ hLanded
      | some path =>
        cases hFound
        exact hLanded
    | false => exact hSearch hRest ▸ hLanded
  · obtain ⟨⟨name, quoted, rest⟩, s₁, hName, hRest⟩ := bind_split hRun
    exact hSearch hRest ▸ landed_fileName hName

end Directive

variable {path : Bytes}

------------
-- What Is Read Again
------------

namespace Include

open Pre Expansion Conditional

/- What is read again is nothing, or wrapped in its guard. -/
theorem readAgain_run (hCovered : s.Covered) (hShut : shut s path = true) (nameTok : Token) :
    ∃ ts t, readAgain path nameTok s = .ok ts t ∧ s.Alike t ∧
      (ts = [] ∨ ∃ guard, s.macros.contains guard = true ∧ ∃ c : Shell guard, ts = c.toks) := by
  obtain ⟨guard, hNoted, hDefined⟩ : ∃ guard, s.guards.lookup path = some guard ∧
        s.macros.contains guard = true := by
    unfold shut at hShut
    cases hLookup : s.guards.lookup path with
    | none => simp [hLookup] at hShut
    | some g => exact ⟨g, rfl, by simpa [hLookup] using hShut⟩
  obtain ⟨text, hText, hKind⟩ := hCovered.known path guard hNoted
  obtain ⟨r, asked, hRead, hResult⟩ := read_run path s
  have hSpent : s.spent path = s := by
    unfold Session.spent
    split
    · rename_i hPath
      -- the standard input has been read, and is empty
      have hEmpty : text = [] := hKind.resolve_right fun hNot => hNot.1 hPath
      have hStdin : s.stdin = [] := by
        have hNone : builtinName? (ascii "-") = none := by decide
        subst hPath
        simpa [Session.textAt?, hNone, hEmpty] using hText
      rw [← hStdin]
    · rfl
  rw [hSpent] at hRead
  obtain rfl : r = .ok text := by
    rw [hText] at hResult
    cases r with
    | error e => cases hResult
    | ok text' =>
      cases hResult
      rfl
  let s₁ : Session := { s with asked := asked }
  obtain ⟨messages, hSource⟩ := tokenizeSource_run path text s₁
  have hAgain : ∀ ts, (Lexer.tokenize s.cfg (fileFor s₁ path text) path).tokens = .ok ts →
      readAgain path nameTok s = .ok (beforeEof ts)
        { s with asked := asked, messages := messages } := by
    intro ts hTokens
    have hTokens' : (Lexer.tokenize s₁.cfg (fileFor s₁ path text) path).tokens = .ok ts := hTokens
    rw [hTokens'] at hSource
    exact (bind_ok hRead).trans ((bind_ok hSource).trans rfl)
  rcases hKind with rfl | ⟨-, hGuard⟩
  · obtain ⟨e, hTokens, hEof⟩ := Lexer.tokenize_line s.cfg
      (fileFor s₁ path []) Splice.normalize_nil path
    refine ⟨_, _, hAgain _ hTokens, ⟨asked, messages, rfl⟩, .inl ?_⟩
    simp [beforeEof, hEof]
  · obtain ⟨ts, hTokens, hIs⟩ := exists_of_textGuard? hGuard (fileFor s₁ path text) rfl path
    have hWraps : wraps ts = true := wraps_of_soundText hTokens (hCovered.sound path text hText) hIs
    obtain ⟨c, e, rfl, hEof, hOpen⟩ := exists_shell hTokens hIs hWraps
    refine ⟨_, _, hAgain _ hTokens, ⟨asked, messages, rfl⟩, .inr ⟨guard, hDefined, c, ?_⟩⟩
    unfold beforeEof
    rw [List.takeWhile_append_of_pos (by simpa using hOpen)]
    simp [hEof]

end Include

namespace Conditional

open Directive

variable {guard : Bytes} (c : Shell guard)

/- Neither line of a guard asks for a file. -/
theorem Shell.asksFile_ifndef (rest : List Token) : asksFile (c.ifndef :: rest) = false := by
  simp only [asksFile, first, List.headD_cons, Token.is_eq c.asks]
  decide

theorem Shell.asksFile_endif (rest : List Token) : asksFile (c.endif :: rest) = false := by
  simp only [asksFile, first, List.headD_cons, Token.is_eq c.ends]
  decide

end Conditional

------------
-- Expansion That Reads Again
------------

namespace Expansion

open Pre Conditional Directive Include

/- One step of expanding a list, with a way to carry out directives. -/
def stepWith
    (carry : Token → List Token → Pre Resume)
    (expand : Expand)
    (p : Progress) : Pre (Sum Progress Expanded) := do
  match p.toks with
  | [] => throw (.crash .pastEnd)
  | t :: rest =>
    if t.isEof then
      return .inr ⟨p.used.toList, p.done.toList, p.kept?, t⟩
    match ← use? t rest with
    | some u =>
      let p := p.goOn (← u.tokens expand t) u.rest
      return .inl { p with toks := spacedAs t p.toks }
    | none =>
      if isHash t then
        let r ← carry t rest
        return .inl (p.goOn r.inserted r.rest)
      else
        let shown ← shownOf t
        return .inl (p.keep { t with
          lineDelta := shown.lineDelta
          filename := shown.name } rest)

theorem step_eq (expand : Expand) :
    step expand = stepWith (run expand) expand := rfl

/- One step of expanding a list; files are read each time. -/
def stepAgain (expand : Expand) :
    Progress → Pre (Sum Progress Expanded) :=
  stepWith (runAgain expand) expand

/- Expand a list of tokens; files are read each time. -/
def expandAgain : Nat → Expand
| 0 => fun _ => throw .exhausted
| n + 1 => fun ts =>
  repeatStep (stepAgain (expandAgain n)) n { toks := ts }

------------
-- Taken Away Again
------------

/- A directive that asks for no file is carried out as usual. -/
theorem stepAgain_directive (expand : Expand) {p : Progress} {h : Token} (hHash : h.Hash)
    (hOther : asksFile rest = false) (hToks : p.toks = h :: rest) (s : Session) :
    stepAgain expand p s = step expand p s := by
  have hIdle : Idle s.macros h := by
    right
    simp [Macros.ofToken?, hHash.notIdent]
  rw [step_directive expand hHash hToks]
  unfold stepAgain stepWith
  rw [hToks]
  simp only [hHash.isOpen, Bool.false_eq_true, if_false]
  refine (bind_ok (use?_idle hIdle rest)).trans ?_
  simp only [hHash.starts, if_true, runAgain, hOther, Bool.false_eq_true, if_false]
  rfl

variable {guard : Bytes} (c : Shell guard)

/- Two steps take away what was read again. -/
theorem stepAgain_shell (expand : Expand) (hDefined : s.macros.contains guard = true)
    (p : Progress) {t : Token} (hBounds : Section.Bounds t) (rest : List Token) :
    ∃ q s₁ messages, stepAgain expand (p.goOn c.toks (t :: rest)) s = .ok (.inl q) s₁ ∧
        stepAgain expand q s₁ = .ok (.inl (p.goOn [] (t :: rest)))
          { s with messages := messages } := by
  have hToks : (p.goOn c.toks (t :: rest)).toks = c.toks ++ t :: rest := goOn_toks p _ _
  obtain ⟨hFirst, messages, hNext⟩ := c.steps expand hDefined hBounds hToks
  rw [← stepAgain_directive expand c.opens (c.asksFile_ifndef _) hToks] at hFirst
  rw [← stepAgain_directive expand c.closes
    (c.asksFile_endif _) (goOn_toks _ _ _), c.goOn_eq] at hNext
  exact ⟨_, _, messages, hFirst, hNext⟩

/- Without an end of the list, what was read again is stuck. -/
theorem stepAgain_stuck (expand : Expand) (hDefined : s.macros.contains guard = true)
    (p : Progress) (n : Nat) (e : Expanded) (t : Session) :
    repeatStep (stepAgain expand) n (p.goOn c.toks []) s ≠ .ok e t := by
  let q := (p.goOn c.toks []).goOn [] [c.last, c.endif]
  have hFirst : stepAgain expand (p.goOn c.toks []) s =
      .ok (.inl q) (s.under (c.unread :: s.conds)) := by
    have hToks : (p.goOn c.toks []).toks = c.hash :: c.ifndef :: c.name :: (c.inner ++ []) := by
      simp [Shell.toks]
    rw [stepAgain_directive expand c.opens (c.asksFile_ifndef _) hToks,
      step_directive expand c.opens hToks]
    exact bind_ok (c.run_hash expand hDefined [])
  have hNext : ∃ s₁, stepAgain expand q (s.under (c.unread :: s.conds)) = .error .internal s₁ := by
    have hToks : q.toks = c.last :: c.endif :: [] := goOn_toks _ _ _
    have hRun : run expand c.last (c.endif :: []) = endifDirective c.last [] := by
      simp only [run, first, List.headD_cons, Token.is_eq c.ends]
      rfl
    rw [stepAgain_directive expand c.closes (c.asksFile_endif _) hToks,
      step_directive expand c.closes hToks]
    refine ⟨s, bind_error ?_⟩
    rw [hRun]
    rfl
  obtain ⟨s₁, hNext⟩ := hNext
  intro hRun
  rcases n with - | ⟨- | n⟩
  · cases hRun
  · rw [repeatStep_go hFirst] at hRun
    cases hRun
  · rw [repeatStep_go hFirst, repeatStep] at hRun
    rw [bind_error hNext] at hRun
    cases hRun

------------
-- Steps Beside Each Other
------------

/-
  How a step `a` of the expansion stands to a step `b` of the
  one that reads files again: they are the same, or what `b`
  read again is taken away by two more steps.  If nothing is
  left to expand, neither goes on.
-/
inductive Catches
    (next : Progress → Pre (Sum Progress Expanded)) :
    Sum Progress Expanded → Session → Sum Progress Expanded → Session → Prop
| same
    {a : Sum Progress Expanded}
    {t t' : Session}
    (hAlike : t.Alike t')
    (hCovered : t.Covered) :
    Catches next a t a t'
| detour
    {q q' q₁ : Progress}
    {t t' t₁ t₂ : Session}
    (hFirst : next q' t' = .ok (.inl q₁) t₁)
    (hNext : next q₁ t₁ = .ok (.inl q) t₂)
    (hAlike : t.Alike t₂)
    (hCovered : t.Covered) :
    Catches next (.inl q) t (.inl q') t'
| stuck
    {q q' : Progress}
    {t t' : Session}
    (hNone : q.toks = [])
    (hNever : ∀ n e u, repeatStep next n q' t' ≠ .ok e u) :
    Catches next (.inl q) t (.inl q') t'

/-
  Two computations beside each other: what the first one gives
  stands in a relation to what the second one gives from an
  alike session.
-/
def Tracks
    {α β : Type}
    (x : Pre α)
    (y : Pre β)
    (Q : α → Session → β → Session → Prop) : Prop :=
  ∀ s s' a t, s.Alike s' → s.Covered → x s = .ok a t →
    ∃ b t', y s' = .ok b t' ∧ Q a t b t'

section Tracking

variable {α β γ : Type}

variable {x y : Pre α}

theorem Follows.tracks {Q : α → Session → α → Session → Prop} (hFollows : Follows x y)
    (hSame : ∀ a t t', t.Alike t' → t.Covered → Q a t a t') : Tracks x y Q := by
  intro s s' a t hAlike hCovered hRun
  obtain ⟨t', hY, hAfter, hStill⟩ := hFollows s s' a t hAlike hCovered hRun
  exact ⟨a, t', hY, hSame a t t' hAfter hStill⟩

/- After computations of which one follows the other. -/
theorem Follows.tracks_bind {f : α → Pre β} {g : α → Pre γ} {P : α → Prop}
    {Q : β → Session → γ → Session → Prop} (hFirst : Follows x y)
    (hPost : ∀ s a t, x s = .ok a t → P a) (hNext : ∀ a, P a → Tracks (f a) (g a) Q) :
    Tracks (x >>= f) (y >>= g) Q := by
  intro s s' b t hAlike hCovered hRun
  obtain ⟨a, s₁, hX, hF⟩ := bind_split hRun
  obtain ⟨s₁', hY, hAlike₁, hCovered₁⟩ := hFirst s s' a s₁ hAlike hCovered hX
  obtain ⟨b', t', hG, hQ⟩ := hNext a (hPost s a s₁ hX) s₁ s₁' b t hAlike₁ hCovered₁ hF
  exact ⟨b', t', (bind_ok hY).trans hG, hQ⟩

/- Steps beside each other, if their directives are. -/
theorem tracks_stepWith {carry carry' : Token → List Token → Pre Resume} {expand expand' : Expand}
    {Q : Sum Progress Expanded → Session →
      Sum Progress Expanded → Session → Prop} (hExpand : ∀ ts, Follows (expand ts) (expand' ts))
    (hSame : ∀ a t t', t.Alike t' → t.Covered → Q a t a t') (p : Progress)
    (hCarry : ∀ t rest, Tracks
      (carry t rest >>= fun r =>
        pure (.inl (p.goOn r.inserted r.rest)))
      (carry' t rest >>= fun r =>
        pure (.inl (p.goOn r.inserted r.rest))) Q) :
    Tracks (stepWith carry expand p) (stepWith carry' expand' p) Q := by
  unfold stepWith
  cases p.toks with
  | nil =>
    intro s s' a t _ _ hRun
    cases hRun
  | cons t rest =>
    simp only
    split
    · exact (follows_pure _).tracks hSame
    · refine (follows_self (use? t rest)).tracks_bind (P := fun _ => True) (fun _ _ _ _ => trivial)
        fun u _ => ?_
      cases u with
      | some u => exact ((follows_tokens hExpand t u).bind fun _ => follows_pure _).tracks hSame
      | none =>
        simp only
        split
        · exact hCarry t rest
        · exact ((follows_self (shownOf t)).bind fun _ => follows_pure _).tracks hSame

end Tracking

end Expansion

namespace Include

open Pre Expansion

/- A file that is not opened although it may be read. -/
def Skipped (s : Session) (path : Bytes) : Prop :=
  s.once.contains path = false ∧ shut s path = true

theorem includeFile_run (path : Bytes) (nameTok : Token) (s : Session) :
    includeFile path nameTok s = (if s.once.contains path then pure []
        else if shut s path then pure []
        else load path nameTok : Pre (List Token)) s := rfl

theorem includeAgain_run (path : Bytes) (nameTok : Token) (s : Session) :
    includeAgain path nameTok s = (if s.once.contains path then pure []
        else if shut s path then readAgain path nameTok
        else load path nameTok : Pre (List Token)) s := rfl

theorem includeFile_skipped (hSkipped : Skipped s path) (nameTok : Token) :
    includeFile path nameTok s = .ok [] s ∧ includeAgain path nameTok s =
        readAgain path nameTok s := by
  obtain ⟨hOnce, hShut⟩ := hSkipped
  rw [includeFile_run, includeAgain_run, hOnce, hShut]
  exact ⟨rfl, rfl⟩

theorem includeAgain_eq (hNot : ¬ Skipped s path) (nameTok : Token) :
    includeAgain path nameTok s = includeFile path nameTok s := by
  rw [includeFile_run, includeAgain_run]
  cases hOnce : s.once.contains path with
  | true => rfl
  | false =>
    have hShut : shut s path = false := Bool.eq_false_iff.mpr fun hShut => hNot ⟨hOnce, hShut⟩
    rw [hShut]
    rfl

end Include

------------
-- Runs Beside Each Other
------------

namespace Expansion

open Pre Conditional Directive Include

/- What was read again of a skipped file is taken away. -/
theorem catches_skipped (hAlike : s.Alike s') (hCovered : s.Covered) (hSkipped : Skipped s path)
    (expand : Expand) (p : Progress) (nameTok : Token) (hLanded : Landed rest) :
    ∃ ts t', includeAgain path nameTok s' = .ok ts t' ∧
      Catches (stepAgain expand) (.inl (p.goOn [] rest)) s (.inl (p.goOn ts rest)) t' := by
  have hCovered' := hAlike.covered hCovered
  have hSkipped' : Skipped s' path := by
    obtain ⟨asked, messages, rfl⟩ := hAlike
    exact hSkipped
  obtain ⟨ts, t', hRead, hAfter, hKind⟩ := readAgain_run hCovered' hSkipped'.2 nameTok
  have hEnd : s.Alike t' := hAlike.trans hAfter
  refine ⟨ts, t', (includeFile_skipped hSkipped' _).2.trans hRead, ?_⟩
  rcases hKind with rfl | ⟨guard, hDefined, c, rfl⟩
  · exact .same hEnd hCovered
  have hStill : t'.macros.contains guard = true := by
    obtain ⟨asked, messages, rfl⟩ := hAfter
    exact hDefined
  cases rest with
  | nil => exact .stuck (goOn_toks _ _ _) fun n e u => stepAgain_stuck c expand hStill p n e u
  | cons u more =>
    obtain ⟨q, t₁, messages, hFirst, hNext⟩ :=
      stepAgain_shell c expand hStill p (hLanded u rfl) more
    refine .detour hFirst hNext ?_ hCovered
    exact hEnd.trans ⟨t'.asked, messages, rfl⟩

/- A file that is not skipped is fetched the same way. -/
theorem follows_fetch {t : Session} {nameTok : Token} (hAlike : s.Alike s') (hCovered : s.Covered)
    (hNot : ¬ Skipped s path) (hRun : includeFile path nameTok s = .ok ts t) :
    ∃ t', includeAgain path nameTok s' = .ok ts t' ∧ includeFile path nameTok s' = .ok ts t' ∧
        t.Alike t' ∧ t.Covered := by
  obtain ⟨t', hRun', hAfter⟩ := follows_includeFile path nameTok s s' ts t hAlike hCovered hRun
  have hNot' : ¬ Skipped s' path := by
    obtain ⟨asked, messages, rfl⟩ := hAlike
    exact hNot
  exact ⟨t', (includeAgain_eq hNot' _).trans hRun', hRun', hAfter⟩

variable {n m : Nat}

section Stepping

variable {expand expand' : Expand}

/- A step, and a step that reads files again. -/
theorem tracks_stepAgain (hExpand : ∀ ts, Follows (expand ts) (expand' ts)) (p : Progress) :
    Tracks (step expand p) (stepAgain expand' p) (Catches (stepAgain expand')) := by
  rw [step_eq]
  refine tracks_stepWith hExpand (fun _ _ _ => .same) p fun t rest => ?_
  unfold runAgain
  split
  swap
  · rename_i hOther
    exact ((follows_run hExpand t (by simpa using hOther)).bind
      fun _ => follows_pure _).tracks fun _ _ _ => .same
  rename_i hAsks
  rw [run_asks expand t hAsks]
  unfold bringIn
  simp only [bind_assoc, pure_bind]
  refine (follows_located hExpand t rest).tracks_bind (P := fun r => Landed r.2)
    (fun _ _ _ hRun => landed_located hRun)
    fun r hLanded => ?_
  intro s s' a u hAlike hCovered hRun
  obtain ⟨ts, s₁, hFile, hLast⟩ := bind_split hRun
  cases hLast
  by_cases hSkipped : Skipped s r.1
  · rw [(includeFile_skipped hSkipped _).1] at hFile
    cases hFile
    obtain ⟨ts, t', hAgain, hCatches⟩ := catches_skipped hAlike
      hCovered hSkipped expand' p (first rest.tail) hLanded
    exact ⟨_, t', (bind_ok hAgain).trans rfl, hCatches⟩
  · obtain ⟨t', hAgain, -, hAfter, hStill⟩ := follows_fetch hAlike hCovered hSkipped hFile
    exact ⟨_, t', (bind_ok hAgain).trans rfl, .same hAfter hStill⟩

/- A step that reads files again, and a step. -/
theorem tracks_step (hExpand : ∀ ts, Follows (expand' ts) (expand ts)) (p : Progress) :
    Tracks (stepAgain expand' p) (step expand p)
      fun b t' a t => Catches (stepAgain expand') a t b t' := by
  have hSame : ∀ {a : Sum Progress Expanded} {t' t : Session},
      t'.Alike t → t'.Covered → Catches (stepAgain expand') a t a t' :=
    fun hAlike hCovered => .same hAlike.symm (hAlike.covered hCovered)
  rw [step_eq]
  refine tracks_stepWith hExpand (fun _ _ _ => hSame) p fun t rest => ?_
  unfold runAgain
  split
  swap
  · rename_i hOther
    exact ((follows_run hExpand t (by simpa using hOther)).bind
      fun _ => follows_pure _).tracks fun _ _ _ => hSame
  rename_i hAsks
  rw [run_asks expand t hAsks]
  unfold bringIn
  simp only [bind_assoc, pure_bind]
  refine (follows_located hExpand t rest).tracks_bind (P := fun r => Landed r.2)
    (fun _ _ _ hRun => landed_located hRun)
    fun r hLanded => ?_
  intro s' s b t' hAlike hCovered hRun
  obtain ⟨ts, s₁, hAgain, hLast⟩ := bind_split hRun
  cases hLast
  by_cases hSkipped : Skipped s r.1
  · obtain ⟨ts', t₁, hRead, hCatches⟩ := catches_skipped
      hAlike.symm (hAlike.covered hCovered) hSkipped expand' p
      (first rest.tail) hLanded
    rw [hRead] at hAgain
    cases hAgain
    exact ⟨_, s, (bind_ok (includeFile_skipped hSkipped (first rest.tail)).1).trans rfl, hCatches⟩
  · have hNot : ¬ Skipped s' r.1 := by
      obtain ⟨asked, messages, rfl⟩ := hAlike
      exact hSkipped
    rw [includeAgain_eq hNot] at hAgain
    obtain ⟨t, -, hFile, hAfter, hStill⟩ := follows_fetch hAlike hCovered hNot hAgain
    exact ⟨_, t, (bind_ok hFile).trans rfl, hSame hAfter hStill⟩

/- What an expansion gives, the one that reads again gives. -/
theorem repeatStep_stepAgain (hExpand : ∀ ts, Follows (expand ts) (expand' ts))
    (hSteps : 3 * n ≤ m) (p : Progress) :
    Follows (repeatStep (step expand) n p) (repeatStep (stepAgain expand') m p) := by
  induction n generalizing m p with
  | zero => exact follows_throw _ _
  | succ n ih =>
    intro s s' e u hAlike hCovered hRun
    obtain ⟨k, rfl⟩ : ∃ k, m = k + 3 := ⟨m - 3, by omega⟩
    rw [repeatStep] at hRun
    obtain ⟨a, t, hStep, hRest⟩ := bind_split hRun
    obtain ⟨b, t', hAgain, hCatches⟩ := tracks_stepAgain hExpand p s s' a t hAlike hCovered hStep
    cases hCatches with
    | same hAfter hStill =>
      cases a with
      | inl q =>
        rw [repeatStep_go hAgain]
        exact ih (by omega) q t t' e u hAfter hStill hRest
      | inr e' =>
        cases hRest
        exact ⟨t', (bind_ok hAgain).trans rfl, hAfter, hStill⟩
    | @detour q _ _ _ _ _ _ hFirst hNext hAfter hStill =>
      rw [repeatStep_go hAgain, repeatStep_go hFirst, repeatStep_go hNext]
      exact ih (by omega) q t _ e u hAfter hStill hRest
    | @stuck q _ _ _ hNone hNever =>
      -- with nothing left, the expansion does not end
      cases n with
      | zero => cases hRest
      | succ n =>
        simp only [repeatStep, step, hNone] at hRest
        cases hRest

/- What the one that reads again gives, an expansion gives. -/
theorem repeatStep_step (hExpand : ∀ ts, Follows (expand' ts) (expand ts)) (hSteps : m ≤ n)
    (p : Progress) :
    Follows (repeatStep (stepAgain expand') m p) (repeatStep (step expand) n p) := by
  induction m using Nat.strong_induction_on generalizing n p with
  | _ m ih =>
    intro s' s e u hAlike hCovered hRun
    cases m with
    | zero => cases hRun
    | succ m =>
      obtain ⟨k, rfl⟩ : ∃ k, n = k + 1 := ⟨n - 1, by omega⟩
      rw [repeatStep] at hRun
      obtain ⟨b, t', hAgain, hRest⟩ := bind_split hRun
      obtain ⟨a, t, hStep, hCatches⟩ := tracks_step hExpand p s' s b t' hAlike hCovered hAgain
      cases hCatches with
      | same hAfter hStill =>
        have hStill' := hAfter.covered hStill
        cases b with
        | inl q =>
          rw [repeatStep_go hStep]
          exact ih m (by omega) (by omega) q t' t e u hAfter.symm hStill' hRest
        | inr e' =>
          cases hRest
          exact ⟨t, (bind_ok hStep).trans rfl, hAfter.symm, hStill'⟩
      | @detour q q' q₁ _ _ t₁ t₂ hFirst hNext hAfter hStill =>
        -- two more steps have to be left
        simp only at hRest
        rcases m with - | ⟨- | m⟩
        · cases hRest
        · rw [repeatStep_go hFirst] at hRest
          cases hRest
        · rw [repeatStep_go hFirst, repeatStep_go hNext] at hRest
          rw [repeatStep_go hStep]
          exact ih m (by omega) (by omega) q t₂ t e u hAfter.symm (hAfter.covered hStill) hRest
      | stuck hNone hNever => exact absurd hRest (hNever _ _ _)

end Stepping

/-
  Reading files again takes at most three times the steps, and
  changes nothing.
-/
theorem follows_expandAgain (hSteps : 3 * n ≤ m) (ts : List Token) :
    Follows (expandAll n ts) (expandAgain m ts) := by
  induction n generalizing m ts with
  | zero => exact follows_throw _ _
  | succ n ih =>
    obtain ⟨k, rfl⟩ : ∃ k, m = k + 1 := ⟨m - 1, by omega⟩
    exact repeatStep_stepAgain (fun us => ih (by omega) us) (by omega) _

theorem follows_expandAll (hSteps : m ≤ n) (ts : List Token) :
    Follows (expandAgain m ts) (expandAll n ts) := by
  induction m generalizing n ts with
  | zero => exact follows_throw _ _
  | succ m ih =>
    obtain ⟨k, rfl⟩ : ∃ k, n = k + 1 := ⟨n - 1, by omega⟩
    exact repeatStep_step (fun us => ih (by omega) us) (by omega) _

------------
-- Skipped Files
------------

/-
  Skipping a file under a guard cannot be seen, unless it is
  interrupted in the section of the guard.  While the guard is
  defined, its tokens give none and change no more than the
  messages.  If no file that can be read is interrupted, an
  expansion gives the same tokens and leaves the same state
  whether files are skipped or read each time.
-/
theorem skipped_files_unseen (s : Session) :
    (∀ (cfg : Config) (f : SourceFile) (name guard : Bytes) (ts : List Token),
      (Lexer.tokenize cfg f name).tokens = .ok ts → guard? ts = some guard →
      (soundText cfg f.contents = true ↔ ¬ Interrupted ts) ∧ (¬ Interrupted ts →
          ∀ s : Session, s.macros.contains guard = true →
          ∀ n, ∃ r messages, expandAll (n + 4) ts s =
              .ok r { s with messages := messages } ∧ r.done = [])) ∧
      (s.guards = [] → (∀ path text, s.textAt? path = some text →
          soundText s.cfg (Splice.normalize text) = true) →
        ∀ (ts : List Token) (r : Expanded), (∀ n t, expandAll n ts s = .ok r t →
            ∀ m, 3 * n ≤ m → ∃ t', expandAgain m ts s = .ok r t' ∧ t.Alike t') ∧
            ∀ m t', expandAgain m ts s = .ok r t' → ∀ n, m ≤ n → ∃ t,
                expandAll n ts s = .ok r t ∧ t'.Alike t) := by
  refine ⟨?_, ?_⟩
  · intro cfg f name guard ts hRead hGuard
    have hSound : soundText cfg f.contents = wraps ts := by
      unfold soundText
      rw [Lexer.tokenize_moved hRead ⟨0, [], 0, f.contents⟩ rfl []]
      simp [guard?_moved, wraps_moved, hGuard]
    rw [hSound]
    refine ⟨wraps_iff hGuard, fun hWhole s hDefined n => ?_⟩
    obtain ⟨c, e, rfl, hEof, -⟩ := exists_shell hRead hGuard ((wraps_iff hGuard).mpr hWhole)
    obtain ⟨r, messages, hRun, hOutput⟩ := expandAll_shell c hEof hDefined n
    refine ⟨r, messages, hRun, ?_⟩
    have hLength := congrArg List.length hOutput
    simpa [Expanded.output] using hLength
  · intro hGuards hSound ts r
    have hCovered : s.Covered := by
      refine ⟨hSound, fun path guard hNoted => ?_⟩
      rw [hGuards] at hNoted
      cases hNoted
    constructor
    · intro n t hRun m hSteps
      obtain ⟨t', hAgain, hAlike, -⟩ := follows_expandAgain
        hSteps ts s s r t (.refl s) hCovered hRun
      exact ⟨t', hAgain, hAlike⟩
    · intro m t' hRun n hSteps
      obtain ⟨t, hAgain, hAlike, -⟩ := follows_expandAll hSteps ts s s r t' (.refl s) hCovered hRun
      exact ⟨t, hAgain, hAlike⟩

theorem mem_of_lookup {α β : Type} [BEq α] [LawfulBEq α] {l : List (α × β)} {a : α} {b : β}
    (hLookup : l.lookup a = some b) : (a, b) ∈ l := by
  obtain ⟨front, back, rfl, -⟩ := List.lookup_eq_some_iff.mp hLookup
  simp

/- The contents of a file that is read are those of an entry. -/
theorem mem_of_read {store : FileStore} {contents : Bytes}
    (hRead : store.read path = .ok contents) :
    ∃ entry ∈ store.entries, entry.2 = .file contents := by
  unfold FileStore.read at hRead
  split at hRead
  · rename_i found hFind
    cases hRead
    unfold FileStore.find at hFind
    cases hPlace : store.resolve path with
    | error e =>
      rw [hPlace] at hFind
      cases hFind
    | ok place =>
      simp only [hPlace, bind, Except.bind] at hFind
      cases hEntry : store.entry? place with
      | none =>
        rw [hEntry] at hFind
        cases hFind
      | some e =>
        rw [hEntry] at hFind
        cases hFind
        unfold FileStore.entry? at hEntry
        split at hEntry
        · cases hEntry
        · exact ⟨_, mem_of_lookup hEntry, rfl⟩
  · cases hRead
  · cases hRead

/- The tokens of a text under a name. -/
def tokensOf (name text : String) : List Token :=
  match (Lexer.tokenize {} ⟨0, ascii name, 1, ascii text⟩
    (ascii name)).tokens with
  | .ok ts => ts
  | .error _ => []

variable {text : String}

theorem tokensOf_ok {name : String}
    (hOk : (Lexer.tokenize {} ⟨0, ascii name, 1, ascii text⟩
      (ascii name)).tokens.isOk = true) :
    (Lexer.tokenize {} ⟨0, ascii name, 1, ascii text⟩
      (ascii name)).tokens = .ok (tokensOf name text) := by
  unfold tokensOf
  cases hTokens : (Lexer.tokenize {} ⟨0, ascii name, 1, ascii text⟩ (ascii name)).tokens with
  | ok ts => rfl
  | error e =>
    rw [hTokens] at hOk
    cases hOk

/- A session in which a file with a text can be included. -/
def besideFile (text : String) : Session :=
  { store := .ofEntries [(ascii "g.h", ascii text)]
    shown := #[⟨ascii "m.c", 0⟩] }

/- The texts of the headers are sound. -/
theorem soundText_headers :
    ∀ entry ∈ Header.all, soundText {} (Splice.normalize
      (entry.2.flatMap fun l => ascii l ++ ascii "\n")) =
        true := by
  -- one evaluation for each header, as all of them together are large
  simp only [Header.all, List.forall_mem_cons]
  refine ⟨?_, ?_, ?_, ?_, ?_, ?_, ?_, nofun⟩
  all_goals decide +kernel

/- What can be read in such a session. -/
theorem sound_besideFile (hSound : soundText {} (Splice.normalize (ascii text)) = true)
    (path found : Bytes) (hFound : (besideFile text).textAt? path = some found) :
    soundText {} (Splice.normalize found) = true := by
  unfold Session.textAt? at hFound
  split at hFound
  · rename_i name hName
    unfold Header.find? at hFound
    obtain ⟨lines, hLines, rfl⟩ := Option.map_eq_some_iff.mp hFound
    have hHeader := soundText_headers _ (mem_of_lookup hLines)
    exact hHeader
  · split at hFound
    · cases hFound
      exact soundText_empty {}
    · cases hRead : (besideFile text).store.read path with
      | error e =>
        rw [hRead] at hFound
        cases hFound
      | ok contents =>
        rw [hRead] at hFound
        cases hFound
        obtain ⟨entry, hMem, hEntry⟩ := mem_of_read hRead
        have hEntries : (besideFile text).store.entries =
            [([ascii "g.h"], .file (ascii text))] := by
          rfl
        rw [hEntries, List.mem_singleton] at hMem
        subst hMem
        cases hEntry
        exact hSound

/- A file that asks twice for one under a guard. -/
def asksTwice : String :=
  "#include \"g.h\"\n#include \"g.h\"\nb\n"

/- A file that is wrapped in its guard. -/
def withoutElse : String :=
  "#ifndef G\n#define G\na\n#endif\n"

/- A session in which the guard is defined. -/
def guardDefined : Session :=
  { macros := [(ascii "G", .object [])] }

theorem skipped_files_unseen_twice :
    (∃ r messages, expandAll 4 (tokensOf "g.h" withoutElse) guardDefined =
          .ok r { guardDefined with messages := messages } ∧ r.done = []) ∧
      ∃ r t t', expandAll 60 (tokensOf "m.c" asksTwice) (besideFile withoutElse) = .ok r t ∧
          r.output.map (·.text) = ["a", "b", ""].map ascii ∧
          expandAgain 180 (tokensOf "m.c" asksTwice) (besideFile withoutElse) = .ok r t' ∧
          t.Alike t' := by
  obtain ⟨hFile, hRuns⟩ := skipped_files_unseen (besideFile withoutElse)
  have hSound : soundText {} (ascii withoutElse) = true := by decide +kernel
  have hTokens : (Lexer.tokenize {} ⟨0, ascii "g.h", 1, ascii withoutElse⟩
        (ascii "g.h")).tokens = .ok (tokensOf "g.h" withoutElse) :=
    tokensOf_ok (by decide +kernel)
  have hGuard : guard? (tokensOf "g.h" withoutElse) = some (ascii "G") := by decide +kernel
  constructor
  · obtain ⟨hWhole, hNone⟩ := hFile _ _ _ _ _ hTokens hGuard
    exact hNone (hWhole.mp hSound) guardDefined (by decide +kernel) 0
  · have hPasses : passes (fun r => r.output.map (·.text) == ["a", "b", ""].map ascii)
        (expandAll 60 (tokensOf "m.c" asksTwice) (besideFile withoutElse)) = true := by
      decide +kernel
    obtain ⟨r, t, hRun, hTexts⟩ := exists_of_passes hPasses
    obtain ⟨t', hAgain, hAlike⟩ :=
      (hRuns rfl (sound_besideFile (by decide +kernel))
        (tokensOf "m.c" asksTwice) r).1 60 t hRun 180 (by decide)
    exact ⟨r, t, t', hRun, by simpa using hTexts, hAgain, hAlike⟩

/- A file whose section has a second group. -/
def withElse : String :=
  "#ifndef G\n#define G\na\n#else\nb\n#endif\n"

/-
  The second group of a file under a guard has tokens, which
  are left out when the file is skipped.
-/
theorem skipped_else :
    guard? (tokensOf "g.h" withElse) = some (ascii "G") ∧
      passes (fun r => r.done.map (·.text) == [ascii "b"])
        (expandAll 60 (tokensOf "g.h" withElse) guardDefined) = true ∧
      passes (fun r => r.output.map (·.text) == ["a", "b", ""].map ascii)
        (expandAll 60 (tokensOf "m.c" asksTwice) (besideFile withElse)) = true ∧
      passes (fun r => r.output.map (·.text) == ["a", "b", "b", ""].map ascii)
        (expandAgain 60 (tokensOf "m.c" asksTwice)
          (besideFile withElse)) = true := by decide +kernel

end Expansion

end CCompiler
