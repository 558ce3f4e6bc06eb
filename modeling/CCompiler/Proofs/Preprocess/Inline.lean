import Mathlib
import CCompiler.Proofs.Preprocess.Quiet

/-
  Expansion inside of a line.

  A list of tokens of which none starts a line holds no
  directive, and macros whose bodies are lines put none into
  it.  So expanding it defines no macro, and has no regard for
  the conditional sections that are open.  Conditions of such
  sections are evaluated in this way.

  Main declarations:
    * `Expansion.Tame`
    * `Expansion.quiet_step`, `Expansion.quiet_expandAll`
    * `Expansion.Idle`, `Expansion.step_kept`
    * `Directive.conditionValue`
    * `Directive.quiet_conditionValue`
-/

namespace CCompiler

variable {t : Token}

/- A token of one spelling has no other one. -/
theorem Token.is_other {a b : String} (hIs : t.is a = true) (hOther : ascii a ≠ ascii b) :
    t.is b = false := by
  unfold Token.is at hIs ⊢
  rw [Bool.and_eq_true, beq_iff_eq] at hIs
  rw [hIs.2, beq_eq_false_iff_ne.mpr hOther, Bool.and_false]

variable {ts : List Token}

namespace Expansion

open Substitution

variable {s : Session} {ms : Macros} {expand : Expand}

------------
-- Tables and Lists
------------

/-
  A body that is one line: only its first token may start it,
  as in a text that is defined from outside.
-/
def LineBody (ts : List Token) : Prop :=
  ∃ front e, ts = front ++ [e] ∧ e.Ends ∧
    (∀ t ∈ front, t.isEof = false) ∧ Flat front.tail

/- A macro whose body is one line. -/
def TameMacro : Macro → Prop
| .object body => LineBody body
| .function _ _ body => ProperBody body
| .builtin _ => True

/- A table of macros whose bodies are lines. -/
def Tame (ms : Macros) : Prop :=
  ∀ entry ∈ ms, TameMacro entry.2

/- Tokens of which only the first may start a line. -/
def Lined (ts : List Token) : Prop :=
  (∀ t ∈ ts, t.isEof = false) ∧ Flat ts.tail

theorem Flat.lined (hFlat : Flat ts) : Lined ts :=
  ⟨fun t ht => (hFlat t ht).isEof, fun t ht => hFlat t (List.mem_of_mem_tail ht)⟩

theorem Lined.concat (hLined : Lined ts) (hPlain : t.Plain) : Lined (ts ++ [t]) := by
  cases ts with
  | nil =>
    have hFlat : Flat [t] := by
      intro u hu
      rw [List.mem_singleton.mp hu]
      exact hPlain
    exact hFlat.lined
  | cons u ts =>
    rcases hLined with ⟨hOpen, hFlat⟩
    refine ⟨fun w hw => ?_, fun w hw => ?_⟩
    · rcases List.mem_append.mp hw with hOld | hNew
      · exact hOpen w hOld
      · rw [List.mem_singleton.mp hNew]
        exact hPlain.isEof
    · rcases List.mem_append.mp hw with hOld | hNew
      · exact hFlat w hOld
      · rw [List.mem_singleton.mp hNew]
        exact hPlain

theorem Lined.dropLast {ts : List Token} (hLined : Lined ts) : Lined ts.dropLast := by
  refine ⟨fun t ht => hLined.1 t (List.mem_of_mem_dropLast ht), fun t ht => ?_⟩
  rw [List.tail_dropLast] at ht
  exact hLined.2 t (List.mem_of_mem_dropLast ht)

/- The rest of a body without parameters. -/
theorem quiet_pasteBody (done : Array Token) (hDone : Lined done.toList) (ts : List Token)
    (hBody : ProperBody ts) : Quiet s (pasteBody done ts) fun r => Lined r.toList := by
  induction hLength : ts.length using Nat.strong_induction_on generalizing s done ts with
  | h n ih =>
    rcases hBody.cases with
      ⟨e, rfl, hEnds⟩ | ⟨t, rest, rfl, hPlain, hRest⟩
    · simp only [pasteBody, hEnds.isEof, if_true]
      exact quiet_pure hDone
    have hNext : ∃ next more, rest = next :: more := by
      rcases hRest.cases with ⟨e, rfl, -⟩ | ⟨u, us, rfl, -⟩
      · exact ⟨e, [], rfl⟩
      · exact ⟨u, us, rfl⟩
    rcases hNext with ⟨next, more, rfl⟩
    simp only [List.length_cons] at hLength
    simp only [pasteBody, hPlain.isEof, Bool.false_eq_true, if_false]
    refine quiet_ite (fun _ => ?_) fun _ => ?_
    · refine ih (next :: more).length (by simp only [List.length_cons]; omega)
        (done.push t) ?_ (next :: more) hRest rfl
      rw [Array.toList_push]
      exact hDone.concat hPlain
    · refine (Quiet.of_gives (blind_checkPaste _ _ _) (gives_checkPaste _ _ _)).bind
        fun _ s₁ _ hChecked => ?_
      split
      · rename_i last _
        refine (Quiet.of_gives (blind_paste last next) (gives_paste last next)).bind
          fun joined s₂ _ hJoined => ?_
        rcases hRest.cases with
          ⟨e, hOnly, hEnds⟩ | ⟨u, us, hCons, -, hMore⟩
        · cases hOnly
          simp [hEnds.isEof] at hChecked
        · cases hCons
          refine ih more.length (by omega) (done.pop.push joined) ?_ more hMore rfl
          rw [Array.toList_push, Array.toList_pop]
          exact hDone.dropLast.concat hJoined
      · exact quiet_throw _ _

variable {body : List Token}

/- The body of a macro without parameters. -/
theorem quiet_pasteBody_line (hBody : LineBody body) :
    Quiet s (pasteBody #[] body) fun r => Lined r.toList := by
  rcases hBody with ⟨front, e, rfl, hEnds, hOpen, hFlat⟩
  have hNone : Lined (#[] : Array Token).toList := Flat.lined (by simp [Flat])
  cases front with
  | nil => exact quiet_pasteBody #[] hNone [e] ⟨[], e, rfl, hEnds, by simp [Flat]⟩
  | cons t front =>
    have hEof : t.isEof = false := hOpen t (by simp)
    have hRest : ProperBody (front ++ [e]) := ⟨front, e, rfl, hEnds, hFlat⟩
    have hNext : ∃ next more, front ++ [e] = next :: more := by
      cases front with
      | nil => exact ⟨e, [], rfl⟩
      | cons u us => exact ⟨u, us ++ [e], rfl⟩
    rcases hNext with ⟨next, more, hSplit⟩
    rw [List.cons_append, hSplit]
    rw [hSplit] at hRest
    simp only [pasteBody, hEof, Bool.false_eq_true, if_false]
    refine quiet_ite (fun _ => ?_) fun _ => ?_
    · refine quiet_pasteBody (#[].push t) ?_ _ hRest
      refine ⟨fun u hu => ?_, by simp [Flat]⟩
      simp only [Array.toList_push, List.mem_append, List.mem_singleton] at hu
      rcases hu with hNever | rfl
      · simp at hNever
      · exact hEof
    · refine (Quiet.of_gives (blind_checkPaste _ _ _) (gives_checkPaste _ _ _)).bind
        fun _ s₁ _ hChecked => ?_
      simp at hChecked

theorem lined_markBody (t : Token) (hidden : HideSet) {body : Array Token}
    (hLined : Lined body.toList) : Lined (markBody t hidden body) := by
  refine ⟨fun u hu => ?_, fun u hu => ?_⟩
  · rcases List.mem_map.mp hu with ⟨w, hw, rfl⟩
    exact hLined.1 w hw
  · rw [markBody, ← List.map_tail] at hu
    rcases List.mem_map.mp hu with ⟨w, hw, rfl⟩
    exact ⟨(hLined.2 w hw).isEof, (hLined.2 w hw).atLineStart⟩

variable {m : Macro}

theorem Tame.macro (hTame : Tame ms) {name : Bytes} (hFind : ms.find? name = some m) :
    TameMacro m := hTame _ (mem_of_find? hFind)

theorem tame_erase (hTame : Tame ms) (name : Bytes) : Tame (ms.erase name) :=
  fun entry hEntry => hTame entry (List.mem_of_mem_filter hEntry)

theorem tame_insert (hTame : Tame ms) (name : Bytes) (hMacro : TameMacro m) :
    Tame (ms.insert name m) := List.forall_mem_cons.mpr ⟨hMacro, tame_erase hTame name⟩

theorem ProperBody.lineBody (hBody : ProperBody body) : LineBody body := by
  rcases hBody with ⟨front, e, rfl, hEnds, hFlat⟩
  exact ⟨front, e, rfl, hEnds, hFlat.lined⟩

variable {c : List Token} {u : Use}

/- What takes the place of a use inside of a line. -/
theorem quiet_tokens (hTame : Tame ms) (hExpand : QuietExpand ms expand) (hState : s.macros = ms)
    (hFound : Found ms t c u) (hFlat : Flat c) : Quiet s (u.tokens expand t) Lined := by
  have hMacro := hTame.macro hFound.defined
  unfold Use.tokens
  cases hDef : u.definition with
  | builtin b =>
    refine (Quiet.of_gives (blind_builtinToken b t) (gives_builtinToken b t)).bind
      fun v s' _ hMade => ?_
    refine quiet_pure (Flat.lined fun w hw => ?_)
    rw [List.mem_singleton.mp hw]
    exact hMade.1
  | object body =>
    rw [hDef] at hMacro
    refine (quiet_pasteBody_line hMacro).bind fun r s' _ hLined => ?_
    exact quiet_pure (lined_markBody t _ hLined)
  | function params rest? body =>
    rw [hDef] at hMacro
    refine (quiet_subst hExpand (body.length + 1) s body { args := u.args } hState hMacro ?_).bind
      fun q s' _ hLevel => ?_
    · refine ⟨by simp [Flat], fun a ha => ?_⟩
      rcases hFound.args a ha with
        ⟨seg, e, hToks, hEnds, hInfix⟩
      exact ⟨seg, e, hToks, hEnds, fun w hw => hFlat w (hInfix.subset hw)⟩
    · exact quiet_pure (lined_markBody t _ hLevel.done.lined)

theorem blind_use? (t : Token) (rest : List Token) : Blind (use? t rest) := by
  unfold use?
  refine blind_ite (blind_pure _) ?_
  refine blind_get (fun _ _ => rfl) fun s => ?_
  split
  · exact blind_pure _
  · refine blind_ite (blind_pure _) ?_
    exact (blind_ofScan _).bind fun r => blind_pure _
  · exact blind_pure _

/- A use with another rest after it. -/
theorem Found.before (hFound : Found ms t c u) (rest : List Token) :
    Found ms t c { u with rest := rest } :=
  ⟨hFound.ident, hFound.open', hFound.defined, hFound.name,
    hFound.hidden, hFound.closed, hFound.args⟩

variable {e : Token}

/- Looking for a use of a macro in a list with an end. -/
theorem quiet_use? (t : Token) (xs : List Token) (hEnds : e.Ends) :
    Quiet s (use? t (xs ++ [e])) fun u? =>
      ∀ u, u? = some u → ∃ c r, xs = c ++ r ∧ u.rest = r ++ [e] ∧ Found s.macros t c u := by
  refine ⟨blind_use? t _ s, fun u? s' hRun => ?_⟩
  cases use?_cases s t xs with
  | none hUse =>
    rw [hUse e hEnds] at hRun
    cases hRun
    exact ⟨rfl, fun u hSome => by cases hSome⟩
  | found u c r hTaken hUse hFound =>
    rw [hUse e hEnds] at hRun
    cases hRun
    refine ⟨rfl, fun v hSome => ?_⟩
    cases hSome
    exact ⟨c, r, hTaken, rfl, hFound.before _⟩
  | failed cause z hUse =>
    rw [hUse e hEnds] at hRun
    cases hRun
  | ended cause hUse =>
    rw [hUse e hEnds] at hRun
    cases hRun

------------
-- Steps
------------

/- An expansion of a list inside of a line. -/
structure Inline (p : Progress) : Prop where
  toks : ProperBody p.toks
  used : Flat p.used.toList
  done : Flat p.done.toList

/- What a step makes of such an expansion. -/
def InlineNext : Sum Progress Expanded → Prop
| .inl p => Inline p
| .inr e => Flat e.used ∧ Flat e.done ∧ e.eof.Ends

theorem flat_append {xs ys : List Token} (hFirst : Flat xs) (hRest : Flat ys) :
    Flat (xs ++ ys) := by
  intro t ht
  rcases List.mem_append.mp ht with hLeft | hRight
  · exact hFirst t hLeft
  · exact hRest t hRight

/- Replaced tokens before the rest of a line. -/
theorem properBody_respaced {new r : List Token} (hStart : t.atLineStart = false)
    (hNew : Lined new) (hRest : Flat r) (hEnds : e.Ends) :
    ProperBody (Pre.spacedAs t (new ++ (r ++ [e]))) := by
  cases new with
  | nil =>
    cases r with
    | nil => exact ⟨[], _, rfl, ⟨hEnds.kind, hEnds.text⟩, by simp [Flat]⟩
    | cons u r => exact ⟨_ :: r, e, rfl, hEnds, flat_spacedAs hStart hRest⟩
  | cons u new =>
    rcases hNew with ⟨hOpen, hFlat⟩
    refine ⟨{ u with
        atLineStart := t.atLineStart, spaced := t.spaced } ::
      (new ++ r), e, by simp [Pre.spacedAs], hEnds, ?_⟩
    intro w hw
    rcases List.mem_cons.mp hw with rfl | hOther
    · exact ⟨hOpen u (by simp), hStart⟩
    · exact flat_append hFlat hRest w hOther

@[simp] theorem goOn_toks (p : Progress) (new rest : List Token) :
    (p.goOn new rest).toks = new ++ rest := by
  unfold Progress.goOn
  split <;> rfl

/- Going on after a use inside of a line. -/
theorem Inline.goOn {p : Progress} {t : Token} {c r new : List Token} {e : Token}
    (hInline : Inline p) (hToks : p.toks = t :: (c ++ r) ++ [e]) (hFlat : Flat (t :: (c ++ r)))
    (hEnds : e.Ends) (hNew : Lined new) :
    Inline { p.goOn new (r ++ [e]) with
        toks :=
          Pre.spacedAs t (p.goOn new (r ++ [e])).toks } := by
  have hRest : Flat r := fun w hw => hFlat w (by simp [hw])
  have hNext : ProperBody (Pre.spacedAs t (new ++ (r ++ [e]))) :=
    properBody_respaced (hFlat t (by simp)).atLineStart hNew hRest hEnds
  unfold Progress.goOn
  split
  · exact ⟨hNext, hInline.used, hInline.done⟩
  · refine ⟨hNext, ?_, hInline.done⟩
    simp only [Array.toList_append]
    refine flat_append hInline.used fun w hw => ?_
    have hGone : p.toks.length - (r ++ [e]).length = (t :: c).length := by
      rw [hToks]
      simp only [List.length_append, List.length_cons, List.length_nil]
      omega
    rw [hGone] at hw
    have hTaken : w ∈ p.toks.take (t :: c).length := by
      rw [← List.drop_take] at hw
      exact List.mem_of_mem_drop hw
    have hSplit : p.toks = (t :: c) ++ (r ++ [e]) := by
      rw [hToks]
      simp
    rw [hSplit, List.take_left] at hTaken
    refine hFlat w ?_
    rcases List.mem_cons.mp hTaken with rfl | hMem
    · simp
    · simp [hMem]

variable {p : Progress}

/- One step inside of a line. -/
theorem quiet_step (hTame : Tame ms) (hExpand : QuietExpand ms expand) (hState : s.macros = ms)
    (hInline : Inline p) : Quiet s (step expand p) InlineNext := by
  rcases hInline.toks with ⟨front, e, hToks, hEnds, hFlat⟩
  unfold step
  cases front with
  | nil =>
    rw [hToks]
    simp only [List.nil_append, hEnds.isEof, if_true]
    exact quiet_pure ⟨hInline.used, hInline.done, hEnds⟩
  | cons t xs =>
    have hPlain := hFlat t (by simp)
    have hXs : Flat xs := fun w hw => hFlat w (by simp [hw])
    rw [hToks]
    simp only [List.cons_append, hPlain.isEof, Bool.false_eq_true, if_false]
    refine (quiet_use? t xs hEnds).bind fun u? s' hMacros hUse => ?_
    cases u? with
    | some u =>
      rcases hUse u rfl with ⟨c, r, rfl, hRest, hFound⟩
      rw [hState] at hFound
      refine (quiet_tokens hTame hExpand (hMacros.trans hState) hFound
        (fun w hw => hXs w (by simp [hw]))).bind
        fun new s'' _ hLined => ?_
      rw [hRest]
      exact quiet_pure (hInline.goOn hToks hFlat hEnds hLined)
    | none =>
      have hHash : Conditional.isHash t = false := by simp [Conditional.isHash, hPlain.atLineStart]
      simp only [hHash, Bool.false_eq_true, if_false]
      refine (Quiet.of_gives (blind_shownOf t) (gives_shownOf t)).bind fun shown s'' _ _ => ?_
      refine quiet_pure ⟨⟨xs, e, rfl, hEnds, hXs⟩, hInline.used, ?_⟩
      simp only [Progress.keep, Array.toList_push]
      refine flat_append hInline.done fun w hw => ?_
      rw [List.mem_singleton.mp hw]
      exact ⟨hPlain.isEof, hPlain.atLineStart⟩

/- Step after step inside of a line. -/
theorem quiet_repeatStep (hTame : Tame ms) (hExpand : QuietExpand ms expand) (n : Nat)
    (hState : s.macros = ms) (hInline : Inline p) :
    Quiet s (repeatStep (step expand) n p) fun e =>
      Flat e.used ∧ Flat e.done ∧ e.eof.Ends := by
  induction n generalizing s p with
  | zero => exact quiet_throw _ _
  | succ n ih =>
    refine (quiet_step hTame hExpand hState hInline).bind fun r s' hMacros hNext => ?_
    cases r with
    | inl q => exact ih (hMacros.trans hState) hNext
    | inr e => exact quiet_pure hNext

/-
  Expanding a list inside of a line carries out no directive:
  the induction is on how deep expansions are nested.
-/
theorem quiet_expandAll (hTame : Tame ms) (n : Nat) : QuietExpand ms (expandAll n) := by
  induction n with
  | zero => exact fun _ _ _ _ => quiet_throw _ _
  | succ n ih =>
    intro s ts hState hBody
    exact quiet_repeatStep hTame ih n hState ⟨hBody, by simp [Flat], by simp [Flat]⟩

/- A way to expand that carries out no directive in a line. -/
def QuietInLines (expand : Expand) : Prop :=
  ∀ ms, Tame ms → QuietExpand ms expand

------------
-- Tokens that are Kept
------------

/- A token that is no use of a macro, whatever follows it. -/
def Idle (ms : Macros) (t : Token) : Prop :=
  t.hidden.contains t.text = true ∨ ms.ofToken? t = none

/- A token as it is shown in a session. -/
def shownIn (s : Session) (t : Token) : Token :=
  let shown := s.shown.getD t.file.id ⟨t.file.name, 0⟩
  { t with lineDelta := shown.lineDelta, filename := shown.name }

theorem use?_idle (hIdle : Idle s.macros t) (rest : List Token) : use? t rest s = .ok none s := by
  by_cases hHidden : t.hidden.contains t.text = true
  · unfold use?
    rw [if_pos hHidden]
    rfl
  · rw [use?_open hHidden, hIdle.resolve_left hHidden]
    rfl

/- A token that is no directive and no use is kept. -/
theorem step_kept (expand : Expand) {rest : List Token} (hToks : p.toks = t :: rest)
    (hOpen : t.isEof = false) (hHash : Conditional.isHash t = false) (hIdle : Idle s.macros t) :
    step expand p s = .ok (.inl (p.keep (shownIn s t) rest)) s := by
  unfold step
  rw [hToks]
  simp only [hOpen, Bool.false_eq_true, if_false]
  refine (bind_ok (use?_idle hIdle rest)).trans ?_
  simp only [hHash, Bool.false_eq_true, if_false]
  rfl

/- One step that goes on. -/
theorem repeatStep_go {next : Progress → Pre (Sum Progress Expanded)} {q : Progress}
    {s' : Session} (hStep : next p s = .ok (.inl q) s') (n : Nat) :
    repeatStep next (n + 1) p s = repeatStep next n q s' := by
  rw [repeatStep]
  exact bind_ok hStep

/- The spellings of the tokens that an outcome gives. -/
def texts? :
    EStateM.Result Failure Session (List Token) → Option (List Bytes)
| .ok ts _ => some (ts.map (·.text))
| .error _ _ => none

theorem texts?_some {r : EStateM.Result Failure Session (List Token)} {texts : List Bytes}
    (hTexts : texts? r = some texts) : ∃ ts s, r = .ok ts s ∧ ts.map (·.text) = texts := by
  cases r with
  | ok ts s => exact ⟨ts, s, rfl, Option.some.inj hTexts⟩
  | error e s => cases hTexts

------------
-- Parts of Bodies
------------

/- What comes after a token that is not the end. -/
theorem ProperBody.tail_of_is {text : String} (hBody : ProperBody ts) (hText : ascii text ≠ [])
    (hIs : (Directive.first ts).is text = true) : ProperBody ts.tail := by
  rcases hBody.cases with
    ⟨e, rfl, hEnds⟩ | ⟨t, rest, rfl, -, hRest⟩
  · simp [Directive.first, hEnds.is_eq_false hText] at hIs
  · exact hRest

theorem ProperBody.tail_of_ident (hBody : ProperBody ts)
    (hName : (Directive.first ts).isIdent = true) : ProperBody ts.tail := by
  rcases hBody.cases with
    ⟨e, rfl, hEnds⟩ | ⟨t, rest, rfl, -, hRest⟩
  · simp [Directive.first, Token.isIdent, hEnds.kind] at hName
  · exact hRest

theorem ProperBody.skip {ts rest : List Token} {text : String} (hBody : ProperBody ts)
    (hText : ascii text ≠ []) (hSkip : Arguments.skip text ts = .ok rest) : ProperBody rest := by
  rcases hBody.cases with
    ⟨e, rfl, hEnds⟩ | ⟨t, more, rfl, -, hMore⟩
  · simp [Arguments.skip, hEnds.is_eq_false hText] at hSkip
  · simp only [Arguments.skip] at hSkip
    split at hSkip
    · cases hSkip
      exact hMore
    · cases hSkip

end Expansion

------------
-- Conditions
------------

namespace Directive

open Expansion Pre

variable {s : Session} {ms : Macros} {expand : Expand}

theorem quiet_numberToken (n : Int) (tmpl : Token) : Quiet s (numberToken n tmpl) Token.Plain :=
  (Quiet.of_gives (blind_makeToken _ tmpl) (gives_makeToken (starts_ofInt n _) tmpl)).mono
    fun _ hMade => hMade.1

/- A failure before some more. -/
theorem quiet_failed {α β : Type} (t : Token) {cause : Fault} {f : α → Pre β} (Q : β → Prop) :
    Quiet s (fail t cause >>= f) Q :=
  (quiet_fail t cause fun _ => False).bind fun _ _ _ hNever => hNever.elim

/- The questions whether names are defined. -/
theorem quiet_answerDefined (fuel : Nat) {done : Array Token} (hDone : Flat done.toList)
    (hBody : ProperBody ts) : Quiet s (answerDefined fuel done ts) ProperBody := by
  have hPush : ∀ {done : Array Token} {t : Token}, Flat done.toList → t.Plain →
        Flat (done.push t).toList := by
    intro done t hDone hPlain
    rw [Array.toList_push]
    refine flat_append hDone fun w hw => ?_
    rw [List.mem_singleton.mp hw]
    exact hPlain
  induction fuel generalizing s done ts with
  | zero => exact quiet_throw _ _
  | succ fuel ih =>
    rcases hBody.cases with
      ⟨e, rfl, hEnds⟩ | ⟨t, rest, rfl, hPlain, hRest⟩
    · simp only [answerDefined, hEnds.isEof, if_true]
      exact quiet_pure ⟨done.toList, e, rfl, hEnds, hDone⟩
    simp only [answerDefined, hPlain.isEof, Bool.false_eq_true, if_false]
    refine quiet_ite (fun _ => ih (hPush hDone hPlain) hRest) fun _ => ?_
    -- the name stands after a parenthesis, or right here
    have hTail : ∀ (s' : Session) (defined : Bool) (vs : List Token), ProperBody vs → Quiet s' (do
            let n ← numberToken (if defined then 1 else 0) t
            answerDefined fuel (done.push n) vs)
          ProperBody := by
      intro s' defined vs hVs
      refine (quiet_numberToken _ t).bind fun n s₁ _ hNumber => ?_
      exact ih (hPush hDone hNumber) hVs
    by_cases hParen : (first rest).is "(" = true
    · simp only [hParen, if_true]
      have hUs := hRest.tail_of_is (by decide) hParen
      refine quiet_ite (fun _ => quiet_failed t _) fun hName => ?_
      refine quiet_get (fun _ => rfl) ?_
      refine (quiet_ofScan _).bind fun vs s₁ _ hSkip => ?_
      refine hTail s₁ _ vs ?_
      exact (hUs.tail_of_ident (by simpa using hName)).skip (by decide) hSkip
    · simp only [hParen, Bool.false_eq_true, if_false]
      refine quiet_ite (fun _ => quiet_failed t _) fun hName => ?_
      refine quiet_get (fun _ => rfl) ?_
      refine hTail s _ rest.tail ?_
      exact hRest.tail_of_ident (by simpa using hName)

/- A zero for every name that is left. -/
theorem quiet_zeroNames (ts : List Token) : Quiet s (zeroNames ts) fun _ => True := by
  induction ts generalizing s with
  | nil => exact quiet_pure trivial
  | cons t ts ih =>
    simp only [zeroNames]
    refine quiet_ite (fun _ => ?_) fun _ => ?_
    · refine (quiet_numberToken 0 t).bind fun _ _ _ _ => ?_
      exact ih.bind fun _ _ _ _ => quiet_pure trivial
    · exact ih.bind fun _ _ _ _ => quiet_pure trivial

/-
  The value of a condition whose line is a list of its own.
-/
def conditionValue
    (expand : Expand)
    (start : Token)
    (line : List Token) : Pre Int64 := do
  let line ← answerDefined (line.length + 1) #[] line
  let line := (← expand line).output
  if (first line).isEof then fail start .noExpression
  let line ← settle (← convert (← zeroNames line))
  let o := TranslationUnit.constant line
  match o.result with
  | .error e => throw e
  | .ok (v, more) =>
    if !(first more).isEof then fail (first more) .extraToken
    return v

/- The value of a condition is that of its line. -/
theorem condition_eq (expand : Expand) (start : Token) (ts : List Token) :
    condition expand start ts = (do
        let v ← conditionValue expand start (Arguments.copyLine ts).1
        return (v, (Arguments.copyLine ts).2)) := by
  unfold condition conditionValue
  simp only [bind_assoc]
  refine bind_congr fun line => ?_
  refine bind_congr fun e => ?_
  split
  · rfl
  · simp only [bind_assoc]
    refine bind_congr fun zeroed => ?_
    refine bind_congr fun converted => ?_
    refine bind_congr fun settled => ?_
    cases (TranslationUnit.constant settled).result with
    | error e => rfl
    | ok r =>
      simp only
      split <;> rfl

/- The value of a condition inside of a line. -/
theorem quiet_conditionValue (hExpand : QuietExpand ms expand) (hState : s.macros = ms)
    (start : Token) {line : List Token} (hBody : ProperBody line) :
    Quiet s (conditionValue expand start line) fun _ => True := by
  unfold conditionValue
  refine (quiet_answerDefined _ (by simp [Flat]) hBody).bind fun asked s₁ hSame hAsked => ?_
  refine (hExpand s₁ asked (hSame.trans hState) hAsked).bind fun e s₂ _ _ => ?_
  refine quiet_ite (fun _ => quiet_failed _ _) fun _ => ?_
  refine (quiet_zeroNames _).bind fun zeroed s₃ _ _ => ?_
  refine Quiet.bind (Q := fun _ => True) ?_ fun converted s₄ _ _ => ?_
  · unfold convert
    split
    · exact quiet_pure trivial
    · exact quiet_fail _ _ _
  refine Quiet.bind (Q := fun _ => True) (quiet_get (fun _ => rfl) (quiet_pure trivial))
    fun settled s₅ _ _ => ?_
  simp only
  cases (TranslationUnit.constant settled).result with
  | error e => exact quiet_throw _ _
  | ok r => exact quiet_ite (fun _ => quiet_failed _ _) fun _ => quiet_pure trivial

end Directive

end CCompiler
