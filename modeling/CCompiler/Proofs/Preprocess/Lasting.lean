import Mathlib
import CCompiler.Proofs.Preprocess.Resuming

/-
  Properties that tokens have wherever they come from.

  A property that a token has when it is read, and that only
  its kind, its spelling and its merged literals decide, holds
  of everything that preprocessing passes on: of the tokens of
  every list and of the bodies of all macros.

  Main declarations:
    * `Token.Lasting`
    * `Session.Holds`, `Expansion.Yields`
    * `Substitution.yields_subst`
    * `Directive.yields_run`
    * `Expansion.yields_expandAll`
-/

------------
-- Lasting Properties
------------

namespace CCompiler

/-
  A property that every token has when it is read with some
  settings, that the end of a list has, and that no change of
  a token's place takes away.
-/
structure Token.Lasting
    (cfg : Config)
    (P : Token → Prop) : Prop where
  read : ∀ f name ts,
    (Lexer.tokenize cfg f name).tokens = .ok ts → ∀ t ∈ ts, P t
  moved : ∀ t u : Token, u.kind = t.kind → u.text = t.text →
    u.joined = t.joined → P t → P u
  ended : ∀ t : Token, P t.toEof

/- The settings of a session, and what holds of the bodies of its macros. -/
structure Session.Holds
    (cfg : Config)
    (P : Token → Prop)
    (s : Session) : Prop where
  settings : s.cfg = cfg
  bodies : ∀ entry ∈ s.macros, ∀ body,
    entry.2.body? = some body → ∀ t ∈ body, P t

namespace Expansion

variable {α β : Type} {cfg : Config} {P : Token → Prop}

/- A computation that keeps what holds, and what it gives. -/
def Yields
    (cfg : Config)
    (P : Token → Prop)
    (x : Pre α)
    (Q : α → Prop) : Prop :=
  ∀ s a t, s.Holds cfg P → x s = .ok a t → t.Holds cfg P ∧ Q a

variable {Q : α → Prop}

theorem yields_pure {a : α} (hPost : Q a) : Yields cfg P (pure a) Q := by
  intro s b t hHolds hRun
  cases hRun
  exact ⟨hHolds, hPost⟩

theorem yields_throw (e : Failure) (Q : α → Prop) : Yields cfg P (throw e) Q := by
  intro s a t _ hRun
  cases hRun

theorem yields_fail (t : Token) (cause : Fault) (Q : α → Prop) :
    Yields cfg P (Pre.fail t cause) Q := by
  intro s a t' _ hRun
  cases hRun

theorem yields_ofScan (scan : TokenScan α) :
    Yields cfg P (Pre.ofScan scan) fun a => scan = .ok a := by
  cases scan with
  | ok a => exact yields_pure rfl
  | error f => exact yields_fail f.2 f.1 _

variable {x : Pre α}

theorem Yields.bind {f : α → Pre β} {R : β → Prop} (hFirst : Yields cfg P x Q)
    (hNext : ∀ a, Q a → Yields cfg P (f a) R) : Yields cfg P (x >>= f) R := by
  intro s b t hHolds hRun
  obtain ⟨a, s₁, hX, hF⟩ := bind_split hRun
  obtain ⟨hHolds₁, hPost⟩ := hFirst s a s₁ hHolds hX
  exact hNext a hPost s₁ b t hHolds₁ hF

/- A failure before some more. -/
theorem yields_failed (t : Token) (cause : Fault) (f : α → Pre β) (Q : β → Prop) :
    Yields cfg P (Pre.fail t cause >>= f) Q := by
  intro s a t' _ hRun
  cases hRun

theorem yields_get {f : Session → Pre β} {Q : β → Prop}
    (hNext : ∀ s : Session, s.Holds cfg P → Yields cfg P (f s) Q) : Yields cfg P (get >>= f) Q := by
  intro s b t hHolds hRun
  exact hNext s hHolds s b t hHolds hRun

variable {f : Session → Session}

/- Changes that leave settings and macros alone. -/
theorem yields_modify (hSame : ∀ s, (f s).cfg = s.cfg ∧ (f s).macros = s.macros) :
    Yields cfg P (modify f : Pre PUnit) fun _ => True := by
  intro s a t hHolds hRun
  cases hRun
  obtain ⟨hCfg, hMacros⟩ := hSame s
  refine ⟨⟨hCfg.trans hHolds.settings, ?_⟩, trivial⟩
  rw [hMacros]
  exact hHolds.bodies

/- Such changes before some more. -/
theorem yields_change {g : PUnit → Pre β} {Q : β → Prop} (hNext : ∀ u, Yields cfg P (g u) Q)
    (hSame : ∀ s, (f s).cfg = s.cfg ∧ (f s).macros = s.macros) : Yields cfg P (modify f >>= g) Q :=
  (yields_modify hSame).bind fun u _ => hNext u

theorem yields_ite {c : Prop} [Decidable c] {y : Pre α} (hThen : c → Yields cfg P x Q)
    (hElse : ¬ c → Yields cfg P y Q) : Yields cfg P (if c then x else y) Q := by
  split
  · exact hThen ‹_›
  · exact hElse ‹_›

end Expansion

variable {ts : List Token}

------------
-- Made Tokens
------------

namespace Pre

open Expansion

variable {cfg : Config} {P : Token → Prop}

theorem yields_shownOf (t : Token) : Yields cfg P (shownOf t) fun _ => True :=
  yields_get fun _ _ => yields_pure trivial

theorem yields_say (m : Message) : Yields cfg P (say m) fun _ => True :=
  yields_ite (fun _ => yields_pure trivial) fun _ => yields_modify fun _ => ⟨rfl, rfl⟩

theorem yields_warn (t : Token) (group : Warning) (n : Notice) :
    Yields cfg P (warn t group n) fun _ => True := by
  have hPlace : Yields cfg P (placeOf t) fun _ => True :=
    (yields_shownOf t).bind fun _ _ => yields_pure trivial
  exact hPlace.bind fun place _ => yields_get fun _ _ => yields_say _

theorem yields_info (text : Bytes) : Yields cfg P (info text) fun _ => True :=
  yields_get fun _ _ => yields_ite (fun _ => yields_say _) fun _ => yields_pure trivial

theorem yields_addText (name : Bytes) (number : Nat) (contents : Bytes) (shown : Shown) :
    Yields cfg P (addText name number contents shown) fun _ => True :=
  yields_get fun _ _ => yields_change (fun _ => yields_pure trivial) fun _ => ⟨rfl, rfl⟩

theorem yields_addFile (name contents : Bytes) :
    Yields cfg P (addFile name contents) fun _ => True :=
  yields_get fun _ _ => (yields_addText _ _ _ _).bind
    fun _ _ => yields_change (fun _ => yields_pure trivial) fun _ => ⟨rfl, rfl⟩

theorem yields_convert (ts : List Token) : Yields cfg P (convert ts) fun _ => True := by
  unfold convert
  cases Token.convert ts with
  | ok us => exact yields_pure trivial
  | error t => exact yields_fail t _ _

theorem yields_settle (ts : List Token) : Yields cfg P (settle ts) fun _ => True :=
  yields_get fun _ _ => yields_pure trivial

section Reading

variable (hP : Token.Lasting cfg P)
include hP

theorem yields_tokenize (f : SourceFile) (shownName : Bytes) :
    Yields cfg P (tokenize f shownName) fun ts => ∀ t ∈ ts, P t := by
  refine yields_get fun s hHolds => ?_
  refine (yields_say _).bind fun _ _ => ?_
  have hRead := hP.read f shownName
  rw [← hHolds.settings] at hRead
  cases hTokens : (Lexer.tokenize s.cfg f shownName).tokens with
  | ok ts => exact yields_pure (hRead ts hTokens)
  | error e => exact yields_throw e _

theorem yields_tokenizeSource (name src : Bytes) :
    Yields cfg P (tokenizeSource name src) fun ts => ∀ t ∈ ts, P t := by
  refine (yields_addFile _ _).bind fun f _ => ?_
  exact (yields_info _).bind fun _ _ => yields_tokenize hP _ _

theorem yields_makeTokens (text : Bytes) (file : SourceFile) (line : Int) (spaced : Bool) :
    Yields cfg P (makeTokens text file line spaced) fun ts => ∀ t ∈ ts, P t := by
  refine yields_get fun s _ => ?_
  refine (yields_addText _ _ _ _).bind fun f _ => ?_
  refine (yields_tokenize hP _ _).bind fun ts hTokens => ?_
  cases ts with
  | nil => exact yields_pure (by simp)
  | cons t ts =>
    refine yields_pure (List.forall_mem_cons.mpr ⟨?_, ?_⟩)
    · exact hP.moved t _ rfl rfl rfl (hTokens t (by simp))
    · intro u hu
      obtain ⟨v, hv, rfl⟩ := List.mem_map.mp hu
      exact hP.moved v _ rfl rfl rfl (hTokens v (by simp [hv]))

theorem yields_makeToken (text : Bytes) (tmpl : Token) : Yields cfg P (makeToken text tmpl) P := by
  refine (yields_makeTokens hP _ _ _ _).bind fun ts hTokens => ?_
  cases ts with
  | nil => exact yields_throw _ _
  | cons t ts => exact yields_pure (hTokens t (by simp))

theorem yields_numberToken (n : Int) (tmpl : Token) : Yields cfg P (numberToken n tmpl) P :=
  yields_makeToken hP _ _

/- The blanks before a list do not matter. -/
theorem spacedAs_has (u : Token) (hTokens : ∀ t ∈ ts, P t) : ∀ t ∈ spacedAs u ts, P t := by
  cases ts with
  | nil => exact hTokens
  | cons t ts =>
    rw [List.forall_mem_cons] at hTokens
    exact List.forall_mem_cons.mpr ⟨hP.moved t _ rfl rfl rfl hTokens.1, hTokens.2⟩

end Reading

end Pre

variable {rest : List Token}

------------
-- Lists
------------

namespace Arguments

variable {cfg : Config} {P : Token → Prop}
  (hP : Token.Lasting cfg P)
include hP

theorem copyLine_has (hTokens : ∀ t ∈ ts, P t) : ∀ t ∈ (copyLine ts).1, P t := by
  fun_induction copyLine ts with
  | case1 => exact hTokens
  | case2 t ts hEnd =>
    intro u hu
    rw [List.mem_singleton.mp hu]
    exact hP.ended t
  | case3 t ts hMore line rest hLine ih =>
    rw [List.forall_mem_cons] at hTokens
    have hRest := ih hTokens.2
    rw [hLine] at hRest
    exact List.forall_mem_cons.mpr ⟨hTokens.1, hRest⟩

/- One argument is made of tokens of the list, and so is the rest. -/
theorem readOne_has {all : Bool} {level : Nat} {r : List Token × List Token}
    (hTokens : ∀ t ∈ ts, P t) (hScan : readOne all level ts = .ok r) :
    (∀ t ∈ r.1, P t) ∧ ∀ t ∈ r.2, P t := by
  induction ts generalizing level r with
  | nil => cases hScan
  | cons t ts ih =>
    rw [readOne] at hScan
    split at hScan
    · cases hScan
      exact ⟨by simpa using hP.ended t, hTokens⟩
    split at hScan
    · cases hScan
    rw [List.forall_mem_cons] at hTokens
    simp only at hScan
    generalize (if t.is "(" = true then level + 1
      else if t.is ")" = true then level - 1 else level) = inner at hScan
    cases hMore : readOne all inner ts with
    | error f =>
      rw [hMore] at hScan
      cases hScan
    | ok more =>
      rw [hMore] at hScan
      cases hScan
      obtain ⟨hArg, hRest⟩ := ih hTokens.2 hMore
      exact ⟨List.forall_mem_cons.mpr ⟨hTokens.1, hArg⟩, hRest⟩

omit hP in
theorem skip_has {text : String} (hTokens : ∀ t ∈ ts, P t) (hScan : skip text ts = .ok rest) :
    ∀ t ∈ rest, P t := by
  cases ts with
  | nil => cases hScan
  | cons t ts =>
    rw [skip] at hScan
    split at hScan
    · cases hScan
      exact (List.forall_mem_cons.mp hTokens).2
    · cases hScan

omit hP in
/- The comma before every argument but the first. -/
theorem comma_has {β : Type} {isFirst : Bool} {next : List Token → TokenScan β} {b : β}
    (hTokens : ∀ t ∈ ts, P t)
    (hScan : (do
      let us ← if isFirst = true then pure ts else skip "," ts
      next us) = .ok b) : ∃ us, (∀ t ∈ us, P t) ∧ next us = .ok b := by
  cases isFirst with
  | true => exact ⟨ts, hTokens, hScan⟩
  | false =>
    obtain ⟨us, hSkip, hNext⟩ := exists_of_bind_ok hScan
    exact ⟨us, skip_has hTokens hSkip, hNext⟩

variable {r : Array MacroArg × List Token} {params : List Bytes}

variable {done : Array MacroArg}

/- What is read of some arguments. -/
theorem readNamed_has (hDone : ∀ a ∈ done, ∀ t ∈ a.toks, P t) (hTokens : ∀ t ∈ ts, P t)
    (hScan : readNamed params done ts = .ok r) :
    (∀ a ∈ r.1, ∀ t ∈ a.toks, P t) ∧ ∀ t ∈ r.2, P t := by
  induction params generalizing done ts with
  | nil =>
    cases hScan
    exact ⟨hDone, hTokens⟩
  | cons p ps ih =>
    rw [readNamed] at hScan
    obtain ⟨us, hAfter, hScan⟩ := comma_has hTokens hScan
    obtain ⟨⟨arg, rest⟩, hOne, hScan⟩ := exists_of_bind_ok hScan
    obtain ⟨hArg, hRest⟩ := readOne_has hP hAfter hOne
    refine ih (fun a ha => ?_) hRest hScan
    rcases Array.mem_push.mp ha with hOld | rfl
    · exact hDone a hOld
    · exact hArg

theorem readRest_has {name : Bytes} (hDone : ∀ a ∈ done, ∀ t ∈ a.toks, P t)
    (hTokens : ∀ t ∈ ts, P t) (hScan : readRest name done ts = .ok r) :
    (∀ a ∈ r.1, ∀ t ∈ a.toks, P t) ∧ ∀ t ∈ r.2, P t := by
  have hPush : ∀ arg : List Token, (∀ t ∈ arg, P t) →
      ∀ a ∈ done.push ⟨name, true, arg⟩, ∀ t ∈ a.toks, P t := by
    intro arg hArg a ha
    rcases Array.mem_push.mp ha with hOld | rfl
    · exact hDone a hOld
    · exact hArg
  cases ts with
  | nil => cases hScan
  | cons t ts =>
    unfold readRest at hScan
    simp only at hScan
    split at hScan
    · cases hScan
      exact ⟨hPush _ (by simpa using hP.ended t), hTokens⟩
    · obtain ⟨us, hAfter, hScan⟩ := comma_has hTokens hScan
      obtain ⟨⟨arg, rest⟩, hOne, hScan⟩ := exists_of_bind_ok hScan
      obtain ⟨hArg, hRest⟩ := readOne_has hP hAfter hOne
      cases hScan
      exact ⟨hPush _ hArg, hRest⟩

/- The arguments of a use are made of tokens of the list. -/
theorem readAll_has {start : Token} {rest? : Option Bytes} {r : List MacroArg × List Token}
    (hTokens : ∀ t ∈ ts, P t) (hScan : readAll start params rest? ts = .ok r) :
    (∀ a ∈ r.1, ∀ t ∈ a.toks, P t) ∧ ∀ t ∈ r.2, P t := by
  unfold readAll at hScan
  obtain ⟨⟨named, us⟩, hNamed, hScan⟩ := exists_of_bind_ok hScan
  obtain ⟨hArgs, hAfter⟩ := readNamed_has hP (by simp) hTokens hNamed
  have hClose : ∀ (args : Array MacroArg) (vs : List Token),
      (∀ a ∈ args, ∀ t ∈ a.toks, P t) → (∀ t ∈ vs, P t) →
      (do
        let _ ← skip ")" vs
        .ok (args.toList, vs) : TokenScan _) = .ok r →
      (∀ a ∈ r.1, ∀ t ∈ a.toks, P t) ∧ ∀ t ∈ r.2, P t := by
    intro args vs hThese hThose hEnd
    obtain ⟨-, -, hEnd⟩ := exists_of_bind_ok hEnd
    cases hEnd
    exact ⟨fun a ha => hThese a (by simpa using ha), hThose⟩
  cases rest? with
  | some name =>
    obtain ⟨⟨args, vs⟩, hRest, hScan⟩ := exists_of_bind_ok hScan
    obtain ⟨hThese, hThose⟩ := readRest_has hP hArgs hAfter hRest
    exact hClose args vs hThese hThose hScan
  | none =>
    simp only at hScan
    split at hScan
    · exact hClose named us hArgs hAfter hScan
    · cases hScan

end Arguments

variable {done : Array Token}

------------
-- Substitution
------------

namespace Substitution

open Pre Expansion

variable {cfg : Config} {P : Token → Prop}

/- What has been made of a body has a property, and so have the arguments. -/
structure Progress.Has
    (P : Token → Prop)
    (p : Progress) : Prop where
  done : ∀ t ∈ p.done, P t
  args : ∀ a ∈ p.args, ∀ t ∈ a.toks, P t

theorem Progress.Has.arg? {p : Progress} (hHas : p.Has P) {t : Token} {a : MacroArg}
    (hArg : p.arg? t = some a) : ∀ u ∈ a.toks, P u := by
  unfold Progress.arg? at hArg
  split at hArg
  · exact hHas.args a (List.mem_of_find?_eq_some hArg)
  · cases hArg

theorem Progress.Has.push {p : Progress} (hHas : p.Has P) {t : Token} (hToken : P t) :
    (p.push t).Has P := by
  refine ⟨fun u hu => ?_, hHas.args⟩
  rcases Array.mem_push.mp hu with hOld | rfl
  · exact hHas.done u hOld
  · exact hToken

theorem Progress.Has.append {p : Progress} (hHas : p.Has P) {ts : List Token}
    (hTokens : ∀ t ∈ ts, P t) : (p.append ts).Has P := by
  refine ⟨fun u hu => ?_, hHas.args⟩
  rcases Array.mem_append.mp hu with hOld | hNew
  · exact hHas.done u hOld
  · exact hTokens u ((List.takeWhile_prefix _).sublist.subset (by simpa using hNew))

theorem Progress.Has.setArg {p : Progress} (hHas : p.Has P) (name : Bytes) {ts : List Token}
    (hTokens : ∀ t ∈ ts, P t) : (p.setArg name ts).Has P := by
  refine ⟨hHas.done, ?_⟩
  change ∀ a ∈ Progress.setArg.go name ts p.args, _
  have hArgs := hHas.args
  generalize p.args = args at hArgs
  induction args with
  | nil => exact hArgs
  | cons a args ih =>
    rw [List.forall_mem_cons] at hArgs
    rw [Progress.setArg.go]
    split
    · exact List.forall_mem_cons.mpr ⟨hTokens, hArgs.2⟩
    · exact List.forall_mem_cons.mpr ⟨hArgs.1, ih hArgs.2⟩

theorem mem_of_mem_pop {t : Token} (hToken : t ∈ done.pop) : t ∈ done := by
  rw [← Array.mem_toList_iff, Array.toList_pop] at hToken
  exact Array.mem_toList_iff.mp (List.mem_of_mem_dropLast hToken)

theorem yields_checkPaste (p : Progress) (hash next : Token) :
    Yields cfg P (checkPaste p hash next) fun _ => True := by
  unfold checkPaste
  refine yields_ite (fun _ => yields_failed _ _ _ _) fun _ => ?_
  exact yields_ite (fun _ => yields_fail _ _ _) fun _ => yields_pure trivial

section Making

variable (hP : Token.Lasting cfg P)
include hP

theorem yields_paste (l r : Token) : Yields cfg P (paste l r) P := by
  refine (yields_makeTokens hP _ _ _ _).bind fun ts hTokens => ?_
  split
  · exact yields_pure (hTokens _ (by simp))
  · exact yields_fail _ _ _
  · exact yields_throw _ _

variable {p : Progress}

theorem yields_pasteLast (hHas : p.Has P) (t : Token) :
    Yields cfg P (p.pasteLast t) (Progress.Has P) := by
  unfold Progress.pasteLast
  cases p.done.back? with
  | none => exact yields_throw _ _
  | some last =>
    refine (yields_paste hP _ _).bind fun u hMade => yields_pure ⟨fun v hv => ?_, hHas.args⟩
    rcases Array.mem_push.mp hv with hOld | rfl
    · exact hHas.done v (mem_of_mem_pop hOld)
    · exact hMade

theorem yields_pasteNext (hHas : p.Has P) (next : Token) :
    Yields cfg P (pasteNext p next) (Progress.Has P) := by
  unfold pasteNext
  split
  · rename_i a hArg
    have hToks := hHas.arg? hArg
    split
    · rename_i t rest hList
      rw [hList, List.forall_mem_cons] at hToks
      refine yields_ite (fun _ => yields_pure hHas) fun _ => ?_
      exact (yields_pasteLast hP hHas t).bind fun q hMade => yields_pure (hMade.append hToks.2)
    · exact yields_pure hHas
  · exact yields_pasteLast hP hHas next

theorem yields_pasteBody (hDone : ∀ t ∈ done, P t) (hTokens : ∀ t ∈ ts, P t) :
    Yields cfg P (pasteBody done ts) fun made => ∀ t ∈ made, P t := by
  fun_induction pasteBody done ts with
  | case1 => exact yields_throw _ _
  | case2 => exact yields_pure hDone
  | case3 => exact yields_throw _ _
  | case4 => exact yields_pure hDone
  | case5 done t next rest hMore hPlain ih =>
    rw [List.forall_mem_cons] at hTokens
    refine ih (fun u hu => ?_) hTokens.2
    rcases Array.mem_push.mp hu with hOld | rfl
    · exact hDone u hOld
    · exact hTokens.1
  | case6 done t next rest hMore hHash ih =>
    refine (yields_checkPaste _ _ _).bind fun _ _ => ?_
    split
    · refine (yields_paste hP _ _).bind fun joined hMade =>
        ih joined (fun u hu => ?_) fun u hu => hTokens u (by simp [hu])
      rcases Array.mem_push.mp hu with hOld | rfl
      · exact hDone u (mem_of_mem_pop hOld)
      · exact hMade
    · exact yields_throw _ _

end Making

end Substitution

/- What an expansion gives has a property. -/
structure Expanded.Has
    (P : Token → Prop)
    (e : Expanded) : Prop where
  used : ∀ t ∈ e.used, P t
  done : ∀ t ∈ e.done, P t
  eof : P e.eof

theorem Expanded.Has.source {P : Token → Prop} {e : Expanded} (hHas : e.Has P) :
    ∀ t ∈ e.source, P t := by
  intro t ht
  unfold Expanded.source at ht
  split at ht
  · simp only [List.mem_append, List.mem_singleton] at ht
    rcases ht with (hUsed | hDone) | rfl
    · exact hHas.used t hUsed
    · exact hHas.done t (List.mem_of_mem_drop hDone)
    · exact hHas.eof
  · simp only [List.mem_append, List.mem_singleton] at ht
    rcases ht with hUsed | rfl
    · exact hHas.used t hUsed
    · exact hHas.eof

theorem Expanded.Has.spacedAs {cfg : Config} {P : Token → Prop} (hP : Token.Lasting cfg P)
    {e : Expanded} (hHas : e.Has P) (t : Token) : (e.spacedAs t).Has P := by
  unfold Expanded.spacedAs
  split
  · exact ⟨hHas.used, hHas.done, hP.moved e.eof _ rfl rfl rfl hHas.eof⟩
  · exact ⟨hHas.used, Pre.spacedAs_has hP t hHas.done, hHas.eof⟩

namespace Expansion

/- An expansion of tokens that have a property. -/
def Expands
    (cfg : Config)
    (P : Token → Prop)
    (expand : Expand) : Prop :=
  ∀ ts, (∀ t ∈ ts, P t) → Yields cfg P (expand ts) (Expanded.Has P)

end Expansion

namespace Substitution

open Pre Expansion

variable {cfg : Config} {P : Token → Prop} {expand : Expand}
  (hP : Token.Lasting cfg P)
  (hExpand : Expands cfg P expand)
include hP hExpand

variable {p : Progress}

theorem yields_expandArg (hHas : p.Has P) (t : Token) {a : MacroArg} (hArg : ∀ u ∈ a.toks, P u) :
    Yields cfg P (expandArg expand p t a) (Progress.Has P) := by
  refine (hExpand a.toks hArg).bind fun e hMade => ?_
  have hSpaced := hMade.spacedAs hP t
  exact yields_pure ((hHas.setArg a.name hSpaced.source).append hSpaced.done)

theorem yields_subst (fuel : Nat) (hHas : p.Has P) (hTokens : ∀ t ∈ ts, P t) :
    Yields cfg P (subst expand fuel p ts) (Progress.Has P) := by
  induction fuel generalizing p ts with
  | zero => exact yields_throw _ _
  | succ fuel ih =>
    rcases ts with - | ⟨t, rest⟩
    · exact yields_throw _ _
    rw [List.forall_mem_cons] at hTokens
    obtain ⟨hFirst, hRest⟩ := hTokens
    have hAfter : ∀ u ∈ rest.tail, P u := fun u hu => hRest u (List.mem_of_mem_tail hu)
    have hThird : ∀ u ∈ rest.tail.tail, P u := fun u hu => hAfter u (List.mem_of_mem_tail hu)
    rw [subst]
    refine yields_ite (fun _ => yields_pure hHas) fun _ => yields_ite (fun _ => ?_) fun _ => ?_
    · split
      · exact yields_fail _ _ _
      · exact (yields_makeToken hP _ _).bind fun u hMade => ih (hHas.push hMade) hAfter
    simp only
    split
    · exact yields_ite (fun _ => ih hHas hThird) fun _ => ih (hHas.push hFirst) hAfter
    refine yields_ite (fun _ => ?_) fun _ => ?_
    · refine (yields_checkPaste _ _ _).bind fun _ _ => ?_
      exact (yields_pasteNext hP hHas _).bind fun q hMade => ih hMade hAfter
    split
    · rename_i a hArg
      refine yields_ite (fun _ => ?_) fun _ => ?_
      · -- past the end of a body there is nothing to put in
        rcases hList : rest.tail with - | ⟨u, us⟩
        · cases fuel <;> exact yields_throw _ _
        rw [hList] at hAfter hThird
        refine ih ?_ hThird
        unfold afterEmpty
        split
        · rename_i b hThere
          exact hHas.append (hHas.arg? hThere)
        · exact hHas.push (hAfter u (by simp))
      · have hSome := (Option.filter_eq_some_iff.mp hArg).1
        exact ih (hHas.append (hHas.arg? hSome)) hRest
    refine yields_ite (fun _ => ?_) fun _ => ?_
    · refine (yields_ofScan _).bind fun r hScan => ?_
      obtain ⟨hOpt, hClose⟩ := Arguments.readOne_has hP hAfter hScan
      have hOn : ∀ q : Progress, q.Has P → Yields cfg P (ofScan (Arguments.skip ")" r.2) >>=
            subst expand fuel q) (Progress.Has P) :=
        fun q hMade => (yields_ofScan _).bind fun us hSkip =>
          ih hMade (Arguments.skip_has hClose hSkip)
      refine yields_ite (fun _ => ?_) fun _ => hOn p hHas
      have hFresh : Progress.Has P { args := p.args } := ⟨by simp, hHas.args⟩
      refine (ih hFresh hOpt).bind fun inner hInner => ?_
      refine hOn _ ⟨fun u hu => ?_, hInner.args⟩
      rcases Array.mem_append.mp hu with hOld | hNew
      · exact hHas.done u hOld
      · exact hInner.done u hNew
    · split
      · rename_i a hArg
        exact (yields_expandArg hP hExpand hHas t
          (hHas.arg? hArg)).bind fun q hMade => ih hMade hRest
      · exact ih (hHas.push hFirst) hRest

end Substitution

------------
-- Uses of Macros
------------

namespace Expansion

open Pre

variable {cfg : Config} {P : Token → Prop}
  (hP : Token.Lasting cfg P)
include hP

theorem yields_builtinToken (b : Builtin) (t : Token) : Yields cfg P (builtinToken b t) P := by
  cases b with
  | file => exact (yields_shownOf _).bind fun _ _ => yields_makeToken hP _ _
  | line => exact (yields_shownOf _).bind fun _ _ => yields_makeToken hP _ _
  | counter =>
    exact yields_get fun _ _ => yields_change (fun _ => yields_makeToken hP _ _) fun _ => ⟨rfl, rfl⟩
  | timestamp => exact yields_makeToken hP _ _
  | baseFile => exact yields_get fun _ _ => yields_makeToken hP _ _

/- The tokens of a use have a property. -/
structure Use.Has
    (P : Token → Prop)
    (u : Use) : Prop where
  body : ∀ body, u.definition.body? = some body → ∀ t ∈ body, P t
  args : ∀ a ∈ u.args, ∀ t ∈ a.toks, P t
  rest : ∀ t ∈ u.rest, P t

omit hP in
theorem Session.Holds.ofToken? {s : Session} (hHolds : s.Holds cfg P) {t : Token} {m : Macro}
    (hMacro : s.macros.ofToken? t = some m) {body : List Token} (hBody : m.body? = some body) :
    ∀ u ∈ body, P u := by
  unfold Macros.ofToken? Macros.find? at hMacro
  split at hMacro
  · obtain ⟨before, after, hSplit, -⟩ := List.lookup_eq_some_iff.mp hMacro
    exact hHolds.bodies (t.text, m) (by rw [hSplit]; simp) body hBody
  · cases hMacro

theorem yields_use? (t : Token) (hRest : ∀ u ∈ rest, P u) :
    Yields cfg P (use? t rest) fun found? =>
      ∀ u, found? = some u → u.Has P := by
  refine yields_ite (fun _ => yields_pure nofun) fun _ => ?_
  refine yields_get fun s hHolds => ?_
  simp only
  split
  · exact yields_pure nofun
  · rename_i params rest? body hMacro
    refine yields_ite (fun _ => yields_pure nofun) fun _ => ?_
    refine (yields_ofScan _).bind fun r hScan => ?_
    obtain ⟨hArgs, hClose⟩ := Arguments.readAll_has hP
      (fun u hu => hRest u (List.mem_of_mem_tail hu)) hScan
    refine yields_pure fun u hFound => ?_
    cases hFound
    exact ⟨fun body hBody => Session.Holds.ofToken? hHolds hMacro hBody,
      hArgs, fun u hu => hClose u (List.mem_of_mem_tail hu)⟩
  · rename_i m hOther hMacro
    refine yields_pure fun u hFound => ?_
    cases hFound
    exact ⟨fun body hBody => Session.Holds.ofToken? hHolds hMacro hBody, by simp, hRest⟩

theorem markBody_has (use : Token) (hidden : HideSet) {body : Array Token}
    (hBody : ∀ t ∈ body, P t) : ∀ t ∈ markBody use hidden body, P t := by
  intro t ht
  obtain ⟨u, hu, rfl⟩ := List.mem_map.mp ht
  exact hP.moved u _ rfl rfl rfl (hBody u (by simpa using hu))

theorem yields_tokens {expand : Expand} (hExpand : Expands cfg P expand) (t : Token) {u : Use}
    (hUse : u.Has P) :
    Yields cfg P (u.tokens expand t) fun ts => ∀ t ∈ ts, P t := by
  unfold Use.tokens
  split
  · exact (yields_builtinToken hP _ _).bind fun v hMade => yields_pure (by simpa using hMade)
  · rename_i body hDefinition
    have hBody := hUse.body body (by rw [hDefinition]; rfl)
    exact (Substitution.yields_pasteBody hP (by simp) hBody).bind
      fun made hMade => yields_pure (markBody_has hP _ _ hMade)
  · rename_i params rest? body hDefinition
    have hBody := hUse.body body (by rw [hDefinition]; rfl)
    have hStart : Substitution.Progress.Has P { args := u.args } := ⟨by simp, hUse.args⟩
    exact (Substitution.yields_subst hP hExpand _ hStart hBody).bind fun p hMade =>
        yields_pure (markBody_has hP _ _ hMade.done)

end Expansion

------------
-- Files
------------

namespace Include

open Pre Expansion

variable {cfg : Config} {P : Token → Prop}

theorem yields_consult (path : Bytes) : Yields cfg P (consult path) fun _ => True :=
  yields_change (fun _ => yields_get fun _ _ => yields_pure trivial) fun _ => ⟨rfl, rfl⟩

theorem yields_fileExists (path : Bytes) : Yields cfg P (fileExists path) fun _ => True := by
  unfold fileExists
  split
  · exact yields_pure trivial
  · exact (yields_consult _).bind fun _ _ => yields_pure trivial

theorem yields_read (path : Bytes) : Yields cfg P (read path) fun _ => True := by
  unfold read
  split
  · split <;> exact yields_pure trivial
  · refine (yields_consult _).bind fun store _ => ?_
    refine yields_ite (fun _ => ?_) fun _ => yields_pure trivial
    have hStdin : Yields cfg P readStdin fun _ => True :=
      yields_get fun _ _ => yields_change (fun _ => yields_pure trivial) fun _ => ⟨rfl, rfl⟩
    exact hStdin.bind fun _ _ => yields_pure trivial

theorem yields_firstWith (name : Bytes) (i : Nat) (dirs : List Bytes) :
    Yields cfg P (firstWith name i dirs) fun _ => True := by
  induction dirs generalizing i with
  | nil => exact yields_pure trivial
  | cons dir dirs ih =>
    refine (yields_fileExists _).bind fun found _ => ?_
    exact yields_ite (fun _ => yields_pure trivial) fun _ => ih _

theorem yields_search (name : Bytes) : Yields cfg P (search name) fun _ => True := by
  refine yields_ite (fun _ => yields_pure trivial) fun _ => ?_
  refine yields_get fun s _ => ?_
  split
  · exact yields_pure trivial
  · refine yields_get fun s' _ => ?_
    refine (yields_firstWith _ _ _).bind fun found? _ => ?_
    split
    · exact yields_change (fun _ => yields_pure trivial) fun _ => ⟨rfl, rfl⟩
    · exact yields_pure trivial

theorem yields_searchNext (name : Bytes) : Yields cfg P (searchNext name) fun _ => True := by
  refine yields_get fun s _ => yields_get fun s' _ => ?_
  refine (yields_firstWith _ _ _).bind fun found? _ => ?_
  split
  all_goals
    exact yields_change (fun _ => yields_pure trivial) fun _ => ⟨rfl, rfl⟩

theorem yields_searchBeside (asking name : Bytes) :
    Yields cfg P (searchBeside asking name) fun _ => True := by
  refine (yields_fileExists _).bind fun found _ => ?_
  exact yields_ite (fun _ => yields_pure trivial) fun _ => yields_pure trivial

theorem beforeEof_has (hTokens : ∀ t ∈ ts, P t) : ∀ t ∈ beforeEof ts, P t :=
  fun t ht => hTokens t ((List.takeWhile_prefix _).sublist.subset ht)

variable (hP : Token.Lasting cfg P)
include hP

theorem yields_includeFile (path : Bytes) (nameTok : Token) :
    Yields cfg P (includeFile path nameTok) fun ts => ∀ t ∈ ts, P t := by
  refine yields_get fun s _ => ?_
  refine yields_ite (fun _ => yields_pure (by simp)) fun _ => ?_
  refine yields_ite (fun _ => yields_pure (by simp)) fun _ => ?_
  refine (yields_read path).bind fun r _ => ?_
  cases r with
  | error f => exact yields_fail _ _ _
  | ok text =>
    refine (yields_tokenizeSource hP path text).bind fun ts hTokens => ?_
    have hBefore := beforeEof_has hTokens
    simp only
    split
    · exact yields_change (fun _ => yields_pure hBefore) fun _ => ⟨rfl, rfl⟩
    · exact yields_pure hBefore

omit hP in
/- A failure that is put into other words. -/
theorem yields_reworded {α : Type} {x : Pre α} {Q : α → Prop} (hYields : Yields cfg P x Q)
    (reword : Failure → Failure) : Yields cfg P (tryCatch x fun e => throw (reword e)) Q := by
  intro s a t hHolds hRun
  change EStateM.tryCatch x _ s = _ at hRun
  unfold EStateM.tryCatch at hRun
  cases hX : x s with
  | ok b s₁ =>
    rw [hX] at hRun
    exact hYields s a t hHolds (hX.trans hRun)
  | error e s₁ =>
    rw [hX] at hRun
    cases hRun

theorem yields_forceOne (name : Bytes) : Yields cfg P (forceOne name) fun ts => ∀ t ∈ ts, P t := by
  have hRead (path : Bytes) (next : Except FileFault Bytes → Pre (List Token))
      (hError : ∀ f, ∃ e, next (.error f) = throw e)
      (hText : ∀ text, ∃ onFault : Failure → Failure, next (.ok text) =
        tryCatch (tokenizeSource path text) fun f => throw (onFault f)) :
      Yields cfg P (read path >>= next) fun ts => ∀ t ∈ ts, P t := by
    refine (yields_read path).bind fun r _ => ?_
    cases r with
    | error f =>
      obtain ⟨e, hEq⟩ := hError f
      rw [hEq]
      exact yields_throw _ _
    | ok text =>
      obtain ⟨onFault, hEq⟩ := hText text
      rw [hEq]
      exact yields_reworded (yields_tokenizeSource hP path text) _
  refine (yields_fileExists name).bind fun found _ => ?_
  refine yields_ite (fun _ => hRead name _ (fun _ => ⟨_, rfl⟩) fun _ => ⟨_, rfl⟩) fun _ => ?_
  refine (yields_search name).bind fun path? _ => ?_
  cases path? with
  | none => exact yields_throw _ _
  | some path => exact hRead path _ (fun _ => ⟨_, rfl⟩) fun _ => ⟨_, rfl⟩

theorem yields_force (names : List Bytes) (hTokens : ∀ t ∈ ts, P t) :
    Yields cfg P (force names ts) fun us => ∀ t ∈ us, P t := by
  unfold force
  induction names.reverse generalizing ts with
  | nil => exact yields_pure hTokens
  | cons name names ih =>
    rw [List.foldlM_cons]
    have hOne : Yields cfg P (do
        return beforeEof (← forceOne name) ++ ts)
        fun us => ∀ t ∈ us, P t := by
      refine (yields_forceOne hP name).bind fun us hFile => yields_pure fun t ht => ?_
      rcases List.mem_append.mp ht with hNew | hOld
      · exact beforeEof_has hFile t hNew
      · exact hTokens t hOld
    exact hOne.bind fun us hNext => ih hNext

end Include

------------
-- Directives
------------

namespace Directive

open Pre Expansion

variable {cfg : Config} {P : Token → Prop}

/- What is read on after a directive has a property. -/
structure Resume.Has
    (P : Token → Prop)
    (r : Resume) : Prop where
  inserted : ∀ t ∈ r.inserted, P t
  rest : ∀ t ∈ r.rest, P t

theorem has_resumeAt (hRest : ∀ t ∈ rest, P t) : (resumeAt rest).Has P :=
  ⟨by simp [resumeAt], hRest⟩

/- A later place in a list has what the list has. -/
theorem has_of_suffix (hSuffix : rest <:+ ts) (hTokens : ∀ t ∈ ts, P t) : ∀ t ∈ rest, P t :=
  fun t ht => hTokens t (hSuffix.subset ht)

theorem yields_skipLine (hTokens : ∀ t ∈ ts, P t) :
    Yields cfg P (skipLine ts) fun us => ∀ t ∈ us, P t := by
  cases ts with
  | nil => exact yields_throw _ _
  | cons t ts =>
    refine yields_ite (fun _ => yields_pure hTokens) fun _ => ?_
    exact (yields_warn _ _ _).bind fun _ _ => yields_pure
      (has_of_suffix (List.dropWhile_suffix _) hTokens)

theorem yields_openSection (start : Token) (taken : Bool) :
    Yields cfg P (openSection start taken) fun _ => True := yields_modify fun _ => ⟨rfl, rfl⟩

theorem yields_modifySection (f : Conditional → Conditional) :
    Yields cfg P (modifySection f) fun _ => True := by
  refine yields_modify fun s => ?_
  split <;> exact ⟨rfl, rfl⟩

theorem yields_openGroup (hash : Token) (cause : Fault) :
    Yields cfg P (openGroup hash cause) fun _ => True := by
  refine yields_get fun s _ => ?_
  split
  · exact yields_ite (fun _ => yields_fail _ _ _) fun _ => yields_pure trivial
  · exact yields_fail _ _ _

theorem yields_endif (hash : Token) (hTokens : ∀ t ∈ ts, P t) :
    Yields cfg P (endifDirective hash ts) (Resume.Has P) := by
  refine yields_get fun s _ => ?_
  refine yields_ite (fun _ => yields_failed _ _ _ _) fun _ => ?_
  exact yields_change (fun _ => (yields_skipLine hTokens).bind
    fun us hRest => yields_pure (has_resumeAt hRest))
    fun _ => ⟨rfl, rfl⟩

theorem yields_else (hash : Token) (hTokens : ∀ t ∈ ts, P t) :
    Yields cfg P (elseDirective hash ts) (Resume.Has P) := by
  refine (yields_openGroup _ _).bind fun c _ => ?_
  refine (yields_modifySection _).bind fun _ _ => ?_
  refine (yields_skipLine hTokens).bind fun us hRest => ?_
  refine yields_pure (has_resumeAt ?_)
  split
  · exact has_of_suffix (within_skipGroup 0 us).suffix hRest
  · exact hRest

theorem yields_ifdef (name : Token) (hTokens : ∀ t ∈ ts, P t) :
    Yields cfg P (ifdefDirective name ts) (Resume.Has P) := by
  refine yields_get fun s _ => ?_
  refine (yields_openSection _ _).bind fun _ _ => ?_
  refine (yields_skipLine fun t ht =>
    hTokens t (List.mem_of_mem_tail ht)).bind
    fun us hRest => ?_
  refine yields_pure (has_resumeAt ?_)
  split
  · exact hRest
  · exact has_of_suffix (within_skipGroup 0 us).suffix hRest

theorem yields_undef (hTokens : ∀ t ∈ ts, P t) : Yields cfg P (undef ts) (Resume.Has P) := by
  unfold undef
  refine yields_ite (fun _ => yields_failed _ _ _ _) fun _ => ?_
  have hErase : Yields cfg P (modify fun s : Session =>
      { s with macros := s.macros.erase (first ts).text } :
      Pre PUnit) fun _ => True := by
    intro s a t hHolds hRun
    cases hRun
    exact ⟨⟨hHolds.settings, fun entry hEntry =>
      hHolds.bodies entry (List.mem_of_mem_filter hEntry)⟩, trivial⟩
  exact hErase.bind fun _ _ => (yields_skipLine fun t ht =>
    hTokens t (List.mem_of_mem_tail ht)).bind fun us hRest => yields_pure (has_resumeAt hRest)

/- A macro with a body of such tokens is entered. -/
theorem yields_enter (name : Token) {m : Macro}
    (hBody : ∀ body, m.body? = some body → ∀ t ∈ body, P t) (hRest : ∀ t ∈ rest, P t) :
    Yields cfg P (do
        if let some old := (← get).macros.find? name.text then
          if !old.sameAs m then
            warn name .macroRedefined (.macroRedefined name.text)
        modify fun s => { s with macros := s.macros.insert name.text m }
        return resumeAt rest : Pre Resume) (Resume.Has P) := by
  have hAdd : Yields cfg P (do
        modify fun s => { s with macros := s.macros.insert name.text m }
        return resumeAt rest : Pre Resume) (Resume.Has P) := by
    intro s a t hHolds hRun
    cases hRun
    refine ⟨⟨hHolds.settings, fun entry hEntry => ?_⟩, has_resumeAt hRest⟩
    rcases List.mem_cons.mp hEntry with rfl | hOld
    · exact hBody
    · exact hHolds.bodies entry (List.mem_of_mem_filter hOld)
  refine yields_get fun s _ => ?_
  cases s.macros.find? name.text with
  | none => exact hAdd
  | some old => exact yields_ite (fun _ => (yields_warn _ _ _).bind fun _ _ => hAdd) fun _ => hAdd

theorem yields_pragma (name : Token) (hTokens : ∀ t ∈ ts, P t) :
    Yields cfg P (pragma name ts) (Resume.Has P) := by
  have hLine : (resumeAt (ts.dropWhile fun t => !t.atLineStart && !t.isEof)).Has P :=
    has_resumeAt (has_of_suffix (List.dropWhile_suffix _) hTokens)
  unfold pragma
  refine yields_ite (fun _ => ?_) fun _ => ?_
  · exact yields_change (fun _ => (yields_skipLine fun t ht =>
      hTokens t (List.mem_of_mem_tail ht)).bind fun us hRest => yields_pure (has_resumeAt hRest))
      fun _ => ⟨rfl, rfl⟩
  · exact yields_ite (fun _ => (yields_warn _ _ _).bind
      fun _ _ => yields_pure hLine) fun _ => yields_pure hLine

theorem yields_modifyShown (t : Token) (f : Shown → Shown) :
    Yields cfg P (modifyShown t f) fun _ => True := yields_modify fun _ => ⟨rfl, rfl⟩

variable (hP : Token.Lasting cfg P)
include hP

theorem yields_define (hTokens : ∀ t ∈ ts, P t) : Yields cfg P (define ts) (Resume.Has P) := by
  unfold define
  refine yields_ite (fun _ => yields_failed _ _ _ _) fun _ => ?_
  have hAfter : ∀ t ∈ ts.tail, P t := fun t ht => hTokens t (List.mem_of_mem_tail ht)
  have hBody : ∀ {us : List Token}, (∀ t ∈ us, P t) →
      ∀ m : Macro, m.body? = some (Arguments.copyLine us).1 →
        ∀ body, m.body? = some body → ∀ t ∈ body, P t := by
    intro us hLine m hIs body hOther
    rw [hIs] at hOther
    cases hOther
    exact Arguments.copyLine_has hP hLine
  have hRest : ∀ {us : List Token}, (∀ t ∈ us, P t) → ∀ t ∈ (Arguments.copyLine us).2, P t :=
    fun hLine => has_of_suffix (within_copyLine _).suffix hLine
  simp only
  refine yields_ite (fun _ => ?_) fun _ => ?_
  · refine (yields_ofScan _).bind fun r hScan => ?_
    have hLine : ∀ t ∈ r.2, P t :=
      has_of_suffix (within_parameters hScan).suffix fun t ht => hAfter t (List.mem_of_mem_tail ht)
    exact yields_enter (first ts) (m := .function _ _ _) (hBody hLine _ rfl) (hRest hLine)
  · exact yields_enter (first ts) (m := .object _) (hBody hAfter _ rfl) (hRest hAfter)

theorem yields_answerDefined (fuel : Nat) (hDone : ∀ t ∈ done, P t) (hTokens : ∀ t ∈ ts, P t) :
    Yields cfg P (answerDefined fuel done ts) fun us => ∀ t ∈ us, P t := by
  induction fuel generalizing done ts with
  | zero => exact yields_throw _ _
  | succ fuel ih =>
    rcases ts with - | ⟨t, ts⟩
    · exact yields_throw _ _
    rw [List.forall_mem_cons] at hTokens
    obtain ⟨hFirst, hRest⟩ := hTokens
    have hPush : ∀ {u : Token}, P u → ∀ v ∈ done.push u, P v := by
      intro u hu v hv
      rcases Array.mem_push.mp hv with hOld | rfl
      · exact hDone v hOld
      · exact hu
    refine yields_ite (fun _ => ?_) fun _ =>
      yields_ite (fun _ => ih (hPush hFirst) hRest) fun _ => ?_
    · refine yields_pure fun u hu => ?_
      rcases List.mem_append.mp hu with hOld | hEnd
      · exact hDone u (by simpa using hOld)
      · rw [List.mem_singleton.mp hEnd]
        exact hFirst
    simp only
    have hInner : ∀ u ∈ (if (first ts).is "(" = true
        then ts.tail else ts), P u := by
      split
      · exact fun u hu => hRest u (List.mem_of_mem_tail hu)
      · exact hRest
    generalize (if (first ts).is "(" = true then ts.tail else ts) = us at hInner
    have hName : ∀ u ∈ us.tail, P u := fun u hu => hInner u (List.mem_of_mem_tail hu)
    refine yields_ite (fun _ => yields_failed _ _ _ _) fun _ => yields_get fun s _ => ?_
    refine yields_ite (fun _ => ?_) fun _ => ?_
    · refine (yields_ofScan _).bind fun rest hSkip => ?_
      exact (yields_numberToken hP _ _).bind fun n hMade =>
        ih (hPush hMade) (Arguments.skip_has hName hSkip)
    · exact (yields_numberToken hP _ _).bind fun n hMade => ih (hPush hMade) hName

theorem yields_zeroNames (ts : List Token) : Yields cfg P (zeroNames ts) fun _ => True := by
  induction ts with
  | nil => exact yields_pure trivial
  | cons t ts ih =>
    refine yields_ite (fun _ => ?_) fun _ => ?_
    · exact (yields_numberToken hP _ _).bind fun u _ => ih.bind fun _ _ => yields_pure trivial
    · exact ih.bind fun _ _ => yields_pure trivial

variable {expand : Expand}
  (hExpand : Expands cfg P expand)
include hExpand

theorem yields_condition (start : Token) (hTokens : ∀ t ∈ ts, P t) :
    Yields cfg P (condition expand start ts) fun r => ∀ t ∈ r.2, P t := by
  have hLine := Arguments.copyLine_has hP hTokens
  refine (yields_answerDefined hP _ (by simp) hLine).bind fun line hAnswered => ?_
  refine (hExpand _ hAnswered).bind fun e _ => ?_
  simp only
  refine yields_ite (fun _ => yields_failed _ _ _ _) fun _ => ?_
  refine (yields_zeroNames hP _).bind fun us _ => ?_
  refine (yields_convert _).bind fun vs _ => ?_
  refine (yields_settle _).bind fun ws _ => ?_
  have hRest : ∀ t ∈ (Arguments.copyLine ts).2, P t :=
    has_of_suffix (within_copyLine ts).suffix hTokens
  split
  · exact yields_throw _ _
  · exact yields_ite (fun _ => yields_failed _ _ _ _) fun _ => yields_pure hRest

theorem yields_if (hash name : Token) (hTokens : ∀ t ∈ ts, P t) :
    Yields cfg P (ifDirective expand hash name ts) (Resume.Has P) := by
  refine (yields_condition hP hExpand _ hTokens).bind fun r hRest => ?_
  refine (yields_openSection _ _).bind fun _ _ => ?_
  refine yields_pure (has_resumeAt ?_)
  split
  · exact has_of_suffix (within_skipGroup 0 r.2).suffix hRest
  · exact hRest

theorem yields_elif (hash : Token) {name : Token} (hName : P name) (hTokens : ∀ t ∈ ts, P t) :
    Yields cfg P (elifDirective expand hash name ts) (Resume.Has P) := by
  refine (yields_openGroup _ _).bind fun c _ => ?_
  refine (yields_modifySection _).bind fun _ _ => ?_
  refine yields_ite (fun _ => yields_pure (has_resumeAt (has_of_suffix (within_skipGroup 0 _).suffix
      (List.forall_mem_cons.mpr ⟨hName, hTokens⟩))))
    fun _ => ?_
  refine (yields_condition hP hExpand _ hTokens).bind fun r hRest => ?_
  refine yields_ite (fun _ => ?_) fun _ => yields_pure
    (has_resumeAt (has_of_suffix (within_skipGroup 0 r.2).suffix hRest))
  exact (yields_modifySection _).bind fun _ _ => yields_pure (has_resumeAt hRest)

theorem yields_lineMarker (hTokens : ∀ t ∈ ts, P t) :
    Yields cfg P (lineMarker expand ts) (Resume.Has P) := by
  have hRest : (resumeAt (Arguments.copyLine ts).2).Has P :=
    has_resumeAt (has_of_suffix (within_copyLine ts).suffix hTokens)
  refine (hExpand _ (Arguments.copyLine_has hP hTokens)).bind fun e _ => ?_
  refine (yields_convert _).bind fun line _ => ?_
  simp only
  split
  · refine (yields_modifyShown _ _).bind fun _ _ => ?_
    split
    · exact yields_pure hRest
    · exact (yields_modifyShown _ _).bind fun _ _ => yields_pure hRest
    · exact yields_fail _ _ _
  · exact yields_fail _ _ _

theorem yields_fileName (fuel : Nat) (hTokens : ∀ t ∈ ts, P t) :
    Yields cfg P (fileName expand fuel ts) fun r => ∀ t ∈ r.2.2, P t := by
  induction fuel generalizing ts with
  | zero => exact yields_throw _ _
  | succ fuel ih =>
    have hAfter : ∀ t ∈ ts.tail, P t := fun t ht => hTokens t (List.mem_of_mem_tail ht)
    unfold fileName
    simp only
    refine yields_ite (fun _ => ?_) fun _ =>
      yields_ite (fun _ => ?_) fun _ => yields_ite (fun _ => ?_) fun _ => yields_fail _ _ _
    · exact (yields_skipLine hAfter).bind fun us hRest => yields_pure hRest
    · refine yields_ite (fun _ => yields_failed _ _ _ _) fun _ => ?_
      refine (yields_ofScan _).bind fun r hScan => ?_
      have hClose : ∀ t ∈ r.2, P t := has_of_suffix (suffix_angled hScan).1 hAfter
      exact (yields_skipLine fun t ht =>
        hClose t (List.mem_of_mem_tail ht)).bind fun us hRest => yields_pure hRest
    · refine (hExpand _ (Arguments.copyLine_has hP hTokens)).bind fun e hMade => ?_
      have hOutput : ∀ t ∈ e.output, P t := by
        intro t ht
        rcases List.mem_append.mp ht with hDone | hEnd
        · exact hMade.done t hDone
        · rw [List.mem_singleton.mp hEnd]
          exact hMade.eof
      exact (ih hOutput).bind fun r _ => yields_pure
        (has_of_suffix (within_copyLine ts).suffix hTokens)

theorem yields_include (hash : Token) (hTokens : ∀ t ∈ ts, P t) :
    Yields cfg P (includeDirective expand hash ts) (Resume.Has P) := by
  refine (yields_fileName hP hExpand 64 hTokens).bind fun r hRest => ?_
  have hFile : ∀ path : Bytes, Yields cfg P (do
        let inserted ← Include.includeFile path (first ts)
        return { inserted := inserted, rest := r.2.2 })
      (Resume.Has P) := fun path =>
    (Include.yields_includeFile hP path _).bind fun us hFile => yields_pure ⟨hFile, hRest⟩
  have hSearch : Yields cfg P (do
        let found? ← Include.search r.1
        let inserted ← Include.includeFile (found?.getD r.1) (first ts)
        return { inserted := inserted, rest := r.2.2 })
      (Resume.Has P) :=
    (Include.yields_search _).bind fun found? _ => hFile _
  refine yields_ite (fun _ => ?_) fun _ => hSearch
  refine (Include.yields_searchBeside _ _).bind fun beside? _ => ?_
  cases beside? with
  | some path => exact hFile path
  | none => exact hSearch

theorem yields_includeNext (hTokens : ∀ t ∈ ts, P t) :
    Yields cfg P (includeNext expand ts) (Resume.Has P) := by
  refine (yields_fileName hP hExpand 64 hTokens).bind fun r hRest => ?_
  refine (Include.yields_searchNext _).bind fun path? _ => ?_
  exact (Include.yields_includeFile hP _ _).bind fun us hFile => yields_pure ⟨hFile, hRest⟩

/- Whatever a directive leaves to read has the property. -/
theorem yields_run (hash : Token) (hTokens : ∀ t ∈ ts, P t) :
    Yields cfg P (run expand hash ts) (Resume.Has P) := by
  have hAfter : ∀ t ∈ ts.tail, P t := fun t ht => hTokens t (List.mem_of_mem_tail ht)
  unfold run
  refine yields_ite (fun _ => yields_include hP hExpand hash hAfter) fun _ => ?_
  refine yields_ite (fun _ => yields_includeNext hP hExpand hAfter) fun _ => ?_
  refine yields_ite (fun _ => yields_define hP hAfter) fun _ => ?_
  refine yields_ite (fun _ => yields_undef hAfter) fun _ => ?_
  refine yields_ite (fun _ => yields_if hP hExpand hash _ hAfter) fun _ => ?_
  refine yields_ite (fun _ => yields_ifdef _ hAfter) fun _ => ?_
  refine yields_ite (fun hIs => ?_) fun _ => ?_
  · cases ts with
    | nil => exact absurd hIs (by decide)
    | cons name after => exact yields_elif hP hExpand hash (hTokens name (by simp)) hAfter
  refine yields_ite (fun _ => yields_else hash hAfter) fun _ => ?_
  refine yields_ite (fun _ => yields_endif hash hAfter) fun _ => ?_
  refine yields_ite (fun _ => yields_lineMarker hP hExpand hAfter) fun _ => ?_
  refine yields_ite (fun _ => yields_lineMarker hP hExpand hTokens) fun _ => ?_
  refine yields_ite (fun _ => yields_pragma _ hAfter) fun _ => ?_
  refine yields_ite (fun _ => yields_fail _ _ _) fun _ => ?_
  exact yields_ite (fun _ =>
    yields_pure (has_resumeAt hTokens))
    fun _ => yields_fail _ _ _

end Directive

------------
-- Whole Lists
------------

namespace Expansion

open Pre

variable {cfg : Config} {P : Token → Prop}

/- What is still to be expanded has a property, and so has what was. -/
structure Progress.Has
    (P : Token → Prop)
    (p : Progress) : Prop where
  toks : ∀ t ∈ p.toks, P t
  used : ∀ t ∈ p.used, P t
  done : ∀ t ∈ p.done, P t

theorem Progress.Has.goOn {p : Progress} (hHas : p.Has P) {new rest : List Token}
    (hNew : ∀ t ∈ new, P t) (hRest : ∀ t ∈ rest, P t) : (p.goOn new rest).Has P := by
  have hToks : ∀ t ∈ new ++ rest, P t := List.forall_mem_append.mpr ⟨hNew, hRest⟩
  unfold Progress.goOn
  split
  · exact ⟨hToks, hHas.used, hHas.done⟩
  · refine ⟨hToks, fun t ht => ?_, hHas.done⟩
    rcases Array.mem_append.mp ht with hOld | hGone
    · exact hHas.used t hOld
    · exact hHas.toks t (List.mem_of_mem_drop (List.mem_of_mem_take (by simpa using hGone)))

theorem Progress.Has.keep {p : Progress} (hHas : p.Has P) {t : Token} {rest : List Token}
    (hToken : P t) (hRest : ∀ u ∈ rest, P u) : (p.keep t rest).Has P := by
  refine ⟨hRest, hHas.used, fun u hu => ?_⟩
  rcases Array.mem_push.mp hu with hOld | rfl
  · exact hHas.done u hOld
  · exact hToken

/- What a step leads to. -/
def Stepped
    (P : Token → Prop) : Sum Progress Expanded → Prop
| .inl p => p.Has P
| .inr e => e.Has P

variable (hP : Token.Lasting cfg P)
include hP

variable {p : Progress} {expand : Expand}

theorem yields_step (hExpand : Expands cfg P expand) (hHas : p.Has P) :
    Yields cfg P (step expand p) (Stepped P) := by
  unfold step
  split
  · exact yields_throw _ _
  rename_i t rest hList
  have hToks := hHas.toks
  rw [hList, List.forall_mem_cons] at hToks
  obtain ⟨hFirst, hRest⟩ := hToks
  refine yields_ite (fun _ => yields_pure ⟨by simpa using hHas.used, by simpa using hHas.done,
      hFirst⟩) fun _ => ?_
  refine (yields_use? hP t hRest).bind fun found? hFound => ?_
  cases found? with
  | some u =>
    have hUse := hFound u rfl
    refine (yields_tokens hP hExpand t hUse).bind fun new hNew => yields_pure ?_
    have hOn := hHas.goOn hNew hUse.rest
    exact ⟨spacedAs_has hP t hOn.toks, hOn.used, hOn.done⟩
  | none =>
    refine yields_ite (fun _ => ?_) fun _ => ?_
    · exact (Directive.yields_run hP hExpand t hRest).bind fun r hNext => yields_pure
          (hHas.goOn hNext.inserted hNext.rest)
    · exact (yields_shownOf t).bind fun shown _ => yields_pure
        (hHas.keep (hP.moved t _ rfl rfl rfl hFirst) hRest)

theorem yields_repeatStep (hExpand : Expands cfg P expand) (n : Nat) (hHas : p.Has P) :
    Yields cfg P (repeatStep (step expand) n p) (Expanded.Has P) := by
  induction n generalizing p with
  | zero => exact yields_throw _ _
  | succ n ih =>
    refine (yields_step hP hExpand hHas).bind fun next hNext => ?_
    cases next with
    | inl p' => exact ih hNext
    | inr e => exact yields_pure hNext

/-
  Expanding tokens that have a lasting property gives such
  tokens, however deep it goes.
-/
theorem yields_expandAll (n : Nat) : Expands cfg P (expandAll n) := by
  induction n with
  | zero => exact fun _ _ => yields_throw _ _
  | succ n ih => exact fun ts hTokens => yields_repeatStep hP ih n ⟨hTokens, by simp, by simp⟩

end Expansion

end CCompiler
