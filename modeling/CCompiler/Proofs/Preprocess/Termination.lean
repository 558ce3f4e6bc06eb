import Mathlib
import CCompiler.Proofs.Preprocess.Layouts

/-
  Expansion of macros ends.

  A step of the watched run and of the run itself makes the
  size of what is to come smaller, with every expansion of an
  argument inside of it.  So both runs come to an end, unless
  the watched one is stopped.

  Main declarations:
    * `Expansion.agree_step`, `Expansion.agree_run`
    * `Expansion.expandAll_finishes`
-/

------------
-- Steps Side by Side
------------

namespace CCompiler

variable {t e : Token} {ahead : List Token}

namespace Expansion

variable {dangling : Prop} {ms : Macros} {names : Label}
  {m : Nat} {all : List Label} {p q : Progress} {s : Session}
  {x y : Nat → Expand}

/- What a step does with a use. -/
def replacing
    (expand : Expand)
    (p : Progress)
    (t : Token)
    (u : Use) : Pre (Sum Progress Expanded) := do
  let new ← u.tokens expand t
  let r := p.goOn new u.rest
  return .inl { r with toks := Pre.spacedAs t r.toks }

/-
  A step of both runs at a token that is not the end: it is
  kept, used, or the cause of a fault, in the same way.
-/
theorem agree_look {xs : List Token} {notes : List Spelling}
    {Q : Sum Progress Expanded → Sum Progress Expanded → Prop} (hPlain : t.Plain) (hEnds : e.Ends)
    (hToks : p.toks = t :: (xs ++ [e])) (hOther : q.toks = t :: (xs ++ [noting e notes]))
    (hKeep : ∀ shown : Token, shown.Plain → Q (.inl (p.keep shown (xs ++ [e])))
        (.inl (q.keep shown (xs ++ [noting e notes]))))
    (hReplace : ∀ u c r, xs = c ++ r → Found s.macros t c u → m ≤ r.length →
        Agree dangling s (fun n => replacing (x n) p t
            { u with rest := r ++ [e] }) (fun n => replacing (y n) q t
            { u with rest := r ++ [noting e notes] }) Q) :
    Agree dangling s (fun n => watchedStep m (x n) p) (fun n => step (y n) q) Q := by
  have hNoted := ends_noting hEnds notes
  cases use?_cases s t xs with
  | none hUse =>
    have hWatch := watch_none m hToks (hUse e hEnds)
    refine Agree.congr ?_ 0 (fun n _ => (watchedStep_eq m (x n) hWatch).trans
        (step_none (x n) hToks hPlain (hUse e hEnds)))
      (fun n _ => step_none (y n) hOther hPlain (hUse _ hNoted))
    refine (gives_shownOf t).agree.bind fun v w s' hSame hShown => ?_
    obtain ⟨rfl, -⟩ := hShown
    exact agree_pure (hKeep _ ⟨hPlain.isEof, hPlain.atLineStart⟩)
  | failed cause z hUse =>
    have hWatch := watch_error m hToks hPlain.isEof (hUse e hEnds)
    refine (agree_fail z cause Q).congr 0 (fun n _ => ?_) (fun n _ => ?_)
    · unfold watchedStep
      exact bind_error hWatch
    · exact step_error (y n) hOther hPlain.isEof (hUse _ hNoted)
  | ended cause hUse =>
    -- the place of a fault does not show the notes
    have hWatch := watch_error m hToks hPlain.isEof (hUse e hEnds)
    refine (agree_fail e cause Q).congr 0 (fun n _ => ?_) (fun n _ => ?_)
    · unfold watchedStep
      exact bind_error hWatch
    · exact step_error (y n) hOther hPlain.isEof (hUse _ hNoted)
  | found u c r hTaken hUse hFound =>
    have hWatch := watch_found m hToks hPlain.isEof (hUse e hEnds)
    simp only [List.length_append, List.length_singleton] at hWatch
    by_cases hOld : r.length + 1 ≤ m
    · rw [if_pos hOld] at hWatch
      refine .stopped 0 s fun n _ => ?_
      unfold watchedStep
      exact bind_error hWatch
    · rw [if_neg hOld] at hWatch
      exact (hReplace u c r hTaken hFound (by omega)).congr 0
        (fun n _ => (watchedStep_eq m (x n) hWatch).trans
          (step_found (x n) hToks hPlain.isEof (hUse e hEnds)))
        (fun n _ => step_found (y n) hOther hPlain.isEof (hUse _ hNoted))

theorem mem_tableNames {name : Bytes} {d : Macro} (hFind : ms.find? name = some d) :
    name ∈ tableNames ms := by
  have hMem := mem_of_find? hFind
  simp only [tableNames, List.mem_toFinset, List.mem_map]
  exact ⟨_, hMem, rfl⟩

variable {c : List Token} {u : Use}

/-
  The label of what takes the place of a use: that of the last
  token that was taken, and the name of the macro.
-/
theorem valid_use {S : Label} {lc : List Label} (hNames : names = tableNames ms)
    (hFound : Found ms t c u) (hFirst : Valid names S t)
    (hTaken : List.Forall₂ (Valid names) lc c) (hDown : Descending (S :: lc)) :
    ∃ T ∈ S :: lc, T ⊆ S ∧ T ⊆ names ∧ (∀ U ∈ S :: lc, T ⊆ U) ∧
      ∀ w : Token, (w.Inert ∨ ∀ n ∈ u.hidden, n ∈ w.hidden) → Valid names (insert t.text T) w := by
  have hName : t.text ∈ names := hNames ▸ mem_tableNames hFound.defined
  -- a name is never inert
  have hHidden : ∀ n ∈ S, n ∈ t.hidden :=
    hFirst.hidden.resolve_left fun hInert => by
      have hIdent := hFound.ident
      rw [hInert.notIdent] at hIdent
      cases hIdent
  set T := (S :: lc).getLast (by simp) with hT
  have hMem : T ∈ S :: lc := List.getLast_mem _
  have hLast : ∀ U ∈ S :: lc, T ⊆ U := by
    intro U hU
    have hSplit := List.dropLast_append_getLast (List.cons_ne_nil S lc)
    rw [← hSplit] at hU hDown
    rcases List.mem_append.mp hU with hBefore | hEnd
    · exact (List.pairwise_append.mp hDown).2.2 U hBefore T (by simp [hT])
    · rw [List.mem_singleton.mp hEnd]
  have hSub : T ⊆ S := hLast S (by simp)
  have hSubNames : T ⊆ names := hSub.trans hFirst.names
  refine ⟨T, hMem, hSub, hSubNames, hLast, fun w hw => ?_⟩
  refine ⟨Finset.insert_subset hName hSubNames, ?_⟩
  refine hw.imp_right fun hKeeps n hn => hKeeps n ?_
  rcases Finset.mem_insert.mp hn with rfl | hOld
  · exact hFound.name
  · refine hFound.hidden n (hHidden n (hSub hOld)) ?_
    intro z hz
    -- the last token is a parenthesis, which is not inert
    have hClosed := hFound.closed z hz
    obtain ⟨hSome, rfl⟩ : ∃ h : c ≠ [], c.getLast h = z := by
      rcases List.getLast?_eq_some_iff.mp hz with ⟨c', rfl⟩
      exact ⟨by simp, by simp⟩
    have hLabels : lc ≠ [] := by
      rintro rfl
      exact hSome (List.forall₂_nil_left_iff.mp hTaken)
    have hValid := valid_getLast hTaken hLabels hSome
    rw [hT, List.getLast_cons hLabels] at hOld
    refine hValid.hidden.resolve_left (fun hInert => ?_) n hOld
    rw [hInert.notClose] at hClosed
    cases hClosed

/-
  The expansions inside of a step: of lists that are smaller
  than what is to come, whatever was passed over in them.
-/
def PairedBelow
    (ms : Macros)
    (names : Label)
    (bound : Multiset Nat)
    (x y : Nat → Expand) : Prop :=
  ∀ base : Multiset Nat,
    (∀ ls i, weights names ls ≤ base →
      Multiset.IsDershowitzMannaLT (size names ls i) bound) →
    Paired (Dangling ms) ms x y (ArgList names base)

variable {l : Layout}

/- A use that takes no token that was passed over. -/
theorem agree_replacing (hProper : Proper ms) (hNames : names = tableNames ms)
    (hState : s.macros = ms) (hHolds : l.Holds names m all p q)
    (hBelow : PairedBelow ms names (l.size names) x y) {r : List Token}
    (hAhead : l.ahead = t :: ahead) (hTaken : ahead ++ l.skipped = c ++ r)
    (hFound : Found ms t c u) (hLeaves : m ≤ r.length) :
    Agree (Dangling ms) s (fun n => replacing (x n) p t { u with rest := r ++ [l.eof] })
      (fun n => replacing (y n) q t { u with rest := r ++ [noting l.eof l.notes] })
      (Leads names m all (l.size names)) := by
  obtain ⟨back, hFront, rfl⟩ : ∃ back, ahead = c ++ back ∧ r = back ++ l.skipped := by
    have hLength := hHolds.bound.trans hLeaves
    rcases List.append_eq_append_iff.mp hTaken with
      ⟨more, hc, hSkipped⟩ | ⟨back, hFront, hBack⟩
    · have hNone : more = [] := by
        rw [hSkipped, List.length_append] at hLength
        exact List.length_eq_zero_iff.mp (by omega)
      subst hNone
      exact ⟨[], by simpa using hc.symm, by simpa using hSkipped.symm⟩
    · exact ⟨back, hFront, hBack⟩
  subst hFront
  have hFlat := hHolds.flat
  have hValid := hHolds.valid
  have hDown := hHolds.down
  rw [hAhead] at hFlat hValid
  obtain ⟨S, ls, hFirst, hRest, hLabels⟩ := List.forall₂_cons_right_iff.mp hValid
  rw [hLabels] at hDown
  obtain ⟨lc, lb, rfl, hTakenLabels⟩ : ∃ lc lb, ls = lc ++ lb ∧ List.Forall₂ (Valid names) lc c :=
    ⟨_, _, (List.take_append_drop c.length ls).symm, List.forall₂_take_append _ _ _ hRest⟩
  have hDownTaken : Descending (S :: lc) := by
    rw [← List.cons_append] at hDown
    exact (List.pairwise_append.mp hDown).1
  obtain ⟨T, hMem, hSub, hSubNames, hLast, hNew⟩ :=
    valid_use hNames hFound hFirst hTakenLabels hDownTaken
  have hName : t.text ∈ names := hNames ▸ mem_tableNames hFound.defined
  have hAbsent : t.text ∉ S := by
    intro hIn
    rcases hFirst.hidden with hInert | hHidden
    · have hIdent := hFound.ident
      rw [hInert.notIdent] at hIdent
      cases hIdent
    · exact hFound.open' (hHidden _ hIn)
  have hPaired := hBelow (weights names (lc ++ lb)) fun ls i hLess => by
      unfold Layout.size
      rw [hLabels]
      exact size_argument i l.skipped.length hName hFirst.names hAbsent rfl hLess
  have hArgs : ∀ a ∈ u.args, ArgList names (weights names (lc ++ lb)) a.toks a.toks :=
    fun a ha => argList_of_stretch hRest hDown.of_cons
      (fun w hw => hFlat w (List.mem_append_left _ (List.mem_cons_of_mem t hw)))
      ((hFound.args a ha).mono (List.prefix_append c back).isInfix)
  refine (agree_tokens hProper hPaired hState hFound hArgs
    _ _).bind fun new new' s' hSame hBoth => ?_
  obtain ⟨rfl, hNewFlat, hMarked⟩ := hBoth
  have hFrontCut : l.ahead = (t :: c) ++ back := hAhead
  have hCut : l.labels = (S :: lc) ++ lb := hLabels
  have hGoOn := hHolds.goOn (T := insert t.text T) hFrontCut hCut
    (by simp [hTakenLabels.length_eq]) (by simp)
    (fun w hw => hNew w (hMarked w hw))
    (fun U hU => ?_) hNewFlat
  · obtain ⟨l', hHolds', hSize⟩ := hGoOn.respaced (t := t) (hFlat t (by simp)).atLineStart
    refine agree_pure ⟨l', ?_, ?_⟩
    · simpa only [List.append_assoc] using hHolds'
    · rw [hSize]
      unfold Layout.size
      rw [hLabels]
      exact size_use (S :: lc) (List.replicate new.length
        (insert t.text T)) lb l.skipped.length hMem hSubNames
        hName (fun hIn => hAbsent (hSub hIn))
        fun U hU => List.eq_of_mem_replicate hU
  · rw [← List.cons_append] at hDown
    exact ((List.pairwise_append.mp hDown).2.2 T hMem U hU).trans (Finset.subset_insert _ _)

/-
  Both runs do the same step, and what is to come gets
  smaller, or both are at the end.
-/
theorem agree_step (hProper : Proper ms) (hNames : names = tableNames ms) (hState : s.macros = ms)
    (hHolds : l.Holds names m all p q) (hBelow : PairedBelow ms names (l.size names) x y) :
    Agree (Dangling ms) s (fun n => watchedStep m (x n) p) (fun n => step (y n) q)
      (Leads names m all (l.size names)) := by
  have hToks := hHolds.toks
  have hOther : q.toks = l.ahead ++ l.skipped ++ [noting l.eof l.notes] := by rw [hHolds.other]
  have hFlat := hHolds.flat
  cases hAhead : l.ahead with
  | cons t ahead =>
    rw [hAhead] at hToks hOther hFlat
    refine agree_look (hFlat t (by simp)) hHolds.ends hToks hOther (fun shown hShown => ?_)
      fun u c r hTaken hFound hLeaves => ?_
    · exact hHolds.keep_ahead hAhead shown hShown
    · exact agree_replacing hProper hNames hState hHolds
        hBelow hAhead hTaken (hState ▸ hFound) hLeaves
  | nil =>
    cases hSkipped : l.skipped with
    | cons t skipped =>
      rw [hAhead, hSkipped] at hToks hOther hFlat
      refine agree_look (hFlat t (by simp)) hHolds.ends hToks hOther (fun shown hShown => ?_)
        fun u c r hTaken hFound hLeaves => ?_
      · exact hHolds.keep_skipped hAhead hSkipped shown hShown
      · -- a use here takes a token that was passed over
        have hBound := hHolds.bound
        rw [hSkipped, hTaken] at hBound
        simp only [List.length_cons, List.length_append] at hBound
        omega
    | nil =>
      rw [hAhead, hSkipped] at hToks hOther
      have hEof := hHolds.ends.isEof
      have hNoted := ends_noting hHolds.ends l.notes
      refine Agree.congr (agree_pure ?_) 0
        (fun n _ => (watchedStep_eq m (x n) (watch_end m hToks hEof)).trans
          (step_end (x n) hToks hEof))
        (fun n _ => step_end (y n) hOther hNoted.isEof)
      exact
        { other := ⟨l.notes, by rw [hHolds.other]⟩
          ends := hHolds.ends
          done := hHolds.done
          usedFlat := hHolds.usedFlat
          used := ⟨l.before, hHolds.used, hHolds.start⟩ }

end Expansion

------------
-- Runs
------------

namespace Expansion

variable {ms : Macros} {names : Label} {m : Nat}
  {all : List Label} {base : Multiset Nat} {s : Session}

variable {ts : List Token}

theorem ArgList.sameFront {us : List Token} (hArg : ArgList names base ts us) :
    SameFront ts us := by
  obtain ⟨ahead, skipped, e, notes, ls, rfl, rfl, -, -, hFlat, hEnds, -⟩ := hArg
  exact ⟨ahead ++ skipped, e, noting e notes, rfl, rfl, hEnds, ends_noting hEnds notes, hFlat⟩

/- The blanks of a token before the first one of some others. -/
theorem flat_spacedAs (hStart : t.atLineStart = false) (hFlat : Flat ts) :
    Flat (Pre.spacedAs t ts) := by
  cases ts with
  | nil => exact hFlat
  | cons u ts =>
    intro w hw
    rcases List.mem_cons.mp hw with rfl | hOld
    · exact ⟨(hFlat u (by simp)).isEof, hStart⟩
    · exact hFlat w (List.mem_cons_of_mem u hOld)

/-
  What an expansion leaves of its list: the tokens used up, and
  after them those that were passed over, with their notes.
-/
theorem source_withNotes {e : Expanded} (notes : List Spelling) (hStart : t.atLineStart = false)
    (hEnds : e.eof.Ends) (hFlat : Flat e.done) :
    ∃ kept z, ((withNotes e).spacedAs t).source = e.used ++ kept ++ [z] ∧
      ({ e with eof := noting e.eof notes }.spacedAs
        t).source = e.used ++ kept ++ [noting z notes] ∧
      Flat kept ∧ z.Ends ∧ z.joined.length = kept.length := by
  obtain ⟨used, done, kept?, eof⟩ := e
  have hSpaced := flat_spacedAs hStart hFlat
  cases done with
  | nil =>
    refine ⟨[], { eof with
      joined := [], atLineStart := t.atLineStart,
      spaced := t.spaced }, ?_, ?_, by simp [Flat],
      ⟨hEnds.kind, hEnds.text⟩, rfl⟩
    · cases kept? <;> simp [withNotes, Expanded.spacedAs, Expanded.source]
    · cases kept? <;> simp [noting, Expanded.spacedAs, Expanded.source]
  | cons u done =>
    cases kept? with
    | none =>
      exact ⟨[], { eof with joined := [] }, by simp [withNotes, Expanded.spacedAs, Expanded.source],
        by simp [noting, Expanded.spacedAs, Expanded.source],
        by simp [Flat], ⟨hEnds.kind, hEnds.text⟩, rfl⟩
    | some k =>
      refine ⟨(Pre.spacedAs t (u :: done)).drop k, { eof with
          joined := List.replicate ((u :: done).length - k) default },
        ?_, ?_, fun w hw => hSpaced w (List.mem_of_mem_drop hw),
        ⟨hEnds.kind, hEnds.text⟩, ?_⟩
      · simp only [withNotes, Expanded.spacedAs, Expanded.source, List.length_append,
          List.length_drop, List.length_cons, List.length_nil]
        congr 4
        omega
      · simp [noting, Expanded.spacedAs, Expanded.source]
      · simp [Pre.spacedAs]

/- An argument that has been expanded is one again. -/
theorem Finished.argList {e f : Expanded} (hFinished : Finished names all e f)
    (hAll : Descending all) (hBase : weights names all ≤ base) (hStart : t.atLineStart = false) :
    ((withNotes e).spacedAs t).done = (f.spacedAs t).done ∧ Flat ((withNotes e).spacedAs t).done ∧
      ArgList names base ((withNotes e).spacedAs t).source (f.spacedAs t).source := by
  obtain ⟨notes, rfl⟩ := hFinished.other
  obtain ⟨before, hUsed, hPrefix⟩ := hFinished.used
  have hDone : ∀ d : Expanded, d.done = e.done → (d.spacedAs t).done = Pre.spacedAs t e.done := by
    intro d hd
    unfold Expanded.spacedAs
    rw [hd]
    cases e.done <;> rfl
  refine ⟨?_, ?_, ?_⟩
  · rw [hDone (withNotes e) rfl, hDone { e with eof := noting e.eof notes } rfl]
  · rw [hDone (withNotes e) rfl]
    exact flat_spacedAs hStart hFinished.done
  · obtain ⟨kept, z, hSource, hOther, hFlat, hEnds, hCount⟩ :=
      source_withNotes notes hStart hFinished.ends hFinished.done
    refine ⟨e.used, kept, z, notes, before, hSource, hOther,
      hUsed, ?_, ?_, hEnds, hCount.ge, ?_, ?_⟩
    · exact hAll.sublist hPrefix.sublist
    · intro w hw
      rcases List.mem_append.mp hw with hOld | hNew
      · exact hFinished.usedFlat w hOld
      · exact hFlat w hNew
    · intro hLess
      omega
    · exact (weights_le hPrefix.sublist).trans hBase

/- A list that is about to be expanded. -/
theorem ArgList.holds {skipped : List Token} {ls : List Label} (notes : List Spelling)
    (hValid : List.Forall₂ (Valid names) ls ahead) (hDown : Descending ls)
    (hFlat : Flat (ahead ++ skipped)) (hEnds : e.Ends) (hBound : skipped.length ≤ m)
    (hFull : skipped.length < m → ahead = []) :
    Layout.Holds ⟨ahead, skipped, e, notes, ls, []⟩ names m ls { toks := ahead ++ skipped ++ [e] }
      { toks := ahead ++ skipped ++ [noting e notes] } :=
  { toks := rfl
    other := rfl
    valid := hValid
    down := hDown
    flat := hFlat
    ends := hEnds
    bound := hBound
    full := hFull
    done := by simp [Flat]
    used := by simp
    usedFlat := by simp [Flat]
    start := List.nil_prefix
    whole := by simp }

/- The first of some steps. -/
theorem repeatStep_eq (next : Progress → Pre (Sum Progress Expanded)) {c n : Nat}
    (hSome : n ≥ c + 1) (p : Progress) :
    repeatStep next (n - c) p = next p >>= Sum.elim (repeatStep next (n - (c + 1))) pure := by
  obtain ⟨k, rfl⟩ := Nat.exists_eq_add_of_le hSome
  have hLeft : c + 1 + k - c = k + 1 := by omega
  have hRight : c + 1 + k - (c + 1) = k := by omega
  rw [hLeft, hRight, repeatStep]
  congr 1
  funext r
  cases r <;> rfl

/-
  Both runs come to the same end from any place, if the
  watched one is not stopped.  The induction is on the size of
  what is to come, in the order of multisets; the arguments
  that a step expands are smaller, too.
-/
theorem agree_run (hProper : Proper ms) (hNames : names = tableNames ms) (l : Layout) (m c : Nat)
    (all : List Label) (p q : Progress) (s : Session) (hState : s.macros = ms)
    (hAll : Descending all) (hHolds : l.Holds names m all p q) :
    Agree (Dangling ms) s (fun n => repeatStep (watchedStep m (watchedAll n)) (n - c) p)
      (fun n => repeatStep (step (expandAll n)) (n - c) q)
      (Finished names all) := by
  induction hSize : l.size names using
    (Multiset.wellFounded_isDershowitzMannaLT (α := Nat)).induction
    generalizing l m c all p q s with
  | _ bound ih =>
    subst hSize
    have hBelow : PairedBelow ms names (l.size names) watchedAll expandAll := by
      intro base hSmaller
      refine ⟨fun ts us hArg => hArg.sameFront, fun s ts us hState hArg => ?_⟩
      obtain ⟨ahead, skipped, e, notes, ls, rfl, rfl,
        hValid, hDown, hFlat, hEnds, hBound, hFull, hBase⟩ := hArg
      have hPassed : passed (ahead ++ skipped ++ [e]) =
            e.joined.length := by
        simp [passed]
      have hRun := ih _ (hSmaller ls skipped.length hBase)
        _ _ 0 ls _ _ s hState hDown
        (ArgList.holds notes hValid hDown hFlat hEnds hBound hFull) rfl
      refine Agree.shift (Agree.congr (hRun.bind
        (f := fun _ e => pure (withNotes e)) (g := fun _ f => pure f)
        fun e f s' _ hFinished => agree_pure fun t hStart => hFinished.argList hDown hBase
            hStart) 0 (fun n _ => ?_) (fun n _ => ?_))
      · simp only [watchedAll, hPassed, Nat.sub_zero]
      · simp only [expandAll, bind_pure, Nat.sub_zero]
    refine ((agree_step hProper hNames hState hHolds
      hBelow).bind fun a b s' hSame hLeads => ?_).congr
      (c + 1)
      (fun n hn => by rw [repeatStep_eq _ hn])
      (fun n hn => by rw [repeatStep_eq _ hn])
    cases a with
    | inl p' =>
      cases b with
      | inl q' =>
        obtain ⟨l', hHolds', hLess⟩ := hLeads
        exact ih _ hLess l' m (c + 1) all p' q' s' (hSame.trans hState) hAll hHolds' rfl
      | inr f => exact hLeads.elim
    | inr e =>
      cases b with
      | inl q' => exact hLeads.elim
      | inr f => exact agree_pure hLeads

end Expansion

------------
-- Every Expansion
------------

namespace Expansion

/-
  Expanding a list comes to the given end with all the fuel
  that is large enough.
-/
def Settles
    (s : Session)
    (ts : List Token)
    (r : EStateM.Result Failure Session Expanded) : Prop :=
  ∃ N, ∀ n ≥ N, expandAll n ts s = r

/-
  Expanding a list leads to an argument that is expanded once
  more, where a token that was passed over before is used.
-/
def Revives
    (s : Session)
    (front : List Token)
    (e : Token) : Prop :=
  ∃ n s', watchedAll n (front ++ [noting e []]) s = .error revived s'

/- Expanding a list ends in a list or with a fault. -/
def Finishes (s : Session) (ts : List Token) : Prop :=
  (∃ r s', Settles s ts (.ok r s')) ∨ ∃ cause place s',
      Settles s ts (.error (.fault cause place) s')

/-
  Expanding a list ends with a crash: joined tokens give none,
  or a substitution runs past the end of a body in which a
  double hash dangles.
-/
def Crashes (s : Session) (ts : List Token) : Prop :=
  (∃ s', Settles s ts (.error (.crash .nothingPasted) s')) ∨ Dangling s.macros ∧
      ∃ s', Settles s ts (.error (.crash .pastEnd) s')

/-
  Expanding a list without directives comes to an end, unless
  it revives a token: in a list or with a fault, or else with
  a crash.
-/
theorem expandAll_finishes (s : Session) (front : List Token) (e : Token)
    (hProper : Proper s.macros) (hFlat : Flat front) (hEnds : e.Ends) :
    Finishes s (front ++ [e]) ∨ Crashes s (front ++ [e]) ∨ Revives s front e := by
  have hEmpty : List.Forall₂ (Valid (tableNames s.macros)) (List.replicate front.length ∅) front :=
    forall₂_replicate fun t _ => ⟨by simp, .inr (by simp)⟩
  have hDown : Descending (List.replicate front.length (∅ : Label)) :=
    List.pairwise_replicate.mpr (.inr subset_rfl)
  have hAllFlat : Flat (front ++ []) := by simpa using hFlat
  have hHolds := ArgList.holds (m := 0) (e := noting e []) e.joined hEmpty hDown
    hAllFlat (ends_noting hEnds []) (by simp)
    (by simp)
  have hRun := agree_run hProper rfl _ 0 0 _ _ _ s rfl hDown hHolds
  have hSelf : noting (noting e []) e.joined = e := rfl
  simp only [List.append_nil, Nat.sub_zero, hSelf] at hRun
  have hSettles : ∀ {N r}, (∀ n ≥ N, repeatStep (step (expandAll n)) n
        { toks := front ++ [e] } s = r) →
      Settles s (front ++ [e]) r := by
    intro N r hSame
    refine ⟨N + 1, fun n hn => ?_⟩
    obtain ⟨k, rfl⟩ := Nat.exists_eq_add_of_le' hn
    exact hSame (k + N) (by omega)
  cases hRun with
  | value N r r' s' hAll _ _ => exact .inl (.inl ⟨r', s', hSettles fun n hn => (hAll n hn).2⟩)
  | failure N failure s' hAll hFine =>
    have hEnd := hSettles fun n hn => (hAll n hn).2
    cases failure with
    | fault cause place => exact .inl (.inr ⟨cause, place, s', hEnd⟩)
    | crash cause =>
      cases cause with
      | nothingPasted => exact .inr (.inl (.inl ⟨s', hEnd⟩))
      | pastEnd => exact .inr (.inl (.inr ⟨hFine, s', hEnd⟩))
    | wrapped before cause place => exact hFine.elim
    | plain message => exact hFine.elim
    | exhausted => exact hFine.elim
    | internal => exact hFine.elim
  | stopped N s' hAll =>
    refine .inr (.inr ⟨N + 1, s', ?_⟩)
    have hPassed : passed (front ++ [noting e []]) = 0 := by simp [passed, noting]
    unfold watchedAll
    rw [hPassed]
    exact bind_error (hAll N le_rfl)

/- A token with a spelling. -/
def spelled (kind : TokenKind) (text : String) : Token :=
  { (default : Token) with kind := kind, text := ascii text }

/- A body that ends with a double hash. -/
def danglingBody : List Token :=
  [spelled .ident "a", spelled .punct "##", spelled .eof ""]

/- A macro with an open parenthesis, and one that uses itself. -/
def mutualTable : Macros :=
  [(ascii "f", .function [ascii "a"] none
      [spelled .ident "g", spelled .punct "(",
        spelled .ident "a", spelled .eof ""]),
    (ascii "g", .function [ascii "a"] none
      [spelled .ident "f", spelled .punct "(",
        spelled .ident "a", spelled .punct ")",
        spelled .ident "a", spelled .eof ""])]

/- Macros that use each other come to an end. -/
theorem expandAll_finishes_mutual :
    Proper mutualTable ∧
      let s : Session := { macros := mutualTable }
      let ts := [spelled .ident "f", spelled .punct "(",
        spelled .ident "g", spelled .punct ")", spelled .punct ")"]
      Finishes s (ts ++ [spelled .eof ""]) ∨ Crashes s (ts ++ [spelled .eof ""]) ∨
        Revives s ts (spelled .eof "") := by
  have hProper : Proper mutualTable := by
    intro entry hEntry body hBody
    simp only [mutualTable, List.mem_cons, List.not_mem_nil, or_false] at hEntry
    rcases hEntry with rfl | rfl <;> cases hBody
    · exact ⟨[_, _, _], _, rfl, ⟨rfl, rfl⟩, by decide⟩
    · exact ⟨[_, _, _, _, _], _, rfl, ⟨rfl, rfl⟩, by decide⟩
  exact ⟨hProper, expandAll_finishes _ _ _ hProper (by decide) ⟨rfl, rfl⟩⟩

/- A substitution runs past the end of a body. -/
theorem crashes_danglingBody :
    let s : Session :=
      { macros :=
        [(ascii "f", .function [ascii "a"] none danglingBody)] }
    let ts := [spelled .ident "f", spelled .punct "(", spelled .punct ")", spelled .eof ""]
    Settles s ts (.error (.crash .pastEnd) s) := by
  refine ⟨3, fun n hn => ?_⟩
  obtain ⟨k, rfl⟩ := Nat.exists_eq_add_of_le' hn
  rfl

end Expansion

end CCompiler
