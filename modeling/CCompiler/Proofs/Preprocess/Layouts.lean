import Mathlib
import CCompiler.Proofs.Preprocess.Substituting

/-
  Names that are hidden in tokens, and how the watched run and
  the run itself stand.

  Every token of a list to come gets a set of names that are
  hidden in it.  The sets get no larger from front to back, so
  what takes the place of a use gets the set of its last token
  and one more name.  The numbers of names that are missing in
  the sets form a multiset, which each use makes smaller, and
  arguments are smaller still.  A layout tells the tokens that
  are to come with their labels, those that were passed over
  before, and the labels of the tokens that are used up.
  Keeping a token and going on with what takes the place of a
  use lead to a layout again.

  Main declarations:
    * `Expansion.Proper`, `Expansion.Dangling`
    * `Expansion.Valid`, `Expansion.size`
    * `Expansion.size_use`, `Expansion.size_argument`
    * `Expansion.agree_tokens`
    * `Expansion.Layout`, `Expansion.Layout.Holds`
    * `Expansion.Layout.Holds.keep_ahead`
    * `Expansion.Layout.Holds.goOn`
    * `Expansion.ArgList`
-/

------------
-- Tables
------------

namespace CCompiler

namespace Expansion

/- A body as a definition leaves it. -/
def ProperBody (ts : List Token) : Prop :=
  ∃ front e, ts = front ++ [e] ∧ e.Ends ∧ Flat front

/- A table of macros as definitions leave it. -/
def Proper (ms : Macros) : Prop :=
  ∀ entry ∈ ms, ∀ body, entry.2.body? = some body → ProperBody body

/- Some body of a table lets a double hash dangle. -/
def Dangling (ms : Macros) : Prop :=
  ∃ entry ∈ ms, ∃ body, entry.2.body? = some body ∧ Dangles body

variable {name : Bytes} {m : Macro}

theorem mem_of_find? {ms : Macros} (hFind : ms.find? name = some m) : (name, m) ∈ ms := by
  unfold Macros.find? at hFind
  obtain ⟨before, after, rfl, -⟩ := List.lookup_eq_some_iff.mp hFind
  simp

/- A body of a table is a piece. -/
theorem Proper.piece {ms : Macros} (hProper : Proper ms) (body : List Token)
    (hFind : ms.find? name = some m) (hBody : m.body? = some body) : Piece (Dangling ms) body := by
  have hMem := mem_of_find? hFind
  exact ⟨hProper _ hMem body hBody, fun hDangles => ⟨_, hMem, body, hBody, hDangles⟩⟩

variable {dangling : Prop} {ms : Macros} {s : Session}

/- The body of a macro without parameters. -/
theorem gives_pasteBody (done : Array Token) (hDone : Flat done.toList) (ts : List Token)
    (hPiece : Piece dangling ts) :
    Gives dangling s (Substitution.pasteBody done ts) fun r => Flat r.toList := by
  induction hLength : ts.length using Nat.strong_induction_on generalizing s done ts with
  | h n ih =>
    rcases hPiece.cases with
      ⟨e, rfl, hEnds⟩ | ⟨t, rest, rfl, hPlain, hRest⟩
    · simp only [Substitution.pasteBody, hEnds.isEof, if_true]
      exact gives_pure hDone
    obtain ⟨next, more, rfl⟩ : ∃ next more, rest = next :: more := by
      rcases hRest.cases with ⟨e, rfl, -⟩ | ⟨u, us, rfl, -⟩
      · exact ⟨e, [], rfl⟩
      · exact ⟨u, us, rfl⟩
    simp only [List.length_cons] at hLength
    have hPush : ∀ {u : Token} {us : List Token}, u.Plain → Flat us → Flat (us ++ [u]) := by
      intro u us hu hus w hw
      rcases List.mem_append.mp hw with hOld | hNew
      · exact hus w hOld
      · rw [List.mem_singleton.mp hNew]
        exact hu
    simp only [Substitution.pasteBody, hPlain.isEof, Bool.false_eq_true, if_false]
    by_cases hHash : t.is "##" = true
    · simp only [hHash, Bool.not_true, Bool.false_eq_true, if_false]
      refine (gives_checkPaste _ _ _).bind fun _ s₁ hSame hChecked => ?_
      cases hBack : done.back? with
      | none =>
        have hNone := Array.back?_eq_none_iff.mp hBack
        simp [hNone] at hChecked
      | some last =>
        rcases hRest.cases with
          ⟨e, hOnly, hEnds⟩ | ⟨u, us, hCons, -, hMore⟩
        · cases hOnly
          simp [hEnds.isEof] at hChecked
        · cases hCons
          refine (gives_paste last next).bind fun joined s₂ _ hJoined => ?_
          refine ih more.length (by omega) (done.pop.push joined) ?_ more hMore rfl
          rw [Array.toList_push, Array.toList_pop]
          refine hPush hJoined fun w hw => hDone w ?_
          exact List.mem_of_mem_dropLast hw
    · simp only [hHash, Bool.not_false, if_true]
      refine ih (next :: more).length (by simp only [List.length_cons]; omega)
        (done.push t) ?_ (next :: more) hRest rfl
      rw [Array.toList_push]
      exact hPush hPlain hDone

end Expansion

------------
-- Names Hidden in Tokens
------------

namespace Expansion

/- A set of names that are hidden in a token. -/
abbrev Label := Finset Bytes

/- The names of a table. -/
def tableNames (ms : Macros) : Label :=
  (ms.map (·.1)).toFinset

/- A label of a token; an inert token may have any. -/
structure Valid (names S : Label) (t : Token) : Prop where
  names : S ⊆ names
  hidden : t.Inert ∨ ∀ x ∈ S, x ∈ t.hidden

/- How many names a label is short of. -/
def missing (names S : Label) : Nat :=
  names.card - S.card

/- What is missing in labels, taken together. -/
def weights (names : Label) (ls : List Label) : Multiset Nat :=
  (ls.map (missing names) : Multiset Nat)

/- The labels get no larger from front to back. -/
def Descending (ls : List Label) : Prop :=
  ls.Pairwise fun S T => T ⊆ S

/- The size of a list: of its labels, and of tokens without. -/
def size
    (names : Label)
    (ls : List Label)
    (j : Nat) : Multiset Nat :=
  weights names ls + Multiset.replicate j 0

theorem weights_append (names : Label) (ls ls' : List Label) :
    weights names (ls ++ ls') = weights names ls + weights names ls' := by simp [weights]

theorem weights_cons (names S : Label) (ls : List Label) :
    weights names (S :: ls) = missing names S ::ₘ weights names ls := by simp [weights]

variable {names S : Label}

/- One more name makes a label miss less. -/
theorem missing_insert {x : Bytes} (hSub : S ⊆ names) (hName : x ∈ names) (hNew : x ∉ S) :
    missing names (insert x S) < missing names S := by
  have hCard : (insert x S).card ≤ names.card :=
    Finset.card_le_card (Finset.insert_subset hName hSub)
  rw [Finset.card_insert_of_notMem hNew] at hCard
  unfold missing
  rw [Finset.card_insert_of_notMem hNew]
  omega

/- A token less is a smaller size. -/
theorem size_tail (names S : Label) (ls : List Label) (j : Nat) :
    Multiset.IsDershowitzMannaLT (size names ls j) (size names (S :: ls) j) := by
  refine ⟨size names ls j, 0, {missing names S}, by simp, by simp, ?_, by simp⟩
  rw [size, size, weights_cons, ← Multiset.singleton_add]
  abel

theorem size_passed (names : Label) (ls : List Label) (j : Nat) :
    Multiset.IsDershowitzMannaLT (size names ls j) (size names ls (j + 1)) := by
  refine ⟨size names ls j, 0, {0}, by simp, by simp, ?_, by simp⟩
  rw [size, size, Multiset.replicate_succ, ← Multiset.singleton_add]
  abel

/-
  A use makes the size smaller: what takes its place has one
  more name than its last token.
-/
theorem size_use {T : Label} {x : Bytes} (taken : List Label) (new rest : List Label) (j : Nat)
    (hLast : T ∈ taken) (hSub : T ⊆ names) (hName : x ∈ names) (hNew : x ∉ T)
    (hLabels : ∀ S ∈ new, S = insert x T) :
    Multiset.IsDershowitzMannaLT (size names (new ++ rest) j) (size names (taken ++ rest) j) := by
  refine ⟨size names rest j, weights names new, weights names taken, ?_, ?_, ?_, ?_⟩
  · intro hNone
    have hMem : missing names T ∈ weights names taken := by simpa [weights] using ⟨T, hLast, rfl⟩
    rw [hNone] at hMem
    simp at hMem
  · simp only [size, weights_append]
    abel
  · simp only [size, weights_append]
    abel
  · intro w hw
    obtain ⟨S, hS, rfl⟩ : ∃ S ∈ new, missing names S = w := by simpa [weights] using hw
    refine ⟨missing names T, ?_, ?_⟩
    · simpa [weights] using ⟨T, hLast, rfl⟩
    · rw [hLabels S hS]
      exact missing_insert hSub hName hNew

/-
  An argument is smaller than the list that it stands in,
  whatever number of its tokens have been passed over: the
  name that is used is missing in its own label.
-/
theorem size_argument {x : Bytes} {ls rest : List Label} {base : Multiset Nat} (i j : Nat)
    (hName : x ∈ names) (hSub : S ⊆ names) (hNew : x ∉ S) (hBase : base = weights names rest)
    (hLabels : weights names ls ≤ base) :
    Multiset.IsDershowitzMannaLT (size names ls i) (size names (S :: rest) j) := by
  obtain ⟨others, hOthers⟩ := Multiset.le_iff_exists_add.mp hLabels
  refine ⟨weights names ls, Multiset.replicate i 0,
    missing names S ::ₘ (others + Multiset.replicate j 0),
    by simp, rfl, ?_, ?_⟩
  · rw [size, weights_cons, ← hBase, hOthers, ← Multiset.singleton_add, ← Multiset.singleton_add]
    abel
  · intro w hw
    rw [Multiset.eq_of_mem_replicate hw]
    refine ⟨missing names S, by simp, ?_⟩
    have hLess := missing_insert hSub hName hNew
    omega

------------
-- Uses
------------

variable {dangling : Prop} {ms : Macros}
  {x y : Nat → Expand}
  {L : List Token → List Token → Prop}
  {s : Session}

/- The names that are hidden in what takes the place of a use. -/
def Marked (hidden : HideSet) (ts : List Token) : Prop :=
  ∀ t ∈ ts, t.Inert ∨ ∀ n ∈ hidden, n ∈ t.hidden

theorem flat_markBody (t : Token) (hidden : HideSet) {body : Array Token}
    (hFlat : Flat body.toList) : Flat (markBody t hidden body) := by
  intro u hu
  obtain ⟨w, hw, rfl⟩ := List.mem_map.mp hu
  exact ⟨(hFlat w hw).isEof, (hFlat w hw).atLineStart⟩

theorem marked_markBody (t : Token) (hidden : HideSet) (body : Array Token) :
    Marked hidden (markBody t hidden body) := by
  intro u hu
  obtain ⟨w, hw, rfl⟩ := List.mem_map.mp hu
  refine .inr fun n hn => ?_
  simp [HideSet.union, hn]

/- Both sides put the same tokens in the place of a use. -/
theorem agree_tokens (hProper : Proper ms) (hPaired : Paired (Dangling ms) ms x y L)
    (hState : s.macros = ms) {t : Token} {c : List Token} {u : Use} (hFound : Found ms t c u)
    (hArgs : ∀ a ∈ u.args, L a.toks a.toks) (r r' : List Token) :
    Agree (Dangling ms) s (fun n => { u with rest := r }.tokens (x n) t)
      (fun n => { u with rest := r' }.tokens (y n) t)
      fun ts us => ts = us ∧ Flat ts ∧ Marked u.hidden ts := by
  unfold Use.tokens
  cases hMacro : u.definition with
  | builtin b =>
    simp only
    refine (gives_builtinToken b t).agree.bind fun v w s' hSame hMade => ?_
    obtain ⟨rfl, hPlain, hInert⟩ := hMade
    refine agree_pure ⟨rfl, ?_, ?_⟩
    · intro z hz
      rw [List.mem_singleton.mp hz]
      exact hPlain
    · intro z hz
      rw [List.mem_singleton.mp hz]
      exact .inl hInert
  | object body =>
    simp only
    have hPiece := hProper.piece body hFound.defined (by rw [hMacro]; rfl)
    refine (gives_pasteBody #[] (by simp [Flat]) body
      hPiece).agree.bind fun v w s' hSame hBody => ?_
    obtain ⟨rfl, hFlat⟩ := hBody
    exact agree_pure ⟨rfl, flat_markBody t _ hFlat, marked_markBody t _ _⟩
  | function params rest? body =>
    simp only
    have hPiece := hProper.piece body hFound.defined (by rw [hMacro]; rfl)
    have hAlong : Along L { args := u.args } { args := u.args } := by
      refine ⟨rfl, by simp [Flat], ?_⟩
      exact List.forall₂_same.mpr fun a ha => ⟨rfl, rfl, hArgs a ha⟩
    refine (agree_subst hPaired (body.length + 1) s body _ _ hPiece (by omega) hState hAlong).bind
      fun p q s' hSame hBoth => ?_
    rw [← hBoth.done]
    exact agree_pure ⟨rfl, flat_markBody t _ hBoth.flat, marked_markBody t _ _⟩

end Expansion

------------
-- Runs Side by Side
------------

namespace Expansion

/- The same end of a list with other notes. -/
def noting (e : Token) (notes : List Spelling) : Token :=
  { e with joined := notes }

/-
  How two runs stand: the tokens to come with their labels,
  the tokens that were passed over before, the end with the
  notes that the other run has there, and the labels of the
  tokens that are used up.
-/
structure Layout where
  ahead : List Token
  skipped : List Token
  eof : Token
  notes : List Spelling
  labels : List Label
  before : List Label

namespace Layout

/- The size of what is to come. -/
def size (names : Label) (l : Layout) : Multiset Nat :=
  Expansion.size names l.labels l.skipped.length

/-
  Two runs stand like this.  `all` are the labels at the start
  of the run, and `m` tokens had been passed over then.
-/
structure Holds
    (l : Layout)
    (names : Label)
    (m : Nat)
    (all : List Label)
    (p q : Progress) : Prop where
  toks : p.toks = l.ahead ++ l.skipped ++ [l.eof]
  other :
    q = { p with
      toks := l.ahead ++ l.skipped ++ [noting l.eof l.notes] }
  valid : List.Forall₂ (Valid names) l.labels l.ahead
  down : Descending l.labels
  flat : Flat (l.ahead ++ l.skipped)
  ends : l.eof.Ends
  bound : l.skipped.length ≤ m
  full : l.skipped.length < m → l.ahead = []
  done : Flat p.done.toList
  used : List.Forall₂ (Valid names) l.before p.used.toList
  usedFlat : Flat p.used.toList
  start : l.before <+: all
  whole :
    p.kept? = none → p.fresh ≤ l.labels.length ∧
        l.before ++ l.labels.drop p.fresh = all

end Layout

/- How two runs end. -/
structure Finished
    (names : Label)
    (all : List Label)
    (e f : Expanded) : Prop where
  other : ∃ notes, f = { e with eof := noting e.eof notes }
  ends : e.eof.Ends
  done : Flat e.done
  usedFlat : Flat e.used
  used :
    ∃ before, List.Forall₂ (Valid names) before e.used ∧ before <+: all

/- What a step of both runs leads to. -/
def Leads
    (names : Label)
    (m : Nat)
    (all : List Label)
    (before : Multiset Nat) :
    Sum Progress Expanded → Sum Progress Expanded → Prop
| .inl p, .inl q =>
  ∃ l : Layout, l.Holds names m all p q ∧
    Multiset.IsDershowitzMannaLT (l.size names) before
| .inr e, .inr f => Finished names all e f
| _, _ => False

variable {names : Label} {m : Nat} {all : List Label}
  {p q : Progress} {s : Session}

theorem ends_noting {e : Token} (hEnds : e.Ends) (notes : List Spelling) :
    (noting e notes).Ends := ⟨hEnds.kind, hEnds.text⟩

variable {t : Token} {l : Layout}

/- Keeping a token that has a label. -/
theorem Layout.Holds.keep_ahead (hHolds : l.Holds names m all p q) {ahead : List Token}
    (hAhead : l.ahead = t :: ahead) (shown : Token) (hShown : shown.Plain) :
    ∃ l' : Layout, l'.Holds names m all (p.keep shown (ahead ++ l.skipped ++ [l.eof]))
        (q.keep shown (ahead ++ l.skipped ++ [noting l.eof l.notes])) ∧
      Multiset.IsDershowitzMannaLT (l'.size names) (l.size names) := by
  obtain ⟨S, ls, hLabels, hFirst, hRest⟩ : ∃ S ls, l.labels = S :: ls ∧ Valid names S t ∧
        List.Forall₂ (Valid names) ls ahead := by
    have hValid := hHolds.valid
    rw [hAhead] at hValid
    obtain ⟨S, ls, hS, hRest, hEq⟩ := List.forall₂_cons_right_iff.mp hValid
    exact ⟨S, ls, hEq, hS, hRest⟩
  refine ⟨{ l with ahead := ahead, labels := ls }, ?_, ?_⟩
  · have hDown := hHolds.down
    have hFlat := hHolds.flat
    have hFull := hHolds.full
    rw [hLabels] at hDown
    rw [hAhead] at hFlat hFull
    exact
      { toks := rfl
        other := by rw [hHolds.other]; rfl
        valid := hRest
        down := hDown.of_cons
        flat := fun u hu => hFlat u (by simp_all)
        ends := hHolds.ends
        bound := hHolds.bound
        full := fun hLess => by simpa using hFull hLess
        done := by
          intro u hu
          simp only [Progress.keep, Array.toList_push, List.mem_append, List.mem_singleton] at hu
          rcases hu with hOld | rfl
          · exact hHolds.done u hOld
          · exact hShown
        used := hHolds.used
        usedFlat := hHolds.usedFlat
        start := hHolds.start
        whole := by
          intro hNone
          simp only [Progress.keep] at hNone ⊢
          split at hNone
          · cases hNone
          · rename_i hKept
            obtain ⟨hFresh, hAll⟩ := hHolds.whole hNone
            have hSome : p.fresh ≠ 0 := by simpa [hNone] using hKept
            obtain ⟨k, hk⟩ := Nat.exists_eq_succ_of_ne_zero hSome
            rw [hLabels, hk] at hFresh hAll
            rw [hk]
            simp only [List.length_cons, List.drop_succ_cons] at hFresh hAll
            exact ⟨by simpa using hFresh, by simpa using hAll⟩ }
  · unfold Layout.size
    rw [hLabels]
    exact size_tail names S ls l.skipped.length

/- Keeping a token that was passed over before. -/
theorem Layout.Holds.keep_skipped (hHolds : l.Holds names m all p q) {skipped : List Token}
    (hAhead : l.ahead = []) (hSkipped : l.skipped = t :: skipped) (shown : Token)
    (hShown : shown.Plain) :
    ∃ l' : Layout, l'.Holds names m all (p.keep shown (skipped ++ [l.eof]))
        (q.keep shown (skipped ++ [noting l.eof l.notes])) ∧
      Multiset.IsDershowitzMannaLT (l'.size names) (l.size names) := by
  have hLabels : l.labels = [] := by
    have hValid := hHolds.valid
    rw [hAhead] at hValid
    exact List.forall₂_nil_right_iff.mp hValid
  refine ⟨{ l with skipped := skipped }, ?_, ?_⟩
  · have hFlat := hHolds.flat
    have hBound := hHolds.bound
    rw [hAhead, hSkipped] at hFlat
    rw [hSkipped] at hBound
    exact
      { toks := by simp [Progress.keep, hAhead]
        other := by
          rw [hHolds.other]
          simp [Progress.keep, hAhead]
        valid := hHolds.valid
        down := hHolds.down
        flat := fun u hu => hFlat u (by simp_all)
        ends := hHolds.ends
        bound := Nat.le_of_succ_le hBound
        full := fun _ => hAhead
        done := by
          intro u hu
          simp only [Progress.keep, Array.toList_push, List.mem_append, List.mem_singleton] at hu
          rcases hu with hOld | rfl
          · exact hHolds.done u hOld
          · exact hShown
        used := hHolds.used
        usedFlat := hHolds.usedFlat
        start := hHolds.start
        whole := by
          -- the token is of the list itself, so it is kept
          intro hNone
          simp only [Progress.keep] at hNone
          split at hNone
          · cases hNone
          · rename_i hKept
            obtain ⟨hFresh, -⟩ := hHolds.whole hNone
            rw [hLabels] at hFresh
            simp_all }
  · unfold Layout.size
    rw [hSkipped]
    exact size_passed names l.labels skipped.length

theorem valid_respaced {S : Label} {u : Token} (t : Token) (hValid : Valid names S u) :
    Valid names S { u with
        atLineStart := t.atLineStart
        spaced := t.spaced } := by
  refine ⟨hValid.names, ?_⟩
  rcases hValid.hidden with hInert | hHidden
  · exact .inl ⟨hInert.notIdent, hInert.notClose⟩
  · exact .inr hHidden

/- Other blanks before the first token to come. -/
theorem Layout.Holds.respaced (hHolds : l.Holds names m all p q) (hStart : t.atLineStart = false) :
    ∃ l' : Layout, l'.Holds names m all { p with toks := Pre.spacedAs t p.toks }
        { q with toks := Pre.spacedAs t q.toks } ∧
      l'.size names = l.size names := by
  obtain ⟨ahead, skipped, eof, notes, labels, before⟩ := l
  have hFlat := hHolds.flat
  have hOther := hHolds.other
  have hToks := hHolds.toks
  subst hOther
  cases ahead with
  | cons u ahead =>
    refine ⟨⟨{ u with
        atLineStart := t.atLineStart
        spaced := t.spaced } :: ahead,
      skipped, eof, notes, labels, before⟩, ?_, rfl⟩
    obtain ⟨S, ls, hS, hRest, rfl⟩ := List.forall₂_cons_right_iff.mp hHolds.valid
    exact { hHolds with
        toks := by simp [hToks, Pre.spacedAs]
        other := by simp [Pre.spacedAs]
        valid := .cons (valid_respaced t hS) hRest
        flat := fun w hw => by
          rcases List.mem_cons.mp hw with rfl | hw
          · exact ⟨(hFlat u (by simp)).isEof, hStart⟩
          · exact hFlat w (List.mem_cons_of_mem u hw)
        full := fun hLess => by
          have hNone := hHolds.full hLess
          cases hNone }
  | nil =>
    cases skipped with
    | cons u skipped =>
      refine ⟨⟨[], { u with
          atLineStart := t.atLineStart
          spaced := t.spaced } :: skipped, eof, notes, labels, before⟩, ?_, rfl⟩
      exact { hHolds with
          toks := by simp [hToks, Pre.spacedAs]
          other := by simp [Pre.spacedAs]
          flat := fun w hw => by
            rcases List.mem_cons.mp hw with rfl | hw
            · exact ⟨(hFlat u (by simp)).isEof, hStart⟩
            · exact hFlat w (List.mem_cons_of_mem u hw) }
    | nil =>
      refine ⟨⟨[], [], { eof with
          atLineStart := t.atLineStart
          spaced := t.spaced }, notes, labels, before⟩, ?_, rfl⟩
      exact { hHolds with
          toks := by simp [hToks, Pre.spacedAs]
          other := by simp [Pre.spacedAs, noting]
          ends := ⟨hHolds.ends.kind, hHolds.ends.text⟩ }

variable {T : Label}

theorem forall₂_replicate {new : List Token} (hValid : ∀ u ∈ new, Valid names T u) :
    List.Forall₂ (Valid names) (List.replicate new.length T)
      new := by
  induction new with
  | nil => exact .nil
  | cons u new ih => exact .cons (hValid u (by simp)) (ih fun w hw => hValid w (by simp [hw]))

variable {ls : List Label}

theorem descending_replicate (n : Nat) (hBelow : ∀ S ∈ ls, S ⊆ T) (hDown : Descending ls) :
    Descending (List.replicate n T ++ ls) := by
  refine List.pairwise_append.mpr ⟨?_, hDown, ?_⟩
  · exact List.pairwise_replicate.mpr (.inr subset_rfl)
  · intro S hS U hU
    rw [List.eq_of_mem_replicate hS]
    exact hBelow U hU

/-
  A use that leaves all the tokens that were passed over: the
  new tokens get one label, and those that are taken count as
  used up as far as they are of the list itself.
-/
theorem Layout.Holds.goOn {l : Layout} (hHolds : l.Holds names m all p q)
    {taken ahead new : List Token} {T : Label} {lt ls : List Label}
    (hAhead : l.ahead = taken ++ ahead) (hLabels : l.labels = lt ++ ls)
    (hSplit : lt.length = taken.length) (hSome : taken ≠ []) (hValid : ∀ u ∈ new, Valid names T u)
    (hDown : ∀ S ∈ ls, S ⊆ T) (hFlat : Flat new) :
    Layout.Holds { l with
        ahead := new ++ ahead
        labels := List.replicate new.length T ++ ls
        before :=
          if p.kept?.isSome then l.before
          else l.before ++ lt.drop p.fresh }
      names m all
      (p.goOn new (ahead ++ l.skipped ++ [l.eof]))
      (q.goOn new (ahead ++ l.skipped ++ [noting l.eof l.notes])) := by
  have hOldFlat := hHolds.flat
  have hOldValid := hHolds.valid
  have hOldDown := hHolds.down
  have hToks := hHolds.toks
  rw [hAhead] at hOldFlat hOldValid hToks
  rw [hLabels] at hOldValid hOldDown
  have hTaken : List.Forall₂ (Valid names) lt taken := by
    have hFront := List.forall₂_take_append _ _ _ hOldValid
    rwa [← hSplit, List.take_left] at hFront
  have hRest : List.Forall₂ (Valid names) ls ahead := by
    have hBack := List.forall₂_drop_append _ _ _ hOldValid
    rwa [← hSplit, List.drop_left] at hBack
  have hNewValid : List.Forall₂ (Valid names) (List.replicate new.length T ++ ls) (new ++ ahead) :=
    List.rel_append (forall₂_replicate hValid) hRest
  have hNewDown : Descending (List.replicate new.length T ++ ls) :=
    descending_replicate new.length hDown (List.pairwise_append.mp hOldDown).2.1
  have hNewFlat : Flat (new ++ ahead ++ l.skipped) := by
    intro u hu
    simp only [List.mem_append] at hu
    rcases hu with (hNew | hOld) | hOld
    · exact hFlat u hNew
    · exact hOldFlat u (by simp [hOld])
    · exact hOldFlat u (by simp [hOld])
  have hNewFull : l.skipped.length < m → new ++ ahead = [] := by
    intro hLess
    have hNone := hHolds.full hLess
    rw [hAhead] at hNone
    exact absurd (List.append_eq_nil_iff.mp hNone).1 hSome
  cases hKept : p.kept? with
  | some k =>
    have hOther := hHolds.other
    subst hOther
    exact { hHolds with
        toks := by simp [Progress.goOn, hKept]
        other := by simp [Progress.goOn, hKept]
        valid := hNewValid
        down := hNewDown
        flat := hNewFlat
        full := hNewFull
        done := by simpa [Progress.goOn, hKept] using hHolds.done
        used := by simpa [Progress.goOn, hKept] using hHolds.used
        usedFlat := by simpa [Progress.goOn, hKept] using hHolds.usedFlat
        start := by simpa using hHolds.start
        whole := by simp [Progress.goOn, hKept] }
  | none =>
    obtain ⟨hFresh, hAll⟩ := hHolds.whole hKept
    rw [hLabels] at hFresh hAll
    rw [List.drop_append, ← List.append_assoc] at hAll
    have hUsed : ∀ e : Token, ((taken ++ ahead ++ l.skipped ++ [e]).drop
            p.fresh).take (taken.length - p.fresh) =
          taken.drop p.fresh := by
      intro e
      rw [← List.drop_take, List.append_assoc, List.append_assoc, List.take_left]
    have hGone : ∀ e : Token, (taken ++ ahead ++ l.skipped ++ [e]).length -
            (ahead ++ l.skipped ++ [e]).length =
          taken.length := by
      intro e
      simp only [List.length_append]
      omega
    have hOther := hHolds.other
    rw [hAhead] at hOther
    subst hOther
    have hGoOn : ∀ e : Token, { p with
          toks := taken ++ ahead ++ l.skipped ++ [e]
          }.goOn new (ahead ++ l.skipped ++ [e]) =
          { p with
            toks := new ++ (ahead ++ l.skipped ++ [e])
            fresh := p.fresh - taken.length + new.length
            used := p.used ++ (taken.drop p.fresh).toArray
            } := by
      intro e
      simp only [Progress.goOn, hKept, Option.isSome_none,
        Bool.false_eq_true, if_false, hGone e, hUsed e]
    have hSelf : p = { p with
          toks := taken ++ ahead ++ l.skipped ++ [l.eof]
          } := by
      rw [← hToks]
    rw [hGoOn, hSelf, hGoOn]
    exact
      { toks := by simp
        other := by simp
        valid := hNewValid
        down := hNewDown
        flat := hNewFlat
        ends := hHolds.ends
        bound := hHolds.bound
        full := hNewFull
        done := hHolds.done
        used := by
          simp only [Option.isSome_none, Bool.false_eq_true, if_false, Array.toList_append]
          exact List.rel_append hHolds.used (List.forall₂_drop p.fresh hTaken)
        usedFlat := by
          intro u hu
          simp only [Array.toList_append, List.mem_append] at hu
          rcases hu with hOld | hNew
          · exact hHolds.usedFlat u hOld
          · exact hOldFlat u (by simp [List.mem_of_mem_drop hNew])
        start := by
          simp only [Option.isSome_none, Bool.false_eq_true, if_false]
          exact ⟨_, hAll⟩
        whole := by
          intro _
          simp only [Option.isSome_none, Bool.false_eq_true, if_false,
            List.length_append, List.length_replicate]
            at hFresh ⊢
          refine ⟨by omega, ?_⟩
          have hDrop : (List.replicate new.length T ++ ls).drop
                  (p.fresh - taken.length + new.length) =
                ls.drop (p.fresh - lt.length) := by
            rw [Nat.add_comm, ← List.drop_drop, List.drop_left' List.length_replicate, hSplit]
          rw [hDrop]
          exact hAll }

/-
  Lists of arguments as both runs have them.  `base` bounds
  what their labels are missing; tokens that were passed over
  before need no labels.
-/
def ArgList
    (names : Label)
    (base : Multiset Nat)
    (ts us : List Token) : Prop :=
  ∃ ahead skipped e notes ls,
    ts = ahead ++ skipped ++ [e] ∧ us = ahead ++ skipped ++ [noting e notes] ∧
    List.Forall₂ (Valid names) ls ahead ∧
    Descending ls ∧ Flat (ahead ++ skipped) ∧ e.Ends ∧
    skipped.length ≤ e.joined.length ∧
    (skipped.length < e.joined.length → ahead = []) ∧ weights names ls ≤ base

variable {xs : List Token}

/- The labels of a stretch of tokens. -/
theorem forall₂_infix {seg : List Token} (hValid : List.Forall₂ (Valid names) ls xs)
    (hInfix : seg <:+: xs) :
    ∃ lseg, lseg <:+: ls ∧ List.Forall₂ (Valid names) lseg seg := by
  obtain ⟨front, back, rfl⟩ := hInfix
  have hFront := List.forall₂_take_append _ _ _ hValid
  have hSeg := List.forall₂_drop_append _ _ _ hFront
  refine ⟨_, ?_, hSeg⟩
  exact (List.drop_suffix _ _).isInfix.trans (List.take_prefix _ _).isInfix

theorem weights_le {ls' : List Label} (hSub : ls.Sublist ls') :
    weights names ls ≤ weights names ls' := Multiset.coe_le.mpr (hSub.map _).subperm

/- An argument that was just read. -/
theorem argList_of_stretch {a : MacroArg} (hValid : List.Forall₂ (Valid names) ls xs)
    (hDown : Descending ls) (hFlat : Flat xs) (hStretch : Arguments.Stretch xs a) :
    ArgList names (weights names ls) a.toks a.toks := by
  obtain ⟨seg, e, hToks, hEnds, hInfix⟩ := hStretch
  obtain ⟨lseg, hLabels, hSeg⟩ := forall₂_infix hValid hInfix
  have hAll : seg.take (seg.length - e.joined.length) ++
      seg.drop (seg.length - e.joined.length) = seg :=
    List.take_append_drop _ _
  refine ⟨seg.take (seg.length - e.joined.length),
    seg.drop (seg.length - e.joined.length), e, e.joined,
    lseg.take (seg.length - e.joined.length), ?_, ?_,
    List.forall₂_take _ hSeg, ?_, ?_, hEnds, ?_, ?_, ?_⟩
  · rw [hToks, hAll]
  · rw [hToks, hAll]
    rfl
  · exact (hDown.sublist hLabels.sublist).sublist (List.take_sublist _ _)
  · rw [hAll]
    exact fun u hu => hFlat u (hInfix.subset hu)
  · simp only [List.length_drop]
    omega
  · intro hLess
    simp only [List.length_drop] at hLess
    have hZero : seg.length - e.joined.length = 0 := by omega
    rw [hZero, List.take_zero]
  · exact weights_le ((List.take_sublist _ _).trans hLabels.sublist)

/- The last of some tokens has the last of their labels. -/
theorem valid_getLast (hValid : List.Forall₂ (Valid names) ls xs) (hLabels : ls ≠ [])
    (hTokens : xs ≠ []) : Valid names (ls.getLast hLabels) (xs.getLast hTokens) := by
  induction hValid with
  | nil => exact absurd rfl hLabels
  | @cons S t ls xs hFirst hRest ih =>
    cases hRest with
    | nil => exact hFirst
    | cons hNext hMore =>
      rw [List.getLast_cons_cons, List.getLast_cons_cons]
      exact ih (by simp) (by simp)

end Expansion

end CCompiler
