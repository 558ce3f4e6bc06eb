import Mathlib
import CCompiler.Proofs.Preprocess.Reading
import CCompiler.Proofs.Preprocess.Watched

/-
  Substitution beside the watched expansion.

  Both runs put the same tokens in the place of parameters,
  though their lists of arguments may have other ends.

  Main declarations:
    * `Expansion.Flat`, `Expansion.SameFront`
    * `Expansion.Paired`
    * `Expansion.Dangles`
    * `Expansion.agree_subst`
-/

------------
-- Arguments Side by Side
------------

namespace CCompiler

namespace Expansion

/- Tokens that neither end a list nor start a line. -/
def Flat (ts : List Token) : Prop :=
  ∀ t ∈ ts, t.Plain

instance  (ts : List Token) : Decidable (Flat ts) := inferInstanceAs (Decidable (∀ t ∈ ts, t.Plain))

/- Two lists that differ in their ends only. -/
def SameFront (ts us : List Token) : Prop :=
  ∃ front e f, ts = front ++ [e] ∧ us = front ++ [f] ∧
    e.Ends ∧ f.Ends ∧ Flat front

variable {e : Token}

theorem takeWhile_front (front : List Token) (hEnds : e.Ends) :
    (front ++ [e]).takeWhile (!·.isEof) = front.takeWhile (!·.isEof) := by
  induction front with
  | nil => simp [hEnds.isEof]
  | cons t front ih => by_cases hEof : t.isEof = true <;> simp [hEof, ih]

namespace SameFront

variable {ts us : List Token}

theorem takeWhile_eq (hSame : SameFront ts us) :
    ts.takeWhile (!·.isEof) = us.takeWhile (!·.isEof) := by
  obtain ⟨front, e, f, rfl, rfl, he, hf, -⟩ := hSame
  rw [takeWhile_front front he, takeWhile_front front hf]

theorem flat (hSame : SameFront ts us) : Flat (ts.takeWhile (!·.isEof)) := by
  obtain ⟨front, e, f, rfl, rfl, he, -, hFlat⟩ := hSame
  rw [takeWhile_front front he]
  exact fun t ht => hFlat t ((List.takeWhile_prefix _).sublist.subset ht)

/- The first tokens are both ends or the same. -/
theorem head (hSame : SameFront ts us) :
    (∃ e f, ts = [e] ∧ us = [f] ∧ e.Ends ∧ f.Ends) ∨ ∃ t ts' us', ts = t :: ts' ∧ us = t :: us' ∧
        t.Plain ∧ SameFront ts' us' := by
  obtain ⟨front, e, f, rfl, rfl, he, hf, hFlat⟩ := hSame
  cases front with
  | nil => exact .inl ⟨e, f, rfl, rfl, he, hf⟩
  | cons t front =>
    exact .inr ⟨t, front ++ [e], front ++ [f], rfl, rfl,
      hFlat t (by simp), ⟨front, e, f, rfl, rfl, he, hf, fun u hu => hFlat u (by simp [hu])⟩⟩

end SameFront

/- Arguments that correspond under a relation of their lists. -/
structure ArgAlike
    (L : List Token → List Token → Prop)
    (a b : MacroArg) : Prop where
  name : a.name = b.name
  isRest : a.isRest = b.isRest
  toks : L a.toks b.toks

/- Two substitutions side by side. -/
structure Along
    (L : List Token → List Token → Prop)
    (p q : Substitution.Progress) : Prop where
  done : p.done = q.done
  flat : Flat p.done.toList
  args : List.Forall₂ (ArgAlike L) p.args q.args

/-
  Two ways to expand, and a relation of lists that they both
  keep.
-/
structure Paired
    (dangling : Prop)
    (ms : Macros)
    (x y : Nat → Expand)
    (L : List Token → List Token → Prop) : Prop where
  front : ∀ ts us, L ts us → SameFront ts us
  expand : ∀ (s : Session) (ts us : List Token),
    s.macros = ms → L ts us →
      Agree dangling s (fun n => x n ts) (fun n => y n us)
        fun e f =>
          ∀ t : Token, t.atLineStart = false →
            (e.spacedAs t).done = (f.spacedAs t).done ∧
            Flat (e.spacedAs t).done ∧
            L (e.spacedAs t).source (f.spacedAs t).source

variable {a b : MacroArg}

theorem isEmpty_eq (hSame : SameFront a.toks b.toks) : a.isEmpty = b.isEmpty := by
  rcases hSame.head with
    ⟨e, f, ha, hb, he, hf⟩ | ⟨t, ts, us, ha, hb, -⟩
  · simp [MacroArg.isEmpty, ha, hb, he.isEof, hf.isEof]
  · simp [MacroArg.isEmpty, ha, hb]

/- No argument on either side, or corresponding ones. -/
def Matching
    (L : List Token → List Token → Prop)
    (a? b? : Option MacroArg) : Prop :=
  (a? = none ∧ b? = none) ∨ ∃ a b, a? = some a ∧ b? = some b ∧ ArgAlike L a b

theorem Matching.filter {L : List Token → List Token → Prop} {a? b? : Option MacroArg}
    (hMatching : Matching L a? b?) {f : MacroArg → Bool}
    (hSame : ∀ a b, ArgAlike L a b → f a = f b) : Matching L (a?.filter f) (b?.filter f) := by
  rcases hMatching with ⟨rfl, rfl⟩ | ⟨a, b, rfl, rfl, hAlike⟩
  · exact .inl ⟨rfl, rfl⟩
  · have hBoth := hSame a b hAlike
    cases hTest : f a with
    | true =>
      rw [hTest] at hBoth
      exact .inr ⟨a, b, by simp [hTest], by simp [← hBoth], hAlike⟩
    | false =>
      rw [hTest] at hBoth
      exact .inl ⟨by simp [hTest], by simp [← hBoth]⟩

/- The same parameter names corresponding arguments. -/
theorem find?_alike {L : List Token → List Token → Prop} {as bs : List MacroArg}
    (hArgs : List.Forall₂ (ArgAlike L) as bs) {f : MacroArg → Bool}
    (hSame : ∀ a b, ArgAlike L a b → f a = f b) : Matching L (as.find? f) (bs.find? f) := by
  induction hArgs with
  | nil => exact .inl ⟨rfl, rfl⟩
  | @cons a b as bs hAlike hRest ih =>
    have hBoth := hSame a b hAlike
    cases hFirst : f a with
    | true =>
      rw [hFirst] at hBoth
      exact .inr ⟨a, b, by simp [hFirst], by simp [← hBoth], hAlike⟩
    | false =>
      rw [hFirst] at hBoth
      simpa [List.find?_cons, hFirst, ← hBoth] using ih

namespace Along

variable {L : List Token → List Token → Prop}
  {p q : Substitution.Progress}

theorem arg? (hAlong : Along L p q) (t : Token) : Matching L (p.arg? t) (q.arg? t) := by
  unfold Substitution.Progress.arg?
  split
  · exact find?_alike hAlong.args fun a b hAlike => by rw [hAlike.name]
  · exact .inl ⟨rfl, rfl⟩

theorem hasRest (hAlong : Along L p q) (hFront : ∀ ts us, L ts us → SameFront ts us) :
    p.hasRest = q.hasRest := by
  unfold Substitution.Progress.hasRest
  rcases find?_alike (f := (·.isRest)) hAlong.args fun a b hAlike => hAlike.isRest with
    ⟨hp, hq⟩ | ⟨a, b, hp, hq, hAlike⟩
  · rw [hp, hq]
  · rw [hp, hq]
    simp only
    rw [isEmpty_eq (hFront _ _ hAlike.toks)]

theorem push (hAlong : Along L p q) {t : Token} (hPlain : t.Plain) :
    Along L (p.push t) (q.push t) := by
  refine ⟨by simp [Substitution.Progress.push, hAlong.done], ?_, hAlong.args⟩
  intro u hu
  simp only [Substitution.Progress.push, Array.toList_push,
    List.mem_append, List.mem_singleton] at hu
  rcases hu with hOld | rfl
  · exact hAlong.flat u hOld
  · exact hPlain

/- Equal tokens at the end of what is done. -/
theorem append (hAlong : Along L p q) {ts us : List Token}
    (hSame : ts.takeWhile (!·.isEof) = us.takeWhile (!·.isEof))
    (hFlat : Flat (ts.takeWhile (!·.isEof))) : Along L (p.append ts) (q.append us) := by
  refine ⟨by
    simp [Substitution.Progress.append, hAlong.done, hSame],
    ?_, hAlong.args⟩
  intro u hu
  simp only [Substitution.Progress.append, Array.toList_append, List.mem_append] at hu
  rcases hu with hOld | hNew
  · exact hAlong.flat u hOld
  · exact hFlat u hNew

/- Other lists for an argument. -/
theorem setArg (hAlong : Along L p q) (name : Bytes) {ts us : List Token} (hLists : L ts us) :
    Along L (p.setArg name ts) (q.setArg name us) := by
  refine ⟨hAlong.done, hAlong.flat, ?_⟩
  have hGo : ∀ {as bs : List MacroArg}, List.Forall₂ (ArgAlike L) as bs → List.Forall₂ (ArgAlike L)
          (Substitution.Progress.setArg.go name ts as)
          (Substitution.Progress.setArg.go name us bs) := by
    intro as bs hArgs
    induction hArgs with
    | nil => exact .nil
    | @cons a b as bs hAlike hRest ih =>
      unfold Substitution.Progress.setArg.go
      rw [hAlike.name]
      split
      · exact .cons ⟨rfl, hAlike.isRest, hLists⟩ hRest
      · exact .cons hAlike ih
  exact hGo hAlong.args

end Along

------------
-- Substitution Side by Side
------------

open Substitution

variable {dangling : Prop} {ms : Macros}
  {x y : Nat → Expand}
  {L : List Token → List Token → Prop}
  {p q : Substitution.Progress}
  {s : Session}

/- What is known once a double hash has been checked. -/
theorem gives_checkPaste (p : Substitution.Progress) (hash next : Token) :
    Gives dangling s (checkPaste p hash next) fun _ =>
      p.done.isEmpty = false ∧ next.isEof = false := by
  unfold checkPaste
  by_cases hEmpty : p.done.isEmpty = true
  · simp only [hEmpty, if_true]
    exact (gives_fail _ _ fun _ => False).bind fun _ _ _ hNever => hNever.elim
  · by_cases hEof : next.isEof = true
    · simp only [hEmpty, hEof, if_true]
      exact gives_fail _ _ _
    · simp only [hEmpty, hEof]
      exact gives_pure ⟨by simp, by simp⟩

theorem checkPaste_eq (hAlong : Along L p q) (hash next : Token) :
    checkPaste q hash next = checkPaste p hash next := by
  unfold checkPaste
  rw [hAlong.done]

/- The last token joined to another one. -/
theorem agree_pasteLast (hAlong : Along L p q) (hSome : p.done.isEmpty = false) (t : Token) :
    Agree dangling s (fun _ => p.pasteLast t) (fun _ => q.pasteLast t) (Along L) := by
  unfold Substitution.Progress.pasteLast
  rw [← hAlong.done]
  cases hBack : p.done.back? with
  | none =>
    have hNone := Array.back?_eq_none_iff.mp hBack
    simp [hNone] at hSome
  | some last =>
    refine (gives_paste last t).agree.bind fun u v s' hMacros hJoined => ?_
    obtain ⟨rfl, hStart⟩ := hJoined
    refine agree_pure ⟨by simp [hAlong.done], ?_, hAlong.args⟩
    intro w hw
    simp only [Array.toList_push, Array.toList_pop, List.mem_append, List.mem_singleton] at hw
    rcases hw with hOld | rfl
    · exact hAlong.flat w (List.mem_of_mem_dropLast hOld)
    · exact hStart

/- The last token joined to the next one or to an argument. -/
theorem agree_pasteNext (hPaired : Paired dangling ms x y L) (hAlong : Along L p q)
    (hSome : p.done.isEmpty = false) (next : Token) :
    Agree dangling s (fun _ => pasteNext p next) (fun _ => pasteNext q next) (Along L) := by
  unfold pasteNext
  rcases hAlong.arg? next with
    ⟨hp, hq⟩ | ⟨a, b, hp, hq, hAlike⟩
  · simp only [hp, hq]
    exact agree_pasteLast hAlong hSome next
  · simp only [hp, hq]
    rw [← isEmpty_eq (hPaired.front _ _ hAlike.toks)]
    rcases (hPaired.front _ _ hAlike.toks).head with
      ⟨e, f, ha, hb, he, hf⟩ | ⟨t, ts, us, ha, hb, hStart, hTail⟩
    · have hEmpty : a.isEmpty = true := by simp [MacroArg.isEmpty, ha, he.isEof]
      simp only [ha, hb, hEmpty, if_true]
      exact agree_pure hAlong
    · by_cases hEmpty : a.isEmpty = true
      · simp only [ha, hb, hEmpty, if_true]
        exact agree_pure hAlong
      · simp only [ha, hb, hEmpty]
        refine (agree_pasteLast hAlong hSome t).bind fun p' q' s' hMacros hAlong' => ?_
        exact agree_pure (hAlong'.append hTail.takeWhile_eq hTail.flat)

/- What stands after an empty argument and a double hash. -/
theorem along_afterEmpty (hPaired : Paired dangling ms x y L) (hAlong : Along L p q)
    {next : Token} (hPlain : next.Plain) : Along L (afterEmpty p next) (afterEmpty q next) := by
  unfold afterEmpty
  rcases hAlong.arg? next with
    ⟨hp, hq⟩ | ⟨a, b, hp, hq, hAlike⟩
  · rw [hp, hq]
    exact hAlong.push hPlain
  · have hSame := hPaired.front _ _ hAlike.toks
    rw [hp, hq]
    exact hAlong.append hSame.takeWhile_eq hSame.flat

/- An argument that stands alone. -/
theorem agree_expandArg (hPaired : Paired dangling ms x y L) (hState : s.macros = ms)
    (hAlong : Along L p q) {t : Token} (hStart : t.atLineStart = false) (hAlike : ArgAlike L a b) :
    Agree dangling s (fun n => expandArg (x n) p t a)
      (fun n => expandArg (y n) q t b) (Along L) := by
  unfold expandArg
  refine (hPaired.expand s _ _ hState hAlike.toks).bind fun e f s' hMacros hLists => ?_
  obtain ⟨hDone, hFlat, hSource⟩ := hLists t hStart
  rw [← hAlike.name]
  refine agree_pure ((hAlong.setArg a.name hSource).append (by rw [hDone]) ?_)
  exact fun u hu => hFlat u ((List.takeWhile_prefix _).sublist.subset hu)

/-
  A body in which a name is followed by a double hash that
  nothing follows, at the end of the body or before a closing
  parenthesis.
-/
def Dangles (ts : List Token) : Prop :=
  ∃ pre t h z post, ts = pre ++ t :: h :: z :: post ∧
    (t.kind = .ident ∨ t.kind = .keyword) ∧
    h.is "##" = true ∧ (z.isEof = true ∨ z.is ")" = true)

theorem Dangles.of_suffix {ts us : List Token} (hDangles : Dangles ts) (hSuffix : ts <:+ us) :
    Dangles us := by
  obtain ⟨pre, t, h, z, post, rfl, hName⟩ := hDangles
  obtain ⟨front, rfl⟩ := hSuffix
  exact ⟨front ++ pre, t, h, z, post, by simp, hName⟩

/- A stretch that a closing parenthesis ends. -/
theorem Dangles.of_stretch {seg more : List Token} {z : Token} (hClose : z.is ")" = true)
    (hDangles : Dangles (seg ++ [z.toEof])) : Dangles (seg ++ z :: more) := by
  obtain ⟨pre, t, h, u, post, hSplit, hName, hHash, hAfter⟩ := hDangles
  rcases List.eq_nil_or_concat post with rfl | ⟨post, v, rfl⟩
  · have hEnds : seg ++ [z.toEof] = (pre ++ [t, h]) ++ [u] := by simpa using hSplit
    obtain ⟨rfl, -⟩ := List.append_inj' hEnds rfl
    exact ⟨pre, t, h, z, more, by simp, hName, hHash, .inr hClose⟩
  · have hEnds : seg ++ [z.toEof] = (pre ++ t :: h :: u :: post) ++ [v] := by simpa using hSplit
    obtain ⟨rfl, -⟩ := List.append_inj' hEnds rfl
    exact ⟨pre, t, h, u, post ++ z :: more, by simp, hName, hHash, hAfter⟩

/- A part of a body that is read up to its end. -/
structure Piece (dangling : Prop) (ts : List Token) : Prop where
  shape :
    ∃ front e, ts = front ++ [e] ∧ e.Ends ∧ Flat front
  dangle : Dangles ts → dangling

namespace Piece

variable {ts : List Token}

theorem of_suffix {front : List Token} {e : Token} {us : List Token} (hPiece : Piece dangling ts)
    (hEnds : e.Ends) (hShape : us = front ++ [e]) (hFront : Flat front) (hSuffix : us <:+ ts) :
    Piece dangling us :=
  ⟨⟨front, e, hShape, hEnds, hFront⟩, fun hDangles => hPiece.dangle (hDangles.of_suffix hSuffix)⟩

/- A piece is at its end, or it has a token before another one. -/
theorem cases (hPiece : Piece dangling ts) :
    (∃ e, ts = [e] ∧ e.Ends) ∨ ∃ t rest, ts = t :: rest ∧ t.Plain ∧ Piece dangling rest := by
  obtain ⟨front, e, hShape, hEnds, hFront⟩ := hPiece.shape
  cases front with
  | nil => exact .inl ⟨e, hShape, hEnds⟩
  | cons t front =>
    have hFirst := hFront t (by simp)
    have hRest : Piece dangling (front ++ [e]) :=
      hPiece.of_suffix hEnds rfl (fun u hu => hFront u (by simp [hu])) ⟨[t], by simp [hShape]⟩
    exact .inr ⟨t, front ++ [e], hShape, hFirst, hRest⟩

end Piece

/- A parameter is a name. -/
theorem name_of_arg? {t : Token} (hArg : p.arg? t = some a) :
    t.kind = .ident ∨ t.kind = .keyword := by
  unfold Substitution.Progress.arg? at hArg
  split at hArg
  · rename_i hKind
    simpa using hKind
  · cases hArg

/- Substitution with some fuel agrees on every piece. -/
def Continues
    (dangling : Prop)
    (ms : Macros)
    (x y : Nat → Expand)
    (L : List Token → List Token → Prop)
    (fuel : Nat) : Prop :=
  ∀ (s : Session) (ts : List Token)
    (p q : Substitution.Progress),
    Piece dangling ts → ts.length < fuel → s.macros = ms → Along L p q →
        Agree dangling s (fun n => subst (x n) fuel p ts)
          (fun n => subst (y n) fuel q ts) (Along L)

/- The end of a piece names no argument. -/
theorem arg?_ends (p : Substitution.Progress) (hEnds : e.Ends) : p.arg? e = none := by
  simp [Substitution.Progress.arg?, hEnds.kind]

section Branches

variable {fuel : Nat} {t : Token} {rest : List Token}

/- A hash makes a string of the argument after it. -/
theorem agree_hash (hPaired : Paired dangling ms x y L) (hGo : Continues dangling ms x y L fuel)
    (hState : s.macros = ms) (hAlong : Along L p q) (hRest : Piece dangling rest)
    (hLess : rest.length < fuel) :
    Agree dangling s (fun n =>
        match p.arg? (rest.headD default) with
        | none =>
          Pre.fail (rest.headD default) .hashWithoutParameter
        | some a => do
          let made ← stringize t a.toks
          subst (x n) fuel (p.push made) rest.tail)
      (fun n =>
        match q.arg? (rest.headD default) with
        | none =>
          Pre.fail (rest.headD default) .hashWithoutParameter
        | some a => do
          let made ← stringize t a.toks
          subst (y n) fuel (q.push made) rest.tail)
      (Along L) := by
  rcases hRest.cases with
    ⟨e, rfl, hEnds⟩ | ⟨next, after, rfl, -, hAfter⟩
  · simp only [List.headD_cons, arg?_ends _ hEnds]
    exact agree_fail _ _ _
  · simp only [List.headD_cons, List.tail_cons]
    rcases hAlong.arg? next with
      ⟨hp, hq⟩ | ⟨a, b, hp, hq, hAlike⟩
    · simp only [hp, hq]
      exact agree_fail _ _ _
    · have hSame := hPaired.front _ _ hAlike.toks
      have hText : stringize t b.toks = stringize t a.toks := by
        unfold stringize
        rw [hSame.takeWhile_eq]
      simp only [hp, hq, hText]
      refine (gives_stringize t a.toks).agree.bind fun u v s' hMacros hMade => ?_
      obtain ⟨rfl, hMadeStart⟩ := hMade
      refine hGo s' after _ _ hAfter ?_ (hMacros.trans hState) (hAlong.push hMadeStart)
      simp only [List.length_cons] at hLess
      omega

/- A double hash joins what stands before and after it. -/
theorem agree_doubleHash (hPaired : Paired dangling ms x y L)
    (hGo : Continues dangling ms x y L fuel) (hState : s.macros = ms) (hAlong : Along L p q)
    (hRest : Piece dangling rest) (hLess : rest.length < fuel) :
    Agree dangling s (fun n => do
        checkPaste p t (rest.headD default)
        let r ← pasteNext p (rest.headD default)
        subst (x n) fuel r rest.tail)
      (fun n => do
        checkPaste q t (rest.headD default)
        let r ← pasteNext q (rest.headD default)
        subst (y n) fuel r rest.tail)
      (Along L) := by
  rw [checkPaste_eq hAlong]
  refine (gives_checkPaste p t _).agree.bind fun _ _ s₁ hMacros hChecked => ?_
  obtain ⟨-, hSome, hMore⟩ := hChecked
  rcases hRest.cases with
    ⟨e, rfl, hEnds⟩ | ⟨next, after, rfl, -, hAfter⟩
  · simp [hEnds.isEof] at hMore
  · refine (agree_pasteNext hPaired hAlong hSome _).bind fun p' q' s₂ hSame hJoined => ?_
    refine hGo s₂ after _ _ hAfter ?_ (hSame.trans (hMacros.trans hState)) hJoined
    simp only [List.length_cons] at hLess
    omega

/-
  An argument before a double hash stays as it is; an empty
  one leaves what stands after.  If there is nothing, the walk
  over the body does not stop.
-/
theorem agree_beforePaste (hPaired : Paired dangling ms x y L)
    (hGo : Continues dangling ms x y L fuel) (hState : s.macros = ms) (hAlong : Along L p q)
    (hPiece : Piece dangling (t :: rest)) (hRest : Piece dangling rest)
    (hLess : rest.length < fuel) (hName : t.kind = .ident ∨ t.kind = .keyword)
    (hPaste : (rest.headD default).is "##" = true) (hAlike : ArgAlike L a b) :
    Agree dangling s (fun n =>
        if a.isEmpty = true then
          subst (x n) fuel (afterEmpty p (rest.tail.headD default)) rest.tail.tail
        else subst (x n) fuel (p.append a.toks) rest)
      (fun n =>
        if b.isEmpty = true then
          subst (y n) fuel (afterEmpty q (rest.tail.headD default)) rest.tail.tail
        else subst (y n) fuel (q.append b.toks) rest)
      (Along L) := by
  have hSame := hPaired.front _ _ hAlike.toks
  rw [← isEmpty_eq hSame]
  by_cases hEmpty : a.isEmpty = true
  · simp only [hEmpty, if_true]
    rcases hRest.cases with
      ⟨e, rfl, hEnds⟩ | ⟨next, after, rfl, -, hAfter⟩
    · simp [hEnds.is_eq_false (s := "##") (by decide)] at hPaste
    rcases hAfter.cases with
      ⟨e, rfl, hEnds⟩ | ⟨u, more, rfl, hPlain, hMore⟩
    · -- the double hash is the last token of the body
      have hDangling : dangling :=
        hPiece.dangle ⟨[], t, next, e, [], rfl, hName, hPaste, .inl hEnds.isEof⟩
      obtain ⟨k, rfl⟩ : ∃ k, fuel = k + 1 :=
        ⟨fuel - 1, by simp only [List.length_cons] at hLess; omega⟩
      simp only [List.tail_cons, subst]
      exact agree_throw (e := .crash .pastEnd) hDangling _
    · refine hGo s more _ _ hMore ?_ hState (along_afterEmpty hPaired hAlong hPlain)
      simp only [List.length_cons] at hLess
      omega
  · simp only [hEmpty]
    exact hGo s rest _ _ hRest hLess hState (hAlong.append hSame.takeWhile_eq hSame.flat)

variable {after : List Token}

/- Reading a part of a piece gives two pieces. -/
theorem piece_readOne {opt close : List Token} (hAfter : Piece dangling after)
    (hRead : Arguments.readOne true 0 after = .ok (opt, close)) :
    Piece dangling opt ∧ opt.length ≤ after.length ∧ ∃ z more, close = z :: more ∧ z.is ")" = true ∧
        Piece dangling more ∧ more.length ≤ after.length := by
  obtain ⟨front, e, rfl, hEnds, hFront⟩ := hAfter.shape
  cases Arguments.uniform_readOne true 0 front with
  | failed cause t hScan =>
    rw [hScan e hEnds] at hRead
    cases hRead
  | ended cause hScan =>
    rw [hScan e hEnds] at hRead
    cases hRead
  | taken arg rest hScan hTaken =>
    rw [hScan e hEnds] at hRead
    cases hRead
    obtain ⟨seg, z, more, hXs, rfl, rfl, hClose⟩ := hTaken.stretch
    have hParen : z.is ")" = true := by simpa using hClose
    subst hXs
    have hSplit : seg ++ z :: more ++ [e] = seg ++ z :: (more ++ [e]) := by simp
    rw [hSplit] at hAfter
    refine ⟨⟨⟨seg, z.toEof, rfl, z.ends_toEof, ?_⟩, ?_⟩,
      by simp, z, more ++ [e], rfl, hParen, ?_, ?_⟩
    · exact fun t ht => hFront t (by simp [ht])
    · exact fun hDangles => hAfter.dangle (hDangles.of_stretch hParen)
    · refine hAfter.of_suffix hEnds rfl (fun t ht => hFront t (by simp [ht])) ?_
      exact ⟨seg ++ [z], by simp⟩
    · simp only [List.length_append, List.length_cons]
      omega

/- A part of a body that depends on further arguments. -/
theorem agree_optional (hPaired : Paired dangling ms x y L)
    (hGo : Continues dangling ms x y L fuel) (hState : s.macros = ms) (hAlong : Along L p q)
    (hAfter : Piece dangling after) (hLess : after.length < fuel) :
    Agree dangling s (fun n => do
        let (opt, close) ←
          Pre.ofScan (Arguments.readOne true 0 after)
        let r ←
          if p.hasRest = true then do
            let inner ← subst (x n) fuel { args := p.args } opt
            pure { p with
              done := p.done ++ inner.done
              args := inner.args }
          else pure p
        subst (x n) fuel r (← Pre.ofScan (Arguments.skip ")" close)))
      (fun n => do
        let (opt, close) ←
          Pre.ofScan (Arguments.readOne true 0 after)
        let r ←
          if q.hasRest = true then do
            let inner ← subst (y n) fuel { args := q.args } opt
            pure { q with
              done := q.done ++ inner.done
              args := inner.args }
          else pure q
        subst (y n) fuel r (← Pre.ofScan (Arguments.skip ")" close)))
      (Along L) := by
  rw [← hAlong.hasRest hPaired.front]
  refine (agree_ofScan _).bind fun r r' s₁ hMacros hScan => ?_
  obtain ⟨rfl, hRead⟩ := hScan
  obtain ⟨opt, close⟩ := r
  obtain ⟨hOpt, hOptLess, z, more, rfl, hClose, hMore, hMoreLess⟩ := piece_readOne hAfter hRead
  have hSkip : Arguments.skip ")" (z :: more) = .ok more := by simp [Arguments.skip, hClose]
  have hTail : ∀ (s₂ : Session) (p' q' : Substitution.Progress),
      s₂.macros = s₁.macros → Along L p' q' → Agree dangling s₂ (fun n => do
            let rest ←
              Pre.ofScan (Arguments.skip ")" (z :: more))
            subst (x n) fuel p' rest)
          (fun n => do
            let rest ←
              Pre.ofScan (Arguments.skip ")" (z :: more))
            subst (y n) fuel q' rest)
          (Along L) := by
    intro s₂ p' q' hSame hBoth
    rw [hSkip]
    exact hGo s₂ more p' q' hMore (by omega) (hSame.trans (hMacros.trans hState)) hBoth
  by_cases hGiven : p.hasRest = true
  · simp only [hGiven, if_true]
    have hInner := hGo s₁ opt { args := p.args } { args := q.args } hOpt (by omega)
      (hMacros.trans hState)
      ⟨rfl, by simp [Flat], hAlong.args⟩
    refine hInner.bind fun p' q' s₂ hSame hBoth => ?_
    refine hTail s₂ _ _ hSame ⟨by
      simp [hAlong.done, hBoth.done], ?_, hBoth.args⟩
    intro u hu
    simp only [Array.toList_append, List.mem_append] at hu
    rcases hu with hOld | hNew
    · exact hAlong.flat u hOld
    · exact hBoth.flat u hNew
  · simp only [hGiven]
    exact hTail s₁ p q rfl hAlong

/-
  A comma before a double hash and further arguments: it is
  dropped if there are none.
-/
theorem agree_comma (hPaired : Paired dangling ms x y L) (hGo : Continues dangling ms x y L fuel)
    (hState : s.macros = ms) (hAlong : Along L p q) (hPlain : t.Plain)
    (hRest : Piece dangling rest) (hLess : rest.length < fuel)
    (hPaste : (rest.headD default).is "##" = true)
    (hArg : p.arg? (rest.tail.headD default) = some a) (hAlike : ArgAlike L a b) :
    Agree dangling s (fun n =>
        if a.isEmpty = true then
          subst (x n) fuel p rest.tail.tail
        else subst (x n) fuel (p.push t) rest.tail)
      (fun n =>
        if b.isEmpty = true then
          subst (y n) fuel q rest.tail.tail
        else subst (y n) fuel (q.push t) rest.tail)
      (Along L) := by
  rw [← isEmpty_eq (hPaired.front _ _ hAlike.toks)]
  rcases hRest.cases with
    ⟨e, rfl, hEnds⟩ | ⟨next, after, rfl, -, hAfter⟩
  · simp [hEnds.is_eq_false (s := "##") (by decide)] at hPaste
  rcases hAfter.cases with
    ⟨e, rfl, hEnds⟩ | ⟨u, more, rfl, -, hMore⟩
  · simp [arg?_ends p hEnds] at hArg
  simp only [List.length_cons] at hLess
  by_cases hEmpty : a.isEmpty = true
  · simp only [hEmpty, if_true]
    exact hGo s more p q hMore (by omega) hState hAlong
  · simp only [hEmpty]
    exact hGo s (u :: more) _ _ hAfter (by simp only [List.length_cons]; omega) hState
      (hAlong.push hPlain)

/- A token that is no operator. -/
theorem agree_word (hPaired : Paired dangling ms x y L) (hGo : Continues dangling ms x y L fuel)
    (hState : s.macros = ms) (hAlong : Along L p q) (hPiece : Piece dangling (t :: rest))
    (hRest : Piece dangling rest) (hPlain : t.Plain) (hLess : rest.length < fuel) :
    Agree dangling s (fun n =>
        match (p.arg? t).filter
          (fun _ => (rest.headD default).is "##") with
        | some a =>
          if a.isEmpty = true then
            subst (x n) fuel (afterEmpty p (rest.tail.headD default)) rest.tail.tail
          else subst (x n) fuel (p.append a.toks) rest
        | none =>
          if (t.is "__VA_OPT__" &&
              (rest.headD default).is "(") = true then do
            let (opt, close) ←
              Pre.ofScan (Arguments.readOne true 0 rest.tail)
            let r ←
              if p.hasRest = true then do
                let inner ←
                  subst (x n) fuel { args := p.args } opt
                pure { p with
                  done := p.done ++ inner.done
                  args := inner.args }
              else pure p
            subst (x n) fuel r (← Pre.ofScan (Arguments.skip ")" close))
          else
            match p.arg? t with
            | some a => do
              let r ← expandArg (x n) p t a
              subst (x n) fuel r rest
            | none => subst (x n) fuel (p.push t) rest)
      (fun n =>
        match (q.arg? t).filter
          (fun _ => (rest.headD default).is "##") with
        | some a =>
          if a.isEmpty = true then
            subst (y n) fuel (afterEmpty q (rest.tail.headD default)) rest.tail.tail
          else subst (y n) fuel (q.append a.toks) rest
        | none =>
          if (t.is "__VA_OPT__" &&
              (rest.headD default).is "(") = true then do
            let (opt, close) ←
              Pre.ofScan (Arguments.readOne true 0 rest.tail)
            let r ←
              if q.hasRest = true then do
                let inner ←
                  subst (y n) fuel { args := q.args } opt
                pure { q with
                  done := q.done ++ inner.done
                  args := inner.args }
              else pure q
            subst (y n) fuel r (← Pre.ofScan (Arguments.skip ")" close))
          else
            match q.arg? t with
            | some a => do
              let r ← expandArg (y n) q t a
              subst (y n) fuel r rest
            | none => subst (y n) fuel (q.push t) rest)
      (Along L) := by
  rcases (hAlong.arg? t).filter (f := fun _ => (rest.headD default).is "##") fun _ _ _ => rfl with
    ⟨hp, hq⟩ | ⟨a, b, hp, hq, hAlike⟩
  · simp only [hp, hq]
    by_cases hOpt : (t.is "__VA_OPT__" && (rest.headD default).is "(") = true
    · simp only [hOpt, if_true]
      rcases hRest.cases with
        ⟨e, rfl, hEnds⟩ | ⟨next, after, rfl, -, hAfter⟩
      · simp [hEnds.is_eq_false (s := "(") (by decide)] at hOpt
      · refine agree_optional hPaired hGo hState hAlong hAfter ?_
        simp only [List.length_cons, List.tail_cons] at hLess ⊢
        omega
    · simp only [hOpt, Bool.false_eq_true, if_false]
      rcases hAlong.arg? t with
        ⟨hp, hq⟩ | ⟨a, b, hp, hq, hAlike⟩
      · simp only [hp, hq]
        exact hGo s rest _ _ hRest hLess hState (hAlong.push hPlain)
      · simp only [hp, hq]
        refine (agree_expandArg hPaired hState hAlong
          hPlain.atLineStart hAlike).bind fun p' q' s' hMacros hBoth => ?_
        exact hGo s' rest p' q' hRest hLess (hMacros.trans hState) hBoth
  · simp only [hp, hq]
    rw [Option.filter_eq_some_iff] at hp
    exact agree_beforePaste hPaired hGo hState hAlong hPiece
      hRest hLess (name_of_arg? hp.1) hp.2 hAlike

end Branches

theorem continues_succ (hPaired : Paired dangling ms x y L) {fuel : Nat}
    (hGo : Continues dangling ms x y L fuel) : Continues dangling ms x y L (fuel + 1) := by
  intro s ts p q hPiece hLength hState hAlong
  rcases hPiece.cases with
    ⟨e, rfl, hEnds⟩ | ⟨t, rest, rfl, hPlain, hRest⟩
  · simp only [subst, hEnds.isEof, if_true]
    exact agree_pure hAlong
  have hLess : rest.length < fuel := by
    simp only [List.length_cons] at hLength
    omega
  simp only [subst, hPlain.isEof, Bool.false_eq_true, if_false]
  by_cases hHash : t.is "#" = true
  · simp only [hHash, if_true]
    exact agree_hash hPaired hGo hState hAlong hRest hLess
  simp only [hHash, Bool.false_eq_true, if_false]
  have hFurther : Matching L (Option.filter (fun a => a.isRest)
        (if (t.is "," && (rest.headD default).is "##") = true
          then p.arg? (rest.tail.headD default) else none))
      (Option.filter (fun a => a.isRest) (if (t.is "," && (rest.headD default).is "##") = true
          then q.arg? (rest.tail.headD default)
          else none)) := by
    refine Matching.filter ?_ fun a b hAlike => hAlike.isRest
    split
    · exact hAlong.arg? _
    · exact .inl ⟨rfl, rfl⟩
  rcases hFurther with ⟨hp, hq⟩ | ⟨a, b, hp, hq, hAlike⟩
  · simp only [hp, hq]
    by_cases hPaste : t.is "##" = true
    · simp only [hPaste, if_true]
      exact agree_doubleHash hPaired hGo hState hAlong hRest hLess
    simp only [hPaste, Bool.false_eq_true, if_false]
    exact agree_word hPaired hGo hState hAlong hPiece hRest hPlain hLess
  · simp only [hp, hq]
    rw [Option.filter_eq_some_iff] at hp
    obtain ⟨hArg, -⟩ := hp
    split at hArg
    · rename_i hBoth
      exact agree_comma hPaired hGo hState hAlong hPlain hRest
        hLess (Bool.and_eq_true_iff.mp hBoth).2 hArg hAlike
    · cases hArg

theorem agree_subst (hPaired : Paired dangling ms x y L) (fuel : Nat) :
    Continues dangling ms x y L fuel := by
  induction fuel with
  | zero => exact fun _ ts _ _ _ hLength => by omega
  | succ fuel ih => exact continues_succ hPaired ih

end Expansion

end CCompiler
