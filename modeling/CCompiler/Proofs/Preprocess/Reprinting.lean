import Mathlib
import CCompiler.CommandLine.Options
import CCompiler.Preprocess.Output
import CCompiler.Proofs.Preprocess.Lasting
import CCompiler.Proofs.Token.Fusing

/-
  Preprocessed text that is read again.

  What preprocessing gives is printed with the gaps that its
  tokens had where they came from.  Every token is still read
  from a line of its own, so the text means the same tokens as
  long as no two that are printed right behind one another
  fuse.  Nothing keeps them from fusing: tokens of a macro may
  come to stand side by side that never did in a text.

  Main declarations:
    * `Token.Genuine`, `Session.Sound`
    * `Token.content`, `Output.pieces`
    * `StringRun.joinAll_spec`
    * `Preprocessor.run_reprinted`
    * `Preprocessor.process_reprinted`
-/

------------
-- Genuine Tokens
------------

namespace CCompiler

/- A token that is read by itself and was not merged, or an end. -/
def Token.Genuine (cfg : Config) (t : Token) : Prop :=
  t.isEof = true ∨ Lexer.Alone cfg t ∧ t.joined = []

theorem Token.lasting_genuine (cfg : Config) : Token.Lasting cfg (Genuine cfg) where
  read := by
    intro f name ts hTokens t ht
    have hReads := Lexer.lexFile_reads cfg f name
    have hOk : (Lexer.lexFile cfg f name).result = .ok ts := by
      simp only [Lexer.tokenize] at hTokens
      cases hResult : (Lexer.lexFile cfg f name).result with
      | error e => rw [hResult] at hTokens; cases hTokens
      | ok us => rw [hResult] at hTokens; cases hTokens; rfl
    obtain ⟨body, eof, rfl, hEof, hBody, hStand, -⟩ := hReads.stand hOk
    rcases List.mem_append.mp ht with hIn | hEnd
    · exact .inr ⟨hStand.alone t hIn, (hBody t hIn).2⟩
    · rw [List.mem_singleton.mp hEnd]
      exact .inl hEof
  moved := by
    rintro t u hKind hText hJoined (hEof | ⟨hAlone, hPlain⟩)
    · exact .inl (by simpa [isEof, hKind] using hEof)
    · refine .inr ⟨⟨?_, ?_, ?_⟩, hJoined.trans hPlain⟩
      · rw [hText]
        exact hAlone.some
      · rw [hText]
        exact hAlone.bare
      · rw [hText, hKind]
        exact hAlone.read
  ended := fun _ => .inl rfl

/- A session in which the bodies of macros are tokens that were read. -/
def Session.Sound (s : Session) : Prop :=
  s.Holds s.cfg (Token.Genuine s.cfg)

variable {n : Nat}

namespace Expansion

/- Ends of lists are not among what is done, and one comes last. -/
def Ended : Sum Progress Expanded → Prop
| .inl p => ∀ t ∈ p.done, t.isEof = false
| .inr e => (∀ t ∈ e.done, t.isEof = false) ∧ e.eof.isEof = true

theorem Progress.goOn_done (p : Progress) (new rest : List Token) :
    (p.goOn new rest).done = p.done := by
  unfold goOn
  split <;> rfl

variable {expand : Expand} {p : Progress} {s s' : Session}

/- The end of a list is where expanding it stops. -/
theorem step_ends {next : Sum Progress Expanded} (hDone : ∀ t ∈ p.done, t.isEof = false)
    (hRun : step expand p s = .ok next s') : Ended next := by
  have hGoOn : ∀ new rest, ∀ t ∈ (p.goOn new rest).done, t.isEof = false := by
    intro new rest
    rwa [Progress.goOn_done]
  unfold step at hRun
  cases hList : p.toks with
  | nil =>
    rw [hList] at hRun
    cases hRun
  | cons t rest =>
    rw [hList] at hRun
    by_cases hEof : t.isEof = true
    · simp only [if_pos hEof] at hRun
      cases hRun
      exact ⟨by simpa using hDone, hEof⟩
    simp only [if_neg hEof] at hRun
    obtain ⟨found?, s₁, -, hRun⟩ := bind_split hRun
    cases found? with
    | some u =>
      obtain ⟨new, s₂, -, hRun⟩ := bind_split hRun
      cases hRun
      exact hGoOn new u.rest
    | none =>
      simp only at hRun
      split at hRun
      · obtain ⟨r, s₂, -, hRun⟩ := bind_split hRun
        cases hRun
        exact hGoOn r.inserted r.rest
      · obtain ⟨shown, s₂, -, hRun⟩ := bind_split hRun
        cases hRun
        intro u hu
        rcases Array.mem_push.mp hu with hOld | rfl
        · exact hDone u hOld
        · exact Bool.eq_false_iff.mpr hEof

variable {e : Expanded}

theorem repeatStep_ends (hDone : ∀ t ∈ p.done, t.isEof = false)
    (hRun : repeatStep (step expand) n p s = .ok e s') : Ended (.inr e) := by
  induction n generalizing p s with
  | zero => cases hRun
  | succ n ih =>
    obtain ⟨next, s₁, hStep, hRest⟩ := bind_split hRun
    have hEnded := step_ends hDone hStep
    cases next with
    | inl q => exact ih hEnded hRest
    | inr e =>
      cases hRest
      exact hEnded

theorem expandAll_ends {ts : List Token} (hRun : expandAll n ts s = .ok e s') :
    (∀ t ∈ e.done, t.isEof = false) ∧ e.eof.isEof = true := by
  cases n with
  | zero => cases hRun
  | succ n => exact repeatStep_ends (by simp) hRun

end Expansion

------------
-- Contents
------------

namespace Token

/-
  What a token says: its kind with the value of a literal, its
  spelling, and those of the literals merged into it.  The end
  of a list has none.
-/
def content (t : Token) : TokenKind × Bytes × List Bytes :=
  (t.kind, if t.isEof then ([], [])
    else (t.text, t.joined.map Spelling.text))

/- Tokens that say the same. -/
def Alike (ts us : List Token) : Prop :=
  ts.map content = us.map content

variable {t u v : Token} {ts us vs ws : List Token}

theorem kind_of_content (hSame : t.content = u.content) : t.kind = u.kind := congrArg Prod.fst hSame

theorem isEof_of_content (hSame : t.content = u.content) : t.isEof = u.isEof := by
  unfold isEof
  rw [kind_of_content hSame]

theorem spelling_of_content (hSame : t.content = u.content) (hMore : t.isEof = false) :
    t.text = u.text ∧ t.joined.map Spelling.text = u.joined.map Spelling.text := by
  have hSpelling := congrArg Prod.snd hSame
  have hMore' := hMore
  rw [isEof_of_content hSame] at hMore'
  simpa [content, hMore, hMore'] using hSpelling

theorem content_eq (hKind : t.kind = u.kind)
    (hSpelling : t.isEof = false → t.text = u.text ∧
      t.joined.map Spelling.text = u.joined.map Spelling.text) : t.content = u.content := by
  have hEof : t.isEof = u.isEof := by
    unfold isEof
    rw [hKind]
  unfold content
  rw [hKind, ← hEof]
  cases hMore : t.isEof with
  | true => rfl
  | false =>
    obtain ⟨hText, hJoined⟩ := hSpelling hMore
    rw [hText, hJoined]

theorem alike_nil : Alike [] us ↔ us = [] := by simp [Alike, eq_comm]

theorem alike_cons :
    Alike (t :: ts) us ↔ ∃ u us', us = u :: us' ∧ t.content = u.content ∧ Alike ts us' := by
  cases us with
  | nil => simp [Alike]
  | cons u us => simp [Alike]

theorem Alike.append (hFirst : Alike ts us) (hSecond : Alike vs ws) :
    Alike (ts ++ vs) (us ++ ws) := by
  unfold Alike at *
  rw [List.map_append, List.map_append, hFirst, hSecond]

/- Spellings are alike up to the end of a list. -/
theorem Alike.texts (hAlike : Alike ts us) (hMore : ∀ t ∈ ts, t.isEof = false) :
    ts.map text = us.map text := by
  induction ts generalizing us with
  | nil =>
    cases alike_nil.mp hAlike
    rfl
  | cons t ts ih =>
    obtain ⟨u, us, rfl, hHead, hTail⟩ := alike_cons.mp hAlike
    rw [List.forall_mem_cons] at hMore
    rw [List.map_cons, List.map_cons, ih hTail hMore.2, (spelling_of_content hHead hMore.1).1]

theorem Alike.more (hAlike : Alike ts us) (hMore : ∀ t ∈ ts, t.isEof = false) :
    ∀ u ∈ us, u.isEof = false := by
  intro u hu
  have hContent := List.mem_map_of_mem (f := content) hu
  rw [← hAlike] at hContent
  obtain ⟨t, ht, hSame⟩ := List.mem_map.mp hContent
  rw [← isEof_of_content hSame]
  exact hMore t ht

theorem Alike.reverse (hAlike : Alike ts us) : Alike ts.reverse us.reverse := by
  unfold Alike at *
  rw [List.map_reverse, List.map_reverse, hAlike]

/- Conversion asks for the kind and the spelling. -/
theorem convert?_alike (hSame : t.content = u.content) (hConvert : t.convert? = some v) :
    ∃ w, u.convert? = some w ∧ v.content = w.content := by
  have hKind := kind_of_content hSame
  cases hEnd : t.isEof with
  | true =>
    have hKind' : t.kind = .eof := by simpa [isEof] using hEnd
    rw [convert?, hKind'] at hConvert
    cases hConvert
    refine ⟨u, ?_, hSame⟩
    rw [convert?, ← hKind, hKind']
  | false =>
    obtain ⟨hText, hJoined⟩ := spelling_of_content hSame hEnd
    unfold convert? at hConvert ⊢
    rw [← hKind, ← hText]
    split at hConvert
    · cases hConvert
      refine ⟨_, rfl, ?_⟩
      split
      · exact content_eq rfl fun _ => ⟨rfl, hJoined⟩
      · exact hSame
    · split at hConvert
      · cases hConvert
        exact ⟨_, rfl, content_eq rfl fun _ => ⟨rfl, hJoined⟩⟩
      · split at hConvert
        · cases hConvert
          exact ⟨_, rfl, content_eq rfl fun _ => ⟨rfl, hJoined⟩⟩
        · cases hConvert
    · cases hConvert
      exact ⟨u, rfl, hSame⟩

/- The first token of a list is converted before the others. -/
theorem convert_cons :
    convert (t :: ts) = .ok vs ↔ ∃ v vs', t.convert? = some v ∧ convert ts = .ok vs' ∧
        vs = v :: vs' := by
  unfold convert
  rw [List.mapM_cons]
  cases t.convert? with
  | none =>
    constructor
    · intro hOk
      cases hOk
    · rintro ⟨v, vs', hNone, -⟩
      cases hNone
  | some v =>
    constructor
    · intro hOk
      obtain ⟨w, hFirst, hOk⟩ := exists_of_bind_ok hOk
      obtain ⟨vs', hRest, hOk⟩ := exists_of_bind_ok hOk
      cases hFirst
      cases hOk
      exact ⟨v, vs', rfl, hRest, rfl⟩
    · rintro ⟨w, vs', hSome, hRest, rfl⟩
      cases hSome
      rw [hRest]
      rfl

theorem convert_alike (hSame : Alike ts us) (hConvert : convert ts = .ok vs) :
    ∃ ws, convert us = .ok ws ∧ Alike vs ws := by
  induction ts generalizing us vs with
  | nil =>
    cases alike_nil.mp hSame
    cases hConvert
    exact ⟨[], rfl, rfl⟩
  | cons t ts ih =>
    obtain ⟨u, us, rfl, hFirst, hRest⟩ := alike_cons.mp hSame
    obtain ⟨v, vs, hV, hVs, rfl⟩ := convert_cons.mp hConvert
    obtain ⟨w, hW, hContent⟩ := convert?_alike hFirst hV
    obtain ⟨ws, hWs, hAlike⟩ := ih hRest hVs
    exact ⟨w :: ws, convert_cons.mpr ⟨w, ws, hW, hWs, rfl⟩,
      alike_cons.mpr ⟨w, ws, rfl, hContent, hAlike⟩⟩

end Token

------------
-- Printed Spellings
------------

namespace Output

open Lexer (spelled)

variable {t u : Token} {ts us : List Token}

/- What is printed of a token: the literals merged into it one by one. -/
def piecesOf (t : Token) : List Spelling :=
  match t.joined with
  | [] => [spelled t]
  | s :: more => ⟨s.text, t.atLineStart, t.spaced⟩ :: more

/- What is printed of a list, up to its end. -/
def pieces : List Token → List Spelling
| [] => []
| t :: ts => if t.isEof then [] else piecesOf t ++ pieces ts

/- The blank before a spelling that is not the first. -/
def gapBefore (s : Spelling) : Bytes :=
  if s.atLineStart then [Bytes.of '\n']
  else if s.spaced then [Bytes.of ' ']
  else []

/- Spellings as they are printed. -/
def laid : List Spelling → Bytes
| [] => ascii "\n"
| s :: more =>
  (if s.atLineStart then [] else gapBefore s) ++ s.text ++
    (more.flatMap fun s => gapBefore s ++ s.text) ++ ascii "\n"

theorem piecesOf_cons (t : Token) :
    ∃ s more, piecesOf t = s :: more ∧ gap false t = gapBefore s ∧
      gap true t = (if s.atLineStart then [] else gapBefore s) ∧
      spelling t = s.text ++ more.flatMap fun s => gapBefore s ++ s.text := by
  have hFirst : ∀ text : Bytes, gap false t = gapBefore ⟨text, t.atLineStart, t.spaced⟩ ∧
      gap true t = (if t.atLineStart then []
        else gapBefore ⟨text, t.atLineStart, t.spaced⟩) := by
    intro text
    unfold gap gapBefore
    cases t.atLineStart <;> exact ⟨rfl, rfl⟩
  unfold piecesOf spelling
  cases t.joined with
  | nil => exact ⟨_, [], rfl, (hFirst _).1, (hFirst _).2, (List.append_nil _).symm⟩
  | cons s more =>
    refine ⟨_, more, rfl, (hFirst _).1, (hFirst _).2, ?_⟩
    simp only
    congr 1
    apply List.flatMap_congr
    intro u _
    unfold gapBefore
    split
    · rfl
    split <;> rfl

/- What is printed is decided by the spellings alone. -/
theorem source_eq_laid (ts : List Token) : source ts = laid (pieces ts) := by
  have hRest : ∀ us : List Token, ((us.takeWhile (!·.isEof)).flatMap fun t =>
        gap false t ++ spelling t) =
      (pieces us).flatMap fun s => gapBefore s ++ s.text := by
    intro us
    induction us with
    | nil => rfl
    | cons u us ih =>
      rw [pieces, List.takeWhile_cons]
      cases hEnd : u.isEof with
      | true => rfl
      | false =>
        obtain ⟨s, more, hPieces, hGap, -, hSpelling⟩ := piecesOf_cons u
        simp only [Bool.not_false, if_true, Bool.false_eq_true,
          if_false, List.flatMap_cons, List.flatMap_append,
          ih, hPieces, hGap, hSpelling, List.append_assoc]
  cases ts with
  | nil => rfl
  | cons t ts =>
    unfold source
    rw [pieces, List.takeWhile_cons]
    cases hEnd : t.isEof with
    | true => rfl
    | false =>
      obtain ⟨s, more, hPieces, -, hGap, hSpelling⟩ := piecesOf_cons t
      simp only [Bool.not_false, if_true, Bool.false_eq_true,
        if_false, hRest ts, hPieces, hGap, hSpelling,
        List.cons_append, laid, List.flatMap_append,
        List.append_assoc]

/- What of a token decides how it is printed. -/
def printedAs (t : Token) : Bool × List Spelling :=
  (t.isEof, piecesOf t)

theorem pieces_congr (hSame : ts.map printedAs = us.map printedAs) : pieces ts = pieces us := by
  induction ts generalizing us with
  | nil =>
    rw [List.map_nil, eq_comm, List.map_eq_nil_iff] at hSame
    rw [hSame]
  | cons t ts ih =>
    rcases us with - | ⟨u, us⟩
    · cases hSame
    simp only [List.map_cons, List.cons.injEq, printedAs, Prod.mk.injEq] at hSame
    rw [pieces, pieces, hSame.1.1, hSame.1.2, ih hSame.2]

theorem pieces_append (hMore : ∀ t ∈ ts, t.isEof = false) :
    pieces (ts ++ us) = ts.flatMap piecesOf ++ pieces us := by
  induction ts with
  | nil => rfl
  | cons t ts ih =>
    rw [List.forall_mem_cons] at hMore
    rw [List.cons_append, pieces, hMore.1, ih hMore.2, List.flatMap_cons, List.append_assoc]
    rfl

theorem flatMap_piecesOf (hPlain : ∀ t ∈ ts, t.joined = []) :
    ts.flatMap piecesOf = ts.map spelled := by
  rw [List.map_eq_flatMap]
  apply List.flatMap_congr
  intro t ht
  rw [piecesOf, hPlain t ht]

end Output

/- Conversion changes neither how tokens are printed nor any literal. -/
theorem Token.convert_printed {ts us : List Token} (hConvert : Token.convert ts = .ok us) :
    us.map Output.printedAs = ts.map Output.printedAs ∧ ∀ u ∈ us, u.kind.isStr = true → u ∈ ts := by
  have hOne : ∀ {t u : Token}, t.convert? = some u → Output.printedAs u = Output.printedAs t ∧
        (u.kind.isStr = true → u = t) := by
    intro t u hConvert
    unfold Token.convert? at hConvert
    split at hConvert
    · rename_i hKind
      cases hConvert
      split <;> simp [Output.printedAs, Output.piecesOf, Lexer.spelled,
          Token.isEof, hKind, TokenKind.isStr]
    · rename_i hKind
      split at hConvert
      · cases hConvert
        simp [Output.printedAs, Output.piecesOf, Lexer.spelled, Token.isEof, hKind, TokenKind.isStr]
      · split at hConvert
        · cases hConvert
          simp [Output.printedAs, Output.piecesOf, Lexer.spelled,
            Token.isEof, hKind, TokenKind.isStr]
        · cases hConvert
    · cases hConvert
      exact ⟨rfl, fun _ => rfl⟩
  induction ts generalizing us with
  | nil =>
    cases hConvert
    exact ⟨rfl, List.forall_mem_nil _⟩
  | cons t ts ih =>
    obtain ⟨v, vs, hV, hVs, rfl⟩ := Token.convert_cons.mp hConvert
    obtain ⟨hPrinted, hLiterals⟩ := ih hVs
    refine ⟨by rw [List.map_cons, List.map_cons, (hOne hV).1, hPrinted], fun u hu hStr => ?_⟩
    rcases List.mem_cons.mp hu with rfl | hRest
    · rw [(hOne hV).2 hStr]
      exact List.mem_cons_self
    · exact List.mem_cons_of_mem t (hLiterals u hRest hStr)

------------
-- Merged Literals
------------

namespace StringRun

open Pre
open Lexer (spelled)
open Token (Alike alike_nil alike_cons content_eq)
open Expansion (bind_split bind_ok)

variable {s s' r : Session} {t u m first : Token}
  {ts us vs others run : List Token} {l : LitType}

/- A literal whose elements are no single bytes is left as it is. -/
theorem widen_wide (hWide : (elementOf t).size ≠ 1) : widen l t s = .ok t s := by
  unfold widen
  rw [if_pos (bne_iff_ne.mpr hWide)]
  rfl

/- Any other one is read again. -/
theorem widen_ok (hNarrow : (elementOf t).size = 1) :
    widen l t s = .ok u s' ↔ s' = s ∧ ∃ bytes,
      Literal.decodeBody l (t.offset + (bodyOf t).1) (bodyOf t).2 =
        .ok bytes ∧ u = { t with kind := .str l bytes } := by
  rcases hParts : bodyOf t with ⟨start, body⟩
  unfold widen
  rw [if_neg (by simp [hNarrow])]
  cases hBody : Literal.decodeBody l (t.offset + start) body with
  | ok bytes =>
    simp only [hParts, hBody]
    constructor
    · intro hRun
      cases hRun
      exact ⟨rfl, bytes, rfl, rfl⟩
    · rintro ⟨rfl, _, hOk, rfl⟩
      cases hOk
      rfl
  | error e =>
    simp only [hParts, hBody]
    constructor
    · intro hRun
      cases hRun
    · rintro ⟨-, _, hOk, -⟩
      cases hOk

/- A literal that is read again is spelled as before. -/
theorem widen_spelled (hRun : widen l t s = .ok u s') : s' = s ∧ spelled u = spelled t := by
  by_cases hNarrow : (elementOf t).size = 1
  · obtain ⟨rfl, bytes, -, rfl⟩ := (widen_ok hNarrow).mp hRun
    exact ⟨rfl, rfl⟩
  · rw [widen_wide hNarrow] at hRun
    cases hRun
    exact ⟨rfl, rfl⟩

theorem exists_of_map_ok {ε α β : Type} {x : Except ε α} {f : α → β} {b : β}
    (hOk : x.map f = .ok b) : ∃ a, x = .ok a ∧ f a = b := by
  cases x with
  | error _ => cases hOk
  | ok a =>
    cases hOk
    exact ⟨a, rfl, rfl⟩

variable {k : Nat} {body : Bytes}

/- Where a body stands does not matter for what it decodes to. -/
theorem decodeElements_moved {out : Bytes} (hOk : Literal.decodeElements l n body = .ok out) :
    Literal.decodeElements l k body = .ok out := by
  induction hSize : body.length using Nat.strong_induction_on generalizing n k body out with
  | _ size ih =>
  subst hSize
  cases body with
  | nil =>
    unfold Literal.decodeElements at hOk ⊢
    exact hOk
  | cons b tail =>
    unfold Literal.decodeElements at hOk ⊢
    split at hOk
    · rename_i hEscape
      rw [if_pos hEscape]
      split at hOk
      · cases hOk
      · obtain ⟨rest, hRest, rfl⟩ := exists_of_map_ok hOk
        rw [ih _ (by
          simp only [List.length_drop, List.length_cons]
          omega) hRest rfl]
        rfl
    rename_i hEscape
    rw [if_neg hEscape]
    split at hOk
    · rename_i hByte
      rw [if_pos hByte]
      obtain ⟨rest, hRest, rfl⟩ := exists_of_map_ok hOk
      rw [ih _ (by simp) hRest rfl]
      rfl
    · rename_i hWide
      rw [if_neg hWide]
      split at hOk
      · cases hOk
      · rename_i c rest hDecode
        obtain ⟨more, hRest, rfl⟩ := exists_of_map_ok hOk
        rw [ih _ (Utf8.decode?_length_lt hDecode) hRest rfl]
        rfl

theorem decodeBody_moved {bytes : Bytes} (hOk : Literal.decodeBody l n body = .ok bytes) :
    Literal.decodeBody l k body = .ok bytes := by
  unfold Literal.decodeBody at hOk ⊢
  obtain ⟨out, hElements, rfl⟩ := exists_of_map_ok hOk
  rw [decodeElements_moved hElements]
  rfl

/- Only its kind and its spelling count when a literal is read again. -/
theorem widen_alike (hSame : t.content = u.content) (hMore : t.isEof = false)
    (hRun : widen l t s = .ok v s') : ∃ w, widen l u r = .ok w r ∧ v.content = w.content := by
  obtain ⟨hText, hJoined⟩ := Token.spelling_of_content hSame hMore
  have hElement : elementOf u = elementOf t := by
    unfold elementOf
    rw [Token.kind_of_content hSame]
  have hBody : bodyOf u = bodyOf t := by
    unfold bodyOf
    rw [hText]
  by_cases hNarrow : (elementOf t).size = 1
  · obtain ⟨rfl, bytes, hOk, rfl⟩ := (widen_ok hNarrow).mp hRun
    refine ⟨{ u with kind := .str l bytes }, ?_, content_eq rfl fun _ => ⟨hText, hJoined⟩⟩
    rw [widen_ok (by rw [hElement, hNarrow]), hBody]
    exact ⟨rfl, bytes, decodeBody_moved hOk, rfl⟩
  · rw [widen_wide hNarrow] at hRun
    cases hRun
    exact ⟨u, widen_wide (by rwa [hElement]), hSame⟩

/- Literals are read again one after the other. -/
theorem mapM_widen (hRun : ts.mapM (widen l) s = .ok us s') (hMore : ∀ t ∈ ts, t.isEof = false) :
    s' = s ∧ us.map spelled = ts.map spelled ∧ ∀ vs, Alike ts vs → ∀ r : Session, ∃ ws,
        vs.mapM (widen l) r = .ok ws r ∧ Alike us ws := by
  induction ts generalizing us s with
  | nil =>
    cases hRun
    refine ⟨rfl, rfl, fun vs hSame r => ?_⟩
    cases alike_nil.mp hSame
    exact ⟨[], rfl, rfl⟩
  | cons t ts ih =>
    rw [List.mapM_cons] at hRun
    obtain ⟨u, s₁, hFirst, hRun⟩ := bind_split hRun
    obtain ⟨us, s₂, hRest, hRun⟩ := bind_split hRun
    cases hRun
    rw [List.forall_mem_cons] at hMore
    obtain ⟨rfl, hSpelled⟩ := widen_spelled hFirst
    obtain ⟨rfl, hSpelledRest, hAlike⟩ := ih hRest hMore.2
    refine ⟨rfl, by simp [hSpelled, hSpelledRest], fun vs hSame r => ?_⟩
    obtain ⟨v, vs, rfl, hHead, hTail⟩ := alike_cons.mp hSame
    obtain ⟨w, hW, hContent⟩ := widen_alike hHead hMore.1 hFirst
    obtain ⟨ws, hWs, hAlike⟩ := hAlike vs hTail r
    refine ⟨w :: ws, ?_, alike_cons.mpr ⟨w, ws, rfl, hContent, hAlike⟩⟩
    rw [List.mapM_cons, bind_ok hW, bind_ok hWs]
    rfl

/- The element type of a run is decided by what its literals say. -/
theorem elementType_alike {e : Encoding} {k : LitType} (hSame : Alike ts us)
    (hMore : ∀ t ∈ ts, t.isEof = false) (hOk : elementType e l ts = .ok k) :
    elementType e l us = .ok k := by
  induction ts generalizing us e l with
  | nil =>
    cases alike_nil.mp hSame
    exact hOk
  | cons t ts ih =>
    obtain ⟨u, us, rfl, hHead, hTail⟩ := alike_cons.mp hSame
    rw [List.forall_mem_cons] at hMore
    have hText := (Token.spelling_of_content hHead hMore.1).1
    have hEncoding : encoding u = encoding t := by
      unfold encoding
      rw [hText]
    have hElement : elementOf u = elementOf t := by
      unfold elementOf
      rw [Token.kind_of_content hHead]
    unfold elementType at hOk ⊢
    rw [hEncoding, hElement]
    simp only at hOk ⊢
    split at hOk
    · rename_i hPlain
      rw [if_pos hPlain]
      exact ih hTail hMore.2 hOk
    · rename_i hMarked
      rw [if_neg hMarked]
      split at hOk
      · cases hOk
      · rename_i hFits
        rw [if_neg hFits]
        exact ih hTail hMore.2 hOk

theorem contents_alike (size : Nat) (hSame : Alike ts us) :
    contents size ts = contents size us := by
  induction ts generalizing us with
  | nil =>
    cases alike_nil.mp hSame
    rfl
  | cons t ts ih =>
    obtain ⟨u, us, rfl, hHead, hTail⟩ := alike_cons.mp hSame
    have hRest := ih hTail
    unfold contents at hRest ⊢
    rw [List.flatMap_cons, List.flatMap_cons, hRest, Token.kind_of_content hHead]

/- The first literal of a run, with what those read for the run hold. -/
def mergedInto (first : Token) (ts : List Token) : Token :=
  let elem := elementOf (ts.headD first)
  { first with
    kind := .str elem
      (contents elem.size ts ++ List.replicate elem.size 0)
    joined := ts.map spelled }

/- The literals of a run, read again if their elements are wide. -/
def readFor (l : LitType) (ts : List Token) : Pre (List Token) :=
  if l.size > 1 then ts.mapM (widen l) else pure ts

theorem merge_eq :
    merge first others = (do
        let l ← ofScan (elementType (encoding first) (elementOf first) others)
        let ts ← readFor l (first :: others)
        return mergedInto first ts) := by
  unfold merge readFor
  refine bind_congr fun l => ?_
  split <;> rfl

theorem merge_eq_ok :
    merge first others s = .ok m s' ↔ ∃ l ts,
      elementType (encoding first) (elementOf first) others = .ok l ∧
      readFor l (first :: others) s = .ok ts s' ∧
      m = mergedInto first ts := by
  rw [merge_eq]
  constructor
  · intro hRun
    obtain ⟨l, s₁, hType, hRun⟩ := bind_split hRun
    obtain ⟨ts, s₂, hRead, hRun⟩ := bind_split hRun
    cases hRun
    cases hScan : elementType (encoding first) (elementOf first) others with
    | error e =>
      rw [hScan] at hType
      cases hType
    | ok l' =>
      rw [hScan] at hType
      cases hType
      exact ⟨l, ts, rfl, hRead, rfl⟩
  · rintro ⟨l, ts, hType, hRead, rfl⟩
    rw [hType, bind_ok (show ofScan (.ok l) s = .ok l s from rfl), bind_ok hRead]
    rfl

theorem readFor_spec (hRun : readFor l ts s = .ok us s') (hMore : ∀ t ∈ ts, t.isEof = false) :
    s' = s ∧ us.map spelled = ts.map spelled ∧ ∀ vs, Alike ts vs → ∀ r : Session, ∃ ws,
        readFor l vs r = .ok ws r ∧ Alike us ws := by
  by_cases hWide : l.size > 1
  · have hEq : ∀ vs, readFor l vs = vs.mapM (widen l) := fun vs => if_pos hWide
    rw [hEq] at hRun
    simp only [hEq]
    exact mapM_widen hRun hMore
  · have hEq : ∀ vs, readFor l vs = pure vs := fun vs => if_neg hWide
    rw [hEq] at hRun
    cases hRun
    exact ⟨rfl, rfl, fun vs hSame r => ⟨vs, by rw [hEq]; rfl, hSame⟩⟩

/- A run is spelled by its literals, and only what they say counts. -/
theorem merge_spec (hMore : ∀ t ∈ first :: others, t.isEof = false)
    (hRun : merge first others s = .ok m s') :
    s' = s ∧ m.isEof = false ∧ Output.piecesOf m = (first :: others).map spelled ∧
      ∀ f more, Alike (first :: others) (f :: more) → ∀ r : Session, ∃ w, merge f more r = .ok w r ∧
          m.content = w.content := by
  obtain ⟨l, ts, hType, hRead, rfl⟩ := merge_eq_ok.mp hRun
  obtain ⟨rfl, hSpelled, hAgain⟩ := readFor_spec hRead hMore
  refine ⟨rfl, rfl, ?_, fun f more hSame r => ?_⟩
  · unfold Output.piecesOf mergedInto
    rw [hSpelled]
    rfl
  · obtain ⟨ws, hReadAgain, hAlike⟩ := hAgain _ hSame r
    obtain ⟨_, _, hCons, hHead, hTail⟩ := alike_cons.mp hSame
    cases hCons
    rw [List.forall_mem_cons] at hMore
    have hText := (Token.spelling_of_content hHead hMore.1).1
    have hEncoding : encoding f = encoding first := by
      unfold encoding
      rw [hText]
    have hElement : elementOf f = elementOf first := by
      unfold elementOf
      rw [Token.kind_of_content hHead]
    refine ⟨_, merge_eq_ok.mpr ⟨l, ws, ?_, hReadAgain, rfl⟩, ?_⟩
    · rw [hEncoding, hElement]
      exact elementType_alike hTail hMore.2 hType
    · have hTexts := hSame.texts (List.forall_mem_cons.mpr hMore)
      have hSpelledAgain := (readFor_spec hReadAgain
        (hSame.more (List.forall_mem_cons.mpr hMore))).2.1
      have hFirst : elementOf (ws.headD f) = elementOf (ts.headD first) := by
        rcases ts with - | ⟨t, ts⟩
        · cases alike_nil.mp hAlike
          exact hElement
        · obtain ⟨w, ws, rfl, hKind, -⟩ := alike_cons.mp hAlike
          unfold elementOf
          rw [List.headD_cons, List.headD_cons, Token.kind_of_content hKind]
      refine content_eq ?_ fun _ => ⟨hText, ?_⟩
      · simp only [mergedInto, hFirst, contents_alike _ hAlike]
      · change (ts.map spelled).map Spelling.text = (ws.map spelled).map Spelling.text
        rw [hSpelled, hSpelledAgain, List.map_map, List.map_map]
        exact hTexts

/- A literal is no end of a list. -/
theorem isEof_of_isStr (hStr : t.kind.isStr = true) : t.isEof = false := by
  unfold Token.isEof
  cases hKind : t.kind <;> rw [hKind] at hStr <;> first | rfl | cases hStr

/- A run as it is passed on: a literal by itself stays as it is. -/
def mergeRun : List Token → Pre (List Token)
| [] => pure []
| [t] => pure [t]
| t :: u :: more => do return [← merge t (u :: more)]

variable {done : Array Token}

theorem joinFrom_str (hStr : t.kind.isStr = true) :
    joinFrom run done (t :: ts) = joinFrom (t :: run) done ts := by rw [joinFrom, if_pos hStr]

/- What is no literal ends a run. -/
theorem joinFrom_other (hOther : t.kind.isStr = false) :
    joinFrom run done (t :: ts) = (do
      let ms ← mergeRun run.reverse
      joinFrom [] ((done ++ ms.toArray).push t) ts) := by
  rw [joinFrom, if_neg (by rw [hOther]; exact Bool.false_ne_true)]
  rcases run.reverse with - | ⟨u, - | ⟨v, more⟩⟩
  · rfl
  · rfl
  · simp only [mergeRun, bind_assoc, pure_bind]
    rfl

theorem mergeRun_spec (hMore : ∀ t ∈ ts, t.isEof = false) (hPlain : ∀ t ∈ ts, t.joined = [])
    (hRun : mergeRun ts s = .ok us s') :
    s' = s ∧ (∀ u ∈ us, u.isEof = false) ∧ us.flatMap Output.piecesOf = ts.map spelled ∧
      ∀ vs, Alike ts vs → ∀ r : Session, ∃ ws, mergeRun vs r = .ok ws r ∧ Alike us ws := by
  match ts with
  | [] =>
    cases hRun
    refine ⟨rfl, List.forall_mem_nil _, rfl, fun vs hSame r => ?_⟩
    cases alike_nil.mp hSame
    exact ⟨[], rfl, rfl⟩
  | [t] =>
    cases hRun
    refine ⟨rfl, hMore, Output.flatMap_piecesOf hPlain, fun vs hSame r => ?_⟩
    obtain ⟨v, vs, rfl, hHead, hTail⟩ := alike_cons.mp hSame
    cases alike_nil.mp hTail
    exact ⟨[v], rfl, hSame⟩
  | t :: u :: more =>
    obtain ⟨m, s₁, hMerge, hRun⟩ := bind_split hRun
    cases hRun
    obtain ⟨rfl, hOpen, hPieces, hAgain⟩ := merge_spec hMore hMerge
    refine ⟨rfl, by simpa using hOpen, by simpa using hPieces, fun vs hSame r => ?_⟩
    obtain ⟨v, vs, rfl, hHead, hTail⟩ := alike_cons.mp hSame
    obtain ⟨w, vs, rfl, hNext, hTail⟩ := alike_cons.mp hTail
    obtain ⟨n, hMergeAgain, hContent⟩ := hAgain v (w :: vs) hSame r
    refine ⟨[n], ?_, alike_cons.mpr ⟨n, [], rfl, hContent, rfl⟩⟩
    exact bind_ok hMergeAgain

/-
  Merging changes nothing about how a list is printed, and
  gives lists that say the same for lists that do.
-/
theorem joinFrom_spec (hLiterals : ∀ t ∈ run, t.kind.isStr = true ∧ t.joined = [])
    (hPlain : ∀ t ∈ ts, t.kind.isStr = true → t.joined = [])
    (hRun : joinFrom run done ts s = .ok us s') :
    s' = s ∧ ∃ vs, us = done.toList ++ vs ∧ Output.pieces vs = Output.pieces (run.reverse ++ ts) ∧
      ∀ run' ts', Alike run run' → Alike ts ts' → ∀ (done' : Array Token) (r : Session), ∃ ws,
          joinFrom run' done' ts' r = .ok (done'.toList ++ ws) r ∧ Alike vs ws := by
  induction ts generalizing run done s with
  | nil =>
    cases hRun
    refine ⟨rfl, run.reverse, by simp, by rw [List.append_nil], ?_⟩
    intro run' ts' hRuns hSame done' r
    cases alike_nil.mp hSame
    exact ⟨run'.reverse, by simp [joinFrom]; rfl, hRuns.reverse⟩
  | cons t ts ih =>
    rw [List.forall_mem_cons] at hPlain
    cases hKind : t.kind.isStr with
    | true =>
      rw [joinFrom_str hKind] at hRun
      obtain ⟨hState, vs, hOut, hPieces, hAgain⟩ :=
        ih (List.forall_mem_cons.mpr ⟨⟨hKind, hPlain.1 hKind⟩, hLiterals⟩) hPlain.2 hRun
      refine ⟨hState, vs, hOut, by simpa using hPieces, ?_⟩
      intro run' ts' hRuns hSame done' r
      obtain ⟨t', ts', rfl, hHead, hTail⟩ := alike_cons.mp hSame
      rw [joinFrom_str (by rw [← Token.kind_of_content hHead, hKind])]
      exact hAgain _ _ (alike_cons.mpr ⟨t', run', rfl, hHead, hRuns⟩) hTail done' r
    | false =>
      rw [joinFrom_other hKind] at hRun
      obtain ⟨ms, s₁, hMerge, hRest⟩ := bind_split hRun
      have hOpen : ∀ u ∈ run.reverse, u.isEof = false :=
        fun u hu => isEof_of_isStr (hLiterals u (List.mem_reverse.mp hu)).1
      obtain ⟨rfl, hMore, hPrinted, hMergeAgain⟩ :=
        mergeRun_spec hOpen (fun u hu => (hLiterals u (List.mem_reverse.mp hu)).2) hMerge
      obtain ⟨hState, vs, rfl, hPieces, hAgain⟩ := ih (List.forall_mem_nil _) hPlain.2 hRest
      refine ⟨hState, ms ++ t :: vs, by simp, ?_, ?_⟩
      · rw [Output.pieces_append hMore, Output.pieces_append hOpen,
          hPrinted, Output.flatMap_piecesOf fun u hu => (hLiterals u (List.mem_reverse.mp hu)).2,
          Output.pieces, Output.pieces, hPieces]
        rfl
      · intro run' ts' hRuns hSame done' r
        obtain ⟨t', ts', rfl, hHead, hTail⟩ := alike_cons.mp hSame
        obtain ⟨ms', hMerged, hAlike⟩ := hMergeAgain _ hRuns.reverse r
        obtain ⟨ws, hJoined, hRest⟩ := hAgain [] ts' rfl hTail ((done' ++ ms'.toArray).push t') r
        refine ⟨ms' ++ t' :: ws, ?_, hAlike.append (alike_cons.mpr ⟨t', ws, rfl, hHead, hRest⟩)⟩
        rw [joinFrom_other (by
          rw [← Token.kind_of_content hHead, hKind]),
          bind_ok hMerged, hJoined]
        simp

/- Merging the literals of a list, as it is printed and as it is read. -/
theorem joinAll_spec (hPlain : ∀ t ∈ ts, t.kind.isStr = true → t.joined = [])
    (hRun : joinAll ts s = .ok us s') :
    s' = s ∧ Output.pieces us = Output.pieces ts ∧ ∀ vs, Alike ts vs → ∀ r : Session, ∃ ws,
        joinAll vs r = .ok ws r ∧ Alike us ws := by
  obtain ⟨hState, vs, rfl, hPieces, hAgain⟩ := joinFrom_spec (List.forall_mem_nil _) hPlain hRun
  refine ⟨hState, hPieces, fun vs' hSame r => ?_⟩
  exact hAgain [] vs' rfl hSame #[] r

end StringRun

------------
-- Reading Again
------------

namespace Preprocessor

open Pre Expansion
open Token (Alike)

variable {s s' r : Session} {ts us : List Token} {f : SourceFile}

/- The tokens of a text that is not preprocessed. -/
def reread (f : SourceFile) (shownName : Bytes) :
    Pre (List Token) := do
  StringRun.joinAll (← convert (← tokenize f shownName))

theorem reread_ok {vs : List Token} {shownName : Bytes} {P : List Token → Prop}
    (hRead : (Lexer.tokenize r.cfg f shownName).tokens = .ok us)
    (hConvert : Token.convert us = .ok vs)
    (hJoin : ∀ r : Session, ∃ ws,
      StringRun.joinAll vs r = .ok ws r ∧ P ws) :
    ∃ ws r', reread f shownName r = .ok ws r' ∧ P ws := by
  have hSay : ∀ m, ∃ r', say m r = .ok () r' := by
    intro m
    unfold say
    split
    · exact ⟨r, rfl⟩
    · exact ⟨_, rfl⟩
  obtain ⟨r', hSaid⟩ := hSay (.warning (Lexer.tokenize r.cfg f shownName).notices)
  have hTokens : tokenize f shownName r = .ok us r' := by
    unfold tokenize
    rw [bind_ok (show (get : Pre Session) r = .ok r r from rfl), bind_ok hSaid, hRead]
    rfl
  have hConverted : convert us r' = .ok vs r' := by
    unfold convert
    rw [hConvert]
    rfl
  obtain ⟨ws, hJoined, hPost⟩ := hJoin r'
  refine ⟨ws, r', ?_, hPost⟩
  unfold reread
  rw [bind_ok hTokens, bind_ok hConverted]
  exact hJoined

/- The tokens read from what is printed of a list of genuine ones. -/
theorem source_alike {cfg : Config} {body : List Token} {eof : Token}
    (hBody : ∀ t ∈ body, t.isEof = false ∧ t.Genuine cfg) (hEof : eof.isEof = true)
    (hApart : Lexer.unfused cfg (Output.pieces (body ++ [eof])) = true)
    (hContents : f.contents = Output.source (body ++ [eof])) (shownName : Bytes) :
    ∃ us, (Lexer.tokenize cfg f shownName).tokens = .ok us ∧ Alike (body ++ [eof]) us := by
  have hAlone : ∀ t ∈ body, Lexer.Alone cfg t ∧ t.joined = [] := by
    intro t ht
    obtain ⟨hMore, hEnd | hAlone⟩ := hBody t ht
    · rw [hMore] at hEnd
      cases hEnd
    · exact hAlone
  have hStand : Lexer.AllStand cfg body := by
    apply Lexer.allStand_of_unfused fun t ht => (hAlone t ht).1
    rw [Output.pieces_append fun t ht => (hBody t ht).1,
      Output.pieces, if_pos hEof, List.append_nil,
      Output.flatMap_piecesOf fun t ht => (hAlone t ht).2] at hApart
    exact hApart
  obtain ⟨us, end', hRead, hEnd, hMore, hSame⟩ :=
    Lexer.source_reads shownName (fun t ht => ⟨(hBody t ht).1, (hAlone t ht).2⟩)
      hEof hStand hContents
  refine ⟨us ++ [end'], hRead, ?_⟩
  have hPlain : ∀ u ∈ us, u.joined = [] := by
    intro u hu
    have hGenuine := (Token.lasting_genuine cfg).read f shownName _
      hRead u (List.mem_append_left _ hu)
    rcases hGenuine with hEnd | hAlone
    · rw [hMore u hu] at hEnd
      cases hEnd
    · exact hAlone.2
  have hCore : us.map (fun u => (u.kind, u.text)) = body.map fun t => (t.kind, t.text) := by
    have hPairs := congrArg (List.map fun c => (c.1, c.2.1)) hSame
    rw [List.map_map] at hPairs
    refine hPairs.trans ?_
    cases body with
    | nil => rfl
    | cons t body => simp [Token.core]
  have hContent : ∀ ts : List Token, (∀ t ∈ ts, t.isEof = false ∧ t.joined = []) →
      ts.map Token.content = (ts.map fun t => (t.kind, t.text)).map fun p => (p.1, p.2, []) := by
    intro ts hAll
    rw [List.map_map]
    apply List.map_congr_left
    intro t ht
    obtain ⟨hOpen, hNone⟩ := hAll t ht
    simp [Token.content, hOpen, hNone]
  refine Token.Alike.append ?_ (Token.alike_cons.mpr ⟨end', [], rfl, Token.content_eq ?_ ?_, rfl⟩)
  · unfold Alike
    rw [hContent body fun t ht => ⟨(hBody t ht).1, (hAlone t ht).2⟩,
      hContent us fun u hu => ⟨hMore u hu, hPlain u hu⟩, hCore]
  · have hKind : ∀ t : Token, t.isEof = true → t.kind = .eof :=
      fun t hIs => by simpa [Token.isEof] using hIs
    rw [hKind eof hEof, hKind end' hEnd]
  · intro hOpen
    rw [hEof] at hOpen
    cases hOpen

/- Where tokens are shown is no part of what they say. -/
theorem alike_renumbered (ts : List Token) : Alike (ts.map renumbered) ts := by
  unfold Alike
  rw [List.map_map]
  rfl

/-
  What preprocessing gives is read again from its printed text,
  if no two spellings fuse in it.
-/
theorem run_reprinted (hSound : s.Sound) (hTokens : ∀ t ∈ ts, t.Genuine s.cfg)
    (hRun : run ts s = .ok us s') (hApart : Lexer.unfused s.cfg (Output.pieces us) = true)
    (hContents : f.contents = Output.source us) (shownName : Bytes) (hSettings : r.cfg = s.cfg) :
    ∃ vs r', reread f shownName r = .ok vs r' ∧ Alike us vs := by
  unfold run at hRun
  obtain ⟨e, s₁, hExpand, hRun⟩ := bind_split hRun
  obtain ⟨_, _, hGet, hRun⟩ := bind_split hRun
  cases hGet
  obtain ⟨-, hHas⟩ := yields_expandAll (Token.lasting_genuine s.cfg) enough ts hTokens s e s₁
    hSound hExpand
  obtain ⟨hMore, hEnd⟩ := expandAll_ends hExpand
  have hBody : ∀ t ∈ e.done, t.isEof = false ∧ t.Genuine s.cfg :=
    fun t ht => ⟨hMore t ht, hHas.done t ht⟩
  have hLiterals : ∀ t ∈ e.output, t.kind.isStr = true → t.joined = [] := by
    intro t ht hStr
    rcases List.mem_append.mp ht with hDone | hLast
    · obtain ⟨hOpen, hIs | hAlone⟩ := hBody t hDone
      · rw [hOpen] at hIs
        cases hIs
      · exact hAlone.2
    · rw [List.mem_singleton.mp hLast,] at hStr
      rw [StringRun.isEof_of_isStr hStr] at hEnd
      cases hEnd
  cases hConds : s₁.conds with
  | cons c cs =>
    rw [hConds] at hRun
    cases hRun
  | nil =>
    simp only [hConds] at hRun
    obtain ⟨converted, s₂, hConvert, hRun⟩ := bind_split hRun
    obtain ⟨joined, s₃, hJoin, hRun⟩ := bind_split hRun
    cases hRun
    have hConverted : Token.convert e.output = .ok converted := by
      unfold convert at hConvert
      cases hResult : Token.convert e.output with
      | error t =>
        rw [hResult] at hConvert
        cases hConvert
      | ok vs =>
        rw [hResult] at hConvert
        cases hConvert
        rfl
    obtain ⟨hPrinted, hKept⟩ := Token.convert_printed hConverted
    obtain ⟨-, hPieces, hAgain⟩ := StringRun.joinAll_spec
      (fun t ht hStr => hLiterals t (hKept t ht hStr) hStr) hJoin
    have hSame : Output.pieces (joined.map renumbered) = Output.pieces e.output := by
      calc Output.pieces (joined.map renumbered)
        _ = Output.pieces joined := Output.pieces_congr (by rw [List.map_map]; rfl)
        _ = Output.pieces converted := hPieces
        _ = Output.pieces e.output := Output.pieces_congr hPrinted
    rw [hSame] at hApart
    rw [Output.source_eq_laid, hSame, ← Output.source_eq_laid] at hContents
    obtain ⟨us, hRead, hAlike⟩ := source_alike hBody hEnd hApart hContents shownName
    obtain ⟨vs, hConvertAgain, hAlikeConverted⟩ := Token.convert_alike hAlike hConverted
    rw [← hSettings] at hRead
    refine reread_ok hRead hConvertAgain fun r => ?_
    obtain ⟨ws, hJoinAgain, hAlikeJoined⟩ := hAgain vs hAlikeConverted r
    exact ⟨ws, hJoinAgain, (alike_renumbered joined).trans hAlikeJoined⟩

------------
-- Whole Texts
------------

section Holding

variable {α β : Type} {cfg : Config} {P : Token → Prop}

/- A computation that keeps what holds even if it fails. -/
def Retains
    (cfg : Config)
    (P : Token → Prop)
    (x : Pre α)
    (Q : α → Prop) : Prop :=
  ∀ s : Session, s.Holds cfg P → match x s with
    | .ok a t => t.Holds cfg P ∧ Q a
    | .error _ t => t.Holds cfg P

theorem Retains.bind {x : Pre α} {f : α → Pre β} {Q : α → Prop} {R : β → Prop}
    (hFirst : Retains cfg P x Q) (hNext : ∀ a, Q a → Retains cfg P (f a) R) :
    Retains cfg P (x >>= f) R := by
  intro s hHolds
  have hX := hFirst s hHolds
  cases hRun : x s with
  | ok a t =>
    rw [hRun] at hX
    rw [bind_ok hRun]
    exact hNext a hX.2 t hX.1
  | error e t =>
    rw [hRun] at hX
    rw [bind_error hRun]
    exact hX

/- Only a change of settings or macros matters. -/
theorem retains_change (f : Session → Session)
    (hSame : ∀ s, (f s).cfg = s.cfg ∧ (f s).macros = s.macros) :
    Retains cfg P (modify f : Pre PUnit) fun _ => True := by
  intro s hHolds
  obtain ⟨hCfg, hMacros⟩ := hSame s
  refine ⟨⟨hCfg.trans hHolds.settings, ?_⟩, trivial⟩
  rw [hMacros]
  exact hHolds.bodies

theorem retains_say (m : Message) : Retains cfg P (say m) fun _ => True := by
  unfold say
  split
  · exact fun s hHolds => ⟨hHolds, trivial⟩
  · exact retains_change _ fun _ => ⟨rfl, rfl⟩

theorem retains_tokenize (hP : Token.Lasting cfg P) (f : SourceFile) (shownName : Bytes) :
    Retains cfg P (tokenize f shownName) fun ts => ∀ t ∈ ts, P t := by
  intro s hHolds
  refine (retains_say (.warning (Lexer.tokenize s.cfg f shownName).notices)).bind (fun _ _ => ?_)
      s hHolds
  have hRead := hP.read f shownName
  rw [← hHolds.settings] at hRead
  cases hTokens : (Lexer.tokenize s.cfg f shownName).tokens with
  | ok ts => exact fun s hHolds => ⟨hHolds, hRead ts hTokens⟩
  | error e => exact fun s hHolds => hHolds

/- A macro with a body that has a property. -/
theorem retains_insert (name : Bytes) {m : Macro}
    (hBody : ∀ body, m.body? = some body → ∀ t ∈ body, P t) :
    Retains cfg P (modify fun s =>
      { s with macros := s.macros.insert name m } : Pre PUnit)
        fun _ => True := by
  intro s hHolds
  refine ⟨⟨hHolds.settings, fun entry hEntry => ?_⟩, trivial⟩
  rcases List.mem_cons.mp hEntry with rfl | hOld
  · exact hBody
  · exact hHolds.bodies entry (List.mem_of_mem_filter hOld)

theorem retains_define (hP : Token.Lasting cfg P) (name body : Bytes) :
    Retains cfg P (define name body) fun _ => True := by
  unfold define addText
  have hAdd : Retains cfg P (addText (ascii "<built-in>") 1 body
      ⟨ascii "<built-in>", 0⟩) fun _ => True := by
    intro s hHolds
    exact ⟨⟨hHolds.settings, hHolds.bodies⟩, trivial⟩
  refine hAdd.bind fun f _ => ?_
  refine (retains_tokenize hP f _).bind fun ts hTokens => ?_
  apply retains_insert
  intro body hBody
  cases hBody
  exact hTokens

theorem retains_undef (name : Bytes) : Retains cfg P (undef name) fun _ => True := by
  intro s hHolds
  refine ⟨⟨hHolds.settings, fun entry hEntry => ?_⟩, trivial⟩
  exact hHolds.bodies entry (List.mem_of_mem_filter hEntry)

theorem retains_forM {γ : Type} {xs : List γ} {f : γ → Pre PUnit}
    (hEach : ∀ x, Retains cfg P (f x) fun _ => True) : Retains cfg P (xs.forM f) fun _ => True := by
  induction xs with
  | nil => exact fun s hHolds => ⟨hHolds, trivial⟩
  | cons x xs ih => exact (hEach x).bind fun _ _ => ih

theorem retains_definePredefined (hP : Token.Lasting cfg P) :
    Retains cfg P definePredefined fun _ => True := by
  refine (retains_forM fun entry => retains_define hP _ _).bind fun _ _ => ?_
  refine retains_forM fun entry => retains_insert _ ?_
  intro body hBody
  cases hBody

end Holding

/- Every session starts with macros whose bodies were read. -/
theorem sound_start (cfg : Config) (store : FileStore) (stdin baseFile : Bytes) :
    (start cfg store stdin baseFile).Holds cfg (Token.Genuine cfg) := by
  unfold start EStateM.run
  generalize hFirst : ({
    cfg := cfg
    store := store
    stdin := stdin
    baseFile := baseFile } : Session) = s₀
  have hHolds : s₀.Holds cfg (Token.Genuine cfg) := by
    rw [← hFirst]
    exact ⟨rfl, List.forall_mem_nil _⟩
  have hDefined := retains_definePredefined (Token.lasting_genuine cfg) s₀ hHolds
  simp only
  cases hRun : definePredefined s₀ with
  | ok a s =>
    rw [hRun] at hDefined
    exact hDefined.1
  | error e s =>
    rw [hRun] at hDefined
    exact hDefined

/- The changes to the macros that are asked for from outside. -/
def changeMacros (changes : List Definition) : Pre Unit :=
  changes.forM fun
    | .define name body => define name body
    | .undef name => undef name

theorem retains_changeMacros {cfg : Config} {P : Token → Prop} (hP : Token.Lasting cfg P)
    (changes : List Definition) : Retains cfg P (changeMacros changes) fun _ => True := by
  apply retains_forM
  rintro (⟨name, body⟩ | name)
  · exact retains_define hP name body
  · exact retains_undef name

theorem yields_load {cfg : Config} {P : Token → Prop} (hP : Token.Lasting cfg P) (name : Bytes)
    (src? : Option Bytes) : Yields cfg P (load name src?) fun ts => ∀ t ∈ ts, P t := by
  cases src? with
  | some src => exact yields_tokenizeSource hP name src
  | none =>
    refine (Include.yields_read name).bind fun r _ => ?_
    cases r with
    | ok text => exact yields_tokenizeSource hP name text
    | error e => exact yields_throw _ _

/-
  A text that is preprocessed is printed as a text with the
  same tokens: kinds, spellings and the values of literals.
  The spellings must not fuse where no blank stands between
  them, which nothing that preprocessing does sees to.
-/
theorem process_reprinted {cfg : Config} {store : FileStore} {stdin baseFile name : Bytes}
    {changes : List Definition} {src? : Option Bytes} {forced : List Bytes}
    (hRun : (changeMacros changes >>= fun _ =>
      process name src? forced) (start cfg store stdin baseFile) =
        .ok us s') (hApart : Lexer.unfused cfg (Output.pieces us) = true)
    (hContents : f.contents = Output.source us) (shownName : Bytes) (hSettings : r.cfg = cfg) :
    ∃ vs r', reread f shownName r = .ok vs r' ∧ Alike us vs := by
  have hGenuine := Token.lasting_genuine cfg
  obtain ⟨_, s₁, hChange, hProcess⟩ := bind_split hRun
  have hChanged := retains_changeMacros hGenuine changes _ (sound_start cfg store stdin baseFile)
  rw [hChange] at hChanged
  obtain ⟨ts, s₂, hLoad, hProcess⟩ := bind_split hProcess
  obtain ⟨hLoaded, hTokens⟩ := yields_load hGenuine name src? _ _ _ hChanged.1 hLoad
  obtain ⟨ts', s₃, hForce, hProcess⟩ := bind_split hProcess
  obtain ⟨⟨hCfg, hBodies⟩, hForced⟩ :=
    Include.yields_force hGenuine forced hTokens _ _ _ hLoaded hForce
  subst hCfg
  exact run_reprinted ⟨rfl, hBodies⟩ hForced hProcess hApart hContents shownName hSettings

/- What a text comes to when it is preprocessed by itself. -/
def reprinted? (text : String) : Option (List Token) :=
  match (changeMacros [] >>= fun _ =>
    process (ascii "m.c") (some (ascii text)) [])
      (start {} {} [] []) with
  | .ok ts _ => some ts
  | .error _ _ => none

/- What is read again from the text that tokens are printed as. -/
def rereadFrom? (ts : List Token) : Option (List Token) :=
  match reread ⟨0, ascii "m.i", 1, Output.source ts⟩ (ascii "m.i") {} with
  | .ok us _ => some us
  | .error _ _ => none

theorem reprinted?_run {text : String} (hSome : reprinted? text = some us) :
    ∃ s', (changeMacros [] >>= fun _ =>
      process (ascii "m.c") (some (ascii text)) []) (start {} {} [] []) = .ok us s' := by
  unfold reprinted? at hSome
  split at hSome
  · rename_i ts s' hRun
    cases hSome
    exact ⟨s', hRun⟩
  · cases hSome

/- Two literals that are merged, and an argument behind a blank. -/
theorem process_reprinted_merged :
    ∃ ts r', reprinted? "#define NEG(x) - x\nNEG(-1), \"a\" L\"b\"\n" = some ts ∧
      Output.source ts = ascii "- -1, \"a\" L\"b\"\n" ∧
      ∃ us, reread ⟨0, ascii "m.i", 1, Output.source ts⟩
        (ascii "m.i") {} = .ok us r' ∧ Alike ts us := by
  have hCheck : ((reprinted? "#define NEG(x) - x\nNEG(-1), \"a\" L\"b\"\n").map fun ts =>
        (Output.source ts, Lexer.unfused {} (Output.pieces ts))) =
      some (ascii "- -1, \"a\" L\"b\"\n", true) := by
    decide +kernel
  obtain ⟨ts, hSome, hBoth⟩ := Option.map_eq_some_iff.mp hCheck
  obtain ⟨hSource, hApart⟩ := Prod.mk.inj hBoth
  obtain ⟨s', hRun⟩ := reprinted?_run hSome
  obtain ⟨us, r', hRead, hAlike⟩ :=
    process_reprinted (f := ⟨0, ascii "m.i", 1, Output.source ts⟩)
      (r := {}) hRun hApart rfl (ascii "m.i") rfl
  exact ⟨ts, r', hSome, hSource, us, hRead, hAlike⟩

/- An argument right behind a sign of the body fuses with it. -/
theorem argument_fuses :
    (reprinted? "#define NEG(x) -x\nNEG(-1)\n").map
        (fun ts => (Output.source ts, ts.map Token.text)) =
      some (ascii "--1\n", ["-", "-", "1", ""].map ascii) ∧
    ((reprinted? "#define NEG(x) -x\nNEG(-1)\n").bind rereadFrom?).map (List.map Token.text) =
      some (["--", "1", ""].map ascii) := by decide +kernel

end Preprocessor

end CCompiler
