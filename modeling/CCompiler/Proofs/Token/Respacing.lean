import Mathlib
import CCompiler.Preprocess.Output
import CCompiler.Proofs.Token.Boundaries

/-
  Printed tokens that are read again.

  Between two tokens a printed text has one byte where there
  was anything at all, and nothing where there was nothing.
  A token is read back if it is the first one of the text that
  starts with it.  For the tokens of a text this is always so:
  up to the next gap the printed text is the text that they
  were read from, and no token depends on what stands behind a
  gap.

  Main declarations:
    * `Lexer.Bare`, `Lexer.Stands`, `Lexer.AllStand`
    * `Lexer.source_reads`
    * `Lexer.Alike`, `Lexer.Reads.stand`
    * `Lexer.respaced_same`
-/

------------
-- Where Nothing Is Skipped
------------

namespace CCompiler

namespace Lexer

/- A text that starts with neither a blank nor a comment. -/
structure Bare (s : Bytes) : Prop where
  line : ¬ [0x2F, 0x2F] <+: s
  block : ¬ [0x2F, 0x2A] <+: s
  blank : ∀ b ∈ s.head?, Bytes.isSpace b = false

variable {gap gap' : Gap} {c c' : Cursor} {p a b : Bytes}

theorem bare_nil : Bare [] := ⟨by decide, by decide, nofun⟩

theorem skipBlanks_of_bare (gap : Gap) (hBare : Bare c.text) : skipBlanks gap c = .ok (gap, c) := by
  rw [skipBlanks]
  split
  · rfl
  · rename_i tail hText
    exact absurd ⟨tail, hText.symm⟩ hBare.line
  · rename_i tail hText
    exact absurd ⟨tail, hText.symm⟩ hBare.block
  · rename_i x tail _ _ hText
    have hSpace := hBare.blank x (by rw [hText]; rfl)
    have hNewline : (x == Bytes.of '\n') = false := by
      rw [beq_eq_false_iff_ne]
      rintro rfl
      exact absurd hSpace (by decide)
    rw [if_neg (by simp [hNewline]), if_neg (by simp [hSpace])]

/- Skipping stops where nothing is to be skipped. -/
theorem bare_of_skipBlanks (hSkip : skipBlanks gap c = .ok (gap', c')) : Bare c'.text := by
  fun_induction skipBlanks gap c with
  | case1 gap c hText =>
    cases hSkip
    refine ⟨?_, ?_, ?_⟩ <;> simp [hText]
  | case2 gap c tail hText ih => exact ih hSkip
  | case3 gap c tail hText hOpen => cases hSkip
  | case4 gap c tail hText n hClosed ih => exact ih hSkip
  | case5 gap c x tail hLine hBlock hText hNewline ih => exact ih hSkip
  | case6 gap c x tail hLine hBlock hText hNewline hSpace ih => exact ih hSkip
  | case7 gap c x tail hLine hBlock hText hNewline hSpace =>
    cases hSkip
    refine ⟨?_, ?_, ?_⟩
    · rintro ⟨rest, hSame⟩
      rw [hText] at hSame
      cases hSame
      exact hLine rest rfl rfl
    · rintro ⟨rest, hSame⟩
      rw [hText] at hSame
      cases hSame
      exact hBlock rest rfl rfl
    · intro y hy
      rw [hText] at hy
      cases hy
      simpa using hSpace

theorem Bare.cut (hBare : Bare (p ++ a)) (hSome : p ≠ []) (hCloses : Closes b) : Bare (p ++ b) where
  line := not_prefix_cut hCloses (by decide) hBare.line
  block := not_prefix_cut hCloses (by decide) hBare.block
  blank := by
    cases p with
    | nil => exact absurd rfl hSome
    | cons x p => exact hBare.blank

end Lexer

------------
-- Printed Tokens
------------

/- What reading a printed token again has to bring back. -/
def Token.core (t : Token) : TokenKind × Bytes × Bool :=
  (t.kind, t.text, t.atLineStart)

variable {r : Except LexError (List Token)}

namespace Lexer

/- What stands behind a token when others are printed after it. -/
def printed (ts : List Token) : Bytes :=
  (ts.flatMap fun t => Output.gap false t ++ t.text) ++ [0x0A]

/- In front of some bytes a token is the first one that is read. -/
structure Stands
    (cfg : Config)
    (t : Token)
    (after : Bytes) : Prop where
  some : t.text ≠ []
  bare : Bare (t.text ++ after)
  read : (lexeme cfg (t.text ++ after)).2 = .ok ⟨t.kind, t.text.length - 1⟩

/- Each token stands in front of what is printed after it. -/
def AllStand (cfg : Config) : List Token → Prop
| [] => True
| t :: ts => Stands cfg t (printed ts) ∧ AllStand cfg ts

variable {cfg : Config} {f : SourceFile} {shownName : Bytes}
  {gap gap' : Gap} {c c' : Cursor} {t : Token} {ts : List Token}

@[simp]
theorem printed_nil : printed [] = [0x0A] := rfl

theorem printed_cons (t : Token) (ts : List Token) :
    printed (t :: ts) = Output.gap false t ++ (t.text ++ printed ts) := by simp [printed]

/- The gap that is printed before a token is skipped. -/
theorem skipBlanks_printed {rest : Bytes} (first : Bool) (hBare : Bare rest)
    (hText : c.text = Output.gap first t ++ rest) :
    ∃ spaced, skipBlanks ⟨first, false⟩ c = .ok (⟨first || t.atLineStart, spaced⟩,
        c.advance (Output.gap first t).length) := by
  have hStop : ∀ gap, skipBlanks gap (c.advance (Output.gap first t).length) =
      .ok (gap, c.advance (Output.gap first t).length) := by
    intro gap
    apply skipBlanks_of_bare
    simpa [Cursor.advance, hText] using hBare
  have hOne : ∀ p : Filler, Output.gap first t = p.bytes →
      Filler.first? (p.bytes ++ rest) = some p → skipBlanks ⟨first, false⟩ c =
        .ok (Gap.past ⟨first, false⟩ p, c.advance (Output.gap first t).length) := by
    intro p hBytes hFirst
    rw [skipBlanks_past (by rw [hText, hBytes]; exact hFirst), ← hBytes]
    exact hStop _
  cases hStart : t.atLineStart with
  | false =>
    rw [Bool.or_false]
    cases hSpaced : t.spaced with
    | false =>
      have hNil : Output.gap first t = [] := by simp [Output.gap, hStart, hSpaced]
      rw [hNil, List.nil_append] at hText
      rw [hNil]
      exact ⟨false, skipBlanks_of_bare _ (by rwa [hText])⟩
    | true =>
      exact ⟨true, hOne (.blank 0x20)
        (by simp [Output.gap, hStart, hSpaced, Filler.bytes]
            decide) rfl⟩
  | true =>
    rw [Bool.or_true]
    cases first with
    | true =>
      have hNil : Output.gap true t = [] := by simp [Output.gap, hStart]
      rw [hNil, List.nil_append] at hText
      rw [hNil]
      exact ⟨false, skipBlanks_of_bare _ (by rwa [hText])⟩
    | false =>
      exact ⟨false, hOne .newline
        (by simp [Output.gap, hStart, Filler.bytes]
            decide) rfl⟩

/- A printed token is read again. -/
theorem next_printed (f : SourceFile) (shownName : Bytes) {after : Bytes} (first : Bool)
    (hStands : Stands cfg t after) (hText : c.text = Output.gap first t ++ (t.text ++ after)) :
    ∃ u c', next cfg f shownName ⟨first, false⟩ c =
        .ok (u, c') ∧ u.isEof = false ∧ c'.text = after ∧
      u.core = (t.kind, t.text, first || t.atLineStart) := by
  obtain ⟨spaced, hSkip⟩ := skipBlanks_printed first hStands.bare hText
  have hThere : (c.advance (Output.gap first t).length).text = t.text ++ after := by
    simp [Cursor.advance, hText]
  have hPos := List.length_pos_iff.mpr hStands.some
  have hLength : t.text.length - 1 + 1 = t.text.length := by omega
  have hKind := lexeme_kind hStands.read
  unfold next
  rw [hSkip]
  simp only [hThere, hStands.read, hLength, List.take_left]
  rw [if_neg (by simp [hStands.some])]
  refine ⟨_, _, rfl, ?_, ?_, rfl⟩
  · simpa [Token.isEof, makeToken] using hKind
  · simp only [Cursor.advance] at hThere ⊢
    rw [hThere, List.drop_left]

/- A newline alone has no token. -/
theorem reads_newline (cfg : Config) (f : SourceFile) (shownName : Bytes) (start : Bool)
    (hText : c.text = [0x0A]) :
    ∃ eof, Reads cfg f shownName ⟨start, false⟩ c (.ok [eof]) ∧ eof.isEof = true := by
  have hSkip : skipBlanks ⟨start, false⟩ c = .ok (⟨true, false⟩, c.advance 1) := by
    rw [skipBlanks_past (p := .newline) (by rw [hText]; rfl)]
    apply skipBlanks_of_bare
    simp [Cursor.advance, hText, Filler.bytes, bare_nil]
  have hNext : next cfg f shownName ⟨start, false⟩ c =
      .ok (makeToken f shownName ⟨true, false⟩ .eof (c.advance 1).offset
        (f.position (c.advance 1).offset).line [],
        c.advance 1) := by
    unfold next
    rw [hSkip]
    exact if_pos (by simp [Cursor.advance, hText])
  exact ⟨_, .last hNext rfl, rfl⟩

/- Printed tokens are read again, and nothing else. -/
theorem reads_printed (f : SourceFile) (shownName : Bytes) (hStand : AllStand cfg ts)
    (hText : c.text = printed ts) :
    ∃ us eof, Reads cfg f shownName ⟨false, false⟩ c
        (.ok (us ++ [eof])) ∧ eof.isEof = true ∧ (∀ u ∈ us, u.isEof = false) ∧
      us.map Token.core = ts.map Token.core := by
  induction ts generalizing c with
  | nil =>
    obtain ⟨eof, hReads, hEof⟩ := reads_newline cfg f shownName false hText
    exact ⟨[], eof, hReads, hEof, List.forall_mem_nil _, rfl⟩
  | cons t ts ih =>
    rw [printed_cons] at hText
    obtain ⟨u, c', hNext, hEof, hRest, hCore⟩ := next_printed f shownName false hStand.1 hText
    obtain ⟨us, eof, hReads, hLast, hBody, hSame⟩ := ih hStand.2 hRest
    refine ⟨u :: us, eof, .more hNext hEof hReads, hLast,
      List.forall_mem_cons.mpr ⟨hEof, hBody⟩, ?_⟩
    rw [List.map_cons, List.map_cons, hSame, hCore]
    rfl

/- There is only one result of reading. -/
theorem Reads.unique {r' : Except LexError (List Token)} (hReads : Reads cfg f shownName gap c r)
    (hOther : Reads cfg f shownName gap c r') : r = r' := by
  induction hReads generalizing r' with
  | fault hNext =>
    cases hOther with
    | fault hNext' =>
      rw [hNext] at hNext'
      cases hNext'
      rfl
    | last hNext' => rw [hNext] at hNext'; cases hNext'
    | more hNext' => rw [hNext] at hNext'; cases hNext'
  | last hNext hEof =>
    cases hOther with
    | fault hNext' => rw [hNext] at hNext'; cases hNext'
    | last hNext' =>
      rw [hNext] at hNext'
      cases hNext'
      rfl
    | more hNext' hEof' =>
      rw [hNext] at hNext'
      cases hNext'
      rw [hEof] at hEof'
      cases hEof'
  | more hNext hEof hRest ih =>
    cases hOther with
    | fault hNext' => rw [hNext] at hNext'; cases hNext'
    | last hNext' hEof' =>
      rw [hNext] at hNext'
      cases hNext'
      rw [hEof] at hEof'
      cases hEof'
    | more hNext' hEof' hRest' =>
      rw [hNext] at hNext'
      cases hNext'
      rw [ih hRest']

/- The tokens of a file are what reading it gives. -/
theorem tokenize_eq (hReads : Reads cfg f shownName ⟨true, false⟩ ⟨0, 1, f.contents⟩ r)
    (hOk : r = .ok ts) : (tokenize cfg f shownName).tokens = .ok ts := by
  have hSame := (lexFile_reads cfg f shownName).unique hReads
  simp only [tokenize, hSame, hOk]
  rfl

variable {eof : Token}

/- Tokens as source text, when nothing was merged. -/
theorem source_eq (hBody : ∀ t ∈ ts, t.isEof = false ∧ t.joined = []) (hEof : eof.isEof = true) :
    Output.source (ts ++ [eof]) = match ts with
      | [] => [0x0A]
      | t :: ts => Output.gap true t ++ (t.text ++ printed ts) := by
  have hTake : (ts ++ [eof]).takeWhile (!·.isEof) = ts := by
    rw [List.takeWhile_append_of_pos fun t ht => by simp [(hBody t ht).1]]
    simp [hEof]
  unfold Output.source
  rw [hTake]
  cases ts with
  | nil => rfl
  | cons t ts =>
    have hSpelled : ∀ u ∈ t :: ts, Output.spelling u = u.text := fun u hu => by
      simp [Output.spelling, (hBody u hu).2]
    have hRest : (ts.flatMap fun u =>
        Output.gap false u ++ Output.spelling u) =
        ts.flatMap fun u => Output.gap false u ++ u.text := by
      apply List.flatMap_congr
      intro u hu
      rw [hSpelled u (List.mem_cons_of_mem _ hu)]
    simp only [hRest, hSpelled t List.mem_cons_self, printed, List.append_assoc]
    rfl

/-
  Tokens that stand in front of what is printed after them are
  read again from their text.  The first of them starts a line
  then.
-/
theorem source_reads (shownName : Bytes) (hBody : ∀ t ∈ ts, t.isEof = false ∧ t.joined = [])
    (hEof : eof.isEof = true) (hStand : AllStand cfg ts)
    (hContents : f.contents = Output.source (ts ++ [eof])) :
    ∃ us end', (tokenize cfg f shownName).tokens =
        .ok (us ++ [end']) ∧ end'.isEof = true ∧ (∀ u ∈ us, u.isEof = false) ∧
      us.map Token.core = match ts with
        | [] => []
        | t :: ts => (t.kind, t.text, true) :: ts.map Token.core := by
  rw [source_eq hBody hEof] at hContents
  cases ts with
  | nil =>
    obtain ⟨eof', hReads, hEnd⟩ := reads_newline cfg f shownName
      (c := ⟨0, 1, f.contents⟩) true hContents
    exact ⟨[], eof', tokenize_eq hReads rfl, hEnd, List.forall_mem_nil _, rfl⟩
  | cons t ts =>
    obtain ⟨u, c', hNext, hFirst, hRest, hCore⟩ :=
      next_printed f shownName (c := ⟨0, 1, f.contents⟩) true hStand.1 hContents
    obtain ⟨us, end', hReads, hEnd, hAll, hSame⟩ := reads_printed f shownName hStand.2 hRest
    refine ⟨u :: us, end', tokenize_eq (.more hNext hFirst hReads) rfl, hEnd,
      List.forall_mem_cons.mpr ⟨hFirst, hAll⟩, ?_⟩
    rw [List.map_cons, hSame, hCore, Bool.true_or]

end Lexer

------------
-- Tokens of a Text
------------

namespace Lexer

variable {cfg : Config} {f : SourceFile} {shownName : Bytes}
  {gap gap' : Gap} {c c' : Cursor} {t : Token} {ts : List Token}
  {a b : Bytes} {ps : List Filler}

/-
  Texts that are the same up to a place where one goes on with
  a gap or ends, and the other one with a blank.
-/
def Alike (a b : Bytes) : Prop :=
  ∃ p a' b', a = p ++ a' ∧ b = p ++ b' ∧ Bounds a' ∧ Closes b'

theorem lt_of_isSpace {x : UInt8} (hSpace : Bytes.isSpace x = true) : x < 0x80 := by
  simp only [Bytes.isSpace, Bool.or_eq_true, beq_iff_eq] at hSpace
  rcases hSpace with ((((rfl | rfl) | rfl) | rfl) | rfl) | rfl <;> decide

/- A gap starts with a byte that is a code point by itself. -/
theorem bounds_spelled (hComplete : Completes b ps) (hSome : ps = [] → b = []) :
    Bounds (Filler.spelled ps ++ b) := by
  cases ps with
  | nil =>
    rw [hSome rfl]
    exact nofun
  | cons p ps =>
    rw [spelled_cons]
    intro x hx
    cases p with
    | newline => cases hx; decide
    | blank y =>
      cases hx
      exact lt_of_isSpace hComplete.1.1
    | lineComment text => cases hx; decide
    | blockComment text => cases hx; decide

/- What lies before a token that is not right behind another one. -/
theorem past_some (gap : Gap) (hSome : ps ≠ []) :
    (ps.foldl Gap.past gap).atLineStart = true ∨ (ps.foldl Gap.past gap).spaced = true := by
  obtain ⟨before, p, rfl⟩ := (List.eq_nil_or_concat ps).resolve_left hSome
  rw [List.concat_eq_append, List.foldl_append]
  cases p <;> simp [Gap.past]

/- What is printed before a token that is not right behind another one. -/
theorem closes_gap (hGap : t.atLineStart = true ∨ t.spaced = true) (s : Bytes) :
    Closes (Output.gap false t ++ s) := by
  unfold Output.gap
  cases hStart : t.atLineStart with
  | true => exact ⟨_, s, rfl, .inr rfl⟩
  | false =>
    rw [hStart] at hGap
    rw [hGap.resolve_left Bool.false_ne_true]
    exact ⟨_, s, rfl, .inl rfl⟩

/-
  The tokens that are read from a place on stand in front of
  what is printed after them, and the printed text goes on
  like the text there.
-/
theorem Reads.stand (hReads : Reads cfg f shownName gap c r) (hOk : r = .ok ts) :
    ∃ body eof, ts = body ++ [eof] ∧ eof.isEof = true ∧
      (∀ t ∈ body, t.isEof = false ∧ t.joined = []) ∧ AllStand cfg body ∧
      (gap = ⟨false, false⟩ → Alike c.text (printed body)) := by
  induction hReads generalizing ts with
  | fault hNext => cases hOk
  | @last gap c c' t hNext hEof =>
    cases hOk
    refine ⟨[], t, rfl, hEof, List.forall_mem_nil _, trivial, fun _ => ?_⟩
    unfold next at hNext
    split at hNext
    · cases hNext
    · rename_i gap₁ c₁ hSkip
      obtain ⟨ps, hText, hAll, -⟩ := skipBlanks_divides hSkip
      split at hNext
      · rename_i hEmpty
        have hNil : c₁.text = [] := List.isEmpty_iff.mp hEmpty
        refine ⟨[], c.text, _, rfl, rfl, ?_, _, [], rfl, .inr rfl⟩
        rw [hText]
        exact bounds_spelled hAll fun _ => hNil
      · split at hNext
        · cases hNext
        · rename_i lx hLexeme
          have hKind := lexeme_kind hLexeme
          cases hNext
          simp [Token.isEof, makeToken, hKind] at hEof
  | @more gap c c' t r hNext hEof hRest ih =>
    cases r with
    | error e => cases hOk
    | ok us =>
      cases hOk
      obtain ⟨body, eof, rfl, hEnd, hBody, hStand, hAlike⟩ := ih rfl
      obtain ⟨p, a, b, hA, hB, hBounds, hCloses⟩ := hAlike rfl
      unfold next at hNext
      split at hNext
      · cases hNext
      rename_i gap₁ c₁ hSkip
      obtain ⟨ps, hText, hAll, -, hGap⟩ := skipBlanks_divides hSkip
      have hBare := bare_of_skipBlanks hSkip
      split at hNext
      · cases hNext
        cases hEof
      rename_i hEmpty
      split at hNext
      · cases hNext
      rename_i lx hLexeme
      cases hNext
      have hFits := lexeme_fits (by simpa using hEmpty) hLexeme
      have hLength : (c₁.text.take (lx.extra + 1)).length = lx.extra + 1 := by
        rw [List.length_take]
        omega
      have hSplit : c₁.text = (c₁.text.take (lx.extra + 1) ++ p) ++ a := by
        rw [List.append_assoc, ← hA]
        exact (List.take_append_drop _ _).symm
      have hStands : Stands cfg (makeToken f shownName gap₁ lx.kind c₁.offset c₁.line
          (c₁.text.take (lx.extra + 1))) (printed body) := by
        refine ⟨?_, ?_, ?_⟩
        · exact List.ne_nil_of_length_pos (by
            simp only [makeToken, hLength]
            omega)
        · simp only [makeToken]
          rw [hB, ← List.append_assoc]
          rw [hSplit] at hBare
          refine hBare.cut (List.ne_nil_of_length_pos ?_) hCloses
          rw [List.length_append, hLength]
          omega
        · simp only [makeToken]
          rw [hB, ← List.append_assoc, hLength, Nat.add_sub_cancel]
          rw [hSplit] at hLexeme
          refine lexeme_cut hCloses hLexeme ?_ (.inr hBounds)
          rw [List.length_append, hLength]
          exact Nat.lt_add_right _ (Nat.lt_succ_self _)
      refine ⟨_ :: body, eof, rfl, hEnd,
        List.forall_mem_cons.mpr ⟨⟨hEof, rfl⟩, hBody⟩, ⟨hStands, hStand⟩, ?_⟩
      rintro rfl
      rw [printed_cons, hText]
      by_cases hNone : ps = []
      · subst hNone
        have hNil : gap₁ = ⟨false, false⟩ := hGap
        subst hNil
        refine ⟨c₁.text.take (lx.extra + 1) ++ p, a, b, hSplit, ?_, hBounds, hCloses⟩
        rw [hB, List.append_assoc]
        rfl
      · refine ⟨[], _, _, rfl, rfl,
          bounds_spelled hAll fun hNil => absurd hNil hNone, closes_gap ?_ _⟩
        simp only [makeToken, hGap]
        exact past_some _ hNone

/-
  The tokens of a text are read again from the text that they
  are printed as: white space and comments between them count
  only for their being there.
-/
theorem respaced_same {f' : SourceFile} (shownName' : Bytes)
    (hTokens : (tokenize cfg f shownName).tokens = .ok ts)
    (hContents : f'.contents = Output.source ts) :
    ∃ us, (tokenize cfg f' shownName').tokens = .ok us ∧ (us.filter (!·.isEof)).map Token.core =
        (ts.filter (!·.isEof)).map Token.core := by
  have hReads := lexFile_reads cfg f shownName
  have hOk : (lexFile cfg f shownName).result = .ok ts := by
    simp only [tokenize] at hTokens
    cases hResult : (lexFile cfg f shownName).result with
    | error e => rw [hResult] at hTokens; cases hTokens
    | ok us => rw [hResult] at hTokens; cases hTokens; rfl
  obtain ⟨body, eof, rfl, hEof, hBody, hStand, -⟩ := hReads.stand hOk
  obtain ⟨us, end', hRead, hEnd, hAll, hSame⟩ := source_reads shownName' hBody hEof hStand hContents
  have hFilter : ∀ {vs : List Token} {v : Token}, (∀ u ∈ vs, u.isEof = false) → v.isEof = true →
      (vs ++ [v]).filter (!·.isEof) = vs := by
    intro vs v hNone hLast
    rw [List.filter_append, List.filter_eq_self.mpr fun u hu => by simp [hNone u hu]]
    simp [hLast]
  refine ⟨_, hRead, ?_⟩
  rw [hFilter hAll hEnd, hFilter (fun t ht => (hBody t ht).1) hEof, hSame]
  cases body with
  | nil => rfl
  | cons t body =>
    have hTiling := (tokenize_tiles cfg f shownName).2 _ hTokens
    obtain ⟨ps, -, -, hStart, -⟩ := hTiling.gaps [] t _ rfl
    have hFirst : t.atLineStart = true := hStart.mpr (.inl ⟨trivial, rfl⟩)
    simp only [List.map_cons, Token.core, hFirst]

/- The tokens of `commented` with single bytes between them. -/
def uncommented : SourceFile :=
  ⟨1, ascii "m.i", 1, ascii "a\n\"\\\"\" 1e+2\n"⟩

/- A string after two comments and a newline starts a line again. -/
theorem respaced_same_commented :
    ∃ ts us, (tokenize {} commented (ascii "m.c")).tokens = .ok ts ∧
      uncommented.contents = Output.source ts ∧
      (tokenize {} uncommented (ascii "m.i")).tokens = .ok us ∧
      (us.filter (!·.isEof)).map Token.core = (ts.filter (!·.isEof)).map Token.core := by
  have hPrinted : (tokenize {} commented (ascii "m.c")).tokens.toOption.map Output.source =
      some uncommented.contents := by
    decide +kernel
  obtain ⟨ts, hSome, hSource⟩ := Option.map_eq_some_iff.mp hPrinted
  cases hRead : (tokenize {} commented (ascii "m.c")).tokens with
  | error e =>
    rw [hRead] at hSome
    cases hSome
  | ok read =>
    rw [hRead] at hSome
    cases hSome
    obtain ⟨us, hAgain, hSame⟩ := respaced_same (ascii "m.i") hRead hSource.symm
    exact ⟨ts, us, rfl, hSource.symm, hAgain, hSame⟩

end Lexer

end CCompiler
