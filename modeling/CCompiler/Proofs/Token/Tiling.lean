import Mathlib
import CCompiler.Proofs.Preprocess.Made
import CCompiler.Proofs.Token.Gaps

/-
  The tokens of a text tile it.

  Every token is a stretch of the text after the one before
  it, and what lies between two tokens is divided into blanks
  and comments.  Reading is followed token by token without
  any bound on their number; that it always ends is part of
  the result.

  Main declarations:
    * `Lexer.lexeme_fits`
    * `Lexer.next`, `Lexer.Reads`, `Lexer.run_reads`
    * `Lexer.Tiling`
    * `Lexer.tokenize_tiles`
-/

------------
-- Lengths of Lexemes
------------

namespace CCompiler

namespace Lexer

theorem numberTail_le (s : Bytes) : numberTail s ≤ s.length := by
  fun_induction numberTail s <;> simp_all

variable {s : Bytes} {n : Nat}

theorem bodyLength?_lt (hLength : Literal.bodyLength? s = some n) : n < s.length := by
  induction s using Literal.bodyLength?.induct generalizing n with
  | case1 => cases hLength
  | case2 rest =>
    cases hLength
    simp
  | case3 rest => cases hLength
  | case4 b rest ih =>
    obtain ⟨k, hRest, rfl⟩ := Option.map_eq_some_iff.mp hLength
    have hShort := ih hRest
    simp only [List.length_cons]
    omega
  | case5 b rest hQuote hNewline hEscape ih =>
    rw [Literal.bodyLength?] at hLength
    · obtain ⟨k, hRest, rfl⟩ := Option.map_eq_some_iff.mp hLength
      have hShort := ih hRest
      simp only [List.length_cons]
      omega
    all_goals assumption

theorem quoteDistance?_lt (hDistance : quoteDistance? s = some n) : n < s.length := by
  induction s generalizing n with
  | nil => cases hDistance
  | cons b s ih =>
    rw [quoteDistance?] at hDistance
    split at hDistance
    · cases hDistance
      simp
    · obtain ⟨k, hRest, rfl⟩ := Option.map_eq_some_iff.mp hDistance
      have hShort := ih hRest
      simp only [List.length_cons]
      omega

theorem octalTail_le (n : Nat) (v : Int32) (s : Bytes) :
    (Literal.octalTail n v s).2 ≤ s.length := by fun_induction Literal.octalTail n v s <;> simp_all

theorem hexTail_le (v : Int32) (s : Bytes) : (Literal.hexTail v s).2 ≤ s.length := by
  fun_induction Literal.hexTail v s <;> simp_all

variable {v : Int32}

/- An escape sequence takes no more than there is. -/
theorem readEscape_le {k : Nat} (hRead : Literal.readEscape s = .ok (v, k)) : k ≤ s.length := by
  cases s with
  | nil =>
    cases hRead
    simp
  | cons b rest =>
    simp only [Literal.readEscape] at hRead
    split at hRead
    · cases hRead
      have hTail := octalTail_le 2 (Int32.ofNat (b.toNat - 48)) rest
      simpa using hTail
    · split at hRead
      · split at hRead
        · cases hRead
        · cases hRead
          have hTail := hexTail_le 0 rest
          simpa using hTail
      · cases hRead
        simp

variable {body : Bytes}

/- The first character of a constant lies in its body. -/
theorem charValue_le {used : Nat} (hValue : charValue body = .ok (v, used)) :
    used ≤ body.length := by
  unfold charValue at hValue
  split at hValue
  · cases hValue
  · rename_i b tail
    split at hValue
    · split at hValue
      · cases hValue
      · rename_i hRead
        cases hValue
        have hTail := readEscape_le hRead
        simpa using hTail
    · split at hValue
      · cases hValue
      · rename_i hDecode
        cases hValue
        have hRest := Utf8.decode?_length hDecode
        simp only [List.length_cons]
        omega

variable {skip : Nat} {lx : Lexeme}

theorem stringLexeme_fits {elem : LitType} (hLexeme : stringLexeme elem skip body = .ok lx) :
    lx.extra ≤ skip + body.length := by
  unfold stringLexeme at hLexeme
  split at hLexeme
  · cases hLexeme
  · rename_i n hLength
    have hShort := bodyLength?_lt hLength
    cases hDecode : Literal.decodeBody elem (skip + 1) (body.take n) with
    | error e =>
      rw [hDecode] at hLexeme
      cases hLexeme
    | ok bytes =>
      rw [hDecode] at hLexeme
      cases hLexeme
      simp only
      omega

theorem charLexeme_fits {type : LitType} {fix : Int64 → Int64}
    (hLexeme : charLexeme type skip fix body = .ok lx) : lx.extra ≤ skip + body.length := by
  unfold charLexeme at hLexeme
  split at hLexeme
  · cases hLexeme
  · cases hLexeme
  · rename_i v used hValue
    have hUsed := charValue_le hValue
    split at hLexeme
    · cases hLexeme
    · rename_i n hDistance
      have hQuote := quoteDistance?_lt hDistance
      rw [List.length_drop] at hQuote
      cases hLexeme
      simp only
      omega

theorem literal?_fits {r : Except LexError Lexeme} (hLiteral : literal? s = some r)
    (hLexeme : r = .ok lx) : lx.extra < s.length := by
  unfold literal? at hLiteral
  split at hLiteral <;> cases hLiteral <;> simp only [List.length_cons] <;> first
      | have hFits := stringLexeme_fits hLexeme
        omega
      | have hFits := charLexeme_fits hLexeme
        omega

/- A word goes on no further than its text. -/
theorem length_wordTail (cfg : Config) (base : Nat) (s : Bytes) :
    (wordTail cfg base s).length ≤ base + s.length := by
  fun_induction wordTail cfg base s with
  | case1 base => simp
  | case2 base b tail hDecode => simp
  | case3 base b tail c rest hDecode hShort hPart w ih =>
    have hRest := Utf8.decode?_length hDecode
    calc w.length
        ≤ base + Utf8.leadLength b + rest.length := ih
      _ = base + (b :: tail).length := by
          rw [List.length_cons]
          omega
  | case4 base b tail c rest hDecode hShort hPart => simp

theorem length_word (cfg : Config) (s : Bytes) : (word cfg s).length ≤ s.length := by
  unfold word
  split
  · rename_i b tail c rest hDecode
    split
    · have hTail := length_wordTail cfg (Utf8.leadLength b) rest
      have hRest := Utf8.decode?_length hDecode
      simp only [List.length_cons]
      omega
    · simp
  · simp

theorem length_of_dropPrefix? {p rest : Bytes} (hDrop : Bytes.dropPrefix? p s = some rest) :
    p.length ≤ s.length := by fun_induction Bytes.dropPrefix? p s <;> simp_all

theorem punctLength?_le (hLength : punctLength? s = some n) : n ≤ s.length := by
  unfold punctLength? at hLength
  split at hLength
  · rename_i p hFind
    cases hLength
    have hStarts : s.startsWith p = true := List.find?_some hFind
    obtain ⟨rest, hDrop⟩ := Option.isSome_iff_exists.mp hStarts
    exact length_of_dropPrefix? hDrop
  · split at hLength
    · split at hLength
      · cases hLength
        simp
      · cases hLength
    · cases hLength

/- A lexeme lies in the text that it starts. -/
theorem lexeme_fits {cfg : Config} (hSome : s ≠ []) (hLexeme : (lexeme cfg s).2 = .ok lx) :
    lx.extra < s.length := by
  have hPos := List.length_pos_iff.mpr hSome
  unfold lexeme at hLexeme
  split at hLexeme
  · cases hLexeme
    have hTail := numberTail_le s.tail
    rw [List.length_tail] at hTail
    simp only
    omega
  · split at hLexeme
    · rename_i r hLiteral
      exact literal?_fits hLiteral hLexeme
    · have hWord := length_word cfg s
      simp only at hLexeme
      split at hLexeme
      · cases hLexeme
      · split at hLexeme
        · cases hLexeme
          simp only
          omega
        · split at hLexeme
          · rename_i n hLength
            have hPunct := punctLength?_le hLength
            cases hLexeme
            simp only
            omega
          · cases hLexeme

------------
-- Reading Without a Bound
------------

/- The next token, with the place after it. -/
def next
    (cfg : Config)
    (f : SourceFile)
    (shownName : Bytes)
    (gap : Gap)
    (c : Cursor) : Except LexError (Token × Cursor) :=
  match skipBlanks gap c with
  | .error offset => .error ⟨.unclosedComment, offset⟩
  | .ok (gap, c) =>
    if c.text.isEmpty then
      .ok (makeToken f shownName gap .eof c.offset
        (f.position c.offset).line [], c)
    else
      match (lexeme cfg c.text).2 with
      | .error e => .error (e.shift c.offset)
      | .ok lx =>
        .ok (makeToken f shownName gap lx.kind c.offset c.line
          (c.text.take (lx.extra + 1)), c.advance (lx.extra + 1))

/-
  Reading ends with a result, token by token, however many
  there are.
-/
inductive Reads
    (cfg : Config)
    (f : SourceFile)
    (shownName : Bytes) :
    Gap → Cursor → Except LexError (List Token) → Prop
| fault {gap : Gap} {c : Cursor} {e : LexError}
    (hNext : next cfg f shownName gap c = .error e) :
    Reads cfg f shownName gap c (.error e)
| last {gap : Gap} {c c' : Cursor} {t : Token}
    (hNext : next cfg f shownName gap c = .ok (t, c'))
    (hEof : t.isEof = true) :
    Reads cfg f shownName gap c (.ok [t])
| more {gap : Gap} {c c' : Cursor} {t : Token}
    {r : Except LexError (List Token)}
    (hNext : next cfg f shownName gap c = .ok (t, c'))
    (hEof : t.isEof = false)
    (hRest : Reads cfg f shownName ⟨false, false⟩ c' r) :
    Reads cfg f shownName gap c (r.map (t :: ·))

/-
  Every token takes a byte, so fuel for more tokens than there
  are bytes lets reading end by itself.
-/
theorem run_reads (cfg : Config) (f : SourceFile) (shownName : Bytes) (fuel : Nat) (gap : Gap)
    (c : Cursor) (dollars : List Nat) (done : List Token) (hFuel : c.text.length < fuel) :
    ∃ r, Reads cfg f shownName gap c r ∧ (run cfg f shownName fuel gap c dollars done).result =
        r.map (done.reverse ++ ·) := by
  induction fuel generalizing gap c dollars done with
  | zero => omega
  | succ fuel ih =>
    rw [run]
    cases hSkip : skipBlanks gap c with
    | error offset => exact ⟨_, .fault (by rw [next, hSkip]), rfl⟩
    | ok skipped =>
      obtain ⟨gap', c'⟩ := skipped
      obtain ⟨ps, hText, -⟩ := skipBlanks_divides hSkip
      simp only
      by_cases hEmpty : c'.text.isEmpty = true
      · rw [if_pos hEmpty]
        have hNext : next cfg f shownName gap c = .ok (makeToken f shownName gap' .eof c'.offset
              (f.position c'.offset).line [], c') := by
          simp only [next, hSkip, if_pos hEmpty]
        exact ⟨_, .last hNext rfl, rfl⟩
      · rw [if_neg hEmpty]
        cases hLexeme : (lexeme cfg c'.text).2 with
        | error e =>
          refine ⟨.error (e.shift c'.offset), .fault ?_, rfl⟩
          simp only [next, hSkip, if_neg hEmpty, hLexeme]
        | ok lx =>
          have hShort : (c'.advance (lx.extra + 1)).text.length <
                fuel := by
            have hPos : 0 < c'.text.length := by simpa [List.length_pos_iff] using hEmpty
            have hTail := congrArg List.length hText
            simp only [Cursor.advance, List.length_drop, List.length_append] at hTail ⊢
            omega
          obtain ⟨r, hReads, hRun⟩ := ih ⟨false, false⟩ (c'.advance (lx.extra + 1)) (dollars ++
              (lexeme cfg c'.text).1.map (· + c'.offset))
            (makeToken f shownName gap' lx.kind c'.offset
              c'.line (c'.text.take (lx.extra + 1)) :: done)
            hShort
          have hNext : next cfg f shownName gap c = .ok
              (makeToken f shownName gap' lx.kind c'.offset c'.line (c'.text.take (lx.extra + 1)),
                c'.advance (lx.extra + 1)) := by
            simp only [next, hSkip, if_neg hEmpty, hLexeme]
          refine ⟨_, .more hNext ?_ hReads, ?_⟩
          · simpa [Token.isEof, makeToken] using lexeme_kind hLexeme
          · rw [hRun]
            cases r <;> simp [Except.map]

/- Reading a file ends by itself. -/
theorem lexFile_reads (cfg : Config) (f : SourceFile) (shownName : Bytes) :
    Reads cfg f shownName ⟨true, false⟩ ⟨0, 1, f.contents⟩ (lexFile cfg f shownName).result := by
  obtain ⟨r, hReads, hRun⟩ := run_reads cfg f shownName
    (f.contents.length + 1) ⟨true, false⟩ ⟨0, 1, f.contents⟩
    [] [] (Nat.lt_succ_self _)
  have hSame : r.map (([] : List Token).reverse ++ ·) = r := by cases r <;> rfl
  rw [hSame] at hRun
  unfold lexFile
  rw [hRun]
  exact hReads

end Lexer

------------
-- Tiles
------------

/- The offset after a token. -/
def Token.stop (t : Token) : Nat :=
  t.offset + t.text.length

namespace Lexer

open Filler

/-
  What lies between a place and a token, divided in the only
  way there is, tells whether the token starts a line and
  whether it is spaced.  The first token of a file starts a
  line anyhow.
-/
def GapBefore
    (f : SourceFile)
    (start : Nat)
    (first : Prop)
    (t : Token) : Prop :=
  ∃ ps, Divides ((f.contents.take t.offset).drop start)
      (f.contents.drop t.offset) ps ∧
    (∀ qs, Divides ((f.contents.take t.offset).drop start)
      (f.contents.drop t.offset) qs → qs = ps) ∧
    (t.atLineStart = true ↔ first ∨ Filler.newline ∈ ps) ∧
    (t.spaced = true ↔ OnLine ps)

/- The place where the last of some tokens ends. -/
def stopOf (start : Nat) (before : List Token) : Nat :=
  (before.getLast?.map Token.stop).getD start

/-
  Tokens that tile a file from a place on.  Each of them is a
  stretch of the text behind the one before, and all but the
  end at the end of the text have bytes of their own.
-/
structure Tiling
    (f : SourceFile)
    (start : Nat)
    (first : Prop)
    (ts : List Token) : Prop where
  spelled : ∀ t ∈ ts, start ≤ t.offset ∧ t.stop ≤ f.contents.length ∧
    t.text = (f.contents.drop t.offset).take t.text.length
  ordered : ts.Pairwise fun a b =>
    a.offset < b.offset ∧ a.stop ≤ b.offset
  ended : ∃ (body : List Token) (eof : Token),
    ts = body ++ [eof] ∧ (eof.kind = .eof ∧ eof.text = [] ∧
      eof.offset = f.contents.length) ∧
    ∀ t ∈ body, t.kind ≠ .eof ∧ t.text ≠ [] ∧ t.line =
        (1 + Cursor.newlines (f.contents.take t.offset) : Nat)
  gaps : ∀ before t after, ts = before ++ t :: after →
    GapBefore f (stopOf start before) (first ∧ before = []) t

variable {cfg : Config} {f : SourceFile} {shownName : Bytes}
  {gap : Gap} {c c' : Cursor} {t : Token} {ts : List Token}

/- A place of a file. -/
structure Cursor.In (c : Cursor) (f : SourceFile) : Prop where
  le : c.offset ≤ f.contents.length
  text : c.text = f.contents.drop c.offset
  line : c.line = 1 + Cursor.newlines (f.contents.take c.offset)

theorem Cursor.In.advance (hIn : c.In f) {n : Nat} (hFits : n ≤ c.text.length) :
    (c.advance n).In f := by
  have hLength := congrArg List.length hIn.text
  rw [List.length_drop] at hLength
  have hLe := hIn.le
  refine ⟨by simp only [Cursor.advance]; omega, ?_, ?_⟩
  · simp only [Cursor.advance, hIn.text, List.drop_drop]
  · simp only [Cursor.advance, hIn.line, hIn.text,
      Cursor.newlines, List.take_add, List.countP_append, Nat.add_assoc]

/-
  The next token lies behind the place, with a gap before it;
  its text starts there.  Reading goes on where it stops.
-/
structure Found
    (f : SourceFile)
    (gap : Gap)
    (c : Cursor)
    (t : Token)
    (c' : Cursor) : Prop where
  behind : c.offset ≤ t.offset
  inside : t.stop ≤ f.contents.length
  text : t.text = (f.contents.drop t.offset).take t.text.length
  gap : gap.spaced = false → GapBefore f c.offset (gap.atLineStart = true) t
  eof : t.isEof = true → t.text = [] ∧ t.offset = f.contents.length
  full : t.isEof = false → t.text ≠ [] ∧ t.line =
      (1 + Cursor.newlines (f.contents.take t.offset) : Nat) ∧
    c'.In f ∧ c'.offset = t.stop

/- The gap before the place where skipping stops. -/
theorem gapBefore_skipBlanks {gap' : Gap} (hIn : c.In f) (hGap : gap.spaced = false)
    (hSkip : skipBlanks gap c = .ok (gap', c')) (hOffset : t.offset = c'.offset)
    (hStart : t.atLineStart = gap'.atLineStart) (hSpaced : t.spaced = gap'.spaced) :
    GapBefore f c.offset (gap.atLineStart = true) t := by
  obtain ⟨ps, hText, hAll, hPlace, hPast⟩ := skipBlanks_divides hSkip
  have hAfter : f.contents.drop t.offset = c'.text := by
    rw [hOffset, hPlace]
    simp only [Cursor.advance, ← List.drop_drop, ← hIn.text]
  have hBetween : (f.contents.take t.offset).drop c.offset = spelled ps := by
    have hTaken : t.offset = c.offset + (spelled ps).length := by
      rw [hOffset, hPlace]
      rfl
    rw [hTaken, List.take_add, List.drop_append_of_le_length (by
      rw [List.length_take]
      have hLe := hIn.le
      omega), List.drop_take, Nat.sub_self, List.take_zero,
      List.nil_append, ← hIn.text, hText, List.take_left]
  have hDivides : Divides ((f.contents.take t.offset).drop c.offset)
      (f.contents.drop t.offset) ps := by
    rw [hBetween, hAfter]
    exact ⟨rfl, hAll⟩
  refine ⟨ps, hDivides, fun qs hOther => hOther.unique hDivides, ?_, ?_⟩
  · rw [hStart, hPast, atLineStart_past]
  · rw [hSpaced, hPast, spaced_past, hGap]
    simp

theorem found_next (hIn : c.In f) (hNext : next cfg f shownName gap c = .ok (t, c')) :
    Found f gap c t c' := by
  unfold next at hNext
  split at hNext
  · cases hNext
  rename_i gap₁ c₁ hSkip
  obtain ⟨ps, hText, -, hPlace, -⟩ := skipBlanks_divides hSkip
  have hIn₁ : c₁.In f := by
    rw [hPlace]
    exact hIn.advance (by rw [hText]; simp)
  have hBehind : c.offset ≤ c₁.offset := by
    rw [hPlace]
    exact Nat.le_add_right _ _
  split at hNext
  · rename_i hEmpty
    cases hNext
    have hEnd : c'.offset = f.contents.length := by
      have hLength := congrArg List.length hIn₁.text
      rw [List.isEmpty_iff.mp hEmpty, List.length_drop] at hLength
      have hLe := hIn₁.le
      simp only [List.length_nil] at hLength
      omega
    exact
      { behind := hBehind
        inside := hIn₁.le
        text := rfl
        gap := fun hGap => gapBefore_skipBlanks hIn hGap hSkip rfl rfl rfl
        eof := fun _ => ⟨rfl, hEnd⟩
        full := fun hEof => by cases hEof }
  · rename_i hEmpty
    split at hNext
    · cases hNext
    rename_i lx hLexeme
    cases hNext
    have hFits : lx.extra + 1 ≤ c₁.text.length := lexeme_fits (by simpa using hEmpty) hLexeme
    have hLength : (c₁.text.take (lx.extra + 1)).length = lx.extra + 1 := by
      rw [List.length_take]
      omega
    have hStop : (makeToken f shownName gap₁ lx.kind c₁.offset
        c₁.line (c₁.text.take (lx.extra + 1))).stop =
        c₁.offset + (lx.extra + 1) := by
      simp only [Token.stop, makeToken, hLength]
    have hIn₂ := hIn₁.advance hFits
    exact
      { behind := hBehind
        inside := by
          rw [hStop]
          exact hIn₂.le
        text := by
          simp only [makeToken, hLength]
          rw [hIn₁.text]
        gap := fun hGap => gapBefore_skipBlanks hIn hGap hSkip rfl rfl rfl
        eof := fun hEof => by
          have hKind := lexeme_kind hLexeme
          simp [Token.isEof, makeToken, hKind] at hEof
        full := fun _ => by
          refine ⟨?_, ?_, hIn₂, hStop.symm⟩
          · intro hNil
            have hZero := congrArg List.length hNil
            simp only [makeToken, hLength] at hZero
            cases hZero
          · simp only [makeToken, hIn₁.line] }

/- The end alone. -/
theorem Found.tiling_last (hFound : Found f gap c t c') (hGap : gap.spaced = false)
    (hEof : t.isEof = true) : Tiling f c.offset (gap.atLineStart = true) [t] := by
  obtain ⟨hNil, hEnd⟩ := hFound.eof hEof
  refine ⟨?_, List.pairwise_singleton _ _, ⟨[], t, rfl, ⟨by simpa [Token.isEof] using hEof, hNil,
      hEnd⟩, by simp⟩, ?_⟩
  · intro u hu
    rw [List.mem_singleton.mp hu]
    exact ⟨hFound.behind, hFound.inside, hFound.text⟩
  · intro before u after hSplit
    cases before with
    | nil =>
      cases hSplit
      simpa [stopOf] using hFound.gap hGap
    | cons b before => simp at hSplit

/- A token before others that tile the rest. -/
theorem Found.tiling_cons (hFound : Found f gap c t c') (hGap : gap.spaced = false)
    (hEof : t.isEof = false) (hRest : Tiling f t.stop False ts) :
    Tiling f c.offset (gap.atLineStart = true) (t :: ts) := by
  obtain ⟨hFull, hLine, -⟩ := hFound.full hEof
  have hSome : t.offset < t.stop := by
    have hPos := List.length_pos_iff.mpr hFull
    unfold Token.stop
    omega
  refine ⟨?_, List.pairwise_cons.mpr ⟨?_, hRest.ordered⟩, ?_, ?_⟩
  · intro u hu
    rcases List.mem_cons.mp hu with rfl | hu
    · exact ⟨hFound.behind, hFound.inside, hFound.text⟩
    · obtain ⟨hStart, hSpelled⟩ := hRest.spelled u hu
      exact ⟨(hFound.behind.trans hSome.le).trans hStart, hSpelled⟩
  · intro u hu
    have hStart := (hRest.spelled u hu).1
    exact ⟨hSome.trans_le hStart, hStart⟩
  · obtain ⟨body, eof, rfl, hEnd, hBody⟩ := hRest.ended
    refine ⟨t :: body, eof, rfl, hEnd, ?_⟩
    exact List.forall_mem_cons.mpr ⟨⟨by simpa [Token.isEof] using hEof, hFull, hLine⟩, hBody⟩
  · intro before u after hSplit
    cases before with
    | nil =>
      cases hSplit
      simpa [stopOf] using hFound.gap hGap
    | cons b before =>
      cases hSplit
      have hNext := hRest.gaps before u after rfl
      cases hLast : before.getLast? with
      | none => simpa [stopOf, List.getLast?_cons, hLast] using hNext
      | some d => simpa [stopOf, List.getLast?_cons, hLast] using hNext

/- What is read from a place on tiles the rest of the file. -/
theorem Reads.tiling {r : Except LexError (List Token)} (hReads : Reads cfg f shownName gap c r)
    (hIn : c.In f) (hGap : gap.spaced = false) (hOk : r = .ok ts) :
    Tiling f c.offset (gap.atLineStart = true) ts := by
  induction hReads generalizing ts with
  | fault hNext => cases hOk
  | last hNext hEof =>
    cases hOk
    exact (found_next hIn hNext).tiling_last hGap hEof
  | @more gap c c' t r hNext hEof hRest ih =>
    have hFound := found_next hIn hNext
    obtain ⟨-, -, hIn', hStop⟩ := hFound.full hEof
    cases r with
    | error e => cases hOk
    | ok us =>
      cases hOk
      have hMore := ih hIn' rfl rfl
      rw [hStop] at hMore
      exact hFound.tiling_cons hGap hEof (by simpa using hMore)

/-
  Reading a file always ends, and the tokens it gives tile the
  file from its start.
-/
theorem tokenize_tiles (cfg : Config) (f : SourceFile) (shownName : Bytes) :
    Reads cfg f shownName ⟨true, false⟩ ⟨0, 1, f.contents⟩ (lexFile cfg f shownName).result ∧
      ∀ ts, (tokenize cfg f shownName).tokens = .ok ts → Tiling f 0 True ts := by
  have hReads := lexFile_reads cfg f shownName
  refine ⟨hReads, fun ts hTokens => ?_⟩
  have hOk : (lexFile cfg f shownName).result = .ok ts := by
    simp only [tokenize] at hTokens
    cases hResult : (lexFile cfg f shownName).result with
    | error e =>
      rw [hResult] at hTokens
      cases hTokens
    | ok us =>
      rw [hResult] at hTokens
      cases hTokens
      rfl
  have hStart : Cursor.In ⟨0, 1, f.contents⟩ f := ⟨Nat.zero_le _, rfl, rfl⟩
  simpa using hReads.tiling hStart rfl hOk

/-
  A text with both kinds of comments, a literal with an
  escaped quote, and a number that takes a sign.
-/
def commented : SourceFile :=
  ⟨0, ascii "m.c", 1,
    ascii "/*\n*/ a//b\n \"\\\"\" /**/1e+2\n"⟩

/-
  The block comment hides its newline, so `a` would not start
  a line if it were not first; the string does, and is spaced.
-/
theorem tokenize_tiles_commented :
    ∃ ts, (tokenize {} commented (ascii "m.c")).tokens = .ok ts ∧
      ts.map (fun t => (t.offset, t.text.length, t.line, t.atLineStart, t.spaced)) =
        [(6, 1, 2, true, true), (12, 4, 3, true, true),
          (21, 4, 3, false, true), (26, 0, 3, true, false)] ∧
      Tiling commented 0 True ts := by
  have hTokens : (tokenize {} commented (ascii "m.c")).tokens.toOption.map (fun ts =>
        ts.map fun t => (t.offset, t.text.length, t.line, t.atLineStart, t.spaced)) =
      some [(6, 1, 2, true, true), (12, 4, 3, true, true),
        (21, 4, 3, false, true), (26, 0, 3, true, false)] := by
    decide +kernel
  obtain ⟨ts, hSome, hSpans⟩ := Option.map_eq_some_iff.mp hTokens
  cases hRead : (tokenize {} commented (ascii "m.c")).tokens with
  | error e =>
    rw [hRead] at hSome
    cases hSome
  | ok read =>
    rw [hRead] at hSome
    cases hSome
    exact ⟨ts, rfl, hSpans, (tokenize_tiles {} commented (ascii "m.c")).2 ts hRead⟩

end Lexer

end CCompiler
