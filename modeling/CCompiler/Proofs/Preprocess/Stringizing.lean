import Mathlib
import CCompiler.Proofs.Preprocess.Quiet
import CCompiler.Proofs.Token.LiteralTokens

/-
  Arguments as string literals.

  The spelling of an argument is put between quotes, with a
  backslash before every quote and backslash of a literal in
  it.  What is read from there is one string, whose characters
  are those of the argument.

  Main declarations:
    * `Literal.Protects`
    * `Lexer.lexFile_protected`
    * `Substitution.protects_spellings`
    * `Substitution.stringize_inverts`
-/

------------
-- Protected Bytes
------------

namespace CCompiler

namespace Literal

variable {a b s enc raw : Bytes} {x : UInt8} {n : Nat}

/-
  Bytes as they are written between quotes: those that would
  end or change a literal stand behind a backslash.
-/
inductive Protects : Bytes → Bytes → Prop
| nil :
    Protects [] []
| plain {x : UInt8} {enc raw : Bytes}
    (hByte : x ≠ 0x22 ∧ x ≠ 0x5C ∧ x ≠ 0x0A)
    (hRest : Protects enc raw) :
    Protects (x :: enc) (x :: raw)
| escaped {x : UInt8} {enc raw : Bytes}
    (hByte : x = 0x22 ∨ x = 0x5C)
    (hRest : Protects enc raw) :
    Protects (0x5C :: x :: enc) (x :: raw)

theorem Protects.append (hFirst : Protects a b) (hSecond : Protects enc raw) :
    Protects (a ++ enc) (b ++ raw) := by
  induction hFirst with
  | nil => exact hSecond
  | plain hByte _ ih => exact .plain hByte ih
  | escaped hByte _ ih => exact .escaped hByte ih

theorem Protects.inner (hInner : Inner s) : Protects s s := by
  induction s with
  | nil => exact .nil
  | cons x s ih =>
    rw [Inner, List.forall_mem_cons] at hInner
    exact .plain hInner.1 (ih hInner.2)

/- Protected bytes go on to the quote behind them. -/
theorem Protects.closed (hProtects : Protects enc raw) :
    bodyLength? (enc ++ [0x22]) = some enc.length := by
  induction hProtects with
  | nil => rfl
  | plain hByte _ ih =>
    rw [List.cons_append, bodyLength?, ih]
    · rfl
    · exact hByte.1
    · exact hByte.2.2
    · intro _ _ hSlash
      exact absurd hSlash hByte.2.1
  | @escaped x enc _ _ _ ih =>
    change (bodyLength? (enc ++ [0x22])).map (· + 2) = _
    rw [ih]
    rfl

/- They are read as the bytes that they stand for. -/
theorem Protects.decoded (hProtects : Protects enc raw) : decodeElements .char n enc = .ok raw := by
  induction hProtects generalizing n with
  | nil => rw [decodeElements]
  | plain hByte _ ih =>
    rw [decodeElements, beq_backslash hByte.2.1, if_neg Bool.false_ne_true, if_pos (by decide), ih]
    rfl
  | @escaped x enc _ hByte _ ih =>
    have hEscape : readEscape (x :: enc) = .ok (Int32.ofNat x.toNat, 1) := by
      rcases hByte with rfl | rfl <;> rfl
    have hUnit : unitBytes .char [(Int32.ofNat x.toNat).toUInt32] = [x] := by
      rcases hByte with rfl | rfl <;> decide
    rw [decodeElements, if_pos (by decide), hEscape]
    change (decodeElements .char _ enc).map _ = _
    rw [ih, hUnit]
    rfl

end Literal

------------
-- Reading Protected Bytes
------------

namespace Lexer

open Literal

variable {enc raw : Bytes}

/- A file of protected bytes between quotes is one string. -/
theorem lexFile_protected (cfg : Config) (f : SourceFile) (shownName : Bytes)
    (hProtects : Protects enc raw) (hText : f.contents = 0x22 :: (enc ++ [0x22])) :
    ∃ t eof, (lexFile cfg f shownName).result = .ok [t, eof] ∧
      t.kind = .str .char (raw ++ [0]) ∧ eof.isEof = true := by
  -- The token as a text would hold it if it were printed.
  let t : Token := { (default : Token) with
    kind := .str .char (raw ++ [0])
    text := 0x22 :: (enc ++ [0x22]) }
  have hRead : (lexeme cfg (t.text ++ [])).2 = .ok ⟨t.kind, t.text.length - 1⟩ := by
    have hNumber : startsNumber t.text = false := by
      change startsNumber (0x22 :: (enc ++ [0x22])) = false
      cases enc <;> rfl
    have hLength : t.text.length - 1 = 0 + enc.length + 1 := by simp [t]
    have hString : stringLexeme .char 0 (enc ++ [0x22]) = .ok ⟨t.kind, t.text.length - 1⟩ := by
      unfold stringLexeme
      rw [hProtects.closed]
      simp only
      rw [List.take_left, decodeBody, hProtects.decoded, hLength]
      rfl
    rw [List.append_nil]
    unfold lexeme
    rw [hNumber]
    exact hString
  have hBare : Bare (t.text ++ []) := by
    rw [List.append_nil]
    refine ⟨?_, ?_, ?_⟩
    · rintro ⟨tail, hSame⟩
      cases hSame
    · rintro ⟨tail, hSame⟩
      cases hSame
    · intro c hc
      cases hc
      decide
  have hStands : Stands cfg t [] := ⟨List.cons_ne_nil _ _, hBare, hRead⟩
  rcases next_printed f shownName true hStands
    (c := ⟨0, 1, f.contents⟩) (by rw [List.append_nil]; exact hText) with
      ⟨u, c', hNext, hMore, hRest, hCore⟩
  rcases reads_nothing cfg f shownName false hRest with
    ⟨eof, hLast, hEof⟩
  exact ⟨u, eof, (lexFile_reads cfg f shownName).unique
    (.more hNext hMore hLast), congrArg Prod.fst hCore, hEof⟩

end Lexer

------------
-- Spellings
------------

namespace Substitution

open Literal
open Lexer (Alone inner_of_alone)
open Expansion (bind_ok)

variable {cfg : Config} {t : Token} {ts : List Token} {s : Bytes}

/- Escaped bytes stand for the bytes themselves. -/
theorem protects_escape (hNewline : 0x0A ∉ s) : Protects (escape s) s := by
  induction s with
  | nil => exact .nil
  | cons x s ih =>
    rw [List.mem_cons, not_or] at hNewline
    have hRest := ih hNewline.2
    rw [escape, List.flatMap_cons]
    split
    · rename_i hSpecial
      refine .escaped ?_ hRest
      rw [Bool.or_eq_true, beq_iff_eq, beq_iff_eq] at hSpecial
      exact hSpecial.symm
    · rename_i hPlain
      rw [Bool.or_eq_true, beq_iff_eq, beq_iff_eq, not_or] at hPlain
      exact .plain ⟨hPlain.2, hPlain.1, Ne.symm hNewline.1⟩ hRest

/- The spelling of a token in a string stands for its text. -/
theorem protects_spelling (hAlone : Alone cfg t) (hSlash : t.text ≠ [0x5C])
    (hNewline : 0x0A ∉ t.text) : Protects (spelling t) t.text := by
  unfold spelling
  split
  · exact protects_escape hNewline
  · rename_i hPlain
    rw [Bool.or_eq_true, not_or, Bool.not_eq_true] at hPlain
    refine .inner (inner_of_alone hAlone hPlain.1 ?_ hSlash)
    intro hQuote
    exact hPlain.2 (List.contains_iff_mem.mpr hQuote)

/- Blanks between tokens are spelled as single spaces. -/
theorem protects_later (hAlone : ∀ t ∈ ts, Alone cfg t) (hSlash : ∀ t ∈ ts, t.text ≠ [0x5C])
    (hNewline : ∀ t ∈ ts, 0x0A ∉ t.text) :
    Protects (ts.flatMap fun t =>
        if t.spaced then Bytes.of ' ' :: spelling t else spelling t)
      (ts.flatMap fun t =>
        if t.spaced then Bytes.of ' ' :: t.text else t.text) := by
  induction ts with
  | nil => exact .nil
  | cons t ts ih =>
    rw [List.forall_mem_cons] at hAlone hSlash hNewline
    have hFirst := protects_spelling hAlone.1 hSlash.1 hNewline.1
    have hRest := ih hAlone.2 hSlash.2 hNewline.2
    rw [List.flatMap_cons, List.flatMap_cons]
    split
    · exact .plain (by decide) (hFirst.append hRest)
    · exact hFirst.append hRest

/- The spelling of an argument stands for its joined texts. -/
theorem protects_spellings {arg : List Token} (hAlone : ∀ t ∈ arg, t.isEof = false → Alone cfg t)
    (hSlash : ∀ t ∈ arg, t.text ≠ [0x5C]) (hNewline : ∀ t ∈ arg, 0x0A ∉ t.text) :
    Protects (spellings (arg.takeWhile (!·.isEof))) (Token.joinText arg) := by
  have hMem : ∀ t ∈ arg.takeWhile (!·.isEof), t ∈ arg ∧ t.isEof = false := by
    intro t ht
    exact ⟨(List.takeWhile_prefix _).subset ht, by simpa using List.mem_takeWhile_imp ht⟩
  unfold Token.joinText
  generalize arg.takeWhile (!·.isEof) = ts at hMem
  cases ts with
  | nil => exact .nil
  | cons t ts =>
    rw [List.forall_mem_cons] at hMem
    exact (protects_spelling (hAlone t hMem.1.1 hMem.1.2)
      (hSlash t hMem.1.1) (hNewline t hMem.1.1)).append
        (protects_later (fun u hu => hAlone u (hMem.2 u hu).1 (hMem.2 u hu).2)
          (fun u hu => hSlash u (hMem.2 u hu).1)
          (fun u hu => hNewline u (hMem.2 u hu).1))

/- A text that is read as one token is made into that token. -/
theorem makeTokens_run {text : Bytes} {file : SourceFile} {s : Session} {eof : Token} (line : Int)
    (spaced : Bool)
    (hLex : (Lexer.lexFile s.cfg ⟨s.shown.size, file.name, file.number, text⟩
      (s.shown.getD file.id ⟨file.name, 0⟩).name).result = .ok [t, eof]) :
    ∃ messages, Pre.makeTokens text file line spaced s = .ok [{ t with
          line := line, atLineStart := false, spaced := spaced },
        { eof with line := line }]
        { s with
          shown := s.shown.push (s.shown.getD file.id ⟨file.name, 0⟩)
          messages := messages } := by
  let shown := s.shown.getD file.id ⟨file.name, 0⟩
  let f : SourceFile := ⟨s.shown.size, file.name, file.number, text⟩
  let s₁ : Session := { s with shown := s.shown.push shown }
  have hTokens : (Lexer.tokenize s₁.cfg f shown.name).tokens = .ok [t, eof] := by
    simp only [Lexer.tokenize, f, s₁, shown, hLex]
    rfl
  have hSay : ∃ messages, Pre.say (.warning (Lexer.tokenize s₁.cfg f shown.name).notices) s₁ =
        .ok () { s₁ with messages := messages } := by
    unfold Pre.say
    split
    · exact ⟨s₁.messages, rfl⟩
    · exact ⟨_, rfl⟩
  rcases hSay with ⟨messages, hSay⟩
  have hRead : Pre.tokenize f shown.name s₁ = .ok [t, eof] { s₁ with messages := messages } := by
    unfold Pre.tokenize
    rw [bind_ok (show (get : Pre Session) s₁ = .ok s₁ s₁ from rfl), bind_ok hSay, hTokens]
    rfl
  refine ⟨messages, ?_⟩
  unfold Pre.makeTokens
  rw [bind_ok (show (get : Pre Session) s = .ok s s from rfl),
    bind_ok (show Pre.addText file.name file.number text shown s =
      .ok f s₁ from rfl), bind_ok hRead]
  rfl

/- Protected bytes between quotes are made into one string. -/
theorem makeTokens_protected {enc raw : Bytes} (hProtects : Protects enc raw) (file : SourceFile)
    (line : Int) (spaced : Bool) (s : Session) :
    ∃ t eof s', Pre.makeTokens (0x22 :: (enc ++ [0x22])) file line spaced s = .ok [t, eof] s' ∧
      t.kind = .str .char (raw ++ [0]) ∧ eof.isEof = true := by
  rcases Lexer.lexFile_protected s.cfg ⟨s.shown.size, file.name, file.number, _⟩
    (s.shown.getD file.id ⟨file.name, 0⟩).name hProtects rfl with
    ⟨t, eof, hResult, hKind, hEof⟩
  rcases makeTokens_run line spaced hResult with ⟨messages, hRun⟩
  exact ⟨_, _, _, hRun, hKind, hEof⟩

/-
  The string that an argument becomes holds the joined texts of
  the argument: reading it undoes what was escaped.
-/
theorem stringize_inverts (cfg : Config) (hash : Token) (arg : List Token) (s : Session)
    (hAlone : ∀ t ∈ arg, t.isEof = false → Alone cfg t) (hSlash : ∀ t ∈ arg, t.text ≠ ascii "\\")
    (hNewline : ∀ t ∈ arg, Bytes.of '\n' ∉ t.text) :
    ∃ t eof s', Pre.makeTokens (ascii "\"" ++ spellings (arg.takeWhile (!·.isEof)) ++
          ascii "\"") hash.file hash.line hash.spaced s =
        .ok [t, eof] s' ∧ eof.isEof = true ∧ stringize hash arg s = .ok t s' ∧
      t.kind = .str .char (Token.joinText arg ++ [0]) := by
  rcases makeTokens_protected (protects_spellings hAlone hSlash hNewline) hash.file hash.line
    hash.spaced s with ⟨t, eof, s', hMade, hKind, hEof⟩
  refine ⟨t, eof, s', hMade, hEof, ?_, hKind⟩
  unfold stringize Pre.makeToken
  exact bind_ok hMade

/- A string and a constant with escapes, and a sum. -/
def escapes : SourceFile :=
  ⟨0, ascii "m.c", 1, ascii "L\"\\\"\" '\\\\'+\t1"⟩

theorem stringize_inverts_escapes :
    ∃ arg t s', (Lexer.tokenize {} escapes (ascii "m.c")).tokens = .ok arg ∧
      (∀ t ∈ arg, t.isEof = false → Alone {} t) ∧
      (∀ t ∈ arg, t.text ≠ ascii "\\") ∧ (∀ t ∈ arg, Bytes.of '\n' ∉ t.text) ∧
      stringize default arg {} = .ok t s' ∧ t.kind =
        .str .char (ascii "L\"\\\"\" '\\\\'+ 1" ++ [0]) := by
  have hCheck : (Lexer.tokenize {} escapes (ascii "m.c")).tokens.toOption.map (fun ts =>
        (Token.joinText ts, ts.all fun t => t.text != ascii "\\",
          ts.all fun t => !t.text.contains (Bytes.of '\n'))) =
      some (ascii "L\"\\\"\" '\\\\'+ 1", true, true) := by
    decide +kernel
  rcases Option.map_eq_some_iff.mp hCheck with ⟨arg, hSome, hAll⟩
  cases hRead : (Lexer.tokenize {} escapes (ascii "m.c")).tokens with
  | error e =>
    rw [hRead] at hSome
    cases hSome
  | ok read =>
    rw [hRead] at hSome
    cases hSome
    simp only [Prod.mk.injEq, List.all_eq_true] at hAll
    rcases hAll with ⟨hText, hSlash, hNewline⟩
    have hAlone : ∀ t ∈ arg, t.isEof = false → Alone {} t :=
      fun t hMem hMore => Lexer.alone_of_tokenize hRead hMem hMore
    have hOther : ∀ t ∈ arg, t.text ≠ ascii "\\" := fun t hMem => by simpa using hSlash t hMem
    have hLine : ∀ t ∈ arg, Bytes.of '\n' ∉ t.text := fun t hMem => by simpa using hNewline t hMem
    rcases stringize_inverts {} default arg {} hAlone hOther hLine
      with ⟨t, -, s', -, -, hRun, hKind⟩
    rw [hText] at hKind
    exact ⟨arg, t, s', rfl, hAlone, hOther, hLine, hRun, hKind⟩

end Substitution

end CCompiler
