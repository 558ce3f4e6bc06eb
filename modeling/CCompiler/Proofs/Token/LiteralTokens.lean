import Mathlib
import CCompiler.Proofs.Token.Fusing
import CCompiler.Proofs.Token.StringLiterals
import CCompiler.Proofs.Preprocess.Made

/-
  String literals as they are read.

  A string token is spelled by its letters, a quote, a body
  and a quote.  The letters say the type of its elements, and
  its bytes are those of the body in that type.  A token that
  is no literal has no byte that means something in one.

  Main declarations:
    * `Literal.bodyLength?_split`
    * `Lexer.lexeme_cases`, `Lexer.alone_of_tokenize`
    * `Lexer.IsLiteral`, `Lexer.exists_literal`
    * `Lexer.inner_of_alone`
-/

------------
-- Bytes of Characters
------------

namespace CCompiler

namespace Utf8

variable {n c d : Nat} {b : UInt8} {s rest more : Bytes}

theorem continuations?_bytes (hRead : continuations? n c s = some (d, rest)) :
    ∃ p, s = p ++ rest ∧ ∀ x ∈ p, ¬ x < 0x80 := by
  induction n generalizing c s with
  | zero =>
    cases hRead
    exact ⟨[], rfl, List.forall_mem_nil _⟩
  | succ n ih =>
    cases s with
    | nil => cases hRead
    | cons b s =>
      rw [continuations?] at hRead
      cases hBits : payload? b with
      | none =>
        rw [hBits] at hRead
        cases hRead
      | some bits =>
        rw [hBits] at hRead
        rcases ih hRead with ⟨p, rfl, hHigh⟩
        refine ⟨b :: p, rfl, List.forall_mem_cons.mpr ⟨fun hLow => ?_, hHigh⟩⟩
        rw [payload?_of_lt hLow] at hBits
        cases hBits

/- A character is its first byte and bytes beyond the ASCII ones. -/
theorem decode?_bytes (hRead : decode? (b :: s) = some (c, rest)) :
    ∃ p, s = p ++ rest ∧ ∀ x ∈ p, ¬ x < 0x80 := by
  rw [decode?] at hRead
  split at hRead
  · cases hRead
    exact ⟨[], rfl, List.forall_mem_nil _⟩
  split at hRead
  · exact continuations?_bytes hRead
  split at hRead
  · exact continuations?_bytes hRead
  split at hRead
  · exact continuations?_bytes hRead
  · cases hRead

end Utf8

------------
-- Bodies
------------

namespace Literal

variable {a b s : Bytes} {n : Nat} {x : UInt8}

/- A body is followed by the quote that ends it. -/
theorem bodyLength?_split (hLength : bodyLength? s = some n) :
    ∃ body rest, s = body ++ 0x22 :: rest ∧ body.length = n ∧
      ∀ after, bodyLength? (body ++ 0x22 :: after) = some n := by
  induction s using bodyLength?.induct generalizing n with
  | case1 => cases hLength
  | case2 rest =>
    cases hLength
    exact ⟨[], rest, rfl, rfl, fun _ => rfl⟩
  | case3 rest => cases hLength
  | case4 b rest ih =>
    rcases Option.map_eq_some_iff.mp hLength with ⟨k, hRest, rfl⟩
    rcases ih hRest with ⟨body, more, rfl, rfl, hAgain⟩
    refine ⟨0x5C :: b :: body, more, rfl, rfl, fun after => ?_⟩
    change (bodyLength? (body ++ 0x22 :: after)).map (· + 2) = _
    rw [hAgain]
    rfl
  | case5 b rest hQuote hNewline hEscape ih =>
    have hStep : ∀ after, (b = 0x5C → after = []) → bodyLength? (b :: after) =
          (bodyLength? after).map (· + 1) := by
      intro after hLast
      rw [bodyLength?]
      · exact hQuote
      · exact hNewline
      · rintro c more hByte rfl
        cases hLast hByte
    have hLast : b = 0x5C → rest = [] := by
      intro hByte
      cases rest with
      | nil => rfl
      | cons c more => exact absurd rfl (hEscape c more hByte)
    rw [hStep rest hLast] at hLength
    rcases Option.map_eq_some_iff.mp hLength with ⟨k, hRest, rfl⟩
    rcases ih hRest with ⟨body, more, rfl, rfl, hAgain⟩
    refine ⟨b :: body, more, rfl, rfl, fun after => ?_⟩
    rw [List.cons_append, hStep _ fun hByte => absurd (hLast hByte) (by simp), hAgain]
    rfl

theorem Inner.append (hFirst : Inner a) (hSecond : Inner b) : Inner (a ++ b) :=
  List.forall_mem_append.mpr ⟨hFirst, hSecond⟩

/- A byte that means nothing between quotes. -/
theorem inner_iff : Inner [x] ↔ x ≠ 0x22 ∧ x ≠ 0x5C ∧ x ≠ 0x0A := List.forall_mem_singleton

/- Bytes beyond the ASCII ones mean nothing in a literal. -/
theorem inner_high (hHigh : ∀ b ∈ s, ¬ b < 0x80) : Inner s := by
  intro b hMem
  have hByte := hHigh b hMem
  refine ⟨?_, ?_, ?_⟩ <;> exact fun hSame => hByte (hSame ▸ by decide)

end Literal

------------
-- Tokens
------------

namespace Lexer

open Literal

variable {cfg : Config} {t : Token} {lx : Lexeme}
  {elem : LitType} {skip : Nat} {s : Bytes}

/-
  A string token with its letters, the type of its elements
  and what is between its quotes.
-/
structure IsLiteral
    (t : Token)
    (mark : Bytes)
    (elem : LitType)
    (body : Bytes) : Prop where
  known : (mark, elem) ∈ encodings
  text : t.text = mark ++ 0x22 :: (body ++ [0x22])
  closed : bodyLength? (body ++ [0x22]) = some body.length
  decoded : ∃ base bytes, t.kind = .str elem bytes ∧
    decodeBody elem base body = .ok bytes

/- What has been read as a string is a body between quotes. -/
theorem exists_body (hLexeme : stringLexeme elem skip s = .ok lx) :
    ∃ body rest bytes, s = body ++ 0x22 :: rest ∧ bodyLength? (body ++ [0x22]) = some body.length ∧
      decodeBody elem (skip + 1) body = .ok bytes ∧
      lx = ⟨.str elem bytes, skip + body.length + 1⟩ := by
  unfold stringLexeme at hLexeme
  cases hLength : bodyLength? s with
  | none =>
    rw [hLength] at hLexeme
    cases hLexeme
  | some n =>
    rw [hLength] at hLexeme
    rcases bodyLength?_split hLength with
      ⟨body, rest, rfl, rfl, hAgain⟩
    simp only [List.take_left] at hLexeme
    cases hBytes : decodeBody elem (skip + 1) body with
    | error e =>
      rw [hBytes] at hLexeme
      cases hLexeme
    | ok bytes =>
      rw [hBytes] at hLexeme
      cases hLexeme
      exact ⟨body, rest, bytes, rfl, hAgain [], hBytes, rfl⟩

/- A string at the start of a text. -/
theorem exists_string (hLiteral : literal? s = some (.ok lx)) (hStr : lx.kind.isStr = true) :
    ∃ mark elem rest, (mark, elem) ∈ encodings ∧ s = mark ++ 0x22 :: rest ∧
      stringLexeme elem mark.length rest = .ok lx := by
  unfold literal? at hLiteral
  split at hLiteral
  · exact ⟨[], .char, _, by decide, rfl, Option.some.inj hLiteral⟩
  · exact ⟨ascii "u8", .char, _, by decide, rfl, Option.some.inj hLiteral⟩
  · exact ⟨ascii "u", .ushort, _, by decide, rfl, Option.some.inj hLiteral⟩
  · exact ⟨ascii "L", .int, _, by decide, rfl, Option.some.inj hLiteral⟩
  · exact ⟨ascii "U", .uint, _, by decide, rfl, Option.some.inj hLiteral⟩
  iterate 4
    · rcases kind_charLexeme (Option.some.inj hLiteral) with
        ⟨v, hKind⟩
      rw [hKind] at hStr
      cases hStr
  · cases hLiteral

/- What a token is read by. -/
theorem lexeme_cases (hLexeme : (lexeme cfg s).2 = .ok lx) :
    (startsNumber s = true ∧ lx = ⟨.ppNum, numberTail s.tail⟩) ∨
    literal? s = some (.ok lx) ∨ (0 < (word cfg s).length ∧
      lx = ⟨.ident, (word cfg s).length - 1⟩) ∨ literal? s = none ∧
      ∃ n, punctLength? s = some n ∧ lx = ⟨.punct, n - 1⟩ := by
  unfold lexeme at hLexeme
  split at hLexeme
  · rename_i hNumber
    cases hLexeme
    exact .inl ⟨hNumber, rfl⟩
  split at hLexeme
  · rename_i r hLiteral
    exact .inr (.inl (hLiteral.trans (congrArg some hLexeme)))
  rename_i hLiteral
  simp only at hLexeme
  split at hLexeme
  · cases hLexeme
  split at hLexeme
  · rename_i hWord
    cases hLexeme
    exact .inr (.inr (.inl ⟨hWord, rfl⟩))
  split at hLexeme
  · rename_i n hPunct
    cases hLexeme
    exact .inr (.inr (.inr ⟨hLiteral, n, hPunct, rfl⟩))
  · cases hLexeme

/- A token that is read as a string is a literal. -/
theorem exists_literal (hAlone : Alone cfg t) (hStr : t.kind.isStr = true) :
    ∃ mark elem body, IsLiteral t mark elem body := by
  have hLiteral : literal? (t.text ++ [0x0A]) = some (.ok ⟨t.kind, t.text.length - 1⟩) := by
    have hOther : ∀ {k : TokenKind} {n : Nat}, (⟨t.kind, t.text.length - 1⟩ : Lexeme) = ⟨k, n⟩ →
          k.isStr = true := by
      intro k n hSame
      have hKind : t.kind = k := congrArg Lexeme.kind hSame
      rwa [← hKind]
    rcases lexeme_cases hAlone.read with
      ⟨-, hKind⟩ | hLiteral | ⟨-, hKind⟩ | ⟨-, n, -, hKind⟩
    · cases hOther hKind
    · exact hLiteral
    · cases hOther hKind
    · cases hOther hKind
  rcases exists_string hLiteral hStr with
    ⟨mark, elem, rest, hKnown, hText, hString⟩
  rcases exists_body hString with
    ⟨body, more, bytes, rfl, hClosed, hBytes, hLexeme⟩
  have hKind : t.kind = .str elem bytes := congrArg Lexeme.kind hLexeme
  have hExtra : t.text.length - 1 = mark.length + body.length + 1 := congrArg Lexeme.extra hLexeme
  refine ⟨mark, elem, body, hKnown, ?_, hClosed, _, bytes, hKind, hBytes⟩
  have hPos := List.length_pos_iff.mpr hAlone.some
  rw [show mark ++ 0x22 :: (body ++ 0x22 :: more) =
    (mark ++ 0x22 :: (body ++ [0x22])) ++ more by simp] at hText
  refine (List.append_inj hText ?_).1
  simp only [List.length_append, List.length_cons, List.length_nil]
  omega

/- The tokens of a text are read by themselves. -/
theorem alone_of_tokenize {f : SourceFile} {shownName : Bytes} {ts : List Token}
    (hTokens : (tokenize cfg f shownName).tokens = .ok ts) (hMem : t ∈ ts)
    (hMore : t.isEof = false) : Alone cfg t := by
  have hOk : (lexFile cfg f shownName).result = .ok ts := by
    simp only [tokenize] at hTokens
    cases hResult : (lexFile cfg f shownName).result with
    | error e =>
      rw [hResult] at hTokens
      cases hTokens
    | ok us =>
      rw [hResult] at hTokens
      cases hTokens
      rfl
  rcases (lexFile_reads cfg f shownName).stand hOk with
    ⟨body, eof, rfl, hEof, -, hStand, -⟩
  rcases List.mem_append.mp hMem with hBody | hLast
  · exact hStand.alone t hBody
  · rw [List.mem_singleton.mp hLast, hEof] at hMore
    cases hMore

------------
-- Tokens Without Quotes
------------

/- A number goes on with digits, letters, points and signs. -/
theorem inner_numberTail (s : Bytes) : Inner (s.take (numberTail s)) := by
  have hPart : ∀ c : UInt8, (Bytes.isDigit c || Bytes.isLetter c ||
      c == Bytes.of '.') = true → Inner [c] := by
    intro c hPart
    rw [inner_iff]
    refine ⟨?_, ?_, ?_⟩ <;> rintro rfl <;> exact absurd hPart (by decide)
  have hExponent : ∀ c : UInt8, (ascii "eEpP").contains c = true → Inner [c] := by
    intro c hPart
    rw [inner_iff]
    refine ⟨?_, ?_, ?_⟩ <;> rintro rfl <;> exact absurd hPart (by decide)
  have hSign : ∀ c : UInt8, (c == Bytes.of '+' || c == Bytes.of '-') = true → Inner [c] := by
    intro c hPart
    rw [inner_iff]
    refine ⟨?_, ?_, ?_⟩ <;> rintro rfl <;> exact absurd hPart (by decide)
  fun_induction numberTail s with
  | case1 => exact List.forall_mem_nil _
  | case2 c hMore => exact hPart c hMore
  | case3 c => exact List.forall_mem_nil _
  | case4 c d rest hSigned ih =>
    rw [Bool.and_eq_true] at hSigned
    exact (hExponent c hSigned.1).append ((hSign d hSigned.2).append ih)
  | case5 c d rest _ hMore ih => exact (hPart c hMore).append ih
  | case6 c d rest => exact List.forall_mem_nil _

variable {b : UInt8}

/- A number starts with a digit or a point. -/
theorem inner_start (hNumber : startsNumber (b :: s) = true) : Inner [b] := by
  have hFirst : (Bytes.isDigit b || b == Bytes.of '.') = true := by
    cases s with
    | nil =>
      rw [startsNumber] at hNumber
      rw [hNumber, Bool.true_or]
    | cons c s =>
      rw [startsNumber] at hNumber
      rcases Bool.or_eq_true_iff.mp hNumber with hDigit | hPoint
      · rw [hDigit, Bool.true_or]
      · rw [(Bool.and_eq_true_iff.mp hPoint).1, Bool.or_true]
  rw [inner_iff]
  refine ⟨?_, ?_, ?_⟩ <;> rintro rfl <;> exact absurd hFirst (by decide)

/- A character of a name. -/
theorem inner_character {c : Nat} {rest : Bytes} (hChar : Utf8.decode? (b :: s) = some (c, rest))
    (hPart : CharClass.isIdentPart c = true) :
    ∃ p, b :: s = p ++ rest ∧ p.length = Utf8.leadLength b ∧ Inner p := by
  have hLength := Utf8.decode?_length hChar
  rcases Utf8.decode?_bytes hChar with ⟨p, rfl, hHigh⟩
  rw [List.length_append] at hLength
  refine ⟨b :: p, rfl, by rw [List.length_cons]; omega,
    Inner.append (a := [b]) ?_ (inner_high hHigh)⟩
  by_cases hLow : b < 0x80
  · have hByte : c = b.toNat := by
      rw [Utf8.decode?, if_pos hLow] at hChar
      exact (congrArg Prod.fst (Option.some.inj hChar)).symm
    rw [hByte] at hPart
    rw [inner_iff]
    refine ⟨?_, ?_, ?_⟩ <;> rintro rfl <;> exact absurd hPart (by decide)
  · exact inner_high (List.forall_mem_singleton.mpr hLow)

theorem inner_wordTail (cfg : Config) (base : Nat) (s : Bytes) :
    ∃ p rest, s = p ++ rest ∧ Inner p ∧ (wordTail cfg base s).length = base + p.length := by
  have hNone : ∀ base (s : Bytes), ∃ p rest, s = p ++ rest ∧ Inner p ∧ base = base + p.length :=
    fun base s => ⟨[], s, rfl, List.forall_mem_nil _, rfl⟩
  fun_induction wordTail cfg base s with
  | case1 base => exact hNone base []
  | case2 base b tail hDecode => exact hNone base _
  | case3 base b tail c rest hDecode hShort hPart w ih =>
    rw [Bool.and_eq_true] at hPart
    rcases inner_character hDecode hPart.1 with
      ⟨p, hText, hSize, hInner⟩
    rcases ih with ⟨q, more, rfl, hMore, hLength⟩
    refine ⟨p ++ q, more, by rw [hText, List.append_assoc], hInner.append hMore, ?_⟩
    change w.length = _
    rw [hLength, List.length_append, hSize]
    omega
  | case4 base b tail c rest hDecode hShort hPart => exact hNone base _

/- A word consists of such characters. -/
theorem inner_word (cfg : Config) (s : Bytes) : Inner (s.take (word cfg s).length) := by
  cases s with
  | nil => exact List.forall_mem_nil _
  | cons b s =>
  cases hDecode : Utf8.decode? (b :: s) with
  | none =>
    unfold word
    rw [hDecode]
    exact List.forall_mem_nil _
  | some r =>
    rcases r with ⟨c, rest⟩
    rw [word_cons cfg hDecode]
    split
    · rename_i hStart
      rw [Bool.and_eq_true] at hStart
      have hPart : CharClass.isIdentPart c = true := by
        rw [CharClass.isIdentPart, hStart.1, Bool.true_or]
      rcases inner_character hDecode hPart with
        ⟨p, hText, hSize, hInner⟩
      rcases inner_wordTail cfg (Utf8.leadLength b) rest with
        ⟨q, more, rfl, hMore, hLength⟩
      have hTake : (p ++ (q ++ more)).take (p.length + q.length) = p ++ q := by
        rw [← List.append_assoc, ← List.length_append, List.take_left]
      change Inner ((b :: s).take (wordTail cfg (Utf8.leadLength b) (q ++ more)).length)
      rw [hLength, hText, ← hSize, hTake]
      exact hInner.append hMore
    · exact List.forall_mem_nil _

variable {n : Nat}

theorem punctLength?_pos (hPunct : punctLength? s = some n) : 0 < n := by
  unfold punctLength? at hPunct
  split at hPunct
  · rename_i p hFind
    have hLong : ∀ p ∈ longPuncts, 0 < p.length := by decide +kernel
    cases hPunct
    exact hLong p (List.mem_of_find?_eq_some hFind)
  · split at hPunct
    · split at hPunct
      · cases hPunct
        exact Nat.one_pos
      · cases hPunct
    · cases hPunct

/- A sign other than the backslash. -/
theorem inner_punct (hLiteral : literal? s = none) (hPunct : punctLength? s = some n)
    (hSlash : s.take n ≠ [0x5C]) : Inner (s.take n) := by
  unfold punctLength? at hPunct
  split at hPunct
  · rename_i p hFind
    have hLong : ∀ p ∈ longPuncts, Inner p := by
      unfold Literal.Inner
      decide +kernel
    cases hPunct
    rcases Bytes.startsWith_iff.mp (List.find?_some hFind) with ⟨rest, rfl⟩
    rw [List.take_left]
    exact hLong p (List.mem_of_find?_eq_some hFind)
  · split at hPunct
    · rename_i b rest
      split at hPunct
      · rename_i hSign
        cases hPunct
        rw [List.take_succ_cons, List.take_zero] at hSlash ⊢
        rw [inner_iff]
        refine ⟨?_, ?_, ?_⟩
        · rintro rfl
          cases hLiteral
        · rintro rfl
          exact hSlash rfl
        · rintro rfl
          exact absurd hSign (by decide)
      · cases hPunct
    · cases hPunct

/- A literal that is no string has a single quote. -/
theorem quote_of_literal (hLiteral : literal? s = some (.ok lx)) (hStr : lx.kind.isStr = false) :
    0x27 ∈ s.take (lx.extra + 1) := by
  have hString : ∀ {elem : LitType} {skip : Nat} {body : Bytes},
      stringLexeme elem skip body = .ok lx → False := by
    intro elem skip body hLexeme
    rcases kind_stringLexeme hLexeme with ⟨bytes, hKind⟩
    rw [hKind] at hStr
    cases hStr
  unfold literal? at hLiteral
  split at hLiteral
  iterate 5 exact (hString (Option.some.inj hLiteral)).elim
  iterate 4
    have hPast := charLexeme_past (Option.some.inj hLiteral)
    rcases Nat.exists_eq_add_of_lt hPast with ⟨k, hExtra⟩
    rw [hExtra]
    simp [List.take_succ_cons]
  cases hLiteral

/-
  A token that is no literal, a lone backslash excepted, holds
  no byte that means something between quotes.
-/
theorem inner_of_alone (hAlone : Alone cfg t) (hStr : t.kind.isStr = false)
    (hChar : 0x27 ∉ t.text) (hSlash : t.text ≠ [0x5C]) : Inner t.text := by
  have hPos := List.length_pos_iff.mpr hAlone.some
  have hWhole : ∀ {k : TokenKind} {n : Nat}, (⟨t.kind, t.text.length - 1⟩ : Lexeme) = ⟨k, n⟩ →
        t.text = (t.text ++ [0x0A]).take (n + 1) := by
    intro k n hSame
    have hExtra : t.text.length - 1 = n := congrArg Lexeme.extra hSame
    rw [← hExtra, Nat.sub_add_cancel hPos, List.take_left]
  rcases lexeme_cases hAlone.read with
    ⟨hNumber, hSame⟩ | hLiteral | ⟨hWord, hSame⟩ | ⟨hLiteral, n, hPunct, hSame⟩
  · have hText := hWhole hSame
    cases hRest : t.text ++ [0x0A] with
    | nil => exact absurd hRest (by simp)
    | cons b rest =>
      rw [hRest] at hText hNumber
      rw [hText, List.take_succ_cons, List.tail_cons]
      exact Inner.append (a := [b]) (inner_start hNumber) (inner_numberTail rest)
  · have hQuote := quote_of_literal hLiteral hStr
    rw [Nat.sub_add_cancel hPos, List.take_left] at hQuote
    exact absurd hQuote hChar
  · have hText := hWhole hSame
    rw [Nat.sub_add_cancel hWord] at hText
    rw [hText]
    exact inner_word cfg _
  · have hText := hWhole hSame
    rw [Nat.sub_add_cancel (punctLength?_pos hPunct)] at hText
    rw [hText] at hSlash ⊢
    exact inner_punct hLiteral hPunct hSlash

end Lexer

end CCompiler
