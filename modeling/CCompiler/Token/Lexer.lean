import CCompiler.Token.Literal

/-
  This file reads preprocessing tokens from source text.
  Blanks and comments between tokens are skipped; of them a
  token keeps only whether it is the first of its line and
  whether something stood before it on the line.

  Key definitions include:
    * `Lexer.Cursor`, `Lexer.Gap`, `Lexer.skipBlanks`
    * `Lexer.Lexeme`, `Lexer.lexeme`
    * `Lexer.run`
    * `Lexer.tokenize`
-/

namespace CCompiler

namespace Lexer

------------
-- Blanks and comments
------------

/- A place in a text: its offset and line, and what follows it. -/
structure Cursor where
  offset : Nat
  line : Nat
  text : Bytes

namespace Cursor

/- The number of lines that bytes end. -/
def newlines (s : Bytes) : Nat :=
  s.countP (· == Bytes.of '\n')

/- The place after a number of bytes. -/
def advance (c : Cursor) (n : Nat) : Cursor :=
  ⟨c.offset + n, c.line + newlines (c.text.take n), c.text.drop n⟩

end Cursor

/- What lies before a token: the start of its line, or other blanks on it. -/
structure Gap where
  atLineStart : Bool
  spaced : Bool
deriving DecidableEq, Repr

/- The length of a block comment from after its opening to its end. -/
def blockLength? : Bytes → Option Nat
| [] => none
| 0x2A :: 0x2F :: _ => some 2
| _ :: rest => (blockLength? rest).map (· + 1)

/- The length of a line up to its newline. -/
def lineLength (s : Bytes) : Nat :=
  (s.takeWhile (· != Bytes.of '\n')).length

/-
  Skip blanks and comments.  Fails at a block comment that is
  not closed, with the offset of its start.
-/
def skipBlanks (gap : Gap) (c : Cursor) : Except Nat (Gap × Cursor) :=
  match h : c.text with
  | [] => .ok (gap, c)
  | 0x2F :: 0x2F :: tail => skipBlanks { gap with spaced := true } (c.advance (2 + lineLength tail))
  | 0x2F :: 0x2A :: tail =>
    match blockLength? tail with
    | none => .error c.offset
    | some n => skipBlanks { gap with spaced := true } (c.advance (2 + n))
  | b :: _ =>
    if b == Bytes.of '\n' then skipBlanks ⟨true, false⟩ (c.advance 1)
    else if Bytes.isSpace b then skipBlanks { gap with spaced := true } (c.advance 1)
    else .ok (gap, c)
termination_by c.text.length
decreasing_by
  all_goals
    simp only [Cursor.advance, List.length_drop, h, List.length_cons]
    omega

------------
-- Lexemes
------------

/- A kind and the number of bytes that follow the first one of the token. -/
structure Lexeme where
  kind : TokenKind
  extra : Nat
deriving Repr

/- The number of bytes by which a preprocessing number goes on. -/
def numberTail : Bytes → Nat
| [] => 0
| [c] => if Bytes.isDigit c || Bytes.isLetter c || c == Bytes.of '.' then 1 else 0
| c :: d :: rest =>
  if (ascii "eEpP").contains c && (d == Bytes.of '+' || d == Bytes.of '-') then
    numberTail rest + 2
  else if Bytes.isDigit c || Bytes.isLetter c || c == Bytes.of '.' then
    numberTail (d :: rest) + 1
  else 0

/- A string literal whose opening quote follows `skip` bytes of encoding letters. -/
def stringLexeme (elem : LitType) (skip : Nat) (body : Bytes) : Except LexError Lexeme :=
  match Literal.bodyLength? body with
  | none => .error ⟨.unclosedString, skip⟩
  | some n =>
    (Literal.decodeBody elem (skip + 1) (body.take n)).map fun bytes =>
      ⟨.str elem bytes, skip + n + 1⟩

/- The number of bytes up to the next single quote. -/
def quoteDistance? : Bytes → Option Nat
| [] => none
| b :: rest => if b == Bytes.of '\'' then some 0 else (quoteDistance? rest).map (· + 1)

/- The value of the first character of a character constant and its length. -/
def charValue (body : Bytes) : Except LexError (Int32 × Nat) :=
  match body with
  | [] => .error ⟨.unclosedChar, 0⟩
  | b :: tail =>
    if b == Bytes.of '\\' then
      match Literal.readEscape tail with
      | .error e => .error (e.shift 1)
      | .ok (v, k) => .ok (v, k + 1)
    else
      match Utf8.decode? body with
      | none => .error ⟨.invalidUtf8, 0⟩
      | some (c, _) => .ok (Int32.ofNat c, Utf8.leadLength b)

/-
  A character constant whose opening quote follows `skip`
  bytes of encoding letters.  Everything up to the next quote
  belongs to it; only the first character counts.
-/
def charLexeme
    (type : LitType)
    (skip : Nat)
    (fix : Int64 → Int64)
    (body : Bytes) : Except LexError Lexeme :=
  match charValue body with
  | .error ⟨.unclosedChar, _⟩ => .error ⟨.unclosedChar, 0⟩
  | .error e => .error (e.shift (skip + 1))
  | .ok (v, used) =>
    match quoteDistance? (body.drop used) with
    | none => .error ⟨.unclosedChar, skip + 1 + used⟩
    | some n => .ok ⟨.int type (fix v.toInt64), skip + used + n + 1⟩

/- The punctuators of two and three characters; earlier ones win. -/
def longPuncts : List Bytes :=
  ["<<=", ">>=", "...", "==", "!=", "<=", ">=", "->", "+=", "-=", "*=", "/=", "++", "--",
    "%=", "&=", "|=", "^=", "&&", "||", "<<", ">>", "##"].map ascii

/- The length of the punctuator at the start of a text. -/
def punctLength? (s : Bytes) : Option Nat :=
  match longPuncts.find? s.startsWith with
  | some p => some p.length
  | none =>
    match s with
    | b :: _ => if Bytes.isPunct b then some 1 else none
    | [] => none

------------
-- Identifiers
------------

/- A scanned word: its length and the offsets of the dollar signs to warn about. -/
structure Word where
  length : Nat
  dollars : List Nat
  error? : Option LexError := none

/- Whether a code point may stand in an identifier under the given settings. -/
def allowed (cfg : Config) (c : Nat) : Bool :=
  c != 0x24 || cfg.hasFeature .dollarIdents

/- The offsets to report for a code point. -/
def dollarAt (c offset : Nat) : List Nat :=
  if c == 0x24 then [offset] else []

/-
  The rest of an identifier.  The code point after it is
  looked at too, so malformed UTF-8 there is an error.
-/
def wordTail (cfg : Config) (base : Nat) (s : Bytes) : Word :=
  match s with
  | [] => ⟨base, [], none⟩
  | b :: tail =>
    match hd : Utf8.decode? (b :: tail) with
    | none => ⟨base, [], some ⟨.invalidUtf8, base⟩⟩
    | some (c, rest) =>
      have : rest.length < (b :: tail).length := Utf8.decode?_length_lt hd
      if CharClass.isIdentPart c && allowed cfg c then
        let w := wordTail cfg (base + Utf8.leadLength b) rest
        { w with dollars := dollarAt c base ++ w.dollars }
      else ⟨base, [], none⟩
termination_by s.length
decreasing_by assumption

/- The identifier at the start of a text; its length is zero if there is none. -/
def word (cfg : Config) (s : Bytes) : Word :=
  match s, Utf8.decode? s with
  | b :: _, some (c, rest) =>
    if CharClass.isIdentStart c && allowed cfg c then
      let w := wordTail cfg (Utf8.leadLength b) rest
      { w with dollars := dollarAt c 0 ++ w.dollars }
    else ⟨0, [], none⟩
  | _, _ => ⟨0, [], some ⟨.invalidUtf8, 0⟩⟩

------------
-- One token
------------

/- The sign extension of the low byte of a plain character constant. -/
def asChar (v : Int64) : Int64 :=
  v.toInt8.toInt64

/- The low sixteen bits of a value. -/
def asUShort (v : Int64) : Int64 :=
  v &&& 0xFFFF

/- A string or character literal at the start of a text, if one begins there. -/
def literal? (s : Bytes) : Option (Except LexError Lexeme) :=
  match s with
  | 0x22 :: body => some (stringLexeme .char 0 body)
  | 0x75 :: 0x38 :: 0x22 :: body => some (stringLexeme .char 2 body)
  | 0x75 :: 0x22 :: body => some (stringLexeme .ushort 1 body)
  | 0x4C :: 0x22 :: body => some (stringLexeme .int 1 body)
  | 0x55 :: 0x22 :: body => some (stringLexeme .uint 1 body)
  | 0x27 :: body => some (charLexeme .int 0 asChar body)
  | 0x75 :: 0x27 :: body => some (charLexeme .ushort 1 asUShort body)
  | 0x4C :: 0x27 :: body => some (charLexeme .int 1 id body)
  | 0x55 :: 0x27 :: body => some (charLexeme .uint 1 id body)
  | _ => none

/- Whether a preprocessing number starts a text. -/
def startsNumber : Bytes → Bool
| [] => false
| [b] => Bytes.isDigit b
| b :: c :: _ => Bytes.isDigit b || (b == Bytes.of '.' && Bytes.isDigit c)

/-
  The token at the start of a non-empty text, with the dollar
  signs to warn about.
-/
def lexeme (cfg : Config) (s : Bytes) : List Nat × Except LexError Lexeme :=
  if startsNumber s then ([], .ok ⟨.ppNum, numberTail s.tail⟩)
  else
    match literal? s with
    | some r => ([], r)
    | none =>
      let w := word cfg s
      match w.error? with
      | some e => (w.dollars, .error e)
      | none =>
        if w.length > 0 then (w.dollars, .ok ⟨.ident, w.length - 1⟩)
        else
          match punctLength? s with
          | some n => ([], .ok ⟨.punct, n - 1⟩)
          | none => ([], .error ⟨.invalidToken, 0⟩)

------------
-- Whole files
------------

/- The tokens of a text, or the error that ended it, with the dollar signs on the way. -/
structure Lexed where
  dollars : List Nat
  result : Except LexError (List Token)

/- A token of a file. -/
def makeToken
    (f : SourceFile)
    (shownName : Bytes)
    (gap : Gap)
    (kind : TokenKind)
    (offset line : Nat)
    (text : Bytes) : Token :=
  { kind := kind
    text := text
    offset := offset
    file := f
    filename := shownName
    line := line
    atLineStart := gap.atLineStart
    spaced := gap.spaced }

/- Read the tokens of the rest of a file. -/
def run
    (cfg : Config)
    (f : SourceFile)
    (shownName : Bytes)
    (fuel : Nat)
    (gap : Gap)
    (c : Cursor)
    (dollars : List Nat)
    (done : List Token) : Lexed :=
  match fuel with
  | 0 => ⟨dollars, .error ⟨.invalidToken, c.offset⟩⟩
  | fuel + 1 =>
    match skipBlanks gap c with
    | .error offset => ⟨dollars, .error ⟨.unclosedComment, offset⟩⟩
    | .ok (gap, c) =>
      if c.text.isEmpty then
        let eof := makeToken f shownName gap .eof c.offset (f.position c.offset).line []
        ⟨dollars, .ok (done.reverse ++ [eof])⟩
      else
        let (ds, r) := lexeme cfg c.text
        let dollars := dollars ++ ds.map (· + c.offset)
        match r with
        | .error e => ⟨dollars, .error (e.shift c.offset)⟩
        | .ok lx =>
          let n := lx.extra + 1
          let t := makeToken f shownName gap lx.kind c.offset c.line (c.text.take n)
          run cfg f shownName fuel ⟨false, false⟩ (c.advance n) dollars (t :: done)

/- The tokens of a file that is shown under a name. -/
def lexFile (cfg : Config) (f : SourceFile) (shownName : Bytes) : Lexed :=
  run cfg f shownName (f.contents.length + 1) ⟨true, false⟩ ⟨0, 1, f.contents⟩ [] []

/- What reading a file gives: the printed notices, and the tokens or a failure. -/
structure Reading where
  notices : Bytes
  tokens : Except Failure (List Token)

/- Read a file, with notices about dollar signs in identifiers. -/
def tokenize (cfg : Config) (f : SourceFile) (shownName : Bytes) : Reading :=
  let lexed := lexFile cfg f shownName
  let notice (offset : Nat) : Bytes :=
    Diagnostic.notice cfg .pedantic .dollarInIdentifier (Place.ofOffset f shownName offset)
  { notices := lexed.dollars.flatMap notice
    tokens := lexed.result.mapError fun e =>
      .fault e.cause (Place.ofOffset f shownName e.offset) }

end Lexer

end CCompiler
