import CCompiler.Token.Basic
import CCompiler.Text.Utf8

/-
  This file reads the insides of string and character
  literals: escape sequences, and the encoding of the elements
  of plain and wide strings.

  Key definitions include:
    * `LexError`
    * `Literal.readEscape`
    * `Literal.decodeBody`
    * `Literal.bodyLength?`
-/

namespace CCompiler

/- A fault of the source text and how far into the text it lies. -/
structure LexError where
  cause : Fault
  offset : Nat
deriving DecidableEq, Repr

/- The error as seen from a number of bytes further left. -/
def LexError.shift (n : Nat) (e : LexError) : LexError :=
  { e with offset := e.offset + n }

namespace Literal

------------
-- Escape sequences
------------

/- The value of up to `n` more octal digits, and how many there are. -/
def octalTail : Nat → Int32 → Bytes → Int32 × Nat
| 0, v, _ => (v, 0)
| _ + 1, v, [] => (v, 0)
| n + 1, v, b :: rest =>
  if Bytes.isOctal b then
    let (w, k) := octalTail n (v * 8 + Int32.ofNat (b.toNat - 48)) rest
    (w, k + 1)
  else (v, 0)

/- The value of hexadecimal digits as a 32-bit word, and how many there are. -/
def hexTail : Int32 → Bytes → Int32 × Nat
| v, [] => (v, 0)
| v, b :: rest =>
  match Bytes.hexValue? b with
  | some d =>
    let (w, k) := hexTail (v * 16 + Int32.ofNat d) rest
    (w, k + 1)
  | none => (v, 0)

/- The character that a letter stands for after a backslash. -/
def simpleEscape (b : UInt8) : UInt8 :=
  if b == Bytes.of 'a' then 7
  else if b == Bytes.of 'b' then 8
  else if b == Bytes.of 't' then 9
  else if b == Bytes.of 'n' then 10
  else if b == Bytes.of 'v' then 11
  else if b == Bytes.of 'f' then 12
  else if b == Bytes.of 'r' then 13
  else if b == Bytes.of 'e' then 27
  else b

/-
  The value of an escape sequence from the byte after its
  backslash on, and the number of bytes it takes there.
-/
def readEscape : Bytes → Except LexError (Int32 × Nat)
| [] => .ok (92, 0)
| b :: rest =>
  if Bytes.isOctal b then
    let (v, k) := octalTail 2 (Int32.ofNat (b.toNat - 48)) rest
    .ok (v, k + 1)
  else if b == Bytes.of 'x' then
    let (v, k) := hexTail 0 rest
    if k == 0 then .error ⟨.invalidHexEscape, 1⟩ else .ok (v, k + 1)
  else .ok (Int32.ofNat (simpleEscape b).toNat, 1)

------------
-- String bodies
------------

/- The low `n` bytes of a word, lowest first. -/
def littleEndian (n : Nat) (c : UInt32) : Bytes :=
  (List.range n).map fun i => (c >>> UInt32.ofNat (8 * i)).toUInt8

/- The width in bytes of the elements of a string. -/
def elemWidth (elem : LitType) : Nat :=
  match elem.size with
  | 1 => 1
  | 2 => 2
  | _ => 4

/- A code point in 16-bit units: itself, or a surrogate pair. -/
def utf16Units (c : Nat) : List UInt32 :=
  if c ≥ 0x10000 then
    let d := c - 0x10000
    [UInt32.ofNat (0xD800 + d / 1024 % 1024), UInt32.ofNat (0xDC00 + d % 1024)]
  else [UInt32.ofNat c]

/- The elements of a code point in a wide string. -/
def wideUnits (elem : LitType) (c : Nat) : List UInt32 :=
  if elem.size == 2 then utf16Units c else [UInt32.ofNat c]

/- Elements as bytes. -/
def unitBytes (elem : LitType) (units : List UInt32) : Bytes :=
  units.flatMap (littleEndian (elemWidth elem))

/-
  The elements of a string body without a terminator.  Plain
  strings keep their bytes; wide ones are decoded from UTF-8.
  `base` is the offset of the body, for errors.
-/
def decodeElements (elem : LitType) (base : Nat) (s : Bytes) : Except LexError Bytes :=
  match s with
  | [] => .ok []
  | b :: tail =>
    if b == Bytes.of '\\' then
      match readEscape tail with
      | .error e => .error (e.shift (base + 1))
      | .ok (v, k) =>
        (decodeElements elem (base + 1 + k) (tail.drop k)).map fun out =>
          unitBytes elem [v.toUInt32] ++ out
    else if elem.size == 1 then
      (decodeElements elem (base + 1) tail).map fun out => b :: out
    else
      match hd : Utf8.decode? (b :: tail) with
      | none => .error ⟨.invalidUtf8, base⟩
      | some (c, rest) =>
        have : rest.length < (b :: tail).length := Utf8.decode?_length_lt hd
        (decodeElements elem (base + Utf8.leadLength b) rest).map fun out =>
          unitBytes elem (wideUnits elem c) ++ out
termination_by s.length
decreasing_by
  · simp only [List.length_drop, List.length_cons]
    omega
  · simp only [List.length_cons]
    omega
  · assumption

/- The elements of a string body with the terminator. -/
def decodeBody (elem : LitType) (base : Nat) (s : Bytes) : Except LexError Bytes :=
  (decodeElements elem base s).map fun out => out ++ unitBytes elem [0]

/-
  The length of a string body up to its closing quote.  A
  backslash protects the next byte; a newline or the end of
  the text leaves the literal open.
-/
def bodyLength? : Bytes → Option Nat
| [] => none
| 0x22 :: _ => some 0
| 0x0A :: _ => none
| 0x5C :: _ :: rest => (bodyLength? rest).map (· + 2)
| _ :: rest => (bodyLength? rest).map (· + 1)

end Literal

end CCompiler
