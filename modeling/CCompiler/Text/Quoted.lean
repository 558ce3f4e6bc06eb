import CCompiler.Text.Printable

/-
  This file defines the quoted form of a text in messages,
  token dumps and assembler directives: double quotes around
  it, short escapes for the usual control characters, and
  numeric escapes for everything else that is not printable.

  Key definitions include:
    * `Quoted.escape`
    * `Quoted.quote`
-/

namespace CCompiler

namespace Quoted

/- The letter that stands for a control character after a backslash. -/
def shortEscape? : Nat → Option Char
| 0x07 => some 'a'
| 0x08 => some 'b'
| 0x0C => some 'f'
| 0x0A => some 'n'
| 0x0D => some 'r'
| 0x09 => some 't'
| 0x0B => some 'v'
| _ => none

/- A code point inside double quotes. -/
def escape (c : Nat) : Bytes :=
  if c == 0x22 || c == 0x5C then [Bytes.of '\\', UInt8.ofNat c]
  else if CharClass.isPrintable c then Utf8.encode c
  else
    match shortEscape? c with
    | some letter => [Bytes.of '\\', Bytes.of letter]
    | none =>
      if c < 0x20 || c == 0x7F then ascii "\\x" ++ Bytes.ofHex 2 c
      else if c < 0x10000 then ascii "\\u" ++ Bytes.ofHex 4 c
      else ascii "\\U" ++ Bytes.ofHex 8 c

/- The text in double quotes; a byte outside any valid sequence is written in hexadecimal. -/
def quote (s : Bytes) : Bytes :=
  let body := (Utf8.scalars s).flatMap fun
    | .inl c => escape c
    | .inr b => ascii "\\x" ++ Bytes.ofHex 2 b.toNat
  Bytes.of '"' :: body ++ [Bytes.of '"']

end Quoted

end CCompiler
