import CCompiler.Decimal.Reader
import CCompiler.Token.Basic

/-
  This file turns preprocessing tokens into C tokens: words
  that spell keywords become keywords, and preprocessing
  numbers become integers or floating values with their type.

  Key definitions include:
    * `Keyword.all`, `Keyword.contains`
    * `IntConstant.number`, `IntConstant.typeOf`
    * `IntConstant.read?`
    * `Token.convert`
-/

namespace CCompiler

------------
-- Keywords
------------

namespace Keyword

/- The keywords of the language. -/
def all : List Bytes :=
  ["return", "if", "else", "for", "while", "int", "sizeof", "char", "struct", "union",
    "short", "long", "void", "typedef", "_Bool", "enum", "static", "goto", "break",
    "continue", "switch", "case", "default", "extern", "_Alignof", "_Alignas", "do",
    "signed", "unsigned", "const", "volatile", "auto", "register", "restrict", "__restrict",
    "__restrict__", "_Noreturn", "float", "double", "typeof", "asm", "_Thread_local",
    "__thread", "_Atomic", "__attribute__", "__asm__", "inline", "_Generic"].map ascii

/- Whether a word is a keyword. -/
def contains (s : Bytes) : Bool :=
  all.contains s

end Keyword

------------
-- Integer constants
------------

namespace IntConstant

/- The value of a letter or digit in bases up to thirty-six. -/
def digitValue? (b : UInt8) : Option Nat :=
  if Bytes.isDigit b then some (b.toNat - 48)
  else if Bytes.isLetter b then some ((Bytes.lower b).toNat - 87)
  else none

/-
  The value of the digits of a base at the start of a text as
  a word, whether a word was too small for it, and the rest.
-/
def digits (base : UInt64) (v : UInt64) (tooLarge : Bool) : Bytes → UInt64 × Bool × Bytes
| [] => (v, tooLarge, [])
| b :: rest =>
  match digitValue? b with
  | some d =>
    if d < base.toNat then
      let d := UInt64.ofNat d
      let exceeds := v > (0xFFFFFFFFFFFFFFFF - d) / base
      digits base (v * base + d) (tooLarge || exceeds) rest
    else (v, tooLarge, b :: rest)
  | none => (v, tooLarge, b :: rest)

/- The number at the start of a text, or the largest word if it is larger, and the rest. -/
def number (base : UInt64) (s : Bytes) : UInt64 × Bytes :=
  let (v, tooLarge, rest) := digits base 0 false s
  (if tooLarge then 0xFFFFFFFFFFFFFFFF else v, rest)

/- The base of a constant and its digits. -/
def base (s : Bytes) : UInt64 × Bytes :=
  match s with
  | 0x30 :: x :: d :: rest =>
    if Bytes.lower x == Bytes.of 'x' && Bytes.isHex d then (16, d :: rest)
    else if Bytes.lower x == Bytes.of 'b' && (d == Bytes.of '0' || d == Bytes.of '1') then
      (2, d :: rest)
    else (8, s)
  | 0x30 :: _ => (8, s)
  | _ => (10, s)

/- What a suffix says: long, unsigned. -/
structure Suffix where
  long : Bool
  unsigned : Bool
deriving DecidableEq, Repr

/- The accepted suffixes.  The two letters of a double `l` have one case. -/
def suffix? (s : Bytes) : Option Suffix :=
  if s.isEmpty then some ⟨false, false⟩
  else if ["LLU", "LLu", "llU", "llu", "ULL", "Ull", "uLL", "ull"].any (ascii · == s) then
    some ⟨true, true⟩
  else if ["lu", "ul"].any (ascii · == s.map Bytes.lower) then some ⟨true, true⟩
  else if ["LL", "ll", "L", "l"].any (ascii · == s) then some ⟨true, false⟩
  else if ["U", "u"].any (ascii · == s) then some ⟨false, true⟩
  else none

/- The type of a constant: the first of those its form allows that holds the value. -/
def typeOf (decimal : Bool) (suf : Suffix) (v : Nat) : LitType :=
  match suf.long, suf.unsigned with
  | true, true => .ulong
  | true, false => if !decimal && v ≥ 0x8000000000000000 then .ulong else .long
  | false, true => if v ≥ 0x100000000 then .ulong else .uint
  | false, false =>
    if decimal then if v ≥ 0x80000000 then .long else .int
    else if v ≥ 0x8000000000000000 then .ulong
    else if v ≥ 0x100000000 then .long
    else if v ≥ 0x80000000 then .uint
    else .int

/- The type and value of an integer constant; too large a value becomes the largest. -/
def read? (s : Bytes) : Option (LitType × Int64) :=
  let (b, ds) := base s
  let (v, rest) := number b ds
  match suffix? rest with
  | none => none
  | some suf => some (typeOf (b == 10) suf v.toNat, v.toInt64)

end IntConstant

------------
-- Floating constants
------------

namespace FloatConstant

/- Whether a constant starts like a hexadecimal one. -/
def isHex (s : Bytes) : Bool :=
  match s with
  | 0x30 :: x :: _ :: _ => Bytes.lower x == Bytes.of 'x'
  | _ => false

/- The type of a constant by its last letter, and the text without it. -/
def suffix (s : Bytes) : LitType × Bytes :=
  match s.getLast? with
  | none => (.double, s)
  | some c =>
    let hasExponent := s.any fun b => Bytes.lower b == Bytes.of 'p'
    if Bytes.lower c == Bytes.of 'f' && (!isHex s || hasExponent) then (.float, s.dropLast)
    else if Bytes.lower c == Bytes.of 'l' then (.ldouble, s.dropLast)
    else (.double, s)

/- The type and value of a floating constant. -/
def read? (s : Bytes) : Option (LitType × Double) :=
  let (type, body) := suffix s
  (FloatText.read? body).map fun v => (type, v)

end FloatConstant

------------
-- Conversion
------------

namespace Token

/- A preprocessing token as a C token, or `none` for a malformed number. -/
def convert? (t : Token) : Option Token :=
  match t.kind with
  | .ident => some (if Keyword.contains t.text then { t with kind := .keyword } else t)
  | .ppNum =>
    match IntConstant.read? t.text with
    | some (type, v) => some { t with kind := .int type v }
    | none =>
      match FloatConstant.read? t.text with
      | some (type, v) => some { t with kind := .float type v }
      | none => none
  | _ => some t

/- Preprocessing tokens as C tokens; fails at the first malformed number. -/
def convert (ts : List Token) : Except Token (List Token) :=
  ts.mapM fun t =>
    match t.convert? with
    | some u => .ok u
    | none => .error t

end Token

end CCompiler
