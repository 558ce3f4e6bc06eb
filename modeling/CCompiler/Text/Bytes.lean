/-
  This file defines the byte strings that every stage of the
  compiler reads and writes.  Source text may hold bytes that
  are not valid UTF-8, and they must come out unchanged in
  names, string literals and messages, so text is a list of
  bytes and not a list of characters.

  Key definitions include:
    * `Bytes`
    * `ascii`
    * `Bytes.ofNat`, `Bytes.ofInt`, `Bytes.ofSigned`
    * `Bytes.ofHex`
    * `Bytes.join`
    * `Bytes.splitAt?`
-/

namespace CCompiler

/- A text as the bytes it is stored in. -/
abbrev Bytes := List UInt8

/- The bytes of a text written in this library. -/
def ascii (s : String) : Bytes :=
  s.toByteArray.data.toList

namespace Bytes

------------
-- Byte classes
------------

/- The byte of an ASCII character. -/
abbrev of (c : Char) : UInt8 :=
  c.toUInt8

/- Whether a byte is one of the decimal digits. -/
def isDigit (b : UInt8) : Bool :=
  of '0' ≤ b && b ≤ of '9'

/- Whether a byte is one of the octal digits. -/
def isOctal (b : UInt8) : Bool :=
  of '0' ≤ b && b ≤ of '7'

/- Whether a byte is an ASCII letter. -/
def isLetter (b : UInt8) : Bool :=
  (of 'a' ≤ b && b ≤ of 'z') || (of 'A' ≤ b && b ≤ of 'Z')

/- The value of a hexadecimal digit, of either case. -/
def hexValue? (b : UInt8) : Option Nat :=
  if isDigit b then some (b.toNat - 48)
  else if of 'a' ≤ b && b ≤ of 'f' then some (b.toNat - 87)
  else if of 'A' ≤ b && b ≤ of 'F' then some (b.toNat - 55)
  else none

/- Whether a byte is a hexadecimal digit. -/
def isHex (b : UInt8) : Bool :=
  (hexValue? b).isSome

/- Blanks as the source grammar has them. -/
def isSpace (b : UInt8) : Bool :=
  b == of ' ' || b == of '\t' || b == of '\n' ||
    b == 0x0B || b == 0x0C || b == of '\r'

/- Whether a byte is printable ASCII other than the space, a letter or a digit. -/
def isPunct (b : UInt8) : Bool :=
  0x21 ≤ b && b ≤ 0x7E && !isDigit b && !isLetter b

/- The lower-case form of an ASCII letter; other bytes stay. -/
def lower (b : UInt8) : UInt8 :=
  if of 'A' ≤ b && b ≤ of 'Z' then b + 32 else b

------------
-- Numerals
------------

/- The decimal numeral of a natural number. -/
def ofNat (n : Nat) : Bytes :=
  ascii (toString n)

/- The decimal numeral of an integer, with a sign only below zero. -/
def ofInt (n : Int) : Bytes :=
  if n < 0 then of '-' :: ofNat n.natAbs else ofNat n.natAbs

/- The decimal numeral of an integer, always with its sign. -/
def ofSigned (n : Int) : Bytes :=
  if n < 0 then of '-' :: ofNat n.natAbs else of '+' :: ofNat n.natAbs

/- One lower-case hexadecimal digit. -/
def hexDigit (n : Nat) : UInt8 :=
  if n < 10 then UInt8.ofNat (48 + n) else UInt8.ofNat (87 + n)

/- The last `width` hexadecimal digits of a number. -/
def ofHex (width n : Nat) : Bytes :=
  (List.range width).reverse.map fun i => hexDigit (n / Nat.pow 16 i % 16)

------------
-- Cutting and joining
------------

/- The parts in order, with a separator between two of them. -/
def join (sep : Bytes) : List Bytes → Bytes
| [] => []
| [x] => x
| x :: y :: rest => x ++ sep ++ join sep (y :: rest)

/- The text before and after the first occurrence of a byte. -/
def splitAt? (c : UInt8) (s : Bytes) : Option (Bytes × Bytes) :=
  match s.dropWhile (· != c) with
  | [] => none
  | _ :: rest => some (s.takeWhile (· != c), rest)

/- The text before and after the last occurrence of a byte. -/
def splitAtLast? (c : UInt8) (s : Bytes) : Option (Bytes × Bytes) :=
  (splitAt? c s.reverse).map fun (after, before) => (before.reverse, after.reverse)

/- The rest of a text that starts with the given bytes. -/
def dropPrefix? : Bytes → Bytes → Option Bytes
| [], s => some s
| _ :: _, [] => none
| p :: ps, c :: cs => if p == c then dropPrefix? ps cs else none

/- Whether a text starts with the given bytes. -/
def startsWith (s p : Bytes) : Bool :=
  (dropPrefix? p s).isSome

/- A text starts with its prefixes. -/
theorem startsWith_iff {s p : Bytes} : s.startsWith p = true ↔ p <+: s := by
  unfold startsWith
  induction p generalizing s with
  | nil => simp [dropPrefix?]
  | cons x p ih =>
    cases s with
    | nil => simp [dropPrefix?]
    | cons y s =>
      rw [dropPrefix?, List.cons_prefix_cons, ← ih]
      by_cases hSame : x = y <;> simp [hSame]

/- Whether a text ends with the given bytes. -/
def endsWith (s p : Bytes) : Bool :=
  (dropPrefix? p.reverse s.reverse).isSome

/- Whether a text contains the given bytes in a row. -/
def containsSeq (s p : Bytes) : Bool :=
  match s with
  | [] => p.isEmpty
  | _ :: rest => startsWith s p || containsSeq rest p

/- A text with every occurrence of one byte replaced by a text. -/
def replaceByte (c : UInt8) (new : Bytes) (s : Bytes) : Bytes :=
  s.flatMap fun b => if b == c then new else [b]

/- A text repeated in a row. -/
def times (n : Nat) (s : Bytes) : Bytes :=
  (List.replicate n s).flatten

/- A text filled with spaces on the right up to a width in bytes. -/
def padRight (width : Nat) (s : Bytes) : Bytes :=
  s ++ List.replicate (width - s.length) (of ' ')

/- The lines of a text; a final newline does not start another one. -/
def lines (s : Bytes) : List Bytes :=
  let go (acc : List Bytes × Bytes) (b : UInt8) : List Bytes × Bytes :=
    if b == of '\n' then (acc.2.reverse :: acc.1, []) else (acc.1, b :: acc.2)
  let (done, last) := s.foldl go ([], [])
  (if last.isEmpty then done else last.reverse :: done).reverse

/- The order of texts by their bytes. -/
def lt : Bytes → Bytes → Bool
| _, [] => false
| [], _ :: _ => true
| a :: as, b :: bs => a < b || (a == b && lt as bs)

/- A text as a string of this library, with invalid bytes replaced. -/
def toText (s : Bytes) : String :=
  match String.fromUTF8? ⟨s.toArray⟩ with
  | some t => t
  | none => String.ofList (s.map fun b => Char.ofNat b.toNat)

end Bytes

end CCompiler
