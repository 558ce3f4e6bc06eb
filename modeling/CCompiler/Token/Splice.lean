import CCompiler.Text.Utf8

/-
  This file defines the clean-up of source text before tokens
  are read: a byte order mark is dropped, line ends become
  newlines, continued lines are joined, and universal
  character names become UTF-8.

  Key definitions include:
    * `Splice.unifyNewlines`
    * `Splice.joinLines`
    * `Splice.replaceNames`
    * `Splice.normalize`
-/

namespace CCompiler

namespace Splice

------------
-- Line ends
------------

/- Every carriage return, with a newline after it if there is one, becomes a newline. -/
def unifyNewlines : Bytes → Bytes
| [] => []
| 0x0D :: 0x0A :: rest => 0x0A :: unifyNewlines rest
| 0x0D :: rest => 0x0A :: unifyNewlines rest
| b :: rest => b :: unifyNewlines rest

/-
  Join lines that end in a backslash.  The removed newlines
  are put back after the next newline that stays, so that the
  lines after it keep their numbers.
-/
def joinLines (pending : Nat) : Bytes → Bytes
| [] => List.replicate pending 0x0A
| 0x5C :: 0x0A :: rest => joinLines (pending + 1) rest
| 0x0A :: rest => 0x0A :: List.replicate pending 0x0A ++ joinLines 0 rest
| b :: rest => b :: joinLines pending rest

------------
-- Universal character names
------------

/- The value of `n` hexadecimal digits at the start of a text. -/
def hexDigits? : Nat → Nat → Bytes → Option Nat
| 0, v, _ => some v
| _ + 1, _, [] => none
| n + 1, v, b :: rest =>
  match Bytes.hexValue? b with
  | some d => hexDigits? n (v * 16 + d) rest
  | none => none

/-
  The encoding of the code point that `n` digits spell.  Zero
  is no name; values are taken as 32-bit words.
-/
def named? (n : Nat) (s : Bytes) : Option Bytes :=
  match hexDigits? n 0 s with
  | some v => if v % 0x100000000 == 0 then none else some (Utf8.encodeWord (Int32.ofNat v))
  | none => none

/-
  Replace universal character names by UTF-8.  A backslash
  before another byte protects that byte, so an escaped
  backslash starts no name.
-/
def replaceNames : Bytes → Bytes
| [] => []
| 0x5C :: c :: rest =>
  let digits := if c == Bytes.of 'u' then 4 else 8
  if c == Bytes.of 'u' || c == Bytes.of 'U' then
    match named? digits rest with
    | some utf8 => utf8 ++ replaceNames (rest.drop digits)
    | none => 0x5C :: replaceNames (c :: rest)
  else 0x5C :: c :: replaceNames rest
| b :: rest => b :: replaceNames rest
termination_by s => s.length
decreasing_by all_goals simp_wf <;> omega

------------
-- The whole clean-up
------------

/- A text without the byte order mark at its start. -/
def dropMark (s : Bytes) : Bytes :=
  (Bytes.dropPrefix? [0xEF, 0xBB, 0xBF] s).getD s

/- A text that ends with a newline. -/
def endLine (s : Bytes) : Bytes :=
  if s.getLast? == some 0x0A then s else s ++ [0x0A]

/- Source text ready for reading tokens. -/
def normalize (s : Bytes) : Bytes :=
  endLine (replaceNames (joinLines 0 (unifyNewlines (dropMark s))))

end Splice

end CCompiler
