import CCompiler.Text.Utf8

/-
  This file splits text into words at blanks, as Unicode has
  them, and fills lines with words.

  Key definitions include:
    * `Words.isBlank`
    * `Words.ofText`
    * `Words.wrap`
    * `Words.padRight`
-/

namespace CCompiler

namespace Words

/- Whether a code point is white space. -/
def isBlank (c : Nat) : Bool :=
  (0x09 ≤ c && c ≤ 0x0D) || c == 0x20 || c == 0x85 || c == 0xA0 || c == 0x1680 ||
    (0x2000 ≤ c && c ≤ 0x200A) || c == 0x2028 || c == 0x2029 || c == 0x202F ||
    c == 0x205F || c == 0x3000

/- The words of a text, without the blanks around them. -/
def ofText (s : Bytes) : List Bytes :=
  let step (acc : List Bytes × Bytes) (u : Sum Nat UInt8) : List Bytes × Bytes :=
    match u with
    | .inr b => (acc.1, acc.2 ++ [b])
    | .inl c =>
      if isBlank c then (if acc.2.isEmpty then acc.1 else acc.1 ++ [acc.2], [])
      else (acc.1, acc.2 ++ Utf8.encode c)
  let (done, last) := (Utf8.scalars s).foldl step ([], [])
  if last.isEmpty then done else done ++ [last]

/- Fill lines of at most `width` bytes with words; a longer word has a line of its own. -/
def fill (width : Nat) : Bytes → List Bytes → List Bytes
| line, [] => if line.isEmpty then [] else [line]
| line, w :: rest =>
  if line.isEmpty then fill width w rest
  else if line.length + 1 + w.length > width then line :: fill width w rest
  else fill width (line ++ Bytes.of ' ' :: w) rest

/- The lines of a text; a width below one leaves it as it is. -/
def wrap (width : Int) (s : Bytes) : List Bytes :=
  if width ≤ 0 then [s] else fill width.toNat [] (ofText s)

/- A text filled up with spaces to a number of characters. -/
def padRight (width : Nat) (s : Bytes) : Bytes :=
  s ++ List.replicate (width - (Utf8.scalars s).length) (Bytes.of ' ')

end Words

end CCompiler
