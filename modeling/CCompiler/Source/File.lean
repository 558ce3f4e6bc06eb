import CCompiler.Text.Bytes

/-
  This file defines source files and the positions in them.

  Key definitions include:
    * `SourceFile`
    * `SourceFile.position`
    * `SourceFile.lineAround`
-/

namespace CCompiler

/- A source text under its name; `id` tells texts of one run apart. -/
structure SourceFile where
  id : Nat
  name : Bytes
  number : Nat
  contents : Bytes
deriving DecidableEq, Inhabited, Repr

/- A line and a column, both counted from one. -/
structure Position where
  line : Nat
  column : Nat
deriving DecidableEq, Inhabited, Repr

/-
  The position of an offset: the number of line starts up to
  it and the distance from the last of them.  A line starts
  at the first byte and at every byte after a newline, so the
  end of a text belongs to its last line.
-/
def positionIn (contents : Bytes) (offset : Nat) : Position :=
  go contents 0 true ⟨0, 0⟩
where
  /- Walk the bytes up to the offset. -/
  go : Bytes → Nat → Bool → Position → Position
  | [], _, _, p => p
  | b :: rest, i, fresh, p =>
    if i > offset then p
    else
      let here : Position := if fresh then ⟨p.line + 1, offset - i + 1⟩ else p
      go rest (i + 1) (b == Bytes.of '\n') here

namespace SourceFile

/- The position of an offset; offsets beyond the end count as the end. -/
def position (f : SourceFile) (offset : Nat) : Position :=
  positionIn f.contents (min offset f.contents.length)

/- The bytes of an offset's line before it and from it on, without the newline. -/
def lineAround (f : SourceFile) (offset : Nat) : Bytes × Bytes :=
  let before := (f.contents.take offset).reverse.takeWhile (· != Bytes.of '\n')
  let after := (f.contents.drop offset).takeWhile (· != Bytes.of '\n')
  (before.reverse, after)

end SourceFile

end CCompiler
