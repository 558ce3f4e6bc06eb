import CCompiler.Text.Bytes

/-
  This file defines operations on path names, whose parts are
  divided by slashes.

  Key definitions include:
    * `PathName.clean`
    * `PathName.directory`, `PathName.base`
    * `PathName.extension`, `PathName.replaceExtension`
-/

namespace CCompiler

namespace PathName

/- The byte between the parts of a path. -/
def slash : UInt8 := Bytes.of '/'

/- Whether a path starts at the root. -/
def isAbsolute (p : Bytes) : Bool :=
  p.head? == some slash

/- The parts of a path; repeated slashes give empty ones. -/
def parts (p : Bytes) : List Bytes :=
  p.splitOn slash

/-
  Add one part to cleaned ones, the last of which comes
  first.  A double dot takes back the part before it.
-/
def addPart (rooted : Bool) (done : List Bytes) (part : Bytes) : List Bytes :=
  if part.isEmpty || part == ascii "." then done
  else if part == ascii ".." then
    match done with
    | [] => if rooted then [] else [part]
    | last :: rest => if last == ascii ".." then part :: done else rest
  else part :: done

/- The shortest path with the same meaning. -/
def clean (p : Bytes) : Bytes :=
  let rooted := isAbsolute p
  let ps := ((parts p).foldl (addPart rooted) []).reverse
  let body := Bytes.join [slash] ps
  if rooted then slash :: body else if body.isEmpty then ascii "." else body

/- The path of the directory that a path lies in. -/
def directory (p : Bytes) : Bytes :=
  match Bytes.splitAtLast? slash p with
  | some (before, _) => clean (before ++ [slash])
  | none => ascii "."

/- The last part of a path. -/
def base (p : Bytes) : Bytes :=
  if p.isEmpty then ascii "."
  else
    let trimmed := (p.reverse.dropWhile (· == slash)).reverse
    if trimmed.isEmpty then [slash]
    else
      match Bytes.splitAtLast? slash trimmed with
      | some (_, after) => after
      | none => trimmed

/- The last part of a path from its last dot on. -/
def extension (p : Bytes) : Bytes :=
  let last := (p.reverse.takeWhile (· != slash)).reverse
  match Bytes.splitAtLast? (Bytes.of '.') last with
  | some (_, after) => Bytes.of '.' :: after
  | none => []

/- The last part of a path with another extension. -/
def replaceExtension (p ext : Bytes) : Bytes :=
  let b := base p
  b.take (b.length - (extension b).length) ++ ext

end PathName

end CCompiler
