import CCompiler.Preprocess.Session

/-
  This file merges string literals that stand side by side.
  Plain ones are read again with the element type of those
  that say one; literals that say different ones do not go
  together.

  Key definitions include:
    * `StringRun.Encoding`
    * `StringRun.elementType`
    * `StringRun.merge`
    * `StringRun.joinAll`
-/

namespace CCompiler

namespace StringRun

open Pre

------------
-- Encodings
------------

/- What the letters before a string literal say. -/
inductive Encoding
| plain
| utf8
| utf16
| utf32
| wide
deriving DecidableEq, Repr, Inhabited

/- What the letters before a string literal say. -/
def encoding (t : Token) : Encoding :=
  match t.text with
  | 0x75 :: 0x38 :: _ => .utf8
  | 0x75 :: _ => .utf16
  | 0x55 :: _ => .utf32
  | 0x4C :: _ => .wide
  | _ => .plain

/- The element type of a string literal. -/
def elementOf (t : Token) : LitType :=
  match t.kind with
  | .str e _ => e
  | _ => .none

/- The encoding and element type of the literals of a run, after those before them. -/
def elementType : Encoding → LitType → List Token → TokenScan LitType
| _, l, [] => .ok l
| e, l, t :: ts =>
  let k := encoding t
  if e == .plain then elementType k (elementOf t) ts
  else if k != .plain && e != k then .error (.mixedStringKinds, t)
  else elementType e l ts

------------
-- Merging
------------

/- The text between the quotes of a literal, and where it starts in the literal. -/
def bodyOf (t : Token) : Nat × Bytes :=
  let letters := (t.text.takeWhile (· != Bytes.of '"')).length
  (letters + 1, (t.text.drop (letters + 1)).dropLast)

/- A literal of single bytes read again with another element type. -/
def widen (l : LitType) (t : Token) : Pre Token := do
  if (elementOf t).size != 1 then return t
  let (start, body) := bodyOf t
  match Literal.decodeBody l (t.offset + start) body with
  | .ok bytes => return { t with kind := .str l bytes }
  | .error e =>
    throw (.fault e.cause (Place.ofOffset t.file (← shownOf t).name e.offset))

/- The bytes of the elements of literals, without their terminators. -/
def contents (size : Nat) (ts : List Token) : Bytes :=
  ts.flatMap fun t =>
    match t.kind with
    | .str _ bytes => bytes.take (bytes.length - size)
    | _ => []

/- A run of two or more literals as one. -/
def merge (first : Token) (others : List Token) : Pre Token := do
  let l ← ofScan (elementType (encoding first) (elementOf first) others)
  let ts ← if l.size > 1 then (first :: others).mapM (widen l) else pure (first :: others)
  let elem := elementOf (ts.headD first)
  let bytes := contents elem.size ts ++ List.replicate elem.size 0
  return { first with
    kind := .str elem bytes
    joined := ts.map fun t => ⟨t.text, t.atLineStart, t.spaced⟩ }

/- Merge every run of literals; `run` holds those read last, the latest first. -/
def joinFrom : List Token → Array Token → List Token → Pre (List Token)
| run, done, [] => return (done ++ run.reverse.toArray).toList
| run, done, t :: ts => do
  if t.kind.isStr then joinFrom (t :: run) done ts
  else
    match run.reverse with
    | [] => joinFrom [] (done.push t) ts
    | [s] => joinFrom [] ((done.push s).push t) ts
    | s :: more =>
      let m ← merge s more
      joinFrom [] ((done.push m).push t) ts

/- Merge every run of literals in a list. -/
def joinAll (ts : List Token) : Pre (List Token) :=
  joinFrom [] #[] ts

end StringRun

end CCompiler
