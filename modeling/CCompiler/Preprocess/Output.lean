import CCompiler.Decimal.Shortest
import CCompiler.Preprocess.Include

/-
  This file writes what preprocessing found: the tokens as
  source text, the tokens one by one, and the files that were
  read as a rule for `make`.

  Key definitions include:
    * `Output.source`
    * `Output.listing`
    * `Output.quoteTarget`
    * `Output.dependencies`
-/

namespace CCompiler

namespace Output

------------
-- Source text
------------

/- The spelling of a token; merged literals are written one by one. -/
def spelling (t : Token) : Bytes :=
  match t.joined with
  | [] => t.text
  | s :: more =>
    s.text ++ more.flatMap fun s =>
      if s.atLineStart then Bytes.of '\n' :: s.text
      else if s.spaced then Bytes.of ' ' :: s.text
      else s.text

/- What stands before a token. -/
def gap (isFirst : Bool) (t : Token) : Bytes :=
  if t.atLineStart then (if isFirst then [] else [Bytes.of '\n'])
  else if t.spaced then [Bytes.of ' ']
  else []

/- Tokens as source text, each of their lines on a line. -/
def source (ts : List Token) : Bytes :=
  match ts.takeWhile (!·.isEof) with
  | [] => ascii "\n"
  | t :: more =>
    gap true t ++ spelling t ++ (more.flatMap fun t => gap false t ++ spelling t) ++ ascii "\n"

------------
-- Listing
------------

/- What a listing says about a token after its kind. -/
def details (t : Token) : Bytes :=
  match t.kind with
  | .int _ v => ascii " " ++ Bytes.ofInt v.toInt
  | .float _ d => ascii " " ++ Shortest.render d
  | .eof => []
  | _ => ascii " " ++ Quoted.quote t.text

/- One token of a listing. -/
def entry (t : Token) : Bytes :=
  let hidden :=
    if t.hidden.isEmpty then []
    else ascii " hideset=[" ++ Bytes.join (ascii " ") t.hidden ++ ascii "]"
  t.filename ++ ascii ":" ++ Bytes.ofInt t.line ++ ascii ": " ++ ascii t.kind.name ++
    details t ++ hidden

/- Tokens one by one, with their number in front. -/
def listing (ts : List Token) : Bytes :=
  let line (t : Token) (i : Nat) : Bytes :=
    ascii "· " ++ Bytes.ofNat i ++ ascii ": " ++ entry t ++ ascii ",\n"
  ascii "[]*token.Token\x7b // len " ++ Bytes.ofNat ts.length ++ ascii "\n" ++
    (ts.zipIdx.flatMap fun (t, i) => line t i) ++ ascii "\x7d"

------------
-- Rules
------------

/-
  A file name as a target of `make`.  Dollars are doubled, a
  backslash stands before blanks and hash signs, and the
  backslashes before a blank are doubled.
-/
def quoteFrom (slashes : Nat) : Bytes → Bytes
| [] => []
| b :: rest =>
  if b == Bytes.of '$' then ascii "$$" ++ quoteFrom 0 rest
  else if b == Bytes.of '#' then ascii "\\#" ++ quoteFrom 0 rest
  else if b == Bytes.of ' ' || b == Bytes.of '\t' then
    List.replicate slashes (Bytes.of '\\') ++ [Bytes.of '\\', b] ++ quoteFrom 0 rest
  else if b == Bytes.of '\\' then b :: quoteFrom (slashes + 1) rest
  else b :: quoteFrom 0 rest

/- A file name as a target of `make`. -/
def quoteTarget (name : Bytes) : Bytes :=
  quoteFrom 0 name

/-
  A rule with all the files that were read.  Without a target
  it is for the object file of `base`; with `phony` every
  file but the first gets an empty rule.
-/
def dependencies (files : List SourceFile) (base target : Bytes) (phony : Bool) : Bytes :=
  let target :=
    if target.isEmpty then quoteTarget (PathName.replaceExtension base (ascii ".o")) else target
  let names := (files.map (·.name)).filter fun n => (Include.builtinName? n).isNone
  let rules :=
    if phony then names.tail.flatMap fun n => quoteTarget n ++ ascii ":\n\n" else []
  target ++ ascii ":" ++ (names.flatMap fun n => ascii " \\\n  " ++ n) ++ ascii "\n\n" ++ rules

end Output

end CCompiler
