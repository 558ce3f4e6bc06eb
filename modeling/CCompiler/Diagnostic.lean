import CCompiler.Fault
import CCompiler.Config
import CCompiler.Source.File
import CCompiler.Text.CharClass

/-
  This file defines located messages: where in which file, the
  text of the line, and the marks under the place.

  Key definitions include:
    * `Place`, `Place.ofOffset`
    * `Diagnostic`, `Diagnostic.summary`, `Diagnostic.render`
    * `Failure`
-/

namespace CCompiler

------------
-- Places
------------

/-
  A place in a source text.  A column of zero means that the
  source line is not known.
-/
structure Place where
  filename : Bytes := []
  line : Int := 0
  column : Int := 0
  span : Int := 0
  source : Bytes := []
  indent : Nat := 0
deriving DecidableEq, Repr, Inhabited

namespace Place

/- A place without a source. -/
def nowhere : Place := {}

/- The place of a span of bytes of a file shown under a name and a line number. -/
def inFile (f : SourceFile) (shownName : Bytes) (line : Int) (offset span : Nat) : Place :=
  let (before, after) := f.lineAround offset
  { filename := if shownName.isEmpty then f.name else shownName
    line := line
    column := before.length + 1
    span := span
    source := before ++ after
    indent := CharClass.displayWidth before }

/- The place of one byte of a file. -/
def ofOffset (f : SourceFile) (shownName : Bytes) (offset : Nat) : Place :=
  inFile f shownName (f.position offset).line offset 1

end Place

------------
-- Diagnostics
------------

/- A message at a place; the group is empty for an error. -/
structure Diagnostic extends Place where
  message : Bytes := []
  group : Bytes := []
deriving DecidableEq, Repr, Inhabited

namespace Diagnostic

/- The message on one line, after the place if it is known. -/
def summary (d : Diagnostic) : Bytes :=
  if d.filename.isEmpty then d.message
  else d.filename ++ ascii ":" ++ Bytes.ofInt d.line ++ ascii ": " ++ d.message

/- A text in a terminal colour. -/
def paint (color : Bool) (code : String) (s : Bytes) : Bytes :=
  if color then ascii "\x1b[" ++ ascii code ++ ascii "m" ++ s ++ ascii "\x1b[0m" else s

/- The message followed by its source line and the marks under the place. -/
def render (d : Diagnostic) (color : Bool) : Bytes :=
  let place :=
    if d.filename.isEmpty then []
    else d.filename ++ ascii ":" ++ Bytes.ofInt d.line ++ ascii ": "
  let kind :=
    if d.group.isEmpty then paint color "31" (ascii "error:")
    else paint color "33" (ascii "warning:")
  let group := if d.group.isEmpty then [] else ascii " [-W" ++ d.group ++ ascii "]"
  let head := place ++ kind ++ ascii " " ++ d.message ++ group ++ ascii "\n"
  if d.column == 0 then head
  else
    let marks := Bytes.of '^' :: List.replicate (d.span - 1).toNat (Bytes.of '~')
    head ++ ascii "  " ++ d.source ++ ascii "\n  " ++
      List.replicate d.indent (Bytes.of ' ') ++ paint color "32" marks ++ ascii "\n"

/- The diagnostic of a fault. -/
def ofFault (cause : Fault) (place : Place) : Diagnostic :=
  { place with message := cause.message }

/- The text of a notice, if its group is on. -/
def notice (cfg : Config) (group : Warning) (n : Notice) (place : Place) : Bytes :=
  if cfg.hasWarning group then
    render { place with message := n.message, group := group.name } false
  else []

end Diagnostic

------------
-- Failures
------------

/-
  Where a list of tokens is walked off unchecked: at the end
  of a body, or at the end of the text that two joined tokens
  make, if there is no token in it.
-/
inductive Crash
| pastEnd
| nothingPasted
deriving DecidableEq, Repr

/-
  Why a run gave no result: a fault at a place, the same with
  words before its message, a plain message from outside the
  source text, a crash, a bound on the number of steps, or a
  limit of this library that no program reaches.
-/
inductive Failure
| fault (cause : Fault) (place : Place)
| wrapped (before : Bytes) (cause : Fault) (place : Place)
| plain (message : Bytes)
| crash (cause : Crash)
| exhausted
| internal
deriving DecidableEq, Repr

end CCompiler
