import CCompiler.Preprocess.Macro
import CCompiler.Source.FileStore
import CCompiler.Token.Lexer
import CCompiler.Token.Number
import CCompiler.Token.Splice

/-
  This file defines the state in which source files are
  preprocessed and the basic steps on it: reporting, adding
  source texts, and making tokens from text.

  Key definitions include:
    * `Message`
    * `Session`, `Pre`
    * `Pre.fail`, `Pre.warn`, `Pre.info`
    * `Pre.addText`, `Pre.addFile`
    * `Pre.makeTokens`, `Pre.makeToken`
-/

namespace CCompiler

------------
-- State
------------

/- What is printed on the way: warnings, and lines of progress. -/
inductive Message
| warning (text : Bytes)
| info (text : Bytes)
deriving DecidableEq, Repr

namespace Message

/- The text of a message. -/
def text : Message → Bytes
| .warning t | .info t => t

/- The text of the warnings among messages. -/
def warnings (ms : List Message) : Bytes :=
  ms.flatMap fun
    | .warning t => t
    | .info _ => []

/- The lines of progress among messages. -/
def log (ms : List Message) : Bytes :=
  ms.flatMap fun
    | .warning _ => []
    | .info t => t

end Message

/- How the lines of a source text are shown: under which name, and how far renumbered. -/
structure Shown where
  name : Bytes
  lineDelta : Int := 0
deriving DecidableEq, Repr, Inhabited

/- In which part of a conditional section the text is. -/
inductive CondPart
| thenPart
| elifPart
| elsePart
deriving DecidableEq, Repr, Inhabited

/- A conditional section that is open: its part, where it started, and whether a group was taken. -/
structure Conditional where
  part : CondPart := .thenPart
  start : Token
  taken : Bool
deriving Inhabited

/-
  The state of preprocessing.  `shown` has an entry for every
  source text by its `id`; `files` holds the files that were
  read.  `found` remembers where headers were found, and
  `nextDir` the directory after that of the last one.  `asked`
  holds the paths that were looked up in the store.
-/
structure Session where
  cfg : Config := {}
  store : FileStore := {}
  stdin : Bytes := []
  baseFile : Bytes := []
  shown : Array Shown := #[]
  files : Array SourceFile := #[]
  macros : Macros := []
  conds : List Conditional := []
  once : List Bytes := []
  guards : List (Bytes × Bytes) := []
  found : List (Bytes × Bytes) := []
  nextDir : Nat := 0
  counter : Nat := 0
  asked : Array Bytes := #[]
  messages : Array Message := #[]
deriving Inhabited

/- Steps of preprocessing; the first fault ends it. -/
abbrev Pre := EStateM Failure Session

/- A scan over tokens that may end with a fault at one of them. -/
abbrev TokenScan := Except (Fault × Token)

namespace Pre

------------
-- Reports
------------

/- How the text of a token is shown. -/
def shownOf (t : Token) : Pre Shown := do
  return (← get).shown.getD t.file.id ⟨t.file.name, 0⟩

/- The place of a token as it is shown now. -/
def placeOf (t : Token) : Pre Place := do
  return t.placeAs (← shownOf t).name

/- Stop with a fault at a token. -/
def fail {α : Type} (t : Token) (cause : Fault) : Pre α := do
  throw (.fault cause (← placeOf t))

/- The result of a scan over tokens. -/
def ofScan {α : Type} : TokenScan α → Pre α
| .ok a => return a
| .error (cause, t) => fail t cause

/- Print a message. -/
def say (m : Message) : Pre Unit :=
  if m.text.isEmpty then pure () else modify fun s => { s with messages := s.messages.push m }

/- Print a warning at a token, if its group is on. -/
def warn (t : Token) (group : Warning) (n : Notice) : Pre Unit := do
  let place ← placeOf t
  say (.warning (Diagnostic.notice (← get).cfg group n place))

/- Print a line of progress, if asked for. -/
def info (text : Bytes) : Pre Unit := do
  if (← get).cfg.verbose then say (.info (Config.infoLine text))

------------
-- Source texts
------------

/- Add a source text that is shown in a given way. -/
def addText (name : Bytes) (number : Nat) (contents : Bytes) (shown : Shown) : Pre SourceFile := do
  let id := (← get).shown.size
  modify fun s => { s with shown := s.shown.push shown }
  return ⟨id, name, number, contents⟩

/- Add a file to those that were read. -/
def addFile (name contents : Bytes) : Pre SourceFile := do
  let number := (← get).files.size + 1
  let f ← addText name number contents ⟨name, 0⟩
  modify fun s => { s with files := s.files.push f }
  return f

/- The tokens of a source text. -/
def tokenize (f : SourceFile) (shownName : Bytes) : Pre (List Token) := do
  let r := Lexer.tokenize (← get).cfg f shownName
  say (.warning r.notices)
  match r.tokens with
  | .ok ts => return ts
  | .error e => throw e

/- Read the text of a file under its name. -/
def tokenizeSource (name src : Bytes) : Pre (List Token) := do
  let f ← addFile name (Splice.normalize src)
  info (ascii "reading " ++ name)
  tokenize f name

------------
-- Made tokens
------------

/- The first token of a list with the blanks of another token before it. -/
def spacedAs (t : Token) : List Token → List Token
| [] => []
| u :: us => { u with atLineStart := t.atLineStart, spaced := t.spaced } :: us

/-
  Tokens of a text made up on the way.  They stand on a line
  of a file, which is shown as that file is now.
-/
def makeTokens (text : Bytes) (file : SourceFile) (line : Int) (spaced : Bool) :
    Pre (List Token) := do
  let shown := (← get).shown.getD file.id ⟨file.name, 0⟩
  let f ← addText file.name file.number text shown
  let ts ← tokenize f shown.name
  match ts.map fun t => { t with line := line } with
  | [] => return []
  | t :: rest => return { t with atLineStart := false, spaced := spaced } :: rest

/- The first token of a text made up in the place of a token. -/
def makeToken (text : Bytes) (tmpl : Token) : Pre Token := do
  match ← makeTokens text tmpl.file tmpl.line tmpl.spaced with
  | t :: _ => return t
  | [] => throw (.crash .pastEnd)

/- A number in the place of a token. -/
def numberToken (n : Int) (tmpl : Token) : Pre Token :=
  makeToken (Bytes.ofInt n ++ ascii "\n") tmpl

/- Tokens with keywords and numbers told apart. -/
def convert (ts : List Token) : Pre (List Token) := do
  match Token.convert ts with
  | .ok ts => return ts
  | .error t => fail t .invalidNumber

/- Tokens whose places no longer depend on how their texts are shown. -/
def settle (ts : List Token) : Pre (List Token) := do
  let shown := (← get).shown
  return ts.map fun t =>
    if t.filename.isEmpty then { t with filename := (shown.getD t.file.id ⟨[], 0⟩).name } else t

end Pre

end CCompiler
