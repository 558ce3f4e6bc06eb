import CCompiler.Preprocess.Expansion
import CCompiler.Preprocess.StringRun

/-
  This file preprocesses whole texts: it starts a session with
  the macros that are always there, reads the text, and hands
  on its tokens with keywords, numbers and strings worked out.

  Key definitions include:
    * `Preprocessor.define`, `Preprocessor.undef`
    * `Preprocessor.start`
    * `Preprocessor.run`
-/

namespace CCompiler

namespace Preprocessor

open Pre

------------
-- Macros from outside
------------

/- Define a macro without parameters by the text of its body. -/
def define (name body : Bytes) : Pre Unit := do
  let file := ascii "<built-in>"
  let f ← addText file 1 body ⟨file, 0⟩
  let ts ← tokenize f file
  modify fun s => { s with macros := s.macros.insert name (.object ts) }

/- Remove a macro. -/
def undef (name : Bytes) : Pre Unit :=
  modify fun s => { s with macros := s.macros.erase name }

/- The macros that are always there. -/
def predefined : List (String × String) :=
  [("_LP64", "1"), ("__C99_MACRO_WITH_VA_ARGS", "1"), ("__ELF__", "1"), ("__LP64__", "1"),
    ("__SIZEOF_DOUBLE__", "8"), ("__SIZEOF_FLOAT__", "4"), ("__SIZEOF_INT__", "4"),
    ("__SIZEOF_LONG_DOUBLE__", "8"), ("__SIZEOF_LONG_LONG__", "8"), ("__SIZEOF_LONG__", "8"),
    ("__SIZEOF_POINTER__", "8"), ("__SIZEOF_PTRDIFF_T__", "8"), ("__SIZEOF_SHORT__", "2"),
    ("__SIZEOF_SIZE_T__", "8"), ("__SIZE_TYPE__", "unsigned long"), ("__STDC_HOSTED__", "1"),
    ("__STDC_NO_COMPLEX__", "1"), ("__STDC_UTF_16__", "1"), ("__STDC_UTF_32__", "1"),
    ("__STDC_VERSION__", "201112L"), ("__STDC__", "1"), ("__USER_LABEL_PREFIX__", ""),
    ("__alignof__", "_Alignof"), ("__amd64", "1"), ("__amd64__", "1"), ("__chibicc__", "1"),
    ("__const__", "const"), ("__gnu_linux__", "1"), ("__inline__", "inline"), ("__linux", "1"),
    ("__linux__", "1"), ("__signed__", "signed"), ("__typeof__", "typeof"), ("__unix", "1"),
    ("__unix__", "1"), ("__volatile__", "volatile"), ("__x86_64", "1"), ("__x86_64__", "1"),
    ("linux", "1"), ("unix", "1"), ("__DATE__", "\"Jul 24 2020\""), ("__TIME__", "\"01:32:50\"")]

/- The macros that are worked out at each use. -/
def builtins : List (String × Builtin) :=
  [("__FILE__", .file), ("__LINE__", .line), ("__COUNTER__", .counter),
    ("__TIMESTAMP__", .timestamp), ("__BASE_FILE__", .baseFile)]

/- Define the macros that are always there. -/
def definePredefined : Pre Unit := do
  predefined.forM fun (name, body) => define (ascii name) (ascii body)
  builtins.forM fun (name, b) =>
    modify fun s => { s with macros := s.macros.insert (ascii name) (.builtin b) }

/- A new session. -/
def start (cfg : Config) (store : FileStore) (stdin baseFile : Bytes) : Session :=
  let s : Session := { cfg := cfg, store := store, stdin := stdin, baseFile := baseFile }
  match definePredefined.run s with
  | .ok _ s | .error _ s => s

------------
-- Texts
------------

/- A token on the line that it is shown on. -/
def renumbered (t : Token) : Token :=
  { t with line := t.line + t.lineDelta }

/-
  Preprocess the tokens of a text.  Every conditional section
  must have been closed.
-/
def run (ts : List Token) : Pre (List Token) := do
  let ts := (← Expansion.expandAll Expansion.enough ts).output
  match (← get).conds with
  | c :: _ => fail c.start .unterminatedConditional
  | [] =>
    let ts ← StringRun.joinAll (← convert ts)
    return ts.map renumbered

/- A text under a name, or the file of that name. -/
def load (name : Bytes) (src? : Option Bytes) : Pre (List Token) :=
  match src? with
  | some src => tokenizeSource name src
  | none => Include.tokenizeFile name

/- Load a text, put files before it, and preprocess it. -/
def process (name : Bytes) (src? : Option Bytes) (forced : List Bytes) : Pre (List Token) := do
  let ts ← load name src?
  run (← Include.force forced ts)

end Preprocessor

end CCompiler
