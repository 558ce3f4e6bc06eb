import CCompiler.CommandLine.ConfigFlags
import CCompiler.CommandLine.Help
import CCompiler.Preprocess.Output

/-
  This file defines the command line of the compiler: its
  flags, what they are read into, and what it says about
  itself.

  Key definitions include:
    * `Definition`, `Options`
    * `Options.app`
    * `Options.reject?`
    * `Options.ofParsed`, `Options.config`
-/

namespace CCompiler

------------
-- Options
------------

/- A change to the macros, asked for on the command line. -/
inductive Definition
| define (name body : Bytes)
| undef (name : Bytes)
deriving DecidableEq, Repr

/- What the command line asks for, the settings apart. -/
structure Options where
  output : Bytes := []
  target : Bytes := []
  ruleFile : Bytes := []
  ruleTargets : List Bytes := []
  forced : List Bytes := []
  definitions : List Definition := []
  preprocessOnly : Bool := false
  ruleOnly : Bool := false
  ruleToo : Bool := false
  phony : Bool := false
  listTokens : Bool := false
  showTree : Bool := false
  verbose : Bool := false
  noSystemPaths : Bool := false

namespace Options

------------
-- Flags
------------

/- A flag that holds a text. -/
def textFlag (name usage expected : String) : Flag :=
  { name := ascii name, usage := ascii usage, value := .text [], expected := ascii expected }

/- A flag that is on or off. -/
def switchFlag (name usage : String) (on : Bool) : Flag :=
  { name := ascii name
    usage := ascii usage
    value := .switch on
    defaultText := FlagValue.boolText on }

/- A flag whose every occurrence counts. -/
def hookFlag (name usage expected : String) : Flag :=
  { name := ascii name, usage := ascii usage, value := .hook [], expected := ascii expected }

/- A flag that collects texts. -/
def listFlag (name usage expected : String) : Flag :=
  { name := ascii name, usage := ascii usage, value := .list [], expected := ascii expected }

/- The flags of the compiler. -/
def flags : List Flag :=
  [ textFlag "o" "Place the output into <file>. '-' is standard output." "file",
    textFlag "target" "Set the target ABI. Defaults to the host." "target",
    hookFlag "std" "Specify the language standard (c11 by default)." "std",
    switchFlag "S" "Compile to assembly (the only output format)." true,
    switchFlag "E" "Preprocess only and print the result." false,
    switchFlag "M" "Print a make rule for the input's dependencies and stop." false,
    switchFlag "MD" "Write a make rule to <file>.d while compiling." false,
    switchFlag "MP" "Add a phony target for every header." false,
    textFlag "MF" "Write the dependency rule to <file>." "file",
    hookFlag "MT" "Use <target> as the make rule target." "target",
    hookFlag "MQ" "Like -MT, quoting make's special characters." "target",
    hookFlag "I" "Add <dir> to the include path." "dir",
    hookFlag "idirafter" "Add <dir> to the include path after the system directories." "dir",
    hookFlag "D" "Define <macro>, as NAME or NAME=VALUE." "macro",
    hookFlag "U" "Undefine <macro>." "macro",
    listFlag "include" "Process <file> as if it were included at the top of the input." "file",
    switchFlag "dump-tokens" "Print the preprocessed tokens and stop." false,
    switchFlag "dump-ast" "Print the parsed program and stop." false,
    switchFlag "v" "Report each compilation stage on stderr." false,
    switchFlag "nostdinc" "Do not search the system include directories." false ]

/- What the compiler says about itself. -/
def about : App :=
  { name := ascii "chibicc"
    synopsis := ascii "[options] <file.c> ..."
    description := ascii
      ("A small C11 compiler that turns each C source file into x86-64 System V assembly. " ++
        "Assembling and linking are left to the system toolchain.")
    authors := [ascii "xplshn"]
    repository := ascii "<https://github.com/xplshn/chibicc>"
    since := 2025 }

/- The compiler with all its flags. -/
def app : Except RegisterFault App := do
  let set ← flags.foldlM (fun s f => s.add f) {}
  let set ← ({} : Config).addFlagGroups set
  return { about with flags := set }

/- Why an occurrence of a flag is refused, if it is. -/
def reject? (name value : Bytes) : Option Bytes :=
  if name == ascii "std" then
    match ({} : Config).applyStandard value with
    | .ok _ => none
    | .error f => some f.message
  else if name == ascii "f" || name == ascii "W" then ({} : Config).rejectFlag name value
  else none

------------
-- Reading
------------

/- The value of a flag. -/
def valueOf? (s : FlagSet) (name : String) : Option FlagValue :=
  (s.lookup? (ascii name)).map (·.value)

/- The text of a flag. -/
def textOf (s : FlagSet) (name : String) : Bytes :=
  match valueOf? s name with
  | some (.text t) => t
  | _ => []

/- Whether a flag is on. -/
def isOn (s : FlagSet) (name : String) : Bool :=
  match valueOf? s name with
  | some (.switch b) => b
  | _ => false

/- The texts that a flag collected. -/
def listOf (s : FlagSet) (name : String) : List Bytes :=
  match valueOf? s name with
  | some (.list l) => l
  | _ => []

/- The macro of an argument: a name, or a name and a body after an equals sign. -/
def definition (value : Bytes) : Definition :=
  match Bytes.splitAt? (Bytes.of '=') value with
  | some (name, body) => .define name body
  | none => .define value (ascii "1")

/- The change to the macros that an occurrence of a flag asks for. -/
def definition? (name value : Bytes) : Option Definition :=
  if name == ascii "D" then some (definition value)
  else if name == ascii "U" then some (.undef value)
  else none

/- The target of a rule that an occurrence of a flag asks for. -/
def ruleTarget? (name value : Bytes) : Option Bytes :=
  if name == ascii "MT" then some value
  else if name == ascii "MQ" then some (Output.quoteTarget value)
  else none

/- The options that arguments gave. -/
def ofParsed (p : FlagSet.Parsed) : Options :=
  let s := p.flags
  { output := textOf s "o"
    target := textOf s "target"
    ruleFile := textOf s "MF"
    ruleTargets := p.calls.filterMap fun (n, v) => ruleTarget? n v
    forced := listOf s "include"
    definitions := p.calls.filterMap fun (n, v) => definition? n v
    preprocessOnly := isOn s "E"
    ruleOnly := isOn s "M"
    ruleToo := isOn s "MD"
    phony := isOn s "MP"
    listTokens := isOn s "dump-tokens"
    showTree := isOn s "dump-ast"
    verbose := isOn s "v"
    noSystemPaths := isOn s "nostdinc" }

/- The settings after one occurrence of a flag. -/
def applyCall (c : Config) (name value : Bytes) : Config :=
  if name == ascii "std" then (c.applyStandard value).toOption.getD c
  else if name == ascii "I" then { c with includePaths := c.includePaths ++ [value] }
  else if name == ascii "idirafter" then { c with afterPaths := c.afterPaths ++ [value] }
  else c.applyCalls [(name, value)]

/- The settings that arguments gave. -/
def config (o : Options) (calls : List (Bytes × Bytes)) : Config :=
  let c := calls.foldl (fun c (n, v) => applyCall c n v) {}
  let c := { c with verbose := o.verbose }
  if o.noSystemPaths then { c with systemPaths := [] } else c

end Options

end CCompiler
