import CCompiler.CommandLine.Options
import CCompiler.Codegen.Module
import CCompiler.Preprocess.Preprocessor
import CCompiler.Syntax.Printer
import CCompiler.Syntax.TranslationUnit

/-
  This file defines a run of the compiler: from its arguments,
  the standard input and the files it can see, to what it
  prints, the files it leaves and its exit status.

  Key definitions include:
    * `World`, `Command`
    * `Command.compileFile`
    * `Command.run`
-/

namespace CCompiler

------------
-- State
------------

/-
  What a run can see and has printed.  `asked` holds the paths
  on which it depends.
-/
structure World where
  store : FileStore := {}
  stdin : Bytes := []
  stdout : Bytes := []
  stderr : Bytes := []
  asked : List Bytes := []

/- The steps of a run; the first failure ends it. -/
abbrev Command := EStateM Failure World

namespace Command

/- Print to the standard output. -/
def print (text : Bytes) : Command Unit :=
  modify fun w => { w with stdout := w.stdout ++ text }

/- Print to the standard error. -/
def report (text : Bytes) : Command Unit :=
  modify fun w => { w with stderr := w.stderr ++ text }

/- Print a line of progress, if asked for. -/
def info (cfg : Config) (text : Bytes) : Command Unit := do
  if cfg.verbose then report (Config.infoLine text)

/- The text printed for a failure. -/
def failureText : Failure → Bytes
| .fault cause place | .wrapped _ cause place =>
  (Diagnostic.ofFault cause place).render false
| .plain message => ascii "chibicc: error: " ++ message ++ ascii "\n"
| .crash _ | .exhausted | .internal => ascii "chibicc: error: internal error\n"

/- Write a text to a file; without a name, or for a dash, to the standard output. -/
def write (path text : Bytes) : Command Unit := do
  if path.isEmpty || path == ascii "-" then print text
  else
    modify fun w => { w with asked := w.asked ++ [path] }
    match (← get).store.write path text with
    | .ok s => modify fun w => { w with store := s }
    | .error f =>
      throw (.plain (ascii "cannot open output file: " ++ path ++ ascii ": " ++ f.message))

------------
-- Stages
------------

/- Apply the changes to the macros, then read a file and preprocess it. -/
def readTokens (o : Options) (input : Bytes) : Pre (List Token) := do
  o.definitions.forM fun
    | .define name body => Preprocessor.define name body
    | .undef name => Preprocessor.undef name
  Pre.info (ascii "preprocessing " ++ input)
  Preprocessor.process input none o.forced

/- The tokens of a file, with the session in which they were read. -/
def preprocess (cfg : Config) (o : Options) (input : Bytes) : Command (List Token × Session) := do
  let w ← get
  let start := Preprocessor.start cfg w.store w.stdin input
  let leave (s : Session) : Command Unit := do
    report (s.messages.toList.flatMap Message.text)
    modify fun w => { w with stdin := s.stdin, asked := w.asked ++ s.asked.toList }
  match (readTokens o input).run start with
  | .ok ts s =>
    leave s
    return (ts, s)
  | .error e s =>
    leave s
    throw e

/- The file that a rule is written to; by default the output with another extension. -/
def rulePath (o : Options) (input : Bytes) : Bytes :=
  if o.ruleFile.isEmpty && o.ruleToo && !o.ruleOnly then
    let base := if o.output.isEmpty || o.output == ascii "-" then input else o.output
    PathName.replaceExtension base (ascii ".d")
  else o.ruleFile

/- Write the rule with the files that were read. -/
def writeRule (o : Options) (input : Bytes) (files : List SourceFile) : Command Unit :=
  write (rulePath o input)
    (Output.dependencies files input (Bytes.join (ascii " ") o.ruleTargets) o.phony)

/- The unit of tokens. -/
def parse (cfg : Config) (ts : List Token) : Command Program := do
  let r := TranslationUnit.parse cfg ts
  report r.notices
  match r.result with
  | .ok p =>
    report (TranslationUnit.report cfg p)
    return p
  | .error e => throw e

/- The functions of a unit as trees. -/
def trees (p : Program) : Bytes :=
  p.globals.flatMap fun
    | .asm _ text => text ++ ascii "\n"
    | .object id =>
      let o := p.objects.entry id
      match o.body? with
      | some body => o.name ++ ascii ": " ++ p.renderBody o body ++ ascii "\n"
      | none => o.name ++ ascii ": " ++ o.type.render p.records ++ ascii "\n"

/- Compile tokens to assembly text and write it. -/
def translate (cfg : Config) (o : Options) (input : Bytes) (s : Session) (ts : List Token) :
    Command Unit := do
  info cfg (ascii "parsing " ++ input)
  let ts :=
    match (Pre.settle ts).run s with
    | .ok settled _ => settled
    | .error _ _ => ts
  let p ← parse cfg ts
  if o.showTree then print (trees p)
  else
    info cfg (ascii "generating " ++ cfg.target ++ ascii " code for " ++ input)
    match Codegen.compile cfg s.files.toList p with
    | .error e => throw e
    | .ok text =>
      let out :=
        if o.output.isEmpty then PathName.replaceExtension input (ascii ".s") else o.output
      info cfg (ascii "writing " ++ out)
      write out text

/- Compile one file as far as the options ask for. -/
def compileFile (cfg : Config) (o : Options) (input : Bytes) : Command Unit := do
  let (ts, s) ← preprocess cfg o input
  if o.ruleOnly || o.ruleToo then writeRule o input s.files.toList
  if o.ruleOnly then return
  if o.listTokens then print (Output.listing ts ++ ascii "\n")
  else if o.preprocessOnly then write o.output (Output.source ts)
  else translate cfg o input s ts

------------
-- Runs
------------

/- The operating system and the architecture that the compiler runs on. -/
def host : Bytes × Bytes :=
  (ascii "linux", ascii "amd64")

/- Compile all files in order. -/
def compileAll (cfg : Config) (o : Options) (inputs : List Bytes) : Command Unit := do
  let choice := cfg.setTarget host.1 host.2 o.target
  report choice.log
  if let some f := choice.fault? then throw (.plain f.message)
  if inputs.isEmpty then throw (.plain (ascii "no input files"))
  if inputs.length > 1 && !o.output.isEmpty then
    throw (.plain (ascii "cannot specify '-o' with multiple files"))
  inputs.forM (compileFile choice.config o)

/- Run steps to their end; the exit status tells whether they failed. -/
def execute (c : Command Unit) (w : World) : Nat × World :=
  match c.run w with
  | .ok _ w => (0, w)
  | .error e w => (1, { w with stderr := w.stderr ++ failureText e })

/- Run the compiler with arguments in a given year. -/
def run (year : Nat) (args : List Bytes) (w : World) : Nat × World :=
  let started := do
    let a ← Options.app
    a.start year Options.reject? args
  match started with
  | .error f => execute (throw (.plain f.message)) w
  | .ok (_, .refused _ text) => (1, { w with stderr := w.stderr ++ text })
  | .ok (_, .help page) => (0, { w with stdout := w.stdout ++ page })
  | .ok (parsed, .ready) =>
    let o := Options.ofParsed parsed
    execute (compileAll (o.config parsed.calls) o parsed.positional) w

end Command

end CCompiler
