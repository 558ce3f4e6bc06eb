import CCompiler.Preprocess.Include
import CCompiler.Preprocess.Substitution
import CCompiler.Syntax.TranslationUnit

/-
  This file carries out directives: definitions, conditional
  sections, inclusion, line numbers and pragmas.

  Key definitions include:
    * `Directive.Resume`
    * `Directive.condition`
    * `Directive.define`
    * `Directive.fileName`
    * `Directive.run`
-/

namespace CCompiler

namespace Directive

open Pre Conditional

/- Where reading goes on: at tokens put in, and then at the rest. -/
structure Resume where
  inserted : List Token := []
  rest : List Token
deriving Inhabited

/- Go on at a place in the tokens. -/
def resumeAt (rest : List Token) : Resume := { rest := rest }

/- The first token of a list; lists end with one. -/
def first (ts : List Token) : Token :=
  ts.headD default

/- Move to the next line; what is left of the present one is superfluous. -/
def skipLine (ts : List Token) : Pre (List Token) := do
  match ts with
  | [] => throw .internal
  | t :: _ =>
    if t.atLineStart then return ts
    warn t .extraTokens .extraToken
    return ts.dropWhile fun t => !t.atLineStart && !t.isEof

------------
-- Conditions
------------

/-
  The tokens of a condition with every question whether a
  name is defined replaced by its answer.  The fuel counts
  tokens.
-/
def answerDefined : Nat → Array Token → List Token → Pre (List Token)
| 0, _, _ => throw .internal
| _, _, [] => throw .internal
| fuel + 1, done, t :: ts => do
  if t.isEof then return done.toList ++ [t]
  else if !t.is "defined" then answerDefined fuel (done.push t) ts
  else
    let hasParen := (first ts).is "("
    let ts := if hasParen then ts.tail else ts
    let name := first ts
    if !name.isIdent then fail t .macroNameNotIdentifier
    let defined := ((← get).macros.ofToken? name).isSome
    let ts ← if hasParen then ofScan (Arguments.skip ")" ts.tail) else pure ts.tail
    let n ← numberToken (if defined then 1 else 0) t
    answerDefined fuel (done.push n) ts

/- Tokens with a zero for every name that is left. -/
def zeroNames : List Token → Pre (List Token)
| [] => return []
| t :: ts => do
  let u ← if t.isIdent then numberToken 0 t else pure t
  return u :: (← zeroNames ts)

/-
  The value of a condition, and the tokens from the next line
  on.  `start` is the name of the directive.
-/
def condition (expand : Expand) (start : Token) (ts : List Token) : Pre (Int64 × List Token) := do
  let (line, rest) := Arguments.copyLine ts
  let line ← answerDefined (line.length + 1) #[] line
  let line := (← expand line).output
  if (first line).isEof then fail start .noExpression
  let line ← settle (← convert (← zeroNames line))
  let o := TranslationUnit.constant line
  match o.result with
  | .error e => throw e
  | .ok (v, more) =>
    if !(first more).isEof then fail (first more) .extraToken
    return (v, rest)

/- Open a conditional section. -/
def openSection (start : Token) (taken : Bool) : Pre Unit :=
  modify fun s => { s with conds := { start := start, taken := taken } :: s.conds }

/- Change the innermost conditional section. -/
def modifySection (f : Conditional → Conditional) : Pre Unit :=
  modify fun s =>
    match s.conds with
    | c :: cs => { s with conds := f c :: cs }
    | [] => s

/- The innermost conditional section, which must not be in its last part. -/
def openGroup (hash : Token) (cause : Fault) : Pre Conditional := do
  match (← get).conds with
  | c :: _ => if c.part == .elsePart then fail hash cause else return c
  | [] => fail hash cause

/- A section under a condition. -/
def ifDirective (expand : Expand) (hash name : Token) (ts : List Token) : Pre Resume := do
  let (v, rest) ← condition expand name ts
  openSection hash (v != 0)
  return resumeAt (if v == 0 then skipGroup 0 rest else rest)

/- A section under a name that is defined, or is not. -/
def ifdefDirective (name : Token) (ts : List Token) : Pre Resume := do
  let defined := ((← get).macros.ofToken? (first ts)).isSome
  let taken := defined == name.is "ifdef"
  openSection name taken
  let rest ← skipLine ts.tail
  return resumeAt (if taken then rest else skipGroup 0 rest)

/- The next group of a section, under a condition. -/
def elifDirective (expand : Expand) (hash name : Token) (ts : List Token) : Pre Resume := do
  let c ← openGroup hash .strayElif
  modifySection fun c => { c with part := .elifPart }
  if c.taken then return resumeAt (skipGroup 0 (name :: ts))
  let (v, rest) ← condition expand name ts
  if v != 0 then
    modifySection fun c => { c with taken := true }
    return resumeAt rest
  else return resumeAt (skipGroup 0 rest)

/- The last group of a section. -/
def elseDirective (hash : Token) (ts : List Token) : Pre Resume := do
  let c ← openGroup hash .strayElse
  modifySection fun c => { c with part := .elsePart }
  let rest ← skipLine ts
  return resumeAt (if c.taken then skipGroup 0 rest else rest)

/- The end of a section. -/
def endifDirective (hash : Token) (ts : List Token) : Pre Resume := do
  if (← get).conds.isEmpty then fail hash .strayEndif
  modify fun s => { s with conds := s.conds.tail }
  return resumeAt (← skipLine ts)

------------
-- Definitions
------------

/- A definition of a macro after the name of the directive. -/
def define (ts : List Token) : Pre Resume := do
  let name := first ts
  if !name.isIdent then fail name .macroNameNotIdentifier
  let after := ts.tail
  let open? := first after
  let (m, rest) ← if !open?.spaced && open?.is "(" then do
      let (ps, after) ← ofScan (Arguments.parameters (after.length + 1) {} after.tail)
      let (body, rest) := Arguments.copyLine after
      pure (Macro.function ps.names.toList ps.rest? body, rest)
    else
      let (body, rest) := Arguments.copyLine after
      pure (Macro.object body, rest)
  if let some old := (← get).macros.find? name.text then
    if !old.sameAs m then warn name .macroRedefined (.macroRedefined name.text)
  modify fun s => { s with macros := s.macros.insert name.text m }
  return resumeAt rest

/- The end of a definition. -/
def undef (ts : List Token) : Pre Resume := do
  let name := first ts
  if !name.isIdent then fail name .macroNameNotIdentifier
  modify fun s => { s with macros := s.macros.erase name.text }
  return resumeAt (← skipLine ts.tail)

------------
-- Inclusion
------------

/- A file name in angle brackets: its spelling, and the tokens from the closing one on. -/
def angled : Array Token → List Token → TokenScan (Bytes × List Token)
| _, [] => .error (.expected (ascii ">"), default)
| done, t :: ts =>
  if t.is ">" then .ok (Token.joinText done.toList, t :: ts)
  else if t.atLineStart || t.isEof then .error (.expected (ascii ">"), t)
  else angled (done.push t) ts

/-
  The file name of an inclusion, whether it stands in double
  quotes, and the tokens from the next line on.  A macro in
  its place is expanded; the fuel bounds how often.
-/
def fileName (expand : Expand) : Nat → List Token → Pre (Bytes × Bool × List Token)
| 0, _ => throw .internal
| fuel + 1, ts => do
  let t := first ts
  if t.kind.isStr then
    return ((t.text.drop 1).dropLast, true, ← skipLine ts.tail)
  else if t.is "<" then
    if t.atLineStart then fail t (.expected (ascii ">"))
    let (name, close) ← ofScan (angled #[] ts.tail)
    return (name, false, ← skipLine close.tail)
  else if t.isIdent then
    let (line, rest) := Arguments.copyLine ts
    let line := (← expand line).output
    let (name, quoted, _) ← fileName expand fuel line
    return (name, quoted, rest)
  else fail t .expectedFilename

/- An inclusion; a quoted name is looked for beside the file first. -/
def includeDirective (expand : Expand) (hash : Token) (ts : List Token) : Pre Resume := do
  let (name, quoted, rest) ← fileName expand 64 ts
  let beside? ← if quoted then Include.searchBeside hash.file.name name else pure none
  let path ← match beside? with
    | some path => pure path
    | none => do
      let found? ← Include.search name
      pure (found?.getD name)
  return { inserted := ← Include.includeFile path (first ts), rest := rest }

/- An inclusion from the directories after that of the last one. -/
def includeNext (expand : Expand) (ts : List Token) : Pre Resume := do
  let (name, _, rest) ← fileName expand 64 ts
  let path := (← Include.searchNext name).getD name
  return { inserted := ← Include.includeFile path (first ts), rest := rest }

------------
-- Lines and pragmas
------------

/- Change how the text of a token is shown. -/
def modifyShown (t : Token) (f : Shown → Shown) : Pre Unit :=
  modify fun s => { s with shown := s.shown.modify t.file.id f }

/- The number of the next line, and the name of the file if one is given. -/
def lineMarker (expand : Expand) (ts : List Token) : Pre Resume := do
  let start := first ts
  let (line, rest) := Arguments.copyLine ts
  let line ← convert (← expand line).output
  let number := first line
  match number.kind with
  | .int .int v =>
    modifyShown start fun s => { s with lineDelta := v.toInt - (start.line + 1) }
    let name := first line.tail
    match name.kind with
    | .eof => return resumeAt rest
    | .str _ bytes =>
      modifyShown start fun s => { s with name := bytes.dropLast }
      return resumeAt rest
    | _ => fail name .filenameExpected
  | _ => fail number .invalidLineMarker

/- A pragma; only the one about reading a file once means something. -/
def pragma (name : Token) (ts : List Token) : Pre Resume := do
  let word := first ts
  if word.is "once" then
    modify fun s => { s with once := name.file.name :: s.once }
    return resumeAt (← skipLine ts.tail)
  else
    if !word.atLineStart then warn word .unknownPragmas (.ignoredPragma word.text)
    return resumeAt (ts.dropWhile fun t => !t.atLineStart && !t.isEof)

------------
-- Directives
------------

/- Carry out a directive: `hash` starts it, and its name comes first in `ts`. -/
def run (expand : Expand) (hash : Token) (ts : List Token) : Pre Resume := do
  let name := first ts
  let after := ts.tail
  if name.is "include" then includeDirective expand hash after
  else if name.is "include_next" then includeNext expand after
  else if name.is "define" then define after
  else if name.is "undef" then undef after
  else if name.is "if" then ifDirective expand hash name after
  else if name.is "ifdef" || name.is "ifndef" then ifdefDirective name after
  else if name.is "elif" then elifDirective expand hash name after
  else if name.is "else" then elseDirective hash after
  else if name.is "endif" then endifDirective hash after
  else if name.is "line" then lineMarker expand after
  else if name.kind == .ppNum then lineMarker expand ts
  else if name.is "pragma" then pragma name after
  else if name.is "error" then fail name .errorDirective
  else if name.atLineStart then return resumeAt ts
  else fail name .invalidDirective

end Directive

end CCompiler
