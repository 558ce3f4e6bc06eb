import CCompiler.Preprocess.Session

/-
  This file reads lists of tokens with a structure of their
  own: the arguments of a macro, its parameters, and the rest
  of a line.

  Key definitions include:
    * `Arguments.readOne`
    * `Arguments.readAll`
    * `Arguments.parameters`
    * `Arguments.copyLine`
-/

namespace CCompiler

/- An argument of a macro; `isRest` marks the one for all further arguments. -/
structure MacroArg where
  name : Bytes
  isRest : Bool := false
  toks : List Token
deriving Inhabited

namespace MacroArg

/- Whether an argument has no tokens. -/
def isEmpty (a : MacroArg) : Bool :=
  ((a.toks.head?).map (·.isEof)).getD true

end MacroArg

namespace Arguments

------------
-- Lists
------------

/- Move over a token of a spelling, which must be there. -/
def skip (s : String) : List Token → TokenScan (List Token)
| [] => .error (.expected (ascii s), default)
| t :: ts => if t.is s then .ok ts else .error (.expected (ascii s), t)

/-
  The tokens up to the end of their line, as a list of their
  own, and the tokens from the next line on.
-/
def copyLine : List Token → List Token × List Token
| [] => ([], [])
| t :: ts =>
  if t.atLineStart || t.isEof then ([t.toEof], t :: ts)
  else
    let (line, rest) := copyLine ts
    (t :: line, rest)

------------
-- Arguments
------------

/-
  One argument, up to the comma or closing parenthesis that
  ends it.  With `all` commas belong to it.
-/
def readOne (all : Bool) : Nat → List Token → TokenScan (List Token × List Token)
| _, [] => .error (.prematureEnd, default)
| level, t :: ts =>
  if level == 0 && (t.is ")" || (!all && t.is ",")) then .ok ([t.toEof], t :: ts)
  else if t.isEof then .error (.prematureEnd, t)
  else do
    let level := if t.is "(" then level + 1 else if t.is ")" then level - 1 else level
    let (arg, rest) ← readOne all level ts
    .ok (t :: arg, rest)

/- The arguments for named parameters, with those before them. -/
def readNamed : List Bytes → Array MacroArg → List Token → TokenScan (Array MacroArg × List Token)
| [], done, ts => .ok (done, ts)
| p :: ps, done, ts => do
  let ts ← if done.isEmpty then pure ts else skip "," ts
  let (arg, rest) ← readOne false 0 ts
  readNamed ps (done.push ⟨p, false, arg⟩) rest

/- All further arguments as one. -/
def readRest (name : Bytes) (done : Array MacroArg) (ts : List Token) :
    TokenScan (Array MacroArg × List Token) := do
  match ts with
  | [] => .error (.prematureEnd, default)
  | t :: _ =>
    if t.is ")" then .ok (done.push ⟨name, true, [t.toEof]⟩, ts)
    else
      let ts ← if done.isEmpty then pure ts else skip "," ts
      let (arg, rest) ← readOne true 0 ts
      .ok (done.push ⟨name, true, arg⟩, rest)

/-
  The arguments of a call after its opening parenthesis, and
  the tokens from the closing one on.  `start` is the name of
  the macro.
-/
def readAll (start : Token) (params : List Bytes) (rest? : Option Bytes) (ts : List Token) :
    TokenScan (List MacroArg × List Token) := do
  let (args, ts) ← readNamed params #[] ts
  let (args, ts) ← match rest? with
    | some name => readRest name args ts
    | none =>
      if ((ts.head?).map (·.is ")")).getD false then .ok (args, ts)
      else .error (.tooManyArguments, start)
  let _ ← skip ")" ts
  .ok (args.toList, ts)

------------
-- Parameters
------------

/- The parameters of a macro: their names, and the name for further arguments. -/
structure Parameters where
  names : Array Bytes := #[]
  rest? : Option Bytes := none

/- The parameters of a macro after the opening parenthesis, and the tokens after them. -/
def parameters : Nat → Parameters → List Token → TokenScan (Parameters × List Token)
| 0, _, ts => .error (.expectedIdentifier, ts.headD default)
| fuel + 1, ps, ts => do
  if ((ts.head?).map (·.is ")")).getD false then .ok (ps, ts.tail)
  else
    let ts ← if ps.names.isEmpty then pure ts else skip "," ts
    match ts with
    | [] => .error (.expectedIdentifier, default)
    | t :: after =>
      if t.is "..." then
        let rest ← skip ")" after
        .ok ({ ps with rest? := some (ascii "__VA_ARGS__") }, rest)
      else if !t.isIdent then .error (.expectedIdentifier, t)
      else if ((after.head?).map (·.is "...")).getD false then
        let rest ← skip ")" after.tail
        .ok ({ ps with rest? := some t.text }, rest)
      else parameters fuel { ps with names := ps.names.push t.text } after

end Arguments

end CCompiler
