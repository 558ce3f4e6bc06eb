import CCompiler.Syntax.Declaration

/-
  This file reads statements.  Loops and switches give
  `break` and `continue` inside them their labels; an outer
  label comes back when the inner construct ends.

  Key definitions include:
    * `Statement.asmText`
    * `Statement.inLoop`
    * `Statement.stmt`, `Statement.compound`
-/

namespace CCompiler

namespace Statement

open Parse Grammar Specifier Typing

------------
-- Simple statements
------------

/- Assembly text after its keyword. -/
def asmText : Parse Bytes := do
  advance
  iterate () fun _ => do
    if ← checkAny ["volatile", "inline", "__volatile__"] then
      advance
      return .inl ()
    else return .inr ()
  expect "("
  let t ← tok
  match t.kind with
  | .str .char bytes =>
    advance
    expect ")"
    return bytes.dropLast
  | _ => fail t .expectedString

/- An expression as a statement, or an empty statement. -/
def exprStmt (read : Reader) : Parse Stmt := do
  let t ← tok
  if t.is ";" then
    advance
    return .block t []
  else
    let e ← read .expr
    expect ";"
    return .expr t e

/- A return from the function being read. -/
def returnStmt (read : Reader) (t : Token) : Parse Stmt := do
  advance
  if ← accept ";" then return .ret t none
  let e ← read .expr
  expect ";"
  let e ← addType e
  match (← get).function? with
  | none => throw .internal
  | some f =>
    match (← object f).type.returnType? with
    | none => throw .internal
    | some ret =>
      if ret.isRecord then return .ret t (some e)
      else return .ret t (some (← newCast e ret))

/- A jump to a label, or to the address that an expression gives. -/
def gotoStmt (read : Reader) (t : Token) : Parse Stmt := do
  advance
  if ← accept "*" then
    let e ← read .expr
    expect ";"
    return .gotoExpr t e
  else
    let nameTok ← tok
    let name ← identOf nameTok
    let j ← newJump nameTok
    advance
    expect ";"
    return .goto t name j

/- A jump out of a loop or switch, or to the next round of a loop. -/
def leaveStmt (t : Token) (target : Bytes) (cause : Fault) : Parse Stmt := do
  if target.isEmpty then fail t cause
  advance
  expect ";"
  return .jump t target

/- A statement with a label. -/
def labelStmt (read : Reader) (t : Token) : Parse Stmt := do
  let unique ← freshName
  advance
  advance
  modify fun s => { s with labels := (t.text, unique) :: s.labels }
  return .label t t.text unique (← read .stmt)

------------
-- Choices
------------

/- An expression in parentheses. -/
def condition (read : Reader) : Parse Expr := do
  expect "("
  let e ← read .expr
  expect ")"
  return e

/- A choice between two statements. -/
def ifStmt (read : Reader) (t : Token) : Parse Stmt := do
  advance
  let c ← condition read
  let thn ← read .stmt
  let els ← if ← accept "else" then some <$> read .stmt else pure none
  return .cond t c thn els

/- A choice by the value of an expression. -/
def switchStmt (read : Reader) (t : Token) : Parse Stmt := do
  advance
  let c ← condition read
  let outer? := (← get).switch?
  let outerBrk := (← get).brk
  let brk ← freshName
  modify fun s => { s with switch? := some {}, brk := brk }
  let body ← read .stmt
  let frame := (← get).switch?.getD {}
  modify fun s => { s with switch? := outer?, brk := outerBrk }
  return .switch t c body frame.arms frame.default? brk

/- Change the switch being read. -/
def modifySwitch (f : SwitchFrame → SwitchFrame) : Parse Unit :=
  modify fun s => { s with switch? := s.switch?.map f }

/- One arm of a switch, for a value or a range of values. -/
def caseStmt (read : Reader) (t : Token) : Parse Stmt := do
  if (← get).switch?.isNone then fail t .strayCase
  advance
  let first ← constExpr read
  let last ← if ← accept "..." then do
      let last ← constExpr read
      if last < first then fail (← tok) .emptyCaseRange
      pure last
    else pure first
  expect ":"
  let label ← freshName
  modifySwitch fun f => { f with arms := f.arms ++ [⟨label, first, last⟩] }
  return .case t label first last (← read .stmt)

/- The arm of a switch for all other values. -/
def defaultStmt (read : Reader) (t : Token) : Parse Stmt := do
  if (← get).switch?.isNone then fail t .strayDefault
  advance
  expect ":"
  let label ← freshName
  modifySwitch fun f => { f with default? := some label }
  return .case t label 0 0 (← read .stmt)

------------
-- Loops
------------

/- Read the inside of a loop with labels of its own. -/
def inLoop {α : Type} (inside : Bytes → Bytes → Parse α) : Parse α := do
  let outerBrk := (← get).brk
  let outerCont := (← get).cont
  let brk ← freshName
  let cont ← freshName
  modify fun s => { s with brk := brk, cont := cont }
  let result ← inside brk cont
  modify fun s => { s with brk := outerBrk, cont := outerCont }
  return result

/- What a `for` loop starts with. -/
def forInit (read : Reader) : Parse Stmt := do
  if ← isTypeName (← tok) then
    let (base, _) ← read (.specifiers none)
    Declaration.declaration read base none
  else exprStmt read

/- An expression, unless the token that ends it comes first. -/
def exprUntil (read : Reader) (stop : String) : Parse (Option Expr) := do
  let e? ← if ← check stop then pure none else some <$> read .expr
  expect stop
  return e?

/- A `for` loop. -/
def forStmt (read : Reader) (t : Token) : Parse Stmt := do
  advance
  expect "("
  enterScope
  let s ← inLoop fun brk cont => do
    let init ← forInit read
    let test ← exprUntil read ";"
    let inc ← exprUntil read ")"
    let body ← read .stmt
    return Stmt.loop t (some init) test inc body brk cont
  leaveScope
  return s

/- A `while` loop. -/
def whileStmt (read : Reader) (t : Token) : Parse Stmt := do
  advance
  let c ← condition read
  inLoop fun brk cont => do
    let body ← read .stmt
    return .loop t none (some c) none body brk cont

/- A `do` loop. -/
def doStmt (read : Reader) (t : Token) : Parse Stmt := do
  advance
  let (body, brk, cont) ← inLoop fun brk cont => do
    let body ← read .stmt
    return (body, brk, cont)
  expect "while"
  let c ← condition read
  expect ";"
  return .doLoop t body c brk cont

------------
-- Statements
------------

/- A statement. -/
def stmt (read : Reader) : Parse Stmt := do
  let t ← tok
  if t.is "return" then returnStmt read t
  else if t.is "if" then ifStmt read t
  else if t.is "switch" then switchStmt read t
  else if t.is "case" then caseStmt read t
  else if t.is "default" then defaultStmt read t
  else if t.is "for" then forStmt read t
  else if t.is "while" then whileStmt read t
  else if t.is "do" then doStmt read t
  else if t.is "asm" || t.is "__asm__" then
    let text ← asmText
    expect ";"
    return .asm t text
  else if t.is "goto" then gotoStmt read t
  else if t.is "break" then leaveStmt t (← get).brk .strayBreak
  else if t.is "continue" then leaveStmt t (← get).cont .strayContinue
  else if t.isIdent && (← peekIs ":") then labelStmt read t
  else if t.is "\x7b" then
    advance
    read .compound
  else exprStmt read

/- A declaration in a block; only variables of the block make a statement. -/
def blockDeclaration (read : Reader) : Parse (Option Stmt) := do
  let (base, attr?) ← read (.specifiers (some {}))
  let attr := attr?.getD {}
  if attr.isTypedef then
    Declaration.typedefs read base
    return none
  else if ← Declaration.atFunction read then
    Declaration.function read base attr
    return none
  else if attr.isExtern then
    Declaration.unitVariables read base attr
    return none
  else return some (← Declaration.declaration read base (some attr))

/- One declaration or statement of a block. -/
def blockItem (read : Reader) : Parse (Option Stmt) := do
  if (← isTypeName (← tok)) && !(← peekIs ":") then blockDeclaration read
  else return some (← read .stmt)

/- A block after its opening brace, with types in all of its expressions. -/
def compound (read : Reader) : Parse Stmt := do
  let start ← tok
  enterScope
  let body ← iterate #[] fun (body : Array Stmt) => do
    let t ← tok
    if t.is "\x7d" then return .inr body
    if t.isEof then fail t (.expected (ascii "\x7d"))
    match ← blockItem read with
    | some s => return .inl (body.push (← addTypeStmt s))
    | none => return .inl body
  leaveScope
  advance
  return .block start body.toList

end Statement

end CCompiler
