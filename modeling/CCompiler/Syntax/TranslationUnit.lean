import CCompiler.Syntax.Expression
import CCompiler.Syntax.Statement

/-
  This file reads whole translation units.  It ties the
  phrases of C together, reads the declarations of a unit one
  after the other, finds the functions that are needed, and
  keeps one definition of every variable.

  Key definitions include:
    * `TranslationUnit.read`
    * `TranslationUnit.markLive`, `TranslationUnit.roots`
    * `TranslationUnit.dropTentative`
    * `TranslationUnit.parse`
    * `TranslationUnit.constant`
-/

namespace CCompiler

namespace TranslationUnit

open Parse Grammar

------------
-- Phrases
------------

/- Read a phrase; the fuel bounds how deep phrases are nested. -/
def read : Nat → {α : Type} → Phrase α → Parse α
| 0, _, _ => throw .internal
| n + 1, _, p =>
  match p with
  | .expr => Expression.expr (read n)
  | .assign => Expression.assign (read n)
  | .conditional => Expression.conditional (read n)
  | .binary least => Expression.binary (read n) least
  | .cast => Expression.cast (read n)
  | .unary => Expression.unary (read n)
  | .typeName => Declarator.typeName (read n)
  | .specifiers attr? => Specifier.specifiers (read n) attr?
  | .declarator base => Declarator.declarator (read n) base
  | .abstractDeclarator base => Declarator.abstractDeclarator (read n) base
  | .typeSuffix base => Declarator.typeSuffix (read n) base
  | .stmt => Statement.stmt (read n)
  | .compound => Statement.compound (read n)
  | .skipExcess => Initializer.skipExcess (read n)
  | .initializer init => Initializer.initializer (read n) init
  | .designation init => Initializer.designation (read n) init

/- The nesting that a list of tokens can have: a few phrases for every token. -/
def depth (ts : List Token) : Nat :=
  64 * ts.length + 1024

------------
-- Declarations
------------

/- Declare the builtin function that takes memory from the stack. -/
def declareBuiltins : Parse Unit := do
  let id ← newGlobal (ascii "alloca") (.func (.ptr .void) [.int] [default] false)
  modifyObject id fun o => { o with isDefinition := false }
  modify fun s => { s with alloca := id }

/- One declaration of the unit. -/
def topLevel (r : Reader) : Parse Unit := do
  let t ← tok
  if t.is "asm" || t.is "__asm__" then
    let text ← Statement.asmText
    modify fun s => { s with globals := s.globals.push (.asm t text) }
    let _ ← accept ";"
  else
    let (base, attr?) ← r (.specifiers (some {}))
    let attr := attr?.getD {}
    if attr.isTypedef then Declaration.typedefs r base
    else if ← Declaration.atFunction r then Declaration.function r base attr
    else Declaration.unitVariables r base attr

/- All the declarations of the unit. -/
def declarations (r : Reader) : Parse Unit := do
  declareBuiltins
  iterate () fun _ => do
    if (← tok).isEof then return .inr ()
    topLevel r
    return .inl ()

------------
-- Needed functions
------------

/- How the names of functions are looked up. -/
abbrev Callees := Bytes → Option ObjId

/-
  Mark the functions on a list, and all that they refer to,
  as needed.
-/
def markLive (find : Callees) : Nat → List ObjId → Objects → Objects
| 0, _, os => os
| _, [], os => os
| fuel + 1, id :: rest, os =>
  let o := os.entry id
  if !o.isFunction || o.isLive then markLive find fuel rest os
  else
    let os := os.modify id fun o => { o with isLive := true }
    markLive find fuel (o.refs.filterMap find ++ rest) os

/- The objects of a unit that are needed in any case. -/
def roots (globals : List TopLevel) (os : Objects) : List ObjId :=
  globals.filterMap fun
    | .object id => if (os.entry id).isRoot then some id else none
    | .asm _ _ => none

/- Mark the functions that are needed: the roots, and what they refer to. -/
def markAllLive (find : Callees) (globals : List TopLevel) (os : Objects) : Objects :=
  let refs := os.foldl (fun n o => n + o.refs.length) 0
  markLive find ((roots globals os).length + refs + 1) (roots globals os) os

------------
-- Tentative definitions
------------

/- The names of variables that have a definition which is not tentative. -/
def definedNames (os : Objects) (globals : List TopLevel) : List Bytes :=
  globals.filterMap fun
    | .object id =>
      let o := os.entry id
      if o.isDefinition && !o.isTentative && !o.isFunction then some o.name else none
    | .asm _ _ => none

/-
  Drop a tentative definition if there is a real one, or an
  earlier tentative one, of the same name.
-/
def dropTentative (os : Objects) : List Bytes → List TopLevel → List TopLevel
| _, [] => []
| defined, .asm t s :: rest => .asm t s :: dropTentative os defined rest
| defined, .object id :: rest =>
  let o := os.entry id
  if o.isTentative then
    if defined.contains o.name then dropTentative os defined rest
    else .object id :: dropTentative os (o.name :: defined) rest
  else .object id :: dropTentative os defined rest

------------
-- Units
------------

/- The function that a name stands for in the whole unit. -/
def functionNamed (s : ParseState) : Callees := fun name =>
  match s.scopes.getLast?.bind fun sc => sc.vars.lookup name with
  | some (.object id) => if (s.objects.entry id).isFunction then some id else none
  | _ => none

/- The unit that was read. -/
def finish (s : ParseState) : Program :=
  let globals := s.globals.toList
  let os := markAllLive (functionNamed s) globals s.objects
  { globals := dropTentative os (definedNames os globals) globals
    objects := os
    records := s.records
    jumps := s.jumps }

/- The outcome of reading: the notices printed on the way, and the result. -/
structure Outcome (α : Type) where
  notices : Bytes
  result : Except Failure α

/- Read a translation unit. -/
def parse (cfg : Config) (ts : List Token) : Outcome Program :=
  match (declarations (read (depth ts))).run { cfg := cfg, toks := ts } with
  | .ok _ s => ⟨s.notices, .ok (finish s)⟩
  | .error e s => ⟨s.notices, .error e⟩

/- What is reported about a unit that was read. -/
def report (cfg : Config) (p : Program) : Bytes :=
  if cfg.verbose then
    Config.infoLine (ascii "parsed " ++ Bytes.ofNat p.globals.length ++
      ascii " top-level objects")
  else []

/-
  The value of a constant expression, and the tokens after it.
  It does not matter which texts of a run the tokens are from.
-/
def constant (ts : List Token) : Outcome (Int64 × List Token) :=
  match (constExpr (read (depth ts))).run { toks := ts.map Token.detached } with
  | .ok v s => ⟨s.notices, .ok (v, ts.drop (ts.length - s.toks.length))⟩
  | .error e s => ⟨s.notices, .error e⟩

end TranslationUnit

end CCompiler
