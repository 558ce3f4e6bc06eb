import CCompiler.Preprocess.Directive

/-
  This file expands lists of tokens: macros are replaced by
  their bodies and directives are carried out, until the end
  of the list.

  A token remembers the macros it stems from, and is not
  replaced by any of them again.

  Key definitions include:
    * `Expansion.use?`, `Expansion.Use.tokens`
    * `Expansion.step`
    * `Expansion.expandAll`
-/

namespace CCompiler

namespace Expansion

open Pre

------------
-- Replacement
------------

/- The texts that say when the compiler was built. -/
def timestamp : Bytes :=
  ascii "Fri Jul 24 01:32:50 2020"

/- The token that takes the place of a worked-out macro. -/
def builtinToken (b : Builtin) (t : Token) : Pre Token := do
  let root := t.root
  let atRoot := { t with file := root.file, line := root.line }
  match b with
  | .file => makeToken (Substitution.quote (← shownOf atRoot).name) atRoot
  | .line => numberToken (root.line + (← shownOf atRoot).lineDelta) atRoot
  | .counter =>
    let n := (← get).counter
    modify fun s => { s with counter := n + 1 }
    numberToken n t
  | .timestamp => makeToken (Substitution.quote timestamp) t
  | .baseFile => makeToken (Substitution.quote (← get).baseFile) t

/- Tokens that stem from a use of a macro, with the names that are hidden in them. -/
def markBody (use : Token) (hidden : HideSet) (body : Array Token) : List Token :=
  let root := use.root
  body.toList.map fun t => { t with
    hidden := t.hidden.union hidden
    origin? := some ⟨use.text, root.file, root.line⟩ }

/-
  A use of a macro: its definition, the arguments, the names
  that are hidden in what takes its place, and the tokens
  after it.
-/
structure Use where
  definition : Macro
  args : List MacroArg := []
  hidden : HideSet
  rest : List Token
deriving Inhabited

/-
  The use of a macro at a token, if it names one that is not
  hidden.  A macro with parameters is used only where an
  argument list follows.
-/
def use? (t : Token) (rest : List Token) : Pre (Option Use) := do
  if t.hidden.contains t.text then return none
  match (← get).macros.ofToken? t with
  | none => return none
  | some (.function params rest? body) =>
    if !(Directive.first rest).is "(" then return none
    let (args, close) ← ofScan (Arguments.readAll t params rest? rest.tail)
    let hidden := (t.hidden.inter (Directive.first close).hidden).union (.single t.text)
    return some ⟨.function params rest? body, args, hidden, close.tail⟩
  | some m => return some ⟨m, [], t.hidden.union (.single t.text), rest⟩

/- The tokens that take the place of a use at a token. -/
def Use.tokens (expand : Expand) (t : Token) (u : Use) : Pre (List Token) := do
  match u.definition with
  | .builtin b => return [← builtinToken b t]
  | .object body => return markBody t u.hidden (← Substitution.pasteBody #[] body)
  | .function _ _ body =>
    let p ← Substitution.subst expand (body.length + 1) { args := u.args } body
    return markBody t u.hidden p.done

------------
-- Lists
------------

/-
  How far a list has been expanded.  `fresh` of the tokens to
  come are not of the list itself; `used` and `kept?` are as
  in `Expanded`.
-/
structure Progress where
  toks : List Token
  fresh : Nat := 0
  used : Array Token := #[]
  done : Array Token := #[]
  kept? : Option Nat := none
deriving Inhabited

namespace Progress

/- Go on with new tokens before a rest of those to come. -/
def goOn (p : Progress) (new rest : List Token) : Progress :=
  if p.kept?.isSome then { p with toks := new ++ rest }
  else
    let gone := p.toks.length - rest.length
    { p with
      toks := new ++ rest
      fresh := p.fresh - gone + new.length
      used := p.used ++ ((p.toks.drop p.fresh).take (gone - p.fresh)).toArray }

/- Keep the first token, as it is shown now. -/
def keep (p : Progress) (t : Token) (rest : List Token) : Progress :=
  { p with
    toks := rest
    fresh := p.fresh - 1
    done := p.done.push t
    kept? := if p.kept?.isNone && p.fresh == 0 then some p.done.size else p.kept? }

end Progress

/- One step of expanding a list. -/
def step (expand : Expand) (p : Progress) : Pre (Sum Progress Expanded) := do
  match p.toks with
  | [] => throw (.crash .pastEnd)
  | t :: rest =>
    if t.isEof then return .inr ⟨p.used.toList, p.done.toList, p.kept?, t⟩
    match ← use? t rest with
    | some u =>
      let p := p.goOn (← u.tokens expand t) u.rest
      return .inl { p with toks := spacedAs t p.toks }
    | none =>
      if Conditional.isHash t then
        let r ← Directive.run expand t rest
        return .inl (p.goOn r.inserted r.rest)
      else
        let shown ← shownOf t
        return .inl (p.keep { t with lineDelta := shown.lineDelta, filename := shown.name } rest)

/- Repeat a step until the list has been expanded, at most a number of times. -/
def repeatStep (next : Progress → Pre (Sum Progress Expanded)) : Nat → Progress → Pre Expanded
| 0, _ => throw .exhausted
| n + 1, p => do
  match ← next p with
  | .inl p => repeatStep next n p
  | .inr e => return e

/-
  Expand a list of tokens.  The fuel bounds the number of
  steps, and how deep expansions are nested in one another.
-/
def expandAll : Nat → Expand
| 0 => fun _ => throw .exhausted
| n + 1 => fun ts => repeatStep (step (expandAll n)) n { toks := ts }

/- More steps than an expansion can take before memory runs out. -/
def enough : Nat := 0x1000000000000

end Expansion

end CCompiler
