import CCompiler.Preprocess.Arguments

/-
  This file replaces the parameters in the body of a macro by
  arguments and carries out the operators on the way: a hash
  makes a string of an argument, and a double hash joins two
  tokens into one.

  An argument that stands alone is expanded where it stands.
  What the expansion leaves of its list is what later uses of
  the same parameter find.

  Key definitions include:
    * `Expanded`, `Expand`
    * `Substitution.stringize`, `Substitution.paste`
    * `Substitution.subst`
    * `Substitution.pasteBody`
-/

namespace CCompiler

------------
-- Expanded lists
------------

/-
  What expanding a list gives.  `used` are the tokens of the
  list that were read before any of them was kept as it is;
  `kept?` is the number of the first one that was, among
  those in `done`.
-/
structure Expanded where
  used : List Token
  done : List Token
  kept? : Option Nat
  eof : Token
deriving Inhabited

namespace Expanded

/- The tokens that the expansion produced. -/
def output (e : Expanded) : List Token :=
  e.done ++ [e.eof]

/- The list that was expanded, as it stands afterwards. -/
def source (e : Expanded) : List Token :=
  match e.kept? with
  | some k => e.used ++ e.done.drop k ++ [e.eof]
  | none => e.used ++ [e.eof]

/- With the blanks of a token before the first one. -/
def spacedAs (t : Token) (e : Expanded) : Expanded :=
  match e.done with
  | [] => { e with eof := { e.eof with atLineStart := t.atLineStart, spaced := t.spaced } }
  | ts => { e with done := Pre.spacedAs t ts }

end Expanded

/- How a list of tokens is expanded. -/
abbrev Expand := List Token → Pre Expanded

namespace Substitution

open Pre

------------
-- Operators
------------

/- A text with a backslash before every backslash and double quote. -/
def escape (s : Bytes) : Bytes :=
  s.flatMap fun b =>
    if b == Bytes.of '\\' || b == Bytes.of '"' then [Bytes.of '\\', b] else [b]

/- A text as a string literal. -/
def quote (s : Bytes) : Bytes :=
  ascii "\"" ++ escape s ++ ascii "\""

/- The spelling of a token inside a string; literals are escaped. -/
def spelling (t : Token) : Bytes :=
  if t.kind.isStr || t.text.contains (Bytes.of '\'') then escape t.text else t.text

/- The spellings of tokens, with a space wherever there were blanks between two of them. -/
def spellings : List Token → Bytes
| [] => []
| first :: rest =>
  spelling first ++ rest.flatMap fun t =>
    if t.spaced then Bytes.of ' ' :: spelling t else spelling t

/- An argument as a string literal in the place of the operator. -/
def stringize (hash : Token) (arg : List Token) : Pre Token :=
  makeToken (ascii "\"" ++ spellings (arg.takeWhile (!·.isEof)) ++ ascii "\"") hash

/- Two tokens joined into one. -/
def paste (l r : Token) : Pre Token := do
  let text := l.text ++ r.text
  match ← makeTokens text l.file l.line l.spaced with
  | [t, _] => return t
  | _ :: _ :: _ => fail l (.invalidPaste text)
  | _ => throw (.crash .nothingPasted)

------------
-- Substitution
------------

/- What has been made of a body, and the arguments as they stand. -/
structure Progress where
  done : Array Token := #[]
  args : List MacroArg
deriving Inhabited

namespace Progress

/- The argument for a name. -/
def arg? (p : Progress) (t : Token) : Option MacroArg :=
  if t.kind == .ident || t.kind == .keyword then p.args.find? (·.name == t.text) else none

/- Whether there are further arguments. -/
def hasRest (p : Progress) : Bool :=
  match p.args.find? (·.isRest) with
  | some a => !a.isEmpty
  | none => false

/- One more token. -/
def push (p : Progress) (t : Token) : Progress :=
  { p with done := p.done.push t }

/- More tokens, up to the end of their list. -/
def append (p : Progress) (ts : List Token) : Progress :=
  { p with done := p.done ++ (ts.takeWhile (!·.isEof)).toArray }

/- With another list for an argument. -/
def setArg (p : Progress) (name : Bytes) (ts : List Token) : Progress :=
  let rec go : List MacroArg → List MacroArg
    | [] => []
    | a :: as => if a.name == name then { a with toks := ts } :: as else a :: go as
  { p with args := go p.args }

/- With the last token joined to another one. -/
def pasteLast (p : Progress) (t : Token) : Pre Progress := do
  match p.done.back? with
  | some last => return { p with done := p.done.pop.push (← paste last t) }
  | none => throw (.crash .pastEnd)

end Progress

/- Check that a double hash stands between two tokens. -/
def checkPaste (p : Progress) (hash next : Token) : Pre Unit := do
  if p.done.isEmpty then fail hash .pasteAtStart
  if next.isEof then fail hash .pasteAtEnd

/- Join the last token to the next one, or to the first of an argument. -/
def pasteNext (p : Progress) (next : Token) : Pre Progress := do
  match p.arg? next with
  | some a =>
    match a.toks with
    | t :: rest => if a.isEmpty then return p else return (← p.pasteLast t).append rest
    | [] => return p
  | none => p.pasteLast next

/-
  An empty argument before a double hash leaves what stands
  after it.
-/
def afterEmpty (p : Progress) (next : Token) : Progress :=
  match p.arg? next with
  | some a => p.append a.toks
  | none => p.push next

/- An argument that stands alone, expanded. -/
def expandArg (expand : Expand) (p : Progress) (t : Token) (a : MacroArg) : Pre Progress := do
  let e := (← expand a.toks).spacedAs t
  return (p.setArg a.name e.source).append e.done

/-
  Replace the parameters in a body.  The fuel counts the
  tokens of the body.
-/
def subst (expand : Expand) : Nat → Progress → List Token → Pre Progress
| 0, _, _ => throw .exhausted
| _, _, [] => throw (.crash .pastEnd)
| fuel + 1, p, t :: rest => do
  let next := rest.headD default
  let after := rest.tail
  if t.isEof then return p
  else if t.is "#" then
    match p.arg? next with
    | none => fail next .hashWithoutParameter
    | some a =>
      let s ← stringize t a.toks
      subst expand fuel (p.push s) after
  else
    let rest? := if t.is "," && next.is "##" then p.arg? (after.headD default) else none
    match rest?.filter (·.isRest) with
    | some a =>
      if a.isEmpty then subst expand fuel p after.tail
      else subst expand fuel (p.push t) after
    | none =>
      if t.is "##" then
        checkPaste p t next
        let p ← pasteNext p next
        subst expand fuel p after
      else
        let arg? := p.arg? t
        match arg?.filter fun _ => next.is "##" with
        | some a =>
          if a.isEmpty then
            subst expand fuel (afterEmpty p (after.headD default)) after.tail
          else subst expand fuel (p.append a.toks) rest
        | none =>
          if t.is "__VA_OPT__" && next.is "(" then
            let (opt, close) ← ofScan (Arguments.readOne true 0 after)
            let p ← if p.hasRest then do
                let inner ← subst expand fuel { args := p.args } opt
                pure { p with done := p.done ++ inner.done, args := inner.args }
              else pure p
            subst expand fuel p (← ofScan (Arguments.skip ")" close))
          else
            match arg? with
            | some a =>
              let p ← expandArg expand p t a
              subst expand fuel p rest
            | none => subst expand fuel (p.push t) rest

/- The body of a macro without parameters, its tokens joined at double hashes. -/
def pasteBody : Array Token → List Token → Pre (Array Token)
| _, [] => throw (.crash .pastEnd)
| done, [t] => if t.isEof then return done else throw (.crash .pastEnd)
| done, t :: next :: rest => do
  if t.isEof then return done
  else if !t.is "##" then pasteBody (done.push t) (next :: rest)
  else
    checkPaste { done := done, args := [] } t next
    match done.back? with
    | some last =>
      let joined ← paste last next
      pasteBody (done.pop.push joined) rest
    | none => throw (.crash .pastEnd)

end Substitution

end CCompiler
