import CCompiler.Syntax.Specifier

/-
  This file reads declarators.  What stands after a
  declarator in parentheses binds tighter than what stands
  inside them, so the inside is read twice: once to get past
  it, and again with the type that the outside completes.

  Key definitions include:
    * `Declarator.parameters`
    * `Declarator.typeSuffix`
    * `Declarator.declarator`, `Declarator.abstractDeclarator`
    * `Declarator.typeName`
-/

namespace CCompiler

namespace Declarator

open Parse Grammar Specifier

------------
-- Suffixes
------------

/- The type of a parameter: arrays and functions become pointers. -/
def parameterType (t : CType) : Parse CType := do
  match t.plain with
  | .array _ base _ _ _ => return .ptr base
  | .func _ _ _ _ => return .ptr t
  | _ => copyType t

/- What has been read of a parameter list. -/
structure Parameters where
  types : Array CType := #[]
  names : Array ParamName := #[]
  variadic : Bool := false
deriving Inhabited

/-
  The parameters of a function after the opening parenthesis,
  and the function type.  An empty list leaves them open.
-/
def parameters (read : Reader) (ret : CType) : Parse CType := do
  if (← check "void") && (← peekIs ")") then
    advance
    advance
    return .func ret [] [] false
  let ps ← iterate {} fun (ps : Parameters) => do
    if ← check ")" then return .inr ps
    if ps.types.size > 0 then expect ","
    if ← accept "..." then return .inr { ps with variadic := true }
    let (base, _) ← read (.specifiers none)
    let d ← read (.declarator base)
    return .inl { ps with
      types := ps.types.push (← parameterType d.type)
      names := ps.names.push ⟨d.name?, d.pos⟩ }
  expect ")"
  return .func ret ps.types.toList ps.names.toList (ps.variadic || ps.types.isEmpty)

/-
  The length of an array after the opening bracket, with the
  suffixes that follow.  A length that is not constant makes
  an array whose size is found at run time.
-/
def arrayLength (read : Reader) (base : CType) : Parse CType := do
  iterate () fun _ => do
    if ← checkAny ["static", "restrict", "const"] then
      advance
      return .inl ()
    else return .inr ()
  if ← accept "]" then
    let base ← read (.typeSuffix base)
    arrayOf base (-1)
  else
    let len ← read .conditional
    expect "]"
    let base ← read (.typeSuffix base)
    if base.isVla then vlaOf base len
    else
      let len ← Typing.addType len
      if ← Constant.run fun env => Constant.isConstant env len then
        let n ← Constant.evalInt len
        arrayOf base n.toInt
      else vlaOf base len

/- Parameters or array lengths after a name. -/
def typeSuffix (read : Reader) (base : CType) : Parse CType := do
  if ← accept "(" then parameters read base
  else if ← accept "[" then arrayLength read base
  else return base

------------
-- Declarators
------------

/- The stars before a name. -/
def pointers (read : Reader) (base : CType) : Parse CType :=
  iterate base fun type => do
    if ← accept "*" then
      iterate () fun _ => do
        if ← checkAny ["const", "volatile", "restrict", "__restrict", "__restrict__", "_Atomic"] then
          advance
          return .inl ()
        else return .inr ()
      skipAttributes read
      return .inl (.ptr type)
    else return .inr type

/-
  A declarator in parentheses, read first without regard to
  its type and then with the one that the suffix gives.
-/
def nested {α : Type} (read : Reader) (base : CType) (inner : CType → Phrase α) : Parse α := do
  advance
  let start ← cursor
  let _ ← read (inner .void)
  expect ")"
  let type ← read (.typeSuffix base)
  let rest ← cursor
  rewind start
  let result ← read (inner type)
  rewind rest
  return result

/- A declarator, with or without a name. -/
def declarator (read : Reader) (base : CType) : Parse Declared := do
  skipAttributes read
  let type ← pointers read base
  if ← check "(" then nested read type .declarator
  else
    let pos ← tok
    let name? ← tag?
    return ⟨← read (.typeSuffix type), name?, pos⟩

/- A declarator that names nothing. -/
def abstractDeclarator (read : Reader) (base : CType) : Parse CType := do
  let type ← pointers read base
  if (← check "(") && !(← atParenType) && !(← peekIs ")") then
    nested read type .abstractDeclarator
  else read (.typeSuffix type)

/- A type as it stands in casts and the like. -/
def typeName (read : Reader) : Parse CType := do
  let (base, _) ← read (.specifiers none)
  read (.abstractDeclarator base)

end Declarator

end CCompiler
