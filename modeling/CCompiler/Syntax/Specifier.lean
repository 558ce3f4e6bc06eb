import CCompiler.Syntax.Grammar
import CCompiler.Syntax.Layout

/-
  This file reads the specifiers of a declaration: storage
  classes, qualifiers, attributes and the words that name a
  type, among them structures, unions and enumerations.

  Key definitions include:
    * `Specifier.isTypeName`
    * `Specifier.attributes`
    * `TypeWords`, `TypeWords.type?`
    * `Specifier.recordSpecifier`, `Specifier.enumSpecifier`
    * `Specifier.specifiers`
-/

namespace CCompiler

------------
-- Words that name a type
------------

/-
  How often each of the words that name a builtin type was
  seen.  Their order does not matter.  `other` counts types
  that are not builtin.
-/
structure TypeWords where
  void : Nat := 0
  bool : Nat := 0
  char : Nat := 0
  short : Nat := 0
  int : Nat := 0
  long : Nat := 0
  float : Nat := 0
  double : Nat := 0
  other : Nat := 0
  signed : Bool := false
  unsigned : Bool := false
deriving DecidableEq, Repr, Inhabited

namespace TypeWords

/- Count one more word. -/
def add (w : TypeWords) (t : Token) : Option TypeWords :=
  if t.is "void" then some { w with void := w.void + 1 }
  else if t.is "_Bool" then some { w with bool := w.bool + 1 }
  else if t.is "char" then some { w with char := w.char + 1 }
  else if t.is "short" then some { w with short := w.short + 1 }
  else if t.is "int" then some { w with int := w.int + 1 }
  else if t.is "long" then some { w with long := w.long + 1 }
  else if t.is "float" then some { w with float := w.float + 1 }
  else if t.is "double" then some { w with double := w.double + 1 }
  else if t.is "signed" then some { w with signed := true }
  else if t.is "unsigned" then some { w with unsigned := true }
  else none

/- The words with `int`, `signed` and `unsigned` left out. -/
def core (w : TypeWords) : TypeWords :=
  { w with int := 0, signed := false, unsigned := false }

/- The type of an integer whose sign words are given; both signs at once name nothing. -/
def integer? (k : IntKind) (w : TypeWords) : Option CType :=
  if w.signed && w.unsigned then none else some (.integer k w.unsigned)

/- The type that the words name together, if they name one. -/
def type? (w : TypeWords) : Option CType :=
  let bare := w.int == 0 && !w.signed && !w.unsigned
  let core := w.core
  if core == { void := 1 } && bare then some .void
  else if core == { bool := 1 } && bare then some .bool
  else if core == { char := 1 } && w.int == 0 then w.integer? .char
  else if core == { short := 1 } && w.int ≤ 1 then w.integer? .short
  else if core == {} && w.int ≤ 1 then w.integer? .int
  else if (core == { long := 1 } || core == { long := 2 }) && w.int ≤ 1 then w.integer? .long
  else if core == { float := 1 } && bare then some .float
  else if core == { double := 1 } && bare then some .double
  else if core == { long := 1, double := 1 } && bare then some .ldouble
  else none

end TypeWords

namespace Specifier

open Parse Grammar

------------
-- Classes of words
------------

/- The storage classes. -/
def storageWords : List String :=
  ["typedef", "static", "extern", "inline", "_Thread_local", "__thread"]

/- The words that change nothing about a type. -/
def qualifierWords : List String :=
  ["const", "volatile", "auto", "register", "restrict", "__restrict", "__restrict__", "_Noreturn"]

/- The words that start a type, apart from names defined by a typedef. -/
def typeWords : List String :=
  ["void", "_Bool", "char", "short", "int", "long", "struct", "union", "enum", "_Alignas", "signed",
    "unsigned", "float", "double", "typeof", "__typeof__", "_Atomic"] ++
    storageWords ++ qualifierWords

/- Whether a token starts a type. -/
def isTypeName (t : Token) : Parse Bool := do
  if typeWords.any t.is then return true
  else return (← typedef? t).isSome

/- Whether a parenthesis with a type in it follows. -/
def atParenType : Parse Bool := do
  if !(← check "(") then return false
  match ← next? with
  | some t => isTypeName t
  | none => return false

------------
-- Attributes
------------

/- What attributes say about a declaration. -/
structure Attributes where
  packed : Bool := false
  align? : Option Int := none
deriving DecidableEq, Repr, Inhabited

/- A name without the underscores around it. -/
def trimUnderscores (s : Bytes) : Bytes :=
  let blank (b : UInt8) : Bool := b == Bytes.of '_'
  ((s.dropWhile blank).reverse.dropWhile blank).reverse

/- Move over a balanced pair of parentheses. -/
def skipParens : Parse Unit :=
  iterate 0 fun (depth : Nat) => do
    let t ← tok
    if t.isEof then fail t (.expected (ascii ")"))
    let depth := if t.is "(" then depth + 1 else if t.is ")" then depth - 1 else depth
    advance
    return if depth == 0 then .inr () else .inl depth

/- One attribute, with those before it. -/
def oneAttribute (read : Reader) (a : Attributes) : Parse Attributes := do
  let name := trimUnderscores (← tok).text
  advance
  if name == ascii "packed" then return { a with packed := true }
  else if name == ascii "aligned" then
    if ← accept "(" then
      let n ← constExpr read
      expect ")"
      return { a with align? := some n.toInt }
    else return { a with align? := some 16 }
  else
    if ← check "(" then skipParens
    return a

/- The attributes in one pair of parentheses, up to the inner closing one. -/
def attributeGroup (read : Reader) (a : Attributes) : Parse Attributes :=
  iterate (true, a) fun (first, a) => do
    if ← accept ")" then return .inr a
    if !first then expect ","
    if ← check ")" then return .inl (false, a)
    return .inl (false, ← oneAttribute read a)

/- All the attributes that stand here. -/
def attributes (read : Reader) : Parse Attributes :=
  iterate {} fun (a : Attributes) => do
    if ← checkAny ["__attribute__", "__attribute"] then
      advance
      expect "("
      expect "("
      let a ← attributeGroup read a
      expect ")"
      return .inl a
    else return .inr a

/- Move over attributes that say nothing here. -/
def skipAttributes (read : Reader) : Parse Unit := do
  let _ ← attributes read

/- The attributes that stand here, applied to a declaration. -/
def attributesOn (read : Reader) (attr : VarAttr) : Parse VarAttr := do
  return { attr with align := (← attributes read).align?.getD attr.align }

/- The attributes that stand here, applied to a declaration if there is one. -/
def attributesOn? (read : Reader) : Option VarAttr → Parse (Option VarAttr)
| some attr => return some (← attributesOn read attr)
| none => do
  skipAttributes read
  return none

/- An alignment that was asked for, or the one that the type has. -/
def alignOr (align type : Int) : Int :=
  if align != 0 then align else type

------------
-- Enumerations
------------

/- The constants of an enumeration, up to the closing brace. -/
def enumerators (read : Reader) (type : CType) : Parse Unit :=
  iterate (true, (0 : Int64)) fun (first, next) => do
    if ← acceptListEnd then return .inr ()
    if !first then expect ","
    let name ← identOf (← tok)
    advance
    skipAttributes read
    let value ← if ← accept "=" then constExpr read else pure next
    bindName name (.constant type value)
    return .inl (false, value + 1)

/- The name after the keyword of a structure, union or enumeration. -/
def tag? : Parse (Option Token) := do
  let t ← tok
  if t.isIdent then
    advance
    return some t
  else return none

/- An enumeration after its keyword: a list of constants, or a tag known from before. -/
def enumSpecifier (read : Reader) : Parse CType := do
  let type : CType := .enum (← freshType)
  let tag ← tag?
  match tag, ← check "\x7b" with
  | some t, false =>
    match ← lookupTag? t.text with
    | none => fail t .unknownEnumType
    | some known =>
      match known.plain with
      | .enum _ => return known
      | _ => fail t .notEnumTag
  | _, _ =>
    expect "\x7b"
    enumerators read type
    if let some t := tag then bindTag t.text type
    return type

------------
-- Structures and unions
------------

/- One member after its specifiers, with the attributes of the declaration so far. -/
def memberDeclarator (read : Reader) (base : CType) (attr : VarAttr) (index : Nat) :
    Parse (Member × VarAttr) := do
  let d ← read (.declarator base)
  let bits? ← if ← accept ":" then do
      let t ← tok
      let width := (← constExpr read).toInt
      if width < 0 || width > (← sizeOf d.type) * 8 || !d.type.isInteger then
        fail t .invalidBitFieldWidth
      pure (some ⟨0, width⟩)
    else pure none
  let attr ← attributesOn read attr
  return ({ type := d.type
            name? := d.name?.map (·.text)
            index := index
            align := alignOr attr.align (← alignOf d.type)
            bits? := bits? }, attr)

/- The members of one declaration, after those before it. -/
def memberDeclaration (read : Reader) (ms : Array Member) : Parse (Array Member) := do
  let (base, attr?) ← read (.specifiers (some {}))
  let attr := attr?.getD {}
  if base.isRecord && (← check ";") then
    advance
    return ms.push { type := base
                     name? := none
                     index := ms.size
                     align := alignOr attr.align (← alignOf base) }
  iterate (true, attr, ms) fun (first, attr, ms) => do
    if ← accept ";" then return .inr ms
    if !first then expect ","
    let (m, attr) ← memberDeclarator read base attr ms.size
    return .inl (false, attr, ms.push m)

/- The members of a structure or union, up to the closing brace. -/
def members (read : Reader) : Parse (Array Member) :=
  iterate #[] fun (ms : Array Member) => do
    if ← accept "\x7d" then return .inr ms
    let t ← tok
    if t.isEof then fail t (.expected (ascii "\x7d"))
    return .inl (← memberDeclaration read ms)

/-
  The members with a last array of unknown length made an
  array of length zero, and whether there was one.
-/
def closeFlexible (ms : Array Member) : Parse (List Member × Bool) := do
  match ms.back? with
  | some last =>
    match last.type.plain with
    | .array _ base n _ _ =>
      if n < 0 then
        let last := { last with type := ← arrayOf base 0 }
        return ((ms.pop.push last).toList, true)
      else return (ms.toList, false)
    | _ => return (ms.toList, false)
  | none => return ([], false)

/- A record with what attributes say about it. -/
def withAttributes (a : Attributes) (r : Record) : Record :=
  { r with packed := r.packed || a.packed, align := a.align?.getD r.align }

/-
  The entry for a record that is being defined.  A definition
  completes an earlier declaration of its tag in the same
  block.
-/
def recordEntry (tag : Option Token) (r : Record) : Parse Nat := do
  match tag with
  | none => addRecord r
  | some t =>
    match (← lookupTagHere? t.text).bind (·.recordId?) with
    | some id => return id
    | none =>
      let id ← addRecord r
      bindTag t.text (.record id)
      return id

/- A structure or union after its keyword. -/
def recordSpecifier (read : Reader) (isUnion : Bool) : Parse CType := do
  let first ← attributes read
  let blank : Record := withAttributes first ⟨isUnion, 0, 1, [], false, false, 0⟩
  let tag ← tag?
  match tag, ← check "\x7b" with
  | some t, false =>
    match ← lookupTag? t.text with
    | some known => return known
    | none =>
      let id ← addRecord { blank with size := -1 }
      setRecord id { blank with size := -1, root := id }
      bindTag t.text (.record id)
      return .record id
  | _, _ =>
    expect "\x7b"
    let (ms, flexible) ← closeFlexible (← members read)
    let r := withAttributes (← attributes read)
      { blank with members := ms, flexible := flexible }
    let id ← recordEntry tag r
    let r := { r with root := id }
    setRecord id r
    setRecord id (r.laidOut (← records))
    return .record id

------------
-- Specifiers
------------

/- The type of an expression or a type in parentheses. -/
def typeofSpecifier (read : Reader) : Parse CType := do
  expect "("
  let type ← if ← isTypeName (← tok) then read .typeName
    else do
      let e ← Typing.addType (← read .expr)
      pure e.type
  expect ")"
  return type

/- Note a storage class. -/
def addStorage (attr : VarAttr) (t : Token) : VarAttr :=
  if t.is "typedef" then { attr with isTypedef := true }
  else if t.is "static" then { attr with isStatic := true }
  else if t.is "extern" then { attr with isExtern := true }
  else if t.is "inline" then { attr with isInline := true }
  else { attr with isThreadLocal := true }

/- Whether a typedef also has a storage class. -/
def storageClash (attr : VarAttr) : Bool :=
  attr.isTypedef && (attr.isStatic || attr.isExtern || attr.isInline || attr.isThreadLocal)

/- What has been read of the specifiers. -/
structure Progress where
  type : CType := .int
  words : TypeWords := {}
  isAtomic : Bool := false
  attr? : Option VarAttr
deriving Inhabited

/- A storage class. -/
def storageStep (read : Reader) (p : Progress) (t : Token) : Parse Progress := do
  match p.attr? with
  | none => fail t .storageClassNotAllowed
  | some attr =>
    let attr := addStorage attr t
    if storageClash attr then fail t .typedefWithStorage
    advance
    return { p with attr? := some (← attributesOn read attr) }

/- An atomic qualifier, or an atomic type in parentheses. -/
def atomicStep (read : Reader) (p : Progress) : Parse Progress := do
  advance
  if ← accept "(" then
    let type ← read .typeName
    expect ")"
    return { p with
      type := type
      words := { p.words with other := p.words.other + 1 }
      isAtomic := true }
  else return { p with isAtomic := true }

/- An alignment. -/
def alignasStep (read : Reader) (p : Progress) (t : Token) : Parse Progress := do
  match p.attr? with
  | none => fail t .alignasNotAllowed
  | some attr =>
    advance
    expect "("
    let align ← if ← isTypeName (← tok) then do
        let type ← read .typeName
        alignOf type
      else do
        let n ← constExpr read
        pure n.toInt
    expect ")"
    return { p with attr? := some { attr with align := align } }

/- A type that is not builtin, after its first word. -/
def userType (read : Reader) (t : Token) (named? : Option CType) : Parse CType := do
  if t.is "struct" then recordSpecifier read false
  else if t.is "union" then recordSpecifier read true
  else if t.is "enum" then enumSpecifier read
  else if t.is "typeof" || t.is "__typeof__" then typeofSpecifier read
  else return named?.getD .int

/- A word of a builtin type. -/
def builtinStep (read : Reader) (p : Progress) (t : Token) : Parse Progress := do
  match p.words.add t with
  | none => throw .internal
  | some words =>
    match words.type? with
    | none => fail t .invalidType
    | some type =>
      advance
      return { p with type := type, words := words, attr? := ← attributesOn? read p.attr? }

/- One specifier, or the end of them. -/
def specifierStep (read : Reader) (p : Progress) : Parse (Sum Progress Progress) := do
  let t ← tok
  if !(← isTypeName t) then return .inr p
  if storageWords.any t.is then return .inl (← storageStep read p t)
  if qualifierWords.any t.is then
    advance
    return .inl p
  if t.is "_Atomic" then return .inl (← atomicStep read p)
  if t.is "_Alignas" then return .inl (← alignasStep read p t)
  let named? ← typedef? t
  if named?.isSome || ["struct", "union", "enum", "typeof", "__typeof__"].any t.is then
    if p.words != {} then return .inr p
    advance
    let type ← userType read t named?
    return .inl { p with type := type, words := { p.words with other := 1 } }
  return .inl (← builtinStep read p t)

/-
  The specifiers of a declaration.  Without `attr?` no
  storage class and no alignment may stand among them.
-/
def specifiers (read : Reader) (attr? : Option VarAttr) : Parse (CType × Option VarAttr) := do
  let attr? ← attributesOn? read attr?
  let p ← iterate { attr? := attr? : Progress } (specifierStep read)
  let attr? ← attributesOn? read p.attr?
  if p.isAtomic then return ((← copyType p.type).toAtomic, attr?)
  else return (p.type, attr?)

end Specifier

end CCompiler
