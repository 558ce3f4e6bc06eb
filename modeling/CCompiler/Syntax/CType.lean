import CCompiler.Alignment
import CCompiler.Token.Basic

/-
  This file defines the types of C.  A record type names an
  entry of a table, so that records can refer to themselves
  and be completed after they are first used.  Arrays,
  enumerations and variable-length arrays carry a number that
  tells separately written types apart.

  Key definitions include:
    * `CType`, `Member`, `Record`, `Records`
    * `CType.size`, `CType.align`
    * `CType.render`
    * `CType.compatible`
    * `CType.common`
-/

namespace CCompiler

------------
-- Types
------------

/- The integer types apart from truth values and enumerations. -/
inductive IntKind
| char
| short
| int
| long
deriving DecidableEq, Repr, Inhabited

/- The floating types. -/
inductive FloatKind
| float
| double
| ldouble
deriving DecidableEq, Repr, Inhabited

/- The name of a parameter, and where it stands or should stand. -/
structure ParamName where
  name? : Option Token
  pos : Token
deriving Repr, Inhabited

/-
  A type.  The size and alignment of an array are those of
  the moment it was written; a length below zero means that
  it is not known.
-/
inductive CType
| void
| bool
| integer (kind : IntKind) (isUnsigned : Bool)
| floating (kind : FloatKind)
| enum (id : Nat)
| ptr (base : CType)
| func (ret : CType) (params : List CType) (names : List ParamName) (variadic : Bool)
| array (id : Nat) (base : CType) (len : Int) (size : Int) (align : Int)
| vla (id : Nat) (base : CType)
| record (id : Nat)
| atomic (inner : CType)
deriving Inhabited, Repr

namespace CType

abbrev char : CType := .integer .char false
abbrev short : CType := .integer .short false
abbrev int : CType := .integer .int false
abbrev long : CType := .integer .long false
abbrev uchar : CType := .integer .char true
abbrev ushort : CType := .integer .short true
abbrev uint : CType := .integer .int true
abbrev ulong : CType := .integer .long true
abbrev float : CType := .floating .float
abbrev double : CType := .floating .double
abbrev ldouble : CType := .floating .ldouble

/- The type of a literal. -/
def ofLit : LitType → CType
| .none => .int
| .char => .char
| .ushort => .ushort
| .int => .int
| .uint => .uint
| .long => .long
| .ulong => .ulong
| .float => .float
| .double => .double
| .ldouble => .ldouble

end CType

/- A bit-field: its first bit in the storage unit and its width. -/
structure BitField where
  offset : Int
  width : Int
deriving DecidableEq, Repr, Inhabited

/- A member of a record. -/
structure Member where
  type : CType
  name? : Option Bytes
  index : Nat
  align : Int
  offset : Int := 0
  bits? : Option BitField := none
deriving Repr, Inhabited

namespace Member

/- Whether a member only takes up space: a bit-field without a name. -/
def isPadding (m : Member) : Bool :=
  m.bits?.isSome && m.name?.isNone

end Member

/-
  A structure or union.  A size below zero means that its
  members are not known.  `root` is the entry it was copied
  from, or its own.
-/
structure Record where
  isUnion : Bool
  size : Int
  align : Int
  members : List Member := []
  flexible : Bool := false
  packed : Bool := false
  root : Nat
deriving Repr, Inhabited

/- The records of a translation unit. -/
abbrev Records := Array Record

namespace Records

/- The record of a number. -/
def entry (rs : Records) (id : Nat) : Record :=
  rs.getD id ⟨false, -1, 1, [], false, false, id⟩

end Records

------------
-- Classes of types
------------

namespace CType

/- A type without its atomic qualifier. -/
def plain : CType → CType
| .atomic t => t.plain
| t => t

/- Whether a type is atomic. -/
def isAtomic : CType → Bool
| .atomic _ => true
| _ => false

/- A type with the atomic qualifier. -/
def toAtomic (t : CType) : CType :=
  .atomic t.plain

/- Whether a type is an integer type. -/
def isInteger (t : CType) : Bool :=
  match t.plain with
  | .bool | .integer _ _ | .enum _ => true
  | _ => false

/- Whether a type is a floating type. -/
def isFloating (t : CType) : Bool :=
  match t.plain with
  | .floating _ => true
  | _ => false

/- Whether a type is a given floating type. -/
def isFloatKind (t : CType) (k : FloatKind) : Bool :=
  match t.plain with
  | .floating k' => k == k'
  | _ => false

/- Whether a type is arithmetic. -/
def isNumeric (t : CType) : Bool :=
  t.isInteger || t.isFloating

/- Whether a type is a structure or a union. -/
def isRecord (t : CType) : Bool :=
  match t.plain with
  | .record _ => true
  | _ => false

/- Whether a type is void. -/
def isVoid (t : CType) : Bool :=
  match t.plain with
  | .void => true
  | _ => false

/- Whether a type is that of truth values. -/
def isBool (t : CType) : Bool :=
  match t.plain with
  | .bool => true
  | _ => false

/- Whether a type is a pointer. -/
def isPointer (t : CType) : Bool :=
  match t.plain with
  | .ptr _ => true
  | _ => false

/- Whether a type is a function. -/
def isFunction (t : CType) : Bool :=
  match t.plain with
  | .func _ _ _ _ => true
  | _ => false

/- Whether a type is an array of a length fixed when it was written. -/
def isArray (t : CType) : Bool :=
  match t.plain with
  | .array _ _ _ _ _ => true
  | _ => false

/- Whether a type is an array whose length is found at run time. -/
def isVla (t : CType) : Bool :=
  match t.plain with
  | .vla _ _ => true
  | _ => false

/- The type that a pointer points to, or of the elements of an array. -/
def base? (t : CType) : Option CType :=
  match t.plain with
  | .ptr b | .array _ b _ _ _ | .vla _ b => some b
  | _ => none

/- The number of elements of an array. -/
def arrayLen (t : CType) : Int :=
  match t.plain with
  | .array _ _ n _ _ => n
  | _ => 0

/- The result type of a function. -/
def returnType? (t : CType) : Option CType :=
  match t.plain with
  | .func r _ _ _ => some r
  | _ => none

/- The number of a record type. -/
def recordId? (t : CType) : Option Nat :=
  match t.plain with
  | .record id => some id
  | _ => none

/- Whether values of a type are taken as unsigned; addresses are. -/
def isUnsigned (t : CType) : Bool :=
  match t.plain with
  | .integer _ u => u
  | .ptr _ => true
  | _ => false

------------
-- Sizes
------------

/- The size of an integer kind. -/
def intSize : IntKind → Int
| .char => 1
| .short => 2
| .int => 4
| .long => 8

/- The size of a floating kind. -/
def floatSize : FloatKind → Int
| .float => 4
| .double => 8
| .ldouble => 16

/- The size of a type in bytes; below zero if the type is not complete. -/
def size (rs : Records) (t : CType) : Int :=
  match t.plain with
  | .void | .bool | .func _ _ _ _ | .atomic _ => 1
  | .integer k _ => intSize k
  | .floating k => floatSize k
  | .enum _ => 4
  | .ptr _ | .vla _ _ => 8
  | .array _ _ _ s _ => s
  | .record id => (rs.entry id).size

/- The alignment of a type in bytes. -/
def align (rs : Records) (t : CType) : Int :=
  match t.plain with
  | .void | .bool | .func _ _ _ _ | .atomic _ => 1
  | .integer k _ => intSize k
  | .floating k => floatSize k
  | .enum _ => 4
  | .ptr _ | .vla _ _ => 8
  | .array _ _ _ _ a => a
  | .record id => (rs.entry id).align

/- The record of a type, if it is one. -/
def record? (rs : Records) (t : CType) : Option Record :=
  t.recordId?.map rs.entry

/- Whether a type is a structure. -/
def isStruct (rs : Records) (t : CType) : Bool :=
  match t.record? rs with
  | some r => !r.isUnion
  | none => false

/- Whether a type is a union. -/
def isUnion (rs : Records) (t : CType) : Bool :=
  match t.record? rs with
  | some r => r.isUnion
  | none => false

/- The members of a record type. -/
def members (rs : Records) (t : CType) : List Member :=
  match t.record? rs with
  | some r => r.members
  | none => []

/- An array type with a number of its own. -/
def arrayOf (rs : Records) (id : Nat) (base : CType) (n : Int) : CType :=
  .array id base n (wrap64 (base.size rs * n)) (base.align rs)

------------
-- Text
------------

/- The name of an integer kind. -/
def intName : IntKind → String
| .char => "char"
| .short => "short"
| .int => "int"
| .long => "long"

/- The name of a floating kind. -/
def floatName : FloatKind → String
| .float => "float"
| .double => "double"
| .ldouble => "long double"

/- The keyword of a record. -/
def recordWord (r : Record) : String :=
  if r.isUnion then "union" else "struct"

mutual

/- A type inside another one; of a record only the keyword is shown. -/
def renderInner (rs : Records) : CType → Bytes
| .void => ascii "void"
| .bool => ascii "_Bool"
| .integer k u => ascii (if u then "unsigned " else "") ++ ascii (intName k)
| .floating k => ascii (floatName k)
| .enum _ => ascii "enum"
| .ptr b => ascii "*" ++ renderInner rs b
| .func r ps _ v =>
  let dots := if v then (if ps.isEmpty then ascii "..." else ascii ", ...") else []
  ascii "func(" ++ renderParams rs ps ++ dots ++ ascii ") " ++ renderInner rs r
| .array _ b n _ _ => ascii "[" ++ Bytes.ofInt n ++ ascii "]" ++ renderInner rs b
| .vla _ b => ascii "[*]" ++ renderInner rs b
| .record id => ascii (recordWord (rs.entry id))
| .atomic t => renderInner rs t

/- Parameter types with commas between them. -/
def renderParams (rs : Records) : List CType → Bytes
| [] => []
| [t] => renderInner rs t
| t :: u :: ts => renderInner rs t ++ ascii ", " ++ renderParams rs (u :: ts)

end

/- A type in one line; a record shows its members. -/
def render (rs : Records) (t : CType) : Bytes :=
  match t.record? rs with
  | none => renderInner rs t
  | some r =>
    let member (m : Member) : Bytes :=
      match m.name? with
      | some n => n ++ ascii " " ++ renderInner rs m.type
      | none => renderInner rs m.type
    ascii (recordWord r) ++ ascii "\x7b" ++ Bytes.join (ascii "; ") (r.members.map member) ++
      ascii "\x7d"

------------
-- Compatibility
------------

mutual

/-
  Whether two types are compatible.  Integers agree in kind
  and sign, pointers and functions part by part; records and
  enumerations only with themselves.  Two arrays written
  apart agree only if the length of neither is known.
-/
def compatible (rs : Records) : CType → CType → Bool
| .void, u => u.isVoid
| .bool, u => u.isBool
| .integer k s, u =>
  match u.plain with
  | .integer k' s' => k == k' && s == s'
  | _ => false
| .floating k, u => u.isFloatKind k
| .enum i, u =>
  match u.plain with
  | .enum j => i == j
  | _ => false
| .ptr b, u =>
  match u.plain with
  | .ptr c => compatible rs b c
  | _ => false
| .func r ps _ v, u =>
  match u.plain with
  | .func r' ps' _ v' => compatible rs r r' && v == v' && compatibleList rs ps ps'
  | _ => false
| .array i b n _ _, u =>
  match u.plain with
  | .array j c m _ _ => i == j || (compatible rs b c && n < 0 && m < 0 && n == m)
  | _ => false
| .vla i _, u =>
  match u.plain with
  | .vla j _ => i == j
  | _ => false
| .record i, u =>
  match u.plain with
  | .record j => (rs.entry i).root == (rs.entry j).root
  | _ => false
| .atomic t, u => compatible rs t u

/- Whether two lists of types are compatible one by one. -/
def compatibleList (rs : Records) : List CType → List CType → Bool
| [], [] => true
| t :: ts, u :: us => compatible rs t u && compatibleList rs ts us
| _, _ => false

end

/-
  Whether two declarations of one object agree: an array
  matches another one of an element type compatible with its
  own if their lengths do not differ.
-/
def sameObject (rs : Records) (t u : CType) : Bool :=
  match t.plain, u.plain with
  | .array _ b n _ _, .array _ c m _ _ =>
    if n ≥ 0 && m ≥ 0 && n != m then false else compatible rs b c
  | t, u => compatible rs t u

/-
  The type to which both operands of an arithmetic operator
  are converted.  Types narrower than `int` become `int`, the
  wider type wins, and of two types of one size the unsigned.
-/
def common (rs : Records) (t u : CType) : CType :=
  match t.base? with
  | some b => .ptr b
  | none =>
    if t.isFunction then .ptr t
    else if u.isFunction then .ptr u
    else if t.isFloatKind .ldouble || u.isFloatKind .ldouble then .ldouble
    else if t.isFloatKind .double || u.isFloatKind .double then .double
    else if t.isFloatKind .float || u.isFloatKind .float then .float
    else
      let t := if t.size rs < 4 then .int else t
      let u := if u.size rs < 4 then .int else u
      if t.size rs != u.size rs then if t.size rs < u.size rs then u else t
      else if u.isUnsigned then u
      else t

end CType

end CCompiler
