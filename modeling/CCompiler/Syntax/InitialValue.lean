import CCompiler.Decimal.Extended80
import CCompiler.Syntax.Initializer

/-
  This file turns trees of initial values into what gives an
  object its value: assignments for a variable of a function,
  and bytes with the addresses in them for a variable of the
  unit.

  Key definitions include:
    * `Path`, `InitialValue.assignments`
    * `Image`, `Image.writeWord?`
    * `InitialValue.fill`
    * `InitialValue.localInit`, `InitialValue.globalInit`
-/

namespace CCompiler

------------
-- Assignments
------------

/- The path from a variable to one of its elements or members. -/
inductive Path
| object (id : ObjId)
| element (outer : Path) (index : Nat)
| field (outer : Path) (m : Member)
deriving Inhabited

namespace InitialValue

open Parse Operator

/- The lvalue at the end of a path. -/
def lvalue (t : Token) : Path → Parse Expr
| .object id => return var id t
| .element outer i => do
  let e ← newAdd (← lvalue t outer) (number (Int64.ofNat i) t) t
  return unary .deref e t
| .field outer m => do
  return .member ⟨t, none⟩ (← lvalue t outer) m

/- The type of the elements of an array. -/
def elementType (t : CType) : CType :=
  t.base?.getD .void

/- The member of a union that gets a value; the first one unless another was chosen. -/
def chosenMember? (rs : Records) (t : CType) (m? : Option Member) : Option Member :=
  match t.members rs with
  | [] => none
  | first :: _ => some (m?.getD first)

mutual

/-
  The assignments that give an object of a type its values,
  one after the other.  Parts without a value get none.
-/
def assignments (rs : Records) (t : Token) : Path → CType → Init → Parse Expr
| path, type, .mk _ _ expr? ⟨children⟩ member? => do
  if type.isArray then
    elements rs t path (elementType type) type.arrayLen children 0 (.null ⟨t, none⟩)
  else if type.isStruct rs && expr?.isNone then
    fields rs t path (type.members rs) children (.null ⟨t, none⟩)
  else if type.isUnion rs then
    match chosenMember? rs type member? with
    | none => return .null ⟨t, none⟩
    | some m => oneField rs t (.field path m) m.type children m.index
  else
    match expr? with
    | none => return .null ⟨t, none⟩
    | some e => return assign (← lvalue t path) e t

/- The assignments to the elements of an array from a number on, of as many as its type has. -/
def elements (rs : Records) (t : Token) (path : Path) (type : CType) (n : Int) :
    List Init → Nat → Expr → Parse Expr
| [], _, acc => return acc
| c :: cs, i, acc => do
  if (i : Int) < n then
    let e ← assignments rs t (.element path i) type c
    elements rs t path type n cs (i + 1) (comma acc e t)
  else return acc

/- The assignments to the members of a structure. -/
def fields (rs : Records) (t : Token) (path : Path) :
    List Member → List Init → Expr → Parse Expr
| m :: ms, c :: cs, acc => do
  if m.isPadding then fields rs t path ms cs acc
  else
    let e ← assignments rs t (.field path m) m.type c
    fields rs t path ms cs (comma acc e t)
| _, _, acc => return acc

/- The assignments to the member of a number. -/
def oneField (rs : Records) (t : Token) (path : Path) (type : CType) :
    List Init → Nat → Parse Expr
| [], _ => throw .internal
| c :: _, 0 => assignments rs t path type c
| _ :: cs, i + 1 => oneField rs t path type cs i

end

end InitialValue

------------
-- Data
------------

/- Data of a variable under construction. -/
structure Image where
  bytes : Array UInt8
  relocs : Array Relocation := #[]
deriving Inhabited

namespace Image

/- Data of a size, all zero. -/
def zero (size : Nat) : Image :=
  ⟨Array.replicate size 0, #[]⟩

/- Write bytes at an offset; `none` if they reach outside. -/
def writeBytes? (i : Image) (offset : Int) (bs : Bytes) : Option Image :=
  if 0 ≤ offset ∧ offset + bs.length ≤ i.bytes.size then
    let write := fun (a, n) b => (a.setIfInBounds n b, n + 1)
    some { i with bytes := (bs.foldl write (i.bytes, offset.toNat)).1 }
  else none

/- The lowest bytes of a word, the least significant first. -/
def wordBytes (size : Nat) (v : UInt64) : Bytes :=
  (List.range size).map fun i => (v >>> (8 * i).toUInt64).toUInt8

/- Write the lowest bytes of a word at an offset. -/
def writeWord? (i : Image) (offset : Int) (size : Nat) (v : UInt64) : Option Image :=
  i.writeBytes? offset (wordBytes size v)

/- The word of a number of bytes at an offset; `none` if they reach outside. -/
def readWord? (i : Image) (offset : Int) (size : Nat) : Option UInt64 :=
  if 0 ≤ offset ∧ offset + size ≤ i.bytes.size then
    some ((List.range size).foldr
      (fun k v => (v <<< 8) ||| (i.bytes.getD (offset.toNat + k) 0).toUInt64) 0)
  else none

/- The word whose lowest bits are set. -/
def lowBits (width : Int) : UInt64 :=
  UInt64.ofNat (Nat.pow 2 width.toNat - 1)

/- A storage unit with the bits of a bit-field added. -/
def addBits (unit : UInt64) (b : BitField) (v : UInt64) : UInt64 :=
  unit ||| ((v &&& lowBits b.width) <<< UInt64.ofNat b.offset.toNat)

/- Note that an address belongs at an offset. -/
def addReloc (i : Image) (r : Relocation) : Image :=
  { i with relocs := i.relocs.push r }

end Image

namespace InitialValue

open Parse

/- The result of an access to data; outside of the data there is none. -/
def accessed {α : Type} : Option α → Parse α
| some a => return a
| none => throw .internal

/- Write the value of a scalar. -/
def fillScalar (rs : Records) (t : CType) (e : Expr) (offset : Int) (i : Image) : Parse Image := do
  match t.plain with
  | .floating .float =>
    accessed (i.writeWord? offset 4 (← Constant.evalDouble e).toSingleBits.toUInt64)
  | .floating .double =>
    accessed (i.writeWord? offset 8 (← Constant.evalDouble e).bits)
  | .floating .ldouble =>
    accessed (i.writeBytes? offset (Extended80.ofDouble (← Constant.evalDouble e)).toBytes)
  | _ =>
    let (v, symbol?) ← Constant.evalAddress e
    match symbol? with
    | some s => return i.addReloc ⟨offset, s, v⟩
    | none => accessed (i.writeWord? offset (t.size rs).toNat v.toUInt64)

/- Write the value of a bit-field, if it has one. -/
def fillBits (rs : Records) (m : Member) (b : BitField) (c : Init) (offset : Int) (i : Image) :
    Parse Image := do
  match c.expr? with
  | none => return i
  | some e =>
    let size := (m.type.size rs).toNat
    let unit ← accessed (i.readWord? (offset + m.offset) size)
    let v ← Constant.evalInt e
    accessed (i.writeWord? (offset + m.offset) size (Image.addBits unit b v.toUInt64))

mutual

/- Write the values of an object of a type at an offset. -/
def fill (rs : Records) (offset : Int) : CType → Init → Image → Parse Image
| type, .mk _ _ expr? ⟨children⟩ member?, i => do
  if type.isArray then
    fillElements rs offset (elementType type) type.arrayLen children i
  else if type.isStruct rs then
    match expr? with
    | some e => fail e.tok .notConstantInitializer
    | none => fillFields rs offset (type.members rs) children i
  else if type.isUnion rs then
    match member? with
    | none => return i
    | some m => fillField rs offset m.type children m.index i
  else
    match expr? with
    | none => return i
    | some e => fillScalar rs type e offset i

/- Write the values of the elements of an array, of as many as are left. -/
def fillElements (rs : Records) (offset : Int) (type : CType) (left : Int) :
    List Init → Image → Parse Image
| [], i => return i
| c :: cs, i => do
  if left > 0 then
    let i ← fill rs offset type c i
    fillElements rs (offset + type.size rs) type (left - 1) cs i
  else return i

/- Write the values of the members of a structure. -/
def fillFields (rs : Records) (offset : Int) : List Member → List Init → Image → Parse Image
| m :: ms, c :: cs, i => do
  match m.bits? with
  | some b => fillFields rs offset ms cs (← fillBits rs m b c offset i)
  | none => fillFields rs offset ms cs (← fill rs (offset + m.offset) m.type c i)
| _, _, i => return i

/- Write the value of the member of a number. -/
def fillField (rs : Records) (offset : Int) (type : CType) : List Init → Nat → Image → Parse Image
| [], _, _ => throw .internal
| c :: _, 0, i => fill rs offset type c i
| _ :: cs, n + 1, i => fillField rs offset type cs n i

end

------------
-- Variables
------------

/-
  Read the initializer of a variable of a function.  The
  whole of it is zeroed first.
-/
def localInit (read : Reader) (v : ObjId) : Parse Expr := do
  let t ← tok
  let init ← Initializer.complete read (← object v).type
  modifyObject v fun o => { o with type := init.type }
  let e ← assignments (← records) t (.object v) init.type init
  return Operator.comma (.memZero ⟨t, none⟩ v) e t

/- Read the initializer of a variable of the unit into its data. -/
def globalInit (read : Reader) (v : ObjId) : Parse Unit := do
  let init ← Initializer.complete read (← object v).type
  modifyObject v fun o => { o with type := init.type }
  let rs ← records
  let size := init.type.size rs
  if size < 0 then fail (← tok) .incompleteVariable
  let image ← fill rs 0 init.type init (.zero size.toNat)
  modifyObject v fun o => { o with
    data? := some image.bytes.toList
    relocs := image.relocs.toList }

end InitialValue

end CCompiler
