import CCompiler.Syntax.Tree

/-
  This file defines the objects of a translation unit and the
  unit itself.

  Key definitions include:
    * `Relocation`
    * `Obj`, `Obj.symbol`
    * `TopLevel`
    * `Program`
-/

namespace CCompiler

------------
-- Objects
------------

/- What the address in an initializer points at. -/
inductive Target
| object (id : ObjId)
| label (jump : JumpId)
deriving DecidableEq, Repr, Inhabited

/- An address inside the data of a variable. -/
structure Relocation where
  offset : Int
  target : Target
  addend : Int64
deriving DecidableEq, Repr, Inhabited

/- A variable or a function. -/
structure Obj where
  name : Bytes
  asmName : Bytes := []
  type : CType
  isLocal : Bool := false
  align : Int
  isFunction : Bool := false
  isDefinition : Bool := false
  isStatic : Bool := false
  isTentative : Bool := false
  isThreadLocal : Bool := false
  data? : Option Bytes := none
  relocs : List Relocation := []
  isInline : Bool := false
  params : List ObjId := []
  body? : Option Stmt := none
  locals : List ObjId := []
  vaArea? : Option ObjId := none
  allocaBottom? : Option ObjId := none
  isLive : Bool := false
  isRoot : Bool := false
  refs : List Bytes := []
deriving Inhabited

/- The symbol of an object in the output. -/
def Obj.symbol (o : Obj) : Bytes :=
  if o.asmName.isEmpty then o.name else o.asmName

/- The objects of a translation unit. -/
abbrev Objects := Array Obj

/- The object of a number. -/
def Objects.entry (os : Objects) (id : ObjId) : Obj :=
  os.getD id default

------------
-- Translation units
------------

/- What stands at the top level: an object, or assembly text. -/
inductive TopLevel
| object (id : ObjId)
| asm (tok : Token) (text : Bytes)
deriving Inhabited

/-
  A translation unit in the order of its declarations, with
  the tables that its trees refer to.  `jumps` holds the label
  of every jump.
-/
structure Program where
  globals : List TopLevel
  objects : Objects
  records : Records
  jumps : Array Bytes

namespace Program

/- The label of a jump. -/
def jumpLabel (p : Program) (j : JumpId) : Bytes :=
  p.jumps.getD j []

/- The symbol that an address points at. -/
def targetSymbol (p : Program) : Target → Bytes
| .object id => (p.objects.entry id).symbol
| .label j => p.jumpLabel j

end Program

end CCompiler
