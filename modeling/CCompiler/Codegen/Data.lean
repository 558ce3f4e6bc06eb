import CCompiler.Assembly.Instr
import CCompiler.Codegen.Frame
import CCompiler.Config

/-
  This file defines the text of global variables.

  Key definitions include:
    * `contents`
    * `globalVariable`
    * `globalVariables`
-/

namespace CCompiler

namespace Codegen

open Assembly

/- How a symbol is seen from other units. -/
def linkage (o : Obj) : Directive :=
  if o.isStatic then .localSymbol o.symbol else .globalSymbol o.symbol

/-
  The contents of a variable from a position on.  An address
  takes eight bytes, of which `skip` are still covered;
  everything else is written byte by byte.
-/
def contents (p : Program) : Int → Nat → List Relocation → Bytes → List Directive
| _, _, _, [] => []
| pos, skip + 1, rels, _ :: bs => contents p (pos + 1) skip rels bs
| pos, 0, [], b :: bs => .byte b :: contents p (pos + 1) 0 [] bs
| pos, 0, r :: rels, b :: bs =>
  if r.offset = pos then
    .quad (p.targetSymbol r.target) r.addend :: contents p (pos + 1) 7 rels bs
  else .byte b :: contents p (pos + 1) 0 (r :: rels) bs

/- The section of a variable. -/
def sectionOf (o : Obj) (initialized : Bool) : Section :=
  match initialized, o.isThreadLocal with
  | true, true => .threadData
  | true, false => .data
  | false, true => .threadBss
  | false, false => .bss

/-
  The text of a variable that is defined: common if nothing
  but tentative definitions stand for it and that is asked
  for, else its contents or as many zeros.
-/
def globalVariable (p : Program) (common : Bool) (o : Obj) : List Line :=
  let name := o.symbol
  let size := o.type.size p.records
  let align := varAlign p.records o
  if common && o.isTentative && !o.isThreadLocal then
    [linkage o, .common name size align].map .directive
  else
    match o.data? with
    | some data =>
      let head : List Directive :=
        [ linkage o, .enter (sectionOf o true), .type name .object, .size name size,
          .align align ]
      head.map .directive ++ [.label (.named name)] ++
        (contents p 0 0 o.relocs (data.take size.toNat)).map .directive
    | none =>
      let head : List Directive := [linkage o, .enter (sectionOf o false), .align align]
      head.map .directive ++ [.label (.named name), .directive (.zero size)]

/- The text of all variables that a unit defines. -/
def globalVariables (p : Program) (common : Bool) : List Line :=
  p.globals.flatMap fun
    | .asm _ _ => []
    | .object id =>
      let o := p.objects.entry id
      if o.isFunction || !o.isDefinition then [] else globalVariable p common o

end Codegen

end CCompiler
