import CCompiler.Assembly.Printer
import CCompiler.Codegen.Data
import CCompiler.Codegen.Tree

/-
  This file defines the code of functions and the assembly
  text of a translation unit.

  Key definitions include:
    * `saveRegisters`
    * `spill`
    * `function`
    * `generate`
    * `compile`
-/

namespace CCompiler

namespace Codegen

open Assembly

------------
-- Entry of a function
------------

/-
  Fill in the list of variable arguments, which lies at a
  place of the frame with the saved registers behind it: the
  bytes taken of the general and of the vector registers, the
  address of the arguments on the stack, and that of the
  saved registers.
-/
def saveRegisters (params : List CType) (area : Int) : List Instr :=
  let vectors := (params.filter CType.isFloating).length
  let generals := params.length - vectors
  let general (r : Reg) (i : Nat) : Instr :=
    .movWide .quad (.reg r .quad) (.slot (area + 24 + (i : Int) * 8))
  let vector (i : Nat) : Instr :=
    .sse (.move .double) (.xmm i) (.slot (area + 72 + (i : Int) * 8))
  [ .movWide .long (.imm ((generals : Int) * 8)) (.slot area),
    .movWide .long (.imm ((vectors : Int) * 8 + 48)) (.slot (area + 4)),
    .movWide .quad .rbp (.slot (area + 8)),
    .aluWide .add .quad (.imm 16) (.slot (area + 8)),
    .movWide .quad .rbp (.slot (area + 16)),
    .aluWide .add .quad (.imm (area + 24)) (.slot (area + 16)) ] ++
    argRegs.zipIdx.map (fun (r, i) => general r i) ++
    (List.range vectorCount).map vector

/- Store a vector register for arguments, if its size is that of a floating value. -/
def spillVector (n : Nat) (offset size : Int) : Emit Unit :=
  if size = 4 then Emit.code [.sse (.move .single) (.xmm n) (.slot offset)]
  else if size = 8 then Emit.code [.sse (.move .double) (.xmm n) (.slot offset)]
  else Emit.stop .internal

/- Store a general register for arguments, byte by byte if no register has its size. -/
def spillGeneral (n : Nat) (offset size : Int) : Emit Unit :=
  let r := argReg n
  match Width.ofBytes? size with
  | some w => Emit.code [.mov (.reg r w) (.slot offset)]
  | none => Emit.code (spillBytes r offset 0 size)

/- Store the next register for arguments of a kind. -/
def spillNext (u : RegisterUse) (isVector : Bool) (offset size : Int) : Emit RegisterUse := do
  if isVector then spillVector u.vector offset size else spillGeneral u.general offset size
  return u.take isVector

/- Store the registers that hold a parameter at its place in the frame. -/
def spillParam (rs : Records) (u : RegisterUse) (t : CType) (offset : Int) :
    Emit RegisterUse := do
  let size := t.size rs
  match ArgClass.of rs t with
  | .record _ first second =>
    let u ← spillNext u first offset (min 8 size)
    if size > 8 then spillNext u second (offset + 8) (size - 8) else pure u
  | .vector => spillNext u true offset size
  | _ => spillNext u false offset size

/- Store the parameters that are passed in registers. -/
def spill (c : Context) : RegisterUse → List ObjId → Emit Unit
| _, [] => pure ()
| u, id :: ids => do
  if c.frame.offset id > 0 then spill c u ids
  else
    let u ← spillParam c.records u (c.object id).type (c.frame.offset id)
    spill c u ids

------------
-- Functions
------------

/- The code of a function; the end of `main` returns zero. -/
def function (c : Context) : Emit Unit := do
  let fn := c.function
  let name := fn.symbol
  Emit.lines ([linkage fn, .enter .code, .type name .function].map .directive)
  Emit.label (.named name)
  Emit.code
    [ .push .rbp,
      .mov .rsp .rbp,
      .alu .sub (.imm c.frame.size) .rsp,
      .mov .rsp (.slot c.allocaBottom) ]
  if let some area := fn.vaArea? then
    Emit.code (saveRegisters (fn.params.map fun id => (c.object id).type) (c.frame.offset area))
  spill c {} fn.params
  optStmt c fn.body?
  let depth ← Emit.depth
  if depth ≠ 0 then Emit.stop (.fault (.unbalancedStack fn.name depth) Place.nowhere)
  if fn.name == ascii "main" then Emit.code [.mov (.imm 0) .rax]
  Emit.label (.epilogue fn.name)
  Emit.code [.mov .rbp .rsp, .pop .rbp, .ret]

/- The code of what stands at the top level; functions that nothing needs have none. -/
def topLevel (p : Program) (pic : Bool) : TopLevel → Emit Unit
| .asm _ text => Emit.lines [.verbatim text]
| .object id =>
  let o := p.objects.entry id
  if o.isFunction && o.isDefinition && o.isLive then function ⟨p, pic, o, Frame.of p o⟩
  else pure ()

------------
-- Units
------------

/- The lines of a unit: the files it was read from, its variables, its code. -/
def generate (cfg : Config) (files : List SourceFile) (p : Program) :
    Except Failure (List Line) :=
  let names := files.map fun f => Line.directive (.file f.number f.name)
  let code := Emit.sequence (p.globals.map (topLevel p (cfg.hasFeature .pic)))
  (code {}).map fun r => names ++ globalVariables p (cfg.hasFeature .common) ++ r.code

/- The only target that there is code for. -/
def knownTarget : Bytes := ascii "amd64_sysv"

/- The assembly text of a unit for the target of the settings. -/
def compile (cfg : Config) (files : List SourceFile) (p : Program) : Except Failure Bytes :=
  if cfg.target == knownTarget then (generate cfg files p).map Assembly.render
  else .error (.plain (ascii "no code generator for target '" ++ cfg.target ++ ascii "'"))

end Codegen

end CCompiler
