import CCompiler.Codegen.Emit
import CCompiler.Codegen.Memory
import CCompiler.Codegen.Passing

/-
  This file defines the code of calls: pushing arguments,
  popping those that travel in registers, returning records,
  and growing the frame at run time.

  Key definitions include:
    * `Argument`, `pushAll`, `passArguments`
    * `popAll`
    * `receiveRecord`, `returnInRegisters`, `returnInMemory`
    * `call`
    * `growFrame`
-/

namespace CCompiler

namespace Codegen

open Assembly

------------
-- Arguments
------------

/- An argument: its type and the code that computes it. -/
structure Argument where
  type : CType
  value : Emit Unit

/- Push the record that `rax` points at. -/
def pushRecord (rs : Records) (t : CType) : Emit Unit := do
  let size := alignUp (t.size rs) 8
  Emit.code [.alu .sub (.imm size) .rsp]
  Emit.deepen (size.tdiv 8)
  Emit.code (copyBytes (t.size rs) .rax .rsp .r10)

/- Compute an argument and push it. -/
def Argument.push (rs : Records) (a : Argument) : Emit Unit := do
  a.value
  match ArgClass.of rs a.type with
  | .record _ _ _ => pushRecord rs a.type
  | .vector => Emit.pushVector
  | .extended =>
    Emit.code [.alu .sub (.imm 16) .rsp, .x87Mem .storeExtended (.deref .rsp)]
    Emit.deepen 2
  | .general => Emit.push

/- Push arguments from the last to the first. -/
def pushAll (rs : Records) : List Argument → Emit Unit
| [] => pure ()
| a :: rest => do
  pushAll rs rest
  a.push rs

/- The registers taken before the first argument: one if the result is written through a pointer. -/
def startUse (hidden : Bool) : RegisterUse :=
  { general := if hidden then 1 else 0 }

/-
  Push the arguments of a call and give the number of
  eightbytes that stay on the stack during it.  Those that
  travel on the stack are pushed first, at a place that leaves
  the stack aligned to 16 bytes.
-/
def passArguments (rs : Records) (hidden : Bool) (args : List Argument) : Emit Int := do
  let classes := args.map fun a => ArgClass.of rs a.type
  let marked := args.zip (passAll (startUse hidden) classes)
  let onStack := (marked.filter fun m => !m.2).map (·.1)
  let inRegisters := (marked.filter fun m => m.2).map (·.1)
  let stack := onStack.foldl (fun n a => n + (ArgClass.of rs a.type).eightbytes) 0
  let odd := ((← Emit.depth) + stack).tmod 2 == 1
  if odd then
    Emit.code [.alu .sub (.imm 8) .rsp]
    Emit.deepen 1
  pushAll rs onStack
  pushAll rs inRegisters
  return if odd then stack + 1 else stack

/- Pop an eightbyte into a register for arguments. -/
def PopTarget.pop : PopTarget → Emit Unit
| .general n => Emit.pop (argReg n)
| .vector n => Emit.popVector n

/- Pop eightbytes into registers for arguments. -/
def popAll (targets : List PopTarget) : Emit Unit :=
  Emit.sequence (targets.map PopTarget.pop)

------------
-- Results
------------

/- The precision of an eightbyte of a record that ends after a number of bytes. -/
def tailPrecision (size single : Int) : Precision :=
  if size == single then .single else .double

/- Write the bytes of a register, lowest first, to the frame. -/
def spillBytes (r : Reg) (offset first last : Int) : List Instr :=
  (List.range (last - first).toNat).flatMap fun (i : Nat) =>
    [.mov (.reg r .byte) (.slot (offset + first + i)), .shift .right (.imm 8) (.reg r .quad)]

/- Collect the bytes at the address in `rdi` in a register, highest first. -/
def gatherBytes (r : Reg) (first last : Int) : List Instr :=
  .mov (.imm 0) (.reg r .quad) ::
    (List.range (last - first).toNat).reverse.flatMap fun (i : Nat) =>
      [.shift .left (.imm 8) (.reg r .quad), .mov (.offset (first + i) .rdi) (.reg r .byte)]

/- Store a record of up to 16 bytes that came back in registers to the frame. -/
def receiveRecord (rs : Records) (t : CType) (offset : Int) : List Instr :=
  let size := t.size rs
  let firstVector := Eightbyte.isVector rs t 0
  let first :=
    if firstVector then [.sse (.move (tailPrecision size 4)) .xmm0 (.slot offset)]
    else spillBytes .rax offset 0 (min 8 size)
  let second :=
    if size ≤ 8 then []
    else if Eightbyte.isVector rs t 1 then
      [.sse (.move (tailPrecision size 12)) (.xmm (if firstVector then 1 else 0))
        (.slot (offset + 8))]
    else spillBytes (if firstVector then .rax else .rdx) offset 8 (min 16 size)
  first ++ second

/- Load the record of up to 16 bytes that `rax` points at into the registers for results. -/
def returnInRegisters (rs : Records) (t : CType) : List Instr :=
  let size := t.size rs
  let firstVector := Eightbyte.isVector rs t 0
  let first :=
    if firstVector then [.sse (.move (tailPrecision size 4)) (.deref .rdi) .xmm0]
    else gatherBytes .rax 0 (min 8 size)
  let second :=
    if size ≤ 8 then []
    else if Eightbyte.isVector rs t 1 then
      [.sse (.move (tailPrecision size 12)) (.offset 8 .rdi)
        (.xmm (if firstVector then 1 else 0))]
    else gatherBytes (if firstVector then .rax else .rdx) 8 (min 16 size)
  .mov .rax .rdi :: first ++ second

/- Copy the record that `rax` points at to the address kept at a place of the frame. -/
def returnInMemory (rs : Records) (t : CType) (pointer : Int) : List Instr :=
  .mov (.slot pointer) .rdi :: copyBytes (t.size rs) .rax .rdi .rdx

/- Where a call leaves a record: the type of its buffer and its place in the frame. -/
structure ResultBuffer where
  type : CType
  offset : Int

/-
  Bring the result of a call into its usual form.  The upper
  bits of a narrow result are not fixed, and a small record
  comes back in registers.
-/
def receiveResult (rs : Records) (t : CType) (buffer? : Option ResultBuffer) : List Instr :=
  match t.plain with
  | .bool => [.extend .zeroByteAny .al .eax]
  | .integer .char u => [.extend (if u then .zeroByte else .signByte) .al .eax]
  | .integer .short u => [.extend (if u then .zeroWord else .signWord) .ax .eax]
  | _ =>
    match buffer? with
    | some b =>
      if t.size rs ≤ 16 then
        receiveRecord rs b.type b.offset ++ [.lea (.slot b.offset) .rax]
      else []
    | none => []

------------
-- Calls
------------

/-
  A call.  A result of more than 16 bytes is written through a
  pointer to its buffer, which is passed as if it were the
  first argument.  The callee learns in `al` how many vector
  registers hold arguments.
-/
def call (rs : Records) (t : CType) (callee : Emit Unit) (args : List Argument)
    (buffer? : Option ResultBuffer) : Emit Unit := do
  let pointer? := if t.size rs > 16 then buffer? else none
  let hidden := pointer?.isSome
  let stack ← passArguments rs hidden args
  if let some b := pointer? then
    Emit.code [.lea (.slot b.offset) .rax]
    Emit.push
  callee
  if hidden then Emit.pop (argReg 0)
  let (targets, use) := unloadAll (startUse hidden) (args.map fun a => ArgClass.of rs a.type)
  popAll targets
  Emit.code [.mov .rax .r10, .mov (.imm use.vector) .rax, .callTo .r10,
    .alu .add (.imm (stack * 8)) .rsp]
  Emit.deepen (-stack)
  Emit.code (receiveResult rs t buffer?)

------------
-- Memory of a function at run time
------------

/-
  Grow the frame by the bytes in `rdi`, rounded up to 16.  The
  values pushed since the last allocation lie below its old
  end, which is kept at a place of the frame, and are moved
  down first.
-/
def growFrame (bottom : Int) : List Line :=
  [ .instr (.alu .add (.imm 15) .rdi),
    .instr (.alu .and (.mask 0xfffffff0) .edi),
    .instr (.mov (.slot bottom) .rcx),
    .instr (.alu .sub .rsp .rcx),
    .instr (.mov .rsp .rax),
    .instr (.alu .sub .rdi .rsp),
    .instr (.mov .rsp .rdx),
    .label (.digit 1),
    .instr (.alu .cmp (.imm 0) .rcx),
    .instr (.jumpIf .equal (.forward 2)),
    .instr (.mov (.deref .rax) .r8b),
    .instr (.mov .r8b (.deref .rdx)),
    .instr (.unary .inc .rdx),
    .instr (.unary .inc .rax),
    .instr (.unary .dec .rcx),
    .instr (.jump (.back 1)),
    .label (.digit 2),
    .instr (.mov (.slot bottom) .rax),
    .instr (.alu .sub .rdi .rax),
    .instr (.mov .rax (.slot bottom)) ]

end Codegen

end CCompiler
