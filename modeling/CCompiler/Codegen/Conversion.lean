import CCompiler.Codegen.Memory

/-
  This file defines the code that converts values between the
  arithmetic types.  Integers of up to 32 bits are kept
  extended to 32 bits, so a conversion needs code only if the
  value may change.

  Key definitions include:
    * `NumClass`, `NumClass.of`
    * `ConvStep`, `ConvStep.lines`
    * `conversion`
    * `convert`
-/

namespace CCompiler

namespace Codegen

open Assembly

------------
-- Classes of numbers
------------

/- The class of the numbers of a type. -/
inductive NumClass
| integer (kind : IntKind) (isUnsigned : Bool)
| floating (kind : FloatKind)
deriving DecidableEq, Repr

/- The class of a type; what is not an integer or floating type is a 64-bit word. -/
def NumClass.of (t : CType) : NumClass :=
  match t.plain with
  | .integer k u => .integer k u
  | .floating k => .floating k
  | _ => .integer .long true

------------
-- Steps
------------

/-
  One step of a conversion.  Integer steps work on `rax`,
  vector steps on the first vector register, and extended
  steps on the top of the stack of extended values.
-/
inductive ConvStep
| signByte
| zeroByte
| signWord
| zeroWord
| signLong
| zeroLong
| vectorOfInt (w : Width) (p : Precision)
| vectorOfWord (p : Precision)
| intOfVector (p : Precision) (w : Width)
| widen
| narrow
| extendedOfInt32
| extendedOfInt64
| addTwoTo64
| extendedOfVector (p : Precision)
| vectorOfExtended (p : Precision)
| truncate (w : Width)
| reload (isUnsigned : Bool) (w : Width)
deriving DecidableEq, Repr

namespace ConvStep

/- Scratch memory below the stack pointer. -/
abbrev scratch (n : Int) : Operand :=
  .offset n .rsp

/-
  An unsigned word as a floating value.  With the top bit set
  the value is halved, keeping the low bit for rounding,
  converted and doubled.
-/
def wordToVector (p : Precision) : List Line :=
  [ .instr (.alu .test .rax .rax),
    .instr (.jumpIf .sign (.forward 1)),
    .instr (.sse .clear .xmm0 .xmm0),
    .instr (.sse (.ofInt .quad p) .rax .xmm0),
    .instr (.jump (.forward 2)),
    .label (.digit 1),
    .instr (.mov .rax .rdi),
    .instr (.alu .and (.imm 1) .eax),
    .instr (.sse .clear .xmm0 .xmm0),
    .instr (.shiftOne .right .rdi),
    .instr (.alu .or .rax .rdi),
    .instr (.sse (.ofInt .quad p) .rdi .xmm0),
    .instr (.sse (.add p) .xmm0 .xmm0),
    .label (.digit 2) ]

/- The correction of a word that was taken as negative; the number is 2^64 in single precision. -/
def wordCorrection : List Line :=
  [ .instr (.alu .test .rax .rax),
    .instr (.jumpIf .noSign (.forward 1)),
    .instr (.mov (.imm 1602224128) .eax),
    .instr (.mov .eax (scratch (-4))),
    .instr (.x87Mem .addSingle (scratch (-4))),
    .label (.digit 1) ]

/- The store of an extended value as an integer of a width. -/
def storeInt : Width → X87MemOp
| .byte | .word => .storeInt16
| .long => .storeInt32
| .quad => .storeInt64

/- Store an extended value as an integer, with rounding toward zero around the store. -/
def truncation (w : Width) : List Instr :=
  [ .x87Mem .saveControl (scratch (-10)),
    .extend .zeroWord (scratch (-10)) .eax,
    .alu .or (.imm 12) .ah,
    .mov .ax (scratch (-12)),
    .x87Mem .loadControl (scratch (-12)),
    .x87Mem (storeInt w) (scratch (-24)),
    .x87Mem .loadControl (scratch (-10)) ]

/- Load an integer that was stored by a truncation. -/
def reloading (isUnsigned : Bool) : Width → List Instr
| .byte => [.extend (if isUnsigned then .zeroByte else .signByte) (scratch (-24)) .eax]
| .word => [.extend (if isUnsigned then .zeroWord else .signWord) (scratch (-24)) .eax]
| .long => [.mov (scratch (-24)) .eax]
| .quad => [.mov (scratch (-24)) .rax]

/- A move of a vector register to scratch memory and a load from there. -/
def vectorToExtended : Precision → List Instr
| .single =>
  [.sse (.move .single) .xmm0 (scratch (-4)), .x87Mem .loadSingle (scratch (-4))]
| .double =>
  [.sse (.move .double) .xmm0 (scratch (-8)), .x87Mem .loadDouble (scratch (-8))]

/- A store of an extended value to scratch memory and a load from there. -/
def extendedToVector (p : Precision) : List Instr :=
  let op : X87MemOp :=
    match p with
    | .single => .storeSingle
    | .double => .storeDouble
  [.x87Mem op (scratch (-8)), .sse (.move p) (scratch (-8)) .xmm0]

/- The code of a step. -/
def lines : ConvStep → List Line
| .signByte => [.instr (.extend .signByte .al .eax)]
| .zeroByte => [.instr (.extend .zeroByte .al .eax)]
| .signWord => [.instr (.extend .signWord .ax .eax)]
| .zeroWord => [.instr (.extend .zeroWord .ax .eax)]
| .signLong => [.instr (.extend .signLong .eax .rax)]
| .zeroLong => [.instr (.mov .eax .eax)]
| .vectorOfInt w p => [.instr (.sse (.ofInt w p) (.reg .rax w) .xmm0)]
| .vectorOfWord p => wordToVector p
| .intOfVector p w => [.instr (.sse (.toInt p w) .xmm0 (.reg .rax w))]
| .widen => [.instr (.sse .widen .xmm0 .xmm0)]
| .narrow => [.instr (.sse .narrow .xmm0 .xmm0)]
| .extendedOfInt32 =>
  [.instr (.mov .eax (scratch (-4))), .instr (.x87Mem .loadInt32 (scratch (-4)))]
| .extendedOfInt64 =>
  [.instr (.mov .rax (scratch (-8))), .instr (.x87Mem .loadInt64 (scratch (-8)))]
| .addTwoTo64 => wordCorrection
| .extendedOfVector p => (vectorToExtended p).map .instr
| .vectorOfExtended p => (extendedToVector p).map .instr
| .truncate w => (truncation w).map .instr
| .reload u w => (reloading u w).map .instr

end ConvStep

------------
-- Conversions
------------

/- Whether every value of a narrow integer class, extended to 32 bits, is one of another. -/
def narrowFits (fromKind : IntKind) (fromUnsigned : Bool) (toKind : IntKind) (toUnsigned : Bool) :
    Bool :=
  match fromKind, toKind with
  | .char, .char => fromUnsigned == toUnsigned
  | .char, .short => fromUnsigned || !toUnsigned
  | .short, .short => fromUnsigned == toUnsigned
  | _, _ => false

/- The step that cuts an integer down to a narrow class. -/
def cutTo (toKind : IntKind) (toUnsigned : Bool) : List ConvStep :=
  match toKind, toUnsigned with
  | .char, false => [.signByte]
  | .char, true => [.zeroByte]
  | .short, false => [.signWord]
  | .short, true => [.zeroWord]
  | _, _ => []

/-
  The steps from one integer class to another.  Between 32 and
  64 bits the low half stays valid, so only widening takes
  code.
-/
def intToInt (fromKind : IntKind) (fromUnsigned : Bool) (toKind : IntKind) (toUnsigned : Bool) :
    List ConvStep :=
  match toKind with
  | .char | .short =>
    if narrowFits fromKind fromUnsigned toKind toUnsigned then [] else cutTo toKind toUnsigned
  | .int => []
  | .long =>
    match fromKind with
    | .long => []
    | .int => if fromUnsigned then [.zeroLong] else [.signLong]
    | _ => [.signLong]

/- The steps from an integer class to a floating one. -/
def intToFloat (kind : IntKind) (isUnsigned : Bool) (dest : FloatKind) : List ConvStep :=
  match kind, isUnsigned, dest with
  | .long, true, .float => [.vectorOfWord .single]
  | .long, true, .double => [.vectorOfWord .double]
  | .long, true, .ldouble => [.extendedOfInt64, .addTwoTo64]
  | .long, false, .float => [.vectorOfInt .quad .single]
  | .long, false, .double => [.vectorOfInt .quad .double]
  | .long, false, .ldouble => [.extendedOfInt64]
  | .int, true, .float => [.zeroLong, .vectorOfInt .quad .single]
  | .int, true, .double => [.zeroLong, .vectorOfInt .quad .double]
  | .int, true, .ldouble => [.zeroLong, .extendedOfInt64]
  | _, _, .float => [.vectorOfInt .long .single]
  | _, _, .double => [.vectorOfInt .long .double]
  | _, _, .ldouble => [.extendedOfInt32]

/- The steps from a vector register to an integer class. -/
def vectorToInt (p : Precision) (kind : IntKind) (isUnsigned : Bool) : List ConvStep :=
  match kind, isUnsigned with
  | .long, _ | .int, true => [.intOfVector p .quad]
  | _, _ => .intOfVector p .long :: cutTo kind isUnsigned

/- The steps from an extended value to an integer class. -/
def extendedToInt (kind : IntKind) (isUnsigned : Bool) : List ConvStep :=
  match kind, isUnsigned with
  | .char, u => [.truncate .word, .reload u .byte]
  | .short, false => [.truncate .word, .reload false .word]
  | .short, true => [.truncate .long, .reload true .word]
  | .int, false => [.truncate .long, .reload false .long]
  | .int, true => [.truncate .quad, .reload true .long]
  | .long, u => [.truncate .quad, .reload u .quad]

/- The steps from one floating class to another. -/
def floatToFloat : FloatKind → FloatKind → List ConvStep
| .float, .double => [.widen]
| .float, .ldouble => [.extendedOfVector .single]
| .double, .float => [.narrow]
| .double, .ldouble => [.extendedOfVector .double]
| .ldouble, .float => [.vectorOfExtended .single]
| .ldouble, .double => [.vectorOfExtended .double]
| _, _ => []

/- The steps that convert a number of one class to another. -/
def conversion : NumClass → NumClass → List ConvStep
| .integer k u, .integer k' u' => intToInt k u k' u'
| .integer k u, .floating f => intToFloat k u f
| .floating .float, .integer k u => vectorToInt .single k u
| .floating .double, .integer k u => vectorToInt .double k u
| .floating .ldouble, .integer k u => extendedToInt k u
| .floating f, .floating g => floatToFloat f g

/-
  The code that converts a value of one type to another.  A
  truth value is one if the value differs from zero.
-/
def convert (rs : Records) (source dest : CType) : List Line :=
  if dest.isVoid then []
  else if dest.isBool then
    (compareZero rs source ++ [Instr.set .notEqual .al, .extend .zeroByteAny .al .eax]).map .instr
  else (conversion (.of source) (.of dest)).flatMap ConvStep.lines

end Codegen

end CCompiler
