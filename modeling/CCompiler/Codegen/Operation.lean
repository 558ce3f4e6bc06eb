import CCompiler.Codegen.Conversion
import CCompiler.Codegen.Emit
import CCompiler.Decimal.Extended80
import CCompiler.Decimal.Shortest
import CCompiler.Syntax.Tree

/-
  This file defines the code of constants and of operators
  whose operands are already in their places: for integers the
  left one in `rax` and the right one in `rdi`, for floating
  values in the first two vector registers, and for extended
  values on their stack.

  Key definitions include:
    * `intConstant`, `floatConstant`
    * `negate`
    * `intBinary`, `floatBinary`, `extendedBinary`
    * `fieldRead`, `fieldMerge`
-/

namespace CCompiler

namespace Codegen

open Assembly

------------
-- Constants
------------

/- An integer constant. -/
def intConstant (v : Int64) : List Line :=
  [.instr (.mov (.imm v.toInt) .rax)]

/- A floating constant; a comment shows its value in decimal. -/
def floatConstant (t : CType) (x : Double) : List Line :=
  match Carrier.of t with
  | .vector .single =>
    [ .noted (.mov (.imm x.toSingleBits.toNat) .eax) (ascii "float " ++ Shortest.render x),
      .instr (.movWide .quad .rax .xmm0) ]
  | .vector .double =>
    [ .noted (.mov (.imm x.bits.toNat) .rax) (ascii "double " ++ Shortest.render x),
      .instr (.movWide .quad .rax .xmm0) ]
  | .extended =>
    let e := Extended80.ofDouble x
    [ .noted (.mov (.imm e.mantissa.toNat) .rax) (ascii "long double " ++ Shortest.render x),
      .instr (.mov .rax (.offset (-16) .rsp)),
      .instr (.mov (.imm e.signExponent.toNat) .rax),
      .instr (.mov .rax (.offset (-8) .rsp)),
      .instr (.x87Mem .loadExtended (.offset (-16) .rsp)) ]
  | .general => intConstant 0

------------
-- Operators with one operand
------------

/- Change the sign of a vector value by flipping its highest bit. -/
def flipSign (p : Precision) (bit : Int) : List Instr :=
  [ .mov (.imm 1) .rax,
    .shift .left (.imm bit) .rax,
    .movWide .quad .rax .xmm1,
    .sse (.xor p) .xmm1 .xmm0 ]

/- Change the sign of a value. -/
def negate (t : CType) : List Instr :=
  match Carrier.of t with
  | .vector .single => flipSign .single 31
  | .vector .double => flipSign .double 63
  | .extended => [.x87 .negate]
  | .general => [.unary .neg .rax]

------------
-- Operators with two operands
------------

/- The width of an operation on integers: addresses and `long` values have 64 bits. -/
def operandWidth (t : CType) : Width :=
  match t.plain with
  | .integer .long _ => .quad
  | _ => if t.base?.isSome then .quad else .long

/- A truth value from the flags. -/
def truth (c : Cond) : List Instr :=
  [.set c .al, .extend .zeroByteQuad .al .rax]

/- An operation on integers; `t` is the type of the left operand. -/
def intBinary (rs : Records) (op : BinOp) (t result : CType) : List Instr :=
  let w := operandWidth t
  let ax := Operand.reg .rax w
  let di := Operand.reg .rdi w
  let divide : List Instr :=
    if result.isUnsigned then [.mov (.imm 0) (.reg .rdx w), .unary .div di]
    else [.signExtendAcc (if t.size rs = 8 then .quad else .long), .unary .idiv di]
  let compare (c : Cond) : List Instr := .alu .cmp di ax :: truth c
  let shift (s : ShiftOp) : List Instr := [.mov .rdi .rcx, .shift s .cl ax]
  match op with
  | .add => [.alu .add di ax]
  | .sub => [.alu .sub di ax]
  | .mul => [.alu .imul di ax]
  | .div => divide
  | .mod => divide ++ [.mov .rdx .rax]
  | .bitAnd => [.alu .and di ax]
  | .bitOr => [.alu .or di ax]
  | .bitXor => [.alu .xor di ax]
  | .eq => compare .equal
  | .ne => compare .notEqual
  | .lt => compare (if t.isUnsigned then .below else .less)
  | .le => compare (if t.isUnsigned then .belowOrEqual else .lessOrEqual)
  | .shl => shift .left
  | .shr => shift (if t.isUnsigned then .right else .arithmeticRight)
  | .logAnd | .logOr => []

/-
  An operation on vector values, if there is one.  Comparisons
  take the operands in the order in which a value that is not
  a number makes them false.
-/
def floatBinary (p : Precision) (op : BinOp) : Option (List Instr) :=
  let arithmetic (o : SseOp) : Option (List Instr) := some [.sse o .xmm1 .xmm0]
  let compare (test : List Instr) : Option (List Instr) :=
    some (.sse (.compare p) .xmm0 .xmm1 ::
      test ++ [.alu .and (.imm 1) .al, .extend .zeroByteQuad .al .rax])
  match op with
  | .add => arithmetic (.add p)
  | .sub => arithmetic (.sub p)
  | .mul => arithmetic (.mul p)
  | .div => arithmetic (.div p)
  | .eq => compare [.set .equal .al, .set .noParity .dl, .alu .and .dl .al]
  | .ne => compare [.set .notEqual .al, .set .parity .dl, .alu .or .dl .al]
  | .lt => compare [.set .above .al]
  | .le => compare [.set .aboveOrEqual .al]
  | _ => none

/- An operation on extended values, if there is one. -/
def extendedBinary (op : BinOp) : Option (List Instr) :=
  let compare (c : Cond) : Option (List Instr) :=
    some (.x87 .comparePop :: .x87 .drop :: truth c)
  match op with
  | .add => some [.x87 .addPop]
  | .sub => some [.x87 .subPop]
  | .mul => some [.x87 .mulPop]
  | .div => some [.x87 .divPop]
  | .eq => compare .equal
  | .ne => compare .notEqual
  | .lt => compare .above
  | .le => compare .aboveOrEqual
  | _ => none

------------
-- Bit-fields
------------

/- Cut a bit-field out of the storage unit in `rax`. -/
def fieldRead (b : BitField) (isUnsigned : Bool) : List Instr :=
  [ .shift .left (.imm (64 - b.width - b.offset)) .rax,
    .shift (if isUnsigned then .right else .arithmeticRight) (.imm (64 - b.width)) .rax ]

/- The bits of a value of a width. -/
def lowBits (width : Int) : Int :=
  wrap64 ((Nat.pow 2 width.toNat : Int) - 1)

/- All bits of a word but those of a bit-field. -/
def outsideField (b : BitField) : Int :=
  -1 - wrap64 (lowBits b.width * (Nat.pow 2 b.offset.toNat : Int))

/-
  Merge the value in `rax` into the storage unit of a
  bit-field, whose address is on top of the stack.  The value
  itself is kept in `r8`.
-/
def fieldMerge (rs : Records) (t : CType) (b : BitField) : List Instr :=
  [ .mov .rax .r8,
    .mov .rax .rdi,
    .movAbs (lowBits b.width) .r9,
    .alu .and .r9 .rdi,
    .shift .left (.imm b.offset) .rdi,
    .mov (.deref .rsp) .rax ] ++
  load rs t ++
  [ .mov (.imm (outsideField b)) .r9,
    .alu .and .r9 .rax,
    .alu .or .rdi .rax ]

end Codegen

end CCompiler
