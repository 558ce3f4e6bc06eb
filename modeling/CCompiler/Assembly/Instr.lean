import CCompiler.Assembly.Operand

/-
  This file defines instructions, directives and the lines of
  an assembly text.  Operands stand in the order of their
  spelling: the source first, then the destination.

  Key definitions include:
    * `Cond`, `AluOp`, `ShiftOp`, `UnaryOp`, `Extension`
    * `SseOp`, `X87Op`
    * `Instr`
    * `Directive`
    * `Line`
-/

namespace CCompiler

namespace Assembly

------------
-- Operations on integers
------------

/- A condition on the flags. -/
inductive Cond
| equal
| notEqual
| below
| belowOrEqual
| above
| aboveOrEqual
| less
| lessOrEqual
| sign
| noSign
| parity
| noParity
deriving DecidableEq, Repr

/- Operations on a source and a destination. -/
inductive AluOp
| add
| sub
| imul
| and
| or
| xor
| cmp
| test
deriving DecidableEq, Repr

/- Shifts by a number of bits. -/
inductive ShiftOp
| left
| right
| arithmeticRight
deriving DecidableEq, Repr

/- Operations on one operand. -/
inductive UnaryOp
| neg
| not
| inc
| dec
| div
| idiv
deriving DecidableEq, Repr

/- Moves that widen a value. -/
inductive Extension
| signByte
| zeroByte
| signWord
| zeroWord
| signLong
| zeroByteAny
| zeroByteQuad
deriving DecidableEq, Repr

------------
-- Operations on floating values
------------

/- The precision of an operation on a vector register. -/
inductive Precision
| single
| double
deriving DecidableEq, Repr

/- Operations on vector registers. -/
inductive SseOp
| move (p : Precision)
| add (p : Precision)
| sub (p : Precision)
| mul (p : Precision)
| div (p : Precision)
| compare (p : Precision)
| xor (p : Precision)
| clear
| ofInt (w : Width) (p : Precision)
| toInt (p : Precision) (w : Width)
| widen
| narrow
deriving DecidableEq, Repr

/- Operations on the stack of extended values. -/
inductive X87Op
| negate
| addPop
| subPop
| mulPop
| divPop
| comparePop
| zero
| compareZeroPop
| drop
deriving DecidableEq, Repr

/- Operations on the stack of extended values with an operand in memory. -/
inductive X87MemOp
| loadExtended
| storeExtended
| loadInt32
| loadInt64
| loadSingle
| loadDouble
| addSingle
| storeSingle
| storeDouble
| storeInt16
| storeInt32
| storeInt64
| saveControl
| loadControl
deriving DecidableEq, Repr

------------
-- Instructions
------------

/-
  An instruction.  The wide forms name their width because no
  operand fixes it or because they always do; a padded jump is
  written with a second blank after its name.
-/
inductive Instr
| mov (src dst : Operand)
| movWide (w : Width) (src dst : Operand)
| movAbs (n : Int) (dst : Operand)
| extend (x : Extension) (src dst : Operand)
| lea (src dst : Operand)
| leaData16 (src dst : Operand)
| push (r : Reg)
| pop (r : Reg)
| alu (op : AluOp) (src dst : Operand)
| aluWide (op : AluOp) (w : Width) (src dst : Operand)
| shift (op : ShiftOp) (count dst : Operand)
| shiftOne (op : ShiftOp) (dst : Operand)
| unary (op : UnaryOp) (dst : Operand)
| signExtendAcc (w : Width)
| set (c : Cond) (dst : Operand)
| jump (target : JumpTarget)
| jumpIf (c : Cond) (target : JumpTarget)
| jumpIfPadded (c : Cond) (target : JumpTarget)
| jumpTo (r : Reg)
| callTo (r : Reg)
| callSymbol (name : Bytes)
| ret
| xchg (src dst : Operand)
| lockCmpxchg (src dst : Operand)
| repStosb
| rex64
| sse (op : SseOp) (src dst : Operand)
| x87 (op : X87Op)
| x87Mem (op : X87MemOp) (m : Operand)
deriving DecidableEq, Repr

------------
-- Lines
------------

/- The parts of an object file. -/
inductive Section
| code
| data
| bss
| threadData
| threadBss
deriving DecidableEq, Repr

/- What a symbol names. -/
inductive SymbolType
| object
| function
deriving DecidableEq, Repr

/- A directive to the assembler. -/
inductive Directive
| file (number : Nat) (name : Bytes)
| loc (file : Nat) (line : Int)
| localSymbol (name : Bytes)
| globalSymbol (name : Bytes)
| common (name : Bytes) (size align : Int)
| enter (s : Section)
| type (name : Bytes) (t : SymbolType)
| size (name : Bytes) (n : Int)
| align (n : Int)
| byte (b : UInt8)
| quad (symbol : Bytes) (addend : Int64)
| zero (n : Int)
| value (n : Nat)
deriving DecidableEq, Repr

/- A line of assembly text; a noted instruction is followed by a comment. -/
inductive Line
| label (l : Label)
| instr (i : Instr)
| noted (i : Instr) (note : Bytes)
| directive (d : Directive)
| verbatim (text : Bytes)
deriving DecidableEq, Repr

end Assembly

end CCompiler
