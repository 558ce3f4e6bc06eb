import CCompiler.Text.Bytes

/-
  This file defines the registers, the labels and the operands
  of x86-64 instructions, with their spelling.

  Key definitions include:
    * `Width`, `Reg`, `Reg.text`
    * `Label`, `JumpTarget`
    * `Operand`, `Operand.text`
-/

namespace CCompiler

namespace Assembly

------------
-- Registers
------------

/- How much of a register or of memory an operand names. -/
inductive Width
| byte
| word
| long
| quad
deriving DecidableEq, Repr, Inhabited

namespace Width

/- The letter that ends the name of an instruction of a width. -/
def letter : Width → String
| .byte => "b"
| .word => "w"
| .long => "l"
| .quad => "q"

/- The width of a number of bytes, if registers have it. -/
def ofBytes? (n : Int) : Option Width :=
  if n = 1 then some .byte
  else if n = 2 then some .word
  else if n = 4 then some .long
  else if n = 8 then some .quad
  else none

end Width

/- The general-purpose registers that generated code uses. -/
inductive Reg
| rax
| rcx
| rdx
| rsi
| rdi
| rsp
| rbp
| r8
| r9
| r10
deriving DecidableEq, Repr, Inhabited

namespace Reg

/- The name of a legacy register of two letters in a width. -/
def pairName (letters : String) : Width → Bytes
| .byte => ascii "%" ++ ascii letters ++ ascii "l"
| .word => ascii "%" ++ ascii letters
| .long => ascii "%e" ++ ascii letters
| .quad => ascii "%r" ++ ascii letters

/- The name of a register known by its number in a width. -/
def numberedName (number : String) : Width → Bytes
| .byte => ascii "%r" ++ ascii number ++ ascii "b"
| .word => ascii "%r" ++ ascii number ++ ascii "w"
| .long => ascii "%r" ++ ascii number ++ ascii "d"
| .quad => ascii "%r" ++ ascii number

/- The name of a legacy register known by one letter in a width. -/
def letterName (letter : String) : Width → Bytes
| .byte => ascii "%" ++ ascii letter ++ ascii "l"
| w => pairName (letter ++ "x") w

/- The name of a register in a width. -/
def text : Reg → Width → Bytes
| .rax => letterName "a"
| .rcx => letterName "c"
| .rdx => letterName "d"
| .rsi => pairName "si"
| .rdi => pairName "di"
| .rsp => pairName "sp"
| .rbp => pairName "bp"
| .r8 => numberedName "8"
| .r9 => numberedName "9"
| .r10 => numberedName "10"

end Reg

------------
-- Labels
------------

/- What a numbered label marks. -/
inductive LabelRole
| elseArm
| finish
| start
| whenFalse
| whenTrue
deriving DecidableEq, Repr

namespace LabelRole

/- The word for a role in the name of a label. -/
def text : LabelRole → Bytes
| .elseArm => ascii "else"
| .finish => ascii "end"
| .start => ascii "begin"
| .whenFalse => ascii "false"
| .whenTrue => ascii "true"

end LabelRole

/-
  The name of a place in the code: a name taken from the
  syntax tree, a role with a number, the end of a function,
  or a digit that may be used again.
-/
inductive Label
| named (name : Bytes)
| numbered (role : LabelRole) (n : Nat)
| epilogue (function : Bytes)
| digit (n : Nat)
deriving DecidableEq, Repr

namespace Label

/- The spelling of a label. -/
def text : Label → Bytes
| .named name => name
| .numbered role n => ascii ".L." ++ role.text ++ ascii "." ++ Bytes.ofNat n
| .epilogue function => ascii ".L.return." ++ function
| .digit n => Bytes.ofNat n

end Label

/- Where a jump goes: to a label, or to the nearest digit after or before it. -/
inductive JumpTarget
| label (l : Label)
| forward (n : Nat)
| back (n : Nat)
deriving DecidableEq, Repr

namespace JumpTarget

/- The spelling of a target. -/
def text : JumpTarget → Bytes
| .label l => l.text
| .forward n => Bytes.ofNat n ++ ascii "f"
| .back n => Bytes.ofNat n ++ ascii "b"

end JumpTarget

------------
-- Operands
------------

/- How the address of a symbol is found. -/
inductive SymbolRef
| direct
| got
| tlsGd
deriving DecidableEq, Repr

namespace SymbolRef

/- The mark after the name of a symbol. -/
def suffix : SymbolRef → Bytes
| .direct => []
| .got => ascii "@GOTPCREL"
| .tlsGd => ascii "@tlsgd"

end SymbolRef

/-
  An operand of an instruction.  Memory without a displacement
  is at the address in the register itself.
-/
inductive Operand
| imm (n : Int)
| mask (n : Nat)
| offsetOf (symbol : Bytes)
| reg (r : Reg) (w : Width)
| ah
| xmm (n : Nat)
| st0
| mem (base : Reg) (disp? : Option Int)
| rip (symbol : Bytes) (ref : SymbolRef)
| threadBase
deriving DecidableEq, Repr

namespace Operand

/- The spelling of an operand. -/
def text : Operand → Bytes
| .imm n => ascii "$" ++ Bytes.ofInt n
| .mask n => ascii "$0x" ++ Bytes.ofHex 8 n
| .offsetOf symbol => ascii "$" ++ symbol ++ ascii "@tpoff"
| .reg r w => r.text w
| .ah => ascii "%ah"
| .xmm n => ascii "%xmm" ++ Bytes.ofNat n
| .st0 => ascii "%st(0)"
| .mem base disp? =>
  let disp :=
    match disp? with
    | some d => Bytes.ofInt d
    | none => []
  disp ++ ascii "(" ++ base.text .quad ++ ascii ")"
| .rip symbol ref => symbol ++ ref.suffix ++ ascii "(%rip)"
| .threadBase => ascii "%fs:0"

abbrev al : Operand := .reg .rax .byte
abbrev ax : Operand := .reg .rax .word
abbrev eax : Operand := .reg .rax .long
abbrev rax : Operand := .reg .rax .quad
abbrev cl : Operand := .reg .rcx .byte
abbrev rcx : Operand := .reg .rcx .quad
abbrev dl : Operand := .reg .rdx .byte
abbrev rdx : Operand := .reg .rdx .quad
abbrev edi : Operand := .reg .rdi .long
abbrev rdi : Operand := .reg .rdi .quad
abbrev rsp : Operand := .reg .rsp .quad
abbrev rbp : Operand := .reg .rbp .quad
abbrev r8b : Operand := .reg .r8 .byte
abbrev r8 : Operand := .reg .r8 .quad
abbrev r9 : Operand := .reg .r9 .quad
abbrev r10b : Operand := .reg .r10 .byte
abbrev r10 : Operand := .reg .r10 .quad
abbrev xmm0 : Operand := .xmm 0
abbrev xmm1 : Operand := .xmm 1

/- The memory that a register points at. -/
abbrev deref (r : Reg) : Operand :=
  .mem r none

/- The memory at a distance from the address in a register. -/
abbrev offset (n : Int) (r : Reg) : Operand :=
  .mem r (some n)

/- The memory at a distance from the frame pointer. -/
abbrev slot (n : Int) : Operand :=
  .mem .rbp (some n)

end Operand

end Assembly

end CCompiler
