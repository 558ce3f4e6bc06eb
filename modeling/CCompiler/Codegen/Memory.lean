import CCompiler.Assembly.Instr
import CCompiler.Syntax.CType

/-
  This file defines the code that moves values between memory
  and registers.  A value is held in the general register
  `rax`, in the first vector register, or on the stack of
  extended values, depending on its type.

  Key definitions include:
    * `Carrier`, `Carrier.of`
    * `load`, `store`, `copyBytes`
    * `compareZero`
-/

namespace CCompiler

namespace Codegen

open Assembly

/- What holds a value while it is computed. -/
inductive Carrier
| general
| vector (p : Precision)
| extended
deriving DecidableEq, Repr

/- What holds the values of a type. -/
def Carrier.of (t : CType) : Carrier :=
  match t.plain with
  | .floating .float => .vector .single
  | .floating .double => .vector .double
  | .floating .ldouble => .extended
  | _ => .general

/- Whether a type is held by its address: arrays, records and functions are. -/
def heldByAddress (t : CType) : Bool :=
  t.isArray || t.isRecord || t.isFunction || t.isVla

/-
  Replace an address by the value at it.  Integers narrower
  than 32 bits are extended to 32 bits.
-/
def load (rs : Records) (t : CType) : List Instr :=
  if heldByAddress t then []
  else
    match Carrier.of t with
    | .vector p => [.sse (.move p) (.deref .rax) .xmm0]
    | .extended => [.x87Mem .loadExtended (.deref .rax)]
    | .general =>
      match Width.ofBytes? (t.size rs) with
      | some .byte =>
        [.extend (if t.isUnsigned then .zeroByte else .signByte) (.deref .rax) .eax]
      | some .word =>
        [.extend (if t.isUnsigned then .zeroWord else .signWord) (.deref .rax) .eax]
      | some .long => [.extend .signLong (.deref .rax) .rax]
      | _ => [.mov (.deref .rax) .rax]

/- Copy a number of bytes between two places, one at a time through a register. -/
def copyBytes (n : Int) (src dst : Reg) (through : Reg) : List Instr :=
  (List.range n.toNat).flatMap fun (i : Nat) =>
    [.mov (.offset i src) (.reg through .byte), .mov (.reg through .byte) (.offset i dst)]

/- Write a value to the address in `rdi`. -/
def store (rs : Records) (t : CType) : List Instr :=
  if t.isRecord then copyBytes (t.size rs) .rax .rdi .r8
  else
    match Carrier.of t with
    | .vector p => [.sse (.move p) .xmm0 (.deref .rdi)]
    | .extended => [.x87Mem .storeExtended (.deref .rdi)]
    | .general =>
      let w := (Width.ofBytes? (t.size rs)).getD .quad
      [.mov (.reg .rax w) (.deref .rdi)]

/- Set the flags by comparing a value with zero. -/
def compareZero (rs : Records) (t : CType) : List Instr :=
  match Carrier.of t with
  | .vector p => [.sse (.xor p) .xmm1 .xmm1, .sse (.compare p) .xmm1 .xmm0]
  | .extended => [.x87 .zero, .x87 .compareZeroPop, .x87 .drop]
  | .general =>
    if t.isInteger && t.size rs ≤ 4 then [.alu .cmp (.imm 0) .eax] else [.alu .cmp (.imm 0) .rax]

end Codegen

end CCompiler
