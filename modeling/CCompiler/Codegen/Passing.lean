import CCompiler.Assembly.Operand
import CCompiler.Codegen.Eightbyte

/-
  This file decides how arguments travel.  The first values
  that fit go in six general and eight vector registers, the
  others on the stack.  Caller and callee apply the same rule
  to the same list of classes.

  Key definitions include:
    * `ArgClass`, `ArgClass.of`, `ArgClass.eightbytes`
    * `RegisterUse`, `RegisterUse.pass`, `passAll`
    * `RegisterUse.unload`
-/

namespace CCompiler

namespace Codegen

open Assembly

------------
-- Classes of arguments
------------

/-
  The class of an argument.  Of a record it is known which of
  its two eightbytes go in vector registers; an eightbyte past
  its end counts as one that does.
-/
inductive ArgClass
| record (size : Int) (first second : Bool)
| vector
| extended
| general
deriving DecidableEq, Repr

namespace ArgClass

/- The class of a type. -/
def of (rs : Records) (t : CType) : ArgClass :=
  match t.plain with
  | .record _ => .record (t.size rs) (Eightbyte.isVector rs t 0) (Eightbyte.isVector rs t 1)
  | .floating .float | .floating .double => .vector
  | .floating .ldouble => .extended
  | _ => .general

/- The number of eightbytes of an argument on the stack. -/
def eightbytes : ArgClass → Int
| .record size _ _ => (alignUp size 8).tdiv 8
| .vector => 1
| .extended => 2
| .general => 1

end ArgClass

------------
-- Registers
------------

/- The number of general registers for arguments. -/
def generalCount : Nat := 6

/- The number of vector registers for arguments. -/
def vectorCount : Nat := 8

/- The general registers for arguments, in order. -/
def argRegs : List Reg :=
  [.rdi, .rsi, .rdx, .rcx, .r8, .r9]

/- The general register of an argument. -/
def argReg (n : Nat) : Reg :=
  argRegs.getD n .r9

/- The registers taken so far. -/
structure RegisterUse where
  general : Nat := 0
  vector : Nat := 0
deriving DecidableEq, Repr, Inhabited

namespace RegisterUse

/- One more register of a kind. -/
def take (u : RegisterUse) (isVector : Bool) : RegisterUse :=
  if isVector then { u with vector := u.vector + 1 } else { u with general := u.general + 1 }

/-
  Whether both eightbytes of a record find a register.  One
  register of each kind that they need has to stay free.
-/
def fits (u : RegisterUse) (first second : Bool) : Bool :=
  let v := (u.take first).take second
  v.vector < vectorCount && v.general < generalCount

/- Whether an argument goes in registers, and the registers taken after it. -/
def pass (u : RegisterUse) : ArgClass → Bool × RegisterUse
| .record size first second =>
  if size ≤ 16 && u.fits first second then (true, (u.take first).take second) else (false, u)
| .vector => (u.vector < vectorCount, u.take true)
| .extended => (false, u)
| .general => (u.general < generalCount, u.take false)

end RegisterUse

/- Which arguments of a list go in registers. -/
def passAll : RegisterUse → List ArgClass → List Bool
| _, [] => []
| u, c :: cs =>
  let (inRegisters, u) := u.pass c
  inRegisters :: passAll u cs

------------
-- Taking arguments off the stack
------------

/- A register that an eightbyte is popped into. -/
inductive PopTarget
| general (n : Nat)
| vector (n : Nat)
deriving DecidableEq, Repr

namespace RegisterUse

/- The next free register of a kind. -/
def next (u : RegisterUse) (isVector : Bool) : PopTarget :=
  if isVector then .vector u.vector else .general u.general

/-
  The registers that an argument is popped into, and the
  registers taken after it.  Only eightbytes that a record has
  take one.
-/
def unload (u : RegisterUse) : ArgClass → List PopTarget × RegisterUse
| .record size first second =>
  if size > 16 || !u.fits first second then ([], u)
  else
    let v := u.take first
    if size > 8 then ([u.next first, v.next second], v.take second) else ([u.next first], v)
| .vector => if u.vector < vectorCount then ([u.next true], u.take true) else ([], u)
| .extended => ([], u)
| .general => if u.general < generalCount then ([u.next false], u.take false) else ([], u)

end RegisterUse

/- The registers that a list of arguments is popped into, and the registers taken after it. -/
def unloadAll : RegisterUse → List ArgClass → List PopTarget × RegisterUse
| u, [] => ([], u)
| u, c :: cs =>
  let (first, u) := u.unload c
  let (rest, u) := unloadAll u cs
  (first ++ rest, u)

end Codegen

end CCompiler
