import CCompiler.Assembly.Instr
import CCompiler.Token.Basic

/-
  This file defines computations that write code.  Besides
  the code they keep two counters: how many eightbytes were
  pushed, so that the stack can be aligned at calls, and how
  many labels were numbered.

  Key definitions include:
    * `Counters`, `Emitted`, `Emit`
    * `Emit.code`, `Emit.fresh`
    * `Emit.push`, `Emit.pop`
-/

namespace CCompiler

namespace Codegen

open Assembly

------------
-- Computations
------------

/- The eightbytes on the stack and the labels numbered so far. -/
structure Counters where
  depth : Int := 0
  labels : Nat := 0
deriving DecidableEq, Repr, Inhabited

/- What a computation gives: a value, the code, and the counters after it. -/
structure Emitted (α : Type) where
  value : α
  code : List Line
  counters : Counters

/- A computation that writes code. -/
def Emit (α : Type) : Type :=
  Counters → Except Failure (Emitted α)

namespace Emit

/- Write nothing. -/
def done {α : Type} (a : α) : Emit α :=
  fun c => .ok ⟨a, [], c⟩

/- Write the code of one computation and then that of the next. -/
def andThen {α β : Type} (x : Emit α) (f : α → Emit β) : Emit β :=
  fun c =>
    match x c with
    | .error e => .error e
    | .ok r =>
      match f r.value r.counters with
      | .error e => .error e
      | .ok s => .ok ⟨s.value, r.code ++ s.code, s.counters⟩

instance : Monad Emit where
  pure := done
  bind := andThen

------------
-- Steps
------------

/- Stop with a failure. -/
def stop {α : Type} (e : Failure) : Emit α :=
  fun _ => .error e

/- Stop with a fault at a token. -/
def fail {α : Type} (t : Token) (cause : Fault) : Emit α :=
  stop (.fault cause t.place)

/- Write lines. -/
def lines (ls : List Line) : Emit Unit :=
  fun c => .ok ⟨(), ls, c⟩

/- Write instructions. -/
def code (is : List Instr) : Emit Unit :=
  lines (is.map .instr)

/- Mark a place. -/
def label (l : Label) : Emit Unit :=
  lines [.label l]

/- Record which line of the source text the next instructions stem from. -/
def loc (t : Token) : Emit Unit :=
  lines [.directive (.loc t.file.number t.line)]

/- A number for the labels of a construct. -/
def fresh : Emit Nat :=
  fun c => .ok ⟨c.labels + 1, [], { c with labels := c.labels + 1 }⟩

/- The number of eightbytes on the stack. -/
def depth : Emit Int :=
  fun c => .ok ⟨c.depth, [], c⟩

/- Record that eightbytes were pushed, or popped if there are fewer than none. -/
def deepen (n : Int) : Emit Unit :=
  fun c => .ok ⟨(), [], { c with depth := c.depth + n }⟩

/- Run computations one after the other. -/
def sequence : List (Emit Unit) → Emit Unit
| [] => done ()
| x :: xs => andThen x fun _ => sequence xs

------------
-- The stack
------------

/- Push the value in the general register. -/
def push : Emit Unit := do
  code [.push .rax]
  deepen 1

/- Pop a value into a general register. -/
def pop (r : Reg) : Emit Unit := do
  code [.pop r]
  deepen (-1)

/- Push the value in the first vector register. -/
def pushVector : Emit Unit := do
  code [.alu .sub (.imm 8) .rsp, .sse (.move .double) .xmm0 (.deref .rsp)]
  deepen 1

/- Pop a value into a vector register. -/
def popVector (n : Nat) : Emit Unit := do
  code [.sse (.move .double) (.deref .rsp) (.xmm n), .alu .add (.imm 8) .rsp]
  deepen (-1)

end Emit

end Codegen

end CCompiler
