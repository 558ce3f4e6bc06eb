import CCompiler.Syntax.Operator

/-
  This file writes the code for arrays whose length is found
  at run time: their size is kept in a variable, and their
  elements are on the stack of the function.

  Key definitions include:
    * `Vla.storeSizes`
    * `Vla.alloca`
-/

namespace CCompiler

namespace Vla

open Parse Operator

/- Note the variable that holds the size of a variable-length array. -/
def setSize (id : Nat) (v : ObjId) : Parse Unit :=
  modify fun s => { s with vlas := s.vlas.modify id fun a => { a with size? := some v } }

/- The number of elements of a variable-length array. -/
def length (id : Nat) (t : Token) : Parse Expr := do
  match (← get).vlas[id]? with
  | some a => return a.len
  | none => return number 0 t

/- The size of what an array is made of. -/
def elementSize (base : CType) (t : Token) : Parse Expr := do
  if base.isVla then vlaSizeVar base t
  else return number (Int64.ofInt (← sizeOf base)) t

/-
  Code that stores the size of every variable-length array in
  a type into a variable, the innermost first.
-/
def storeSizes (t : Token) : CType → Parse Expr
| .ptr base | .array _ base _ _ _ => do
  return comma (.null ⟨t, none⟩) (← storeSizes t base) t
| .vla id base => do
  let inner := comma (.null ⟨t, none⟩) (← storeSizes t base) t
  let size ← elementSize base t
  let v ← newLocal [] .ulong
  setSize id v
  let e := assign (var v t) (binary .mul (← length id t) size t) t
  return comma inner e t
| .atomic inner => storeSizes t inner
| _ => return .null ⟨t, none⟩

/- Take as many bytes of the stack as an expression says. -/
def alloca (size : Expr) : Parse Expr := do
  let f := (← get).alloca
  let type := (← object f).type
  let arg ← Typing.addType size
  return .call ⟨size.tok, type.returnType?⟩ (var f size.tok) type [arg] none

end Vla

end CCompiler
