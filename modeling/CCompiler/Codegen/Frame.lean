import CCompiler.Codegen.Passing
import CCompiler.Syntax.Program

/-
  This file lays out the frame of a function.  Parameters that
  are passed on the stack lie above the return address, from
  16 bytes above the frame pointer; all other variables lie
  below the frame pointer.

  Key definitions include:
    * `varAlign`
    * `Frame`, `Frame.offset`
    * `Frame.of`
-/

namespace CCompiler

namespace Codegen

/-
  The alignment of a variable in memory.  An array of 16 bytes
  or more is aligned to at least 16 bytes.
-/
def varAlign (rs : Records) (o : Obj) : Int :=
  if o.type.isArray && o.type.size rs ≥ 16 then max 16 o.align else o.align

/- Where the variables of a function lie, and the size of what is below the frame pointer. -/
structure Frame where
  slots : List (ObjId × Int)
  size : Int
deriving Repr, Inhabited

namespace Frame

/- The distance of a variable from the frame pointer; zero if it has no place yet. -/
def offsetIn (slots : List (ObjId × Int)) (id : ObjId) : Int :=
  (slots.lookup id).getD 0

/- The distance of a variable from the frame pointer. -/
def offset (f : Frame) (id : ObjId) : Int :=
  offsetIn f.slots id

/- The places of the parameters that are passed on the stack. -/
def paramSlots (p : Program) : RegisterUse → Int → List ObjId → List (ObjId × Int)
| _, _, [] => []
| u, top, id :: ids =>
  let t := (p.objects.entry id).type
  let (inRegisters, u) := u.pass (.of p.records t)
  if inRegisters then paramSlots p u top ids
  else
    let place := alignUp top 8
    (id, place) :: paramSlots p u (wrap64 (place + t.size p.records)) ids

/-
  The places of the variables that have none yet, each below
  the one before it, and the lowest place.
-/
def localSlots (p : Program) (placed : List (ObjId × Int)) : Int → List ObjId →
    List (ObjId × Int) × Int
| bottom, [] => ([], bottom)
| bottom, id :: ids =>
  if offsetIn placed id != 0 then localSlots p placed bottom ids
  else
    let o := p.objects.entry id
    let place := alignUp (wrap64 (bottom + o.type.size p.records)) (varAlign p.records o)
    let (rest, lowest) := localSlots p placed place ids
    ((id, wrap64 (-place)) :: rest, lowest)

/- The frame of a function. -/
def of (p : Program) (fn : Obj) : Frame :=
  let params := paramSlots p {} 16 fn.params
  let (locals, lowest) := localSlots p params 0 fn.locals
  ⟨params ++ locals, alignUp lowest 16⟩

end Frame

end Codegen

end CCompiler
