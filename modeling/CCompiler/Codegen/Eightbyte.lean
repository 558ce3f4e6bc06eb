import CCompiler.Syntax.CType

/-
  This file classifies the eightbytes of a type.  A record of
  up to 16 bytes travels in up to two registers, one for each
  eightbyte: a vector register if the eightbyte is made only
  of `float` and `double` values, a general one otherwise.

  Key definitions include:
    * `Eightbyte.scalarsIn`
    * `Eightbyte.floatsIn`
    * `Eightbyte.isVector`
-/

namespace CCompiler

namespace Codegen

namespace Eightbyte

/-
  Whether every scalar of a type that starts in a range of
  bytes is a `float` or a `double`, for a type that stands at
  an offset.  Records are left to `onRecord`.
-/
def scalarsIn (rs : Records) (lo hi : Int) (onRecord : Nat → Int → Bool) : CType → Int → Bool
| .array _ base n _ _, offset =>
  (List.range n.toNat).all fun i =>
    scalarsIn rs lo hi onRecord base (offset + base.size rs * (i : Int))
| .record id, offset => onRecord id offset
| .atomic t, offset => scalarsIn rs lo hi onRecord t offset
| .floating .float, _ => true
| .floating .double, _ => true
| _, offset => offset < lo || hi ≤ offset

/-
  The same through records, up to a depth of nesting.  Records
  hold each other without cycles, so their number bounds it.
-/
def floatsIn (rs : Records) (lo hi : Int) : Nat → CType → Int → Bool
| 0 => scalarsIn rs lo hi fun _ _ => true
| n + 1 => scalarsIn rs lo hi fun id offset =>
  (rs.entry id).members.all fun m => floatsIn rs lo hi n m.type (offset + m.offset)

/- Whether an eightbyte of a type, counted from zero, goes in a vector register. -/
def isVector (rs : Records) (t : CType) (k : Nat) : Bool :=
  floatsIn rs (8 * (k : Int)) (8 * (k : Int) + 8) (rs.size + 1) t 0

end Eightbyte

end Codegen

end CCompiler
