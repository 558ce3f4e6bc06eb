import CCompiler.Syntax.CType

/-
  This file places the members of structures and unions.
  Bit-fields are packed into units of their own type: one that
  would cross the end of a unit starts a new one, and one of
  width zero only moves on to the next unit.  Bits are counted
  in a signed word, which a member of 2^60 bytes overflows.

  Key definitions include:
    * `Layout.Shape`, `Layout.Slot`
    * `Layout.place`
    * `Layout.struct`, `Layout.union`
    * `Record.laidOut`
-/

namespace CCompiler

namespace Layout

------------
-- Shapes and slots
------------

/- What the layout needs to know of a member; `width?` is that of a bit-field. -/
structure Shape where
  size : Int
  align : Int
  width? : Option Int := none
deriving DecidableEq, Repr, Inhabited

/- Where a member is: its first byte, and for a bit-field its first bit in the unit there. -/
structure Slot where
  offset : Int
  bit : Int := 0
deriving DecidableEq, Repr, Inhabited

/- The bits used so far and the strictest alignment so far. -/
structure Cursor where
  bits : Int
  align : Int
deriving DecidableEq, Repr, Inhabited

------------
-- Structures
------------

/- Place a bit-field of positive width: the slot, and the bits used after it. -/
def placeBits (bits size width : Int) : Slot × Int :=
  let unit := size * 8
  let last := wrap64 (bits + width - 1)
  let bits := if bits.tdiv unit != last.tdiv unit then alignUp bits unit else bits
  (⟨alignDown (bits.tdiv 8) size, bits.tmod unit⟩, wrap64 (bits + width))

/- Place one member: its slot, and the bits used after it. -/
def place (packed : Bool) (bits : Int) (m : Shape) : Slot × Int :=
  match m.width? with
  | some 0 => (⟨0, 0⟩, alignUp bits (m.size * 8))
  | some w => placeBits bits m.size w
  | none =>
    let bits := if packed then bits else alignUp bits (wrap64 (m.align * 8))
    (⟨bits.tdiv 8, 0⟩, wrap64 (bits + m.size * 8))

/- Move past one member. -/
def step (packed : Bool) (c : Cursor) (m : Shape) : Slot × Cursor :=
  let (slot, bits) := place packed c.bits m
  (slot, ⟨bits, if packed then c.align else max c.align m.align⟩)

/- The slots of members in order, and where the last one ends. -/
def slots (packed : Bool) : Cursor → List Shape → List Slot × Cursor
| c, [] => ([], c)
| c, m :: ms =>
  let (slot, c) := step packed c m
  let (rest, c) := slots packed c ms
  (slot :: rest, c)

/- The slots, size and alignment of a structure whose own alignment is at least `align`. -/
def struct (packed : Bool) (align : Int) (ms : List Shape) : List Slot × Int × Int :=
  let (ss, c) := slots packed ⟨0, align⟩ ms
  (ss, (alignUp c.bits (wrap64 (c.align * 8))).tdiv 8, c.align)

------------
-- Unions
------------

/- The size and alignment of a union; all of its members start with it. -/
def union (align : Int) (ms : List Shape) : Int × Int :=
  let align := ms.foldl (fun a m => max a m.align) align
  let size := ms.foldl (fun s m => max s m.size) 0
  (alignUp size align, align)

end Layout

------------
-- Records
------------

namespace Member

/- The shape of a member. -/
def shape (rs : Records) (m : Member) : Layout.Shape :=
  { size := m.type.size rs, align := m.align, width? := m.bits?.map (·.width) }

/- A member in its slot. -/
def inSlot (m : Member) (s : Layout.Slot) : Member :=
  { m with
    offset := s.offset
    bits? := m.bits?.map fun b => { b with offset := s.bit } }

end Member

namespace Record

/- A record with its members placed. -/
def laidOut (rs : Records) (r : Record) : Record :=
  let shapes := r.members.map (Member.shape rs)
  if r.isUnion then
    let (size, align) := Layout.union r.align shapes
    { r with size := size, align := align }
  else
    let (ss, size, align) := Layout.struct r.packed r.align shapes
    { r with
      members := r.members.zipWith Member.inSlot ss
      size := size
      align := align }

end Record

end CCompiler
