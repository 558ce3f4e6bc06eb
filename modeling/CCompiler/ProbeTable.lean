import CCompiler.Text.Bytes

/-
  This file defines a table of named values with open
  addressing.  A key sits in the first free slot at or after
  the one its hash names.  A removed key leaves a tombstone,
  so that keys placed after it stay reachable; tombstones go
  away when the table is rebuilt.

  Key definitions include:
    * `Slot`, `ProbeTable`
    * `ProbeTable.find?`, `ProbeTable.get?`, `ProbeTable.contains`
    * `ProbeTable.insert?`
    * `ProbeTable.erase`
    * `ProbeTable.toList`
-/

namespace CCompiler

------------
-- Slots
------------

/- One place of the table. -/
inductive Slot (α : Type)
| empty
| live (key : Bytes) (value : α)
| tombstone

namespace Slot

variable {α : Type}

/- The entry of a live slot. -/
def entry? : Slot α → Option (Bytes × α)
| .live k v => some (k, v)
| _ => none

end Slot

------------
-- Tables
------------

/-
  A table with its hash function.  `used` counts live slots
  and tombstones, `size` only live slots.
-/
structure ProbeTable (α : Type) where
  hash : Bytes → UInt64
  slots : Array (Slot α)
  used : Nat
  size : Nat

namespace ProbeTable

variable {α : Type}

/- The table before anything is put in it. -/
def empty (hash : Bytes → UInt64) : ProbeTable α :=
  ⟨hash, #[], 0, 0⟩

/- The number of slots. -/
def capacity (t : ProbeTable α) : Nat :=
  t.slots.size

/- The slot that is `i` steps after the one a key's hash names. -/
def place (t : ProbeTable α) (key : Bytes) (i : Nat) : Nat :=
  ((t.hash key + UInt64.ofNat i) % UInt64.ofNat t.slots.size).toNat

/- The slots of a key's probe sequence, in order. -/
def probes (t : ProbeTable α) (key : Bytes) : List Nat :=
  (List.range t.slots.size).map (t.place key)

/- Follow a probe sequence to a live slot with the key; an empty slot ends the search. -/
def findIn (slots : Array (Slot α)) (key : Bytes) : List Nat → Option Nat
| [] => none
| p :: rest =>
  match slots[p]? with
  | some (.live k _) => if k == key then some p else findIn slots key rest
  | some .tombstone => findIn slots key rest
  | _ => none

/- The slot in which a key sits. -/
def find? (t : ProbeTable α) (key : Bytes) : Option Nat :=
  findIn t.slots key (t.probes key)

/- The value of a key. -/
def get? (t : ProbeTable α) (key : Bytes) : Option α :=
  (t.find? key).bind fun p => (t.slots[p]?.bind Slot.entry?).map Prod.snd

/- Whether a key is present. -/
def contains (t : ProbeTable α) (key : Bytes) : Bool :=
  (t.find? key).isSome

/- Where a key is to be written. -/
inductive Target
| replace (p : Nat)
| reuse (p : Nat)
| fresh (p : Nat)
| full

/-
  Follow a probe sequence to the place for a key: its own
  slot, else the first tombstone on the way, else the empty
  slot at the end.
-/
def targetIn (slots : Array (Slot α)) (key : Bytes) : Option Nat → List Nat → Target
| some p, [] => .reuse p
| none, [] => .full
| grave, p :: rest =>
  match slots[p]? with
  | some (.live k _) => if k == key then .replace p else targetIn slots key grave rest
  | some .tombstone => targetIn slots key (some (grave.getD p)) rest
  | _ =>
    match grave with
    | some g => .reuse g
    | none => .fresh p

/- Write a key without looking at the load of the table, if a slot can be found for it. -/
def writeSlot? (t : ProbeTable α) (key : Bytes) (value : α) : Option (ProbeTable α) :=
  match targetIn t.slots key none (t.probes key) with
  | .replace p => some { t with slots := t.slots.setIfInBounds p (.live key value) }
  | .reuse p =>
    some { t with slots := t.slots.setIfInBounds p (.live key value), size := t.size + 1 }
  | .fresh p =>
    some { t with
      slots := t.slots.setIfInBounds p (.live key value)
      used := t.used + 1
      size := t.size + 1 }
  | .full => none

/- Double a capacity until fewer than half of its slots would be live. -/
def grow (live : Nat) : Nat → Nat → Nat
| 0, c => c
| fuel + 1, c => if live * 100 / c ≥ 50 then grow live fuel (c * 2) else c

/- The entries of the live slots, in slot order. -/
def toList (t : ProbeTable α) : List (Bytes × α) :=
  t.slots.toList.filterMap Slot.entry?

/- Whether live slots and tombstones fill seven tenths of the table. -/
def crowded (t : ProbeTable α) : Bool :=
  t.used * 100 / t.slots.size ≥ 70

/- Put a value under a key; `rebuild` makes room in a crowded table. -/
def insertWith (rebuild : ProbeTable α → Option (ProbeTable α)) (t : ProbeTable α)
    (key : Bytes) (value : α) : Option (ProbeTable α) := do
  let ready ←
    if t.slots.size == 0 then some { t with slots := Array.replicate 16 .empty }
    else if t.crowded then rebuild t
    else some t
  ready.writeSlot? key value

/- A table without entries that has room for those of another one. -/
def blankFor (t : ProbeTable α) : ProbeTable α :=
  ⟨t.hash, Array.replicate (grow t.size (t.size + 1) t.slots.size) .empty, 0, 0⟩

/-
  The live entries in a table of a new capacity, put in one by
  one.  The number bounds how deep rebuilding may be nested.
-/
def rebuild? : Nat → ProbeTable α → Option (ProbeTable α)
| 0, _ => none
| n + 1, t =>
  t.toList.foldlM (fun acc (k, v) => insertWith (rebuild? n) acc k v) t.blankFor

/-
  Put a value under a key, in place of any earlier one.  There
  is no result if every slot is taken, or if a table got
  crowded again while it was rebuilt.
-/
def insert? (t : ProbeTable α) (key : Bytes) (value : α) : Option (ProbeTable α) :=
  insertWith (rebuild? 1) t key value

/- Remove a key; a missing one changes nothing. -/
def erase (t : ProbeTable α) (key : Bytes) : ProbeTable α :=
  match t.find? key with
  | some p => { t with slots := t.slots.setIfInBounds p .tombstone, size := t.size - 1 }
  | none => t

end ProbeTable

/- The hash of a text by the multiply-after-xor rule over its bytes. -/
def textHash (s : Bytes) : UInt64 :=
  s.foldl (fun h b => (h ^^^ b.toUInt64) * 0x100000001B3) 0xCBF29CE484222325

end CCompiler
