import CCompiler.Syntax.Operator

/-
  This file reads initializers into trees of values.  Braces
  may be left out around the values of a part, a designator
  moves to another element or member, and an array of unknown
  length gets the length that its initializer needs.

  Key definitions include:
    * `Init.blank`
    * `Initializer.initializer`, `Initializer.designation`
    * `Initializer.countElements`
    * `Initializer.complete`
-/

namespace CCompiler

------------
-- Trees without values
------------

namespace Init

/- A tree without values, given those of records. -/
def blankWith (record : CType → Bool → Init) : CType → Bool → Init
| .array id base n size align, isOpen =>
  let type : CType := .array id base n size align
  if isOpen && n < 0 then .empty type true #[]
  else .empty type false (Array.replicate n.toNat (blankWith record base false))
| .atomic t, isOpen =>
  match blankWith record t isOpen with
  | .mk t o e c m => .mk t.toAtomic o e c m
| .record id, isOpen => record (.record id) isOpen
| t, _ => .empty t false #[]

/-
  A tree without values for an object of a type.  The fuel
  counts records inside records.  With `isOpen` an array of
  unknown length at the top, or at the end of a record, waits
  for its length.
-/
def blank (rs : Records) : Nat → CType → Bool → Init
| 0, t, _ => .empty t false #[]
| fuel + 1, t, isOpen =>
  let record (t : CType) (isOpen : Bool) : Init :=
    let ms := t.members rs
    let flexible := isOpen && ((t.record? rs).map (·.flexible)).getD false
    let child (m : Member) : Init :=
      if flexible && m.index + 1 == ms.length then .empty m.type true #[]
      else blank rs fuel m.type false
    .empty t false (ms.map child).toArray
  blankWith record t isOpen

/- Set the values of the first elements of an array. -/
def setExprs (values : List Expr) (i : Init) : Init :=
  (values.zipIdx).foldl (fun i (e, n) => i.setChild n ((i.child n).withExpr (some e))) i

end Init

namespace Initializer

open Parse Grammar

/- A tree without values for an object of a type. -/
def blank (t : CType) (isOpen : Bool) : Parse Init := do
  let rs ← records
  return Init.blank rs (rs.size + 1) t isOpen

/- A tree without values for an array that turned out to have a length. -/
def closeArray (init : Init) (n : Int) : Parse Init := do
  match init.type.base? with
  | some base => blank (← arrayOf base n) false
  | none => throw .internal

------------
-- Strings
------------

/- The elements of a string as numbers; those of one byte have a sign. -/
def stringElements (size : Nat) (bs : Bytes) : List Int64 :=
  let word (bs : Bytes) : Nat := bs.foldr (fun b n => b.toNat + 256 * n) 0
  match size with
  | 1 => bs.map fun b => b.toInt8.toInt64
  | 2 | 4 =>
    (List.range (bs.length / size)).map fun i =>
      Int64.ofNat (word ((bs.drop (i * size)).take size))
  | _ => []

/- A string as the value of an array. -/
def stringInit (init : Init) : Parse Init := do
  let t ← tok
  match t.kind with
  | .str elem bytes =>
    let init ← if init.isOpen then closeArray init t.stringLength else pure init
    let n := min init.type.arrayLen t.stringLength
    let values := (stringElements elem.size bytes).take n.toNat
    advance
    return init.setExprs (values.map fun v => Operator.number v t)
  | _ => throw .internal

------------
-- Designators
------------

/- The elements that an array designator names: the first and the last. -/
def arrayDesignator (read : Reader) (type : CType) : Parse (Int × Int) := do
  expect "["
  let first := (← constExpr read).toInt
  if first < 0 || first ≥ type.arrayLen then fail (← tok) .designatorOutOfBounds
  let last ← if ← accept "..." then do
      let last := (← constExpr read).toInt
      if last ≥ type.arrayLen then fail (← tok) .designatorOutOfBounds
      if last < first then fail (← tok) (.designatorRangeEmpty first last)
      pure last
    else pure first
  expect "]"
  return (first, last)

/-
  The member that a designator names.  If the name belongs
  inside a member without a name, that member is meant and
  the designator stays to be read again.
-/
def memberDesignator (type : CType) : Parse Member := do
  let start ← cursor
  expect "."
  let t ← tok
  if !t.isIdent then fail t .expectedFieldDesignator
  match Operator.findMember? (← records) type t.text with
  | some m =>
    if m.name?.isSome then advance else rewind start
    return m
  | none => fail t .noSuchMemberInStruct

/- Read the same values into each element of a range. -/
def rangeInit (read : Reader) (init : Init) (first last : Int) : Parse Init := do
  let start ← cursor
  (List.range' first.toNat (last - first + 1).toNat).foldlM (fun init i => do
    rewind start
    return init.setChild i (← read (.designation (init.child i)))) init

------------
-- Arrays
------------

/- Move over a value that has no object to go to. -/
def skipExcess (read : Reader) : Parse Unit := do
  if ← accept "\x7b" then
    read .skipExcess
    expect "\x7d"
  else
    let _ ← read .assign

/-
  The number of elements that a braced list gives values to.
  The list is only looked at.
-/
def countElements (read : Reader) (base : CType) : Parse Int := do
  let start ← cursor
  let dummy ← blank base true
  let n ← iterate (true, dummy, (0 : Int64), (0 : Int64)) fun (first, dummy, i, most) => do
    if ← acceptListEnd then return .inr most
    if !first then expect ","
    if ← accept "[" then
      let i ← constExpr read
      let i ← if ← accept "..." then constExpr read else pure i
      expect "]"
      let dummy ← read (.designation dummy)
      return .inl (false, dummy, i + 1, max most (i + 1))
    else
      let dummy ← read (.initializer dummy)
      return .inl (false, dummy, i + 1, max most (i + 1))
  rewind start
  return n.toInt

/- Give an array of unknown length the length that the list here needs. -/
def settleLength (read : Reader) (init : Init) : Parse Init := do
  if init.isOpen then
    match init.type.base? with
    | some base => closeArray init (← countElements read base)
    | none => throw .internal
  else return init

/- A braced list for an array. -/
def arrayBraced (read : Reader) (init : Init) : Parse Init := do
  expect "\x7b"
  let init ← settleLength read init
  iterate (true, (0 : Int), init) fun (first, i, init) => do
    if ← acceptListEnd then return .inr init
    if !first then expect ","
    if ← check "[" then
      let (b, e) ← arrayDesignator read init.type
      return .inl (false, e + 1, ← rangeInit read init b e)
    else if i < init.type.arrayLen then
      let c ← read (.initializer (init.child i.toNat))
      return .inl (false, i + 1, init.setChild i.toNat c)
    else
      skipExcess read
      return .inl (false, i + 1, init)

/- Values for the elements of an array from a number on, without braces. -/
def arrayUnbraced (read : Reader) (init : Init) (i : Int) : Parse Init := do
  let init ← settleLength read init
  iterate (i, init) fun (i, init) => do
    if i ≥ init.type.arrayLen || (← atListEnd) then return .inr init
    let start ← cursor
    if i > 0 then expect ","
    if ← checkAny ["[", "."] then
      rewind start
      return .inr init
    let c ← read (.initializer (init.child i.toNat))
    return .inl (i + 1, init.setChild i.toNat c)

------------
-- Structures and unions
------------

/- The number of the first member from one on that takes a value. -/
def nextMember (ms : List Member) (i : Nat) : Nat :=
  i + ((ms.drop i).takeWhile Member.isPadding).length

/- A braced list for a structure. -/
def structBraced (read : Reader) (init : Init) : Parse Init := do
  expect "\x7b"
  let ms := init.type.members (← records)
  iterate (true, nextMember ms 0, init) fun (first, i, init) => do
    if ← acceptListEnd then return .inr init
    if !first then expect ","
    if ← check "." then
      let m ← memberDesignator init.type
      let c ← read (.designation (init.child m.index))
      return .inl (false, nextMember ms (m.index + 1), init.setChild m.index c)
    else if i < ms.length then
      let c ← read (.initializer (init.child i))
      return .inl (false, nextMember ms (i + 1), init.setChild i c)
    else
      skipExcess read
      return .inl (false, i, init)

/-
  Values for the members of a structure from a number on,
  without braces.  With `comma` a value has been read already.
-/
def structUnbraced (read : Reader) (init : Init) (i : Nat) (comma : Bool) : Parse Init := do
  let ms := init.type.members (← records)
  iterate (comma, nextMember ms i, init) fun (comma, i, init) => do
    if i ≥ ms.length || (← atListEnd) then return .inr init
    let start ← cursor
    if comma then expect ","
    if ← checkAny ["[", "."] then
      rewind start
      return .inr init
    let c ← read (.initializer (init.child i))
    return .inl (true, nextMember ms (i + 1), init.setChild i c)

/-
  A value for a union: for its first member, unless a
  designator names another one.
-/
def unionInit (read : Reader) (init : Init) : Parse Init := do
  match init.type.members (← records) with
  | [] => fail (← tok) .emptyUnionInitializer
  | m :: _ =>
    if (← check "\x7b") && (← peekIs ".") then
      advance
      let m ← memberDesignator init.type
      let c ← read (.designation (init.child m.index))
      let _ ← accept ","
      expect "\x7d"
      return (init.withMember m).setChild m.index c
    else
      let init := init.withMember m
      if ← accept "\x7b" then
        let c ← read (.initializer (init.child 0))
        let _ ← accept ","
        expect "\x7d"
        return init.setChild 0 c
      else
        let c ← read (.initializer (init.child 0))
        return init.setChild 0 c

------------
-- Initializers
------------

/- Values for a structure: a list, or one structure as a whole. -/
def structInit (read : Reader) (init : Init) : Parse Init := do
  if ← check "\x7b" then structBraced read init
  else
    let start ← cursor
    let e ← Typing.addType (← read .assign)
    if e.type.isStruct (← records) then return init.withExpr (some e)
    else
      rewind start
      structUnbraced read init 0 false

/- The value of a scalar, which may stand in braces. -/
def scalarInit (read : Reader) (init : Init) : Parse Init := do
  if ← accept "\x7b" then
    let init ← read (.initializer init)
    let _ ← accept ","
    expect "\x7d"
    return init
  else return init.withExpr (some (← read .assign))

/- The values of an object, put into its tree. -/
def initializer (read : Reader) (init : Init) : Parse Init := do
  let rs ← records
  if init.type.isArray then
    if (← tok).kind.isStr then stringInit init
    else if ← check "\x7b" then arrayBraced read init
    else arrayUnbraced read init 0
  else if init.type.isStruct rs then structInit read init
  else if init.type.isUnion rs then unionInit read init
  else scalarInit read init

/- Designators, and the values they lead to. -/
def designation (read : Reader) (init : Init) : Parse Init := do
  let rs ← records
  if ← check "[" then
    if !init.type.isArray then fail (← tok) .indexInNonArray
    let (b, e) ← arrayDesignator read init.type
    let init ← rangeInit read init b e
    arrayUnbraced read init (e + 1)
  else if ← check "." then
    if init.type.isStruct rs then
      let m ← memberDesignator init.type
      let c ← read (.designation (init.child m.index))
      structUnbraced read ((init.setChild m.index c).withExpr none) (m.index + 1) true
    else if init.type.isUnion rs then
      let m ← memberDesignator init.type
      let c ← read (.designation (init.child m.index))
      return (init.withMember m).setChild m.index c
    else fail (← tok) .fieldNotInStruct
  else
    let _ ← accept "="
    read (.initializer init)

/- A record with a type for its last member and as much more room. -/
def extended (rs : Records) (r : Record) (tail : CType) : Record :=
  let last := r.members.length - 1
  { r with
    members := r.members.map fun m => if m.index == last then { m with type := tail } else m
    size := r.size + tail.size rs }

/-
  The type of an object whose last member got its length from
  the initializer: a copy with room for the elements.
-/
def completeRecord (t : CType) (r : Record) (init : Init) : Parse CType := do
  let tail := (init.child (r.members.length - 1)).type
  let id ← addRecord (extended (← records) r tail)
  return if t.isAtomic then .atomic (.record id) else .record id

/- The values of an object of a type, whose tree carries the completed type. -/
def complete (read : Reader) (t : CType) : Parse Init := do
  let init ← read (.initializer (← blank t true))
  match t.record? (← records) with
  | some r =>
    if r.flexible then return init.withType (← completeRecord t r init) else return init
  | none => return init

end Initializer

end CCompiler
