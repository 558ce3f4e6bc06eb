import Mathlib
import CCompiler.Codegen.Data
import CCompiler.Preprocess.Preprocessor
import CCompiler.Proofs.Syntax.Liveness
import CCompiler.Proofs.Syntax.Relocations
import CCompiler.Proofs.Syntax.StaticData

/-
  The directives of an initialized variable.  They fill the
  variable to its end, put each of its addresses where it
  belongs, and leave every other byte as it is in the data.

  Main declarations:
    * `Codegen.placed`, `Codegen.Spells`
    * `Codegen.contents_spell`
    * `Codegen.initialized_data_spelled`
-/

------------
-- Directives in Their Places
------------

namespace CCompiler

namespace Codegen

open Assembly

/- The number of bytes that a directive of a variable fills. -/
def dataBytes : Directive → Nat
| .byte _ => 1
| .quad _ _ => 8
| _ => 0

/- Directives with the positions they fill bytes from. -/
def placed : Int → List Directive → List (Int × Directive)
| _, [] => []
| pos, d :: ds => (pos, d) :: placed (pos + dataBytes d) ds

/- Whether a directive is an address. -/
def isAddress : Directive → Bool
| .quad _ _ => true
| _ => false

/- The directive of an address. -/
def address (p : Program) (r : Relocation) : Directive :=
  .quad (p.targetSymbol r.target) r.addend

/-
  Directives spell data from a position on: they fill as many
  bytes as there are, each address stands where it belongs, in
  order, and each byte that is not covered by an address is
  that of the data.
-/
structure Spells
    (p : Program)
    (pos : Int)
    (relocs : List Relocation)
    (data : Bytes)
    (ds : List Directive) : Prop where
  only : ∀ d ∈ ds, dataBytes d ≠ 0
  total : (ds.map dataBytes).sum = data.length
  addresses : (placed pos ds).filter (fun d => isAddress d.2) =
    relocs.map fun r => (r.offset, address p r)
  bytes : ∀ (k : Nat) (b : UInt8), data[k]? = some b →
    (∃ r ∈ relocs, r.offset ≤ pos + k ∧ pos + k < r.offset + 8) ∨
      (pos + k, Directive.byte b) ∈ placed pos ds

variable {p : Program} {pos : Int} {relocs : List Relocation}
  {r : Relocation} {data : Bytes} {b : UInt8} {ds : List Directive}

theorem spells_nil : Spells p pos [] [] [] := ⟨by simp, rfl, rfl, by simp⟩

/- A byte first. -/
theorem Spells.byte (hSpells : Spells p (pos + 1) relocs data ds) (b : UInt8) :
    Spells p pos relocs (b :: data) (.byte b :: ds) := by
  have hPlaced : placed pos (.byte b :: ds) = (pos, .byte b) :: placed (pos + 1) ds := rfl
  refine ⟨List.forall_mem_cons.mpr ⟨Nat.succ_ne_zero _, hSpells.only⟩, ?_, ?_, fun k b' hGet => ?_⟩
  · rw [List.map_cons, List.sum_cons, hSpells.total, List.length_cons, Nat.add_comm]
    rfl
  · rw [hPlaced, List.filter_cons_of_neg Bool.false_ne_true, hSpells.addresses]
  · rw [hPlaced]
    cases k with
    | zero =>
      cases hGet
      exact .inr (by simp)
    | succ k =>
      have hPos : pos + ((k + 1 : Nat) : Int) = pos + 1 + k := by omega
      rw [hPos]
      exact (hSpells.bytes k b' hGet).imp_right (List.mem_cons_of_mem _)

/- An address first. -/
theorem Spells.address (hSpells : Spells p (pos + 8) relocs (data.drop 8) ds)
    (hRoom : 8 ≤ data.length) (hPlace : r.offset = pos) :
    Spells p pos (r :: relocs) data (address p r :: ds) := by
  have hPlaced : placed pos (Codegen.address p r :: ds) =
      (pos, Codegen.address p r) :: placed (pos + 8) ds := rfl
  refine ⟨List.forall_mem_cons.mpr ⟨Nat.succ_ne_zero _, hSpells.only⟩, ?_, ?_, fun k b hGet => ?_⟩
  · rw [List.map_cons, List.sum_cons, hSpells.total, List.length_drop]
    change 8 + (data.length - 8) = data.length
    omega
  · rw [hPlaced, List.filter_cons_of_pos rfl, hSpells.addresses, List.map_cons, hPlace]
  · rw [hPlaced]
    by_cases hCovered : k < 8
    · exact .inl ⟨r, by simp, by omega, by omega⟩
    · have hRest : (data.drop 8)[k - 8]? = some b := by
        rw [List.getElem?_drop, ← hGet]
        congr 1
        omega
      have hPos : pos + 8 + ((k - 8 : Nat) : Int) = pos + k := by omega
      rw [← hPos]
      rcases hSpells.bytes (k - 8) b hRest with ⟨r', hr', hIn⟩ | hByte
      · exact .inl ⟨r', List.mem_cons_of_mem _ hr', hIn⟩
      · exact .inr (List.mem_cons_of_mem _ hByte)

/- What an address covers is passed over. -/
theorem contents_skip (pos : Int) (skip : Nat) (relocs : List Relocation) (data : Bytes) :
    contents p pos skip relocs data = contents p (pos + skip) 0 relocs (data.drop skip) := by
  induction skip generalizing pos data with
  | zero => simp
  | succ skip ih =>
    cases data with
    | nil => simp [contents]
    | cons b data =>
      have hPos : pos + ((skip + 1 : Nat) : Int) = pos + 1 + skip := by omega
      rw [contents, ih, List.drop_succ_cons, hPos]

/- Addresses with slots of their own are written where they belong. -/
theorem contents_spell (hSlots : Obj.Slots pos (pos + data.length) relocs) :
    Spells p pos relocs data (contents p pos 0 relocs data) := by
  induction hLength : data.length using Nat.strong_induction_on generalizing pos relocs data with
  | _ n ih =>
    cases data with
    | nil =>
      cases relocs with
      | nil => exact spells_nil
      | cons r relocs =>
        obtain ⟨hLow, hHigh⟩ := hSlots.inside r (by simp)
        rw [List.length_nil] at hHigh
        omega
    | cons b data =>
      rw [List.length_cons] at hLength hSlots
      have hEnd : pos + ((data.length + 1 : Nat) : Int) = pos + 1 + data.length := by omega
      cases relocs with
      | nil =>
        have hNone : Obj.Slots (pos + 1) (pos + 1 + data.length) [] := ⟨by simp, List.Pairwise.nil⟩
        exact (ih data.length (by omega) hNone rfl).byte b
      | cons r relocs =>
        obtain ⟨hAfter, hOrdered⟩ := List.pairwise_cons.mp hSlots.ordered
        obtain ⟨hLow, hHigh⟩ := hSlots.inside r (by simp)
        unfold contents
        by_cases hHere : r.offset = pos
        · rw [if_pos hHere, contents_skip]
          have hRest : data.drop 7 = (b :: data).drop 8 := rfl
          have hPos : pos + 1 + ((7 : Nat) : Int) = pos + 8 := by omega
          rw [hRest, hPos]
          refine Spells.address (ih (data.length - 7) (by omega)
            ⟨fun r' hr' => ?_, hOrdered⟩ ?_) (by
              rw [List.length_cons]
              omega) hHere
          · have hBehind := hAfter r' hr'
            have hStop := (hSlots.inside r' (by simp [hr'])).2
            rw [List.length_drop, List.length_cons]
            omega
          · rw [List.length_drop, List.length_cons]
            omega
        · rw [if_neg hHere]
          refine (ih data.length (by omega) ⟨fun r' hr' => ?_, hSlots.ordered⟩ rfl).byte b
          obtain ⟨hStart, hStop⟩ := hSlots.inside r' hr'
          rcases List.mem_cons.mp hr' with rfl | hr'
          · omega
          · have hBehind := hAfter r' hr'
            omega

------------
-- Variables of Units
------------

/-
  The text of a variable spells its data: behind the label
  stand directives that fill as many bytes as the variable
  has, with its addresses and the bytes of its data.
-/
def SpelledOut
    (p : Program)
    (common : Bool)
    (o : Obj)
    (data : Bytes) : Prop :=
  ∃ head ds, globalVariable p common o =
      head ++ [.label (.named o.symbol)] ++ ds.map .directive ∧
    (ds.map dataBytes).sum = (o.type.size p.records).toNat ∧
    Spells p 0 o.relocs (data.take (o.type.size p.records).toNat) ds

variable {o : Obj}

/- A variable whose addresses have slots inside of it is spelled out. -/
theorem spelledOut_of_slots (common : Bool) (hTentative : o.isTentative = false)
    (hData : o.data? = some data) (hLength : o.type.size p.records ≤ data.length)
    (hSlots : Obj.Slots 0 (o.type.size p.records).toNat o.relocs) : SpelledOut p common o data := by
  have hTake : (data.take (o.type.size p.records).toNat).length =
      (o.type.size p.records).toNat := by
    rw [List.length_take]
    omega
  have hAll : Spells p 0 o.relocs (data.take (o.type.size p.records).toNat) _ :=
    contents_spell (by
      rw [hTake, zero_add]
      exact hSlots)
  refine ⟨[linkage o, .enter (sectionOf o true), .type o.symbol .object,
    .size o.symbol (o.type.size p.records),
    .align (varAlign p.records o)].map .directive, _, ?_,
    hAll.total.trans hTake, hAll⟩
  unfold globalVariable
  simp only [hTentative, hData, Bool.and_false, Bool.false_and, Bool.false_eq_true, if_false]

open TranslationUnit in
/-
  The text of every initialized variable of a unit that parses
  spells its data.  The data of a variable were filled in from
  the tree of its initializer, unless it is a string, which is
  spelled out as it is.  For all others let the parts of the
  variable have room, let no address stand in a scalar with
  less than eight bytes, and let the size of the type be what
  it was when the initializer was read: then the directives
  fill the variable exactly, every address is at its offset,
  in order, and all other bytes are those of the data.
-/
theorem initialized_data_spelled {cfg : Config} {ts : List Token} {v : ObjId}
    (hParse : (parse cfg ts).result = .ok p) (hData : (p.objects.entry v).data? = some data)
    (common : Bool) :
    ((∃ rs tree, (p.objects.entry v).FilledFrom rs tree) ∨
      SpelledOut p common (p.objects.entry v) data) ∧
    ∀ rs tree, (p.objects.entry v).FilledFrom rs tree →
      InitialValue.Spaced rs (p.objects.entry v).type tree →
      (p.objects.entry v).WideTargets rs tree →
      (p.objects.entry v).type.size p.records = (p.objects.entry v).type.size rs →
      SpelledOut p common (p.objects.entry v) data := by
  obtain ⟨t, s, -, rfl, hSound, -⟩ := objects_of_parse hParse
  have hFine : ((finish s).objects.entry v).Fine := by
    rw [entry_finish s v]
    exact (hSound.fine v).touched (g := fun o => { o with
      isLive := ((finish s).objects.entry v).isLive })
      ⟨fun _ => rfl, fun _ => rfl, fun _ => rfl, fun _ => rfl, fun _ => rfl⟩ (.inr ⟨rfl, rfl⟩)
  have hTentative : ((finish s).objects.entry v).isTentative = false := by
    by_contra hNot
    rw [hFine.tentative (by simpa using hNot)] at hData
    cases hData
  constructor
  · cases hFine.written data hData with
    | filled hFilled => exact .inl ⟨_, _, hFilled⟩
    | text hSpelt hRelocs =>
      refine .inr (spelledOut_of_slots common hTentative hData (hSpelt _) ?_)
      rw [hRelocs]
      exact ⟨by simp, List.Pairwise.nil⟩
  · intro rs tree hFilled hSpaced hWide hSame
    have hLength := hFilled.length hSpaced hData
    refine spelledOut_of_slots common hTentative hData (by omega) ?_
    have hSize : ((((finish s).objects.entry v).type.size (finish s).records).toNat : Int) =
          ((finish s).objects.entry v).type.size rs := by omega
    rw [hSize]
    exact hFilled.slots hSpaced hWide

variable {text : String}

/- The tokens of a text that is a unit. -/
theorem exists_of_unitOf (hUnit : InitialValue.unitOf text = .ok p) :
    ∃ ts, (TranslationUnit.parse {} ts).result = .ok p := by
  unfold InitialValue.unitOf at hUnit
  split at hUnit
  · rename_i ts _ _
    exact ⟨ts, hUnit⟩
  · cases hUnit

/- long [3] -/
def threeLongs : CType :=
  .array 1 .long 3 24 8

/- { 1, &y, 2 }, where y is the second object -/
def threeWords : Init :=
  .mk threeLongs false none
    #[InitialValue.numberLeaf .long 1, .mk .long false
        (some (.unary ⟨default, none⟩ .addressOf (.var ⟨default, none⟩ 1)))
        #[] none, InitialValue.numberLeaf .long 2]
    none

def threeWordsData : Bytes :=
  [1, 0, 0, 0, 0, 0, 0, 0] ++ [0, 0, 0, 0, 0, 0, 0, 0] ++
    [2, 0, 0, 0, 0, 0, 0, 0]

/- Whether the third object of a unit are three words like that. -/
def holdsThreeWords (p : Program) : Bool :=
  let o := p.objects.entry 2
  (match o.type with
    | .array 1 (.integer .long false) 3 24 8 => true
    | _ => false) &&
    o.data? == some threeWordsData && o.relocs == [⟨8, .object 1, 0⟩]

theorem holdsThreeWords_spec (hHolds : holdsThreeWords p = true) :
    (p.objects.entry 2).type = threeLongs ∧ (p.objects.entry 2).data? = some threeWordsData ∧
      (p.objects.entry 2).relocs = [⟨8, .object 1, 0⟩] := by
  simp only [holdsThreeWords, Bool.and_eq_true, beq_iff_eq] at hHolds
  obtain ⟨⟨hType, hData⟩, hRelocs⟩ := hHolds
  refine ⟨?_, hData, hRelocs⟩
  split at hType
  · assumption
  · cases hType

/- Whether a text is a unit whose third object is like that. -/
def spellsThreeWords (text : String) : Bool :=
  match InitialValue.unitOf text with
  | .ok p => holdsThreeWords p
  | .error _ => false

theorem exists_of_spellsThreeWords (hSpells : spellsThreeWords text = true) :
    ∃ p, InitialValue.unitOf text = .ok p ∧ holdsThreeWords p = true := by
  unfold spellsThreeWords at hSpells
  split at hSpells
  · exact ⟨_, ‹_›, hSpells⟩
  · cases hSpells

/- Whether three words fill the data like that. -/
def fillsThreeWords : Bool :=
  match InitialValue.fill #[] 0 threeLongs threeWords (.zero 24)
      { toks := [] } with
  | .ok i _ => decide (i.bytes.toList = threeWordsData ∧
      i.relocs.toList = [⟨8, .object 1, 0⟩])
  | .error _ _ => false

theorem exists_of_fillsThreeWords (hFills : fillsThreeWords = true) :
    ∃ i s, InitialValue.fill #[] 0 threeLongs threeWords (.zero 24)
        { toks := [] } = .ok i s ∧ i.bytes.toList = threeWordsData ∧
      i.relocs.toList = [⟨8, .object 1, 0⟩] := by
  unfold fillsThreeWords at hFills
  split at hFills
  · exact ⟨_, _, ‹_›, of_decide_eq_true hFills⟩
  · cases hFills

/- Two words and an address between them. -/
theorem initialized_data_spelled_words :
    ∃ p, InitialValue.unitOf "int y; long a[3] = \x7b 1, (long)&y, 2 \x7d;" = .ok p ∧
      (p.objects.entry 2).data? = some threeWordsData ∧
      (p.objects.entry 2).relocs = [⟨8, .object 1, 0⟩] ∧
      SpelledOut p false (p.objects.entry 2) threeWordsData := by
  have hCheck : spellsThreeWords "int y; long a[3] = \x7b 1, (long)&y, 2 \x7d;" = true := by
    decide +kernel
  have hFills : fillsThreeWords = true := by decide +kernel
  obtain ⟨p, hUnit, hHolds⟩ := exists_of_spellsThreeWords hCheck
  obtain ⟨i, s, hRun, hBytes, hPlaces⟩ := exists_of_fillsThreeWords hFills
  obtain ⟨hType, hData, hRelocs⟩ := holdsThreeWords_spec hHolds
  obtain ⟨ts, hParse⟩ := exists_of_unitOf hUnit
  have hFilled : (p.objects.entry 2).FilledFrom #[] threeWords := by
    unfold Obj.FilledFrom
    rw [hType, hData, hRelocs]
    exact ⟨by decide, _, i, s, hRun, congrArg some hBytes.symm, hPlaces.symm⟩
  refine ⟨p, hUnit, hData, hRelocs, (initialized_data_spelled hParse hData false).2 #[] threeWords
      hFilled ?_ ?_ ?_⟩
  · rw [hType]
    refine .array rfl (by decide) fun c _ => .scalar rfl rfl
  · have hWords : ∀ l ∈ InitialValue.leaves #[] 0 threeLongs threeWords,
        8 ≤ l.type.size #[] := by decide +kernel
    intro l hl _ _ _
    rw [hType] at hl
    exact hWords l hl
  · rw [hType]
    rfl

/-
  What the text of the last variable of a unit fills, and the
  addresses there; its size, and its addresses.
-/
def lastSpelled? (text : String) : Option (Nat × Nat × Int × Nat) :=
  match InitialValue.unitOf text with
  | .error _ => none
  | .ok p => p.objects.back?.bind fun o => o.data?.map fun data =>
    let size := o.type.size p.records
    let ds := contents p 0 0 o.relocs (data.take size.toNat)
    ((ds.map dataBytes).sum, (ds.filter isAddress).length, size,
      o.relocs.length)

/-
  An address is spelled with eight bytes also in a variable of
  four or of one, and it covers the next member with that
  one's address.
-/
theorem narrow_addresses_overrun :
    lastSpelled? "int y; int x = (int)&y;" = some (8, 1, 4, 1) ∧
    lastSpelled? "int y; char c = (char)&y;" = some (8, 1, 1, 1) ∧
    lastSpelled? "int y; _Bool b = &y;" = some (8, 1, 1, 1) ∧
    lastSpelled? "int y; struct \x7b int a; int b; \x7d s = \x7b (int)&y, (int)&y \x7d;" =
      some (8, 1, 8, 2) := by decide +kernel

end Codegen

end CCompiler
