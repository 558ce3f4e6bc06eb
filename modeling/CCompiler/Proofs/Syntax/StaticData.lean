import Mathlib
import CCompiler.Preprocess.Preprocessor
import CCompiler.Proofs.Syntax.LeafWrites
import CCompiler.Syntax.TranslationUnit

/-
  The data of variables of the unit.  Every leaf of an
  initializer is found in the data as it was given, and all
  bits outside of the leaves are zero.

  Main declarations:
    * `Leaf.read`, `Leaf.value`, `Leaf.truncated`
    * `InitialValue.Holds`, `InitialValue.globalInit_holds`
    * `InitialValue.globalInit_decodes`
-/

------------
-- Reading Back
------------

namespace CCompiler

variable {w : Int64}

namespace Leaf

variable {rs : Records} {l : Leaf} {data : Bytes}

/-
  The bits of a leaf as they stand in data: those of its unit,
  the lowest byte first, from the first bit of a bit-field on.
-/
def read (rs : Records) (l : Leaf) (data : Bytes) : Nat :=
  let unit := Bytes.toNum
    ((data.drop l.offset.toNat).take (l.type.size rs).toNat)
  match l.bits? with
  | none => unit
  | some b => unit / 2 ^ b.offset.toNat % 2 ^ b.width.toNat

/- The value of a leaf in data, by the sign of its type. -/
def value (rs : Records) (l : Leaf) (data : Bytes) : Int :=
  if l.type.isUnsigned then l.read rs data
  else (l.read rs data : Int).bmod (2 ^ (l.width rs).toNat)

/- A word reduced to the bits and the sign of a leaf. -/
def truncated (rs : Records) (l : Leaf) (w : Int64) : Int :=
  if l.type.isUnsigned then w.toInt % 2 ^ (l.width rs).toNat
  else w.toInt.bmod (2 ^ (l.width rs).toNat)

variable {stop : Int}

/- Bits that were put into a leaf are read from it. -/
theorem read_eq {n : Nat} (hStored : l.Stored rs 0 stop)
    (hBits : ∀ k, l.Covers rs k →
      Bytes.bit data k = n.testBit (k - l.first).toNat) :
    l.read rs data = n % 2 ^ (l.width rs).toNat := by
  apply Nat.eq_of_testBit_eq
  intro j
  rw [Nat.testBit_mod_two_pow]
  have hSize := (InitialValue.size_of_isScalar rs hStored.scalar).1
  unfold read width
  cases hField : l.bits? with
  | none =>
    have hStart := (hStored.unit (.inr (by
      simp only [width, hField, Option.map_none, Option.getD_none]
      omega))).1
    simp only [Option.map_none, Option.getD_none]
    rw [Bytes.testBit_toNum, Bytes.bit_part]
    by_cases hIn : j < 8 * (l.type.size rs).toNat
    · have hCovers : l.Covers rs (8 * l.offset.toNat + j) := by
        simp only [Covers, first, width, hField, Option.map_none, Option.getD_none]
        omega
      have hFirst : ((8 * l.offset.toNat + j : Nat) - l.first).toNat =
          j := by
        simp only [first, hField, Option.map_none, Option.getD_none]
        omega
      rw [hBits _ hCovers, hFirst]
      simp [hIn, show j < (8 * l.type.size rs).toNat by omega]
    · simp [hIn, show ¬ j < (8 * l.type.size rs).toNat by omega]
  | some b =>
    rcases hStored.field b hField with ⟨-, hLow, hWide, hHigh⟩
    simp only [Option.map_some, Option.getD_some]
    rw [Nat.testBit_mod_two_pow, Nat.testBit_div_two_pow, Bytes.testBit_toNum, Bytes.bit_part]
    by_cases hIn : j < b.width.toNat
    · have hStart := (hStored.unit (.inr (by
        simp only [width, hField, Option.map_some, Option.getD_some]
        omega))).1
      have hCovers : l.Covers rs (8 * l.offset.toNat + (b.offset.toNat + j)) := by
        simp only [Covers, first, width, hField, Option.map_some, Option.getD_some]
        omega
      have hFirst : ((8 * l.offset.toNat + (b.offset.toNat + j) : Nat) - l.first).toNat = j := by
        simp only [first, hField, Option.map_some, Option.getD_some]
        omega
      rw [Nat.add_comm j, hBits _ hCovers, hFirst]
      simp [hIn, show b.offset.toNat + j < 8 * (l.type.size rs).toNat by omega]
    · simp [hIn]

/- A leaf that is given a word is no wider than one. -/
theorem width_le {start : Int} {s : ParseState} (hStored : l.Stored rs start stop)
    (hWord : l.word? s = some w) : l.width rs ≤ 64 := by
  have hPlain : l.type.isFloating = false := by
    unfold word? at hWord
    split at hWord
    · cases hWord
    · rename_i hNot
      simpa using hNot
  have hSize := (InitialValue.size_of_isScalar rs hStored.scalar).2 hPlain
  unfold width
  cases hField : l.bits? with
  | none =>
    simp only [Option.map_none, Option.getD_none]
    omega
  | some b =>
    rcases hStored.field b hField with ⟨-, hLow, -, hHigh⟩
    simp only [Option.map_some, Option.getD_some]
    omega

/- A word is read back as far as the leaf is wide. -/
theorem value_eq (hWidth : l.width rs ≤ 64)
    (hRead : l.read rs data = w.toUInt64.toNat % 2 ^ (l.width rs).toNat) :
    l.value rs data = l.truncated rs w := by
  have hWord : (w.toUInt64.toNat : Int) = w.toInt % 2 ^ 64 := by
    have hSigned : w.toInt = (w.toUInt64.toNat : Int).bmod (2 ^ 64) :=
      BitVec.toInt_eq_toNat_bmod w.toBitVec
    have hLt := w.toUInt64.toNat_lt
    have hMod := Int.bmod_emod (x := w.toUInt64.toNat) (m := 2 ^ 64)
    rw [hSigned]
    norm_num at hMod hLt ⊢
    omega
  have hPart : (2 : Int) ^ (l.width rs).toNat ∣ 2 ^ 64 := pow_dvd_pow 2 (by omega)
  have hCast : (l.read rs data : Int) = w.toInt % 2 ^ (l.width rs).toNat := by
    rw [hRead]
    push_cast
    rw [hWord, Int.emod_emod_of_dvd _ hPart]
  unfold value truncated
  rw [hCast]
  split
  · rfl
  · have hNat : ((2 ^ (l.width rs).toNat : Nat) : Int) = 2 ^ (l.width rs).toNat := by push_cast; rfl
    rw [← hNat]
    exact Int.emod_bmod _ _

end Leaf

------------
-- Variables of the Unit
------------

/- A state in which an object has got another type. -/
def ParseState.retyped
    (s : ParseState)
    (v : ObjId)
    (t : CType) : ParseState :=
  { s with objects := s.objects.modify v ({ · with type := t }) }

theorem Objects.entry_modify {os : Objects} {v : ObjId} (f : Obj → Obj) (hObject : v < os.size) :
    Objects.entry (os.modify v f) v = f (os.entry v) := by
  simp only [Objects.entry, Array.getD_eq_getD_getElem?, Array.getElem?_modify, if_true]
  rw [Array.getElem?_eq_getElem hObject]
  rfl

namespace InitialValue

variable {read : Reader} {v : ObjId} {s s₁ : ParseState}
  {init : Init}

/- The data of a variable whose tree has been read. -/
theorem globalInit_run {image : Image} {s₂ : ParseState}
    (hRead : Initializer.complete read (s.objects.entry v).type s = .ok init s₁)
    (hObject : v < s₁.objects.size) (hSize : 0 ≤ init.type.size s₁.records)
    (hFill : fill s₁.records 0 init.type init
        (.zero (init.type.size s₁.records).toNat)
        (s₁.retyped v init.type) = .ok image s₂)
    (hKept : s₂.objects = (s₁.retyped v init.type).objects) :
    ∃ s₃, globalInit read v s = .ok () s₃ ∧ s₃.objects.entry v = { s₁.objects.entry v with
        type := init.type
        data? := some image.bytes.toList
        relocs := image.relocs.toList } := by
  have hRetype : Parse.modifyObject v
      ({ · with type := init.type }) s₁ = .ok () (s₁.retyped v init.type) := rfl
  have hRecords : Parse.records (s₁.retyped v init.type) =
      .ok s₁.records (s₁.retyped v init.type) := rfl
  refine ⟨{ s₂ with objects := s₂.objects.modify v ({ · with
    data? := some image.bytes.toList
    relocs := image.relocs.toList }) }, ?_, ?_⟩
  · unfold globalInit
    rw [Parse.run_bind (show Parse.object v s = .ok _ s from rfl),
      Parse.run_bind hRead, Parse.run_bind hRetype,
      Parse.run_bind hRecords, if_neg (by omega)]
    exact Parse.run_bind hFill
  · dsimp only
    rw [hKept, ParseState.retyped, Objects.entry_modify _ (by
      simpa using hObject), Objects.entry_modify _ hObject]

/-
  What the data of a variable holds: the contents of all of
  its leaves, and zeros elsewhere.
-/
structure Holds
    (rs : Records)
    (s : ParseState)
    (t : CType)
    (ls : List Leaf)
    (o : Obj)
    (data : Bytes) : Prop where
  type : o.type = t
  data? : o.data? = some data
  size : (data.length : Int) = t.size rs
  relocs : o.relocs = ls.filterMap fun l => (l.content? s).bind (·.reloc?)
  inside : ∀ l ∈ ls, ∀ c ∈ l.content? s,
    l.read rs data = c.bits % 2 ^ (l.width rs).toNat
  outside : ∀ k, (∀ l ∈ ls, ¬ l.Covers rs k) → Bytes.bit data k = false

variable {rs : Records}

/- A leaf that is given a word holds the low bits of it. -/
theorem Holds.read_word {t : CType} {ls : List Leaf} {o : Obj} {data : Bytes} {l : Leaf}
    (hHolds : Holds rs s t ls o data) (hMem : l ∈ ls) (hWord : l.word? s = some w) :
    l.read rs data = w.toUInt64.toNat % 2 ^ (l.width rs).toNat :=
  hHolds.inside l hMem _ (Leaf.content?_of_word? hWord)

/- The data of a variable holds what its tree gives to leaves that are apart. -/
theorem globalInit_holds
    (hRead : Initializer.complete read (s.objects.entry v).type s = .ok init s₁)
    (hObject : v < s₁.objects.size) (hFits : Fits s₁.records init.type init)
    (hSize : 0 ≤ init.type.size s₁.records)
    (hTiled : Tiled s₁.records 0 (init.type.size s₁.records)
      (leaves s₁.records 0 init.type init))
    (hContents : ∀ l ∈ leaves s₁.records 0 init.type init,
      (l.content? (s₁.retyped v init.type)).isSome) :
    ∃ s₂ data, globalInit read v s = .ok () s₂ ∧ Holds s₁.records (s₁.retyped v init.type) init.type
        (leaves s₁.records 0 init.type init)
        (s₂.objects.entry v) data := by
  have hBytes : ((Image.zero (init.type.size s₁.records).toNat).bytes.size :
      Int) = init.type.size s₁.records := by
    simp only [Image.zero, Array.size_replicate]
    omega
  rcases writes_contain (by rw [hBytes]; exact hTiled) hContents
    (fun l _ k _ => Image.bit_zero _ k) with
    ⟨image, more, hRun, hContains⟩
  have hFill : fill s₁.records 0 init.type init (.zero (init.type.size s₁.records).toNat)
      (s₁.retyped v init.type) = .ok image ((s₁.retyped v init.type).noting
          ((s₁.retyped v init.type).notices ++ more)) := by
    rw [hFits.byLeaves]
    exact hRun (s₁.retyped v init.type).notices
  rcases globalInit_run hRead hObject hSize hFill rfl with
    ⟨s₃, hEnd, hEntry⟩
  refine ⟨s₃, image.bytes.toList, hEnd, ?_, ?_, ?_, ?_, ?_, ?_⟩
  · rw [hEntry]
  · rw [hEntry]
  · rw [Array.length_toList, hContains.size]
    exact hBytes
  · rw [hEntry]
    exact hContains.relocs
  · intro l hl c hc
    exact Leaf.read_eq (hTiled.stored l hl) fun k hCovers => hContains.inside l hl c hc k hCovers
  · intro k hNone
    exact (hContains.outside k hNone).trans (Image.bit_zero _ k)

/-
  The data of a variable decodes to its initializer.  The tree
  that has been read fits the type, and its leaves are words
  or have no value: then the variable gets data of its size,
  each leaf has there the value that it was given, as far as
  it is wide, and every bit outside of the leaves is zero.
-/
theorem globalInit_decodes
    (hRead : Initializer.complete read (s.objects.entry v).type s = .ok init s₁)
    (hObject : v < s₁.objects.size) (hSettled : init.type.Settled s₁.records)
    (hFits : Fits s₁.records init.type init)
    (hWords : ∀ l ∈ leaves s₁.records 0 init.type init,
      (l.word? (s₁.retyped v init.type)).isSome) :
    ∃ s₂ data, globalInit read v s = .ok () s₂ ∧ (s₂.objects.entry v).type = init.type ∧
      (s₂.objects.entry v).data? = some data ∧
      (s₂.objects.entry v).relocs = [] ∧
      (data.length : Int) = init.type.size s₁.records ∧
      (∀ l ∈ leaves s₁.records 0 init.type init, ∀ w ∈ l.word? (s₁.retyped v init.type),
          l.value s₁.records data = l.truncated s₁.records w) ∧
      ∀ k, (∀ l ∈ leaves s₁.records 0 init.type init,
        ¬ l.Covers s₁.records k) → Bytes.bit data k = false := by
  have hContents : ∀ l ∈ leaves s₁.records 0 init.type init,
      ∃ w, l.word? (s₁.retyped v init.type) = some w ∧ l.content? (s₁.retyped v init.type) =
          some ⟨w.toUInt64.toNat, none⟩ := by
    intro l hl
    rcases Option.isSome_iff_exists.mp (hWords l hl) with ⟨w, hw⟩
    exact ⟨w, hw, Leaf.content?_of_word? hw⟩
  rcases hFits.tiled hSettled with ⟨hSize, hTiled⟩
  rcases globalInit_holds hRead hObject hFits hSize hTiled (by
    intro l hl
    rcases hContents l hl with ⟨w, -, hContent⟩
    simp [hContent]) with ⟨s₂, data, hRun, hHolds⟩
  refine ⟨s₂, data, hRun, hHolds.type, hHolds.data?, ?_, hHolds.size, ?_, hHolds.outside⟩
  · rw [hHolds.relocs, List.filterMap_eq_nil_iff]
    intro l hl
    rcases hContents l hl with ⟨w, -, hContent⟩
    simp [hContent]
  · intro l hl w hw
    exact Leaf.value_eq (Leaf.width_le (hTiled.stored l hl) hw) (hHolds.read_word hl hw)

/- A reader that takes every initializer for the same tree. -/
def givenTree (tree : Init) : Reader := fun p =>
  match p with
  | .initializer _ => pure tree
  | _ => throw .internal

/- A leaf that is given a number. -/
def numberLeaf (t : CType) (n : Int64) : Init :=
  .mk t false (some (.num ⟨default, some .int⟩ n)) #[] none

/- union { short c; long d; } -/
def pairUnion : Record :=
  { Record.unplaced 1
      [.unplaced .short 2, { Member.unplaced .long 8 with index := 1 }] with
    isUnion := true }

/- struct { char a; int b : 5; int : 0; union { ... } e; short f[]; } -/
def flexibleStruct : Record :=
  { Record.unplaced 1
      [.unplaced .char 1, { Member.unplaced .int 4 (some 5) with index := 1 },
        { Member.unplaced .int 4 (some 0) with index := 2 },
        { Member.unplaced (.record 0) 8 with index := 3 },
        { Member.unplaced (.array 0 .short 0 0 2) 2 with
          index := 4 }] with
    flexible := true }

def flexibleRecords : Records :=
  let u := pairUnion.laidOut #[]
  #[u, flexibleStruct.laidOut #[u]]

/- The initializer of such a structure: -1, 37, { 70000 }, { 7, 8 } -/
def flexibleTree : Init :=
  .mk (.record 1) false none
    #[numberLeaf .char (-1), numberLeaf .int 37, .empty .int false #[],
      .mk (.record 0) false none
        #[numberLeaf .short 70000, .empty .long false #[]]
        (some (.unplaced .short 2)), .mk (.array 1 .short 2 4 2) false none
        #[numberLeaf .short 7, .empty .short false #[]] none]
    none

def flexibleState : ParseState :=
  { toks := []
    records := flexibleRecords
    objects := #[{ name := [], type := .record 1, align := 8 }] }

/- The state with the type of the structure completed. -/
def completedState : ParseState :=
  { flexibleState with
    records := flexibleRecords.push
      (Initializer.extended flexibleRecords
        (flexibleRecords.entry 1) (.array 1 .short 2 4 2)) }

theorem complete_array (id : Nat) (n : Int) (hLength : 0 ≤ n) :
    (CType.array id .short n (2 * n) 2).Complete rs := .array rfl hLength (.scalar (.inl rfl))

theorem complete_pair : (CType.record 0).Complete completedState.records := by
  refine .record rfl ⟨pairUnion, rfl, .inr ⟨rfl, ⟨0, rfl⟩, ?_, ?_, by decide +kernel⟩⟩ ?_
  · simp only [pairUnion, Record.unplaced, List.forall_mem_cons]
    exact ⟨⟨1, rfl⟩, ⟨3, rfl⟩, by simp⟩
  · simp only [pairUnion, Record.unplaced, List.forall_mem_cons]
    exact ⟨rfl, rfl, by simp⟩
  · have hMembers : (completedState.records.entry 0).members =
        pairUnion.members := rfl
    rw [hMembers]
    simp only [pairUnion, Record.unplaced, List.forall_mem_cons]
    exact ⟨fun _ => .scalar (.inl rfl), fun _ => .scalar (.inl rfl), by simp⟩

/- The members of the structure with the places they get. -/
theorem members_flexible :
    (flexibleRecords.entry 1).members = [.unplaced .char 1, { Member.unplaced .int 4 (some 5) with
          index := 1, bits? := some ⟨8, 5⟩ },
        { Member.unplaced .int 4 (some 0) with index := 2 },
        { Member.unplaced (.record 0) 8 with
          index := 3, offset := 8 },
        { Member.unplaced (.array 0 .short 0 0 2) 2 with
          index := 4, offset := 16 }] :=
  rfl

theorem settled_flexible : (CType.record 2).Settled completedState.records := by
  have hDeclared : flexibleStruct.Declared
      completedState.records := by
    refine ⟨rfl, rfl, ⟨0, rfl⟩, ?_, by decide +kernel⟩
    simp only [flexibleStruct, Record.unplaced, List.forall_mem_cons]
    refine ⟨⟨⟨0, rfl⟩, ?_, ?_, ?_⟩, ⟨⟨2, rfl⟩, ?_, ?_, ?_⟩,
      ⟨⟨2, rfl⟩, ?_, ?_, ?_⟩, ⟨⟨3, rfl⟩, ?_, ?_, ?_⟩,
      ⟨⟨1, rfl⟩, ?_, ?_, ?_⟩, by simp⟩ <;> decide +kernel
  have hLaid : (flexibleRecords.entry 1).Laid
      completedState.records :=
    ⟨flexibleStruct, rfl, .inl hDeclared⟩
  have hSplit : (flexibleRecords.entry 1).members = (flexibleRecords.entry 1).members.dropLast ++
        [{ Member.unplaced (.array 0 .short 0 0 2) 2 with
          index := 4, offset := 16 }] := rfl
  refine .extended rfl hLaid hSplit (by decide +kernel) rfl ?_ (complete_array 1 2 (by decide))
  rw [members_flexible]
  simp only [List.forall_mem_cons]
  exact ⟨fun _ => .scalar (.inl rfl), by simp, by simp [Member.unplaced], fun _ => complete_pair,
    fun _ => complete_array 0 0 le_rfl, by simp⟩

theorem fits_flexible :
    Fits completedState.records (.record 2) (flexibleTree.withType (.record 2)) := by
  have hMembers : (completedState.records.entry 2).members =
      (flexibleRecords.entry 1).members.dropLast ++
        [{ Member.unplaced (.array 1 .short 2 4 2) 2 with
          index := 4, offset := 16 }] := rfl
  refine .struct rfl rfl rfl rfl ?_ ?_
  · rw [hMembers, members_flexible]
    simp only [flexibleTree, Init.withType, Init.children,
      List.dropLast, List.cons_append, List.nil_append,
      List.zip_cons_cons, List.zip_nil_left, List.forall_mem_cons]
    refine ⟨fun _ => .scalar (.inl rfl), by simp,
      by simp [Member.unplaced], fun _ => ?_, fun _ => ?_, by simp⟩
    · exact .union rfl rfl rfl List.mem_cons_self rfl (.scalar (.inl rfl))
    · refine .array rfl rfl ?_
      intro c hc
      exact .scalar (.inl rfl)
  · rw [hMembers, members_flexible]
    simp only [flexibleTree, Init.withType, Init.children,
      List.dropLast, List.cons_append, List.nil_append,
      List.zip_cons_cons, List.zip_nil_left, List.forall_mem_cons]
    exact ⟨by decide, by decide, fun _ => .inl rfl, by decide, by decide, by simp⟩

/- The structure with its five leaves that have values and three that have none. -/
theorem globalInit_decodes_flexible :
    ∃ s data, globalInit (givenTree flexibleTree) 0 flexibleState = .ok () s ∧
      (s.objects.entry 0).data? = some data ∧
      (leaves completedState.records 0 (.record 2) (flexibleTree.withType (.record 2))).map
          (·.value completedState.records data) =
        [-1, 5, 0, 4464, 7, 0] := by
  have hRead : Initializer.complete (givenTree flexibleTree)
      (flexibleState.objects.entry 0).type flexibleState =
        .ok (flexibleTree.withType (.record 2)) completedState := rfl
  have hWords : ∀ l ∈ leaves completedState.records 0 (.record 2)
      (flexibleTree.withType (.record 2)),
      (l.word? (completedState.retyped 0 (.record 2))).isSome := by
    decide +kernel
  rcases globalInit_decodes hRead (by decide) settled_flexible fits_flexible hWords with
    ⟨s, data, hRun, -, hData, -, -, hValues, -⟩
  refine ⟨s, data, hRun, hData, ?_⟩
  calc _ = (leaves completedState.records 0 (.record 2)
          (flexibleTree.withType (.record 2))).map fun l =>
            l.truncated completedState.records ((l.word? (completedState.retyped 0
                (.record 2))).getD 0) := by
        refine List.map_congr_left fun l hl => ?_
        rcases Option.isSome_iff_exists.mp (hWords l hl) with
          ⟨w, hw⟩
        rw [hw]
        exact hValues l hl w hw
    _ = [-1, 5, 0, 4464, 7, 0] := by decide +kernel

/- The unit of a text without macros and files. -/
def unitOf (text : String) : Except Failure Program :=
  match (Preprocessor.process (ascii "m.c") (some (ascii text)) []).run {} with
  | .ok ts _ => (TranslationUnit.parse {} ts).result
  | .error e _ => .error e

/- The data of the last object of a unit. -/
def lastData? (text : String) : Option Bytes :=
  match unitOf text with
  | .ok p => p.objects.back?.bind (·.data?)
  | .error _ => none

/- Whether a text leads to an access outside of the data. -/
def strays (text : String) : Bool :=
  match unitOf text with
  | .error .internal => true
  | _ => false

/-
  The values of a structure's last member are found in the
  data, but not those of a union's: its tree still names the
  member without a length.  A bit-field is read and written in
  units of its type, also where the structure is smaller.
-/
theorem flexible_union_stays_zero :
    lastData? "struct \x7b int a; char b[]; \x7d s = \x7b 0, \x7b 1, 2, 3 \x7d \x7d;" =
      some [0, 0, 0, 0, 1, 2, 3] ∧
    lastData? "union \x7b int a; char b[]; \x7d u = \x7b .b = \x7b 1, 2, 3 \x7d \x7d;" =
      some [0, 0, 0, 0, 0, 0, 0] ∧
    strays "struct \x7b int a : 0; \x7d s = \x7b 5 \x7d;" ∧
    strays "struct \x7b _Alignas(1) int a : 3; \x7d s = \x7b 1 \x7d;" := by decide +kernel

end InitialValue

end CCompiler
