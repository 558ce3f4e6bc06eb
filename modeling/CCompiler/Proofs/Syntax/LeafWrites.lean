import Mathlib
import CCompiler.Proofs.Syntax.ImageBits
import CCompiler.Proofs.Syntax.Leaves
import CCompiler.Proofs.Syntax.Notes

/-
  Writing the leaves of an initializer.  A leaf with a constant
  value changes its own bits and no others, so leaves that are
  apart all keep what they were given.

  Main declarations:
    * `Leaf.content?`, `Leaf.word?`
    * `Leaf.Gains`, `Leaf.write_gains`
    * `Contains`, `InitialValue.writes_contain`
-/

------------
-- What a Leaf Is Given
------------

namespace CCompiler

/- The value of a step of reading, if it succeeds. -/
def Parse.value? {α : Type} (p : Parse α) (s : ParseState) :
    Option α :=
  match p s with
  | .ok a _ => some a
  | .error _ _ => none

/- The same state with other notices. -/
def ParseState.noting (s : ParseState) (n : Bytes) : ParseState :=
  { s with notices := n }

variable {α : Type}

variable {p : Parse α} {a : α}

/- A step that only adds notices has one value with all of them. -/
theorem Parse.Notes.of_value? {s : ParseState} (hNotes : p.Notes) (hValue : p.value? s = some a) :
    ∃ more, ∀ n, p (s.noting n) = .ok a (s.noting (n ++ more)) := by
  unfold Parse.value? at hValue
  split at hValue
  · rename_i hRun
    cases hValue
    exact hNotes.of_ok hRun
  · cases hValue

/-
  What a leaf puts into the data: its bits as a number, and
  the address that is noted for it.
-/
structure Content where
  bits : Nat
  reloc? : Option Relocation := none
deriving Inhabited

namespace Leaf

/- The content of a leaf in a state, if it is constant. -/
def content? (s : ParseState) (l : Leaf) : Option Content :=
  match l.expr?, l.bits? with
  | none, _ => some ⟨0, none⟩
  | some e, some _ =>
    ((Constant.evalInt e).value? s).map (⟨·.toUInt64.toNat, none⟩)
  | some e, none =>
    match l.type.plain with
    | .floating .float =>
      ((Constant.evalDouble e).value? s).map
        (⟨·.toSingleBits.toNat, none⟩)
    | .floating .double =>
      ((Constant.evalDouble e).value? s).map (⟨·.bits.toNat, none⟩)
    | .floating .ldouble =>
      ((Constant.evalDouble e).value? s).map fun d =>
        ⟨Bytes.toNum (Extended80.ofDouble d).toBytes, none⟩
    | _ =>
      ((Constant.evalAddress e).value? s).map fun p =>
        match p.2 with
        | some symbol => ⟨0, some ⟨l.offset, symbol, p.1⟩⟩
        | none => ⟨p.1.toUInt64.toNat, none⟩

/-
  The word that a leaf is given, if it is a constant without
  a symbol; no value stands for zero.
-/
def word? (s : ParseState) (l : Leaf) : Option Int64 :=
  if l.type.isFloating then none
  else
    match l.expr?, l.bits? with
    | none, _ => some 0
    | some e, some _ => (Constant.evalInt e).value? s
    | some e, none =>
      match (Constant.evalAddress e).value? s with
      | some (v, none) => some v
      | _ => none

theorem content?_of_word? {s : ParseState} {l : Leaf} {w : Int64} (hWord : l.word? s = some w) :
    l.content? s = some ⟨w.toUInt64.toNat, none⟩ := by
  unfold word? at hWord
  split at hWord
  · cases hWord
  · rename_i hPlain
    unfold content?
    cases hExpr : l.expr? with
    | none =>
      rw [hExpr] at hWord
      cases hWord
      rfl
    | some e =>
      rw [hExpr] at hWord
      cases hBits : l.bits? with
      | some b =>
        rw [hBits] at hWord
        simp only [hWord, Option.map_some]
      | none =>
        rw [hBits] at hWord
        simp only at hWord
        split at hWord
        · rename_i hValue
          cases hWord
          unfold CType.isFloating at hPlain
          simp only [hValue, Option.map_some]
          split <;> simp_all
        · cases hWord

end Leaf

------------
-- Writing One Leaf
------------

/- What the data gains by a leaf. -/
structure Leaf.Gains
    (rs : Records)
    (l : Leaf)
    (c : Content)
    (i i' : Image) : Prop where
  size : i'.bytes.size = i.bytes.size
  relocs : i'.relocs.toList = i.relocs.toList ++ c.reloc?.toList
  bit : ∀ k, i'.bit k =
    if l.Covers rs k then c.bits.testBit (k - l.first).toNat
    else i.bit k

/- A leaf that is written, whatever notices there are. -/
def Leaf.Writes
    (rs : Records)
    (s : ParseState)
    (i : Image)
    (l : Leaf)
    (c : Content) : Prop :=
  ∃ i' more, (∀ n, l.write rs i (s.noting n) =
    .ok i' (s.noting (n ++ more))) ∧ l.Gains rs c i i'

namespace Image

/- Bytes that cover a leaf, or its start with zeros behind them. -/
theorem gains_bytes {rs : Records} {l : Leaf} {i i' : Image} {bs : Bytes} {start : Nat}
    (hOffset : l.offset = start) (hBits : l.bits? = none)
    (hLength : (bs.length : Int) ≤ l.type.size rs) (hClear : ∀ k, l.Covers rs k → i.bit k = false)
    (hWrites : Image.Writes i start bs i') : l.Gains rs ⟨Bytes.toNum bs, none⟩ i i' := by
  have hCovers : ∀ k, l.Covers rs k ↔ 8 * start ≤ k ∧ (k : Int) < 8 * (start + l.type.size rs) := by
    intro k
    simp only [Leaf.Covers, Leaf.first, Leaf.width, hBits, hOffset,
      Option.map_none, Option.getD_none]
    omega
  have hFirst : l.first = 8 * start := by simp [Leaf.first, hBits, hOffset]
  refine ⟨hWrites.size, by simp [hWrites.relocs], fun k => ?_⟩
  rw [hWrites.bit, Bytes.testBit_toNum, hFirst]
  have hPlace : ((k : Int) - 8 * (start : Int)).toNat = k - 8 * start := by omega
  rw [hPlace]
  by_cases hIn : 8 * start ≤ k ∧ k < 8 * (start + bs.length)
  · rw [if_pos hIn, if_pos ((hCovers k).mpr (by omega))]
  · rw [if_neg hIn]
    by_cases hLeaf : l.Covers rs k
    · rw [if_pos hLeaf, hClear k hLeaf]
      have hBehind := (hCovers k).mp hLeaf
      exact (Bytes.bit_of_length_le (by omega)).symm
    · rw [if_neg hLeaf]

end Image

namespace Leaf

variable {rs : Records} {l : Leaf} {c c' : Content} {i i' : Image}

/- Only the bits inside of a leaf count. -/
theorem Gains.congr (hGains : l.Gains rs c i i') (hReloc : c.reloc? = c'.reloc?)
    (hBits : ∀ j : Nat, (j : Int) < l.width rs →
      c.bits.testBit j = c'.bits.testBit j) : l.Gains rs c' i i' := by
  refine ⟨hGains.size, hReloc ▸ hGains.relocs, fun k => ?_⟩
  rw [hGains.bit]
  by_cases hCovers : l.Covers rs k
  · rw [if_pos hCovers, if_pos hCovers]
    apply hBits
    rcases hCovers with ⟨hLow, hHigh⟩
    omega
  · rw [if_neg hCovers, if_neg hCovers]

variable {size : Nat}

/- A word that is written over the whole of a leaf. -/
theorem exists_word (v : UInt64) (hBits : l.bits? = none) (hSize : l.type.size rs = size)
    (hSmall : size ≤ 8) (hStart : 0 ≤ l.offset) (hStop : l.offset + l.type.size rs ≤ i.bytes.size)
    (hClear : ∀ k, l.Covers rs k → i.bit k = false) :
    ∃ i', i.writeWord? l.offset size v = some i' ∧ l.Gains rs ⟨v.toNat, none⟩ i i' := by
  rcases Int.eq_ofNat_of_zero_le hStart with ⟨start, hOffset⟩
  have hLength := Image.length_wordBytes size v
  have hRoom : start + (Image.wordBytes size v).length ≤
      i.bytes.size := by omega
  rcases Image.exists_writes hRoom with ⟨i', hEq, hWrites⟩
  refine ⟨i', by rw [hOffset]; exact hEq, ?_⟩
  refine (Image.gains_bytes hOffset hBits (by omega) hClear hWrites).congr rfl fun j hj => ?_
  rw [width, hBits, Option.map_none, Option.getD_none, hSize] at hj
  rw [Bytes.testBit_toNum]
  exact Image.bit_wordBytes v j hSmall (by omega)

variable {b : BitField}

/- The bits of a bit-field that are added to its unit. -/
theorem exists_field (v : UInt64) (hBits : l.bits? = some b) (hSize : l.type.size rs = size)
    (hSmall : size ≤ 8)
    (hField : 0 ≤ b.offset ∧ 0 ≤ b.width ∧
      b.offset + b.width ≤ 8 * l.type.size rs) (hStart : 0 ≤ l.offset)
    (hStop : l.offset + l.type.size rs ≤ i.bytes.size)
    (hClear : ∀ k, l.Covers rs k → i.bit k = false) :
    ∃ u i', i.readWord? l.offset size = some u ∧
      i.writeWord? l.offset size (Image.addBits u b v) = some i' ∧
      l.Gains rs ⟨v.toNat, none⟩ i i' := by
  rcases Int.eq_ofNat_of_zero_le hStart with ⟨start, hOffset⟩
  rcases hField with ⟨hLow, hWide, hHigh⟩
  have hUnits : start + size ≤ i.bytes.size := by omega
  rcases Image.exists_readWord hUnits hSmall with ⟨u, hRead, hUnit⟩
  have hLength := Image.length_wordBytes size (Image.addBits u b v)
  have hRoom : start + (Image.wordBytes size (Image.addBits u b v)).length ≤
        i.bytes.size := by omega
  rcases Image.exists_writes hRoom with ⟨i', hEq, hWrites⟩
  refine ⟨u, i', by rw [hOffset]; exact hRead, by rw [hOffset]; exact hEq, hWrites.size,
    by simp [hWrites.relocs], fun k => ?_⟩
  have hCovers : l.Covers rs k ↔ 8 * start + b.offset ≤ k ∧
        (k : Int) < 8 * start + b.offset + b.width := by
    simp only [Covers, first, width, hBits, hOffset, Option.map_some, Option.getD_some]
  have hFirst : l.first = 8 * start + b.offset := by simp [first, hBits, hOffset]
  rw [hWrites.bit, hLength, hFirst]
  by_cases hIn : 8 * start ≤ k ∧ k < 8 * (start + size)
  · rw [if_pos hIn, Image.bit_wordBytes _ _ hSmall (by omega),
      Image.testBit_addBits _ _ _ hLow (by omega), hUnit,
      Nat.add_sub_cancel' hIn.1]
    have hInside : k - 8 * start < 8 * size := by omega
    by_cases hLeaf : l.Covers rs k
    · have hPlace := hCovers.mp hLeaf
      rw [if_pos hLeaf, hClear k hLeaf]
      have hBit : k - 8 * start - b.offset.toNat =
          ((k : Int) - (8 * start + b.offset)).toNat := by omega
      rw [← hBit]
      simp [show b.offset.toNat ≤ k - 8 * start by omega,
        show k - 8 * start - b.offset.toNat < b.width.toNat by
          omega]
    · rw [if_neg hLeaf]
      by_cases hBelow : b.offset.toNat ≤ k - 8 * start
      · have hAbove : ¬ k - 8 * start - b.offset.toNat <
            b.width.toNat := by
          intro hLt
          exact hLeaf (hCovers.mpr (by omega))
        simp [hInside, hAbove]
      · simp [hInside, hBelow]
  · rw [if_neg hIn, if_neg fun hLeaf => hIn (by
      have hPlace := hCovers.mp hLeaf
      omega)]

variable {s : ParseState}

/- A leaf whose value is found first and then put into the data. -/
theorem writes_of_value {f : α → Parse Image} (hWrite : l.write rs i = p >>= f) (hNotes : p.Notes)
    (hValue : p.value? s = some a) (hNext : f a = pure i') (hGains : l.Gains rs c i i') :
    l.Writes rs s i c := by
  rcases hNotes.of_value? hValue with ⟨more, hRun⟩
  refine ⟨i', more, fun n => ?_, hGains⟩
  rw [hWrite, Parse.run_bind (hRun n), hNext]
  rfl

variable {e : Expr}

/- A bit-field with a value. -/
theorem writes_field (hStored : l.Stored rs 0 i.bytes.size) (hContent : l.content? s = some c)
    (hClear : ∀ k, l.Covers rs k → i.bit k = false) (hExpr : l.expr? = some e)
    (hBits : l.bits? = some b) : l.Writes rs s i c := by
  rcases hStored.unit (.inl (by simp [hExpr])) with ⟨hStart, hStop⟩
  rcases hStored.field b hBits with ⟨hInt, hField⟩
  rcases CType.size_of_isInteger rs hInt with ⟨-, k, hk, hSize⟩
  have hWord : 0 < l.type.size rs ∧ l.type.size rs ≤ 8 := by
    rw [hSize]
    interval_cases k <;> decide
  simp only [content?, hExpr, hBits] at hContent
  rcases Option.map_eq_some_iff.mp hContent with ⟨v, hValue, rfl⟩
  rcases exists_field v.toUInt64 hBits
    (Int.toNat_of_nonneg hWord.1.le).symm (by omega) hField hStart
    hStop hClear with ⟨u, i', hRead, hEq, hGains⟩
  have hWrite : l.write rs i = Constant.evalInt e >>= fun v =>
        InitialValue.accessed (i.writeWord? l.offset (l.type.size rs).toNat
          (Image.addBits u b v.toUInt64)) := by
    simp only [write, hExpr, hBits, hRead]
    rfl
  exact writes_of_value hWrite (Constant.notes_evalInt e) hValue
    (congrArg InitialValue.accessed hEq) hGains

variable {t : CType}

theorem plain_ne_floating (hPlain : t.isFloating = false) (kind : FloatKind) :
    t.plain ≠ .floating kind := by
  intro hType
  rw [CType.isFloating, hType] at hPlain
  cases hPlain

theorem fillScalar_of_word (e : Expr) (offset : Int) (hPlain : t.isFloating = false) :
    InitialValue.fillScalar rs t e offset i = (do
      let (v, symbol?) ← Constant.evalAddress e
      match symbol? with
      | some s => return i.addReloc ⟨offset, s, v⟩
      | none =>
        InitialValue.accessed (i.writeWord? offset (t.size rs).toNat v.toUInt64)) := by
  unfold InitialValue.fillScalar
  split
  · exact absurd (by assumption) (plain_ne_floating hPlain _)
  · exact absurd (by assumption) (plain_ne_floating hPlain _)
  · exact absurd (by assumption) (plain_ne_floating hPlain _)
  · rfl

theorem content?_of_word (hExpr : l.expr? = some e) (hBits : l.bits? = none)
    (hPlain : l.type.isFloating = false) :
    l.content? s = ((Constant.evalAddress e).value? s).map fun p =>
        match p.2 with
        | some symbol => ⟨0, some ⟨l.offset, symbol, p.1⟩⟩
        | none => ⟨p.1.toUInt64.toNat, none⟩ := by
  simp only [content?, hExpr, hBits]
  split
  · exact absurd (by assumption) (plain_ne_floating hPlain _)
  · exact absurd (by assumption) (plain_ne_floating hPlain _)
  · exact absurd (by assumption) (plain_ne_floating hPlain _)
  · rfl

/- An address is only noted; the data keeps its zeros. -/
theorem gains_reloc (r : Relocation) (hClear : ∀ k, l.Covers rs k → i.bit k = false) :
    l.Gains rs ⟨0, some r⟩ i (i.addReloc r) := by
  refine ⟨rfl, by simp [Image.addReloc], fun k => ?_⟩
  rw [Nat.zero_testBit]
  split
  · exact hClear k (by assumption)
  · rfl

/- A leaf that is neither a bit-field nor floating. -/
theorem writes_plain (hStored : l.Stored rs 0 i.bytes.size) (hContent : l.content? s = some c)
    (hClear : ∀ k, l.Covers rs k → i.bit k = false) (hExpr : l.expr? = some e)
    (hBits : l.bits? = none) (hPlain : l.type.isFloating = false) : l.Writes rs s i c := by
  rcases InitialValue.size_of_isScalar rs hStored.scalar with
    ⟨hPos, hSmall⟩
  have hWord := hSmall hPlain
  rcases hStored.unit (.inl (by simp [hExpr])) with ⟨hStart, hStop⟩
  rw [content?_of_word hExpr hBits hPlain] at hContent
  rcases Option.map_eq_some_iff.mp hContent with
    ⟨⟨v, symbol?⟩, hValue, rfl⟩
  have hWrite : l.write rs i = Constant.evalAddress e >>= fun p =>
        match p.2 with
        | some symbol => pure (i.addReloc ⟨l.offset, symbol, p.1⟩)
        | none =>
          InitialValue.accessed (i.writeWord? l.offset (l.type.size rs).toNat p.1.toUInt64) := by
    simp only [write, hExpr, hBits, fillScalar_of_word e _ hPlain]
  cases symbol? with
  | some symbol =>
    exact writes_of_value hWrite (Constant.notes_evalAddress e) hValue rfl (gains_reloc _ hClear)
  | none =>
    rcases exists_word v.toUInt64 hBits (Int.toNat_of_nonneg hPos.le).symm (by omega) hStart hStop
      hClear with ⟨i', hEq, hGains⟩
    exact writes_of_value hWrite (Constant.notes_evalAddress e)
      hValue (congrArg InitialValue.accessed hEq) hGains

/- A leaf of a floating type. -/
theorem writes_floating (hStored : l.Stored rs 0 i.bytes.size) (hContent : l.content? s = some c)
    (hClear : ∀ k, l.Covers rs k → i.bit k = false) (hExpr : l.expr? = some e)
    (hBits : l.bits? = none) (hFloat : l.type.isFloating = true) : l.Writes rs s i c := by
  rcases hStored.unit (.inl (by simp [hExpr])) with ⟨hStart, hStop⟩
  unfold CType.isFloating at hFloat
  split at hFloat
  · rename_i kind hType
    have hSize : l.type.size rs = CType.floatSize kind := by rw [CType.size, hType]
    have hWrite : l.write rs i = InitialValue.fillScalar rs l.type e l.offset i := by
      simp only [write, hExpr, hBits]
    have hNotes := Constant.notes_evalDouble e
    simp only [content?, hExpr, hBits, hType] at hContent
    simp only [InitialValue.fillScalar, hType] at hWrite
    cases kind with
    | float =>
      rcases Option.map_eq_some_iff.mp hContent with
        ⟨d, hValue, rfl⟩
      rcases exists_word d.toSingleBits.toUInt64 hBits hSize
        (by decide) hStart hStop hClear with ⟨i', hEq, hGains⟩
      exact writes_of_value hWrite hNotes hValue (congrArg InitialValue.accessed hEq) hGains
    | double =>
      rcases Option.map_eq_some_iff.mp hContent with
        ⟨d, hValue, rfl⟩
      rcases exists_word d.bits hBits hSize (by decide) hStart hStop hClear with ⟨i', hEq, hGains⟩
      exact writes_of_value hWrite hNotes hValue (congrArg InitialValue.accessed hEq) hGains
    | ldouble =>
      rcases Option.map_eq_some_iff.mp hContent with
        ⟨d, hValue, rfl⟩
      rcases Int.eq_ofNat_of_zero_le hStart with ⟨start, hOffset⟩
      have hLength : (Extended80.ofDouble d).toBytes.length = 10 := by simp [Extended80.toBytes]
      rw [CType.floatSize] at hSize
      have hRoom : start + (Extended80.ofDouble d).toBytes.length ≤
            i.bytes.size := by omega
      rcases Image.exists_writes hRoom with ⟨i', hEq, hWrites⟩
      rw [hOffset] at hWrite
      exact writes_of_value hWrite hNotes hValue (congrArg InitialValue.accessed hEq)
        (Image.gains_bytes hOffset hBits (by omega) hClear hWrites)
  · cases hFloat

/- A leaf with a constant value is written. -/
theorem write_gains (hStored : l.Stored rs 0 i.bytes.size) (hContent : l.content? s = some c)
    (hClear : ∀ k, l.Covers rs k → i.bit k = false) : l.Writes rs s i c := by
  cases hExpr : l.expr? with
  | none =>
    simp only [content?, hExpr] at hContent
    cases hContent
    refine ⟨i, [], fun n => ?_, rfl, by simp, fun k => ?_⟩
    · simp only [write, hExpr, List.append_nil]
      rfl
    · rw [Nat.zero_testBit]
      split
      · exact hClear k (by assumption)
      · rfl
  | some e =>
    cases hBits : l.bits? with
    | some b => exact writes_field hStored hContent hClear hExpr hBits
    | none =>
      cases hFloat : l.type.isFloating with
      | true => exact writes_floating hStored hContent hClear hExpr hBits hFloat
      | false => exact writes_plain hStored hContent hClear hExpr hBits hFloat

end Leaf

------------
-- Writing All Leaves
------------

/-
  Data that holds the contents of some leaves.  Outside of
  these it is as before.
-/
structure Contains
    (rs : Records)
    (s : ParseState)
    (ls : List Leaf)
    (i i' : Image) : Prop where
  size : i'.bytes.size = i.bytes.size
  relocs : i'.relocs.toList = i.relocs.toList ++
    ls.filterMap fun l => (l.content? s).bind (·.reloc?)
  inside : ∀ l ∈ ls, ∀ c ∈ l.content? s, ∀ k, l.Covers rs k →
    i'.bit k = c.bits.testBit (k - l.first).toNat
  outside : ∀ k, (∀ l ∈ ls, ¬ l.Covers rs k) → i'.bit k = i.bit k

namespace InitialValue

variable {rs : Records} {s : ParseState} {ls : List Leaf}

/-
  Leaves are written one after the other.  The bits of those
  that are still to come stay zero, because they are apart.
-/
theorem writes_contain {i : Image} (hTiled : Tiled rs 0 i.bytes.size ls)
    (hContents : ∀ l ∈ ls, (l.content? s).isSome)
    (hClear : ∀ l ∈ ls, ∀ k, l.Covers rs k → i.bit k = false) :
    ∃ i' more, (∀ n, ls.foldlM (Leaf.write rs) i (s.noting n) =
      .ok i' (s.noting (n ++ more))) ∧ Contains rs s ls i i' := by
  induction ls generalizing i with
  | nil =>
    refine ⟨i, [], fun n => ?_, rfl, by simp, by simp, fun _ _ => rfl⟩
    rw [List.append_nil]
    rfl
  | cons l ls ih =>
    rcases List.forall_mem_cons.mp hContents with ⟨hOwn, hOthers⟩
    rcases List.forall_mem_cons.mp hClear with ⟨hZero, hZeros⟩
    rcases List.forall_mem_cons.mp hTiled.stored with
      ⟨hStored, hRest⟩
    rcases List.pairwise_cons.mp hTiled.apart with
      ⟨hApart, hPairs⟩
    rcases Option.isSome_iff_exists.mp hOwn with ⟨c, hContent⟩
    rcases Leaf.write_gains hStored hContent hZero with
      ⟨i₁, first, hFirst, hGains⟩
    have hLater : ∀ m ∈ ls, ∀ k, m.Covers rs k → i₁.bit k = false := by
      intro m hm k hCovers
      rw [hGains.bit, if_neg fun hBoth => hApart m hm k hBoth hCovers]
      exact hZeros m hm k hCovers
    have hTiles : Tiled rs 0 i₁.bytes.size ls := by
      rw [hGains.size]
      exact ⟨hRest, hPairs⟩
    rcases ih hTiles hOthers hLater with ⟨i', more, hMore, hAll⟩
    refine ⟨i', first ++ more, fun n => ?_, ?_⟩
    · rw [List.foldlM_cons, Parse.run_bind (hFirst n), hMore, List.append_assoc]
    · refine ⟨hAll.size.trans hGains.size, ?_, ?_, ?_⟩
      · rw [hAll.relocs, hGains.relocs, List.filterMap_cons, hContent, List.append_assoc]
        cases hReloc : c.reloc? <;> simp [hReloc]
      · refine List.forall_mem_cons.mpr ⟨?_, hAll.inside⟩
        intro d hd k hCovers
        rw [hContent] at hd
        cases hd
        rw [hAll.outside k fun m hm hBoth =>
          hApart m hm k hCovers hBoth, hGains.bit,
          if_pos hCovers]
      · intro k hNone
        rcases List.forall_mem_cons.mp hNone with ⟨hNot, hNor⟩
        rw [hAll.outside k hNor, hGains.bit, if_neg hNot]

end InitialValue

end CCompiler
