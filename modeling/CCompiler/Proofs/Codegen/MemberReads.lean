import Mathlib
import CCompiler.Codegen.Tree
import CCompiler.Proofs.Codegen.Operators

/-
  What the code does that reads a member.

  A bit-field is cut out of its unit by two shifts, the second
  of which repeats the uppermost bit of the field unless its
  type is unsigned.  The type of truth values is not: a field
  of one bit that holds one is read as minus one.

  Main declarations:
    * `Codegen.exec_fieldRead`
    * `Member.held`, `Codegen.memberRead`
    * `Codegen.Follows`, `Codegen.follows_member`
    * `Codegen.Yields`, `Codegen.yields_memberRead`
-/

------------
-- Bit-Fields
------------

namespace CCompiler

open Assembly

/- A bit-field that has bits, all of them inside of its unit. -/
structure BitField.Inside (b : BitField) (bits : Int) : Prop where
  wide : 0 < b.width
  first : 0 ≤ b.offset
  last : b.offset + b.width ≤ bits

namespace Word

variable {first width : Nat}

/- Some bits of a word moved to its top. -/
theorem getLsbD_top (x : BitVec 64) {j : Nat} (hInside : first + width ≤ 64) (hField : j < width) :
    (x <<< (64 - width - first)).getLsbD (64 - width + j) = x.getLsbD (first + j) := by
  have hPlace : 64 - width + j - (64 - width - first) = first + j := by omega
  have hHigh : 64 - width + j < 64 := by omega
  have hLow : ¬ 64 - width + j < 64 - width - first := by omega
  simp only [BitVec.getLsbD_shiftLeft, hPlace, hHigh, hLow,
    decide_true, decide_false, Bool.not_false, Bool.true_and]

/- The bits moved to the top and back, with zeros before them. -/
theorem shiftLeft_ushiftRight (x : BitVec 64) (hInside : first + width ≤ 64) :
    (x <<< (64 - width - first)) >>> (64 - width) = (x.extractLsb' first width).setWidth 64 := by
  ext j hj
  rw [BitVec.getElem_ushiftRight, BitVec.getElem_setWidth, BitVec.getLsbD_extractLsb']
  by_cases hField : j < width
  · rw [getLsbD_top x hInside hField]
    simp [hField]
  · rw [BitVec.getLsbD_of_ge _ _ (by omega)]
    simp [hField]

/- The same with the uppermost of the bits before them. -/
theorem shiftLeft_sshiftRight (x : BitVec 64) (hSome : 0 < width) (hInside : first + width ≤ 64) :
    (x <<< (64 - width - first)).sshiftRight (64 - width) =
      (x.extractLsb' first width).signExtend 64 := by
  have hTop : (x <<< (64 - width - first)).msb = (x.extractLsb' first width).msb := by
    have hLast : 64 - 1 = 64 - width + (width - 1) := by omega
    rw [BitVec.msb_eq_getLsbD_last, BitVec.msb_eq_getLsbD_last, BitVec.getLsbD_extractLsb', hLast,
      getLsbD_top x hInside (by omega)]
    simp [hSome]
  apply BitVec.eq_of_getLsbD_eq
  intro j hj
  rw [BitVec.getLsbD_sshiftRight, BitVec.getLsbD_signExtend, hTop, BitVec.getLsbD_extractLsb']
  by_cases hField : j < width
  · rw [getLsbD_top x hInside hField]
    simp [hField, hj, show 64 - width + j < 64 by omega]
  · simp [hField, hj, show ¬ 64 - width + j < 64 by omega]

end Word

namespace Codegen

open Machine

variable {b : BitField}

/- A shift of a whole register by a constant. -/
theorem exec_shiftConstant (m : Machine) (op : ShiftOp) (r : Reg) {n : Int} (hLow : 0 ≤ n)
    (hHigh : n < 64) :
    m.exec? (.shift op (.imm n) (.reg r .quad)) = some (m.unflagged.set r
        (shifted (m.regs r) n.toNat op)) := by
  have hCount : (BitVec.ofInt 8 n).toNat % 64 = n.toNat := by
    rw [Word.toNat_ofInt hLow (by omega)]
    exact Nat.mod_eq_of_lt (by omega)
  have hExec : m.exec? (.shift op (.imm n) (.reg r .quad)) =
      some (m.unflagged.set r (shifted ((m.regs r).setWidth 64)
          ((BitVec.ofInt 8 n).toNat % 64) op)) := rfl
  rw [hExec, hCount, BitVec.setWidth_eq]

/- A bit-field in a register, with its sign or zeros before it. -/
def fieldWord
    (b : BitField)
    (isUnsigned : Bool)
    (x : BitVec 64) : BitVec 64 :=
  let bits := x.extractLsb' b.offset.toNat b.width.toNat
  if isUnsigned then bits.setWidth 64 else bits.signExtend 64

theorem exec_fieldRead (m : Machine) (isUnsigned : Bool) (hInside : b.Inside 64) :
    ∃ m', m.execAll? (fieldRead b isUnsigned) = some m' ∧ Kept m m' ∧
      m'.regs .rax = fieldWord b isUnsigned (m.regs .rax) := by
  rcases hInside with ⟨hWide, hFirst, hLast⟩
  let op : ShiftOp :=
    if isUnsigned then .right else .arithmeticRight
  let m₁ := m.unflagged.set .rax ((m.regs .rax) <<< (64 - b.width.toNat - b.offset.toNat))
  have hWord : shifted (m₁.regs .rax) (64 - b.width.toNat) op =
      fieldWord b isUnsigned (m.regs .rax) := by
    rw [set_regs_self]
    cases isUnsigned with
    | true => exact Word.shiftLeft_ushiftRight _ (by omega)
    | false => exact Word.shiftLeft_sshiftRight _ (by omega) (by omega)
  have hUp : m.exec? (.shift .left (.imm (64 - b.width - b.offset)) .rax) = some m₁ := by
    rw [exec_shiftConstant m .left .rax (by omega) (by omega),
      show (64 - b.width - b.offset).toNat = 64 - b.width.toNat - b.offset.toNat by omega]
    rfl
  have hDown : m₁.exec? (.shift op (.imm (64 - b.width)) .rax) = some (m₁.unflagged.set .rax
        (fieldWord b isUnsigned (m.regs .rax))) := by
    rw [exec_shiftConstant m₁ op .rax (by omega) (by omega),
      show (64 - b.width).toNat = 64 - b.width.toNat by omega,
      hWord]
  have hKept : ∀ (m : Machine) x, Kept m (m.unflagged.set .rax x) :=
    fun m x => (kept_flags m none).trans (kept_set _ x (by decide) (by decide))
  refine ⟨_, ?_, (hKept m _).trans (hKept m₁ _), set_regs_self _ _ _⟩
  simp only [fieldRead, execAll?, hUp, Option.bind_some]
  rw [show (if isUnsigned then ShiftOp.right else
    .arithmeticRight) = op from rfl, hDown]
  rfl

end Codegen

------------
-- Members
------------

/- The type of truth values, below its qualifiers. -/
theorem CType.plain_of_isBool {t : CType} (hBool : t.isBool) : t.plain = .bool := by
  unfold isBool at hBool
  split at hBool
  · assumption
  · cases hBool

/- The bits that memory holds for a member whose unit is at an address. -/
def Member.held
    (rs : Records)
    (mem : Memory)
    (a : BitVec 64)
    (f : Member) : Nat :=
  let unit := mem.bytesAt a (f.type.size rs).toNat
  match f.bits? with
  | none => unit
  | some b => unit / 2 ^ b.offset.toNat % 2 ^ b.width.toNat

namespace Codegen

open Machine

variable {rs : Records} {t : CType} {f : Member} {m : Machine}

/- The code of a tree is that of a part, and some instructions behind it. -/
def Follows
    (c : Context)
    (e : Expr)
    (part : Emit Unit)
    (is : List Instr) : Prop :=
  expr c .value e = (do
    Emit.loc e.tok
    part
    Emit.code is)

/- Instructions that leave a number in the first register. -/
def Yields (is : List Instr) (m : Machine) (n : Int) : Prop :=
  ∃ m', m.execAll? is = some m' ∧ Kept m m' ∧ m'.regs .rax = BitVec.ofInt 64 n

/- The instructions that replace the address of a member by its value. -/
def memberRead (rs : Records) (f : Member) : List Instr :=
  load rs f.type ++
    match f.bits? with
    | some b => fieldRead b f.type.isUnsigned
    | none => []

/- A member is read at its address. -/
theorem follows_member {i : Info} (c : Context) (e : Expr) (hType : i.type? = some f.type) :
    Follows c (.member i e f) (expr c .address (.member i e f)) (memberRead c.records f) := by
  unfold Follows
  rw [expr, expr, hType]
  rfl

/- A truth value is one byte, and its type is not unsigned. -/
theorem load_truth (rs : Records) (hBool : t.isBool) :
    load rs t = [.extend .signByte (.deref .rax) .eax] := by
  simp only [load, heldByAddress, CType.isArray, CType.isRecord,
    CType.isFunction, CType.isVla, Carrier.of, CType.size,
    CType.isUnsigned, CType.plain_of_isBool hBool]
  rfl

/- A byte is loaded with its uppermost bit before it. -/
theorem exec_loadTruth (rs : Records) (m : Machine) (hBool : t.isBool) :
    m.execAll? (load rs t) = some (m.set .rax
      (((m.mem (m.regs .rax)).signExtend 32).setWidth 64)) := by
  have hByte : m.mem.load (m.regs .rax) .byte = m.mem (m.regs .rax) := by
    apply BitVec.eq_of_toNat_eq
    simp [Memory.load, Memory.bytesAt, Width.bits, Width.bytes]
  rw [load_truth rs hBool]
  exact exec_extend_deref (x := .signByte) hByte rfl rfl

variable {width : Nat}

/- The low bits of a byte are there after it was loaded. -/
theorem extractLsb'_loaded (x : BitVec 8) {first : Nat} (hInside : first + width ≤ 8) :
    ((x.signExtend 32).setWidth 64).extractLsb' first width = x.extractLsb' first width := by
  apply BitVec.eq_of_getLsbD_eq
  intro j hj
  have hLow : first + j < 8 := by omega
  simp only [BitVec.getLsbD_extractLsb', BitVec.getLsbD_setWidth,
    BitVec.getLsbD_signExtend, hLow, if_true,
    show first + j < 32 by omega, show first + j < 64 by omega,
    decide_true, Bool.true_and]

/- One or zero in a byte that was loaded. -/
theorem loaded_truth {x : BitVec 8} (hTruth : x.toNat ≤ 1) :
    (x.signExtend 32).setWidth 64 = BitVec.ofInt 64 x.toNat := by
  have hByte : x = 0 ∨ x = 1 := by
    have hSmall : x.toNat = 0 ∨ x.toNat = 1 := by omega
    exact hSmall.imp BitVec.eq_of_toNat_eq BitVec.eq_of_toNat_eq
  rcases hByte with rfl | rfl <;> decide

/-
  The number that a truth value is read as: a field of one bit
  consists of its sign.
-/
def truthRead (f : Member) (n : Nat) : Int :=
  if f.bits?.map (·.width) = some 1 then -n else n

/- One or zero in a field, with the sign of the field. -/
theorem signExtend_truth {n : Nat} (hSome : 0 < width) (hWord : width ≤ 64) (hTruth : n ≤ 1) :
    (BitVec.ofNat width n).signExtend 64 = BitVec.ofInt 64 (if width = 1 then -n else n) := by
  by_cases hOne : width = 1
  · subst hOne
    interval_cases n <;> decide
  · have hPow : (2 : Int) ^ 1 ≤ 2 ^ (width - 1) := pow_le_pow_right₀ (by norm_num) (by omega)
    rw [if_neg hOne, ← BitVec.ofInt_natCast,
      Word.signExtend_ofInt hSome hWord (by omega) (by omega)]

/- A truth value that memory holds is read. -/
theorem yields_memberRead (hBool : f.type.isBool) (hInside : ∀ b ∈ f.bits?, b.Inside 8)
    (hTruth : f.held rs m.mem (m.regs .rax) ≤ 1) :
    Yields (memberRead rs f) m (truthRead f (f.held rs m.mem (m.regs .rax))) := by
  have hPlain := CType.plain_of_isBool hBool
  have hSize : f.type.size rs = 1 := by rw [CType.size, hPlain]
  have hSigned : f.type.isUnsigned = false := by rw [CType.isUnsigned, hPlain]
  have hLoad := exec_loadTruth rs m hBool
  have hKept := kept_set (r := .rax) m (((m.mem (m.regs .rax)).signExtend 32).setWidth 64)
    (by decide) (by decide)
  have hUnit : m.mem.bytesAt (m.regs .rax)
      (f.type.size rs).toNat = (m.mem (m.regs .rax)).toNat := by
    rw [hSize]
    simp [Memory.bytesAt]
  unfold Member.held at hTruth ⊢
  rw [hUnit] at hTruth ⊢
  unfold memberRead truthRead
  cases hBits : f.bits? with
  | none =>
    rw [hBits] at hTruth
    refine ⟨_, by rw [List.append_nil, hLoad], hKept, ?_⟩
    rw [set_regs_self]
    exact loaded_truth hTruth
  | some b =>
    rw [hBits] at hTruth
    rcases hInside b hBits with ⟨hWide, hFirst, hLast⟩
    rcases exec_fieldRead (m.set .rax (((m.mem (m.regs .rax)).signExtend 32).setWidth 64))
      f.type.isUnsigned ⟨hWide, hFirst, by omega⟩ with
      ⟨m', hRun, hKept', hRax⟩
    refine ⟨m', ?_, hKept.trans hKept', ?_⟩
    · exact execAll?_append hLoad hRun
    · have hField : (m.mem (m.regs .rax)).extractLsb'
          b.offset.toNat b.width.toNat = BitVec.ofNat b.width.toNat
            ((m.mem (m.regs .rax)).toNat / 2 ^ b.offset.toNat % 2 ^ b.width.toNat) := by
        apply BitVec.eq_of_toNat_eq
        simp [Nat.shiftRight_eq_div_pow]
      have hOne : b.width = 1 ↔ b.width.toNat = 1 := by omega
      simp only [Option.map_some, Option.some.injEq, hOne]
      rw [hRax, fieldWord, hSigned, set_regs_self, extractLsb'_loaded _ (by omega), hField]
      exact signExtend_truth (by omega) (by omega) hTruth

end Codegen

end CCompiler
