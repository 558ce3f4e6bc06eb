import Mathlib
import CCompiler.Proofs.Codegen.SavedRegisters
import CCompiler.Proofs.Codegen.StackArguments

/-
  How the arguments of a variable list are fetched.

  A caller counts the registers that it pushes arguments for
  and those that it pops them into.  The list counts bytes of
  saved registers and keeps the address of the next argument
  on the stack.  If a list starts with the counts of the
  registers that are popped, it stays in step with them.

  Main declarations:
    * `Codegen.VaList`, `Codegen.VaList.fetchAll`
    * `Codegen.Home`, `Codegen.homes`
    * `Codegen.Readable`, `Codegen.Tracks`
    * `Codegen.fetchAll_homes`
-/

------------
-- Lists of Variable Arguments
------------

namespace CCompiler

open Assembly

namespace Codegen

/- A list of variable arguments, as `<stdarg.h>` declares it. -/
@[ext] structure VaList where
  gp : BitVec 32
  fp : BitVec 32
  overflow : BitVec 64
  saved : BitVec 64

namespace VaList

/- The list that is kept at an address. -/
def read (mem : Memory) (a : BitVec 64) : VaList where
  gp := mem.load a .long
  fp := mem.load (a + BitVec.ofNat 64 4) .long
  overflow := mem.load (a + BitVec.ofNat 64 8) .quad
  saved := mem.load (a + BitVec.ofNat 64 16) .quad

/- The address of the next argument on the stack. -/
def memory (l : VaList) (size align : BitVec 32) :
    BitVec 64 × VaList :=
  let a :=
    if (8 : BitVec 32).slt align then
      (l.overflow + 15) / 16 * 16
    else l.overflow
  (a, { l with
    overflow := (a + size.signExtend 64 + 7) / 8 * 8 })

/- The address of the next general register. -/
def general (l : VaList) (size align : BitVec 32) :
    BitVec 64 × VaList :=
  if (48 : BitVec 32) ≤ l.gp then l.memory size align
  else (l.saved + l.gp.setWidth 64, { l with gp := l.gp + 8 })

/- The address of the next vector register. -/
def vector (l : VaList) (size align : BitVec 32) :
    BitVec 64 × VaList :=
  if (112 : BitVec 32) ≤ l.fp then l.memory size align
  else (l.saved + l.fp.setWidth 64, { l with fp := l.fp + 8 })

/- The address of the next argument, which has some type. -/
def fetch (rs : Records) (l : VaList) (t : CType) :
    BitVec 64 × VaList :=
  let size := BitVec.ofInt 32 (t.size rs)
  let align := BitVec.ofInt 32 (t.align rs)
  if t.isInteger || t.isPointer then l.general size align
  else if t.isFloating then l.vector size align
  else l.memory size align

/- The addresses of arguments, one after the other. -/
def fetchAll (rs : Records) : VaList → List CType → List (BitVec 64)
| _, [] => []
| l, t :: ts =>
  (l.fetch rs t).1 :: fetchAll rs (l.fetch rs t).2 ts

end VaList

------------
-- Where Arguments Are
------------

/-
  Where an argument of a call is: in registers, or at some
  distance from the frame pointer of the function.
-/
inductive Home
| registers (targets : List PopTarget)
| stack (place : Int)
deriving DecidableEq

/-
  The homes of arguments.  An argument that is not marked for
  registers lies behind those before it on the stack; one that
  is goes where the caller pops it.
-/
def homes (rs : Records) : RegisterUse → RegisterUse → Int →
    List CType → List Home
| _, _, _, [] => []
| pushing, popping, place, t :: ts =>
  let c := ArgClass.of rs t
  if (pushing.pass c).1 then
    .registers (popping.unload c).1 ::
      homes rs (pushing.pass c).2 (popping.unload c).2 place ts
  else
    .stack place :: homes rs (pushing.pass c).2 (popping.unload c).2
        (place + (t.size rs + 7) / 8 * 8) ts

/- An address at which an argument is found. -/
def Home.Found (p p' : Processor) (a : BitVec 64) :
    Home → Prop
| .registers [.general n] =>
  p'.machine.mem.load a .quad = p.machine.regs (argReg n)
| .registers [.vector n] =>
  p'.machine.mem.load a .quad = p.vectors n
| .registers _ => False
| .stack place => a = placeOf p.machine.regs place

/-
  A type whose values travel in the one register that they are
  looked for in, or on the stack if they are too large.
-/
def Readable (rs : Records) (t : CType) : Prop :=
  t.isInteger = true ∨ t.isPointer = true ∨ ArgClass.of rs t = .vector ∨
    t.isRecord = true ∧ 16 < t.size rs ∧
      t.size rs < 2 ^ 31 ∧ 0 < t.align rs ∧ t.align rs ≤ 8

variable {rs : Records} {t : CType}

theorem class_of_general (hType : t.isInteger = true ∨ t.isPointer = true) :
    ArgClass.of rs t = .general ∧ 0 < t.size rs ∧
      t.size rs ≤ 8 ∧ 0 < t.align rs ∧ t.align rs ≤ 8 := by
  unfold CType.isInteger CType.isPointer at hType
  unfold ArgClass.of CType.size CType.align
  cases hPlain : t.plain with
  | bool => simp
  | integer k u => cases k <;> simp [CType.intSize]
  | enum i => simp
  | ptr base => simp
  | _ => simp [hPlain] at hType

theorem class_of_vector (hClass : ArgClass.of rs t = .vector) :
    (t.isInteger || t.isPointer) = false ∧ t.isFloating = true ∧ 0 < t.size rs ∧
      t.size rs ≤ 8 ∧ 0 < t.align rs ∧ t.align rs ≤ 8 := by
  unfold ArgClass.of at hClass
  unfold CType.isInteger CType.isPointer CType.isFloating CType.size CType.align
  cases hPlain : t.plain with
  | floating k => cases k <;> simp_all [CType.floatSize]
  | _ => simp [hPlain] at hClass

theorem class_of_record (hRecord : t.isRecord = true) (hLarge : 16 < t.size rs) :
    (t.isInteger || t.isPointer) = false ∧ t.isFloating = false ∧ ∃ size first second, 16 < size ∧
        ArgClass.of rs t = .record size first second := by
  unfold CType.isRecord at hRecord
  unfold ArgClass.of CType.isInteger CType.isPointer CType.isFloating
  cases hPlain : t.plain with
  | record id => simp [hLarge]
  | _ => simp [hPlain] at hRecord

theorem Readable.size_pos (hReadable : Readable rs t) : 0 < t.size rs := by
  rcases hReadable with hInteger | hPointer | hClass | hRecord
  · exact (class_of_general (.inl hInteger)).2.1
  · exact (class_of_general (.inr hPointer)).2.1
  · exact (class_of_vector hClass).2.2.1
  · omega

/- Rounding an address up behind something of a size. -/
theorem next_address {a : BitVec 64} {n : Int} (hAligned : a.toNat % 8 = 0) (hLow : 0 ≤ n)
    (hHigh : n < 2 ^ 31) (hFits : a.toNat + n + 7 < 2 ^ 64) :
    (((a + (BitVec.ofInt 32 n).signExtend 64 + 7) / 8 * 8 :
      BitVec 64).toNat : Int) = a.toNat + (n + 7) / 8 * 8 := by
  have hExtend : ((BitVec.ofInt 32 n).signExtend 64).toNat = n.toNat := by
    rw [BitVec.signExtend_eq_setWidth_of_msb_false]
    · rw [BitVec.toNat_setWidth, BitVec.toNat_ofInt]
      omega
    · rw [BitVec.msb_eq_false_iff_two_mul_lt, BitVec.toNat_ofInt]
      omega
  have hSum : (a + (BitVec.ofInt 32 n).signExtend 64 + 7).toNat = a.toNat + n.toNat + 7 := by
    rw [BitVec.toNat_add, BitVec.toNat_add, hExtend]
    change ((a.toNat + n.toNat) % 2 ^ 64 + 7) % 2 ^ 64 = _
    omega
  rw [BitVec.toNat_mul, BitVec.toNat_udiv, hSum]
  change (((a.toNat + n.toNat + 7) / 8 * 8 % 2 ^ 64 : Nat) : Int) = _
  omega

/-
  A list that is in step with registers that are popped and
  with a place on the stack.
-/
structure Tracks
    (p p' : Processor)
    (l : VaList)
    (popping : RegisterUse)
    (place : Int) : Prop where
  gp : l.gp.toNat = popping.general * 8
  fp : l.fp.toNat = 48 + popping.vector * 8
  overflow :
    (l.overflow.toNat : Int) = (p.machine.regs .rbp).toNat + place
  aligned : l.overflow.toNat % 8 = 0
  generals : popping.general ≤ generalCount
  vectors : popping.vector ≤ vectorCount
  general : ∀ n < generalCount,
    p'.machine.mem.load
      (l.saved + BitVec.ofNat 64 (n * 8)) .quad = p.machine.regs (argReg n)
  vector : ∀ n < vectorCount,
    p'.machine.mem.load
      (l.saved + BitVec.ofNat 64 (48 + n * 8)) .quad = p.vectors n

namespace Tracks

variable {p p' : Processor} {l : VaList}
  {popping : RegisterUse} {place : Int}

/- The next argument on the stack. -/
theorem memory (hTracks : Tracks p p' l popping place) (hSize : 0 ≤ t.size rs)
    (hSmall : t.size rs < 2 ^ 31) (hAlign : 0 < t.align rs) (hEight : t.align rs ≤ 8)
    (hFits : (p.machine.regs .rbp).toNat + place + t.size rs + 7 < 2 ^ 64) :
    let r := l.memory (BitVec.ofInt 32 (t.size rs))
      (BitVec.ofInt 32 (t.align rs))
    r.1 = placeOf p.machine.regs place ∧ Tracks p p' r.2 popping
        (place + (t.size rs + 7) / 8 * 8) := by
  have hNarrow : (8 : BitVec 32).slt (BitVec.ofInt 32 (t.align rs)) = false := by
    rw [BitVec.slt_eq_decide, decide_eq_false_iff_not, BitVec.toInt_ofInt]
    change ¬ ((8 : Int) < _)
    rw [Int.bmod_def]
    omega
  have hOverflow := hTracks.overflow
  have hNext := next_address hTracks.aligned hSize hSmall (by omega)
  unfold VaList.memory
  simp only [hNarrow, Bool.false_eq_true, if_false]
  constructor
  · apply BitVec.eq_of_toNat_eq
    rw [placeOf, BitVec.toNat_add, BitVec.toNat_ofInt]
    omega
  · exact { hTracks with
      overflow := by rw [hNext]; omega
      aligned := by
        have hAligned := hTracks.aligned
        dsimp only
        omega }

/- The next general register, or the stack behind these. -/
theorem general_step (hTracks : Tracks p p' l popping place) (hSize : 0 ≤ t.size rs)
    (hSmall : t.size rs < 2 ^ 31) (hAlign : 0 < t.align rs) (hEight : t.align rs ≤ 8)
    (hFits : (p.machine.regs .rbp).toNat + place + t.size rs + 7 < 2 ^ 64) :
    let r := l.general (BitVec.ofInt 32 (t.size rs))
      (BitVec.ofInt 32 (t.align rs))
    let home :=
      if popping.general < generalCount then
        (Home.registers [.general popping.general], place)
      else (.stack place, place + (t.size rs + 7) / 8 * 8)
    home.1.Found p p' r.1 ∧ Tracks p p' r.2 (popping.unload .general).2 home.2 := by
  have hGp := hTracks.gp
  by_cases hFree : popping.general < generalCount
  · have hBelow : ¬ (48 : BitVec 32) ≤ l.gp := by
      rw [BitVec.le_def, hGp]
      change ¬ 48 ≤ _
      simp only [generalCount] at hFree
      omega
    have hPlace : l.gp.setWidth 64 = BitVec.ofNat 64 (popping.general * 8) := by
      rw [← hGp, BitVec.ofNat_toNat]
    simp only [VaList.general, hBelow, if_false, hFree, if_true, RegisterUse.unload]
    refine ⟨?_, { hTracks with gp := ?_, generals := ?_ }⟩
    · rw [hPlace]
      exact hTracks.general _ hFree
    · change (l.gp + 8).toNat = (popping.general + 1) * 8
      rw [BitVec.toNat_add, hGp]
      change (popping.general * 8 + 8) % 2 ^ 32 = _
      simp only [generalCount] at hFree
      omega
    · change popping.general + 1 ≤ generalCount
      omega
  · have hFull : (48 : BitVec 32) ≤ l.gp := by
      rw [BitVec.le_def, hGp]
      change 48 ≤ _
      simp only [generalCount] at hFree
      omega
    simp only [VaList.general, hFull, if_true, hFree, if_false, RegisterUse.unload]
    exact hTracks.memory hSize hSmall hAlign hEight hFits

/- The next vector register, or the stack behind these. -/
theorem vector_step (hTracks : Tracks p p' l popping place) (hSize : 0 ≤ t.size rs)
    (hSmall : t.size rs < 2 ^ 31) (hAlign : 0 < t.align rs) (hEight : t.align rs ≤ 8)
    (hFits : (p.machine.regs .rbp).toNat + place + t.size rs + 7 < 2 ^ 64) :
    let r := l.vector (BitVec.ofInt 32 (t.size rs))
      (BitVec.ofInt 32 (t.align rs))
    let home :=
      if popping.vector < vectorCount then
        (Home.registers [.vector popping.vector], place)
      else (.stack place, place + (t.size rs + 7) / 8 * 8)
    home.1.Found p p' r.1 ∧ Tracks p p' r.2 (popping.unload .vector).2 home.2 := by
  have hFp := hTracks.fp
  by_cases hFree : popping.vector < vectorCount
  · have hBelow : ¬ (112 : BitVec 32) ≤ l.fp := by
      rw [BitVec.le_def, hFp]
      change ¬ 112 ≤ _
      simp only [vectorCount] at hFree
      omega
    have hPlace : l.fp.setWidth 64 = BitVec.ofNat 64 (48 + popping.vector * 8) := by
      rw [← hFp, BitVec.ofNat_toNat]
    simp only [VaList.vector, hBelow, if_false, hFree, if_true, RegisterUse.unload]
    refine ⟨?_, { hTracks with fp := ?_, vectors := ?_ }⟩
    · rw [hPlace]
      exact hTracks.vector _ hFree
    · change (l.fp + 8).toNat = 48 + (popping.vector + 1) * 8
      rw [BitVec.toNat_add, hFp]
      change (48 + popping.vector * 8 + 8) % 2 ^ 32 = _
      simp only [vectorCount] at hFree
      omega
    · change popping.vector + 1 ≤ vectorCount
      omega
  · have hFull : (112 : BitVec 32) ≤ l.fp := by
      rw [BitVec.le_def, hFp]
      change 112 ≤ _
      simp only [vectorCount] at hFree
      omega
    simp only [VaList.vector, hFull, if_true, hFree, if_false, RegisterUse.unload]
    exact hTracks.memory hSize hSmall hAlign hEight hFits

end Tracks

/- The home of one argument, and the place of the next. -/
def homeOf (rs : Records) (pushing popping : RegisterUse)
    (place : Int) (t : CType) : Home × Int :=
  let c := ArgClass.of rs t
  if (pushing.pass c).1 then
    (.registers (popping.unload c).1, place)
  else (.stack place, place + (t.size rs + 7) / 8 * 8)

theorem homes_cons (rs : Records) (pushing popping : RegisterUse) (place : Int) (t : CType)
    (ts : List CType) :
    homes rs pushing popping place (t :: ts) = (homeOf rs pushing popping place t).1 ::
        homes rs (pushing.pass (ArgClass.of rs t)).2 (popping.unload (ArgClass.of rs t)).2
          (homeOf rs pushing popping place t).2 ts := by
  simp only [homes, homeOf]
  split <;> rfl

variable {pushing : RegisterUse}

/- A general argument that is popped as it was pushed. -/
theorem homeOf_general {popping : RegisterUse} {place : Int}
    (hClass : ArgClass.of rs t = .general) (hMatched : Matched pushing popping .general) :
    homeOf rs pushing popping place t = if popping.general < generalCount then
        (.registers [.general popping.general], place)
      else (.stack place, place + (t.size rs + 7) / 8 * 8) := by
  unfold Matched at hMatched
  unfold homeOf
  simp only [hClass, RegisterUse.unload] at hMatched ⊢
  by_cases hFree : popping.general < generalCount <;> cases hMark : (pushing.pass .general).1 <;>
      simp_all [ArgClass.eightbytes, RegisterUse.next]

/- An argument in a vector register. -/
theorem homeOf_vector {popping : RegisterUse} {place : Int} (hClass : ArgClass.of rs t = .vector)
    (hMatched : Matched pushing popping .vector) :
    homeOf rs pushing popping place t = if popping.vector < vectorCount then
        (.registers [.vector popping.vector], place)
      else (.stack place, place + (t.size rs + 7) / 8 * 8) := by
  unfold Matched at hMatched
  unfold homeOf
  simp only [hClass, RegisterUse.unload] at hMatched ⊢
  by_cases hFree : popping.vector < vectorCount <;> cases hMark : (pushing.pass .vector).1 <;>
      simp_all [ArgClass.eightbytes, RegisterUse.next]

/-
  An argument that is read is found at its home, if it is
  popped as it was pushed.
-/
theorem fetch_home {p p' : Processor} {l : VaList} {popping : RegisterUse} {place : Int}
    (hTracks : Tracks p p' l popping place) (hReadable : Readable rs t)
    (hMatched : Matched pushing popping (ArgClass.of rs t))
    (hFits : (p.machine.regs .rbp).toNat + place + t.size rs + 7 < 2 ^ 64) :
    let home := homeOf rs pushing popping place t
    home.1.Found p p' (l.fetch rs t).1 ∧ Tracks p p' (l.fetch rs t).2
        (popping.unload (ArgClass.of rs t)).2 home.2 := by
  have hGeneral : t.isInteger = true ∨ t.isPointer = true →
        (homeOf rs pushing popping place t).1.Found p p'
            (l.fetch rs t).1 ∧ Tracks p p' (l.fetch rs t).2
            (popping.unload (ArgClass.of rs t)).2
            (homeOf rs pushing popping place t).2 := by
    intro hType
    obtain ⟨hClass, hLow, hHigh, hAlign, hEight⟩ := @class_of_general rs t hType
    have hStep := hTracks.general_step (by omega) (by omega) hAlign hEight hFits
    have hTest : (t.isInteger || t.isPointer) = true := by simpa using hType
    rw [hClass] at hMatched
    rw [homeOf_general hClass hMatched, hClass]
    simp only [VaList.fetch, hTest, if_true]
    exact hStep
  rcases hReadable with
    hInteger | hPointer | hClass | ⟨hRecord, hLarge, hRest⟩
  · exact hGeneral (.inl hInteger)
  · exact hGeneral (.inr hPointer)
  · obtain ⟨hTest, hFloating, hLow, hHigh, hAlign, hEight⟩ := class_of_vector hClass
    have hStep := hTracks.vector_step (by omega) (by omega) hAlign hEight hFits
    rw [hClass] at hMatched
    rw [homeOf_vector hClass hMatched, hClass]
    simp only [VaList.fetch, hTest, hFloating, if_true, Bool.false_eq_true, if_false]
    exact hStep
  · obtain ⟨hSmall, hAlign, hEight⟩ := hRest
    obtain ⟨hTest, hFloating, size, first, second, hSize, hClass⟩ := class_of_record hRecord hLarge
    have hStep := hTracks.memory (by omega) hSmall hAlign hEight hFits
    have hStack : ¬ size ≤ 16 := by omega
    simp only [homeOf, hClass, RegisterUse.pass, hStack,
      decide_false, Bool.false_and, Bool.false_eq_true,
      if_false, RegisterUse.unload, hSize, decide_true,
      Bool.true_or, if_true, VaList.fetch, hTest, hFloating]
    exact hStep

/-
  All arguments that are read are found, each one at its home,
  by a list that is in step when the first one is read.
-/
theorem fetchAll_homes {p p' : Processor} {l : VaList} {popping : RegisterUse} {place : Int}
    {ts : List CType} (hTracks : Tracks p p' l popping place)
    (hReadable : ∀ t ∈ ts, Readable rs t)
    (hMatched : AllMatched pushing popping (ts.map (ArgClass.of rs)))
    (hFits : (p.machine.regs .rbp).toNat + place + roomOf rs ts + 7 < 2 ^ 64) :
    List.Forall₂ (fun home a => home.Found p p' a) (homes rs pushing popping place ts)
      (l.fetchAll rs ts) := by
  induction ts generalizing l pushing popping place with
  | nil => exact .nil
  | cons t ts ih =>
    rw [List.forall_mem_cons] at hReadable
    obtain ⟨hFirst, hRest⟩ := hMatched
    have hRoom : 0 ≤ roomOf rs ts :=
      List.sum_nonneg (List.forall_mem_map.mpr fun u hu => by
        have hPositive := (hReadable.2 u hu).size_pos
        omega)
    have hSize := hReadable.1.size_pos
    rw [roomOf_cons] at hFits
    obtain ⟨hFound, hTracks'⟩ := fetch_home hTracks hReadable.1 hFirst (by omega)
    rw [homes_cons, VaList.fetchAll]
    refine .cons hFound (ih hTracks' hReadable.2 hRest ?_)
    have hNext : (homeOf rs pushing popping place t).2 ≤ place + (t.size rs + 7) / 8 * 8 := by
      simp only [homeOf]
      split <;> dsimp only <;> omega
    omega

end Codegen

end CCompiler
