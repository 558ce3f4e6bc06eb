import Mathlib
import CCompiler.Codegen.Module
import CCompiler.Proofs.Codegen.Operators

/-
  What the entry of a function with variable arguments stores.

  The code writes words at rising places behind the start of a
  list of variable arguments: two counts, two addresses and
  the registers that arguments travel in.

  Main declarations:
    * `Processor`, `Processor.exec?`
    * `Cell`, `Memory.fill`, `Memory.load_fill`
    * `Codegen.Puts`, `Codegen.puts_all`
    * `Codegen.Prepared`, `Codegen.prepared_saveRegisters`
-/

------------
-- Vector Registers
------------

namespace CCompiler

open Assembly

/-
  A machine with vector registers, of which the low 64 bits
  are kept.
-/
structure Processor where
  machine : Machine
  vectors : Nat → BitVec 64

namespace Processor

/- A step that leaves the vector registers alone. -/
def after? (p : Processor) (m? : Option Machine) :
    Option Processor :=
  m?.map fun m => { p with machine := m }

/-
  Run an instruction that is no jump.  Of those on vector
  registers, the store of a low half is all that is needed.
-/
def exec? (p : Processor) : Instr → Option Processor
| .movWide w src dst =>
  p.after? ((p.machine.read? w src).bind (p.machine.write? w · dst))
| .aluWide op w src dst => p.after? (p.machine.alu? op w src dst)
| .sse (.move .double) (.xmm n) (.mem base disp?) =>
  p.after? (some { p.machine with
    mem := p.machine.mem.store
      (p.machine.address base disp?) .quad (p.vectors n) })
| i => p.after? (p.machine.exec? i)

/- Run instructions one after the other. -/
def execAll? (p : Processor) : List Instr → Option Processor
| [] => some p
| i :: is => (p.exec? i).bind (execAll? · is)

theorem execAll?_append {p p₁ p₂ : Processor} {is js : List Instr}
    (hFirst : p.execAll? is = some p₁) (hNext : p₁.execAll? js = some p₂) :
    p.execAll? (is ++ js) = some p₂ := by
  induction is generalizing p with
  | nil =>
    cases hFirst
    exact hNext
  | cons i is ih =>
    obtain ⟨q, hStep, hRest⟩ := Option.bind_eq_some_iff.mp hFirst
    rw [List.cons_append, execAll?, hStep]
    exact ih hRest

end Processor

------------
-- Words at Rising Places
------------

/- A word at a distance from some address. -/
structure Cell where
  offset : Nat
  width : Width
  value : BitVec width.bits

namespace Cell

/- The distance of the first byte behind a cell. -/
def next (c : Cell) : Nat :=
  c.offset + c.width.bytes

end Cell

variable {cells : List Cell}

namespace Memory

variable {mem mem' : Memory} {base a b : BitVec 64}

/- Memory with some words written one after the other. -/
def fill (mem : Memory) (base : BitVec 64) :
    List Cell → Memory
| [] => mem
| c :: cs =>
  (mem.store (base + BitVec.ofNat 64 c.offset) c.width c.value).fill base cs

/- Bytes that are the same hold the same. -/
theorem bytesAt_congr {n : Nat}
    (hSame : ∀ i < n, mem' (a + BitVec.ofNat 64 i) =
        mem (a + BitVec.ofNat 64 i)) : mem'.bytesAt a n = mem.bytesAt a n := by
  induction n generalizing a with
  | zero => rfl
  | succ n ih =>
    have hHere := hSame 0 (by omega)
    simp only [BitVec.add_zero] at hHere
    rw [bytesAt, bytesAt, hHere]
    rw [ih fun i hi => ?_]
    have hNext := hSame (i + 1) (by omega)
    rwa [Nat.add_comm i 1, BitVec.ofNat_add, ← BitVec.add_assoc] at hNext

variable {w : Width}

theorem load_congr
    (hSame : ∀ i < w.bytes, mem' (a + BitVec.ofNat 64 i) =
        mem (a + BitVec.ofNat 64 i)) : mem'.load a w = mem.load a w := by
  unfold load
  rw [bytesAt_congr hSame]

/- A word that is written in the place of another one. -/
theorem store_store (mem : Memory) (a : BitVec 64) (w : Width) (x y : BitVec w.bits) :
    (mem.store a w x).store a w y = mem.store a w y := by
  funext b
  unfold store
  split
  · rfl
  · rfl

/- A byte outside of a word that is written. -/
theorem store_outside (x : BitVec w.bits) (hOutside : ∀ i < w.bytes, a ≠ b + BitVec.ofNat 64 i) :
    mem.store b w x a = mem a := by
  have hFar : ¬ (a - b).toNat < w.bytes := by
    intro hNear
    refine hOutside _ hNear ?_
    rw [BitVec.ofNat_toNat, BitVec.setWidth_eq, BitVec.add_comm, BitVec.sub_add_cancel]
  simp only [store, hFar, if_false]

/- A byte outside of all words that are written. -/
theorem fill_outside
    (hOutside : ∀ c ∈ cells, ∀ i < c.width.bytes,
      a ≠ base + BitVec.ofNat 64 (c.offset + i)) : mem.fill base cells a = mem a := by
  induction cells generalizing mem with
  | nil => rfl
  | cons c cells ih =>
    rw [fill, ih fun d hd => hOutside d (by simp [hd])]
    refine store_outside _ fun i hi => ?_
    rw [BitVec.add_assoc, ← BitVec.ofNat_add]
    exact hOutside c (by simp) i hi

/- Different distances below the size of memory. -/
theorem add_ofNat_ne {i j : Nat} (hNe : i ≠ j) (hFirst : i < 2 ^ 64) (hSecond : j < 2 ^ 64) :
    base + BitVec.ofNat 64 i ≠ base + BitVec.ofNat 64 j := by
  intro hEq
  have hNat := congrArg BitVec.toNat (add_left_cancel hEq)
  rw [BitVec.toNat_ofNat, BitVec.toNat_ofNat,
    Nat.mod_eq_of_lt hFirst, Nat.mod_eq_of_lt hSecond] at hNat
  exact hNe hNat

/- Words at rising places that end below a distance. -/
def Rising (cells : List Cell) (top : Nat) : Prop :=
  cells.Pairwise (fun c d => c.next ≤ d.offset) ∧ ∀ c ∈ cells, c.next ≤ top

/- Every word is there in the end. -/
theorem load_fill {top : Nat} (hRising : Rising cells top) (hTop : top < 2 ^ 64) {c : Cell}
    (hMem : c ∈ cells) :
    (mem.fill base cells).load (base + BitVec.ofNat 64 c.offset) c.width = c.value := by
  obtain ⟨hApart, hBelow⟩ := hRising
  induction cells generalizing mem with
  | nil => cases hMem
  | cons d cells ih =>
    rw [List.pairwise_cons] at hApart
    rw [fill]
    rcases List.mem_cons.mp hMem with rfl | hMem
    · -- What is written later lies behind this word.
      refine Eq.trans (load_congr fun i hi => ?_) (load_store mem _ c.width c.value)
      refine fill_outside fun d hd j hj => ?_
      have hBehind := hApart.1 d hd
      have hEnd := hBelow d (by simp [hd])
      simp only [Cell.next] at hBehind hEnd
      rw [BitVec.add_assoc, ← BitVec.ofNat_add]
      exact add_ofNat_ne (by omega) (by omega) (by omega)
    · exact ih hMem hApart.2 fun e he => hBelow e (by simp [he])

end Memory

------------
-- The Area of a Function with Variable Arguments
------------

namespace Codegen

open Machine

/- A store of one word, which changes nothing else. -/
def Puts
    (regs : Reg → BitVec 64)
    (vectors : Nat → BitVec 64)
    (base : BitVec 64)
    (is : List Instr)
    (c : Cell) : Prop :=
  ∀ p : Processor, p.machine.regs = regs → p.vectors = vectors →
    ∃ p', p.execAll? is = some p' ∧
      p'.machine.regs = regs ∧ p'.vectors = vectors ∧
      p'.machine.mem = p.machine.mem.store
        (base + BitVec.ofNat 64 c.offset) c.width c.value

variable {regs : Reg → BitVec 64} {vectors : Nat → BitVec 64}
  {base : BitVec 64}

/- Stores one after the other. -/
theorem puts_all {iss : List (List Instr)}
    (hPuts : List.Forall₂ (Puts regs vectors base) iss cells) (p : Processor)
    (hRegs : p.machine.regs = regs) (hVectors : p.vectors = vectors) :
    ∃ p', p.execAll? iss.flatten = some p' ∧ p'.machine.regs = regs ∧ p'.vectors = vectors ∧
      p'.machine.mem = p.machine.mem.fill base cells := by
  induction hPuts generalizing p with
  | nil => exact ⟨p, rfl, hRegs, hVectors, rfl⟩
  | cons hFirst hRest ih =>
    obtain ⟨p₁, hExec, hRegs₁, hVectors₁, hMem⟩ := hFirst p hRegs hVectors
    obtain ⟨p₂, hMore, hRegs₂, hVectors₂, hFill⟩ := ih p₁ hRegs₁ hVectors₁
    refine ⟨p₂, ?_, hRegs₂, hVectors₂, ?_⟩
    · exact Processor.execAll?_append hExec hMore
    · rw [hFill, hMem, Memory.fill]

/- The address of a place of the frame. -/
def placeOf (regs : Reg → BitVec 64) (place : Int) :
    BitVec 64 :=
  regs .rbp + BitVec.ofInt 64 place

theorem placeOf_add (regs : Reg → BitVec 64) (place : Int) (n : Nat) :
    placeOf regs (place + n) = placeOf regs place + BitVec.ofNat 64 n := by
  simp only [placeOf, BitVec.ofInt_add, BitVec.ofInt_natCast, BitVec.add_assoc]

variable {area place : Int} {k : Nat}

/- A number of 32 bits. -/
theorem puts_number (n : Int) (hPlace : place = area + k) :
    Puts regs vectors (placeOf regs area) [.movWide .long (.imm n) (.slot place)]
      ⟨k, .long, BitVec.ofInt 32 n⟩ := by
  rintro p rfl rfl
  refine ⟨_, rfl, rfl, rfl, ?_⟩
  rw [← placeOf_add, ← hPlace]
  rfl

/- A general register. -/
theorem puts_general (r : Reg) (hPlace : place = area + k) :
    Puts regs vectors (placeOf regs area) [.movWide .quad (.reg r .quad) (.slot place)]
      ⟨k, .quad, regs r⟩ := by
  rintro p rfl rfl
  refine ⟨_, rfl, rfl, rfl, ?_⟩
  rw [← placeOf_add, ← hPlace]
  exact congrArg (p.machine.mem.store _ .quad) (BitVec.setWidth_eq _)

/- The frame pointer, to which a number is added. -/
theorem puts_sum (n : Int) (hPlace : place = area + k) :
    Puts regs vectors (placeOf regs area) [.movWide .quad .rbp (.slot place),
        .aluWide .add .quad (.imm n) (.slot place)]
      ⟨k, .quad, regs .rbp + BitVec.ofInt 64 n⟩ := by
  rintro p rfl rfl
  refine ⟨_, rfl, rfl, rfl, ?_⟩
  rw [← placeOf_add, ← hPlace]
  refine (Memory.store_store p.machine.mem _ .quad _ _).trans ?_
  have hFirst : ((p.machine.mem.store (placeOf p.machine.regs place) .quad
        ((p.machine.regs .rbp).setWidth 64)).load
          (placeOf p.machine.regs place) .quad) = p.machine.regs .rbp :=
    (Memory.load_store _ _ .quad _).trans (BitVec.setWidth_eq _)
  exact congrArg (p.machine.mem.store _ .quad) (congrArg (· + BitVec.ofInt 64 n) hFirst)

/- A vector register. -/
theorem puts_vector (n : Nat) (hPlace : place = area + k) :
    Puts regs vectors (placeOf regs area) [.sse (.move .double) (.xmm n) (.slot place)]
      ⟨k, .quad, vectors n⟩ := by
  rintro p rfl rfl
  refine ⟨_, rfl, rfl, rfl, ?_⟩
  rw [← placeOf_add, ← hPlace]
  rfl

/- The values that a list of variable arguments starts with. -/
structure VaStart where
  gp : Int
  fp : Int
  overflow : Int
deriving DecidableEq

namespace VaStart

/- What is written for parameters of some types. -/
def written (params : List CType) : VaStart :=
  let vectors := (params.filter CType.isFloating).length
  ⟨((params.length - vectors : Nat) : Int) * 8, (vectors : Int) * 8 + 48, 16⟩

end VaStart

/- The counts and addresses at the front of the area. -/
def headCells
    (v : VaStart)
    (regs : Reg → BitVec 64)
    (area : Int) : List Cell :=
  [⟨0, .long, BitVec.ofInt 32 v.gp⟩, ⟨4, .long, BitVec.ofInt 32 v.fp⟩,
    ⟨8, .quad, placeOf regs v.overflow⟩, ⟨16, .quad, placeOf regs (area + 24)⟩]

/- The words of the area, for registers of some values. -/
def areaCells
    (v : VaStart)
    (regs : Reg → BitVec 64)
    (vectors : Nat → BitVec 64)
    (area : Int) : List Cell :=
  headCells v regs area ++
  (argRegs.zipIdx.map fun (r, i) =>
    ⟨24 + i * 8, .quad, regs r⟩) ++
  (List.range vectorCount).map fun i =>
    ⟨72 + i * 8, .quad, vectors i⟩

/- The code stores these words and changes nothing else. -/
theorem exec_saveRegisters (params : List CType) (area : Int) (p : Processor) :
    ∃ p', p.execAll? (saveRegisters params area) = some p' ∧
      p'.machine.regs = p.machine.regs ∧ p'.vectors = p.vectors ∧
      p'.machine.mem = p.machine.mem.fill (placeOf p.machine.regs area)
          (areaCells (VaStart.written params) p.machine.regs p.vectors area) := by
  let v := VaStart.written params
  let general (x : Reg × Nat) : List Instr :=
    [.movWide .quad (.reg x.1 .quad) (.slot (area + 24 + (x.2 : Int) * 8))]
  let vector (i : Nat) : List Instr :=
    [.sse (.move .double) (.xmm i) (.slot (area + 72 + (i : Int) * 8))]
  let iss : List (List Instr) :=
    [[.movWide .long (.imm v.gp) (.slot area)], [.movWide .long (.imm v.fp) (.slot (area + 4))],
      [.movWide .quad .rbp (.slot (area + 8)),
        .aluWide .add .quad (.imm v.overflow) (.slot (area + 8))],
      [.movWide .quad .rbp (.slot (area + 16)),
        .aluWide .add .quad (.imm (area + 24)) (.slot (area + 16))]] ++
    argRegs.zipIdx.map general ++ (List.range vectorCount).map vector
  have hCode : saveRegisters params area = iss.flatten := rfl
  rw [hCode]
  refine puts_all ?_ p rfl rfl
  refine List.rel_append (List.rel_append ?_ ?_) ?_
  · exact .cons (puts_number _ (by omega)) (.cons (puts_number _ rfl)
        (.cons (puts_sum _ rfl) (.cons (puts_sum _ rfl) .nil)))
  · rw [List.forall₂_map_left_iff, List.forall₂_map_right_iff, List.forall₂_same]
    exact fun x _ => puts_general x.1 (by push_cast; omega)
  · rw [List.forall₂_map_left_iff, List.forall₂_map_right_iff, List.forall₂_same]
    exact fun i _ => puts_vector i (by push_cast; omega)

/- The words lie one behind the other in 136 bytes. -/
theorem rising_areaCells (v : VaStart) (regs : Reg → BitVec 64) (vectors : Nat → BitVec 64)
    (area : Int) : Memory.Rising (areaCells v regs vectors area) 136 := by
  have hSpans : (areaCells v regs vectors area).map
      (fun c => (c.offset, c.next)) = [(0, 4), (4, 8), (8, 16), (16, 24)] ++
          (List.range 14).map fun i => (24 + i * 8, 32 + i * 8) := rfl
  have hDecided : ([(0, 4), (4, 8), (8, 16), (16, 24)] ++ (List.range 14).map fun i =>
          (24 + i * 8, 32 + i * 8)).Pairwise (fun x y : Nat × Nat => x.2 ≤ y.1) ∧
      ∀ x ∈ ([(0, 4), (4, 8), (8, 16), (16, 24)] ++ (List.range 14).map fun i =>
          (24 + i * 8, 32 + i * 8) : List (Nat × Nat)),
        x.2 ≤ 136 := by
    decide
  rw [← hSpans, List.pairwise_map, List.forall_mem_map] at hDecided
  exact hDecided

/-
  What a function with variable arguments finds in its area:
  the two counts, the address of the arguments on the stack,
  that of the saved registers, and these.
-/
structure Prepared
    (v : VaStart)
    (area : Int)
    (p p' : Processor) : Prop where
  gp : p'.machine.mem.load (placeOf p.machine.regs area)
    .long = BitVec.ofInt 32 v.gp
  fp : p'.machine.mem.load
    (placeOf p.machine.regs area + BitVec.ofNat 64 4) .long =
      BitVec.ofInt 32 v.fp
  overflow : p'.machine.mem.load
    (placeOf p.machine.regs area + BitVec.ofNat 64 8) .quad =
      placeOf p.machine.regs v.overflow
  saved : p'.machine.mem.load
    (placeOf p.machine.regs area + BitVec.ofNat 64 16) .quad =
      placeOf p.machine.regs (area + 24)
  general : ∀ n < generalCount,
    p'.machine.mem.load
      (placeOf p.machine.regs (area + 24) + BitVec.ofNat 64 (n * 8)) .quad =
      p.machine.regs (argReg n)
  vector : ∀ n < vectorCount,
    p'.machine.mem.load
      (placeOf p.machine.regs (area + 24) +
        BitVec.ofNat 64 (48 + n * 8)) .quad = p.vectors n
  outside : ∀ a,
    (∀ i < 136, a ≠ placeOf p.machine.regs area + BitVec.ofNat 64 i) →
      p'.machine.mem a = p.machine.mem a
  regs : p'.machine.regs = p.machine.regs
  vectors : p'.vectors = p.vectors

/- The code prepares the area. -/
theorem prepared_saveRegisters (params : List CType) (area : Int) (p : Processor) :
    ∃ p', p.execAll? (saveRegisters params area) = some p' ∧
      Prepared (VaStart.written params) area p p' := by
  obtain ⟨p', hExec, hRegs, hVectors, hMem⟩ := exec_saveRegisters params area p
  have hRising := rising_areaCells (VaStart.written params) p.machine.regs p.vectors area
  have hLoad : ∀ c ∈ areaCells (VaStart.written params) p.machine.regs p.vectors area,
      p'.machine.mem.load (placeOf p.machine.regs area +
        BitVec.ofNat 64 c.offset) c.width = c.value := by
    intro c hc
    rw [hMem]
    exact Memory.load_fill hRising (by decide) hc
  have hSaved (n : Nat) : placeOf p.machine.regs (area + 24) + BitVec.ofNat 64 n =
        placeOf p.machine.regs area + BitVec.ofNat 64 (24 + n) := by
    rw [← placeOf_add, ← placeOf_add]
    congr 1
    push_cast
    omega
  have hHead : ∀ c ∈ headCells (VaStart.written params) p.machine.regs area,
      p'.machine.mem.load (placeOf p.machine.regs area +
        BitVec.ofNat 64 c.offset) c.width = c.value :=
    fun c hc => hLoad c (List.mem_append_left _ (List.mem_append_left _ hc))
  simp only [headCells, List.forall_mem_cons] at hHead
  obtain ⟨hGp, hFp, hOverflow, hAddress, -⟩ := hHead
  rw [BitVec.add_zero] at hGp
  refine ⟨p', hExec, {
    gp := hGp
    fp := hFp
    overflow := hOverflow
    saved := hAddress
    general := ?_
    vector := ?_
    outside := ?_
    regs := hRegs
    vectors := hVectors }⟩
  · intro n hn
    have hMember : ∀ n < generalCount, (argReg n, n) ∈ argRegs.zipIdx := by decide
    rw [hSaved]
    exact hLoad ⟨24 + n * 8, .quad, _⟩ (List.mem_append_left _ (List.mem_append_right _
        (List.mem_map.mpr ⟨_, hMember n hn, rfl⟩)))
  · intro n hn
    have hPlace : 24 + (48 + n * 8) = 72 + n * 8 := by omega
    rw [hSaved, hPlace]
    exact hLoad ⟨72 + n * 8, .quad, _⟩ (List.mem_append_right _
        (List.mem_map.mpr ⟨n, List.mem_range.mpr hn, rfl⟩))
  · intro a hOutside
    rw [hMem]
    refine Memory.fill_outside fun c hc i hi => ?_
    have hEnd := hRising.2 c hc
    rw [Cell.next] at hEnd
    exact hOutside _ (by omega)

end Codegen

end CCompiler
