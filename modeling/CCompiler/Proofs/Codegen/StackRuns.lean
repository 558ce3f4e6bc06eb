import Mathlib
import CCompiler.Proofs.Codegen.Levels

/-
  The stack pointer along the runs of code.

  Code is followed line by line and along its jumps.  What is
  known of the stack pointer at a line is its distance, up to
  units of 16 bytes, from where it was before the code: this is
  the height of the line, as long as jumps lead to lines of the
  same height.  Numbered labels and digits do; labels without
  numbers have to.  The size by which a frame grows is followed
  from the line that rounds it.

  Main declarations:
    * `Codegen.Point`, `Codegen.Flow`, `Codegen.Run`
    * `Codegen.NamedLevel`, `Codegen.namedLevel_of_fits`
    * `Codegen.Aligned`, `Codegen.Aligned.run`
-/

------------
-- Steps of Code
------------

namespace CCompiler

open Assembly

namespace Codegen

/-
  A place in the code, with the stack pointer and the register
  that holds the size by which a frame grows.
-/
structure Point where
  place : Nat
  rsp : BitVec 64
  rdi : BitVec 64

end Codegen

open Codegen

namespace Assembly

namespace Instr

/- How an instruction moves the stack pointer. -/
def MovesStack (i : Instr) (p q : Point) : Prop :=
  if i.isGrowth then q.rsp = p.rsp - p.rdi
  else if i.isKnown then q.rsp = p.rsp - BitVec.ofInt 64 i.sinks
  else True

/-
  What is known of the other register: a mask is applied to its
  low half, and instructions that write elsewhere keep it.
-/
def MovesSize (i : Instr) (p q : Point) : Prop :=
  match i with
  | .alu .and (.mask m) (.reg .rdi .long) =>
    q.rdi = (p.rdi.setWidth 32 &&& BitVec.ofNat 32 m).setWidth 64
  | .mov _ (.reg r _) | .alu _ _ (.reg r _) =>
    r ≠ .rdi → q.rdi = p.rdi
  | _ => True

end Instr

namespace Line

/-
  How a line changes the registers.  Lines without instructions
  leave the stack alone, those that are copied into the code
  with them.
-/
def Moves (l : Line) (p q : Point) : Prop :=
  match l.instr? with
  | none => q.rsp = p.rsp
  | some i => i.MovesStack p q ∧ i.MovesSize p q

/- Whether the next line may come after a line. -/
def falls : Line → Bool
| .instr (.jump _) | .instr (.jumpTo _) | .instr .ret => false
| _ => true

/- Whether a line may jump to a label that has no number. -/
def mayGoTo (l : Line) : Line → Bool
| .label (.named name) =>
  l.target? == some (.label (.named name)) ||
    match l with
    | .instr (.jumpTo _) => true
    | _ => false
| .label (.epilogue name) =>
  l.target? == some (.label (.epilogue name))
| _ => false

end Line

end Assembly

namespace Codegen

/- Where code goes on after a line of it. -/
inductive Flow (code : List Line) (l : Line) (i : Nat) :
    Nat → Prop
| next :
    l.falls = true → Flow code l i (i + 1)
| label {j : Nat} {t : Label} :
    l.target? = some (.label t) → (∀ n, t ≠ .digit n) →
    code[j]? = some (.label t) → Flow code l i j
| forward {j n : Nat} :
    l.target? = some (.forward n) → i < j →
    code[j]? = some (.label (.digit n)) → (∀ m, i < m → m < j →
      code[m]? ≠ some (.label (.digit n))) → Flow code l i j
| back {j n : Nat} :
    l.target? = some (.back n) → j < i → code[j]? = some (.label (.digit n)) →
    (∀ m, j < m → m < i → code[m]? ≠ some (.label (.digit n))) → Flow code l i j
| computed {j : Nat} {r : Reg} {name : Bytes} :
    l = .instr (.jumpTo r) →
    code[j]? = some (.label (.named name)) → Flow code l i j

/- A step from a line to one that comes after it. -/
def Step (code : List Line) (p q : Point) : Prop :=
  ∃ l, code[p.place]? = some l ∧ l.Moves p q ∧ Flow code l p.place q.place

/- Any number of steps. -/
def Run (code : List Line) : Point → Point → Prop :=
  Relation.ReflTransGen (Step code)

/- The bytes that are pushed at a place of the code. -/
def heightAt (code : List Line) (i : Nat) : Int :=
  sunk (code.take i)

/-
  Code whose jumps to labels without a number lead to lines of
  the same height.
-/
def NamedLevel (code : List Line) : Prop :=
  ∀ i, ∀ hi : i < code.length, ∀ j, ∀ hj : j < code.length,
    code[i].mayGoTo code[j] = true → heightAt code i = heightAt code j

instance  (code : List Line) : Decidable (NamedLevel code) :=
  inferInstanceAs (Decidable (∀ i, ∀ hi : i < code.length, ∀ j, ∀ hj : j < code.length,
      code[i].mayGoTo code[j] = true → heightAt code i = heightAt code j))

variable {i : Nat} {l : Line}

------------
-- Heights Along Jumps
------------

theorem heightAt_succ {code : List Line} (hLine : code[i]? = some l) :
    heightAt code (i + 1) = heightAt code i + l.sinks := by
  rw [heightAt, heightAt, List.take_add_one, hLine, sunk_append]
  simp

variable {n j : Nat}

/- The first digit that is reached is at the same height. -/
theorem Reaches.sunk_take {ls : List Line} (hReaches : Reaches n ls)
    (hHere : ls[j]? = some (.label (.digit n)))
    (hFirst : ∀ m < j, ls[m]? ≠ some (.label (.digit n))) : sunk (ls.take j) = 0 := by
  induction ls generalizing j with
  | nil => exact hReaches.elim
  | cons l ls ih =>
    cases j with
    | zero => rfl
    | succ j =>
      rcases hReaches with rfl | ⟨-, hLevel, hRest⟩
      · exact absurd rfl (hFirst 0 (Nat.succ_pos j))
      · have hTail := ih hRest (by simpa using hHere) fun m hm => by
            simpa using hFirst (m + 1) (Nat.succ_lt_succ hm)
        rw [List.take_succ_cons, sunk_cons, hLevel, hTail]
        rfl

/- What tidy code has at a place. -/
theorem Tidy.at {before ls : List Line} (hTidy : Tidy before ls) {i : Nat} {l : Line}
    (hLine : ls[i]? = some l) :
    (∀ n, l.target? = some (.forward n) → Reaches n (ls.drop (i + 1))) ∧
    (∀ n, l.target? = some (.back n) → Reaches n ((ls.take i).reverse ++ before)) ∧
    (l.isGrowth = true → ∃ bottom, (roundingInstrs bottom).map .instr <+:
        (ls.take i).reverse ++ before) := by
  induction ls generalizing before i with
  | nil => simp at hLine
  | cons l' ls ih =>
    obtain ⟨hForward, hBack, hGrowth, hRest⟩ := hTidy
    cases i with
    | zero =>
      obtain rfl : l' = l := by simpa using hLine
      exact ⟨hForward, hBack, hGrowth⟩
    | succ i =>
      have hTail := ih hRest (by simpa using hLine)
      simpa using hTail

theorem sunk_reverse (ls : List Line) : sunk ls.reverse = sunk ls := by
  simp [sunk, List.sum_reverse]

/- A line that jumps leaves the stack alone. -/
theorem sinks_of_target {t : JumpTarget} (hTarget : l.target? = some t) : l.sinks = 0 := by
  unfold Line.target? at hTarget
  obtain ⟨i, hInstr, hJump⟩ := Option.bind_eq_some_iff.mp hTarget
  have hNone : i.sinks = 0 := by
    cases i with
    | jump t | jumpIf c t | jumpIfPadded c t => rfl
    | _ => cases hJump
  rw [Line.sinks, hInstr]
  exact hNone

theorem number_of_target {r : LabelRole} (hTarget : l.target? = some (.label (.numbered r n))) :
    l.number? = some n := by
  unfold Line.number?
  split
  · cases hTarget
  · rename_i hSome
    rw [hTarget] at hSome
    cases hSome
    rfl
  · rename_i hOther
    exact absurd hTarget (hOther r n)

theorem heightAt_forward {code : List Line} (hLine : code[i]? = some l) (hLevel : l.sinks = 0)
    (hReaches : Reaches n (code.drop (i + 1))) (hBehind : i < j)
    (hHere : code[j]? = some (.label (.digit n)))
    (hFirst : ∀ m, i < m → m < j → code[m]? ≠ some (.label (.digit n))) :
    heightAt code j = heightAt code i := by
  obtain ⟨k, rfl⟩ := Nat.exists_eq_add_of_lt hBehind
  have hBetween := hReaches.sunk_take (j := k)
    (by rw [List.getElem?_drop]; convert hHere using 2; omega)
    (by
      intro m hm
      rw [List.getElem?_drop]
      exact hFirst _ (by omega) (by omega))
  have hSplit : code.take (i + k + 1) = code.take (i + 1) ++ (code.drop (i + 1)).take k := by
    rw [← List.take_add]
    congr 1
    omega
  rw [heightAt, hSplit, sunk_append, hBetween, add_zero]
  change heightAt code (i + 1) = _
  rw [heightAt_succ hLine, hLevel, add_zero]

theorem heightAt_back {code : List Line} (hReaches : Reaches n (code.take i).reverse)
    (hBefore : j < i) (hInside : i ≤ code.length) (hHere : code[j]? = some (.label (.digit n)))
    (hLast : ∀ m, j < m → m < i → code[m]? ≠ some (.label (.digit n))) :
    heightAt code j = heightAt code i := by
  have hLength : (code.take i).length = i := by simp [hInside]
  have hReverse : ∀ m < i, (code.take i).reverse[m]? = code[i - 1 - m]? := by
    intro m hm
    rw [List.getElem?_reverse (by omega), hLength, List.getElem?_take_of_lt (by omega)]
  have hBetween := hReaches.sunk_take (j := i - 1 - j) (by
      rw [hReverse _ (by omega)]
      convert hHere using 2
      omega)
    (by
      intro m hm
      rw [hReverse _ (by omega)]
      exact hLast _ (by omega) (by omega))
  have hFront : (code.take i).take (j + 1) = code.take (j + 1) := by
    rw [List.take_take, Nat.min_eq_left (by omega)]
  have hSplit : code.take i = code.take (j + 1) ++ (code.take i).drop (j + 1) := by
    rw [← hFront, List.take_append_drop]
  have hTail : (code.take i).reverse.take (i - 1 - j) = ((code.take i).drop (j + 1)).reverse := by
    rw [List.take_reverse, hLength]
    congr 2
    omega
  rw [hTail, sunk_reverse] at hBetween
  rw [heightAt, heightAt, hSplit, sunk_append, hBetween, add_zero]
  change _ = heightAt code (j + 1)
  rw [heightAt_succ hHere]
  exact (add_zero _).symm

variable {S : Int → Prop} {floor h : Int} {G : Heights}
  {code : List Line}

/-
  Where code goes on is as high as the line before, and what
  that line pushes.
-/
theorem Flow.height (hFits : Along (Fits S floor G) h code) (hTidy : Tidy [] code)
    (hNamed : NamedLevel code) (hLine : code[i]? = some l) (hFlow : Flow code l i j) :
    heightAt code j = heightAt code i + l.sinks := by
  have hInside : ∀ {m : Nat} {l' : Line}, code[m]? = some l' →
      ∃ hm : m < code.length, code[m] = l' :=
    fun hMem => List.getElem?_eq_some_iff.mp hMem
  have hGoes : ∀ {l' : Line}, code[j]? = some l' → l.mayGoTo l' = true →
        heightAt code j = heightAt code i := by
    intro l' hThere hMay
    obtain ⟨hi, rfl⟩ := hInside hLine
    obtain ⟨hj, rfl⟩ := hInside hThere
    exact (hNamed i hi j hj hMay).symm
  cases hFlow with
  | next hFalls => exact heightAt_succ hLine
  | @label _ t hTarget hDigit hThere =>
    rw [sinks_of_target hTarget, add_zero]
    cases t with
    | numbered r n =>
      have hHere := (hFits.at hLine).number n (number_of_target hTarget)
      have hThat := (hFits.at hThere).number n rfl
      have hSame := hHere.2.symm.trans hThat.2
      unfold heightAt
      omega
    | digit n => exact absurd rfl (hDigit n)
    | _ => exact hGoes hThere (by simp [Line.mayGoTo, hTarget])
  | forward hTarget hBehind hThere hFirst =>
    rw [sinks_of_target hTarget, add_zero]
    exact heightAt_forward hLine (sinks_of_target hTarget)
      ((hTidy.at hLine).1 _ hTarget) hBehind hThere hFirst
  | back hTarget hBefore hThere hLast =>
    rw [sinks_of_target hTarget, add_zero]
    have hReaches := (hTidy.at hLine).2.1 _ hTarget
    rw [List.append_nil] at hReaches
    exact heightAt_back hReaches hBefore (hInside hLine).1.le hThere hLast
  | computed hJump hThere =>
    subst hJump
    refine (hGoes hThere ?_).trans (add_zero _).symm
    simp [Line.mayGoTo]

/- Where named labels are all at the lowest height. -/
theorem namedLevel_of_fits (hFits : Along (Fits (· = 0) floor G) 0 code) : NamedLevel code := by
  have hZero : ∀ {m : Nat} (hm : m < code.length),
      code[m].isNamed = true → heightAt code m = 0 := by
    intro m hm hNamed
    have hHere := (hFits.at (List.getElem?_eq_getElem hm)).named hNamed
    rwa [zero_add] at hHere
  intro i hi j hj hMay
  have hBoth : code[i].isNamed = true ∧ code[j].isNamed = true := by
    generalize code[i] = l at hMay
    generalize code[j] = l' at hMay
    unfold Line.mayGoTo at hMay
    split at hMay
    · refine ⟨?_, rfl⟩
      rcases (Bool.or_eq_true _ _).mp hMay with hTarget | hJump
      · have hLabel := eq_of_beq hTarget
        unfold Line.isNamed
        split <;> simp_all
      · split at hJump
        · rfl
        · cases hJump
    · refine ⟨?_, rfl⟩
      have hLabel := eq_of_beq hMay
      unfold Line.isNamed
      split <;> simp_all
    · cases hMay
  rw [hZero hi hBoth.1, hZero hj hBoth.2]

------------
-- Sizes of Growth
------------

/- Only labels are jumped to. -/
theorem Flow.eq_succ {l' : Line} (hFlow : Flow code l i j) (hThere : code[j]? = some l')
    (hInstr : l'.instr? ≠ none) : j = i + 1 := by
  cases hFlow with
  | next => rfl
  | label _ _ hLabel | forward _ _ hLabel _ | back _ _ hLabel _
  | computed _ hLabel =>
    rw [hLabel] at hThere
    cases hThere
    exact absurd rfl hInstr

/- What is masked is a number of 16 bytes. -/
theorem dvd_of_mask (x : BitVec 64) :
    16 ∣ ((x.setWidth 32 &&& BitVec.ofNat 32 0xfffffff0).setWidth 64).toNat := by
  rw [BitVec.toNat_setWidth_of_le (by decide), BitVec.toNat_and]
  refine Nat.dvd_of_mod_eq_zero ?_
  have hMod := Nat.and_mod_two_pow (n := 4) (a := (x.setWidth 32).toNat) (b := 0xfffffff0)
  simpa using hMod

/- The instructions before a growth, by their distances. -/
theorem Tidy.rounding (hTidy : Tidy [] code) (hLine : code[i]? = some l)
    (hGrowth : l.isGrowth = true) :
    ∃ bottom, ∀ m, m < 4 → m < i ∧ ∃ j, (roundingInstrs bottom)[m]? = some j ∧
        code[i - 1 - m]? = some (.instr j) := by
  obtain ⟨bottom, rest, hBefore⟩ := (hTidy.at hLine).2.2 hGrowth
  rw [List.append_nil] at hBefore
  have hInside := (List.getElem?_eq_some_iff.mp hLine).1
  have hLength : (code.take i).length = i := by rw [List.length_take, Nat.min_eq_left hInside.le]
  have hFour : 4 ≤ i := by
    have hSame := congrArg List.length hBefore
    rw [List.length_reverse, hLength, List.length_append, List.length_map] at hSame
    change 4 + rest.length = i at hSame
    omega
  refine ⟨bottom, fun m hm => ⟨by omega, ?_⟩⟩
  have hShort : m < (roundingInstrs bottom).length := hm
  have hInstr := List.getElem?_eq_getElem hShort
  refine ⟨_, hInstr, ?_⟩
  have hSame := congrArg (·[m]?) hBefore
  rw [List.getElem?_reverse (by omega), hLength, List.getElem?_take_of_lt (by omega),
    List.getElem?_append_left (by simpa using hShort),
    List.getElem?_map, hInstr] at hSame
  exact hSame.symm

variable {m : Nat} {q : Point}

/- The last three of them keep the size. -/
theorem keeps_size {bottom : Int} {i : Instr} {p : Point} (hm : m < 3)
    (hInstr : (roundingInstrs bottom)[m]? = some i) (hMoves : i.MovesSize p q) : q.rdi = p.rdi := by
  interval_cases m <;> cases hInstr <;> exact hMoves (by decide)

/-
  The stack pointer is as far from its place before the code
  as the code is high, up to units of 16 bytes, and a size is
  rounded before a frame grows by it.
-/
structure Aligned (code : List Line) (h : Int) (p : Point) :
    Prop where
  stack : 16 ∣ (p.rsp.toNat : Int) + (h + heightAt code p.place)
  size : ∀ m, m < 4 → ∀ l, code[p.place + m]? = some l →
    l.isGrowth = true → 16 ∣ p.rdi.toNat

/- At the first line nothing grows yet. -/
theorem Aligned.start (hTidy : Tidy [] code) {x y : BitVec 64} (hStack : 16 ∣ (x.toNat : Int) + h) :
    Aligned code h ⟨0, x, y⟩ where
  stack := by simpa [heightAt] using hStack
  size m hm l hLine hGrowth := by
    obtain ⟨_, hLines⟩ := hTidy.rounding hLine hGrowth
    have hFar : 3 < 0 + m := (hLines 3 (by decide)).1
    omega

/- A size stays rounded until the frame grows by it. -/
theorem Aligned.size_step (hTidy : Tidy [] code) {p : Point} (hStep : Step code p q)
    (hHere : Aligned code h p) (hm : m < 4) (hLine : code[q.place + m]? = some l)
    (hGrowth : l.isGrowth = true) : 16 ∣ q.rdi.toNat := by
  obtain ⟨l', hLine', hMoves, hFlow⟩ := hStep
  obtain ⟨bottom, hLines⟩ := hTidy.rounding hLine hGrowth
  -- The place is not a label, so the line before leads to it.
  have hNext : q.place = p.place + 1 := by
    cases m with
    | zero =>
      refine hFlow.eq_succ hLine fun hNone => ?_
      simp [Line.isGrowth, hNone] at hGrowth
    | succ m =>
      obtain ⟨-, i, -, hThere⟩ := hLines m (by omega)
      have hPlace : q.place + (m + 1) - 1 - m = q.place := by omega
      rw [hPlace] at hThere
      exact hFlow.eq_succ hThere (by simp [Line.instr?])
  obtain ⟨-, i, hInstr, hBefore⟩ := hLines m hm
  have hPlace : q.place + m - 1 - m = p.place := by omega
  rw [hPlace, hLine'] at hBefore
  cases hBefore
  rcases Nat.lt_succ_iff_lt_or_eq.mp hm with hMore | rfl
  · rw [keeps_size hMore hInstr hMoves.2]
    refine hHere.size (m + 1) (by omega) l ?_ hGrowth
    rw [← hLine, hNext]
    congr 1
    omega
  · cases hInstr
    have hMask := hMoves.2
    unfold Instr.MovesSize at hMask
    rw [hMask]
    exact dvd_of_mask _

/- A known line moves the stack by what it pushes. -/
theorem dvd_of_moves {p : Point} (hKnown : ∀ i, l.instr? = some i → i.isKnown = true)
    (hSize : l.isGrowth = true → 16 ∣ p.rdi.toNat) (hMoves : l.Moves p q)
    (hHere : 16 ∣ (p.rsp.toNat : Int) + h) : 16 ∣ (q.rsp.toNat : Int) + (h + l.sinks) := by
  unfold Line.Moves at hMoves
  unfold Line.isGrowth at hSize
  unfold Line.sinks
  cases hInstr : l.instr? with
  | none =>
    rw [hInstr] at hMoves
    rw [hMoves]
    simpa using hHere
  | some i =>
    simp only [hInstr, Instr.MovesStack, hKnown i hInstr, if_true] at hMoves
    simp only [hInstr, Option.map_some, Option.getD_some] at hSize ⊢
    obtain ⟨hMoves, -⟩ := hMoves
    split at hMoves
    · rename_i hGrowth
      have hNone : i.sinks = 0 := by
        unfold Instr.isGrowth at hGrowth
        split at hGrowth
        · rfl
        · cases hGrowth
      have hUnits := hSize hGrowth
      rw [hNone, hMoves, BitVec.toNat_sub]
      omega
    · rw [hMoves, BitVec.toNat_sub, BitVec.toNat_ofInt]
      omega

/- What a step keeps. -/
theorem Aligned.step (hFits : Along (Fits S floor G) h code) (hTidy : Tidy [] code)
    (hNamed : NamedLevel code) {p : Point} (hHere : Aligned code h p) (hStep : Step code p q) :
    Aligned code h q where
  stack := by
    obtain ⟨l, hLine, hMoves, hFlow⟩ := hStep
    have hThere := dvd_of_moves (hFits.at hLine).known
      (hHere.size 0 (by decide) l hLine) hMoves hHere.stack
    rwa [add_assoc, ← hFlow.height hFits hTidy hNamed hLine] at hThere
  size m hm l hLine hGrowth := hHere.size_step hTidy hStep hm hLine hGrowth

/-
  Along every run the stack pointer is as far below its place
  before the code as the code is high, up to units of 16 bytes.
-/
theorem Aligned.run (hFits : Along (Fits S floor G) h code) (hTidy : Tidy [] code)
    (hNamed : NamedLevel code) {p : Point} (hStart : Aligned code h p) (hRun : Run code p q) :
    Aligned code h q := by
  induction hRun with
  | refl => exact hStart
  | tail _ hStep ih => exact ih.step hFits hTidy hNamed hStep

/- Calls are aligned. -/
theorem Aligned.call (hFits : Along (Fits S floor G) h code) {p : Point}
    (hHere : Aligned code h p) (hCall : code[p.place]? = some (.instr (.callTo .r10))) :
    16 ∣ p.rsp.toNat := by
  have hStack := hHere.stack
  have hEven := (hFits.at hCall).call rfl
  unfold heightAt at hStack
  omega

------------
-- Runs without Jumps
------------

/-
  A line that leads to the next one and moves the stack by what
  it pushes.
-/
def passes (l : Line) : Bool :=
  l.falls && (l.instr?.map fun i =>
    i.isKnown && !i.isGrowth).getD true

/- A line that passes makes a step. -/
theorem exists_step {p : Point} (hLine : code[p.place]? = some l) (hPass : passes l = true) :
    ∃ y, Step code p ⟨p.place + 1, p.rsp - BitVec.ofInt 64 l.sinks, y⟩ := by
  rw [passes, Bool.and_eq_true] at hPass
  obtain ⟨hFalls, hInstr⟩ := hPass
  have hFlow : Flow code l p.place (p.place + 1) := .next hFalls
  cases hNone : l.instr? with
  | none =>
    refine ⟨p.rdi, l, hLine, ?_, hFlow⟩
    simp [Line.Moves, Line.sinks, hNone]
  | some i =>
    simp only [hNone, Option.map_some, Option.getD_some,
      Bool.and_eq_true, Bool.not_eq_true'] at hInstr
    have hStack : ∀ y, i.MovesStack p ⟨p.place + 1, p.rsp - BitVec.ofInt 64 l.sinks, y⟩ := by
      simp [Instr.MovesStack, hInstr, Line.sinks, hNone]
    have hSize : ∃ y, i.MovesSize p ⟨p.place + 1, p.rsp - BitVec.ofInt 64 l.sinks, y⟩ := by
      unfold Instr.MovesSize
      split
      · exact ⟨_, rfl⟩
      · exact ⟨p.rdi, fun _ => rfl⟩
      · exact ⟨p.rdi, fun _ => rfl⟩
      · exact ⟨p.rdi, trivial⟩
    obtain ⟨y, hSize⟩ := hSize
    refine ⟨y, l, hLine, ?_, hFlow⟩
    rw [Line.Moves, hNone]
    exact ⟨hStack y, hSize⟩

/- Lines that pass are run one after the other. -/
theorem exists_run (n : Nat) {p : Point} (hInside : p.place + n ≤ code.length)
    (hPass : ∀ l ∈ (code.drop p.place).take n, passes l = true) :
    ∃ y, Run code p ⟨p.place + n, p.rsp - BitVec.ofInt 64
      (sunk ((code.drop p.place).take n)), y⟩ := by
  induction n generalizing p with
  | zero =>
    refine ⟨p.rdi, ?_⟩
    have hNone : BitVec.ofInt 64 (sunk []) = 0#64 := rfl
    rw [List.take_zero, hNone, BitVec.sub_zero]
    exact .refl
  | succ n ih =>
    have hHere : p.place < code.length := by omega
    rw [List.drop_eq_getElem_cons hHere, List.take_succ_cons] at hPass ⊢
    rw [List.forall_mem_cons] at hPass
    obtain ⟨y, hStep⟩ := exists_step (List.getElem?_eq_getElem hHere) hPass.1
    obtain ⟨z, hRest⟩ := ih (p := ⟨p.place + 1, p.rsp - BitVec.ofInt 64
        code[p.place].sinks, y⟩) (by change _ + 1 + n ≤ _; omega)
      hPass.2
    have hPlace : p.place + (n + 1) = p.place + 1 + n := by omega
    rw [sunk_cons, BitVec.ofInt_add, sub_add_eq_sub_sub, hPlace]
    exact ⟨z, .head hStep hRest⟩

end Codegen

end CCompiler
