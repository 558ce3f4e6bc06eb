import Mathlib
import CCompiler.Proofs.Codegen.RecordReturns
import CCompiler.Proofs.Codegen.StackHeight

/-
  Code that leaves the stack as high as it found it.

  The depth that is counted while code is written is the
  number of eightbytes that the code itself pushes.  All lines
  of a construct are at or above a floor, its calls are at an
  even depth, and the lines that mention a numbered label are
  at one height.

  Main declarations:
    * `Codegen.Heights`, `Codegen.Fits`, `Codegen.Lays`
    * `Codegen.Emit.Keeps`, `Codegen.Emit.Goes`
    * `Codegen.Emit.Level`
-/

------------
-- Code at a Height
------------

namespace CCompiler

open Assembly

namespace Codegen

/- Heights for the labels numbered up to a count. -/
structure Heights where
  count : Nat
  height : Nat → Int

namespace Heights

/- More labels, and the same heights for those before. -/
structure Grows (G G' : Heights) : Prop where
  count : G.count ≤ G'.count
  height : ∀ n ≤ G.count, G'.height n = G.height n

/- A label that has a height. -/
def Marks (G : Heights) (n : Nat) (h : Int) : Prop :=
  n ≤ G.count ∧ G.height n = h

variable {G G' G'' : Heights} {n : Nat} {h : Int}

theorem Grows.refl (G : Heights) : G.Grows G := ⟨le_rfl, fun _ _ => rfl⟩

theorem Grows.trans (hFirst : G.Grows G') (hNext : G'.Grows G'') : G.Grows G'' where
  count := hFirst.count.trans hNext.count
  height n hn := by rw [hNext.height n (hn.trans hFirst.count), hFirst.height n hn]

theorem Marks.mono (hGrows : G.Grows G') (hMarks : G.Marks n h) : G'.Marks n h :=
  ⟨hMarks.1.trans hGrows.count, (hGrows.height n hMarks.1).trans hMarks.2⟩

end Heights

/-
  What holds of each line: it is at or above a floor, a call
  is at a multiple of 16, a numbered label has this height,
  a label without a number is at a height out of some set, and
  it is known how the line moves the stack.
-/
structure Fits
    (S : Int → Prop)
    (floor : Int)
    (G : Heights)
    (h : Int)
    (l : Line) : Prop where
  floor : floor ≤ h
  call : l = .instr (.callTo .r10) → 16 ∣ h
  number : ∀ n, l.number? = some n → G.Marks n h
  named : l.isNamed = true → S h
  known : ∀ i, l.instr? = some i → i.isKnown = true

theorem Fits.mono {S : Int → Prop} {floor floor' h : Int} {G G' : Heights} {l : Line}
    (hFloor : floor' ≤ floor) (hGrows : G.Grows G') (hFits : Fits S floor G h l) :
    Fits S floor' G' h l :=
  { hFits with
    floor := hFloor.trans hFits.floor
    number := fun n hn => (hFits.number n hn).mono hGrows }

/-
  Code from one depth to another, with the heights of labels
  before and after it.
-/
structure Lays
    (S : Int → Prop)
    (low d e : Int)
    (G G' : Heights)
    (code : List Line) : Prop where
  grows : G.Grows G'
  ends : 8 * d + sunk code = 8 * e
  fits : Along (Fits S (8 * low) G') (8 * d) code
  tidy : Tidy [] code

variable {S : Int → Prop} {low d e f : Int}
  {G G' G'' : Heights}

theorem Lays.append {xs ys : List Line} (hFirst : Lays S low d e G G' xs)
    (hRest : Lays S low e f G' G'' ys) : Lays S low d f G G'' (xs ++ ys) where
  grows := hFirst.grows.trans hRest.grows
  ends := by
    have hMid := hFirst.ends
    have hEnd := hRest.ends
    rw [sunk_append]
    omega
  fits := by
    rw [along_append, hFirst.ends]
    exact ⟨hFirst.fits.mono fun _ _ hFits => hFits.mono le_rfl hRest.grows, hRest.fits⟩
  tidy := hFirst.tidy.append hRest.tidy

/- A line that is plain, or one that mentions a label. -/
def Near (n? : Option Nat) (ls : List Line) : Prop :=
  ∀ l ∈ ls, l.isPlain = true ∨ l.number? ≠ none ∧ l.number? = n?

theorem Near.of_plain {ls : List Line} (hPlain : LinesArePlain ls) :
    Near none ls := fun l hl => .inl (hPlain l hl)

end Codegen

variable {i : Instr}

/- What is known of a plain instruction. -/
theorem Assembly.Instr.facts_of_isPlain (hPlain : i.isPlain = true) :
    i.sinks = 0 ∧ i.isKnown = true ∧ i ≠ .callTo .r10 ∧ i.target? = none ∧ i.isGrowth = false ∧
        ∀ r, i ≠ .jumpTo r := by
  cases i with
  | alu op src dst =>
    have hDest : dst.isStack = false := by simpa [isPlain, dests] using hPlain
    refine ⟨?_, by simp [isKnown, dests, hDest], by simp, rfl, ?_, by simp⟩
    · unfold sinks
      split <;> simp_all [Operand.isStack]
    · unfold isGrowth
      split <;> simp_all [Operand.isStack]
  | push r | pop r | callTo r | jumpTo r | jump t | jumpIf c t
  | jumpIfPadded c t => cases hPlain
  | _ => exact ⟨rfl, (Bool.or_eq_true _ _).mpr (.inr hPlain), by simp, rfl, rfl, by simp⟩

namespace Codegen

variable {S : Int → Prop} {low d e f : Int}
  {G G' : Heights}

variable {l : Line} {h floor : Int}

/- A plain line fits at every height above the floor. -/
theorem facts_of_plain (hPlain : l.isPlain = true) (hFloor : floor ≤ h) :
    l.sinks = 0 ∧ Fits S floor G h l ∧ l.Steady := by
  have hInstr : ∀ i : Instr, l.instr? = some i → i.isPlain = true := by
    intro i hi
    cases l with
    | instr j | noted j note =>
      obtain rfl : j = i := by simpa [Line.instr?] using hi
      exact hPlain
    | _ => cases hi
  have hTarget : l.target? = none := by
    cases hLine : l.instr? with
    | none => rw [Line.target?, hLine]; rfl
    | some i =>
      rw [Line.target?, hLine]
      exact (Instr.facts_of_isPlain (hInstr i hLine)).2.2.2.1
  have hNumber : ∀ n, l.number? ≠ some n := by
    intro n
    unfold Line.number?
    rw [hTarget]
    cases l with
    | label label => cases hPlain
    | _ => simp
  have hNamed : l.isNamed ≠ true := by
    unfold Line.isNamed
    rw [hTarget]
    cases l with
    | label label => cases hPlain
    | instr i =>
      have hJump := (Instr.facts_of_isPlain hPlain).2.2.2.2.2
      cases i with
      | jumpTo r => exact absurd rfl (hJump r)
      | _ => simp
    | _ => simp
  refine ⟨?_, ⟨hFloor, ?_, fun n hn => absurd hn (hNumber n),
    fun hn => absurd hn hNamed, ?_⟩, ?_, by simp [hTarget]⟩
  · cases hLine : l.instr? with
    | none => rw [Line.sinks, hLine]; rfl
    | some i =>
      rw [Line.sinks, hLine]
      exact (Instr.facts_of_isPlain (hInstr i hLine)).1
  · rintro rfl
    cases hPlain
  · exact fun i hi => (Instr.facts_of_isPlain (hInstr i hi)).2.1
  · cases hLine : l.instr? with
    | none => rw [Line.isGrowth, hLine]; rfl
    | some i =>
      rw [Line.isGrowth, hLine]
      exact (Instr.facts_of_isPlain (hInstr i hLine)).2.2.2.2.1

/- A line that mentions a label at the height of this. -/
theorem facts_of_number {n : Nat} (hNumber : l.number? = some n) (hMarks : G.Marks n h)
    (hFloor : floor ≤ h) : l.sinks = 0 ∧ Fits S floor G h l ∧ l.Steady := by
  have hOnly : ∀ k, l.number? = some k → G.Marks k h := by
    intro k hk
    rw [hNumber] at hk
    cases hk
    exact hMarks
  cases l with
  | label label =>
    cases label with
    | numbered r k =>
      exact ⟨rfl, ⟨hFloor, by simp, hOnly, by rintro ⟨⟩,
        by rintro i ⟨⟩⟩, rfl, by simp [Line.target?, Line.instr?]⟩
    | _ => cases hNumber
  | instr i | noted i note =>
    cases i with
    | jump t | jumpIf c t | jumpIfPadded c t =>
      cases t with
      | label label =>
        cases label with
        | numbered r k =>
          exact ⟨rfl, ⟨hFloor, by simp, hOnly, by rintro ⟨⟩, by rintro j ⟨⟩; rfl⟩,
            rfl, by simp [Line.target?, Line.instr?, Instr.target?]⟩
        | _ => cases hNumber
      | forward k | back k => cases hNumber
    | _ => cases hNumber
  | directive x | verbatim x => cases hNumber

/- A line about a label without a number, at such a height. -/
theorem facts_of_named (hNamed : l.isNamed = true) (hHeight : S h) (hFloor : floor ≤ h) :
    l.sinks = 0 ∧ Fits S floor G h l ∧ l.Steady := by
  cases l with
  | label label =>
    cases label with
    | named name | epilogue name =>
      exact ⟨rfl, ⟨hFloor, by simp, by rintro n ⟨⟩, fun _ => hHeight, by rintro i ⟨⟩⟩,
        rfl, by simp [Line.target?, Line.instr?]⟩
    | numbered r n | digit n => cases hNamed
  | instr i | noted i note =>
    cases i with
    | jump t | jumpIf c t | jumpIfPadded c t =>
      cases t with
      | label label =>
        cases label with
        | named name | epilogue name =>
          exact ⟨rfl, ⟨hFloor, by simp, by rintro n ⟨⟩, fun _ => hHeight, by rintro j ⟨⟩; rfl⟩,
            rfl, by simp [Line.target?, Line.instr?, Instr.target?]⟩
        | numbered r n | digit n => cases hNamed
      | forward k | back k => cases hNamed
    | jumpTo r =>
      exact ⟨rfl, ⟨hFloor, by simp, by rintro n ⟨⟩, fun _ => hHeight, by rintro j ⟨⟩; rfl⟩,
        rfl, by simp [Line.target?, Line.instr?, Instr.target?]⟩
    | _ => cases hNamed
  | directive x | verbatim x => cases hNamed

variable {is : List Instr}

------------
-- Computations
------------

namespace Emit

variable {α β : Type}

/-
  What a computation that is run at a depth writes, above a
  floor and with heights for the labels that it numbers.
-/
def Keeps
    (S : Int → Prop)
    (low d : Int)
    (G : Heights)
    (x : Emit α)
    (Q : α → Int → Heights → Prop) : Prop :=
  ∀ r, x ⟨d, G.count⟩ = .ok r → ∃ G' : Heights, G'.count = r.counters.labels ∧
      Lays S low d r.counters.depth G G' r.code ∧ Q r.value r.counters.depth G'

/- A computation that leads from one depth to another. -/
def Goes (S : Int → Prop) (low d e : Int) (x : Emit α) : Prop :=
  ∀ G, Keeps S low d G x fun _ e' _ => e' = e

/-
  A computation that leads from every depth above the floor
  back to this depth.
-/
def Level (S : Int → Prop) (low : Int) (x : Emit α) : Prop :=
  ∀ d, low ≤ d → Goes S low d d x

variable {x : Emit α} {k : α → Emit β}
  {Q : α → Int → Heights → Prop} {R : β → Int → Heights → Prop}

theorem Keeps.bind (hFirst : Keeps S low d G x Q)
    (hRest : ∀ a e G', G.Grows G' → Q a e G' → Keeps S low e G' (k a) R) :
    Keeps S low d G (x >>= k) R := by
  intro r hRun
  obtain ⟨a, b, hOne, hTwo, rfl⟩ := Emit.exists_steps hRun
  obtain ⟨G₁, hCount, hLays, hValue⟩ := hFirst a hOne
  have hState : a.counters = ⟨a.counters.depth, G₁.count⟩ := by rw [hCount]
  rw [hState] at hTwo
  obtain ⟨G₂, hCount₂, hLays₂, hValue₂⟩ := hRest _ _ _ hLays.grows hValue b hTwo
  exact ⟨G₂, hCount₂, hLays.append hLays₂, hValue₂⟩

/- A computation that leads to a depth, and another one. -/
theorem Keeps.next (hFirst : Keeps S low d G x fun _ e' _ => e' = e)
    (hRest : ∀ a G', G.Grows G' → Keeps S low e G' (k a) R) : Keeps S low d G (x >>= k) R := by
  refine hFirst.bind ?_
  rintro a e' G' hGrows rfl
  exact hRest a G' hGrows

theorem Goes.bind (hFirst : Goes S low d e x) (hRest : ∀ a, Goes S low e f (k a)) :
    Goes S low d f (x >>= k) := fun G => (hFirst G).next fun a G' _ => hRest a G'

theorem Goes.of_eq (hGoes : Goes S low d e x) (hEq : e = f) :
    Goes S low d f x := hEq ▸ hGoes

/- A computation that fails keeps everything. -/
theorem goes_stop (failure : Failure) : Goes S low d e (stop failure : Emit α) := by
  intro G r hRun
  cases hRun

theorem goes_fail (t : Token) (cause : Fault) :
    Goes S low d e (fail t cause : Emit α) := goes_stop _

theorem goes_pure (a : α) : Goes S low d d (pure a : Emit α) := by
  intro G r hRun
  cases hRun
  exact ⟨G, rfl, ⟨.refl G, by simp, trivial, trivial⟩, rfl⟩

variable {ls : List Line}

/- Steady lines that are at one height. -/
theorem keeps_flat (hFacts : ∀ l ∈ ls, l.sinks = 0 ∧ Fits S (8 * low) G (8 * d) l ∧ l.Steady) :
    Keeps S low d G (lines ls) fun _ e _ => e = d := by
  have hLevel : ∀ l ∈ ls, l.sinks = 0 := fun l hl => (hFacts l hl).1
  intro r hRun
  cases hRun
  refine ⟨G, rfl, ⟨.refl G, ?_, ?_, ?_⟩, rfl⟩
  · rw [sunk_level hLevel]
    exact add_zero _
  · exact along_level hLevel fun l hl => (hFacts l hl).2.1
  · exact tidy_of_steady fun l hl => (hFacts l hl).2.2

/- Lines that are at one height and mention one label. -/
theorem keeps_near (n? : Option Nat) (hFloor : low ≤ d) (hNear : Near n? ls)
    (hMarks : ∀ n, n? = some n → G.Marks n (8 * d)) :
    Keeps S low d G (lines ls) fun _ e _ => e = d := by
  refine keeps_flat fun l hl => ?_
  rcases hNear l hl with hPlain | ⟨hSome, hNumber⟩
  · exact facts_of_plain hPlain (by omega)
  · obtain ⟨n, hn⟩ := Option.ne_none_iff_exists'.mp hSome
    rw [hn] at hNumber
    exact facts_of_number hn (hMarks n hNumber.symm) (by omega)

theorem goes_lines (hFloor : low ≤ d) (hPlain : LinesArePlain ls) : Goes S low d d (lines ls) :=
  fun _ => keeps_near none hFloor (.of_plain hPlain) (by simp)

theorem goes_code (hFloor : low ≤ d) (hPlain : IsPlain is) :
    Goes S low d d (code is) := goes_lines hFloor hPlain.lines

/- Lines about named labels stand where these may stand. -/
theorem goes_calm (hFloor : low ≤ d) (hHeight : S (8 * d)) (hCalm : LinesAreCalm ls) :
    Goes S low d d (lines ls) := by
  refine fun G => keeps_flat fun l hl => ?_
  rcases hCalm l hl with hPlain | hNamed
  · exact facts_of_plain hPlain (by omega)
  · exact facts_of_named hNamed hHeight (by omega)

theorem goes_label (name : Bytes) (hFloor : low ≤ d) (hHeight : S (8 * d)) :
    Goes S low d d (label (.named name)) := goes_calm hFloor hHeight (calm_of_all rfl)

theorem goes_loc (t : Token) (hFloor : low ≤ d) : Goes S low d d (loc t) :=
  goes_lines hFloor (plain_of_all rfl)

/- A new label has the height at which it is numbered. -/
theorem keeps_fresh :
    Keeps S low d G fresh fun n e G' =>
      e = d ∧ G'.Marks n (8 * d) := by
  intro r hRun
  cases hRun
  refine ⟨⟨G.count + 1, fun n => if n ≤ G.count then G.height n else 8 * d⟩, rfl,
    ⟨⟨Nat.le_succ _, fun n hn => if_pos hn⟩, by simp, trivial,
      trivial⟩, rfl, le_rfl, if_neg (by simp)⟩

theorem goes_depth : Keeps S low d G depth fun a e _ => a = d ∧ e = d := by
  intro r hRun
  cases hRun
  exact ⟨G, rfl, ⟨.refl G, by simp, trivial, trivial⟩, rfl, rfl⟩

/-
  Instructions that move the stack, the count of this, and
  then another computation.
-/
theorem Keeps.shift (is : List Instr) {n : Int} {k : Unit → Emit β}
    (hSunk : sunk (is.map .instr) = 8 * n)
    (hFits : ∀ G, Along (Fits S (8 * low) G) (8 * d) (is.map .instr))
    (hTidy : Tidy [] (is.map .instr)) (hRest : Keeps S low (d + n) G (k ()) R) :
    Keeps S low d G (code is >>= fun _ => deepen n >>= k) R := by
  intro r hRun
  obtain ⟨_, _, hCode, hMore, rfl⟩ := Emit.exists_steps hRun
  cases hCode
  obtain ⟨_, b, hDeepen, hLast, rfl⟩ := Emit.exists_steps hMore
  cases hDeepen
  obtain ⟨G', hCount, hLays, hEnd⟩ := hRest b hLast
  refine ⟨G', hCount, ?_, hEnd⟩
  have hShift : Lays S low d (d + n) G G (is.map .instr) :=
    ⟨.refl G, by rw [hSunk]; omega, hFits G, hTidy⟩
  exact hShift.append hLays

theorem Goes.shift (is : List Instr) {n : Int} {k : Unit → Emit β}
    (hSunk : sunk (is.map .instr) = 8 * n)
    (hFits : ∀ G, Along (Fits S (8 * low) G) (8 * d) (is.map .instr))
    (hTidy : Tidy [] (is.map .instr)) (hRest : Goes S low (d + n) e (k ())) :
    Goes S low d e (code is >>= fun _ => deepen n >>= k) :=
  fun G => Keeps.shift is hSunk hFits hTidy (hRest G)

theorem goes_pure_unit : Goes S low d d (pure () : Emit Unit) := goes_pure ()

/- A computation with nothing behind it. -/
theorem bind_pure_unit (x : Emit Unit) : (x >>= fun _ => pure ()) = x := by
  funext c
  change andThen x _ c = x c
  unfold andThen
  cases hRun : x c with
  | error e => rfl
  | ok r =>
    change Except.ok (Emitted.mk () (r.code ++ []) r.counters) = .ok r
    rw [List.append_nil]

/- Such instructions with nothing behind them. -/
theorem goes_move (is : List Instr) {n : Int} (hSunk : sunk (is.map .instr) = 8 * n)
    (hFits : ∀ G, Along (Fits S (8 * low) G) (8 * d) (is.map .instr))
    (hTidy : Tidy [] (is.map .instr)) :
    Goes S low d (d + n) (do
      code is
      deepen n) := by
  rw [← bind_pure_unit (deepen n)]
  exact Goes.shift is hSunk hFits hTidy goes_pure_unit

end Emit

/- An instruction that moves the stack and does nothing else. -/
theorem fits_known (hFloor : floor ≤ h) (hKnown : i.isKnown = true) (hCall : i ≠ .callTo .r10)
    (hTarget : i.target? = none) (hNamed : (Line.instr i).isNamed = false) :
    Fits S floor G h (.instr i) where
  floor := hFloor
  call hLine := absurd (Line.instr.inj hLine) hCall
  number n hn := by simp [Line.number?, Line.target?, Line.instr?, hTarget] at hn
  named hn := by
    rw [hNamed] at hn
    cases hn
  known j hj := by
    cases hj
    exact hKnown

theorem along_known (hFloor : low ≤ d) (hKnown : i.isKnown = true) (hCall : i ≠ .callTo .r10)
    (hTarget : i.target? = none) (hNamed : (Line.instr i).isNamed = false) :
    Along (Fits S (8 * low) G) (8 * d) ([i].map .instr) :=
  ⟨fits_known (by omega) hKnown hCall hTarget hNamed, trivial⟩

theorem tidy_instrs {before : List Line} (hEach : ∀ i ∈ is, i.isGrowth = false ∧ i.target? = none) :
    Tidy before (is.map .instr) := by
  refine tidy_of_steady ?_
  rw [List.forall_mem_map]
  intro i hi
  exact ⟨(hEach i hi).1, by
    simp [Line.target?, Line.instr?, (hEach i hi).2]⟩

namespace Emit

theorem goes_push (hFloor : low ≤ d) : Goes S low d (d + 1) push :=
  goes_move _ rfl (fun _ => along_known hFloor rfl (by simp) rfl rfl) (tidy_instrs (by decide))

theorem goes_pop {r : Reg} (hReg : r ≠ .rsp) (hFloor : low ≤ d) : Goes S low d (d - 1) (pop r) := by
  have hKnown : (Instr.pop r).isKnown = true := by cases r <;> first | rfl | exact absurd rfl hReg
  exact goes_move _ rfl (fun _ => along_known hFloor hKnown (by simp) rfl rfl)
    (tidy_instrs (by simp [Instr.isGrowth, Instr.target?]))

theorem goes_pushVector (hFloor : low ≤ d) : Goes S low d (d + 1) pushVector :=
  goes_move _ rfl (fun _ => ⟨fits_known (by omega) rfl (by simp) rfl rfl,
      fits_known (by change _ ≤ 8 * d + 8; omega) rfl (by simp) rfl rfl, trivial⟩)
    (tidy_instrs (by simp [Instr.isGrowth, Instr.target?]))

theorem goes_popVector (n : Nat) (hFloor : low ≤ d) : Goes S low d (d - 1) (popVector n) :=
  goes_move _ rfl (fun _ => ⟨fits_known (by omega) rfl (by simp) rfl rfl,
      fits_known (by change _ ≤ 8 * d + 0; omega) rfl (by simp) rfl rfl, trivial⟩)
    (tidy_instrs (by simp [Instr.isGrowth, Instr.target?]))

variable {α β : Type} {x y : Emit α} {k : α → Emit β}

variable {p : Prop}

/- Either of two computations, and then a third one. -/
theorem Goes.bind_ite [Decidable p] (hThen : Goes S low d e x) (hElse : Goes S low d e y)
    (hRest : ∀ a, Goes S low e f (k a)) : Goes S low d f (if p then x >>= k else y >>= k) := by
  split
  · exact hThen.bind hRest
  · exact hElse.bind hRest

/- A computation that may be left out, and then another one. -/
theorem Goes.bind_when [Decidable p] {x : Emit Unit} {k : Unit → Emit β}
    (hThen : Goes S low d d x) (hRest : ∀ a, Goes S low d f (k a)) :
    Goes S low d f (if p then x >>= k else k ()) := by
  split
  · exact hThen.bind hRest
  · exact hRest ()

end Emit

------------
-- Blocks with Digits
------------

/- A line of a block: plain, or about a digit, or growth. -/
def blockLine : Line → Bool
| .label (.digit _) => true
| .instr (.jump (.forward _)) | .instr (.jump (.back _))
| .instr (.jumpIf _ (.forward _)) => true
| .instr i => i.isPlain || i.isGrowth
| l => l.isPlain

/- Lines that stay at their height and are tidy. -/
structure Still (ls : List Line) : Prop where
  lines : ∀ l ∈ ls, blockLine l = true
  tidy : Tidy [] ls

theorem tidy_of_plain {ls : List Line} (hPlain : LinesArePlain ls) : Tidy [] ls :=
  tidy_of_steady fun l hl =>
    (facts_of_plain (S := fun _ => True) (G := ⟨0, fun _ => 0⟩) (hPlain l hl) (le_refl 0)).2.2

theorem Still.of_plain {ls : List Line} (hPlain : LinesArePlain ls) : Still ls where
  lines l hl := by
    have hLine := hPlain l hl
    unfold blockLine
    split <;> simp_all [Line.isPlain]
  tidy := tidy_of_plain hPlain

theorem Still.append {xs ys : List Line} (hFirst : Still xs) (hRest : Still ys) :
    Still (xs ++ ys) where
  lines l hl := (List.mem_append.mp hl).elim (hFirst.lines l) (hRest.lines l)
  tidy := hFirst.tidy.append hRest.tidy

/- What is known of a line of a block. -/
theorem facts_of_blockLine (hBlock : blockLine l = true) (hFloor : floor ≤ h) :
    l.sinks = 0 ∧ Fits S floor G h l := by
  unfold blockLine at hBlock
  split at hBlock
  · exact ⟨rfl, hFloor, by simp, by rintro n ⟨⟩, by rintro ⟨⟩, by rintro i ⟨⟩⟩
  · exact ⟨rfl, hFloor, by simp, by rintro n ⟨⟩, by rintro ⟨⟩, by rintro i ⟨⟩; rfl⟩
  · exact ⟨rfl, hFloor, by simp, by rintro n ⟨⟩, by rintro ⟨⟩, by rintro i ⟨⟩; rfl⟩
  · exact ⟨rfl, hFloor, by simp, by rintro n ⟨⟩, by rintro ⟨⟩, by rintro i ⟨⟩; rfl⟩
  · rename_i i _ _ _
    rcases (Bool.or_eq_true _ _).mp hBlock with hPlain | hGrowth
    · have hLine : (Line.instr i).isPlain = true := hPlain
      exact (facts_of_plain hLine hFloor).imp_right And.left
    · unfold Instr.isGrowth at hGrowth
      split at hGrowth
      · exact ⟨rfl, fits_known hFloor rfl (by simp) rfl rfl⟩
      · cases hGrowth
  · exact (facts_of_plain hBlock hFloor).imp_right And.left

namespace Emit

theorem goes_still {ls : List Line} (hFloor : low ≤ d) (hStill : Still ls) :
    Goes S low d d (lines ls) := by
  intro G r hRun
  cases hRun
  have hFacts : ∀ l ∈ ls, l.sinks = 0 ∧ Fits S (8 * low) G (8 * d) l :=
    fun l hl => facts_of_blockLine (hStill.lines l hl) (by omega)
  have hLevel : ∀ l ∈ ls, l.sinks = 0 := fun l hl => (hFacts l hl).1
  refine ⟨G, rfl, ⟨.refl G, ?_, ?_, hStill.tidy⟩, rfl⟩
  · rw [sunk_level hLevel]
    exact add_zero _
  · exact along_level hLevel fun l hl => (hFacts l hl).2

end Emit

theorem still_wordToVector (p : Precision) : Still (ConvStep.wordToVector p) where
  lines := List.all_eq_true.mp rfl
  tidy := by
    simp [ConvStep.wordToVector, Tidy, Reaches, Line.target?,
      Line.isGrowth, Line.sinks, Line.instr?, Instr.target?,
      Instr.isGrowth, Instr.sinks]

theorem still_wordCorrection : Still ConvStep.wordCorrection where
  lines := List.all_eq_true.mp rfl
  tidy := by
    simp [ConvStep.wordCorrection, Tidy, Reaches, Line.target?,
      Line.isGrowth, Line.sinks, Line.instr?, Instr.target?,
      Instr.isGrowth, Instr.sinks]

theorem still_growFrame (bottom : Int) : Still (growFrame bottom) where
  lines := List.all_eq_true.mp rfl
  tidy := by
    simp [growFrame, Tidy, Reaches, Line.target?, roundingInstrs,
      Line.isGrowth, Line.sinks, Line.instr?, Instr.target?,
      Instr.isGrowth, Instr.sinks]

theorem still_step (s : ConvStep) : Still s.lines := by
  cases s with
  | vectorOfWord p => exact still_wordToVector p
  | addTwoTo64 => exact still_wordCorrection
  | extendedOfVector p | vectorOfExtended p => cases p <;> exact .of_plain (plain_of_all rfl)
  | truncate w => exact .of_plain (plain_of_all rfl)
  | reload u w => cases u <;> cases w <;> exact .of_plain (plain_of_all rfl)
  | _ => exact .of_plain (plain_of_all rfl)

/- Conversions stay at one height. -/
theorem still_convert (rs : Records) (source dest : CType) : Still (convert rs source dest) := by
  unfold convert
  split
  · exact .of_plain (plain_of_all rfl)
  · split
    · exact .of_plain ((isPlain_compareZero rs source).append (isPlain_of_all rfl)).lines
    · induction conversion (.of source) (.of dest) with
      | nil => exact .of_plain (plain_of_all rfl)
      | cons s ss ih => exact (still_step s).append ih

end Codegen

end CCompiler
