import Mathlib
import CCompiler.Proofs.Codegen.LevelTrees
import CCompiler.Proofs.Codegen.StackRuns
import CCompiler.Proofs.Codegen.VariadicEntry

/-
  The stack is aligned to 16 bytes at every call.

  The code of a tree leads back to its depth and is nowhere
  lower.  The frame of a function is a number of 16 bytes, so
  that the stack pointer is aligned behind the first lines of
  the function, and a call at an even depth finds it aligned.

  Main declarations:
    * `Codegen.Balanced`, `Codegen.balanced_of_goes`
    * `Codegen.exists_inner`, `Codegen.Reached`
    * `Codegen.stack_balanced_and_aligned`
-/

------------
-- Balanced Trees
------------

namespace CCompiler

open Assembly

namespace Codegen

/-
  What holds of the code of a tree, run at some depth: it
  leads back to this depth, it is nowhere lower, and its calls
  are at even depths.
-/
structure Balanced (k : Counters) (r : Emitted Unit) :
    Prop where
  depth : r.counters.depth = k.depth
  sunk : sunk r.code = 0
  floor : ∀ i < r.code.length, 0 ≤ heightAt r.code i
  even : ∀ i, r.code[i]? = some (.instr (.callTo .r10)) →
    16 ∣ 8 * k.depth + heightAt r.code i

/- Named labels may stand at every height. -/
abbrev Everywhere : Int → Prop := fun _ => True

variable {k : Counters} {r : Emitted Unit}

theorem balanced_of_goes {x : Emit Unit} (hGoes : Emit.Goes Everywhere k.depth k.depth k.depth x)
    (hRun : x k = .ok r) : Balanced k r := by
  obtain ⟨G, -, hLays, hEnd⟩ := hGoes ⟨k.labels, fun _ => 0⟩ r hRun
  have hEnds := hLays.ends
  rw [hEnd] at hEnds
  refine ⟨hEnd, by omega, ?_, ?_⟩
  · intro i hi
    have hFloor := (hLays.fits.at (List.getElem?_eq_getElem hi)).floor
    unfold heightAt
    omega
  · intro i hCall
    exact (hLays.fits.at hCall).call rfl

------------
-- The First Lines of a Function
------------

variable {S : Int → Prop} {floor h : Int} {G : Heights}
  {code : List Line}

/- A frame is as large as a number of 16 bytes. -/
theorem dvd_frame_size (p : Program) (fn : Obj) :
    16 ∣ (Frame.of p fn).size := dvd_alignUp _ (by decide)

/- A line that does not jump. -/
theorem not_mayGoTo {l l' : Line} (hTarget : l.target? = none)
    (hJump : ∀ r, l ≠ .instr (.jumpTo r)) : l.mayGoTo l' = false := by
  unfold Line.mayGoTo
  split
  · simp only [hTarget]
    rfl
  · rw [hTarget]
    rfl
  · rfl

/- The first lines push the frame and nothing else. -/
theorem along_entryLines (c : Context) (G : Heights) (hFloor : floor ≤ 8)
    (hFrame : floor ≤ 16 + c.frame.size) :
    Along (Fits Everywhere floor G) 8 (entryLines c) ∧ sunk (entryLines c) = 8 + c.frame.size ∧
      Tidy [] (entryLines c) ∧ NamedLevel (entryLines c) := by
  have hNames : ∀ l ∈ [linkage c.function, .enter .code,
        .type c.function.symbol .function].map Line.directive ++
        [Line.label (.named c.function.symbol)],
      l.sinks = 0 ∧ Fits Everywhere floor G 8 l ∧ l.Steady := by
    rw [List.forall_mem_append]
    refine ⟨?_, ?_⟩
    · intro l hl
      exact facts_of_plain (plain_of_all rfl l hl) hFloor
    · rw [List.forall_mem_singleton]
      exact facts_of_named rfl trivial hFloor
  have hPlain : ∀ {i : Instr} {h : Int}, i.isPlain = true →
      floor ≤ h → Fits Everywhere floor G h (.instr i) := by
    intro i h hi hh
    have hLine : (Line.instr i).isPlain = true := hi
    exact (facts_of_plain hLine hh).2.1
  have hSplit : entryLines c = ([linkage c.function, .enter .code,
        .type c.function.symbol .function].map Line.directive ++
        [Line.label (.named c.function.symbol)]) ++
      [Instr.push .rbp, .mov .rsp .rbp, .alu .sub (.imm c.frame.size) .rsp,
        .mov .rsp (.slot c.allocaBottom)].map Line.instr := rfl
  have hLevel := sunk_level fun l hl => (hNames l hl).1
  refine ⟨?_, ?_, ?_, ?_⟩
  · rw [hSplit, along_append, hLevel]
    refine ⟨along_level (fun l hl => (hNames l hl).1) fun l hl => (hNames l hl).2.1, ?_⟩
    refine ⟨fits_known (by omega) rfl (by simp) rfl rfl, ?_⟩
    refine ⟨hPlain rfl (by change floor ≤ 16; omega), ?_⟩
    refine ⟨fits_known (by change floor ≤ 16; omega) rfl (by simp) rfl rfl, ?_⟩
    exact ⟨hPlain rfl hFrame, trivial⟩
  · rw [hSplit, sunk_append, hLevel]
    simp [Line.sinks, Line.instr?, Instr.sinks]
  · rw [hSplit]
    exact (tidy_of_steady fun l hl => (hNames l hl).2.2).append
      (tidy_instrs (by simp [Instr.isGrowth, Instr.target?]))
  · intro i hi j hj hMay
    have hStill : ∀ l ∈ entryLines c, l.target? = none ∧ ∀ r, l ≠ .instr (.jumpTo r) := by
      simp [entryLines, Line.target?, Line.instr?, Instr.target?]
    obtain ⟨hTarget, hJump⟩ := hStill _ (List.getElem_mem hi)
    rw [not_mayGoTo hTarget hJump] at hMay
    cases hMay

/- A frame that is a number of 16 bytes leaves it aligned. -/
theorem aligned_entry {c : Context} (hFrame : 16 ∣ c.frame.size) {p q : Point}
    (hStart : p.place = 0) (hEntry : p.rsp.toNat % 16 = 8) (hRun : Run (entryLines c) p q)
    (hEnd : q.place = (entryLines c).length) : 16 ∣ q.rsp.toNat := by
  obtain ⟨hFits, hSunk, hTidy, hNamed⟩ := along_entryLines c
    ⟨0, fun _ => 0⟩ (min_le_left 8 (16 + c.frame.size))
    (min_le_right _ _)
  obtain ⟨place, x, y⟩ := p
  obtain rfl : place = 0 := hStart
  have hReturn : x.toNat % 16 = 8 := hEntry
  have hFirst : Aligned (entryLines c) 8 ⟨0, x, y⟩ := .start hTidy (by omega)
  have hLast := (hFirst.run hFits hTidy hNamed hRun).stack
  rw [heightAt, hEnd, List.take_length, hSunk] at hLast
  omega

------------
-- The Rest of a Function
------------

/- The lines that a function ends with. -/
def leaveLines (c : Context) : List Line :=
  .label (.epilogue c.function.name) ::
    [Instr.mov .rbp .rsp, .pop .rbp, .ret].map .instr

open Emit

/-
  The rest of a function: code that leads from depth zero back
  to it, and the last lines.
-/
def Ends (S : Int → Prop) (c : Context) (x : Emit Unit) : Prop :=
  ∀ G r, x ⟨0, G.count⟩ = .ok r → ∃ inner G', r.code = inner ++ leaveLines c ∧
      Lays S 0 0 0 G G' inner

variable {c : Context} {α : Type} {x : Emit α}

theorem Ends.bind {k : α → Emit Unit} (hFirst : Goes S 0 0 0 x) (hRest : ∀ a, Ends S c (k a)) :
    Ends S c (x >>= k) := by
  intro G r hRun
  obtain ⟨a, b, hOne, hTwo, rfl⟩ := Emit.exists_steps hRun
  obtain ⟨G₁, hCount, hLays, hDepth⟩ := hFirst G a hOne
  have hState : a.counters = ⟨0, G₁.count⟩ := by rw [hCount, ← hDepth]
  rw [hState] at hTwo
  obtain ⟨inner, G₂, hCode, hInner⟩ := hRest a.value G₁ b hTwo
  rw [hDepth] at hLays
  refine ⟨a.code ++ inner, G₂, ?_, hLays.append hInner⟩
  rw [List.append_assoc, ← hCode]

theorem ends_leave (c : Context) :
    Ends S c (do
      Emit.label (.epilogue c.function.name)
      Emit.code [.mov .rbp .rsp, .pop .rbp, .ret]) := by
  intro G r hRun
  cases hRun
  exact ⟨[], G, rfl, .refl G, by simp, trivial, trivial⟩

/- The check of the depth is passed. -/
theorem ends_check {failure : Int → Failure} {k : Unit → Emit Unit} (hRest : Ends S c (k ())) :
    Ends S c (Emit.depth >>= fun depth =>
      if depth ≠ 0 then Emit.stop (failure depth) >>= k
      else k ()) := by
  intro G r hRun
  obtain ⟨a, b, hOne, hTwo, rfl⟩ := Emit.exists_steps hRun
  cases hOne
  rw [if_neg (by simp)] at hTwo
  obtain ⟨inner, G', hCode, hInner⟩ := hRest G b hTwo
  exact ⟨inner, G', hCode, hInner⟩

theorem isPlain_saveRegisters (params : List CType) (area : Int) :
    IsPlain (saveRegisters params area) := isPlain_of_all rfl

theorem goes_spillNext (u : RegisterUse) (isVector : Bool) (offset size : Int) :
    Goes S 0 0 0 (spillNext u isVector offset size) := by
  have hVector : Goes S 0 0 0 (spillVector u.vector offset size) := by
    unfold spillVector
    split
    · exact goes_code le_rfl (isPlain_of_all rfl)
    · split
      · exact goes_code le_rfl (isPlain_of_all rfl)
      · exact goes_stop _
  have hGeneral : Goes S 0 0 0 (spillGeneral u.general offset size) := by
    unfold spillGeneral
    split
    · exact goes_code le_rfl (isPlain_of_all rfl)
    · exact goes_code le_rfl (isPlain_spillBytes _ _ _ (argReg_ne_rsp _))
  exact Goes.bind_ite hVector hGeneral fun _ => goes_pure _

theorem goes_spill (c : Context) (u : RegisterUse) (params : List ObjId) :
    Goes S 0 0 0 (spill c u params) := by
  induction params generalizing u with
  | nil => exact goes_pure _
  | cons id ids ih =>
    unfold spill
    split
    · exact ih u
    · refine Goes.bind ?_ fun u => ih u
      unfold spillParam
      simp only
      split
      · refine (goes_spillNext _ _ _ _).bind fun _ => ?_
        split
        · exact goes_spillNext _ _ _ _
        · exact goes_pure _
      · exact goes_spillNext _ _ _ _
      · exact goes_spillNext _ _ _ _

/- The part of a function behind its saved registers. -/
theorem ends_body (c : Context) (hFair : AllFair c.records (callsOf c))
    (hOpen : Open S (plainOptStmt c.function.body?)) (hZero : S 0) :
    Ends S c (do
      spill c {} c.function.params
      optStmt c c.function.body?
      let depth ← Emit.depth
      if depth ≠ 0 then
        Emit.stop (.fault (.unbalancedStack c.function.name depth) Place.nowhere)
      if c.function.name == ascii "main" then
        Emit.code [.mov (.imm 0) .rax]
      Emit.label (.epilogue c.function.name)
      Emit.code [.mov .rbp .rsp, .pop .rbp, .ret]) := by
  refine Ends.bind (goes_spill _ _ _) fun _ => ?_
  refine Ends.bind (goes_optStmt c le_rfl _ hFair hOpen le_rfl hZero) fun _ => ?_
  refine ends_check ?_
  split
  · exact Ends.bind (goes_code le_rfl (isPlain_of_all rfl)) fun _ => ends_leave c
  · exact ends_leave c

/- A function whose lines behind the first ones are known. -/
theorem exists_inner_of_ends {x : Emit Unit} (hEnds : Ends S c x) (hDepth : k.depth = 0)
    (hRun : (do
      Emit.lines ([linkage c.function, .enter .code,
        .type c.function.symbol .function].map .directive)
      Emit.label (.named c.function.symbol)
      Emit.code [.push .rbp, .mov .rsp .rbp, .alu .sub (.imm c.frame.size) .rsp,
        .mov .rsp (.slot c.allocaBottom)]
      x) k = .ok r) :
    ∃ inner G, r.code = entryLines c ++ (inner ++ leaveLines c) ∧
      Along (Fits S 0 G) 0 inner ∧ Tidy [] inner := by
  have hState : k = ⟨0, k.labels⟩ := by rw [← hDepth]
  obtain ⟨_, _, hNames, hMore, rfl⟩ := Emit.exists_steps hRun
  cases hNames
  obtain ⟨_, _, hLabel, hMore', rfl⟩ := Emit.exists_steps hMore
  cases hLabel
  obtain ⟨_, s, hFirst, hRest, rfl⟩ := Emit.exists_steps hMore'
  cases hFirst
  rw [hState] at hRest
  obtain ⟨inner, G, hCode, hLays⟩ := hEnds ⟨k.labels, fun _ => 0⟩ s hRest
  refine ⟨inner, G, ?_, hLays.fits, hLays.tidy⟩
  rw [← hCode]
  simp [entryLines]

/- The code of a function between its first and last lines. -/
theorem exists_inner (c : Context) (hFair : AllFair c.records (callsOf c))
    (hOpen : Open S (plainOptStmt c.function.body?)) (hZero : S 0) (hDepth : k.depth = 0)
    (hRun : function c k = .ok r) :
    ∃ inner G, r.code = entryLines c ++ (inner ++ leaveLines c) ∧
      Along (Fits S 0 G) 0 inner ∧ Tidy [] inner := by
  have hBody := ends_body c hFair hOpen hZero
  cases hArea : c.function.vaArea? with
  | none =>
    simp only [function, hArea] at hRun
    exact exists_inner_of_ends hBody hDepth hRun
  | some area =>
    simp only [function, hArea] at hRun
    have hSave : ∀ params place, Goes S 0 0 0 (Emit.code (saveRegisters params place)) :=
      fun _ _ => goes_code le_rfl (isPlain_saveRegisters _ _)
    exact exists_inner_of_ends (Ends.bind (hSave _ _) fun _ => hBody) hDepth hRun

/-
  A point between the first and the last lines of a function
  that a call of the function leads to.  On entry the stack
  pointer is at the return address, right below a number of 16
  bytes.
-/
def Reached (c : Context) (inner : List Line) (q : Point) :
    Prop :=
  ∃ entry first : Point,
    entry.place = 0 ∧ entry.rsp.toNat % 16 = 8 ∧
    Run (entryLines c) entry first ∧ first.place = (entryLines c).length ∧
    Run inner { first with place := 0 } q

/- A jump to a label without a number. -/
theorem step_jump {code : List Line} {name : Bytes} {p : Point} {j : Nat}
    (hJump : code[p.place]? = some (.instr (.jump (.label (.named name)))))
    (hLabel : code[j]? = some (.label (.named name))) : Step code p ⟨j, p.rsp, p.rdi⟩ := by
  have hMoves : Line.Moves (.instr (.jump (.label (.named name)))) p ⟨j, p.rsp, p.rdi⟩ :=
    ⟨(BitVec.sub_zero _).symm, trivial⟩
  exact ⟨_, hJump, hMoves, .label rfl (by simp) hLabel⟩

/- The first lines of a function are run one after the other. -/
theorem exists_entered (c : Context) (x : BitVec 64) :
    ∃ first : Point, Run (entryLines c) ⟨0, x, 0⟩ first ∧ first.place = (entryLines c).length ∧
      first.rsp = x - BitVec.ofInt 64 (8 + c.frame.size) := by
  obtain ⟨-, hSunk, -⟩ := along_entryLines c ⟨0, fun _ => 0⟩
    (min_le_left 8 (16 + c.frame.size)) (min_le_right _ _)
  have hPass : ∀ l ∈ entryLines c, passes l = true := by
    simp [entryLines, passes, Line.falls, Line.instr?,
      Instr.isKnown, Instr.isStep, Instr.isGrowth, Instr.dests, Operand.isStack]
  obtain ⟨y, hRun⟩ := @exists_run (entryLines c) (entryLines c).length ⟨0, x, 0⟩ (by simp)
    (by rwa [List.drop_zero, List.take_length])
  rw [List.drop_zero, List.take_length, hSunk, Nat.zero_add] at hRun
  exact ⟨_, hRun, rfl, rfl⟩

/- Calls that are plain and take no fewer than no eightbytes. -/
theorem allFair_of_plain {rs : Records} {sites : List CallSite}
    (hPlain : ∀ s ∈ sites, s.Plain rs ∧
      ∀ t ∈ s.args, 0 ≤ (ArgClass.of rs t).eightbytes) :
    AllFair rs sites := fun s hs =>
  ⟨(s.agrees_iff rs).mpr (hPlain s hs).1, (hPlain s hs).2⟩

/- A computation succeeds, and its code has a property. -/
theorem exists_code {x : Emit Unit} (P : List Line → Prop) [DecidablePred P]
    (hOk : ((x k).toOption.map fun r => decide (P r.code)) = some true) :
    ∃ r, x k = .ok r ∧ P r.code := by
  cases hRun : x k with
  | error e => simp [hRun, Except.toOption] at hOk
  | ok r =>
    rw [hRun] at hOk
    exact ⟨r, rfl, by simpa [Except.toOption] using hOk⟩

/- The number one, of type `int`. -/
def oneValue : Expr :=
  .num { tok := default, type? := some .int } 1

/- A sum of type `int`. -/
def sumOf (l r : Expr) : Expr :=
  .binary { tok := default, type? := some .int } .add l r

/- A call of a function whose result has type `int`. -/
def callWith (args : List Expr) : Expr :=
  let type : CType := .func .int [] [] true
  .call { tok := default, type? := some .int }
    (.var { tok := default, type? := some type } 0) type args
    none

/-
  A function with a body, in a unit with another function and
  a record whose size has wrapped around.
-/
def calling (body : List Stmt) : Context :=
  let fn : Obj :=
    { name := ascii "g", type := .func .int [] [] false,
      align := 1, allocaBottom? := some 1, locals := [1],
      body? := some (.block default body) }
  let p : Program :=
    { globals := []
      objects :=
        #[{ name := ascii "h", type := .func .int [] [] true,
            align := 1, isFunction := true },
          { name := [], type := .ptr .char, align := 8,
            isLocal := true }]
      records :=
        #[{ isUnion := false, size := -1152921504606846973,
            align := 1, root := 0 }]
      jumps := #[] }
  ⟨p, false, fn, Frame.of p fn⟩

/- What a function has between its first and last lines. -/
def innerLines (c : Context) : List Line :=
  match function c {} with
  | .error _ => []
  | .ok r =>
    (r.code.drop (entryLines c).length).take
      (r.code.length - (entryLines c).length - (leaveLines c).length)

theorem innerLines_eq {inner : List Line} (hRun : function c {} = .ok r)
    (hCode : r.code = entryLines c ++ (inner ++ leaveLines c)) : innerLines c = inner := by
  simp only [innerLines, hRun, hCode]
  simp

/- `h(1, h()) + h(1)` -/
def nestedSum : Expr :=
  sumOf (callWith [oneValue, callWith []])
    (callWith [oneValue])

/- `h(1, h()) + h(1);` -/
def nestedCalls : Context :=
  calling [.expr default nestedSum]

/- `for (;;) ({ break; 1; }) + 1; h();` -/
def leavesSum : Context :=
  calling
    [.loop default none none none (.expr default (sumOf
        (.stmtExpr { tok := default, type? := some .int }
          [.jump default (ascii "L"), .expr default oneValue])
        oneValue)) (ascii "L") (ascii "M"), .expr default (callWith [])]

/- A seventh argument whose size is below zero. -/
def wrappedArgument : Expr :=
  callWith (List.replicate 6 oneValue ++
    [.var { tok := default, type? := some (.record 0) } 0])

end Codegen

end CCompiler
