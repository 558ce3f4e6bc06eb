import Mathlib
import CCompiler.Proofs.Codegen.MemberReads
import CCompiler.Proofs.Syntax.StaticData

/-
  Where truth values are made and read.

  A value that is assigned to a truth value is converted, and
  so is a constant that is cast to one.  The data of a variable
  takes the low bits of a constant as they are, and a field of
  one bit is read with its sign: there a truth value may be
  other than zero and one.

  Main declarations:
    * `InitialValue.Holds.truth_iff`
    * `Codegen.truthOf`, `Codegen.yields_truthOf`
    * `bool_holds_truth`
-/

------------
-- Data
------------

namespace CCompiler

namespace InitialValue

variable {rs : Records} {s : ParseState} {t : CType}
  {ls : List Leaf} {o : Obj} {data : Bytes} {l : Leaf} {w : Int64}

/-
  A leaf of the data is the truth of its constant just if zero
  or one is what remains of the constant in its bits.
-/
theorem Holds.truth_iff (hHolds : Holds rs s t ls o data) (hMem : l ∈ ls)
    (hWord : l.word? s = some w) :
    (l.read rs data : Int) = truthValue (w ≠ 0) ↔
      w = 0 ∨ w.toUInt64.toNat % 2 ^ (l.width rs).toNat = 1 := by
  rw [hHolds.read_word hMem hWord]
  by_cases hZero : w = 0
  · subst hZero
    simp [truthValue]
  · simp only [truthValue, ne_eq, hZero, not_false_eq_true, if_true, false_or]
    exact Nat.cast_eq_one

end InitialValue

------------
-- Code
------------

open Assembly

namespace Codegen

open Machine

/- The instructions that tell whether a value differs from zero. -/
def truthOf (rs : Records) (t : CType) : List Instr :=
  compareZero rs t ++ [.set .notEqual .al, .extend .zeroByteAny .al .eax]

theorem yields_truthOf {m : Machine} {σ : IntType} {n : Int} (rs : Records) (hHas : σ.Has n)
    (hRep : σ.Represents n (m.regs .rax)) :
    Yields (truthOf rs σ.toCType) m (truthValue (n ≠ 0)) := by
  rcases converts_bool rs σ m n hHas hRep with
    ⟨m', hExec, hKept, hTruth⟩
  refine ⟨m', hExec, hKept, ?_⟩
  have hValue : IntType.bool.convert n = truthValue (n ≠ 0) := by
    by_cases hZero : n = 0 <;> simp [IntType.convert, truthValue, hZero]
  rw [← hValue]
  exact (BitVec.setWidth_eq _).symm.trans hTruth

theorem follows_cast {i : Info} {t : CType} (c : Context) (e : Expr) (hType : i.type? = some t)
    (hBool : t.isBool) :
    Follows c (.cast i e) (expr c .value e) (truthOf c.records e.type) := by
  have hVoid : t.isVoid = false := by rw [CType.isVoid, CType.plain_of_isBool hBool]
  have hConvert : convert c.records e.type t = (truthOf c.records e.type).map .instr := by
    simp [convert, hVoid, hBool, truthOf]
  unfold Follows
  rw [expr, hType, Option.getD_some, hConvert]
  rfl

end Codegen

theorem truncate_truth {t : CType} (rs : Records) (w : Int64) (hBool : t.isBool) :
    (Constant.truncate rs w t).toInt = truthValue (w ≠ 0) := by
  unfold Constant.truncate Constant.ofBool truthValue
  by_cases hZero : w = 0 <;> simp [hBool, hZero]

/- The value of an assignment to a truth value is converted. -/
theorem Typing.typeAssign_truth {l r : Expr} (i : Info) (hBool : l.type.isBool) (s : ParseState) :
    typeAssign i l r s = .ok (.assign { i with type? := l.type? } l
        (.cast ⟨r.tok, some l.type⟩ r)) s := by
  have hPlain := CType.plain_of_isBool hBool
  have hArray : l.type.isArray = false := by rw [CType.isArray, hPlain]
  have hRecord : l.type.isRecord = false := by rw [CType.isRecord, hPlain]
  unfold typeAssign
  simp only [hArray, hRecord, Bool.false_eq_true, if_false, pure_bind, castTo_eq r hRecord]
  rfl

------------
-- All Together
------------

open Assembly Codegen InitialValue Machine

/-
  Truth values in data, in memory and in registers.

  The leaves of a variable of the unit hold the low bits of
  their constants; that is the truth of a constant just where
  zero or one remains of it.  Reading a member that holds zero
  or one gives the same, other than from a field of one bit.
  A value that is assigned is converted first, like a constant
  in a cast, and is zero or one then.
-/
theorem bool_holds_truth {read : Reader} {v : ObjId} {s s₁ : ParseState} {init : Init} {i : Info}
    {f : Member} {l r : Expr} {σ : IntType} (c : Context) (e : Expr) (j : Info)
    (hRead : Initializer.complete read (s.objects.entry v).type s = .ok init s₁)
    (hObject : v < s₁.objects.size) (hFits : Fits s₁.records init.type init)
    (hSize : 0 ≤ init.type.size s₁.records)
    (hTiled : Tiled s₁.records 0 (init.type.size s₁.records)
      (leaves s₁.records 0 init.type init))
    (hContents : ∀ a ∈ leaves s₁.records 0 init.type init,
      (a.content? (s₁.retyped v init.type)).isSome) (hMember : i.type? = some f.type)
    (hBool : f.type.isBool) (hInside : ∀ b ∈ f.bits?, b.Inside 8) (hTarget : l.type.isBool)
    (hSource : r.type = σ.toCType) :
    (∃ s₂ data, globalInit read v s = .ok () s₂ ∧ (s₂.objects.entry v).data? = some data ∧
      ∀ a ∈ leaves s₁.records 0 init.type init, a.type.isBool →
        ∀ w ∈ a.word? (s₁.retyped v init.type), a.read s₁.records data = w.toUInt64.toNat %
            2 ^ (a.width s₁.records).toNat ∧
          ((a.read s₁.records data : Int) = truthValue (w ≠ 0) ↔
            w = 0 ∨ w.toUInt64.toNat % 2 ^ (a.width s₁.records).toNat = 1)) ∧
    (Follows c (.member i e f) (expr c .address (.member i e f)) (memberRead c.records f) ∧
      ∀ m : Machine, f.held c.records m.mem (m.regs .rax) ≤ 1 → Yields (memberRead c.records f) m
          (truthRead f (f.held c.records m.mem (m.regs .rax)))) ∧
    (Typing.typeAssign j l r s = .ok (.assign { j with type? := l.type? } l
          (.cast ⟨r.tok, some l.type⟩ r)) s ∧
      Follows c (.cast ⟨r.tok, some l.type⟩ r) (expr c .value r)
        (truthOf c.records r.type) ∧ (∀ (m : Machine) (n : Int), σ.Has n →
        σ.Represents n (m.regs .rax) → Yields (truthOf c.records r.type) m (truthValue (n ≠ 0))) ∧
      ∀ w, (Constant.truncate c.records w l.type).toInt = truthValue (w ≠ 0)) := by
  rcases globalInit_holds hRead hObject hFits hSize hTiled hContents with ⟨s₂, data, hRun, hHolds⟩
  refine ⟨⟨s₂, data, hRun, hHolds.data?, ?_⟩, ⟨follows_member c e hMember, ?_⟩,
    Typing.typeAssign_truth j hTarget s, follows_cast c r rfl hTarget, ?_, ?_⟩
  · intro a ha _ w hWord
    exact ⟨hHolds.read_word ha hWord, hHolds.truth_iff ha hWord⟩
  · intro m hTruth
    exact yields_memberRead hBool hInside hTruth
  · intro m n hHas hRep
    rw [hSource]
    exact yields_truthOf c.records hHas hRep
  · intro w
    exact truncate_truth c.records w hTarget

/- struct { _Bool a : 1; _Bool b : 3; _Bool c[2]; } -/
def truthStruct : Record :=
  .unplaced 1
    [.unplaced .bool 1 (some 1),
      { Member.unplaced .bool 1 (some 3) with index := 1 },
      { Member.unplaced (.array 0 .bool 2 2 1) 1 with index := 2 }]

/- The initializer of such a structure: 1, 9, { 257 } -/
def truthTree : Init :=
  .mk (.record 0) false none
    #[numberLeaf .bool 1, numberLeaf .bool 9,
      .mk (.array 0 .bool 2 2 1) false none
        #[numberLeaf .bool 257, .empty .bool false #[]] none]
    none

def truthState : ParseState :=
  { toks := []
    records := #[truthStruct.laidOut #[]]
    objects := #[{ name := [], type := .record 0, align := 1 }] }

/- A field of some bits behind the first bit. -/
def truthField (width : Int) : Member :=
  { Member.unplaced .bool 1 with bits? := some ⟨1, width⟩ }

def truthContext : Context where
  program := ⟨[], truthState.objects, truthState.records, #[]⟩
  positionIndependent := false
  function := default
  frame := ⟨[(0, -8)], 16⟩

/- A machine with the address of a byte in which the second bit is set. -/
def truthMachine : Machine where
  regs := fun r => if r = .rax then 4096 else 0
  flags? := none
  mem := fun a => if a = 4096 then 2 else 0

/- The members of the structure with the places they get. -/
theorem members_truth :
    (truthState.records.entry 0).members = [.unplaced .bool 1 (some 1),
        { Member.unplaced .bool 1 (some 3) with
          index := 1, bits? := some ⟨1, 3⟩ },
        { Member.unplaced (.array 0 .bool 2 2 1) 1 with
          index := 2, offset := 1 }] :=
  rfl

theorem settled_truth : (CType.record 0).Settled truthState.records := by
  have hDeclared : truthStruct.Declared truthState.records := by
    refine ⟨rfl, rfl, ⟨0, rfl⟩, ?_, by decide +kernel⟩
    simp only [truthStruct, Record.unplaced, List.forall_mem_cons]
    refine ⟨⟨⟨0, rfl⟩, ?_, ?_, ?_⟩, ⟨⟨0, rfl⟩, ?_, ?_, ?_⟩,
      ⟨⟨0, rfl⟩, ?_, ?_, ?_⟩, by simp⟩ <;> decide +kernel
  apply CType.Settled.complete
  refine .record (r := truthState.records.entry 0) rfl ⟨truthStruct, rfl, .inl hDeclared⟩ ?_
  rw [members_truth]
  simp only [List.forall_mem_cons]
  refine ⟨by simp [Member.unplaced], by simp, fun _ => ?_, by simp⟩
  exact .array rfl (by decide) (.scalar (.inl rfl))

theorem fits_truth : Fits truthState.records (.record 0) truthTree := by
  refine .struct rfl rfl rfl rfl ?_ ?_
  · rw [members_truth]
    simp only [truthTree, Init.children, List.zip_cons_cons,
      List.zip_nil_left, List.forall_mem_cons]
    refine ⟨by simp [Member.unplaced], by simp, fun _ => ?_, by simp⟩
    apply Fits.array rfl rfl
    intro child _
    exact .scalar (.inl rfl)
  · rw [members_truth]
    simp only [truthTree, Init.children, List.zip_cons_cons,
      List.zip_nil_left, List.forall_mem_cons]
    exact ⟨by decide, by decide, by decide, by simp⟩

/-
  The structure with its constants, a field of three bits, and
  the conversion of a number.
-/
theorem bool_holds_truth_mixed :
    (∃ s data, globalInit (givenTree truthTree) 0 truthState = .ok () s ∧
      (s.objects.entry 0).data? = some data ∧
      (leaves truthState.records 0 (.record 0) truthTree).map
        (·.read truthState.records data) = [1, 1, 1, 0]) ∧
    Yields (memberRead truthState.records (truthField 3)) truthMachine 1 ∧
    Yields (truthOf truthState.records .int) truthMachine 1 := by
  have hRead : Initializer.complete (givenTree truthTree)
      (truthState.objects.entry 0).type truthState = .ok truthTree truthState := rfl
  have hTiled := fits_truth.tiled settled_truth
  have hContents : ∀ a ∈ leaves truthState.records 0 (.record 0) truthTree,
        (a.content? (truthState.retyped 0 (.record 0))).isSome := by
    decide +kernel
  have hField : ∀ b ∈ (truthField 3).bits?, b.Inside 8 := by
    intro b hb
    cases hb
    exact ⟨by decide, by decide, by decide⟩
  have hNumber : Expr.type (.num ⟨default, some .int⟩ 5) =
      IntType.int.toCType := rfl
  rcases bool_holds_truth (i := ⟨default, some .bool⟩)
    (l := .var ⟨default, some .bool⟩ 0) truthContext
    (.var ⟨default, some (.record 0)⟩ 0) ⟨default, none⟩ hRead
    (by decide) fits_truth hTiled.1 hTiled.2 hContents rfl rfl
    hField rfl hNumber with
    ⟨⟨s, data, hRun, hData, hTruth⟩, ⟨-, hReads⟩, -, -, hConverts, -⟩
  refine ⟨⟨s, data, hRun, hData, ?_⟩, ?_, ?_⟩
  · have hWords : ∀ a ∈ leaves truthState.records 0 (.record 0) truthTree, a.type.isBool ∧
          (a.word? (truthState.retyped 0 (.record 0))).any fun w =>
            w = 0 ∨ w.toUInt64.toNat % 2 ^ (a.width truthState.records).toNat = 1 := by
      decide +kernel
    calc _ = (leaves truthState.records 0 (.record 0) truthTree).map
            fun a => (((a.word? (truthState.retyped 0 (.record 0))).map fun w =>
                truthValue (w ≠ 0)).getD 0).toNat := by
          apply List.map_congr_left
          intro a ha
          rcases hWords a ha with ⟨hBool, hAny⟩
          rcases (Option.any_eq_true _ _).mp hAny with ⟨w, hw, hLow⟩
          have hOwn := (hTruth a ha hBool w hw).2.mpr (of_decide_eq_true hLow)
          rw [hw, Option.map_some, Option.getD_some, ← hOwn]
          rfl
      _ = [1, 1, 1, 0] := by decide +kernel
  · exact hReads truthMachine (by decide +kernel)
  · exact hConverts truthMachine 4096 (by decide) rfl

/-
  A constant that is neither zero nor one is kept as it is, or
  lost, and a field of one bit is read as minus one.
-/
theorem bool_holds_two :
    lastData? "_Bool a = 2;" = some [2] ∧
    lastData? "struct \x7b _Bool a : 1; _Bool b : 3; _Bool c[2]; \x7d s = \x7b 2, 6, 256, 3 \x7d;" =
      some [12, 0, 3] ∧ (truthField 1).held truthState.records truthMachine.mem
      (truthMachine.regs .rax) = 1 ∧
    (truthMachine.execAll? (memberRead truthState.records
      (truthField 1))).map (·.regs .rax) = some (-1) := by decide +kernel

end CCompiler
