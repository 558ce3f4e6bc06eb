import Mathlib
import CCompiler.Proofs.Codegen.RecordReturns
import CCompiler.Proofs.Codegen.VariableArguments

/-
  Where the variable arguments of a function begin.

  A function counts one register for each named parameter, a
  vector register if the type is floating and a general one
  otherwise, and takes it that no parameter is on the stack.
  These are the registers that the parameters fill only if
  each one finds its register and needs no other one.

  Main declarations:
    * `Codegen.occupied`, `Codegen.Frame.paramEnd`
    * `Codegen.VaStart.due`, `Codegen.Suited`
    * `Codegen.VaStart.written_eq_due_iff`
    * `Codegen.drop_homes`
    * `Codegen.variadic_entry`
-/

------------
-- Registers of Parameters
------------

namespace CCompiler

open Assembly

namespace Codegen

namespace ArgClass

/-
  The registers that an argument fills if it travels in them,
  one for each eightbyte that it has.
-/
def filled : ArgClass → RegisterUse
| .record size first second =>
  if size > 8 then (({} : RegisterUse).take first).take second
  else ({} : RegisterUse).take first
| .vector => ({} : RegisterUse).take true
| .extended => {}
| .general => ({} : RegisterUse).take false

/- The register that is counted for a named parameter. -/
def counted : ArgClass → RegisterUse
| .vector | .extended => ⟨0, 1⟩
| .record _ _ _ | .general => ⟨1, 0⟩

/- A class that fills the one register that is counted for it. -/
def Single : ArgClass → Prop
| .record size first _ => size ≤ 8 ∧ first = false
| .vector | .general => True
| .extended => False

instance : DecidablePred Single
| .record size first _ =>
  inferInstanceAs (Decidable (size ≤ 8 ∧ first = false))
| .vector | .general => .isTrue trivial
| .extended => .isFalse id

end ArgClass

/- The registers of several arguments. -/
def together (f : ArgClass → RegisterUse) :
    List ArgClass → RegisterUse
| [] => {}
| c :: cs => (f c).plus (together f cs)

/- The registers that parameters fill, for those that find any. -/
def occupied : RegisterUse → List ArgClass → RegisterUse
| _, [] => {}
| u, c :: cs =>
  if (u.pass c).1 then c.filled.plus (occupied (u.pass c).2 cs)
  else occupied (u.pass c).2 cs

namespace Frame

/- The place behind the parameters on the stack. -/
def paramEnd (p : Program) :
    RegisterUse → Int → List ObjId → Int
| _, top, [] => alignUp top 8
| u, top, id :: ids =>
  let c := u.pass (ArgClass.of p.records (typeOf p id))
  if c.1 then paramEnd p c.2 top ids
  else
    paramEnd p c.2
      (wrap64 (alignUp top 8 + (typeOf p id).size p.records))
      ids

end Frame

variable {p : Program} {rs : Records}

/- The classes of some variables. -/
def classesOf (p : Program) (ids : List ObjId) :
    List ArgClass :=
  (ids.map (typeOf p)).map (ArgClass.of p.records)

/- What the list of variable arguments should start with. -/
def VaStart.due (p : Program) (params : List ObjId) : VaStart :=
  let used := occupied {} (classesOf p params)
  ⟨(used.general : Int) * 8, (used.vector : Int) * 8 + 48,
    Frame.paramEnd p {} 16 params⟩

/-
  Parameters that the count suits: each one travels in the one
  register that is counted for it.
-/
structure Suited (p : Program) (params : List ObjId) :
    Prop where
  registers : ∀ b ∈ passAll {} (classesOf p params), b = true
  single : ∀ c ∈ classesOf p params, c.Single

------------
-- Counting
------------

/- What is counted for a type. -/
theorem counted_of (rs : Records) (t : CType) :
    (ArgClass.of rs t).counted = if t.isFloating then ⟨0, 1⟩ else ⟨1, 0⟩ := by
  unfold ArgClass.of CType.isFloating
  cases t.plain with
  | floating k => cases k <;> rfl
  | _ => rfl

theorem together_counted (rs : Records) (ts : List CType) :
    together ArgClass.counted (ts.map (ArgClass.of rs)) =
      ⟨ts.length - (ts.filter CType.isFloating).length, (ts.filter CType.isFloating).length⟩ := by
  induction ts with
  | nil => rfl
  | cons t ts ih =>
    have hMost := List.length_filter_le CType.isFloating ts
    rw [List.map_cons, together, ih, counted_of]
    cases hFloating : t.isFloating <;> simp [RegisterUse.plus, hFloating] <;> omega

/- What is written, in terms of what is counted. -/
theorem VaStart.written_eq (rs : Records) (ts : List CType) :
    VaStart.written ts =
      let u := together ArgClass.counted
        (ts.map (ArgClass.of rs))
      ⟨(u.general : Int) * 8, (u.vector : Int) * 8 + 48, 16⟩ := by
  rw [together_counted]
  rfl

variable {u : RegisterUse} {cs : List ArgClass}

/- An extended value does not travel in registers. -/
theorem ne_extended_of_marked (hMarked : ∀ b ∈ passAll u cs, b = true) :
    ∀ c ∈ cs, c ≠ .extended := by
  induction cs generalizing u with
  | nil => simp
  | cons c cs ih =>
    simp only [passAll, List.forall_mem_cons] at hMarked ⊢
    refine ⟨?_, ih hMarked.2⟩
    rintro rfl
    cases hMarked.1

theorem occupied_of_marked (hMarked : ∀ b ∈ passAll u cs, b = true) :
    occupied u cs = together ArgClass.filled cs := by
  induction cs generalizing u with
  | nil => rfl
  | cons c cs ih =>
    simp only [passAll, List.forall_mem_cons] at hMarked
    rw [occupied, if_pos hMarked.1, ih hMarked.2, together]

namespace ArgClass

variable {c : ArgClass}

theorem vector_le (hClass : c ≠ .extended) : c.counted.vector ≤ c.filled.vector := by
  cases c with
  | extended => exact absurd rfl hClass
  | record => exact Nat.zero_le _
  | _ => exact le_rfl

/- A class without vector registers has general ones. -/
theorem general_le (hClass : c ≠ .extended) (hVector : c.counted.vector = c.filled.vector) :
    c.counted.general ≤ c.filled.general := by
  cases c with
  | extended => exact absurd rfl hClass
  | record size first second =>
    have hSome : 1 ≤ (filled (.record size first second)).general +
          (filled (.record size first second)).vector := by
      by_cases hLarge : size > 8 <;> cases first <;>
        cases second <;> simp [filled, RegisterUse.take, hLarge]
    change 0 = (filled _).vector at hVector
    change 1 ≤ (filled _).general
    omega
  | _ => exact le_rfl

theorem counted_eq_filled_iff (hClass : c ≠ .extended) : c.counted = c.filled ↔ c.Single := by
  cases c with
  | extended => exact absurd rfl hClass
  | record size first second =>
    by_cases hLarge : size > 8 <;> cases first <;>
      cases second <;> simp [counted, filled, RegisterUse.take, Single, hLarge] <;> omega
  | _ => simp [counted, filled, RegisterUse.take, Single]

end ArgClass

theorem together_vector_le (hClasses : ∀ c ∈ cs, c ≠ .extended) :
    (together ArgClass.counted cs).vector ≤ (together ArgClass.filled cs).vector := by
  induction cs with
  | nil => exact le_rfl
  | cons c cs ih =>
    rw [List.forall_mem_cons] at hClasses
    exact Nat.add_le_add (ArgClass.vector_le hClasses.1) (ih hClasses.2)

theorem together_general_le (hClasses : ∀ c ∈ cs, c ≠ .extended)
    (hVector : (together ArgClass.counted cs).vector =
      (together ArgClass.filled cs).vector) :
    (together ArgClass.counted cs).general ≤ (together ArgClass.filled cs).general := by
  induction cs with
  | nil => exact le_rfl
  | cons c cs ih =>
    rw [List.forall_mem_cons] at hClasses
    have hFirst := ArgClass.vector_le hClasses.1
    have hRest := together_vector_le hClasses.2
    simp only [together, RegisterUse.plus_vector, RegisterUse.plus_general] at hVector ⊢
    exact Nat.add_le_add (ArgClass.general_le hClasses.1 (by omega)) (ih hClasses.2 (by omega))

/-
  Without extended values, what is counted is what is filled
  only if it is for each parameter: no vector register is
  counted that is not filled, and if these agree, neither is a
  general one.
-/
theorem together_eq_iff (hClasses : ∀ c ∈ cs, c ≠ .extended) :
    together ArgClass.counted cs = together ArgClass.filled cs ↔ ∀ c ∈ cs, c.Single := by
  induction cs with
  | nil => simp [together]
  | cons c cs ih =>
    rw [List.forall_mem_cons] at hClasses ⊢
    rw [← ih hClasses.2, ← ArgClass.counted_eq_filled_iff hClasses.1]
    constructor
    · intro hBoth
      have hVector := congrArg RegisterUse.vector hBoth
      have hGeneral := congrArg RegisterUse.general hBoth
      simp only [together, RegisterUse.plus_vector, RegisterUse.plus_general] at hVector hGeneral
      have hFirst := ArgClass.vector_le hClasses.1
      have hRest := together_vector_le hClasses.2
      have hFirst' := ArgClass.general_le hClasses.1 (by omega)
      have hRest' := together_general_le hClasses.2 (by omega)
      constructor
      · rw [RegisterUse.mk.injEq]
        constructor <;> omega
      · rw [RegisterUse.mk.injEq]
        constructor <;> omega
    · rintro ⟨hFirst, hRest⟩
      rw [together, together, hFirst, hRest]

end Codegen

------------
-- The End of the Parameters
------------

namespace Codegen

variable {p : Program}

theorem eight_dvd_roomOf (rs : Records) (ts : List CType) : 8 ∣ roomOf rs ts := by
  induction ts with
  | nil => simp [roomOf]
  | cons t ts ih =>
    rw [roomOf_cons]
    exact (Int.dvd_mul_left _ _).add ih

variable {u : RegisterUse}

/- The end is as far away as the stack parameters take room. -/
theorem paramEnd_eq {top : Int} {ids : List ObjId}
    (hParams : ∀ id ∈ ids, IsParameter p.records (typeOf p id)) (hLow : 0 ≤ top)
    (hFits : (top + 7) / 8 * 8 + 7 +
      roomOf p.records (ids.map (typeOf p)) < wordEnd) :
    Frame.paramEnd p u top ids = (top + 7) / 8 * 8 + roomOf p.records
        (stackPassed (ids.map (typeOf p)) (passAll u (classesOf p ids))) := by
  induction ids generalizing u top with
  | nil =>
    have hRoom : roomOf p.records (([] : List ObjId).map (typeOf p)) = 0 := rfl
    rw [hRoom] at hFits
    rw [Frame.paramEnd, alignUp_eight hLow (by omega)]
    simp [roomOf]
  | cons id ids ih =>
    rw [List.forall_mem_cons] at hParams
    have hRest : 0 ≤ roomOf p.records (ids.map (typeOf p)) :=
      roomOf_nonneg (by simpa using hParams.2)
    rw [List.map_cons, roomOf_cons] at hFits
    have hSize := hParams.1.complete
    simp only [Frame.paramEnd, classesOf, List.map_cons, passAll]
    cases hMark : (u.pass (ArgClass.of p.records (typeOf p id))).1 with
    | true =>
      rw [if_pos rfl, stackPassed_true]
      exact ih hParams.2 hLow (by omega)
    | false =>
      rw [if_neg Bool.false_ne_true, stackPassed_false, roomOf_cons, alignUp_eight hLow (by omega),
        wrap64_of_fits (by simp only [wordEnd]; omega) (by omega),
        ih hParams.2 (by omega) (by omega)]
      simp only [classesOf]
      omega

variable {ts : List CType} {marks : List Bool}

/- Something on the stack takes room. -/
theorem marked_of_room_eq_zero {rs : Records} (hSizes : ∀ t ∈ ts, 0 < t.size rs)
    (hLength : marks.length = ts.length) (hRoom : roomOf rs (stackPassed ts marks) = 0) :
    ∀ b ∈ marks, b = true := by
  have hNonneg : ∀ us : List CType, (∀ t ∈ us, 0 < t.size rs) → 0 ≤ roomOf rs us := by
    intro us hPositive
    induction us with
    | nil => simp [roomOf]
    | cons u us ih =>
      rw [List.forall_mem_cons] at hPositive
      have hRest := ih hPositive.2
      rw [roomOf_cons]
      omega
  induction ts generalizing marks with
  | nil =>
    rw [List.length_eq_zero_iff.mp hLength]
    simp
  | cons t ts ih =>
    obtain ⟨mark, marks, rfl⟩ := List.exists_cons_of_length_eq_add_one hLength
    rw [List.forall_mem_cons] at hSizes ⊢
    have hTail : marks.length = ts.length := by simpa using hLength
    cases mark with
    | true =>
      rw [stackPassed_true] at hRoom
      exact ⟨rfl, ih hSizes.2 hTail hRoom⟩
    | false =>
      rw [stackPassed_false, roomOf_cons] at hRoom
      have hRest := hNonneg (stackPassed ts marks)
        fun u hu => hSizes.2 u (mem_of_mem_stackPassed hu)
      omega

theorem stackPassed_of_marked {α : Type} {xs : List α} (hMarked : ∀ b ∈ marks, b = true) :
    stackPassed xs marks = [] := by
  unfold stackPassed
  rw [List.map_eq_nil_iff, List.filter_eq_nil_iff]
  rintro ⟨x, b⟩ hMem
  simp [hMarked b (List.of_mem_zip hMem).2]

/-
  What is written is what is due only for parameters that the
  count suits: nothing on the stack, and one register of the
  counted kind for each.
-/
theorem VaStart.written_eq_due_iff {params : List ObjId}
    (hParams : ∀ id ∈ params, IsParameter p.records (typeOf p id) ∧
        0 < (typeOf p id).size p.records)
    (hFits : 16 + roomOf p.records (params.map (typeOf p)) < wordEnd) :
    VaStart.written (params.map (typeOf p)) = VaStart.due p params ↔ Suited p params := by
  have hDivides := eight_dvd_roomOf p.records (params.map (typeOf p))
  have hWord : 8 ∣ wordEnd := by decide
  have hEnd : Frame.paramEnd p {} 16 params = (16 + 7) / 8 * 8 + roomOf p.records
          (stackPassed (params.map (typeOf p)) (passAll {} (classesOf p params))) :=
    paramEnd_eq (fun id hId => (hParams id hId).1) (by decide) (by omega)
  rw [VaStart.written_eq p.records, VaStart.due, hEnd]
  simp only [VaStart.mk.injEq]
  constructor
  · rintro ⟨hGp, hFp, hOverflow⟩
    have hMarked : ∀ b ∈ passAll {} (classesOf p params), b = true :=
      marked_of_room_eq_zero (List.forall_mem_map.mpr fun id hId => (hParams id hId).2)
        (by simp [classesOf, length_passAll]) (by omega)
    refine ⟨hMarked, ?_⟩
    rw [occupied_of_marked hMarked] at hGp hFp
    rw [← together_eq_iff (ne_extended_of_marked hMarked), RegisterUse.mk.injEq]
    unfold classesOf at hGp hFp ⊢
    constructor <;> omega
  · rintro ⟨hMarked, hSingle⟩
    have hSame := (together_eq_iff (ne_extended_of_marked hMarked)).mpr hSingle
    rw [occupied_of_marked hMarked, ← hSame, stackPassed_of_marked hMarked]
    exact ⟨rfl, rfl, rfl⟩

------------
-- Behind the Parameters
------------

variable {rs : Records}

/- The registers that an argument is popped into, if any. -/
theorem unload_filled {c : ArgClass} (hSome : (u.unload c).1 ≠ []) :
    (u.unload c).2 = u.plus c.filled := by
  cases c with
  | record size first second =>
    simp only [RegisterUse.unload] at hSome ⊢
    split at hSome <;> rename_i hTest
    · exact absurd rfl hSome
    · rw [if_neg hTest, ArgClass.filled]
      by_cases hLarge : size > 8 <;> cases first <;>
        cases second <;> simp [hLarge, RegisterUse.take, RegisterUse.plus]
  | extended => exact absurd rfl hSome
  | _ =>
    simp only [RegisterUse.unload] at hSome ⊢
    split at hSome <;> rename_i hTest
    · rw [if_pos hTest]
      rfl
    · exact absurd rfl hSome

/- No more registers are popped into than there are. -/
theorem unload_bounded (c : ArgClass) (hGeneral : u.general ≤ generalCount)
    (hVector : u.vector ≤ vectorCount) :
    (u.unload c).2.general ≤ generalCount ∧ (u.unload c).2.vector ≤ vectorCount := by
  cases c with
  | record size first second =>
    simp only [RegisterUse.unload]
    split <;> rename_i hTest
    · exact ⟨hGeneral, hVector⟩
    · have hFits : u.fits first second = true := by simp_all
      unfold RegisterUse.fits at hFits
      cases first <;> cases second <;> simp_all [RegisterUse.take] <;> split <;>
          dsimp only <;> omega
  | extended => exact ⟨hGeneral, hVector⟩
  | vector =>
    simp only [RegisterUse.unload]
    split
    · exact ⟨hGeneral, by assumption⟩
    · exact ⟨hGeneral, hVector⟩
  | general =>
    simp only [RegisterUse.unload]
    split
    · exact ⟨by assumption, hVector⟩
    · exact ⟨hGeneral, hVector⟩

/- One register takes all of what a single class has. -/
theorem eightbytes_of_single {t : CType} (hSize : 0 < t.size rs)
    (hSingle : (ArgClass.of rs t).Single) : (ArgClass.of rs t).eightbytes = 1 := by
  cases hClass : ArgClass.of rs t with
  | record size first second =>
    have hOwn : size = t.size rs := by
      unfold ArgClass.of at hClass
      split at hClass <;> simp_all
    rw [hClass] at hSingle
    have hSmall : size ≤ 8 := hSingle.1
    have hRound : alignUp size 8 = 8 := by
      rw [alignUp_eight (by omega) (by simp only [wordEnd]; omega)]
      omega
    rw [ArgClass.eightbytes, hRound]
    rfl
  | extended =>
    rw [hClass] at hSingle
    exact hSingle.elim
  | _ => rfl

/-
  Behind parameters that the count suits, the homes of further
  arguments start where the count ends.
-/
theorem drop_homes {pushing popping : RegisterUse} (place : Int) {us : List CType}
    (hSizes : ∀ t ∈ ts, 0 < t.size rs)
    (hMarked : ∀ b ∈ passAll pushing (ts.map (ArgClass.of rs)), b = true)
    (hSingle : ∀ t ∈ ts, (ArgClass.of rs t).Single)
    (hMatched : AllMatched pushing popping ((ts ++ us).map (ArgClass.of rs)))
    (hGeneral : popping.general ≤ generalCount) (hVector : popping.vector ≤ vectorCount) :
    let used := popping.plus
      (together ArgClass.counted (ts.map (ArgClass.of rs)))
    used.general ≤ generalCount ∧ used.vector ≤ vectorCount ∧ ∃ behind,
      (homes rs pushing popping place (ts ++ us)).drop ts.length = homes rs behind used place us ∧
        AllMatched behind used (us.map (ArgClass.of rs)) := by
  induction ts generalizing pushing popping with
  | nil => exact ⟨hGeneral, hVector, pushing, rfl, hMatched⟩
  | cons t ts ih =>
    rw [List.forall_mem_cons] at hSizes hSingle
    simp only [List.map_cons, passAll, List.forall_mem_cons] at hMarked
    obtain ⟨hFirst, hRest⟩ := hMatched
    have hSome : (popping.unload (ArgClass.of rs t)).1 ≠ [] := by
      unfold Matched at hFirst
      rw [if_pos hMarked.1, eightbytes_of_single hSizes.1 hSingle.1] at hFirst
      intro hNone
      rw [hNone] at hFirst
      cases hFirst
    have hClass : ArgClass.of rs t ≠ .extended := by
      intro hExtended
      rw [hExtended] at hSome
      exact hSome rfl
    have hBounded := unload_bounded (ArgClass.of rs t) hGeneral hVector
    have hHome : (homeOf rs pushing popping place t).2 = place := by rw [homeOf, if_pos hMarked.1]
    have hUsed : (popping.unload (ArgClass.of rs t)).2.plus
            (together ArgClass.counted (ts.map (ArgClass.of rs))) =
          popping.plus (together ArgClass.counted ((t :: ts).map (ArgClass.of rs))) := by
      rw [unload_filled hSome, List.map_cons, together,
        (ArgClass.counted_eq_filled_iff hClass).mpr hSingle.1]
      simp only [RegisterUse.plus, Nat.add_assoc]
    have hBehind := ih hSizes.2 hMarked.2 hSingle.2 hRest hBounded.1 hBounded.2
    rw [hUsed] at hBehind
    rw [List.cons_append, homes_cons, List.length_cons, List.drop_succ_cons, hHome]
    exact hBehind

------------
-- The Entry of a Function
------------

open Assembly

/- The lines that a function begins with. -/
def entryLines (c : Context) : List Line :=
  [linkage c.function, .enter .code,
    .type c.function.symbol .function].map .directive ++
  .label (.named c.function.symbol) :: [Instr.push .rbp, .mov .rsp .rbp,
    .alu .sub (.imm c.frame.size) .rsp,
    .mov .rsp (.slot c.allocaBottom)].map .instr

theorem writes_lines (ls : List Line) : (Emit.lines ls).Writes ls := by
  intro k r hRun
  cases hRun
  rfl

theorem writes_label (l : Label) : (Emit.label l).Writes [.label l] := by
  intro k r hRun
  cases hRun
  rfl

variable {k : Counters} {r : Emitted Unit}

/- What a computation does behind its first lines. -/
theorem Emit.Writes.exists_behind {x : Emit Unit} {f : Unit → Emit Unit} {code : List Line}
    (hWrites : x.Writes code) (hRun : (x >>= f) k = .ok r) :
    ∃ k' b, f () k' = .ok b ∧ r.code = code ++ b.code := by
  obtain ⟨a, b, hFirst, hNext, hCode⟩ := Emit.exists_parts hRun
  rw [hWrites k a hFirst] at hCode
  exact ⟨a.counters, b, hNext, hCode⟩

/- Behind these lines the area is prepared. -/
theorem exists_saveRegisters {c : Context} {area : ObjId} (hArea : c.function.vaArea? = some area)
    (hRun : function c k = .ok r) :
    ∃ rest, r.code = entryLines c ++ (saveRegisters (c.function.params.map (typeOf c.program))
        (c.frame.offset area)).map .instr ++ rest := by
  simp only [function, hArea] at hRun
  obtain ⟨_, _, hRun, hNames⟩ := (writes_lines _).exists_behind hRun
  obtain ⟨_, _, hRun, hLabel⟩ := (writes_label _).exists_behind hRun
  obtain ⟨_, _, hRun, hEntry⟩ := (writes_code _).exists_behind hRun
  obtain ⟨_, rest, -, hSave⟩ := (writes_code _).exists_behind hRun
  refine ⟨rest.code, ?_⟩
  rw [hNames, hLabel, hEntry, hSave, entryLines]
  simp only [List.append_assoc, List.cons_append, List.nil_append]
  rfl

variable {area : Int} {v : VaStart} {p' : Processor}

/- The list that is prepared. -/
theorem read_prepared {p : Processor} (hPrepared : Prepared v area p p') :
    VaList.read p'.machine.mem (placeOf p.machine.regs area) =
      { gp := BitVec.ofInt 32 v.gp
        fp := BitVec.ofInt 32 v.fp
        overflow := placeOf p.machine.regs v.overflow
        saved := placeOf p.machine.regs (area + 24) } := by
  exact VaList.ext hPrepared.gp hPrepared.fp hPrepared.overflow hPrepared.saved

/- It is in step with the registers that it counts. -/
theorem tracks_prepared {p : Processor} {used : RegisterUse} (hPrepared : Prepared v area p p')
    (hStart : v = ⟨(used.general : Int) * 8, (used.vector : Int) * 8 + 48, 16⟩)
    (hGeneral : used.general ≤ generalCount) (hVector : used.vector ≤ vectorCount)
    (hAligned : (p.machine.regs .rbp).toNat % 8 = 0)
    (hFits : (p.machine.regs .rbp).toNat + 16 < 2 ^ 64) :
    Tracks p p' (VaList.read p'.machine.mem (placeOf p.machine.regs area)) used 16 := by
  have hOverflow : (placeOf p.machine.regs 16).toNat = (p.machine.regs .rbp).toNat + 16 := by
    rw [placeOf, BitVec.toNat_add]
    change ((p.machine.regs .rbp).toNat + 16) % 2 ^ 64 = _
    omega
  have hFew : used.general ≤ 6 := hGeneral
  have hFew' : used.vector ≤ 8 := hVector
  rw [read_prepared hPrepared, hStart]
  exact {
    gp := by
      dsimp only
      rw [BitVec.toNat_ofInt]
      omega
    fp := by
      dsimp only
      rw [BitVec.toNat_ofInt]
      omega
    overflow := by
      dsimp only
      rw [hOverflow]
      omega
    aligned := by
      dsimp only
      rw [hOverflow]
      omega
    generals := hGeneral
    vectors := hVector
    general := hPrepared.general
    vector := hPrepared.vector }

/-
  The entry of a function with variable arguments counts 8
  bytes for each parameter, takes it that these are in
  registers, and saves the registers.  The counts and the
  address of the arguments on the stack are those behind the
  parameters if and only if the count suits the parameters.
  In this case further arguments are fetched in order, each
  one at its home, if the caller pops them as it pushed them
  and they are looked for where their types travel.
-/
theorem variadic_entry {c : Context} {area : ObjId} (hArea : c.function.vaArea? = some area)
    (hParams : ∀ id ∈ c.function.params,
      IsParameter c.records (typeOf c.program id) ∧
        0 < (typeOf c.program id).size c.records)
    (hRoom : 16 + roomOf c.records
      (c.function.params.map (typeOf c.program)) < wordEnd) :
    let params := c.function.params
    let types := params.map (typeOf c.program)
    let place := c.frame.offset area
    (∀ k r, function c k = .ok r → ∃ rest, r.code = entryLines c ++
        (saveRegisters types place).map .instr ++ rest) ∧
    (VaStart.written types = VaStart.due c.program params ↔
      Suited c.program params) ∧ ∀ p : Processor, ∃ p',
      p.execAll? (saveRegisters types place) = some p' ∧
      Prepared (VaStart.written types) place p p' ∧ (Suited c.program params →
        ∀ further : List CType, (∀ t ∈ further, Readable c.records t) →
        AllMatched {} {} ((types ++ further).map (ArgClass.of c.records)) →
        (p.machine.regs .rbp).toNat % 8 = 0 → (p.machine.regs .rbp).toNat + 16 +
          roomOf c.records further + 7 < 2 ^ 64 →
        List.Forall₂ (fun home a => home.Found p p' a)
          ((homes c.records {} {} 16 (types ++ further)).drop types.length)
          ((VaList.read p'.machine.mem
            (placeOf p.machine.regs place)).fetchAll c.records further)) := by
  intro params types place
  refine ⟨fun k r hRun => exists_saveRegisters hArea hRun,
    VaStart.written_eq_due_iff hParams hRoom, fun p => ?_⟩
  obtain ⟨p', hExec, hPrepared⟩ := prepared_saveRegisters types place p
  refine ⟨p', hExec, hPrepared, ?_⟩
  intro hSuited further hReadable hMatched hAligned hFits
  have hSizes : ∀ t ∈ types, 0 < t.size c.records :=
    List.forall_mem_map.mpr fun id hId => (hParams id hId).2
  have hSingle : ∀ t ∈ types, (ArgClass.of c.records t).Single :=
    List.forall_mem_map.mp hSuited.single
  obtain ⟨hGeneral, hVector, behind, hDrop, hRest⟩ :=
    drop_homes 16 hSizes hSuited.registers hSingle hMatched (Nat.zero_le _) (Nat.zero_le _)
  have hFurther : 0 ≤ roomOf c.records further :=
    List.sum_nonneg (List.forall_mem_map.mpr fun t ht => by
      have hPositive := (hReadable t ht).size_pos
      omega)
  have hStart := VaStart.written_eq c.records types
  rw [hDrop]
  refine fetchAll_homes (tracks_prepared hPrepared ?_
    hGeneral hVector hAligned (by omega)) hReadable hRest hFits
  rw [hStart]
  simp [RegisterUse.plus]

/- A function with some parameters and variable arguments. -/
def variadicContext (types : List CType) : Context :=
  let area : CType := .array 0 .char 136 136 1
  let p := variablesUnit sampleRecords (types ++ [area])
  let ids := List.range types.length
  let fn : Obj :=
    { name := [], type := .void, align := 1, params := ids,
      locals := ids ++ [types.length],
      vaArea? := some types.length }
  ⟨p, false, fn, Frame.of p fn⟩

/- A pointer, a number of each kind and a small record. -/
def suitedTypes : List CType :=
  [.ptr (.record 1), .int, .double, .record 0]

/- A machine at the entry of a function. -/
def enteredAt : Processor where
  machine :=
    { regs := fun r => if r = .rbp then 2 ^ 47 else 0
      mem := fun _ => 0
      flags? := none }
  vectors := fun _ => 0

/-
  Behind them, values of different kinds are read in order,
  from the registers that are left and from the stack.
-/
theorem variadic_entry_suited :
    let c := variadicContext suitedTypes
    ∃ p', enteredAt.execAll? (saveRegisters suitedTypes (c.frame.offset 4)) = some p' ∧ List.Forall₂
        (fun (home : Home) a => home.Found enteredAt p' a)
        [.registers [.general 3], .registers [.vector 1], .stack 16, .registers [.general 4],
          .registers [.general 5], .stack 40]
        ((VaList.read p'.machine.mem (placeOf enteredAt.machine.regs
            (c.frame.offset 4))).fetchAll sampleRecords
          [.int, .double, .record 1, .long, .ptr .void, .int]) := by
  intro c
  have hTypes : c.function.params.map (typeOf c.program) = suitedTypes := rfl
  have hHomes : (homes sampleRecords {} {} 16 (suitedTypes ++
        [.int, .double, .record 1, .long, .ptr .void, .int])).drop suitedTypes.length =
        [.registers [.general 3], .registers [.vector 1], .stack 16, .registers [.general 4],
          .registers [.general 5], .stack 40] := by
    decide +kernel
  obtain ⟨-, -, hEntry⟩ := @variadic_entry c 4 rfl (by
      intro id hId
      have hDecided : ∀ id ∈ c.function.params, 0 < (typeOf c.program id).size c.records ∧
            (typeOf c.program id).isArray = false := by
        decide +kernel
      obtain ⟨hSize, hArray⟩ := hDecided id hId
      exact ⟨⟨hSize.le, hArray⟩, hSize⟩)
    (by decide +kernel)
  rw [hTypes] at hEntry
  obtain ⟨p', hExec, -, hFetch⟩ := hEntry enteredAt
  refine ⟨p', hExec, ?_⟩
  rw [← hHomes]
  refine hFetch ⟨by decide +kernel, by decide +kernel⟩ _ ?_
    ((allMatched_iff _ _).mpr (by decide +kernel))
    (by decide +kernel) (by decide +kernel)
  simp only [List.forall_mem_cons]
  refine ⟨.inl rfl, .inr (.inr (.inl rfl)), ?_, .inl rfl, .inr (.inl rfl), .inl rfl, by simp⟩
  exact .inr (.inr (.inr (by decide +kernel)))

/-
  Of eight integers two are on the stack, but eight registers
  are counted, and the place of the seventh one is taken for
  that of the first further argument.
-/
theorem eight_parameters_miscounted :
    let c := variadicContext (List.replicate 8 .int)
    VaStart.written (c.function.params.map (typeOf c.program)) = ⟨64, 48, 16⟩ ∧
      VaStart.due c.program c.function.params = ⟨48, 48, 32⟩ := by
  decide +kernel

end Codegen

end CCompiler
