import Mathlib
import CCompiler.Proofs.Syntax.GlobalObjects

/-
  The account of the objects of a unit is kept.  A declaration
  of a variable leaves one object behind, as it says, and a
  declaration of a function leaves no data.

  Main declarations:
    * `InitialValue.still_fill`, `InitialValue.globalInit_adds`
    * `Declaration.keeps_unitVariable`
    * `Declaration.runs_function`
    * `Account.objects_rules`
-/

------------
-- Filling in Data
------------

namespace CCompiler

open Parse Account

variable {α : Type}

namespace InitialValue

instance still_accessed (a? : Option α) : Still (accessed a?) := by
  cases a? <;> unfold accessed <;> infer_instance

instance still_fillScalar (rs : Records) (t : CType) (e : Expr) (offset : Int) (image : Image) :
    Still (fillScalar rs t e offset image) := by
  unfold fillScalar
  split
  iterate 3 infer_instance
  refine still_step fun x => ?_
  obtain ⟨v, symbol?⟩ := x
  cases symbol? <;> infer_instance

instance still_fillBits (rs : Records) (m : Member) (b : BitField) (c : Init) (offset : Int)
    (image : Image) : Still (fillBits rs m b c offset image) := by
  unfold fillBits
  split <;> infer_instance

section Filling

variable {rs : Records} {P : Expr → Prop} {R : Image → Image → Prop}
  {cs : List Init}

/- Filling in a tree changes the data as described. -/
def Fills (rs : Records) (R : Image → Image → Prop) (i : Init) : Prop :=
  ∀ offset t image, Quiet (fill rs offset t i image) (R image)

theorem quiet_fillElements (hRefl : ∀ i, R i i) (hTrans : ∀ {i j k}, R i j → R j k → R i k)
    (hAll : ∀ c ∈ cs, Fills rs R c) (offset : Int) (t : CType) (left : Int) (image : Image) :
    Quiet (fillElements rs offset t left cs image) (R image) := by
  induction cs generalizing offset left image with
  | nil =>
    unfold fillElements
    exact quiet_pure (hRefl image)
  | cons c cs ih =>
    unfold fillElements
    refine quiet_ite (fun _ => ?_) (fun _ => quiet_pure (hRefl image))
    refine (hAll c (by simp) _ _ _).bind fun next hFirst => ?_
    exact (ih (fun d hd => hAll d (by simp [hd])) _ _ _).mono fun _ hRest => hTrans hFirst hRest

theorem quiet_fillFields (hRefl : ∀ i, R i i) (hTrans : ∀ {i j k}, R i j → R j k → R i k)
    (hBits : ∀ m b c offset image, c ∈ cs →
      Quiet (fillBits rs m b c offset image) (R image)) (hAll : ∀ c ∈ cs, Fills rs R c)
    (offset : Int) (ms : List Member) (image : Image) :
    Quiet (fillFields rs offset ms cs image) (R image) := by
  induction cs generalizing ms image with
  | nil =>
    unfold fillFields
    cases ms <;> exact quiet_pure (hRefl image)
  | cons c cs ih =>
    have hRest := ih (fun m b d o i hd => hBits m b d o i (List.mem_cons_of_mem c hd))
      fun d hd => hAll d (List.mem_cons_of_mem c hd)
    cases ms with
    | nil =>
      unfold fillFields
      exact quiet_pure (hRefl image)
    | cons m ms =>
      unfold fillFields
      split
      · exact (hBits _ _ c _ _ (by simp)).bind fun next hFirst =>
          (hRest _ _).mono fun _ hLast => hTrans hFirst hLast
      · exact (hAll c (by simp) _ _ _).bind fun next hFirst =>
          (hRest _ _).mono fun _ hLast => hTrans hFirst hLast

theorem quiet_fillField (hAll : ∀ c ∈ cs, Fills rs R c) (offset : Int) (t : CType) (n : Nat)
    (image : Image) : Quiet (fillField rs offset t cs n image) (R image) := by
  induction cs generalizing n with
  | nil =>
    unfold fillField
    exact quiet_throw _
  | cons c cs ih =>
    unfold fillField
    cases n with
    | zero => exact hAll c (by simp) _ _ _
    | succ n => exact ih (fun d hd => hAll d (by simp [hd])) n

/-
  Filling in the data of an object is not about objects, and
  what each scalar and each bit-field does to the data, all of
  them do together.
-/
theorem quiet_fill (hRefl : ∀ i, R i i) (hTrans : ∀ {i j k}, R i j → R j k → R i k)
    (hScalar : ∀ t e offset image, P e →
      Quiet (fillScalar rs t e offset image) (R image))
    (hBits : ∀ m b c offset image, (∀ e, c.expr? = some e → P e) →
      Quiet (fillBits rs m b c offset image) (R image)) {i : Init} (hInit : i.All P) :
    Fills rs R i := by
  induction hInit with
  | @mk t' isOpen expr? children member? hOwn hChildren ih =>
    obtain ⟨cs⟩ := children
    intro offset t image
    unfold fill
    refine quiet_ite (fun _ => quiet_fillElements hRefl hTrans ih _ _ _ _)
      fun _ => quiet_ite (fun _ => ?_) fun _ => quiet_ite (fun _ => ?_) fun _ => ?_
    · cases expr? with
      | some e => exact quiet_fail _ _
      | none =>
        exact quiet_fillFields hRefl hTrans (fun m b c o i hc => hBits m b c o i fun e he =>
            (hChildren c hc).expr he) ih _ _ _
    · split
      · exact quiet_pure (hRefl image)
      · exact quiet_fillField ih _ _ _ _
    · cases expr? with
      | none => exact quiet_pure (hRefl image)
      | some e => exact hScalar t e offset image (hOwn e rfl)

end Filling

/- Filling in the data of an object is not about objects. -/
instance still_fill (rs : Records) (offset : Int) (t : CType) (i : Init) (image : Image) :
    Still (fill rs offset t i image) :=
  ⟨quiet_fill (R := fun _ _ => True) (fun _ => trivial) (fun _ _ => trivial)
    (fun t e o i _ => (still_fillScalar rs t e o i).quiet)
    (fun m b c o i _ => (still_fillBits rs m b c o i).quiet) (Init.all_true i) offset t image⟩

variable {r : Reader} {v : ObjId} {s s' : ParseState}

/-
  The data of a variable are filled in from the tree that was
  read, and nothing else is said of the variable meanwhile.
-/
theorem globalInit_adds [hReads : Account.objects.Reads r] (hSound : s.Sound)
    (hObject : v < s.objects.size) (hPlain : ¬ (s.objects.entry v).Plain)
    (hTentative : (s.objects.entry v).isTentative = false) (hRun : globalInit r v s = .ok () s') :
    s'.Sound ∧ s.AddsBut (· = v) s' ∧ ∃ t type data relocs, s.Adds t ∧
        s'.objects.entry v = { t.objects.entry v with
          type := type
          data? := some data
          relocs := relocs } := by
  obtain ⟨o, s₀, hGet, hRun⟩ := exists_of_bind hRun
  cases hGet
  obtain ⟨tree, t, hTree, hRun⟩ := exists_of_bind hRun
  obtain ⟨hSound₁, hAdds₁, -⟩ := (Initializer.keeps_complete (A := objects) _).run hSound hTree
  obtain ⟨⟨⟩, t₁, hType, hRun⟩ := exists_of_bind hRun
  obtain rfl := modifyObject_run hType
  obtain ⟨rs, t₂, hRecords, hRun⟩ := exists_of_bind hRun
  cases hRecords
  dsimp only at hRun
  split at hRun
  · obtain ⟨_, _, _, hFail⟩ := exists_of_bind hRun
    obtain ⟨_, _, hNever, -⟩ := exists_of_bind hFail
    cases hNever
  rename_i hSize
  obtain ⟨image, t₃, hFill, hRun⟩ := exists_of_bind hRun
  obtain ⟨hQuiet, -⟩ := (still_fill _ _ _ _ _).quiet _ _ _ hFill
  obtain rfl := modifyObject_run hRun
  have hObject₁ := hObject.trans_le hAdds₁.kept.size
  have hPlain₁ : ¬ (t.objects.entry v).Plain := by
    unfold Obj.Plain
    rw [hAdds₁.kept.isLocal v hObject, hAdds₁.kept.isFunction v hObject]
    exact hPlain
  have hEntry : t₃.objects.entry v = { t.objects.entry v with type := tree.type } := by
    rw [hQuiet.objects]
    exact Objects.entry_modify_self _ hObject₁
  have hSize₃ : v < t₃.objects.size := by
    rw [hQuiet.objects]
    simpa using hObject₁
  have hLocal : (t.objects.entry v).isLocal ≠ true := fun h => hPlain₁ (.inl h)
  have hFunction : (t.objects.entry v).isFunction ≠ true := fun h => hPlain₁ (.inr h)
  -- the object between the change of its type and that of its data
  -- need not be as it may be, so the two changes are taken together
  have hSound₂ : ∀ w, w ≠ v → (t₃.objects.entry w).Fine := by
    intro w hw
    rw [hQuiet.objects]
    change (Objects.entry (t.objects.modify v _) w).Fine
    rw [Objects.entry_modify_ne _ hw]
    exact hSound₁.fine w
  refine ⟨⟨fun w => ?_, fun w hw => ?_, fun f hf => ?_⟩, ?_, t, tree.type,
    image.bytes.toList, image.relocs.toList, hAdds₁, ?_⟩
  · by_cases hSame : w = v
    · subst hSame
      change (Objects.entry (t₃.objects.modify w _) w).Fine
      rw [Objects.entry_modify_self _ hSize₃, hEntry]
      refine ⟨fun hNever => absurd hNever hPlain₁, fun hNever => ?_,
        fun data hData => @Obj.Written.filled _ _ t.records tree ⟨by
          change 0 ≤ tree.type.size t.records
          omega, _, image, _, hFill, rfl, rfl⟩⟩
      have hNot := (hAdds₁.kept.isTentative w hObject).trans hTentative
      exact absurd (hNot.symm.trans hNever) (by decide)
    · change (Objects.entry (t₃.objects.modify v _) w).Fine
      rw [Objects.entry_modify_ne _ hSame]
      exact hSound₂ w hSame
  · change w < (t₃.objects.modify v _).size
    rw [Array.size_modify, hQuiet.objects]
    simpa using hSound₁.bound w (hQuiet.binds w hw)
  · obtain ⟨hIn, hIs⟩ := hSound₁.reading f (by
      rw [← hf]
      exact hQuiet.function?.symm)
    have hOther : f ≠ v := by
      rintro rfl
      exact hFunction hIs
    refine ⟨?_, ?_⟩
    · change f < (t₃.objects.modify v _).size
      rw [Array.size_modify, hQuiet.objects]
      simpa using hIn
    · change (Objects.entry (t₃.objects.modify v _) f).isFunction = true
      rw [Objects.entry_modify_ne _ hOther, hQuiet.objects]
      change (Objects.entry (t.objects.modify v _) f).isFunction = true
      rw [Objects.entry_modify_ne _ hOther]
      exact hIs
  · have hFirst : t.AddsBut (· = v) _ :=
      ParseState.addsBut_modify (g := ({ · with type := tree.type }))
        (.inl rfl) (fun _ => rfl) (fun _ => rfl) (fun _ => rfl)
        (fun _ => rfl)
    have hLast : t₃.AddsBut (· = v) _ :=
      ParseState.addsBut_modify (g := fun o => { o with
          data? := some image.bytes.toList
          relocs := image.relocs.toList })
        (.inl rfl) (fun _ => rfl) (fun _ => rfl) (fun _ => rfl)
        (fun _ => rfl)
    exact (hAdds₁.mono fun _ => False.elim).trans
      ((hFirst.trans (hQuiet.adds.mono fun _ => False.elim)).trans hLast)
  · change Objects.entry (t₃.objects.modify v _) v = _
    rw [Objects.entry_modify_self _ hSize₃, hEntry]

end InitialValue

------------
-- Variables of the Unit
------------

namespace ParseState

variable {s t : ParseState} {v : ObjId}

/- The one that was pending is as it was declared. -/
theorem AddsBut.closed (hAdds : s.AddsBut (· = v) t) (hNew : s.objects.size ≤ v)
    (hDeclared : (t.objects.entry v).Named → (t.objects.entry v).Declared)
    (hData : (t.objects.entry v).Named → (t.objects.entry v).data?.isSome →
      (t.objects.entry v).name ∉ s.initialized ∧
        (t.objects.entry v).name ∈ t.initialized ∧
        ∀ w, s.objects.size ≤ w → w < t.objects.size → w ≠ v →
          (t.objects.entry w).Named → (t.objects.entry w).data?.isSome →
          (t.objects.entry w).name ≠ (t.objects.entry v).name) : s.Adds t where
  kept := hAdds.kept
  old w hw _ := hAdds.old w hw (hw.trans_le hNew).ne
  globals := hAdds.globals
  declared w hLow hHigh _ hNamed := by
    by_cases hSame : w = v
    · rw [hSame] at hNamed ⊢
      exact hDeclared hNamed
    · exact hAdds.declared w hLow hHigh hSame hNamed
  initialized := hAdds.initialized
  data w hLow hHigh _ hNamed hSome := by
    by_cases hSame : w = v
    · rw [hSame] at hNamed hSome ⊢
      obtain ⟨hFresh, hNoted, -⟩ := hData hNamed hSome
      exact ⟨hFresh, hNoted⟩
    · exact hAdds.data w hLow hHigh hSame hNamed hSome
  unique w x hLow hLt hHigh _ _ hNamed hNamed' hSome hSome' := by
    by_cases hFirst : w = v
    · rw [hFirst] at hNamed hSome hLt ⊢
      exact ((hData hNamed hSome).2.2 x (hLow.trans (by
        rw [hFirst]
        exact hLt.le)) hHigh hLt.ne' hNamed' hSome').symm
    · by_cases hSecond : x = v
      · rw [hSecond] at hNamed' hSome' hLt hHigh ⊢
        exact (hData hNamed' hSome').2.2 w hLow (hLt.trans hHigh) hLt.ne hNamed hSome
      · exact hAdds.unique w x hLow hLt hHigh hFirst hSecond hNamed hNamed' hSome hSome'

end ParseState

namespace Declaration

open Specifier Grammar

variable {r : Reader} {s : ParseState}

instance still_checkRedeclared (name : Token) (type : CType) (attr : VarAttr) :
    Still (checkRedeclared name type attr) := by
  refine still_step fun b => ?_
  split <;> infer_instance

/- The object of a declaration, by its attributes. -/
structure Leaves (attr : VarAttr) (o : Obj) : Prop where
  isDefinition : o.isDefinition = !attr.isExtern
  isThreadLocal : o.isThreadLocal = attr.isThreadLocal
  isLocal : o.isLocal = false
  isFunction : o.isFunction = false

/- A name has been noted as one with data. -/
theorem adds_noted (s : ParseState) (name : Bytes) :
    s.Adds { s with initialized := name :: s.initialized } :=
  ParseState.addsBut_of_objects rfl rfl fun _ h => List.mem_cons_of_mem name h

/-
  A variable has just been added and has no value yet; nothing
  else has been added.
-/
structure Opens
    (s t : ParseState)
    (o : Obj)
    (attr : VarAttr)
    (name : Bytes) : Prop where
  sound : t.Sound
  adds : s.AddsBut (· = s.objects.size) t
  listed : s.objects.size ∈ TopLevel.ids t.globals.toList
  size : t.objects.size = s.objects.size + 1
  entry : t.objects.entry s.objects.size = o
  leaves : Leaves attr o
  name : o.name = name
  data? : o.data? = none
  isTentative : o.isTentative = false

variable {attr : VarAttr} {t u : ParseState} {o : Obj} {name : Bytes}

theorem Leaves.not_plain (hLeaves : Leaves attr o) : ¬ o.Plain := by
  rintro (h | h)
  · rw [hLeaves.isLocal] at h
    cases h
  · rw [hLeaves.isFunction] at h
    cases h

theorem Opens.lt (hOpens : Opens s t o attr name) : s.objects.size < t.objects.size := by
  rw [hOpens.size]
  exact Nat.lt_succ_self _

theorem Opens.quiet (hOpens : Opens s t o attr name) (hQuiet : t.Quiet u) :
    Opens s u o attr name where
  sound := hQuiet.sound hOpens.sound
  adds := hOpens.adds.trans (hQuiet.adds.mono fun _ => False.elim)
  listed := by
    rw [hQuiet.globals]
    exact hOpens.listed
  size := by rw [hQuiet.objects, hOpens.size]
  entry := by rw [hQuiet.objects, hOpens.entry]
  leaves := hOpens.leaves
  name := hOpens.name
  data? := hOpens.data?
  isTentative := hOpens.isTentative

/- One object at the top level answers to a declaration. -/
def Stands
    (s : ParseState)
    (attr : VarAttr)
    (t : ParseState) : Prop :=
  ∃ v ∈ TopLevel.ids t.globals.toList, s.objects.size ≤ v ∧ v < t.objects.size ∧
    ((t.objects.entry v).Named → Leaves attr (t.objects.entry v))

theorem Stands.later (hStands : Stands s attr t) (hAdds : t.Adds u) : Stands s attr u := by
  obtain ⟨v, hGlobal, hLow, hHigh, hLeaves⟩ := hStands
  obtain ⟨new, hNew, -⟩ := hAdds.globals
  refine ⟨v, ?_, hLow, hHigh.trans_le hAdds.kept.size, fun hNamed => ?_⟩
  · rw [hNew, TopLevel.ids_append]
    exact List.mem_append_left _ hGlobal
  · have hBefore := (hAdds.kept.named hHigh).mp hNamed
    rw [hAdds.old v hHigh (fun h => h) hBefore]
    exact hLeaves hBefore

/- What is left of a declaration that says no more. -/
theorem Opens.plain (hOpens : Opens s t o attr name)
    (hOther : ¬ (attr.isExtern = false ∧ attr.isThreadLocal = false)) :
    t.Sound ∧ s.Adds t ∧ Stands s attr t := by
  refine ⟨hOpens.sound, hOpens.adds.closed le_rfl (fun _ => ?_)
    (fun _ hSome => ?_), _, hOpens.listed, le_rfl, hOpens.lt, fun _ => ?_⟩
  · rw [hOpens.entry]
    simp only [Obj.Declared, hOpens.isTentative,
      hOpens.leaves.isDefinition, hOpens.leaves.isThreadLocal,
      Bool.false_eq_true, false_iff, Bool.not_eq_true', not_and]
    exact fun hExtern hThread => absurd ⟨hExtern, hThread⟩ hOther
  · rw [hOpens.entry, hOpens.data?] at hSome
    cases hSome
  · rw [hOpens.entry]
    exact hOpens.leaves

/- A definition without a value is tentative. -/
theorem Opens.tentative (hOpens : Opens s t o attr name)
    (hTentative : attr.isExtern = false ∧ attr.isThreadLocal = false)
    (hRun : modifyObject s.objects.size
      (fun o => { o with isTentative := true }) t = .ok () u) :
    u.Sound ∧ s.Adds u ∧ Stands s attr u := by
  obtain rfl := modifyObject_run hRun
  have hObject : Objects.entry (t.objects.modify s.objects.size
      fun o => { o with isTentative := true }) s.objects.size = { o with isTentative := true } := by
    rw [Objects.entry_modify_self _ hOpens.lt, hOpens.entry]
  refine ⟨hOpens.sound.modify (fun _ => rfl) ?_, (hOpens.adds.modify
    (g := fun o => { o with isTentative := true }) le_rfl
      fun _ => rfl).closed le_rfl (fun _ => ?_) (fun _ hSome => ?_), _, hOpens.listed, le_rfl,
    by simpa using hOpens.lt, fun _ => ?_⟩
  · rw [hOpens.entry]
    refine ⟨fun hPlain => absurd hPlain hOpens.leaves.not_plain,
      fun _ => hOpens.data?, fun data hData => ?_⟩
    exact absurd (hOpens.data?.symm.trans hData) (by simp)
  · change Obj.Declared (Objects.entry (t.objects.modify _ _) _)
    rw [hObject]
    simp [Obj.Declared, hOpens.leaves.isDefinition,
      hOpens.leaves.isThreadLocal, hTentative, hOpens.data?]
  · change (Objects.entry (t.objects.modify _ _) _).data?.isSome at hSome
    rw [hObject] at hSome
    exact absurd hSome (by simp [hOpens.data?])
  · change Leaves attr (Objects.entry (t.objects.modify _ _) _)
    rw [hObject]
    exact ⟨hOpens.leaves.isDefinition, hOpens.leaves.isThreadLocal,
      hOpens.leaves.isLocal, hOpens.leaves.isFunction⟩

/- A name is given data only once. -/
theorem Opens.value [hReads : Account.objects.Reads r] (hOpens : Opens s t o attr name)
    (hFresh : name ∉ t.initialized)
    (hRun : InitialValue.globalInit r s.objects.size
      { t with initialized := name :: t.initialized } = .ok () u) :
    u.Sound ∧ s.Adds u ∧ Stands s attr u := by
  obtain ⟨hSound, hLast, w, type, data, relocs, hMore, hValue⟩ :=
    InitialValue.globalInit_adds (v := s.objects.size)
      (s := { t with initialized := name :: t.initialized })
      ⟨hOpens.sound.fine, hOpens.sound.bound, hOpens.sound.reading⟩
      hOpens.lt (by
        change ¬ (t.objects.entry s.objects.size).Plain
        rw [hOpens.entry]
        exact hOpens.leaves.not_plain) (by
        change (t.objects.entry s.objects.size).isTentative = false
        rw [hOpens.entry, hOpens.isTentative]) hRun
  have hAll : s.AddsBut (· = s.objects.size) u :=
    hOpens.adds.trans (((adds_noted t name).mono fun _ => False.elim).trans hLast)
  have hObject : (u.objects.entry s.objects.size).Named → u.objects.entry s.objects.size =
        { o with type := type, data? := some data, relocs := relocs } := by
    intro hNamed
    have hBefore := (hLast.kept.named hOpens.lt).mp hNamed
    rw [hValue, hMore.old _ hOpens.lt (fun h => h) hBefore]
    change { t.objects.entry s.objects.size with
      type := type, data? := some data, relocs := relocs } = _
    rw [hOpens.entry]
  obtain ⟨new, hNew, -⟩ := hLast.globals
  refine ⟨hSound, hAll.closed le_rfl (fun hNamed => ?_)
    (fun hNamed _ => ⟨?_, ?_, ?_⟩), _, ?_, le_rfl,
    hOpens.lt.trans_le hLast.kept.size, fun hNamed => ?_⟩
  · rw [hObject hNamed]
    simp [Obj.Declared, hOpens.isTentative]
  · rw [hObject hNamed]
    intro hOld
    refine hFresh ?_
    rw [hOpens.name] at hOld
    exact hOpens.adds.initialized hOld
  · rw [hObject hNamed]
    refine hLast.initialized ?_
    rw [hOpens.name]
    exact List.mem_cons_self
  · intro w hLow hHigh hOther hNamed' hSome
    have hLate : t.objects.size ≤ w := by
      rw [hOpens.size]
      exact Nat.lt_of_le_of_ne hLow hOther.symm
    have hUnlike := (hLast.data w hLate hHigh hOther hNamed' hSome).1
    intro hSame
    refine hUnlike ?_
    rw [hSame, hObject hNamed]
    simp [hOpens.name]
  · rw [hNew, TopLevel.ids_append]
    exact List.mem_append_left _ hOpens.listed
  · rw [hObject hNamed]
    exact ⟨hOpens.leaves.isDefinition, hOpens.leaves.isThreadLocal,
      hOpens.leaves.isLocal, hOpens.leaves.isFunction⟩

/- What is done with a variable of the unit once its type is known. -/
def unitObject (read : Reader) (name : Token) (type : CType) (attr : VarAttr) (inherited : Bool) :
    Parse VarAttr := do
  let v ← newGlobal name.text type
  modifyObject v fun o => { o with
    isDefinition := !attr.isExtern
    isStatic := attr.isStatic || inherited
    isThreadLocal := attr.isThreadLocal
    align := alignOr attr.align o.align }
  if ← accept "=" then
    if (← get).initialized.contains name.text then
      fail name (.redefinition name.text)
    modify fun s => { s with initialized := name.text :: s.initialized }
    InitialValue.globalInit read v
  else if !attr.isExtern && !attr.isThreadLocal then
    modifyObject v fun o => { o with isTentative := true }
  skipAttributes read
  return attr

/- The object of a variable of the unit before its value is known. -/
def unitEntry (name : Bytes) (type : CType) (attr : VarAttr) (inherited : Bool) (s : ParseState) :
    Obj :=
  { name := name
    type := type
    align := alignOr attr.align (type.align s.records)
    isDefinition := !attr.isExtern
    isStatic := attr.isStatic || inherited
    isThreadLocal := attr.isThreadLocal }

/- How a new variable of the unit gets its value, or is tentative, or neither. -/
inductive Valued (r : Reader) (name : Bytes) (attr : VarAttr) (v : ObjId) (t : ParseState) :
    ParseState → Prop
| value {u : ParseState} (hFresh : name ∉ t.initialized)
    (hInit : InitialValue.globalInit r v { t with initialized := name :: t.initialized } =
      .ok () u) : Valued r name attr v t u
| tentative {u : ParseState} (hTentative : attr.isExtern = false ∧ attr.isThreadLocal = false)
    (hChange : modifyObject v (fun o => { o with isTentative := true }) t = .ok () u) :
    Valued r name attr v t u
| plain (hOther : ¬ (attr.isExtern = false ∧ attr.isThreadLocal = false)) :
    Valued r name attr v t t

/- A variable of the unit is added, and gets its value, before the attributes after it. -/
theorem unitObject_run {name : Token} {type : CType} {attr attr' : VarAttr} {inherited : Bool}
    (hRun : unitObject r name type attr inherited s = .ok attr' u) :
    attr' = attr ∧ ∃ t₁ t w, t₁.globals = s.globals.push (.object s.objects.size) ∧
      s.Pushes t₁ (unitEntry name.text type attr inherited s) ∧ t₁.Quiet t ∧
      Valued r name.text attr s.objects.size t w ∧ skipAttributes r w = .ok () u := by
  obtain ⟨v, t₀, hNew, hRun⟩ := exists_of_bind hRun
  obtain ⟨rfl, hGlobals, hPushes⟩ := newGlobal_run hNew
  obtain ⟨⟨⟩, t₁, hFlags, hRun⟩ := exists_of_bind hRun
  obtain rfl := modifyObject_run hFlags
  obtain ⟨isValue, t, hAccept, hRun⟩ := exists_of_bind hRun
  obtain ⟨hQuiet, -⟩ := (still_accept _).quiet _ _ _ hAccept
  suffices hEnds : ∃ w, Valued r name.text attr s.objects.size t w ∧ (do
      skipAttributes r
      return attr : Parse VarAttr) w = .ok attr' u by
    obtain ⟨w, hValued, hRest⟩ := hEnds
    obtain ⟨⟨⟩, w', hSkip, hRest⟩ := exists_of_bind hRest
    cases hRest
    refine ⟨rfl, _, t, w, ?_, ?_, hQuiet, hValued, hSkip⟩
    · exact hGlobals
    · exact hPushes.changed _
  cases isValue with
  | true =>
    obtain ⟨t', t'', hGet, hRun⟩ := exists_of_bind hRun
    cases hGet
    by_cases hKnown : t.initialized.contains name.text
    · rw [if_pos hKnown] at hRun
      obtain ⟨_, _, hNever, -⟩ := exists_of_bind hRun
      cases hNever
    rw [if_neg hKnown] at hRun
    obtain ⟨⟨⟩, w, hNote, hRun⟩ := exists_of_bind hRun
    cases hNote
    obtain ⟨⟨⟩, w, hInit, hRun⟩ := exists_of_bind hRun
    exact ⟨w, .value (by simpa using hKnown) hInit, hRun⟩
  | false =>
    by_cases hTentative : attr.isExtern = false ∧ attr.isThreadLocal = false
    · have hTest : (!attr.isExtern && !attr.isThreadLocal) = true := by simp [hTentative]
      simp only [Bool.false_eq_true, if_false, hTest, if_true] at hRun
      obtain ⟨⟨⟩, w, hChange, hRun⟩ := exists_of_bind hRun
      exact ⟨w, .tentative hTentative hChange, hRun⟩
    · have hTest : ¬ (!attr.isExtern && !attr.isThreadLocal) = true := by simpa using hTentative
      simp only [Bool.false_eq_true, if_false, if_neg hTest] at hRun
      exact ⟨t, .plain hTentative, hRun⟩

/- A variable that has just been named. -/
theorem keeps_unitObject [hReads : Account.objects.Reads r] (name : Token) (type : CType)
    (attr : VarAttr) (inherited : Bool) :
    Account.objects.Keeps s (unitObject r name type attr inherited)
      fun u attr' => Stands s attr' u := by
  intro s₁ hSound hGrows attr' s₂ hRun
  obtain ⟨rfl, t₁, t, w, hGlobals, hPushes, hQuiet, hValued, hSkip⟩ := unitObject_run hRun
  have hListed : s₁.objects.size ∈ TopLevel.ids t₁.globals.toList := by
    rw [hGlobals, Array.toList_push, TopLevel.ids_append]
    simp [TopLevel.ids]
  have hOpens : Opens s₁ t _ attr' name.text := Opens.quiet
    ⟨hPushes.sound hSound (Obj.fine_of_blank rfl rfl),
      hPushes.addsBut (.inr ⟨rfl, hGlobals⟩) (.inl rfl), hListed,
      hPushes.size, hPushes.new, ⟨rfl, rfl, rfl, rfl⟩, rfl, rfl, rfl⟩ hQuiet
  have hHere : w.Sound ∧ s₁.Adds w ∧ Stands s₁ attr' w := by
    cases hValued with
    | value hFresh hInit => exact hOpens.value hFresh hInit
    | tentative hTentative hChange => exact hOpens.tentative hTentative hChange
    | plain hOther => exact hOpens.plain hOther
  obtain ⟨hSound', hAdds, hStands⟩ := hHere
  obtain ⟨hSound'', hMore, -⟩ :=
    (safe_skipAttributes.runs w).run (A := Account.objects) hSound' hSkip
  obtain ⟨v, hListed, hLow, hHigh, hLeaves⟩ := hStands.later hMore
  exact ⟨hSound'', hAdds.trans hMore, v, hListed, hGrows.kept.size.trans hLow, hHigh, hLeaves⟩

/- A declaration of a variable leaves an object as it says. -/
theorem keeps_unitVariable [hReads : Account.objects.Reads r] (base : CType) (attr : VarAttr) :
    Account.objects.Keeps s (unitVariable r base attr) fun u attr' => Stands s attr' u := by
  refine keeps_after fun d => ?_
  split
  · exact keeps_fail _ _
  · rename_i name hName
    exact keeps_ite (fun _ => keeps_fail_bind _ _ _) fun _ =>
      keeps_ite (fun _ => keeps_fail_bind _ _ _) fun _ =>
      keeps_after fun attr =>
      keeps_after fun inherited =>
      keeps_unitObject name d.type attr inherited

end Declaration

------------
-- Other Objects
------------

variable {r : Reader} {s t : ParseState} {v f : ObjId} {g : Obj → Obj}

namespace ParseState

/- A function. -/
structure Function (s : ParseState) (f : ObjId) : Prop where
  lt : f < s.objects.size
  isFunction : (s.objects.entry f).isFunction = true

theorem Function.kept (hFunction : s.Function f) (hKept : s.Kept t) : t.Function f :=
  ⟨hFunction.lt.trans_le hKept.size, (hKept.isFunction f hFunction.lt).trans hFunction.isFunction⟩

end ParseState

namespace Obj

/- What has data keeps them. -/
theorem Fine.touched {o : Obj} (hFine : o.Fine) (hTouches : Touches g)
    (hSame : o.Plain ∨ (g o).type = o.type ∧ (g o).relocs = o.relocs) : (g o).Fine := by
  have hBlank : o.Plain → (g o).data? = none := fun hPlain => by
    rw [hTouches.data?]
    exact (hFine.plain hPlain).1
  refine ⟨fun hPlain => ?_, fun hTentative => ?_, fun data hData => ?_⟩
  · rw [hTouches.isLocal, hTouches.isFunction] at hPlain
    rw [hTouches.isTentative]
    exact ⟨hBlank hPlain, (hFine.plain hPlain).2⟩
  · rw [hTouches.isTentative] at hTentative
    rw [hTouches.data?]
    exact hFine.tentative hTentative
  · rcases hSame with hPlain | ⟨hType, hRelocs⟩
    · rw [hBlank hPlain] at hData
      cases hData
    · rw [hTouches.data?] at hData
      cases hFine.written data hData with
      | text hSpelt hNone => exact .text (by rwa [hType]) (by rwa [hRelocs])
      | @filled rs tree hFilled =>
        refine @Written.filled _ _ rs tree ?_
        obtain ⟨hSize, s, image, s', hFill, hBytes, hTargets⟩ := hFilled
        rw [FilledFrom, hType]
        exact ⟨hSize, s, image, s', hFill, by
          rw [hTouches.data?, hBytes], by rw [hRelocs, hTargets]⟩

end Obj

namespace Account

/- An object without a name of its own is changed a little. -/
theorem objects_touch (hObject : v < s.objects.size) (hUnnamed : ¬ (s.objects.entry v).Named)
    (hTouches : Obj.Touches g)
    (hSame : (s.objects.entry v).Plain ∨
      ∀ o, (g o).type = o.type ∧ (g o).relocs = o.relocs) : objects.Runs s (modifyObject v g) := by
  intro s₁ hSound hGrows u s₂ hRun
  obtain rfl := modifyObject_run hRun
  refine ⟨hSound.modify hTouches.isFunction ((hSound.fine v).touched hTouches ?_),
    ParseState.addsBut_modify (.inr ?_) hTouches.name hTouches.isLocal
      hTouches.isFunction hTouches.isTentative, trivial⟩
  · rcases hSame with hPlain | hSame
    · left
      unfold Obj.Plain
      rw [hGrows.kept.isLocal v hObject, hGrows.kept.isFunction v hObject]
      exact hPlain
    · exact .inr (hSame _)
  · rw [hGrows.kept.named hObject]
    exact hUnnamed

/- A function is changed. -/
theorem objects_touchFunction (hFunction : s.Function f) (hTouches : Obj.Touches g) :
    objects.Runs s (modifyObject f g) :=
  objects_touch hFunction.lt (ParseState.not_named_of_plain (.inr hFunction.isFunction)) hTouches
    (.inl (.inr hFunction.isFunction))

theorem objects_newLocal (s : ParseState) (name : Bytes) (type : CType) :
    objects.Keeps s (newLocal name type) fun u v => objects.ok u v ∧ u.Local v := by
  intro s₁ hSound hGrows v s₂ hRun
  obtain ⟨rfl, hGlobals, hPushes⟩ := newLocal_run hRun
  refine ⟨hPushes.sound hSound (Obj.fine_of_blank rfl rfl), hPushes.addsBut (.inl ⟨rfl, hGlobals⟩)
      (.inr (ParseState.not_named_of_plain (.inl rfl))), trivial, ?_⟩
  exact ⟨by rw [hPushes.size]; exact Nat.lt_succ_self _, by
    rw [hPushes.new], by rw [hPushes.new]⟩

theorem objects_newAnonymous (s : ParseState) (type : CType) :
    objects.Keeps s (newAnonymous type) fun u v => objects.ok u v ∧ u.Anonymous v := by
  intro s₁ hSound hGrows v s₂ hRun
  obtain ⟨rfl, hGlobals, name, hHidden, hPushes⟩ := newAnonymous_run hRun
  refine ⟨hPushes.sound hSound (Obj.fine_of_blank rfl rfl), hPushes.addsBut (.inr ⟨rfl, hGlobals⟩)
      (.inr fun hNamed => hNamed.spelled hHidden), trivial, ?_⟩
  exact ⟨by rw [hPushes.size]; exact Nat.lt_succ_self _, by
    rw [hPushes.new], by rw [hPushes.new], by rw [hPushes.new], by
    rw [hPushes.new]
    exact hHidden⟩

theorem objects_newString (s : ParseState) (data : Bytes) (type : CType)
    (hSpelt : Spelt data type) :
    objects.Keeps s (newString data type) fun u v => objects.ok u v ∧ v < u.objects.size := by
  intro s₁ hSound hGrows v s₂ hRun
  obtain ⟨rfl, hGlobals, name, hHidden, hPushes⟩ := newString_run hRun
  refine ⟨hPushes.sound hSound ⟨fun hPlain => ?_,
    fun (hNever : false = true) => absurd hNever (by decide),
    fun bytes hBytes => ?_⟩, hPushes.addsBut (.inr ⟨rfl, hGlobals⟩)
      (.inr fun hNamed => hNamed.spelled hHidden), trivial, ?_⟩
  · rcases hPlain with h | h <;> cases h
  · cases hBytes
    exact .text hSpelt rfl
  · change s₁.objects.size < s₂.objects.size
    rw [hPushes.size]
    exact Nat.lt_succ_self _

theorem objects_bindName (name : Bytes) (hObject : v < s.objects.size) :
    objects.Runs s (bindName name (.object v)) := by
  intro s₁ hSound hGrows u s₂ hRun
  have hNames := fun w => binds_bindName (w := w) hRun
  obtain ⟨scopes, rfl⟩ := modifyScope_run hRun
  refine ⟨⟨hSound.fine, fun w hw => ?_, hSound.reading⟩,
    ParseState.addsBut_of_objects rfl rfl fun _ h => h, trivial⟩
  rcases hNames w hw with hOld | rfl
  · exact hSound.bound w hOld
  · exact hObject.trans_le hGrows.kept.size

/- A change that is not about the objects of the unit. -/
theorem objects_modify {h : ParseState → ParseState} (hObjects : ∀ s, (h s).objects = s.objects)
    (hGlobals : ∀ s, (h s).globals = s.globals)
    (hInitialized : ∀ s, (h s).initialized = s.initialized)
    (hScopes : ∀ s, (h s).scopes = s.scopes)
    (hReading : ∀ s₁, s.Adds s₁ → s₁.Sound → ∀ f,
      (h s₁).function? = some f → s₁.Function f) : objects.Runs s (modify h) := by
  intro s₁ hSound hGrows u s₂ hRun
  cases hRun
  refine ⟨⟨fun v => ?_, fun v hv => ?_, fun f hf => ?_⟩,
    ParseState.addsBut_of_objects (hObjects s₁) (hGlobals s₁) (by
      rw [hInitialized]
      exact fun _ h => h), trivial⟩
  · rw [hObjects]
    exact hSound.fine v
  · rw [hObjects]
    refine hSound.bound v ?_
    unfold ParseState.Binds at hv
    rwa [hScopes] at hv
  · rw [hObjects]
    obtain ⟨hLt, hIs⟩ := hReading s₁ hGrows hSound f hf
    exact ⟨hLt, hIs⟩

/- A function is noted as one that is referred to. -/
theorem objects_noteReference (s : ParseState) (v : ObjId) :
    objects.Runs s (Expression.noteReference v) := by
  intro s₂ hSound _ u s₃ hRun
  obtain ⟨o, w, hObject, hRun⟩ := exists_of_bind hRun
  cases hObject
  by_cases hIs : (s₂.objects.entry v).isFunction = true
  · rw [if_pos hIs] at hRun
    obtain ⟨w, w', hGet, hRun⟩ := exists_of_bind hRun
    cases hGet
    cases hReading : s₂.function? with
    | none =>
      simp only [hReading] at hRun
      have hFunction : s₂.Function v := ⟨Objects.lt_of_isFunction hIs, hIs⟩
      exact (objects_touchFunction (g := ({ · with isRoot := true }))
        hFunction ⟨fun _ => rfl, fun _ => rfl, fun _ => rfl,
          fun _ => rfl, fun _ => rfl⟩).run hSound hRun
    | some f =>
      simp only [hReading] at hRun
      obtain ⟨hLt, hFunction⟩ := hSound.reading f hReading
      exact (objects_touchFunction (g := fun g =>
          { g with refs := g.refs ++ [(s₂.objects.entry v).name] })
        ⟨hLt, hFunction⟩ ⟨fun _ => rfl, fun _ => rfl, fun _ => rfl,
          fun _ => rfl, fun _ => rfl⟩).run hSound hRun
  · rw [if_neg hIs] at hRun
    cases hRun
    exact ⟨hSound, objects.refl _, trivial⟩

/- A change of a table that says nothing about objects. -/
theorem objects_modifyVlas (s : ParseState) (h : Array Vla → Array Vla) :
    objects.Runs s (modify fun s => { s with vlas := h s.vlas }) :=
  objects_modify (fun _ => rfl) (fun _ => rfl) (fun _ => rfl) (fun _ => rfl) fun _ _ hSound f hf =>
      ⟨(hSound.reading f hf).1, (hSound.reading f hf).2⟩

/- Assembly text at the top level is not an object. -/
theorem objects_asm (s : ParseState) (t : Token) (text : Bytes) :
    objects.Runs s (modify fun s =>
      { s with globals := s.globals.push (.asm t text) }) := by
  intro s₁ hSound _ u s₂ hRun
  cases hRun
  refine ⟨⟨hSound.fine, hSound.bound, hSound.reading⟩, ?_, trivial⟩
  have hSame := ParseState.Adds.refl s₁
  exact ⟨⟨le_rfl, fun _ _ => rfl, fun _ _ => rfl, fun _ _ => rfl,
    fun _ _ => rfl⟩, fun _ _ _ _ => rfl, ⟨[.asm t text], by rw [Array.toList_push],
      by simp [TopLevel.ids], by simp [TopLevel.ids]⟩,
    hSame.declared, hSame.initialized, hSame.data, hSame.unique⟩

/- A variable without a name of its own is given its data. -/
theorem objects_globalInit [hReads : objects.Reads r] (hAnonymous : s.Anonymous v) :
    objects.Runs s (InitialValue.globalInit r v) := by
  intro s₁ hSound hGrows u s₂ hRun
  have hHere := hAnonymous.kept hGrows.kept
  have hUnnamed := ParseState.Anonymous.not_named hHere
  obtain ⟨hSound₂, hAdds, -⟩ := InitialValue.globalInit_adds hSound hHere.lt (by
      rintro (h | h)
      · rw [hHere.isLocal] at h
        cases h
      · rw [hHere.isFunction] at h
        cases h) hHere.isTentative hRun
  exact ⟨hSound₂, hAdds.settled hHere.lt hUnnamed, trivial⟩

/- The account of the objects of a unit has all the rules. -/
instance objects_rules : objects.Rules where
  bound := fun hSound hBinds => hSound.bound _ hBinds
  alloca := fun _ => trivial
  vla := fun _ _ => ⟨fun _ _ => trivial, fun _ _ => trivial⟩
  newLocal := objects_newLocal
  newAnonymous := objects_newAnonymous
  newString := objects_newString
  setAlign := fun s v n hOwn => by
    have hTouches : Obj.Touches fun o => { o with align := n } :=
      ⟨fun _ => rfl, fun _ => rfl, fun _ => rfl, fun _ => rfl, fun _ => rfl⟩
    rcases hOwn with hLocal | hAnonymous
    · exact objects_touch hLocal.lt (ParseState.not_named_of_plain (.inl hLocal.isLocal)) hTouches
        (.inr fun _ => ⟨rfl, rfl⟩)
    · exact objects_touch hAnonymous.lt hAnonymous.not_named hTouches (.inr fun _ => ⟨rfl, rfl⟩)
  setType := fun s v t hLocal => objects_touch hLocal.lt
    (ParseState.not_named_of_plain (.inl hLocal.isLocal))
    ⟨fun _ => rfl, fun _ => rfl, fun _ => rfl, fun _ => rfl, fun _ => rfl⟩
    (.inl (.inl hLocal.isLocal))
  bindName := fun s name v hObject => objects_bindName name hObject
  noteReference := fun s v _ => objects_noteReference s v
  vlaOf := fun s base len _ => keeps_after fun u =>
    (objects_modifyVlas s (·.push { len := len })).step fun _ => runs_pure _
  setSize := fun s i v _ _ => objects_modifyVlas s (·.modify i fun a => { a with size? := some v })
  globalInit := fun s r v _ hAnonymous => objects_globalInit hAnonymous
  unitVariable := fun s r base attr _ _ =>
    (Declaration.keeps_unitVariable base attr).runs
  asm := fun t text => ⟨fun s => objects_asm s t text⟩

end Account

------------
-- Functions
------------

namespace Declaration

open Specifier

/- What is found as a function is one. -/
theorem function?_run {name : Bytes} {f? : Option ObjId}
    (hRun : Parse.function? name s = .ok f? t) :
    t = s ∧ ∀ f, f? = some f → (s.objects.entry f).isFunction = true := by
  obtain ⟨b, s₁, hLookup, hRun⟩ := exists_of_bind hRun
  cases hLookup
  have hOther : (pure none : Parse (Option ObjId)) s = .ok f? t → t = s ∧ ∀ f, f? = some f →
        (s.objects.entry f).isFunction = true := by
    intro hNone
    cases hNone
    exact ⟨rfl, fun f hf => by cases hf⟩
  generalize (s.scopes.getLast?.bind fun sc => sc.vars.lookup name) = b at hRun
  cases b with
  | none => exact hOther hRun
  | some b =>
    cases b with
    | object id =>
      obtain ⟨o, s₂, hObject, hRun⟩ := exists_of_bind hRun
      cases hObject
      cases hRun
      refine ⟨rfl, fun f hf => ?_⟩
      by_cases hIs : (s.objects.entry id).isFunction = true
      · rw [if_pos hIs] at hf
        cases hf
        exact hIs
      · rw [if_neg hIs] at hf
        cases hf
    | typedef t => exact hOther hRun
    | constant t v => exact hOther hRun

/- A declaration of a function finds or adds one. -/
theorem keeps_declareFunction (s : ParseState) (name : Bytes) (type : CType) (attr : VarAttr)
    (isBody : Bool) :
    Account.objects.Keeps s (declareFunction name type attr isBody) fun u f => u.Function f := by
  intro s₁ hSound hGrows f s₂ hRun
  obtain ⟨f?, t, hFind, hRun⟩ := exists_of_bind hRun
  obtain ⟨rfl, hIs⟩ := function?_run hFind
  cases f? with
  | some id =>
    have hFunction : t.Function id := ⟨Objects.lt_of_isFunction (hIs id rfl), hIs id rfl⟩
    have hKeeps : Account.objects.Keeps t (do
        let f ← object id
        if f.isDefinition && isBody then
          fail (← tok) (.redefinition name)
        if !f.isStatic && attr.isStatic then
          fail (← tok) .staticAfterNonStatic
        modifyObject id fun o => { o with
          isDefinition := o.isDefinition || isBody
          type := if isBody then type else o.type }
        return id) fun u f => u.Function f :=
      keeps_after fun _ => keeps_ite
        (fun _ => keeps_after fun _ => keeps_fail_bind _ _ _)
        fun _ => keeps_ite
        (fun _ => keeps_after fun _ => keeps_fail_bind _ _ _)
        fun _ => Keeps.step (objects_touchFunction hFunction
          ⟨fun _ => rfl, fun _ => rfl, fun _ => rfl, fun _ => rfl, fun _ => rfl⟩) fun _ =>
        keeps_pure fun _ _ hLater => hFunction.kept hLater.kept
    exact hKeeps.run hSound hRun
  | none =>
    obtain ⟨id, t₁, hNew, hRun⟩ := exists_of_bind hRun
    obtain ⟨rfl, hGlobals, hPushes⟩ := newGlobal_run hNew
    obtain ⟨⟨⟩, t₂, hChange, hRun⟩ := exists_of_bind hRun
    obtain rfl := modifyObject_run hChange
    cases hRun
    have hChanged := hPushes.changed fun o => { o with
      isFunction := true
      isDefinition := isBody
      isStatic := attr.isStatic || (attr.isInline && !attr.isExtern)
      isInline := attr.isInline }
    refine ⟨hChanged.sound hSound (Obj.fine_of_blank rfl rfl),
      hChanged.addsBut (.inr ⟨rfl, hGlobals⟩)
        (.inr (ParseState.not_named_of_plain (.inr rfl))), ?_, ?_⟩
    · rw [hChanged.size]
      exact Nat.lt_succ_self _
    · rw [hChanged.new]

/- What is read in a function behind its parameters. -/
def insideBody
    (read : Reader)
    (f : ObjId)
    (name : Bytes) :
    Parse Unit := do
  let bottom ← newLocal (ascii "__alloca_size__") (.ptr .char)
  modifyObject f fun o => { o with allocaBottom? := some bottom }
  expect "\x7b"
  bindOwnName "__func__" name
  bindOwnName "__FUNCTION__" name
  let body ← read .compound
  let locals := (← get).locals.toList
  modifyObject f fun o =>
    { o with body? := some body, locals := locals }
  leaveScope
  resolveJumps
  modify fun s => { s with function? := none }

theorem runs_insideBody [hReads : Account.objects.Reads r] (hFunction : s.Function f)
    (name : Bytes) : Account.objects.Runs s (insideBody r f name) := by
  have hTouch : ∀ {g}, Obj.Touches g → Account.objects.Runs s (modifyObject f g) :=
    objects_touchFunction hFunction
  refine (objects_newLocal s _ _).runs.step fun bottom =>
    Keeps.step (hTouch ⟨fun _ => rfl, fun _ => rfl, fun _ => rfl, fun _ => rfl, fun _ => rfl⟩)
      fun _ => keeps_after fun _ =>
    keeps_after fun _ =>
    keeps_after fun _ =>
    hReads.compound.runs.step fun body =>
    keeps_after fun u =>
    Keeps.step (hTouch ⟨fun _ => rfl, fun _ => rfl, fun _ => rfl, fun _ => rfl, fun _ => rfl⟩)
      fun _ => keeps_after fun _ =>
    keeps_after fun _ => ?_
  exact objects_modify (fun _ => rfl) (fun _ => rfl) (fun _ => rfl)
    (fun _ => rfl) fun _ _ _ f hf => by cases hf

/- The body of a function adds objects and changes the function. -/
theorem runs_functionBody [hReads : Account.objects.Reads r] (hFunction : s.Function f)
    (name : Bytes) (type : CType) : Account.objects.Runs s (functionBody r f name type) := by
  have hTouch : ∀ {g}, Obj.Touches g → Account.objects.Runs s (modifyObject f g) :=
    objects_touchFunction hFunction
  have hRest := runs_insideBody (r := r) hFunction name
  refine Keeps.step (objects_modify (fun _ => rfl) (fun _ => rfl)
    (fun _ => rfl) (fun _ => rfl) fun s₁ hAdds _ f' hf => ?_) fun _ => ?_
  · cases hf
    exact hFunction.kept hAdds.kept
  refine keeps_after fun _ => ?_
  split
  · rename_i ret params names variadic hPlain
    refine keeps_after fun _ => keeps_after fun u => ?_
    have hArea : ∀ ids : List ObjId, Account.objects.Runs s (do
        modifyObject f fun o => { o with params := ids }
        if variadic then
          let area ← newLocal (ascii "__va_area__") (← arrayOf .char 136)
          modifyObject f fun o => { o with vaArea? := some area }
        insideBody r f name) := by
      intro ids
      refine Keeps.step (hTouch ⟨fun _ => rfl, fun _ => rfl, fun _ => rfl,
        fun _ => rfl, fun _ => rfl⟩) fun _ => keeps_ite (fun _ => ?_) fun _ => hRest
      refine keeps_after fun _ => (objects_newLocal _ _ _).runs.step fun area => ?_
      exact Keeps.step (hTouch ⟨fun _ => rfl, fun _ => rfl, fun _ => rfl,
        fun _ => rfl, fun _ => rfl⟩) fun _ => hRest
    exact keeps_after fun _ => keeps_ite
      (fun _ => (objects_newLocal _ _ _).runs.step fun _ => hArea _)
      (fun _ => hArea _)
  · exact (keeps_throw (Q := fun _ _ => False) _).bind fun _ _ _ hNever => hNever.elim

/- A declaration of a function keeps the account. -/
theorem objects_function : Account.objects.Declares function := by
  refine fun r base attr hReads => ⟨fun s => ?_⟩
  refine keeps_after fun d => ?_
  split
  · exact keeps_fail _ _
  · rename_i name hName
    refine keeps_after fun symbol =>
      keeps_after fun _ =>
      keeps_after fun isBody =>
      keeps_after fun u => keeps_ite (fun _ => keeps_fail_bind _ _ _) fun _ =>
      keeps_after fun _ =>
      (keeps_declareFunction _ _ _ _ _).bind fun u f _ hFunction => ?_
    refine Keeps.step (objects_touchFunction hFunction
      ⟨fun _ => rfl, fun _ => rfl, fun _ => rfl, fun _ => rfl, fun _ => rfl⟩) fun _ =>
      keeps_after fun _ => keeps_ite
        (fun _ => runs_functionBody hFunction _ _)
        fun _ => runs_pure _

end Declaration

------------
-- Units
------------

namespace TranslationUnit

variable {cfg : Config} {ts : List Token} {p : Program}

/- The state in which reading a unit starts. -/
def start (cfg : Config) (ts : List Token) : ParseState :=
  { cfg := cfg, toks := ts }

/- What a unit comes to when its declarations have been read. -/
def outcome :
    EStateM.Result Failure ParseState Unit → Outcome Program
| .ok _ s => ⟨s.notices, .ok (finish s)⟩
| .error e s => ⟨s.notices, .error e⟩

theorem parse_eq_outcome : parse cfg ts = outcome (declarations (read (depth ts)) (start cfg ts)) :=
  rfl

/- A unit that parses has been read to its end. -/
theorem declarations_of_parse (hParse : (parse cfg ts).result = .ok p) :
    ∃ s', declarations (read (depth ts)) (start cfg ts) = .ok () s' ∧ p = finish s' := by
  rw [parse_eq_outcome] at hParse
  cases hRun : declarations (read (depth ts)) (start cfg ts) with
  | ok u s' =>
    rw [hRun] at hParse
    cases hParse
    exact ⟨s', rfl, rfl⟩
  | error e s' =>
    rw [hRun] at hParse
    cases hParse

theorem sound_start (cfg : Config) (ts : List Token) : (start cfg ts).Sound := by
  refine ⟨fun v => Obj.fine_of_blank ?_ ?_, fun v hBinds => ?_, fun f hf => by cases hf⟩
  · rw [Objects.entry_of_size_le (Nat.zero_le v)]
    rfl
  · rw [Objects.entry_of_size_le (Nat.zero_le v)]
    rfl
  · obtain ⟨sc, hScope, n, hName⟩ := hBinds
    obtain rfl := List.mem_singleton.mp hScope
    cases hName

/- The builtin function is all there is to begin with. -/
theorem declareBuiltins_run (hRun : declareBuiltins (start cfg ts) = .ok () s) :
    s.Sound ∧ TopLevel.ids s.globals.toList = [0] ∧ s.initialized = [] ∧ s.objects.size = 1 ∧
      ∃ type align, s.objects.entry 0 =
        { name := ascii "alloca"
          type := type
          align := align
          isStatic := true } := by
  obtain ⟨id, t, hNew, hRun⟩ := exists_of_bind hRun
  obtain ⟨rfl, hGlobals, hPushes⟩ := newGlobal_run hNew
  obtain ⟨⟨⟩, u, hChange, hRun⟩ := exists_of_bind hRun
  obtain rfl := modifyObject_run hChange
  cases hRun
  have hChanged := hPushes.changed fun o => { o with isDefinition := false }
  have hSound := hChanged.sound (sound_start cfg ts) (Obj.fine_of_blank rfl rfl)
  refine ⟨⟨hSound.fine, hSound.bound, hSound.reading⟩, ?_,
    hChanged.initialized, hChanged.size, _, _, hChanged.new⟩
  change TopLevel.ids t.globals.toList = _
  rw [hGlobals]
  rfl

/- The objects of a unit that parses, from the builtin one on. -/
theorem objects_of_parse (hParse : (parse cfg ts).result = .ok p) :
    ∃ t s', declareBuiltins (start cfg ts) = .ok () t ∧ p = finish s' ∧ s'.Sound ∧ t.Adds s' := by
  obtain ⟨s', hRun, rfl⟩ := declarations_of_parse hParse
  rw [← declarationsWith_function, ← readWith_function] at hRun
  have hReads := reads Declaration.objects_function (depth ts)
  obtain ⟨t, hBuiltins, hSound, hAdds⟩ := grows_of_declarationsWith Declaration.objects_function
    (fun t hStart => ⟨(declareBuiltins_run hStart).1, trivial⟩) hRun
  exact ⟨t, s', hBuiltins, rfl, hSound, hAdds⟩

end TranslationUnit

end CCompiler
