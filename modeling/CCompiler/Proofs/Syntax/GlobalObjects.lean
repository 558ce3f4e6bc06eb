import Mathlib
import CCompiler.Proofs.Syntax.KeptStatements
import CCompiler.Proofs.Syntax.ObjectSteps

/-
  The objects of a unit while it is read.  Each declaration of
  a variable adds one object and leaves the others as they are,
  and the data of an object are those of a string or were
  filled in from an initializer.

  Main declarations:
    * `Obj.FilledFrom`, `Obj.Written`
    * `ParseState.Adds`
    * `Account.objects`, `Account.objects_rules`
-/

------------
-- Data of Objects
------------

namespace CCompiler

namespace Obj

/-
  The data of an object were filled in from a tree, with the
  records that there were then.
-/
def FilledFrom (o : Obj) (rs : Records) (tree : Init) : Prop :=
  0 ≤ o.type.size rs ∧ ∃ s image s',
    InitialValue.fill rs 0 o.type tree
      (.zero (o.type.size rs).toNat) s = .ok image s' ∧
    o.data? = some image.bytes.toList ∧ o.relocs = image.relocs.toList

/- Where the data of an object come from. -/
inductive Written (o : Obj) (data : Bytes) : Prop
| text
    (hSpelt : Account.Spelt data o.type)
    (hRelocs : o.relocs = [])
| filled {rs : Records} {tree : Init}
    (hFilled : o.FilledFrom rs tree)

/-
  An object as it may be: variables of functions and functions
  have no data, a tentative definition has none, and all data
  come from somewhere.
-/
structure Fine (o : Obj) : Prop where
  plain : o.isLocal = true ∨ o.isFunction = true →
    o.data? = none ∧ o.isTentative = false
  tentative : o.isTentative = true → o.data? = none
  written : ∀ data, o.data? = some data → o.Written data

theorem fine_of_blank {o : Obj} (hData : o.data? = none) (hTentative : o.isTentative = false) :
    o.Fine :=
  ⟨fun _ => ⟨hData, hTentative⟩, fun _ => hData, fun data h => by
    rw [hData] at h
    cases h⟩

/- A variable of the unit with a name of its own. -/
structure Named (o : Obj) : Prop where
  isLocal : o.isLocal = false
  isFunction : o.isFunction = false
  spelled : ¬ ParseState.Hidden o.name

/- A definition is tentative if nothing else says what it holds. -/
def Declared (o : Obj) : Prop :=
  o.isTentative = true ↔
    o.isDefinition = true ∧ o.isThreadLocal = false ∧ o.data? = none

end Obj

/- The objects at the top level, in order. -/
def TopLevel.ids (globals : List TopLevel) : List ObjId :=
  globals.filterMap fun
    | .object v => some v
    | .asm _ _ => none

theorem TopLevel.ids_append (gs hs : List TopLevel) : ids (gs ++ hs) = ids gs ++ ids hs := by
  simp only [ids, List.filterMap_append]

------------
-- Objects That Are Added
------------

namespace ParseState

/-
  Objects have been added to those of the unit.  The variables
  with names of their own stay as they are, and new ones are
  as they were declared; this is not said of the `pending`
  ones, whose declaration is being read.  A name is given data
  once.
-/
structure AddsBut
    (pending : ObjId → Prop)
    (s t : ParseState) : Prop where
  kept : s.Kept t
  old : ∀ v < s.objects.size, ¬ pending v →
    (s.objects.entry v).Named → t.objects.entry v = s.objects.entry v
  globals : ∃ new, t.globals.toList = s.globals.toList ++ new ∧
    (TopLevel.ids new).Nodup ∧ ∀ v ∈ TopLevel.ids new, s.objects.size ≤ v ∧
      v < t.objects.size ∧ (t.objects.entry v).isLocal = false
  declared : ∀ v, s.objects.size ≤ v → v < t.objects.size →
    ¬ pending v → (t.objects.entry v).Named → (t.objects.entry v).Declared
  initialized : s.initialized ⊆ t.initialized
  data : ∀ v, s.objects.size ≤ v → v < t.objects.size →
    ¬ pending v → (t.objects.entry v).Named → (t.objects.entry v).data?.isSome →
    (t.objects.entry v).name ∉ s.initialized ∧
      (t.objects.entry v).name ∈ t.initialized
  unique : ∀ v w, s.objects.size ≤ v → v < w → w < t.objects.size →
    ¬ pending v → ¬ pending w →
    (t.objects.entry v).Named → (t.objects.entry w).Named →
    (t.objects.entry v).data?.isSome → (t.objects.entry w).data?.isSome →
    (t.objects.entry v).name ≠ (t.objects.entry w).name

/- Objects have been added, and none is pending. -/
abbrev Adds (s t : ParseState) : Prop :=
  s.AddsBut (fun _ => False) t

variable {s t u : ParseState} {pending : ObjId → Prop}

/- Nothing has been added where there are the same objects. -/
theorem addsBut_of_objects (hObjects : t.objects = s.objects) (hGlobals : t.globals = s.globals)
    (hInitialized : s.initialized ⊆ t.initialized) : s.AddsBut pending t where
  kept := ⟨by rw [hObjects], fun _ _ => by rw [hObjects],
    fun _ _ => by rw [hObjects], fun _ _ => by rw [hObjects],
    fun _ _ => by rw [hObjects]⟩
  old := fun _ _ _ _ => by rw [hObjects]
  globals := ⟨[], by rw [hGlobals, List.append_nil], List.nodup_nil, by simp [TopLevel.ids]⟩
  declared := fun v hLow hHigh => by
    rw [hObjects] at hHigh
    omega
  initialized := hInitialized
  data := fun v hLow hHigh => by
    rw [hObjects] at hHigh
    omega
  unique := fun v w hLow hLt hHigh => by
    rw [hObjects] at hHigh
    omega

theorem Adds.refl (s : ParseState) : s.Adds s := addsBut_of_objects rfl rfl (fun _ h => h)

/- A named variable stays one. -/
theorem Kept.named (hKept : s.Kept t) {v : ObjId} (hObject : v < s.objects.size) :
    (t.objects.entry v).Named ↔ (s.objects.entry v).Named := by
  constructor
  · rintro ⟨hLocal, hFunction, hName⟩
    exact ⟨(hKept.isLocal v hObject).symm.trans hLocal,
      (hKept.isFunction v hObject).symm.trans hFunction,
      by rwa [← hKept.name v hObject]⟩
  · rintro ⟨hLocal, hFunction, hName⟩
    exact ⟨(hKept.isLocal v hObject).trans hLocal, (hKept.isFunction v hObject).trans hFunction,
      by rwa [hKept.name v hObject]⟩

theorem AddsBut.trans (hFirst : s.AddsBut pending t) (hSecond : t.AddsBut pending u) :
    s.AddsBut pending u where
  kept := hFirst.kept.trans hSecond.kept
  old v hv hReady hNamed := by
    rw [hSecond.old v (hv.trans_le hFirst.kept.size) hReady
      ((hFirst.kept.named hv).mpr hNamed), hFirst.old v hv hReady hNamed]
  globals := by
    obtain ⟨new₁, hNew₁, hNodup₁, hIds₁⟩ := hFirst.globals
    obtain ⟨new₂, hNew₂, hNodup₂, hIds₂⟩ := hSecond.globals
    refine ⟨new₁ ++ new₂, by rw [hNew₂, hNew₁, List.append_assoc], ?_, ?_⟩
    · rw [TopLevel.ids_append]
      refine List.Nodup.append hNodup₁ hNodup₂ fun v h₁ h₂ => ?_
      exact absurd (hIds₁ v h₁).2.1 (not_lt.mpr (hIds₂ v h₂).1)
    · intro v hv
      rw [TopLevel.ids_append, List.mem_append] at hv
      rcases hv with hv | hv
      · obtain ⟨hLow, hHigh, hLocal⟩ := hIds₁ v hv
        exact ⟨hLow, hHigh.trans_le hSecond.kept.size, (hSecond.kept.isLocal v hHigh).trans hLocal⟩
      · obtain ⟨hLow, hHigh, hLocal⟩ := hIds₂ v hv
        exact ⟨hFirst.kept.size.trans hLow, hHigh, hLocal⟩
  declared v hLow hHigh hReady hNamed := by
    by_cases hEarly : v < t.objects.size
    · have hBefore := (hSecond.kept.named hEarly).mp hNamed
      rw [hSecond.old v hEarly hReady hBefore]
      exact hFirst.declared v hLow hEarly hReady hBefore
    · exact hSecond.declared v (by omega) hHigh hReady hNamed
  initialized := fun n hn => hSecond.initialized (hFirst.initialized hn)
  data v hLow hHigh hReady hNamed hData := by
    by_cases hEarly : v < t.objects.size
    · have hBefore := (hSecond.kept.named hEarly).mp hNamed
      rw [hSecond.old v hEarly hReady hBefore] at hData ⊢
      obtain ⟨hFresh, hNoted⟩ := hFirst.data v hLow hEarly hReady hBefore hData
      exact ⟨hFresh, hSecond.initialized hNoted⟩
    · obtain ⟨hFresh, hNoted⟩ := hSecond.data v (by omega) hHigh hReady hNamed hData
      exact ⟨fun hOld => hFresh (hFirst.initialized hOld), hNoted⟩
  unique v w hLow hLt hHigh hReady hReady' hNamed hNamed' hData hData' := by
    by_cases hEarly : v < t.objects.size
    · have hBefore := (hSecond.kept.named hEarly).mp hNamed
      rw [hSecond.old v hEarly hReady hBefore] at hData ⊢
      by_cases hEarly' : w < t.objects.size
      · have hBefore' := (hSecond.kept.named hEarly').mp hNamed'
        rw [hSecond.old w hEarly' hReady' hBefore'] at hData' ⊢
        exact hFirst.unique v w hLow hLt hEarly' hReady hReady' hBefore hBefore' hData hData'
      · -- the later one was given its data when the name was noted
        intro hSame
        have hNoted := (hFirst.data v hLow hEarly hReady hBefore hData).2
        rw [hSame] at hNoted
        exact (hSecond.data w (by omega) hHigh hReady' hNamed' hData').1 hNoted
    · exact hSecond.unique v w (by omega) hLt hHigh hReady hReady' hNamed hNamed' hData hData'

/- More may be pending. -/
theorem AddsBut.mono {pending' : ObjId → Prop} (hAdds : s.AddsBut pending t)
    (hMore : ∀ v, pending v → pending' v) : s.AddsBut pending' t where
  kept := hAdds.kept
  old v hv hReady := hAdds.old v hv fun h => hReady (hMore v h)
  globals := hAdds.globals
  declared v hLow hHigh hReady := hAdds.declared v hLow hHigh fun h => hReady (hMore v h)
  initialized := hAdds.initialized
  data v hLow hHigh hReady := hAdds.data v hLow hHigh fun h => hReady (hMore v h)
  unique v w hLow hLt hHigh hReady hReady' :=
    hAdds.unique v w hLow hLt hHigh (fun h => hReady (hMore v h)) fun h => hReady' (hMore w h)

theorem Adds.trans (hFirst : s.Adds t) (hSecond : t.Adds u) : s.Adds u :=
  AddsBut.trans hFirst hSecond

/-
  A state all of whose objects are as they may be; names stand
  for objects that there are, and the one being read is a
  function.
-/
structure Sound (s : ParseState) : Prop where
  fine : ∀ v, (s.objects.entry v).Fine
  bound : ∀ v, s.Binds v → v < s.objects.size
  reading : ∀ f, s.function? = some f →
    f < s.objects.size ∧ (s.objects.entry f).isFunction = true

theorem Quiet.sound (hSound : s.Sound) (hQuiet : s.Quiet t) : t.Sound := by
  refine ⟨fun v => ?_, fun v hv => ?_, fun f hf => ?_⟩
  · rw [hQuiet.objects]
    exact hSound.fine v
  · rw [hQuiet.objects]
    exact hSound.bound v (hQuiet.binds v hv)
  · rw [hQuiet.objects]
    exact hSound.reading f (by rw [← hQuiet.function?, hf])

theorem Quiet.adds (hQuiet : s.Quiet t) : s.Adds t :=
  addsBut_of_objects hQuiet.objects hQuiet.globals (by
    rw [hQuiet.initialized]
    exact fun _ h => h)

end ParseState

/- The account of the objects of a unit. -/
def Account.objects : Account where
  sound := ParseState.Sound
  grows := ParseState.Adds
  ok := fun _ _ => True
  outer := fun _ => True
  refl := ParseState.Adds.refl
  trans := ParseState.Adds.trans
  kept := fun hAdds => hAdds.kept
  mono := fun _ _ => trivial
  stays := fun _ _ => trivial
  quiet := fun hSound hQuiet => ⟨hQuiet.sound hSound, hQuiet.adds⟩

------------
-- Changes of One Object
------------

/- A change that leaves alone what an object is and holds. -/
structure Obj.Touches (g : Obj → Obj) : Prop where
  name : ∀ o, (g o).name = o.name
  isLocal : ∀ o, (g o).isLocal = o.isLocal
  isFunction : ∀ o, (g o).isFunction = o.isFunction
  isTentative : ∀ o, (g o).isTentative = o.isTentative
  data? : ∀ o, (g o).data? = o.data?

/- A function, or a variable of one. -/
def Obj.Plain (o : Obj) : Prop :=
  o.isLocal = true ∨ o.isFunction = true

namespace ParseState

variable {s t : ParseState} {pending : ObjId → Prop} {v : ObjId}
  {o : Obj} {g : Obj → Obj}

theorem not_named_of_plain (hPlain : o.Plain) : ¬ o.Named := by
  rintro ⟨hLocal, hFunction, -⟩
  rcases hPlain with h | h
  · rw [hLocal] at h
    cases h
  · rw [hFunction] at h
    cases h

theorem Anonymous.not_named (hAnonymous : s.Anonymous v) : ¬ (s.objects.entry v).Named :=
  fun hNamed => hNamed.spelled hAnonymous.hidden

/- One object is changed that nothing is said about. -/
theorem addsBut_modify (hReady : pending v ∨ ¬ (s.objects.entry v).Named)
    (hName : ∀ o, (g o).name = o.name) (hLocal : ∀ o, (g o).isLocal = o.isLocal)
    (hFunction : ∀ o, (g o).isFunction = o.isFunction)
    (hTentative : ∀ o, (g o).isTentative = o.isTentative) :
    s.AddsBut pending { s with objects := s.objects.modify v g } := by
  have hKept : s.Kept { s with objects := s.objects.modify v g } := by
    refine ⟨by simp, fun w _ => ?_, fun w _ => ?_, fun w _ => ?_, fun w _ => ?_⟩
    · exact Objects.entry_modify_cases g (P := fun o => o.name = (s.objects.entry w).name) rfl
        fun hSame => by rw [hSame, hName]
    · exact Objects.entry_modify_cases g (P := fun o => o.isLocal = (s.objects.entry w).isLocal) rfl
        fun hSame => by rw [hSame, hLocal]
    · exact Objects.entry_modify_cases g
        (P := fun o => o.isFunction = (s.objects.entry w).isFunction)
        rfl fun hSame => by rw [hSame, hFunction]
    · exact Objects.entry_modify_cases g
        (P := fun o => o.isTentative = (s.objects.entry w).isTentative)
        rfl fun hSame => by rw [hSame, hTentative]
  have hSize : (s.objects.modify v g).size = s.objects.size := Array.size_modify
  refine ⟨hKept, fun w hw hNot hNamed => ?_, ⟨[], by simp, by
    simp [TopLevel.ids], by simp [TopLevel.ids]⟩, fun w hLow hHigh => ?_,
    fun _ h => h, fun w hLow hHigh => ?_, fun w x hLow hLt hHigh => ?_⟩
  · have hOther : w ≠ v := by
      rintro rfl
      rcases hReady with hPending | hUnnamed
      · exact hNot hPending
      · exact hUnnamed hNamed
    exact Objects.entry_modify_ne g hOther
  all_goals
    change _ < (s.objects.modify v g).size at hHigh
    rw [hSize] at hHigh
    omega

/- What is being declared is changed. -/
theorem AddsBut.modify (hAdds : s.AddsBut (· = v) t) (hNew : s.objects.size ≤ v)
    (hLocal : ∀ o, (g o).isLocal = o.isLocal) :
    s.AddsBut (· = v) { t with objects := t.objects.modify v g } := by
  have hOther : ∀ w, w ≠ v → Objects.entry (t.objects.modify v g) w = t.objects.entry w :=
    fun w hw => Objects.entry_modify_ne g hw
  have hOld : ∀ w < s.objects.size, Objects.entry (t.objects.modify v g) w = t.objects.entry w :=
    fun w hw => hOther w (hw.trans_le hNew).ne
  have hSize : (t.objects.modify v g).size = t.objects.size := Array.size_modify
  refine ⟨⟨?_, fun w hw => ?_, fun w hw => ?_, fun w hw => ?_,
    fun w hw => ?_⟩, fun w hw hNot hNamed => ?_, ?_,
    fun w hLow hHigh hNot => ?_, hAdds.initialized, fun w hLow hHigh hNot => ?_,
    fun w x hLow hLt hHigh hNot hNot' => ?_⟩
  · exact hAdds.kept.size.trans_eq hSize.symm
  · exact (congrArg Obj.name (hOld w hw)).trans (hAdds.kept.name w hw)
  · exact (congrArg Obj.isLocal (hOld w hw)).trans (hAdds.kept.isLocal w hw)
  · exact (congrArg Obj.isFunction (hOld w hw)).trans (hAdds.kept.isFunction w hw)
  · exact (congrArg Obj.isTentative (hOld w hw)).trans (hAdds.kept.isTentative w hw)
  · exact (hOld w hw).trans (hAdds.old w hw hNot hNamed)
  · obtain ⟨new, hNew, hNodup, hIds⟩ := hAdds.globals
    refine ⟨new, hNew, hNodup, fun w hw => ?_⟩
    obtain ⟨hLow, hHigh, hIs⟩ := hIds w hw
    refine ⟨hLow, hHigh.trans_eq hSize.symm, ?_⟩
    exact Objects.entry_modify_cases g (P := fun o => o.isLocal = false)
      hIs fun hSame => by rw [hLocal, ← hSame, hIs]
  · rw [show Objects.entry _ w = _ from hOther w hNot]
    exact hAdds.declared w hLow (hHigh.trans_eq hSize) hNot
  · rw [show Objects.entry _ w = _ from hOther w hNot]
    exact hAdds.data w hLow (hHigh.trans_eq hSize) hNot
  · rw [show Objects.entry _ w = _ from hOther w hNot,
      show Objects.entry _ x = _ from hOther x hNot']
    exact hAdds.unique w x hLow hLt (hHigh.trans_eq hSize) hNot hNot'

theorem Sound.modify (hSound : s.Sound) (hFunction : ∀ o, (g o).isFunction = o.isFunction)
    (hFine : (g (s.objects.entry v)).Fine) : { s with objects := s.objects.modify v g }.Sound := by
  refine ⟨fun w => Objects.entry_modify_cases g (hSound.fine w)
    fun _ => hFine, fun w hw => by simpa using hSound.bound w hw,
    fun f hf => ?_⟩
  obtain ⟨hSize, hIs⟩ := hSound.reading f hf
  refine ⟨by simpa using hSize, Objects.entry_modify_cases g
    (P := fun o => o.isFunction = true) hIs fun hSame => ?_⟩
  rw [hFunction, ← hSame]
  exact hIs

/- An object is added that nothing is said about. -/
theorem Pushes.addsBut (hPushes : s.Pushes t o)
    (hGlobals : o.isLocal = true ∧ t.globals = s.globals ∨ o.isLocal = false ∧
        t.globals = s.globals.push (.object s.objects.size))
    (hReady : pending s.objects.size ∨ ¬ o.Named) : s.AddsBut pending t := by
  have hOnly : ∀ w, s.objects.size ≤ w → w < t.objects.size →
      ¬ pending w → ¬ (t.objects.entry w).Named := by
    intro w hLow hHigh hNot
    rw [hPushes.size] at hHigh
    obtain rfl := Nat.le_antisymm (Nat.le_of_lt_succ hHigh) hLow
    rw [hPushes.new]
    exact hReady.resolve_left hNot
  refine ⟨hPushes.kept, fun w hw _ _ => hPushes.old hw, ?_, fun w hLow hHigh hNot hNamed =>
      absurd hNamed (hOnly w hLow hHigh hNot), ?_,
    fun w hLow hHigh hNot hNamed => absurd hNamed (hOnly w hLow hHigh hNot),
    fun w x hLow hLt hHigh hNot _ hNamed => absurd hNamed (hOnly w hLow (hLt.trans hHigh) hNot)⟩
  · rcases hGlobals with ⟨hLocal, hSame⟩ | ⟨hLocal, hMore⟩
    · exact ⟨[], by rw [hSame, List.append_nil], by
        simp [TopLevel.ids], by simp [TopLevel.ids]⟩
    · refine ⟨[.object s.objects.size], by
        rw [hMore, Array.toList_push], by simp [TopLevel.ids],
        fun w hw => ?_⟩
      obtain rfl : w = s.objects.size := by simpa [TopLevel.ids] using hw
      rw [hPushes.size, hPushes.new]
      exact ⟨le_rfl, Nat.lt_succ_self _, hLocal⟩
  · rw [hPushes.initialized]
    exact fun _ h => h

theorem Pushes.sound (hPushes : s.Pushes t o) (hSound : s.Sound) (hFine : o.Fine) : t.Sound := by
  refine ⟨fun v => ?_, fun v hv => ?_, fun f hf => ?_⟩
  · rw [hPushes.objects]
    by_cases hOld : v < s.objects.size
    · rw [Objects.entry_push_lt hOld]
      exact hSound.fine v
    · rcases (not_lt.mp hOld).eq_or_lt with hNew | hOut
      · rw [← hNew, Objects.entry_push_size]
        exact hFine
      · rw [Objects.entry_of_size_le (by
          rw [Array.size_push]
          exact hOut)]
        exact Obj.fine_of_blank rfl rfl
  · rw [hPushes.size]
    rcases hPushes.binds v hv with hOld | rfl
    · exact Nat.lt_succ_of_lt (hSound.bound v hOld)
    · exact Nat.lt_succ_self _
  · obtain ⟨hSize, hIs⟩ := hSound.reading f (by rw [← hPushes.function?, hf])
    rw [hPushes.size, hPushes.old hSize]
    exact ⟨Nat.lt_succ_of_lt hSize, hIs⟩

/- What was pending has no name of its own. -/
theorem AddsBut.settled (hAdds : s.AddsBut (· = v) t) (hNew : v < s.objects.size)
    (hUnnamed : ¬ (s.objects.entry v).Named) : s.Adds t where
  kept := hAdds.kept
  old w hw _ hNamed := hAdds.old w hw (by
    rintro rfl
    exact hUnnamed hNamed) hNamed
  globals := hAdds.globals
  declared w hLow hHigh _ := hAdds.declared w hLow hHigh (hNew.trans_le hLow).ne'
  initialized := hAdds.initialized
  data w hLow hHigh _ := hAdds.data w hLow hHigh (hNew.trans_le hLow).ne'
  unique w x hLow hLt hHigh _ _ :=
    hAdds.unique w x hLow hLt hHigh (hNew.trans_le hLow).ne' ((hNew.trans_le hLow).trans hLt).ne'

end ParseState

end CCompiler
