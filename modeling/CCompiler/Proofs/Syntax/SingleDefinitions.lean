import Mathlib
import CCompiler.Proofs.Syntax.Liveness
import CCompiler.Proofs.Syntax.StaticData

/-
  One definition for every variable of a unit.  Of the objects
  that the declarations of a name leave, those that are
  definitions for certain stay, and of the tentative ones the
  first stays if there is none for certain.

  Main declarations:
    * `TranslationUnit.declared`, `TranslationUnit.definitions`
    * `TranslationUnit.definitions_dropTentative`
    * `TranslationUnit.variables_defined_once`
-/

------------
-- Declarations and Definitions
------------

namespace CCompiler

namespace TranslationUnit

/- Whether an object is a variable of a name. -/
def isVariable (os : Objects) (n : Bytes) (v : ObjId) : Bool :=
  !(os.entry v).isFunction && (os.entry v).name == n

/- The variables that the declarations of a name have left, in order. -/
def declared
    (os : Objects)
    (globals : List TopLevel)
    (n : Bytes) : List ObjId :=
  (TopLevel.ids globals).filter (isVariable os n)

/- Those of them that are definitions. -/
def definitions
    (os : Objects)
    (globals : List TopLevel)
    (n : Bytes) : List ObjId :=
  (declared os globals n).filter fun v => (os.entry v).isDefinition

/- Those of the definitions that are not tentative. -/
def certain
    (os : Objects)
    (globals : List TopLevel)
    (n : Bytes) : List ObjId :=
  (definitions os globals n).filter fun v => !(os.entry v).isTentative

/-
  Objects in order: a tentative definition is a definition of
  a variable.
-/
def Orderly (os : Objects) (globals : List TopLevel) (n : Bytes) : Prop :=
  ∀ v ∈ TopLevel.ids globals, (os.entry v).isTentative = true →
    (os.entry v).name = n →
      (os.entry v).isFunction = false ∧ (os.entry v).isDefinition = true

variable {os : Objects} {g : TopLevel} {globals : List TopLevel}
  {n : Bytes} {v : ObjId} {defined : List Bytes} {s : ParseState}

@[simp]
theorem mem_declared :
    v ∈ declared os globals n ↔ v ∈ TopLevel.ids globals ∧
      (os.entry v).isFunction = false ∧ (os.entry v).name = n := by simp [declared, isVariable]

@[simp]
theorem mem_definitions :
    v ∈ definitions os globals n ↔
      v ∈ declared os globals n ∧ (os.entry v).isDefinition = true := by
  simp only [definitions, List.mem_filter]

@[simp]
theorem mem_certain :
    v ∈ certain os globals n ↔ v ∈ definitions os globals n ∧ (os.entry v).isTentative = false := by
  simp only [certain, List.mem_filter, Bool.not_eq_true']

/- Text of assembly is no declaration. -/
theorem definitions_asm (t : Token) (text : Bytes) :
    definitions os (.asm t text :: globals) n = definitions os globals n := rfl

theorem certain_asm (t : Token) (text : Bytes) :
    certain os (.asm t text :: globals) n = certain os globals n := rfl

/- An object first, which is a definition of the name or none. -/
theorem definitions_cons (v : ObjId) :
    definitions os (.object v :: globals) n =
      if isVariable os n v = true ∧ (os.entry v).isDefinition = true then
        v :: definitions os globals n
      else definitions os globals n := by
  have hIds : TopLevel.ids (.object v :: globals) = v :: TopLevel.ids globals := rfl
  unfold definitions declared
  rw [hIds, List.filter_cons]
  by_cases hVariable : isVariable os n v = true
  · rw [if_pos hVariable, List.filter_cons]
    simp [hVariable]
  · rw [if_neg hVariable]
    simp [hVariable]

theorem certain_cons (v : ObjId) :
    certain os (.object v :: globals) n =
      if isVariable os n v = true ∧ (os.entry v).isDefinition = true ∧
          (os.entry v).isTentative = false then
        v :: certain os globals n
      else certain os globals n := by
  unfold certain
  rw [definitions_cons]
  by_cases hDefinition : isVariable os n v = true ∧ (os.entry v).isDefinition = true
  · rw [if_pos hDefinition, List.filter_cons]
    simp [hDefinition]
  · rw [if_neg hDefinition, if_neg fun hAll => hDefinition ⟨hAll.1, hAll.2.1⟩]

theorem isVariable_iff :
    isVariable os n v = true ↔
      (os.entry v).isFunction = false ∧ (os.entry v).name = n := by simp [isVariable]

theorem not_isVariable (hName : (os.entry v).name ≠ n) : ¬ isVariable os n v = true :=
  fun h => hName (isVariable_iff.mp h).2

/- Names with a definition for certain. -/
theorem mem_definedNames : n ∈ definedNames os globals ↔ ∃ v, v ∈ certain os globals n := by
  simp only [definedNames, List.mem_filterMap, mem_certain,
    mem_definitions, mem_declared, TopLevel.ids]
  constructor
  · rintro ⟨g, hMem, hSome⟩
    cases g with
    | asm t text => cases hSome
    | object v =>
      dsimp only at hSome
      split at hSome
      · rename_i hSure
        simp only [Bool.and_eq_true, Bool.not_eq_true'] at hSure
        exact ⟨v, ⟨⟨⟨_, hMem, rfl⟩, hSure.2, Option.some.inj hSome⟩, hSure.1.1⟩, hSure.1.2⟩
      · cases hSome
  · rintro ⟨v, ⟨⟨⟨g, hMem, hObject⟩, hFunction, hName⟩, hDefinition⟩, hTentative⟩
    cases g with
    | asm t text => cases hObject
    | object w =>
      cases hObject
      refine ⟨_, hMem, ?_⟩
      simp [hFunction, hName, hDefinition, hTentative]

/- Where there is a definition for certain, those are all that stay. -/
theorem definitions_of_defined (hDefined : n ∈ defined) :
    definitions os (dropTentative os defined globals) n = certain os globals n := by
  fun_induction dropTentative os defined globals with
  | case1 => rfl
  | case2 defined t text rest ih => rw [definitions_asm, certain_asm, ih hDefined]
  | case3 defined id rest o hTentative hKnown ih =>
    rw [ih hDefined, certain_cons, if_neg]
    rintro ⟨-, -, hNot⟩
    exact absurd (hNot.symm.trans hTentative) (by decide)
  | case4 defined id rest o hTentative hNew ih =>
    have hOther : ¬ isVariable os n id = true :=
      not_isVariable fun hName => hNew (by simpa [o, hName] using hDefined)
    rw [definitions_cons, certain_cons, ih (List.mem_cons_of_mem _ hDefined),
      if_neg fun h => hOther h.1, if_neg fun h => hOther h.1]
  | case5 defined id rest o hSure ih =>
    have hSure' : (os.entry id).isTentative = false := by simpa using hSure
    rw [definitions_cons, certain_cons, ih hDefined]
    simp [hSure']

/- Where there is none, the first tentative one stays. -/
theorem definitions_of_not_defined (hOrderly : Orderly os globals n)
    (hNone : certain os globals n = []) (hDefined : n ∉ defined) :
    definitions os (dropTentative os defined globals) n = (definitions os globals n).take 1 := by
  fun_induction dropTentative os defined globals with
  | case1 => rfl
  | case2 defined t text rest ih =>
    rw [definitions_asm, definitions_asm, ih hOrderly (by rwa [certain_asm] at hNone) hDefined]
  | case3 defined id rest o hTentative hKnown ih =>
    have hOther : ¬ isVariable os n id = true :=
      not_isVariable fun hName => hDefined (by simpa [o, hName] using hKnown)
    have hRest : certain os rest n = [] := by
      rwa [certain_cons, if_neg fun h => hOther h.1] at hNone
    rw [definitions_cons, if_neg fun h => hOther h.1]
    exact ih (fun v hv => hOrderly v (List.mem_cons_of_mem _ hv)) hRest hDefined
  | case4 defined id rest o hTentative hNew ih =>
    have hRest : certain os rest n = [] := by
      rw [certain_cons] at hNone
      split at hNone
      · cases hNone
      · exact hNone
    by_cases hName : (os.entry id).name = n
    · obtain ⟨hFunction, hDefinition⟩ := hOrderly id (by simp [TopLevel.ids]) hTentative hName
      have hOwn : isVariable os n id = true ∧ (os.entry id).isDefinition = true :=
        ⟨isVariable_iff.mpr ⟨hFunction, hName⟩, hDefinition⟩
      rw [definitions_cons, if_pos hOwn, definitions_cons,
        if_pos hOwn, definitions_of_defined (by simp [o, hName]), hRest]
      rfl
    · have hOther := not_isVariable hName
      rw [definitions_cons, definitions_cons,
        if_neg fun h => hOther h.1, if_neg fun h => hOther h.1]
      refine ih (fun v hv => hOrderly v (List.mem_cons_of_mem _ hv)) hRest ?_
      rw [List.mem_cons, not_or]
      exact ⟨fun h => hName h.symm, hDefined⟩
  | case5 defined id rest o hSure ih =>
    have hSure' : (os.entry id).isTentative = false := by simpa using hSure
    rw [certain_cons] at hNone
    split at hNone
    · cases hNone
    · rename_i hNot
      have hOther : ¬ (isVariable os n id = true ∧ (os.entry id).isDefinition = true) := fun h =>
        hNot ⟨h.1, h.2, hSure'⟩
      rw [definitions_cons, definitions_cons, if_neg hOther, if_neg hOther]
      exact ih (fun v hv => hOrderly v (List.mem_cons_of_mem _ hv)) hNone hDefined

/-
  What stays of the definitions of a name: those for certain,
  or else the first.
-/
theorem definitions_dropTentative (hOrderly : Orderly os globals n) :
    definitions os (dropTentative os (definedNames os globals) globals) n =
      if certain os globals n = [] then
        (definitions os globals n).take 1
      else certain os globals n := by
  split
  · rename_i hNone
    refine definitions_of_not_defined hOrderly hNone ?_
    rw [mem_definedNames, hNone]
    simp
  · rename_i hSome
    refine definitions_of_defined ?_
    rw [mem_definedNames]
    exact List.exists_mem_of_ne_nil _ hSome

variable {os' : Objects}

/- Marks for what is needed are not about variables. -/
theorem declared_remarked (hSame : ∀ v, Remarked (os.entry v) (os'.entry v)) :
    declared os' globals n = declared os globals n := by
  refine List.filter_congr fun v _ => ?_
  unfold isVariable
  rw [hSame v]

theorem definitions_remarked (hSame : ∀ v, Remarked (os.entry v) (os'.entry v)) :
    definitions os' globals n = definitions os globals n := by
  unfold definitions
  rw [declared_remarked hSame]
  refine List.filter_congr fun v _ => ?_
  rw [hSame v]

theorem certain_remarked (hSame : ∀ v, Remarked (os.entry v) (os'.entry v)) :
    certain os' globals n = certain os globals n := by
  unfold certain
  rw [definitions_remarked hSame]
  refine List.filter_congr fun v _ => ?_
  rw [hSame v]

------------
-- Units
------------

section Units

variable {cfg : Config} {ts : List Token} {t : ParseState} {p : Program}
  {w : ObjId}

/-
  What the declarations of a unit have left: each object once,
  the tentative definitions just where nothing says what the
  variable holds, and data once for each name.
-/
structure Left (s : ParseState) (n : Bytes) : Prop where
  nodup : (TopLevel.ids s.globals.toList).Nodup
  tentative : ∀ v ∈ declared s.objects s.globals.toList n,
    (s.objects.entry v).Declared
  unique : ∀ v ∈ declared s.objects s.globals.toList n,
    ∀ w ∈ declared s.objects s.globals.toList n,
      (s.objects.entry v).data?.isSome →
      (s.objects.entry w).data?.isSome → v = w

theorem left_of_adds (hBuiltins : declareBuiltins (start cfg ts) = .ok () t) (hAdds : t.Adds s)
    (hName : ¬ ParseState.Hidden n) : Left s n := by
  obtain ⟨-, hIds, -, hSize, type, align, hBuiltin⟩ := declareBuiltins_run hBuiltins
  obtain ⟨new, hNew, hNodup, hPlaces⟩ := hAdds.globals
  rw [hSize] at hPlaces
  have hAll : TopLevel.ids s.globals.toList = 0 :: TopLevel.ids new := by
    rw [hNew, TopLevel.ids_append, hIds]
    rfl
  -- the builtin object is as it was, if the name is its name
  have hFirst : (s.objects.entry 0).name = n → s.objects.entry 0 = t.objects.entry 0 := by
    intro hSame
    refine hAdds.old 0 (by omega) (fun h => h) ⟨?_, ?_, ?_⟩
    · rw [hBuiltin]
    · rw [hBuiltin]
    · rw [← hAdds.kept.name 0 (by omega), hSame]
      exact hName
  have hNamed : ∀ v ∈ TopLevel.ids new, (s.objects.entry v).isFunction = false →
      (s.objects.entry v).name = n → (s.objects.entry v).Named := by
    intro v hv hFunction hSame
    exact ⟨(hPlaces v hv).2.2, hFunction, by rwa [hSame]⟩
  refine ⟨?_, fun v hv => ?_, fun v hv w hw hData hData' => ?_⟩
  · rw [hAll, List.nodup_cons]
    exact ⟨fun h => absurd (hPlaces 0 h).1 (by decide), hNodup⟩
  · rw [mem_declared, hAll, List.mem_cons] at hv
    obtain ⟨rfl | hv, hFunction, hSame⟩ := hv
    · rw [hFirst hSame, hBuiltin]
      simp [Obj.Declared]
    · obtain ⟨hLow, hHigh, -⟩ := hPlaces v hv
      exact hAdds.declared v (by rwa [hSize]) hHigh (fun h => h) (hNamed v hv hFunction hSame)
  · rw [mem_declared, hAll, List.mem_cons] at hv hw
    obtain ⟨hv, hFunction, hSame⟩ := hv
    obtain ⟨hw, hFunction', hSame'⟩ := hw
    have hNotFirst : ∀ u, (s.objects.entry u).name = n →
        (s.objects.entry u).data?.isSome → u ≠ 0 := by
      rintro u hIs hSome rfl
      rw [hFirst hIs, hBuiltin] at hSome
      cases hSome
    have hv := hv.resolve_left (hNotFirst v hSame hData)
    have hw := hw.resolve_left (hNotFirst w hSame' hData')
    have hBefore : ∀ a ∈ TopLevel.ids new, ∀ b ∈ TopLevel.ids new,
        (s.objects.entry a).Named → (s.objects.entry b).Named →
        (s.objects.entry a).data?.isSome → (s.objects.entry b).data?.isSome →
        (s.objects.entry a).name = (s.objects.entry b).name →
        ¬ a < b := by
      intro a ha b hb hNamed hNamed' hSome hSome' hEq hLt
      exact hAdds.unique a b (by rw [hSize]; exact (hPlaces a ha).1) hLt
        (hPlaces b hb).2.1 (fun h => h) (fun h => h) hNamed hNamed'
        hSome hSome' hEq
    have hv' := hNamed v hv hFunction hSame
    have hw' := hNamed w hw hFunction' hSame'
    exact Nat.le_antisymm (not_lt.mp (hBefore w hw v hv hw' hv' hData' hData
        (hSame'.trans hSame.symm)))
      (not_lt.mp (hBefore v hv w hw hv' hw' hData hData' (hSame.trans hSame'.symm)))

/-
  A name whose declarations are as they should be: what is
  given a value is not declared as external, and a variable of
  each thread that has no value has no definition for certain
  besides.
-/
structure Usual (s : ParseState) (n : Bytes) : Prop where
  valued : ∀ v ∈ declared s.objects s.globals.toList n,
    (s.objects.entry v).data?.isSome → (s.objects.entry v).isDefinition = true
  threads : ∀ v ∈ definitions s.objects s.globals.toList n,
    ∀ w ∈ definitions s.objects s.globals.toList n, v ≠ w →
      (s.objects.entry v).isThreadLocal = true →
      (s.objects.entry v).data? = none →
        (s.objects.entry w).isThreadLocal = false ∧
          (s.objects.entry w).data? = none

theorem Left.orderly (hLeft : Left s n) (hFine : s.Sound) :
    Orderly s.objects s.globals.toList n := by
  intro v hv hTentative hName
  have hVariable : (s.objects.entry v).isFunction = false := by
    by_contra hNot
    have hNever := ((hFine.fine v).plain (.inr (by simpa using hNot))).2
    exact absurd (hNever.symm.trans hTentative) (by decide)
  exact ⟨hVariable, ((hLeft.tentative v (mem_declared.mpr ⟨hv, hVariable, hName⟩)).mp hTentative).1⟩

/- What is not tentative is of each thread or has a value. -/
theorem Left.of_certain (hLeft : Left s n) (hCertain : v ∈ certain s.objects s.globals.toList n) :
    (s.objects.entry v).isThreadLocal = true ∨ (s.objects.entry v).data?.isSome := by
  obtain ⟨hDefinition, hTentative⟩ := mem_certain.mp hCertain
  obtain ⟨hDeclared, hDefinition⟩ := mem_definitions.mp hDefinition
  by_contra hNot
  obtain ⟨hThread, hData⟩ := not_or.mp hNot
  have hIs := (hLeft.tentative v hDeclared).mpr
    ⟨hDefinition, by simpa using hThread, by simpa using hData⟩
  exact absurd (hIs.symm.trans hTentative) (by decide)

/- What has a value is a definition for certain, as things should be. -/
theorem Left.certain_of_data (hLeft : Left s n) (hUsual : Usual s n)
    (hDeclared : v ∈ declared s.objects s.globals.toList n)
    (hData : (s.objects.entry v).data?.isSome) : v ∈ certain s.objects s.globals.toList n := by
  refine mem_certain.mpr ⟨mem_definitions.mpr ⟨hDeclared, hUsual.valued v hDeclared hData⟩, ?_⟩
  by_contra hTentative
  have hNone := ((hLeft.tentative v hDeclared).mp (by simpa using hTentative)).2.2
  rw [hNone] at hData
  cases hData

/- There is at most one definition for certain. -/
theorem Left.certain_unique (hLeft : Left s n) (hUsual : Usual s n)
    (hFirst : v ∈ certain s.objects s.globals.toList n)
    (hSecond : w ∈ certain s.objects s.globals.toList n) : v = w := by
  have hDefinition := (mem_certain.mp hFirst).1
  have hDefinition' := (mem_certain.mp hSecond).1
  have hOne := hLeft.unique v (mem_definitions.mp hDefinition).1
    w (mem_definitions.mp hDefinition').1
  have hKind := hLeft.of_certain hFirst
  have hKind' := hLeft.of_certain hSecond
  by_contra hOther
  -- one of the two is of each thread and has no value
  have hPlain : ∀ a ∈ definitions s.objects s.globals.toList n,
      ∀ b ∈ definitions s.objects s.globals.toList n, a ≠ b →
        (s.objects.entry a).isThreadLocal = true →
        ¬ (s.objects.entry a).data?.isSome → ¬ ((s.objects.entry b).isThreadLocal = true ∨
            (s.objects.entry b).data?.isSome) := by
    intro a ha b hb hNe hThread hNone
    obtain ⟨hNot, hEmpty⟩ := hUsual.threads a ha b hb hNe hThread (by simpa using hNone)
    rw [hNot, hEmpty]
    simp
  by_cases hData : (s.objects.entry v).data?.isSome
  · by_cases hData' : (s.objects.entry w).data?.isSome
    · exact hOther (hOne hData hData')
    · exact hPlain w hDefinition' v hDefinition (Ne.symm hOther)
        (hKind'.resolve_right hData') hData' hKind
  · exact hPlain v hDefinition w hDefinition' hOther (hKind.resolve_right hData) hData hKind'

/- A list that has each element once, and one element at most. -/
theorem certain_nil_or_single (hLeft : Left s n) (hUsual : Usual s n) :
    certain s.objects s.globals.toList n = [] ∨
      ∃ v, certain s.objects s.globals.toList n = [v] := by
  have hNodup : (certain s.objects s.globals.toList n).Nodup :=
    ((hLeft.nodup.filter _).filter _).filter _
  cases hList : certain s.objects s.globals.toList n with
  | nil => exact .inl rfl
  | cons v rest =>
    refine .inr ⟨v, ?_⟩
    cases rest with
    | nil => rfl
    | cons w rest =>
      rw [hList] at hNodup
      have hSame := hLeft.certain_unique hUsual
        (v := v) (w := w) (by simp [hList]) (by simp [hList])
      simp [hSame] at hNodup

/-
  A variable is defined once: if a declaration defines it or
  gives it a value, the unit has one definition, which is the
  object with the value if there is one; else it has none.
-/
structure DefinedOnce (s : ParseState) (n : Bytes) : Prop where
  single : ∀ v ∈ declared s.objects s.globals.toList n,
    (s.objects.entry v).isDefinition = true ∨ (s.objects.entry v).data?.isSome →
      ∃ u, definitions (finish s).objects (finish s).globals n = [u] ∧
        ∀ w ∈ declared s.objects s.globals.toList n,
          (s.objects.entry w).data?.isSome → w = u
  none : (∀ v ∈ declared s.objects s.globals.toList n,
      (s.objects.entry v).isDefinition = false ∧
        (s.objects.entry v).data? = none) →
    definitions (finish s).objects (finish s).globals n = []

/- The definitions of a unit that is finished. -/
theorem Left.definitions_finish (hLeft : Left s n) (hSound : s.Sound) :
    definitions (finish s).objects (finish s).globals n =
      if certain s.objects s.globals.toList n = [] then
        (definitions s.objects s.globals.toList n).take 1
      else certain s.objects s.globals.toList n := by
  have hMarked := entry_finish s
  have hOrderly : Orderly (finish s).objects s.globals.toList n := by
    intro v hv hTentative hName
    rw [hMarked v] at hTentative hName ⊢
    exact hLeft.orderly hSound v hv hTentative hName
  have hDrop := definitions_dropTentative hOrderly
  have hSame : definitions (finish s).objects s.globals.toList n =
      definitions s.objects s.globals.toList n :=
    definitions_remarked hMarked
  rw [certain_remarked hMarked, hSame] at hDrop
  exact hDrop

/- Where declarations are as they should be, variables are defined once. -/
theorem Usual.definedOnce (hUsual : Usual s n) (hLeft : Left s n) (hSound : s.Sound) :
    DefinedOnce s n := by
  have hFinish := hLeft.definitions_finish hSound
  refine ⟨fun v hv hIs => ?_, fun hNone => ?_⟩
  · have hDefinition : v ∈ definitions s.objects s.globals.toList n :=
      mem_definitions.mpr ⟨hv, hIs.elim id (hUsual.valued v hv)⟩
    rcases certain_nil_or_single hLeft hUsual with hNil | ⟨u, hOne⟩
    · rw [if_pos hNil] at hFinish
      obtain ⟨u, rest, hList⟩ := List.exists_cons_of_ne_nil (List.ne_nil_of_mem hDefinition)
      refine ⟨u, by rw [hFinish, hList]; rfl, fun w hw hData => ?_⟩
      have hCertain := hLeft.certain_of_data hUsual hw hData
      rw [hNil] at hCertain
      cases hCertain
    · rw [if_neg (by rw [hOne]; simp), hOne] at hFinish
      refine ⟨u, hFinish, fun w hw hData => ?_⟩
      have hCertain := hLeft.certain_of_data hUsual hw hData
      rw [hOne] at hCertain
      exact List.mem_singleton.mp hCertain
  · have hNil : definitions s.objects s.globals.toList n = [] := by
      refine List.eq_nil_iff_forall_not_mem.mpr fun v hv => ?_
      obtain ⟨hDeclared, hDefinition⟩ := mem_definitions.mp hv
      rw [(hNone v hDeclared).1] at hDefinition
      cases hDefinition
    rw [hFinish, certain, hNil]
    rfl

/- Variables that are defined once are declared as they should be. -/
theorem DefinedOnce.usual (hOnce : DefinedOnce s n) (hLeft : Left s n) (hSound : s.Sound) :
    Usual s n := by
  have hFinish := hLeft.definitions_finish hSound
  have hMarked := entry_finish s
  refine ⟨fun v hv hData => ?_, fun v hv w hw hOther hThread hNone => ?_⟩
  · obtain ⟨u, hOne, hValue⟩ := hOnce.single v hv (.inr hData)
    obtain rfl := hValue v hv hData
    have hMem : v ∈ definitions (finish s).objects (finish s).globals n := by simp [hOne]
    have hIs := (mem_definitions.mp hMem).2
    rwa [hMarked v] at hIs
  · obtain ⟨hDeclared, hDefinition⟩ := mem_definitions.mp hv
    obtain ⟨hDeclared', hDefinition'⟩ := mem_definitions.mp hw
    obtain ⟨u, hOne, -⟩ := hOnce.single v hDeclared (.inl hDefinition)
    have hCertain : v ∈ certain s.objects s.globals.toList n := by
      refine mem_certain.mpr ⟨hv, ?_⟩
      by_contra hTentative
      have hNot := ((hLeft.tentative v hDeclared).mp (by simpa using hTentative)).2.1
      rw [hThread] at hNot
      cases hNot
    rw [if_neg (List.ne_nil_of_mem hCertain)] at hFinish
    rw [← hFinish, hOne] at hCertain
    obtain rfl := List.mem_singleton.mp hCertain
    -- the other definition is not there in the end
    have hTentative : (s.objects.entry w).isTentative = true := by
      by_contra hSure
      have hAlso : w ∈ certain s.objects s.globals.toList n :=
        mem_certain.mpr ⟨hw, by simpa using hSure⟩
      rw [← hFinish, hOne] at hAlso
      exact hOther (List.mem_singleton.mp hAlso).symm
    exact ((hLeft.tentative w hDeclared').mp hTentative).2

/-
  The variables of a unit that parses.  Each declaration of
  one that is read leaves an object that is a definition unless
  it is external, and a name is given a value only once.  A
  variable is defined once in the unit just if no declaration
  that gives it a value is external, and if a definition of it
  for each thread that gives it no value is the only one beside
  those that say nothing.
-/
theorem variables_defined_once (hParse : (parse cfg ts).result = .ok p) :
    ∃ s, declarations (read (depth ts)) (start cfg ts) = .ok () s ∧
      p = finish s ∧ (∀ base attr s₁ attr' s₂, s₁.Sound →
        Declaration.unitVariable (read (depth ts)) base attr s₁ = .ok attr' s₂ →
        Declaration.Stands s₁ attr' s₂) ∧ ∀ n, ¬ ParseState.Hidden n →
        (∀ v ∈ declared s.objects s.globals.toList n, (s.objects.entry v).Declared) ∧
        (DefinedOnce s n ↔ Usual s n) := by
  obtain ⟨s, hRun, rfl⟩ := declarations_of_parse hParse
  have hReads : Account.objects.Reads (read (depth ts)) := by
    rw [← readWith_function]
    exact reads Declaration.objects_function _
  have hUnit := hRun
  rw [← declarationsWith_function] at hUnit
  obtain ⟨t, hBuiltins, hSound, hAdds⟩ := grows_of_declarationsWith Declaration.objects_function
    (fun t hStart => ⟨(declareBuiltins_run hStart).1, trivial⟩) hUnit
  refine ⟨s, hRun, rfl, fun base attr s₁ attr' s₂ hStart hOne =>
    ((Declaration.keeps_unitVariable base attr).run hStart hOne).2.2, fun n hName => ?_⟩
  have hLeft := left_of_adds hBuiltins hAdds hName
  exact ⟨hLeft.tentative, fun hOnce => hOnce.usual hLeft hSound,
    fun hUsual => hUsual.definedOnce hLeft hSound⟩

end Units

/- The state in which a text without macros and files ends. -/
def leftBy? (text : String) : Option ParseState :=
  match (Preprocessor.process (ascii "m.c") (some (ascii text)) []).run {} with
  | .ok ts _ =>
    match declarations (read (depth ts)) (start {} ts) with
    | .ok _ s => some s
    | .error _ _ => none
  | .error _ _ => none

theorem exists_of_leftBy? {text : String} (hLeft : leftBy? text = some s) :
    ∃ ts, declarations (read (depth ts)) (start {} ts) = .ok () s ∧
      (parse {} ts).result = .ok (finish s) := by
  unfold leftBy? at hLeft
  split at hLeft
  · rename_i ts _ _
    split at hLeft
    · rename_i u t hRun
      cases hLeft
      refine ⟨ts, hRun, ?_⟩
      rw [parse_eq_outcome, hRun]
      rfl
    · cases hLeft
  · cases hLeft

/-
  Of the objects of a name in a unit, whether they are
  definitions and what they hold.
-/
def heldBy (s : ParseState) (n : String) :
    List (Bool × Option Bytes) :=
  (declared (finish s).objects (finish s).globals (ascii n)).map
    fun v =>
      let o := (finish s).objects.entry v
      (o.isDefinition, o.data?)

/- Of four declarations the one with the value is the definition. -/
theorem variables_defined_once_mixed :
    ∃ s, leftBy? "int x; extern int x; int x = 3; int x;" = some s ∧
      (declared s.objects s.globals.toList (ascii "x")).length = 4 ∧
      DefinedOnce s (ascii "x") ∧ heldBy s "x" = [(false, none), (true, some [3, 0, 0, 0])] := by
  have hCheck : (match leftBy? "int x; extern int x; int x = 3; int x;" with
      | none => false
      | some s =>
        let all := declared s.objects s.globals.toList (ascii "x")
        decide (all.length = 4 ∧ (∀ v ∈ all, (s.objects.entry v).data?.isSome →
            (s.objects.entry v).isDefinition = true) ∧
          (∀ v ∈ all, (s.objects.entry v).isThreadLocal = false) ∧
          heldBy s "x" = [(false, none), (true, some [3, 0, 0, 0])])) = true := by
    decide +kernel
  split at hCheck
  · cases hCheck
  · rename_i s hSome
    obtain ⟨hFour, hValued, hThreads, hHeld⟩ := of_decide_eq_true hCheck
    obtain ⟨ts, hRun, hParse⟩ := exists_of_leftBy? hSome
    obtain ⟨s', hSame, -, -, hAll⟩ := variables_defined_once hParse
    rw [hRun] at hSame
    cases hSame
    have hName : ¬ ParseState.Hidden (ascii "x") := by
      rintro ⟨n, hEq⟩
      exact absurd (congrArg List.head? hEq) (by
        rw [List.head?_append_of_ne_nil _ (by decide)]
        decide)
    refine ⟨s, hSome, hFour, (hAll _ hName).2.mpr ⟨hValued, fun v hv w hw _ hThread => ?_⟩, hHeld⟩
    rw [hThreads v (mem_definitions.mp hv).1] at hThread
    cases hThread

/-
  An external declaration with a value is no definition, and
  the definitions for each thread without a value all stay.
-/
theorem valued_variable_undefined :
    (leftBy? "extern int x = 3;").map (heldBy · "x") = some [(false, some [3, 0, 0, 0])] ∧
    (leftBy? "_Thread_local int x; _Thread_local int x;").map
        (heldBy · "x") = some [(true, none), (true, none)] ∧
    (leftBy? "_Thread_local int x; int x = 3;").map (heldBy · "x") =
      some [(true, none), (true, some [3, 0, 0, 0])] := by decide +kernel

end TranslationUnit

end CCompiler
