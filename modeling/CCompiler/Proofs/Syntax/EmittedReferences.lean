import Mathlib
import CCompiler.Proofs.Syntax.CarefulReading
import CCompiler.Proofs.Syntax.Liveness
import CCompiler.Proofs.Syntax.SingleDefinitions

/-
  What the output of a unit refers to.

  A function is dropped if no root leads to it.  The notes that
  are taken while a unit is read decide this, and an account of
  them is kept by a careful reader.  Where reading without care
  has come to the same notes, the functions that the output
  refers to are in it, with two exceptions: a name can come to
  stand for something else at the end of the unit, and the
  variables of a function that is dropped stay if they are
  static.

  Main declarations:
    * `ParseState.outline`
    * `TranslationUnit.Steady`
    * `Program.HasCode`, `Program.HasData`
    * `TranslationUnit.references_in_output`
-/

------------
-- Outlines
------------

namespace CCompiler

/- What an object has to do with references. -/
structure Outline where
  name : Bytes
  isFunction : Bool
  isDefinition : Bool
  isLive : Bool
  isRoot : Bool
  refs : List Bytes
  named? : Option (List ObjId)
  targets : List Target
deriving DecidableEq

def Obj.outline (o : Obj) : Outline :=
  { name := o.name
    isFunction := o.isFunction
    isDefinition := o.isDefinition
    isLive := o.isLive
    isRoot := o.isRoot
    refs := o.refs
    named? := o.body?.map Stmt.names
    targets := o.relocs.map (·.target) }

/- The top level and the outlines of all objects. -/
def ParseState.outline (s : ParseState) : List ObjId × List Outline :=
  (TopLevel.ids s.globals.toList, s.objects.toList.map Obj.outline)

namespace Objects

variable {os os' : Objects} {ids : List ObjId} {x v g : ObjId}

theorem outline_entry (os : Objects) (v : ObjId) :
    (os.entry v).outline = ((os.toList.map Obj.outline)[v]?).getD (default : Obj).outline := by
  simp only [entry, Array.getD_eq_getD_getElem?, List.getElem?_map, Array.getElem?_toList]
  cases os[v]? <;> rfl

theorem Mentions.alike (hMentions : os.Mentions g v)
    (hSame : ∀ w, (os.entry w).outline = (os'.entry w).outline) : os'.Mentions g v where
  isFunction := (congrArg Outline.isFunction (hSame g)).symm.trans hMentions.isFunction
  name := by
    have hName := congrArg Outline.name (hSame v)
    have hRefs := congrArg Outline.refs (hSame g)
    simp only [Obj.outline] at hName hRefs
    rw [← hName, ← hRefs]
    exact hMentions.name

theorem Warrants.alike (hWarrants : os.Warrants x v)
    (hSame : ∀ w, (os.entry w).outline = (os'.entry w).outline) : os'.Warrants x v := by
  have hRoot := congrArg Outline.isRoot (hSame v)
  have hName := congrArg Outline.name (hSame x)
  have hDefinition := congrArg Outline.isDefinition (hSame x)
  simp only [Obj.outline] at hRoot hName hDefinition
  unfold Warrants
  rw [← hRoot, ← hName, ← hDefinition]
  rcases hWarrants with hIs | ⟨hPlace, g, hMentions⟩
  · exact .inl hIs
  · exact .inr ⟨hPlace, g, hMentions.alike hSame⟩

/- Objects with the same outlines are in the same places. -/
theorem Placed.alike (hPlaced : os.Placed ids x) (hSize : os.size = os'.size)
    (hSame : ∀ w, (os.entry w).outline = (os'.entry w).outline) : os'.Placed ids x := by
  have hFunction : ∀ w, (os.entry w).isFunction = (os'.entry w).isFunction := fun w =>
    congrArg Outline.isFunction (hSame w)
  refine ⟨fun h => hPlaced.listed ((hFunction x).trans h),
    (congrArg Outline.isLive (hSame x)).symm.trans hPlaced.fresh,
    fun b hb v hv => ?_, fun h r hr v hTarget => ?_⟩
  · have hNamed := congrArg Outline.named? (hSame x)
    simp only [Obj.outline, hb, Option.map_some, Option.map_eq_some_iff] at hNamed
    obtain ⟨a, ha, hNames⟩ := hNamed
    obtain ⟨hLt, hNoted⟩ := hPlaced.body a ha v (hNames ▸ hv)
    exact ⟨hSize ▸ hLt, fun hIs => (hNoted ((hFunction v).trans hIs)).alike hSame⟩
  · have hTargets := congrArg Outline.targets (hSame x)
    simp only [Obj.outline] at hTargets
    have hMem : r.target ∈ (os.entry x).relocs.map (·.target) := by
      rw [hTargets]
      exact List.mem_map_of_mem hr
    obtain ⟨q, hq, hSameTarget⟩ := List.mem_map.mp hMem
    obtain ⟨hLt, hNoted⟩ := hPlaced.relocs ((hFunction x).trans h) q hq
      v (hSameTarget.trans hTarget)
    exact ⟨hSize ▸ hLt, fun hIs => (hNoted ((hFunction v).trans hIs)).alike hSame⟩

end Objects

variable {globals : List TopLevel}

------------
-- Units That Are Read With Care
------------

namespace TranslationUnit

open Parse Account Declaration

variable {cfg : Config} {ts : List Token} {s t : ParseState}
  {p : Program} {v w : ObjId}

/- There is nothing to be noted at the start of a unit. -/
theorem accounted_declareBuiltins (hRun : declareBuiltins (start cfg ts) = .ok () s) :
    s.Accounted ∧ s.function? = none := by
  obtain ⟨id, t, hNew, hRun⟩ := exists_of_bind hRun
  obtain ⟨rfl, hGlobals, hPushes⟩ := newGlobal_run hNew
  obtain ⟨⟨⟩, u, hChange, hRun⟩ := exists_of_bind hRun
  obtain rfl := modifyObject_run hChange
  cases hRun
  have hChanged := hPushes.changed fun o => { o with isDefinition := false }
  have hReading := hChanged.function?
  refine ⟨⟨fun v hv => ?_, fun f hf => ?_, ⟨?_, ?_⟩, fun i a ha => ?_, fun v => ?_⟩, hReading⟩
  · rcases hChanged.binds v hv with hOld | rfl
    · obtain ⟨sc, hScope, n, hName⟩ := hOld
      obtain rfl := List.mem_singleton.mp hScope
      cases hName
    · rw [hChanged.size]
      exact Nat.lt_succ_self _
  · rw [hReading] at hf
    cases hf
  · rw [hChanged.size]
    exact Nat.lt_succ_self _
  · rw [hChanged.new]
  · rw [hChanged.vlas] at ha
    cases ha
  · have hNone : ∀ x, (start cfg ts).objects.Placed [] x := fun x =>
      Objects.placed_of_size_le (Nat.zero_le x)
    rw [hChanged.objects]
    exact Objects.placed_push hNone (List.nil_subset _) (fun h => by cases h) rfl rfl rfl v

/-
  Reading with care comes to the same notes: no declaration of
  a function has taken back what was noted before, and no body
  names functions in the lengths of arrays from outside of it.
-/
def Steady (cfg : Config) (ts : List Token) (s : ParseState) : Prop :=
  ∃ t, declarationsWith (functionWith true)
      (readWith (functionWith true) (depth ts)) (start cfg ts) = .ok () t ∧
    t.outline = s.outline

/- All objects of such a unit are in their places. -/
theorem Steady.placed (hSteady : Steady cfg ts s) (v : ObjId) :
    s.objects.Placed (TopLevel.ids s.globals.toList) v := by
  obtain ⟨t, hRun, hSame⟩ := hSteady
  have hReads := reads references_function (depth ts)
  obtain ⟨-, -, hSound, -⟩ := grows_of_declarationsWith references_function
    (fun _ hStart => accounted_declareBuiltins hStart) hRun
  obtain ⟨hIds, hOutlines⟩ := Prod.mk.inj hSame
  rw [← hIds]
  refine (hSound.placed v).alike ?_ fun w => ?_
  · simpa using congrArg List.length hOutlines
  · rw [Objects.outline_entry, Objects.outline_entry, hOutlines]

------------
-- The Output
------------

/- What is not tentative is not dropped. -/
theorem mem_ids_dropTentative {os : Objects} {defined : List Bytes}
    (hMem : v ∈ TopLevel.ids globals) (hSure : (os.entry v).isTentative = false) :
    v ∈ TopLevel.ids (dropTentative os defined globals) := by
  fun_induction dropTentative os defined globals with
  | case1 => exact hMem
  | case2 defined t text rest ih => exact ih hMem
  | case3 defined id rest o hTentative hKnown ih =>
    rcases List.mem_cons.mp hMem with rfl | hRest
    · exact absurd (hSure.symm.trans hTentative) (by decide)
    · exact ih hRest
  | case4 defined id rest o hTentative hNew ih =>
    rcases List.mem_cons.mp hMem with rfl | hRest
    · exact List.mem_cons_self
    · exact List.mem_cons_of_mem _ (ih hRest)
  | case5 defined id rest o hOther ih =>
    rcases List.mem_cons.mp hMem with rfl | hRest
    · exact List.mem_cons_self
    · exact List.mem_cons_of_mem _ (ih hRest)

end TranslationUnit

namespace Program

variable {p : Program} {f x v : ObjId}

/- A function of which there is code in the output. -/
structure HasCode (p : Program) (f : ObjId) : Prop where
  listed : f ∈ TopLevel.ids p.globals
  isFunction : (p.objects.entry f).isFunction = true
  isDefinition : (p.objects.entry f).isDefinition = true
  isLive : (p.objects.entry f).isLive = true

/- A variable of which there are data in the output. -/
structure HasData (p : Program) (x : ObjId) : Prop where
  listed : x ∈ TopLevel.ids p.globals
  isFunction : (p.objects.entry x).isFunction = false
  isDefinition : (p.objects.entry x).isDefinition = true

/-
  What an object refers to: a function to what is named in its
  body, and a variable to what it holds the address of.
-/
def referred (p : Program) (x : ObjId) : List ObjId :=
  let o := p.objects.entry x
  if o.isFunction then (o.body?.map Stmt.names).getD []
  else o.relocs.filterMap fun r =>
    match r.target with
    | .object v => some v
    | .label _ => none

/-
  The output refers to a function that is defined in the unit
  and is not in the output.
-/
structure Dangles (p : Program) (x v : ObjId) : Prop where
  output : p.HasCode x ∨ p.HasData x
  referred : v ∈ p.referred x
  isFunction : (p.objects.entry v).isFunction = true
  isDefinition : (p.objects.entry v).isDefinition = true
  dropped : ¬ p.HasCode v

theorem hasCode_iff :
    p.HasCode f ↔ f ∈ TopLevel.ids p.globals ∧ (p.objects.entry f).isFunction = true ∧
      (p.objects.entry f).isDefinition = true ∧
      (p.objects.entry f).isLive = true := by
  constructor
  · rintro ⟨h, h₁, h₂, h₃⟩
    exact ⟨h, h₁, h₂, h₃⟩
  · rintro ⟨h, h₁, h₂, h₃⟩
    exact ⟨h, h₁, h₂, h₃⟩

instance : Decidable (p.HasCode f) := decidable_of_iff _ hasCode_iff.symm

theorem hasData_iff :
    p.HasData x ↔ x ∈ TopLevel.ids p.globals ∧ (p.objects.entry x).isFunction = false ∧
      (p.objects.entry x).isDefinition = true := by
  constructor
  · rintro ⟨h, h₁, h₂⟩
    exact ⟨h, h₁, h₂⟩
  · rintro ⟨h, h₁, h₂⟩
    exact ⟨h, h₁, h₂⟩

instance : Decidable (p.HasData x) := decidable_of_iff _ hasData_iff.symm

theorem dangles_iff :
    p.Dangles x v ↔ (p.HasCode x ∨ p.HasData x) ∧ v ∈ p.referred x ∧
      (p.objects.entry v).isFunction = true ∧
      (p.objects.entry v).isDefinition = true ∧ ¬ p.HasCode v := by
  constructor
  · rintro ⟨h, h₁, h₂, h₃, h₄⟩
    exact ⟨h, h₁, h₂, h₃, h₄⟩
  · rintro ⟨h, h₁, h₂, h₃, h₄⟩
    exact ⟨h, h₁, h₂, h₃, h₄⟩

instance : Decidable (p.Dangles x v) := decidable_of_iff _ dangles_iff.symm

theorem mem_referred_of_function (hFunction : (p.objects.entry x).isFunction = true)
    (hIn : v ∈ p.referred x) : ∃ b, (p.objects.entry x).body? = some b ∧ v ∈ b.names := by
  simp only [referred, hFunction, if_true] at hIn
  cases hBody : (p.objects.entry x).body? with
  | none =>
    rw [hBody] at hIn
    cases hIn
  | some b =>
    rw [hBody] at hIn
    exact ⟨b, rfl, hIn⟩

theorem mem_referred_of_variable (hVariable : (p.objects.entry x).isFunction = false)
    (hIn : v ∈ p.referred x) : ∃ r ∈ (p.objects.entry x).relocs, r.target = .object v := by
  simp only [referred, hVariable, Bool.false_eq_true, if_false, List.mem_filterMap] at hIn
  obtain ⟨r, hr, hTarget⟩ := hIn
  refine ⟨r, hr, ?_⟩
  split at hTarget
  · rename_i w hSame
    rw [hSame, Option.some.inj hTarget]
  · cases hTarget

end Program

namespace TranslationUnit

open Parse Account Declaration

variable {cfg : Config} {ts : List Token} {s t : ParseState}
  {p : Program} {v w x g : ObjId}

/- A name stands for functions only. -/
theorem isFunction_of_functionNamed {name : Bytes} (hFind : functionNamed s name = some v) :
    (s.objects.entry v).isFunction = true := by
  unfold functionNamed at hFind
  split at hFind
  · split at hFind
    · rename_i hIs
      cases hFind
      exact hIs
    · cases hFind
  · cases hFind

/- The top level has what is on the list of its objects. -/
theorem mem_of_mem_ids (hMem : v ∈ TopLevel.ids globals) : .object v ∈ globals := by
  obtain ⟨g, hg, hIs⟩ := List.mem_filterMap.mp hMem
  cases g with
  | asm t text => cases hIs
  | object u =>
    cases hIs
    exact hg

/-
  What has been noted of a unit that has been read.  All
  objects are in their places, and functions are no tentative
  definitions.
-/
structure Noted (s : ParseState) : Prop where
  placed : ∀ v, s.objects.Placed (TopLevel.ids s.globals.toList) v
  sure : ∀ v, (s.objects.entry v).isFunction = true →
    (s.objects.entry v).isTentative = false

/- What a function with code mentions is marked. -/
theorem Noted.live_of_mentions (hNoted : Noted s)
    (hLive : ((finish s).objects.entry g).isLive = true) (hMentions : s.objects.Mentions g v)
    (hNamed : functionNamed s (s.objects.entry v).name = some v) :
    ((finish s).objects.entry v).isLive = true :=
  (marks_markAllLive _ _ _).closed.2 g v hLive (hNoted.placed g).fresh
    ⟨_, hMentions.name, hNamed, isFunction_of_functionNamed hNamed⟩

/- A function that is marked has code, if it is defined. -/
theorem Noted.hasCode (hNoted : Noted s)
    (hNamed : functionNamed s (s.objects.entry v).name = some v)
    (hDefinition : (s.objects.entry v).isDefinition = true)
    (hLive : ((finish s).objects.entry v).isLive = true) : (finish s).HasCode v := by
  have hMarked := entry_finish s v
  have hFunction := isFunction_of_functionNamed hNamed
  refine ⟨mem_ids_dropTentative ((hNoted.placed v).listed hFunction) ?_, ?_, ?_, hLive⟩
  · change ((finish s).objects.entry v).isTentative = false
    rw [hMarked]
    exact hNoted.sure v hFunction
  · rw [hMarked]
    exact hFunction
  · rw [hMarked]
    exact hDefinition

/- A function that is named in code has code. -/
theorem Noted.code_of_body (hNoted : Noted s) (hCode : (finish s).HasCode g) {b : Stmt}
    (hBody : (s.objects.entry g).body? = some b) (hIn : v ∈ b.names)
    (hNamed : functionNamed s (s.objects.entry v).name = some v)
    (hDefinition : (s.objects.entry v).isDefinition = true) : (finish s).HasCode v :=
  hNoted.hasCode hNamed hDefinition (hNoted.live_of_mentions hCode.isLive
      (((hNoted.placed g).body b hBody v hIn).2 (isFunction_of_functionNamed hNamed)) hNamed)

/-
  A function whose address is in data has code, or the data are
  those of a static variable in functions that are dropped.
-/
theorem Noted.code_of_data (hNoted : Noted s) (hData : (finish s).HasData x) {r : Relocation}
    (hReloc : r ∈ (s.objects.entry x).relocs) (hTarget : r.target = .object v)
    (hNamed : functionNamed s (s.objects.entry v).name = some v)
    (hDefinition : (s.objects.entry v).isDefinition = true) :
    (finish s).HasCode v ∨ ParseState.Hidden (s.objects.entry x).name ∧
        ∃ g, s.objects.Mentions g v ∧ ((finish s).objects.entry g).isLive = false := by
  have hFunction := isFunction_of_functionNamed hNamed
  have hMarked := entry_finish s x
  have hVariable : (s.objects.entry x).isFunction = false := by rw [← hData.isFunction, hMarked]
  have hDefined : (s.objects.entry x).isDefinition = true := by rw [← hData.isDefinition, hMarked]
  rcases ((hNoted.placed x).relocs hVariable r hReloc v hTarget).2
    hFunction with hRoot | ⟨hPlace, g, hMentions⟩
  · have hListed := mem_of_mem_ids ((hNoted.placed v).listed hFunction)
    exact .inl (hNoted.hasCode hNamed hDefinition ((marks_markAllLive _ _ _).closed.1 v
        (mem_roots.mpr ⟨hListed, hRoot⟩) hFunction))
  · cases hLive : ((finish s).objects.entry g).isLive with
    | true =>
      exact .inl (hNoted.hasCode hNamed hDefinition
        (hNoted.live_of_mentions hLive hMentions hNamed))
    | false =>
      refine .inr ⟨hPlace.resolve_right fun h => ?_, g, hMentions, hLive⟩
      rw [hDefined] at h
      cases h

/- The notes of a unit that parses. -/
theorem Steady.noted (hSteady : Steady cfg ts s)
    (hRun : declarations (read (depth ts)) (start cfg ts) = .ok () s) : Noted s := by
  refine ⟨hSteady.placed, fun v hFunction => ?_⟩
  rw [← declarationsWith_function, ← readWith_function] at hRun
  have hReads := reads objects_function (depth ts)
  obtain ⟨-, -, hSound, -⟩ := grows_of_declarationsWith objects_function
    (fun t hStart => ⟨(declareBuiltins_run hStart).1, trivial⟩) hRun
  exact ((hSound.fine v).plain (.inr hFunction)).2

/-
  The functions that the output of a unit refers to.  Where no
  declaration takes back a note, a function that is defined in
  the unit and stands for its name at the end of it has code if
  code names it, and if its address is in data; only the static
  variables of a function that is dropped may keep the address
  of a function that is dropped with it.
-/
theorem references_in_output (hParse : (parse cfg ts).result = .ok p) :
    ∃ s, declarations (read (depth ts)) (start cfg ts) = .ok () s ∧
      p = finish s ∧ (Steady cfg ts s → ∀ x v, v ∈ p.referred x →
        functionNamed s (p.objects.entry v).name = some v →
        (p.objects.entry v).isDefinition = true → (p.HasCode x → p.HasCode v) ∧
        (p.HasData x → p.HasCode v ∨ ParseState.Hidden (p.objects.entry x).name ∧
            ∃ g, p.objects.Mentions g v ∧ (p.objects.entry g).isLive = false)) := by
  obtain ⟨s, hRun, rfl⟩ := declarations_of_parse hParse
  refine ⟨s, hRun, rfl, fun hSteady x v hIn hNamed hDefinition => ?_⟩
  have hNoted := hSteady.noted hRun
  rw [entry_finish s v] at hNamed hDefinition
  refine ⟨fun hCode => ?_, fun hData => ?_⟩
  · obtain ⟨b, hBody, hIn⟩ := Program.mem_referred_of_function hCode.isFunction hIn
    rw [entry_finish s x] at hBody
    exact hNoted.code_of_body hCode hBody hIn hNamed hDefinition
  · obtain ⟨r, hr, hTarget⟩ := Program.mem_referred_of_variable hData.isFunction hIn
    rw [entry_finish s x] at hr ⊢
    rcases hNoted.code_of_data hData hr hTarget hNamed hDefinition with
      hCode | ⟨hHidden, g, hMentions, hDropped⟩
    · exact .inl hCode
    · refine .inr ⟨hHidden, g, ⟨?_, ?_⟩, hDropped⟩
      · rw [entry_finish s g]
        exact hMentions.isFunction
      · rw [entry_finish s g, entry_finish s v]
        exact hMentions.name

/- The state in which a text is left that is read steadily. -/
def steadilyLeftBy? (text : String) : Option ParseState :=
  match (Preprocessor.process (ascii "m.c") (some (ascii text)) []).run {} with
  | .ok ts _ =>
    match declarations (read (depth ts)) (start {} ts),
      declarationsWith (functionWith true)
        (readWith (functionWith true) (depth ts)) (start {} ts) with
    | .ok _ s, .ok _ t => if t.outline = s.outline then some s else none
    | _, _ => none
  | .error _ _ => none

variable {text : String}

theorem exists_of_steadilyLeftBy? (hLeft : steadilyLeftBy? text = some s) :
    ∃ ts, declarations (read (depth ts)) (start {} ts) = .ok () s ∧
      (parse {} ts).result = .ok (finish s) ∧ Steady {} ts s := by
  unfold steadilyLeftBy? at hLeft
  split at hLeft
  · rename_i ts _ _
    split at hLeft
    · rename_i hRun hCareful
      split at hLeft
      · rename_i hSame
        cases hLeft
        refine ⟨ts, hRun, ?_, _, hCareful, hSame⟩
        rw [parse_eq_outcome, hRun]
        rfl
      · cases hLeft
    · cases hLeft
  · cases hLeft

/-
  Two functions that nothing but a variable and `main` lead to.
  One is named in the length of an array, the other one has its
  address in data.
-/
def ledTo : String :=
  "static inline int f(void) \x7b return 1; \x7d" ++
  "static inline int h(void) \x7b return f(); \x7d" ++ "int (*p)(void) = h;" ++
  "int main(void) \x7b int a[f()]; return sizeof(a); \x7d"

theorem references_in_output_ledTo :
    ∃ s, steadilyLeftBy? ledTo = some s ∧ ((finish s).objects.entry 1).name = ascii "f" ∧
      ((finish s).objects.entry 5).name = ascii "h" ∧
      (finish s).HasCode 1 ∧ (finish s).HasCode 5 := by
  have hCheck : (steadilyLeftBy? ledTo).any (fun s => decide
      (((finish s).objects.entry 1).name = ascii "f" ∧
        ((finish s).objects.entry 5).name = ascii "h" ∧
        ((finish s).objects.entry 9).name = ascii "p" ∧
        functionNamed s (ascii "f") = some 1 ∧
        functionNamed s (ascii "h") = some 5 ∧
        ((finish s).objects.entry 1).isDefinition = true ∧
        ((finish s).objects.entry 5).isDefinition = true ∧
        (finish s).HasData 9 ∧ 5 ∈ (finish s).referred 9 ∧
        (finish s).HasCode 10 ∧ 1 ∈ (finish s).referred 10)) = true := by
    decide +kernel
  obtain ⟨s, hLeft, hAll⟩ := (Option.any_eq_true _ _).mp hCheck
  obtain ⟨hF, hH, hOwn, hNamedF, hNamedH, hDefinedF, hDefinedH, hData,
    hInData, hCode, hInCode⟩ := of_decide_eq_true hAll
  obtain ⟨ts, hRun, hParse, hSteady⟩ := exists_of_steadilyLeftBy? hLeft
  obtain ⟨s', hEnd, -, hRefers⟩ := references_in_output hParse
  obtain rfl : s' = s := by
    rw [hRun] at hEnd
    cases hEnd
    rfl
  have hNotes := hRefers hSteady
  have hByCode := (hNotes 10 1 hInCode (by rwa [hF]) hDefinedF).1 hCode
  have hByData := (hNotes 9 5 hInData (by rwa [hH]) hDefinedH).2 hData
  refine ⟨_, hLeft, hF, hH, hByCode, hByData.resolve_right ?_⟩
  rintro ⟨⟨n, hHidden⟩, -⟩
  have hHead := congrArg List.head? (hOwn.symm.trans hHidden)
  rw [List.head?_append_of_ne_nil _ (by decide)] at hHead
  exact absurd hHead (by decide)

theorem exists_dangles
    (hCheck : (leftBy? text).any
      (fun s => decide ((finish s).Dangles x v)) = true) :
    ∃ s, leftBy? text = some s ∧ (finish s).Dangles x v := by
  obtain ⟨s, hLeft, hDangles⟩ := (Option.any_eq_true _ _).mp hCheck
  exact ⟨s, hLeft, of_decide_eq_true hDangles⟩

/-
  A declaration takes back that the address of a function was
  taken, a static variable stays when its function is dropped,
  and a function is not found under a name that has come to
  stand for a type.
-/
theorem references_dangle :
    (∃ s, leftBy? ("static inline int f(void);" ++ "int (*p)(void) = f;" ++
        "static inline int f(void) \x7b return 1; \x7d") = some s ∧
      (finish s).Dangles 2 1) ∧
    (∃ s, leftBy? ("static inline int f(void) \x7b return 1; \x7d" ++
        "static inline int g(void) \x7b" ++
        "static int (*p)(void) = f; return p(); \x7d") = some s ∧
      (finish s).Dangles 9 1) ∧
    ∃ s, leftBy? ("static inline int f(void) \x7b return 1; \x7d" ++
        "int g(void) \x7b return f(); \x7d" ++ "typedef int f;") = some s ∧
      (finish s).Dangles 5 1 := by
  refine ⟨exists_dangles ?_, exists_dangles ?_, exists_dangles ?_⟩
  all_goals decide +kernel

end TranslationUnit

end CCompiler
