import Mathlib
import CCompiler.Proofs.Syntax.Relocations

/-
  Who refers to the functions of a unit while it is read.

  A constant expression comes to the address of an object only
  if it names the object.  A function that is named in a
  function is noted there, and a function that is named outside
  of all functions is noted as needed.  The account of
  references holds the trees that were read against these notes:
  what the body of a function names, the function refers to, and
  what a variable holds the address of is needed, or a function
  refers to it.

  Main declarations:
    * `Constant.Aims`, `Constant.aims_evalNode`
    * `InitialValue.quiet_fill_targets`
    * `Obj.Extends`, `ParseState.Furthers`
    * `ParseState.Credits`, `ParseState.Allows`
    * `ParseState.Placed`, `ParseState.Accounted`
    * `Account.references`
-/

------------
-- Symbols of Constants
------------

namespace CCompiler

namespace Constant

variable {α β : Type} {env : Env} {vs ws : List ObjId}
  {aim : α → Option Target} {aim' : β → Option Target}

/- A result that points at one of these objects, if at any. -/
def Aims
    (aim : α → Option Target)
    (vs : List ObjId)
    (r : Except Failure α) : Prop :=
  ∀ a v, r = .ok a → aim a = some (.object v) → v ∈ vs

theorem aims_ok {a : α} (hAim : ∀ v, aim a = some (.object v) → v ∈ vs) : Aims aim vs (.ok a) := by
  rintro b v ⟨⟩ hSome
  exact hAim v hSome

theorem aims_error (e : Failure) : Aims aim vs (.error e) := by rintro a v ⟨⟩

variable {x : Except Failure α} {f : α → Except Failure β}

theorem Aims.bind (hFirst : Aims aim vs x)
    (hNext : ∀ a, (∀ v, aim a = some (.object v) → v ∈ vs) →
      Aims aim' ws (f a)) : Aims aim' ws (x >>= f) := by
  cases x with
  | error e => exact aims_error e
  | ok a => exact hNext a fun v hSome => hFirst a v rfl hSome

theorem aims_bind (hNext : ∀ a, Aims aim' ws (f a)) : Aims aim' ws (x >>= f) := by
  cases x with
  | error e => exact aims_error e
  | ok a => exact hNext a

theorem aims_ite {c : Prop} [Decidable c] {r r' : Except Failure α} (hThen : Aims aim vs r)
    (hElse : Aims aim vs r') : Aims aim vs (if c then r else r') := by
  split
  · exact hThen
  · exact hElse

variable {asDouble isUnsigned : Bool} {v : ConstValue}

/- Conversions make no new addresses. -/
theorem symbol?_convert {t : Target} (hSome : (v.convert asDouble isUnsigned).symbol? = some t) :
    v.symbol? = some t := by
  unfold ConstValue.convert at hSome
  cases asDouble with
  | true => cases hSome
  | false =>
    cases v with
    | int n s => exact hSome
    | dbl d => cases hSome

theorem aims_convert (hAim : ∀ w, v.symbol? = some (.object w) → w ∈ vs) :
    Aims ConstValue.symbol? vs (.ok (v.convert asDouble isUnsigned)) :=
  aims_ok fun w hSome => hAim w (symbol?_convert hSome)

/- Numbers point at nothing. -/
theorem aims_number (hNone : v.symbol? = none) :
    Aims ConstValue.symbol? vs (.ok (v.convert asDouble isUnsigned)) :=
  aims_convert fun w hSome => by
    rw [hNone] at hSome
    cases hSome

mutual

/- A constant expression points at what it names. -/
theorem aims_evalNode (env : Env) (asDouble symbols : Bool) (e : Expr) :
    Aims ConstValue.symbol? e.names (evalNode env asDouble symbols e) := by
  unfold evalNode
  split
  · exact aims_error _
  rename_i t hType
  dsimp only
  cases e with
  | num i v =>
    dsimp only
    split
    all_goals exact aims_number rfl
  | fnum i d =>
    dsimp only
    split
    all_goals exact aims_number rfl
  | binary i op l r =>
    have hLeft := fun d s => aims_evalNode env d s l
    have hWide : Aims ConstValue.symbol? (Expr.binary i op l r).names (do
          let a ← evalNode env true false l
          let b ← evalNode env true false r
          match doubleBinary? op (a.double false) (b.double false) with
          | some d => .ok ((ConstValue.dbl d).convert asDouble t.isUnsigned)
          | none => failAt (.binary i op l r) .notConstant) := by
      refine aims_bind fun _ => aims_bind fun _ => ?_
      split
      · exact aims_number rfl
      · exact aims_error _
    dsimp only
    refine aims_ite (aims_ite (aims_bind fun _ => hWide) hWide) ?_
    · split
      · exact aims_bind fun _ => aims_ite (aims_number rfl) (aims_bind fun _ => aims_number rfl)
      · exact aims_bind fun _ => aims_ite (aims_number rfl) (aims_bind fun _ => aims_number rfl)
      · refine (hLeft _ _).bind fun a hAim => aims_bind fun b => ?_
        split
        · exact aims_convert fun w hSome => List.mem_append_left _ (hAim w hSome)
        · exact aims_error _
  | unary i op a =>
    have hPlace := fun s => aims_evalPlace env s a
    dsimp only
    refine aims_ite ?_ ?_
    · split
      · exact aims_bind fun _ => aims_number rfl
      · exact aims_error _
    · split
      · exact aims_bind fun _ => aims_number rfl
      · exact aims_bind fun _ => aims_number rfl
      · exact aims_bind fun _ => aims_number rfl
      · exact (hPlace _).bind fun x hAim => aims_convert hAim
      · exact aims_error _
  | ternary i c a b =>
    have hThen := fun d s => aims_evalNode env d s a
    have hElse := fun d s => aims_evalNode env d s b
    refine aims_bind fun v => aims_ite ?_ ?_
    · exact (hThen _ _).bind fun x hAim => aims_convert fun w hSome =>
        List.mem_append_left _ (List.mem_append_right _ (hAim w hSome))
    · exact (hElse _ _).bind fun x hAim => aims_convert fun w hSome =>
        List.mem_append_right _ (hAim w hSome)
  | comma i l r =>
    exact (aims_evalNode env _ _ r).bind fun x hAim =>
      aims_convert fun w hSome => List.mem_append_right _ (hAim w hSome)
  | cast i a =>
    have hInner := fun d s => aims_evalNode env d s a
    refine aims_ite (aims_bind fun _ => aims_number rfl) ?_
    exact (hInner _ _).bind fun x hAim => aims_convert hAim
  | labelVal i l j =>
    refine aims_ite (aims_error _) (aims_convert fun w hSome => ?_)
    cases hSome
  | member i a m =>
    have hPlace := fun s => aims_evalPlace env s a
    refine aims_ite (aims_error _) (aims_ite (aims_error _) ?_)
    exact (hPlace _).bind fun x hAim => aims_convert hAim
  | var i v =>
    refine aims_ite (aims_error _) (aims_ite (aims_error _)
      (aims_ite (aims_error _) (aims_convert fun w hSome => ?_)))
    cases hSome
    exact List.mem_singleton_self v
  | _ => exact aims_error _
termination_by structural e

theorem aims_evalPlace (env : Env) (symbols : Bool) (e : Expr) :
    Aims Prod.snd e.names (evalPlace env symbols e) := by
  unfold evalPlace
  cases e with
  | var i v =>
    refine aims_ite (aims_error _) (aims_ok fun w hSome => ?_)
    cases hSome
    exact List.mem_singleton_self _
  | unary i op a =>
    have hValue := aims_evalNode env false symbols a
    cases op with
    | deref => exact hValue.bind fun x hAim => aims_ok hAim
    | _ => exact aims_error _
  | member i a m =>
    have hInner := aims_evalPlace env symbols a
    exact hInner.bind fun x hAim => aims_ok hAim
  | _ => exact aims_error _
termination_by structural e

end

open Parse

theorem quiet_evalAddress (e : Expr) :
    Quiet (evalAddress e) fun x => ∀ v, x.2 = some (.object v) → v ∈ e.names := by
  refine (Typing.quiet_addType e).bind fun e' hSame => ?_
  have hValue : Quiet (run fun env => evalNode env false true e')
      fun x => ∀ v, x.symbol? = some (.object v) → v ∈ e.names :=
    quiet_run fun env x hResult v hSome => by
      rw [← hSame]
      exact aims_evalNode env false true e' x v hResult hSome
  exact hValue.bind fun x hAim => quiet_pure hAim

end Constant

------------
-- Addresses in Data
------------

namespace InitialValue

open Parse

variable {P : ObjId → Prop} {rs : Records}

/- Addresses that are new in data are those of certain objects. -/
def Targets (P : ObjId → Prop) (i j : Image) : Prop :=
  ∀ r ∈ j.relocs, r ∈ i.relocs ∨ ∀ v, r.target = .object v → P v

variable {i j : Image}

theorem targets_of_eq (hSame : j.relocs = i.relocs) : Targets P i j := by
  intro r hr
  rw [hSame] at hr
  exact .inl hr

theorem Targets.trans {k : Image} (hFirst : Targets P i j) (hSecond : Targets P j k) :
    Targets P i k := by
  intro r hr
  rcases hSecond r hr with hOld | hNew
  · exact hFirst r hOld
  · exact .inr hNew

theorem quiet_fillScalar_targets {e : Expr} (t : CType) (offset : Int) (i : Image)
    (hNames : ∀ v ∈ e.names, P v) : Quiet (fillScalar rs t e offset i) (Targets P i) := by
  have hWrite : ∀ bs, Quiet (accessed (i.writeBytes? offset bs)) (Targets P i) :=
    fun bs => (quiet_writeBytes i offset bs).mono fun j hSame => targets_of_eq hSame.2
  unfold fillScalar
  split
  · exact quiet_after fun _ => hWrite _
  · exact quiet_after fun _ => hWrite _
  · exact quiet_after fun _ => hWrite _
  · refine (Constant.quiet_evalAddress e).bind fun x hAim => ?_
    obtain ⟨n, symbol?⟩ := x
    cases symbol? with
    | none => exact hWrite _
    | some target =>
      refine quiet_pure fun r hr => ?_
      rcases Array.mem_push.mp hr with hOld | rfl
      · exact .inl hOld
      · exact .inr fun v hTarget => hNames v (hAim v (congrArg some hTarget))

/- The data of an object hold addresses of what its tree names. -/
theorem quiet_fill_targets {tree : Init} (hTree : tree.All fun e => ∀ v ∈ e.names, P v)
    (offset : Int) (t : CType) (i : Image) : Quiet (fill rs offset t tree i) (Targets P i) :=
  quiet_fill (fun _ => targets_of_eq rfl) Targets.trans
    (fun t _ o i hNames => quiet_fillScalar_targets t o i hNames)
    (fun m b c o i _ => (quiet_fillBits_addresses m b c o i).mono
      fun _ hSame => targets_of_eq hSame.2)
    hTree offset t i

end InitialValue

------------
-- Objects That Are Changed
------------

open Parse

/-
  An object that has changed.  It is what it was, a function
  refers to no less, and what is needed stays so.
-/
structure Obj.Extends (o o' : Obj) : Prop where
  name : o'.name = o.name
  isLocal : o'.isLocal = o.isLocal
  isFunction : o'.isFunction = o.isFunction
  isTentative : o'.isTentative = o.isTentative
  isLive : o'.isLive = o.isLive
  isDefinition : o.isFunction = false → o'.isDefinition = o.isDefinition
  isRoot : o.isRoot = true → o'.isRoot = true
  refs : o.refs ⊆ o'.refs

theorem Obj.Extends.refl (o : Obj) : o.Extends o :=
  ⟨rfl, rfl, rfl, rfl, rfl, fun _ => rfl, id, fun _ h => h⟩

theorem Obj.Extends.trans {o o' o'' : Obj} (hFirst : o.Extends o') (hSecond : o'.Extends o'') :
    o.Extends o'' where
  name := hSecond.name.trans hFirst.name
  isLocal := hSecond.isLocal.trans hFirst.isLocal
  isFunction := hSecond.isFunction.trans hFirst.isFunction
  isTentative := hSecond.isTentative.trans hFirst.isTentative
  isLive := hSecond.isLive.trans hFirst.isLive
  isDefinition h := (hSecond.isDefinition (hFirst.isFunction.trans h)).trans (hFirst.isDefinition h)
  isRoot h := hSecond.isRoot (hFirst.isRoot h)
  refs := fun _ h => hSecond.refs (hFirst.refs h)

/- What is not said here of an object is not about references. -/
theorem Obj.extends_of_eq {o o' : Obj}
    (hSame : o' = { o with
      asmName := o'.asmName
      type := o'.type
      align := o'.align
      data? := o'.data?
      relocs := o'.relocs
      params := o'.params
      body? := o'.body?
      locals := o'.locals
      vaArea? := o'.vaArea?
      allocaBottom? := o'.allocaBottom? }) : o.Extends o' := by
  rw [hSame]
  exact ⟨rfl, rfl, rfl, rfl, rfl, fun _ => rfl, id, fun _ h => h⟩

/- The body and the addresses of an object are as they were. -/
structure Obj.SameContent (o o' : Obj) : Prop where
  body? : o'.body? = o.body?
  relocs : o'.relocs = o.relocs

theorem Obj.SameContent.refl (o : Obj) : o.SameContent o := ⟨rfl, rfl⟩

namespace Objects

variable {os os' os'' : Objects} {v w x g : ObjId}
  {ids ids' : List ObjId}

/- Objects were added to a table, and others changed. -/
structure Further (os os' : Objects) : Prop where
  size : os.size ≤ os'.size
  entry : ∀ v < os.size, (os.entry v).Extends (os'.entry v)

theorem Further.refl (os : Objects) : os.Further os := ⟨le_rfl, fun _ _ => .refl _⟩

theorem Further.trans (hFirst : os.Further os') (hSecond : os'.Further os'') : os.Further os'' where
  size := hFirst.size.trans hSecond.size
  entry v hv := (hFirst.entry v hv).trans (hSecond.entry v (hv.trans_le hFirst.size))

variable {f : Obj → Obj}

/- One object is changed. -/
theorem further_modify (hExtends : (os.entry v).Extends (f (os.entry v))) :
    os.Further (os.modify v f) := by
  refine ⟨by rw [Array.size_modify], fun w hw => ?_⟩
  exact entry_modify_cases f (P := fun o => (os.entry w).Extends o) (.refl _) fun hSame => by
      rw [hSame]
      exact hExtends

theorem further_push (os : Objects) (o : Obj) : os.Further (os.push o) := by
  refine ⟨by rw [Array.size_push]; exact Nat.le_succ _, fun w hw => ?_⟩
  rw [entry_push_lt hw]
  exact .refl _

------------
-- Notes of References
------------

/- A function refers to an object by name. -/
structure Mentions (os : Objects) (g v : ObjId) : Prop where
  isFunction : (os.entry g).isFunction = true
  name : (os.entry v).name ∈ (os.entry g).refs

theorem Mentions.further (hMentions : os.Mentions g v) (hFurther : os.Further os')
    (hObject : v < os.size) : os'.Mentions g v := by
  have hHere := hFurther.entry g (lt_of_isFunction hMentions.isFunction)
  refine ⟨hHere.isFunction.trans hMentions.isFunction, ?_⟩
  rw [(hFurther.entry v hObject).name]
  exact hHere.refs hMentions.name

/-
  What the address of a function in a variable is held against.
  The function is needed, or, for a variable of a function and
  for one that is defined elsewhere, some function refers to it.
-/
def Warrants (os : Objects) (x v : ObjId) : Prop :=
  (os.entry v).isRoot = true ∨ (ParseState.Hidden (os.entry x).name ∨
      (os.entry x).isDefinition = false) ∧ ∃ g, os.Mentions g v

theorem Warrants.further (hWarrants : os.Warrants x v) (hFurther : os.Further os')
    (hObject : v < os.size) (hVariable : x < os.size)
    (hFunction : (os.entry x).isFunction = false) : os'.Warrants x v := by
  have hThis := hFurther.entry x hVariable
  rcases hWarrants with hRoot | ⟨hPlace, g, hMentions⟩
  · exact .inl ((hFurther.entry v hObject).isRoot hRoot)
  · refine .inr ⟨?_, g, hMentions.further hFurther hObject⟩
    rw [hThis.name, hThis.isDefinition hFunction]
    exact hPlace

/-
  An object as it is held against the notes.  Functions are
  at the top level, and none has been marked as live.
-/
structure Placed
    (os : Objects)
    (ids : List ObjId)
    (x : ObjId) : Prop where
  listed : (os.entry x).isFunction = true → x ∈ ids
  fresh : (os.entry x).isLive = false
  body : ∀ b, (os.entry x).body? = some b → ∀ v ∈ b.names,
    v < os.size ∧ ((os.entry v).isFunction = true → os.Mentions x v)
  relocs : (os.entry x).isFunction = false →
    ∀ r ∈ (os.entry x).relocs, ∀ v, r.target = .object v → v < os.size ∧
        ((os.entry v).isFunction = true → os.Warrants x v)

/- There is nothing to say of an object without content. -/
theorem placed_of_empty (hListed : (os.entry x).isFunction = true → x ∈ ids)
    (hLive : (os.entry x).isLive = false) (hBody : (os.entry x).body? = none)
    (hRelocs : (os.entry x).relocs = []) : os.Placed ids x := by
  refine ⟨hListed, hLive, fun b h => ?_, fun _ r h => ?_⟩
  · rw [hBody] at h
    cases h
  · rw [hRelocs] at h
    cases h

theorem placed_of_size_le (hOut : os.size ≤ x) : os.Placed ids x := by
  have hEntry := entry_of_size_le hOut
  exact placed_of_empty (by
    rw [hEntry]
    intro h
    cases h) (by rw [hEntry]; rfl) (by rw [hEntry]; rfl)
    (by rw [hEntry]; rfl)

theorem Placed.mono (hPlaced : os.Placed ids x) (hIds : ids ⊆ ids') : os.Placed ids' x :=
  ⟨fun h => hIds (hPlaced.listed h), hPlaced.fresh, hPlaced.body, hPlaced.relocs⟩

/- An object with the same content stays in its place. -/
theorem Placed.further (hPlaced : os.Placed ids x) (hFurther : os.Further os')
    (hObject : x < os.size) (hSame : (os.entry x).SameContent (os'.entry x)) :
    os'.Placed ids x := by
  have hThis := hFurther.entry x hObject
  refine ⟨fun h => hPlaced.listed (hThis.isFunction ▸ h),
    hThis.isLive.trans hPlaced.fresh, fun b h v hv => ?_,
    fun h r hr v hTarget => ?_⟩
  · obtain ⟨hLt, hNoted⟩ := hPlaced.body b (hSame.body? ▸ h) v hv
    refine ⟨hLt.trans_le hFurther.size, fun hIs => ?_⟩
    rw [(hFurther.entry v hLt).isFunction] at hIs
    exact (hNoted hIs).further hFurther hLt
  · rw [hThis.isFunction] at h
    rw [hSame.relocs] at hr
    obtain ⟨hLt, hNoted⟩ := hPlaced.relocs h r hr v hTarget
    refine ⟨hLt.trans_le hFurther.size, fun hIs => ?_⟩
    rw [(hFurther.entry v hLt).isFunction] at hIs
    exact (hNoted hIs).further hFurther hLt hObject h

/- An object without content is added to objects in their places. -/
theorem placed_push {o : Obj} (hAll : ∀ x, os.Placed ids x) (hIds : ids ⊆ ids')
    (hListed : o.isFunction = true → os.size ∈ ids') (hLive : o.isLive = false)
    (hBody : o.body? = none) (hRelocs : o.relocs = []) (x : ObjId) : Placed (os.push o) ids' x := by
  rcases lt_trichotomy x os.size with hOld | rfl | hOut
  · refine ((hAll x).further (further_push os o) hOld ?_).mono hIds
    rw [entry_push_lt hOld]
    exact .refl _
  · exact placed_of_empty (by rwa [entry_push_size])
      (by rwa [entry_push_size]) (by rwa [entry_push_size])
      (by rwa [entry_push_size])
  · exact placed_of_size_le (by rw [Array.size_push]; exact hOut)

/- One object is changed, and its new content is as it may be. -/
theorem placed_modify (hAll : ∀ x, os.Placed ids x)
    (hExtends : (os.entry v).Extends (f (os.entry v)))
    (hBody : ∀ b, (f (os.entry v)).body? = some b → ∀ w ∈ b.names, w < os.size ∧
        ((os.entry w).isFunction = true → os.Mentions v w))
    (hRelocs : (os.entry v).isFunction = false →
      ∀ r ∈ (f (os.entry v)).relocs, ∀ w, r.target = .object w → w < os.size ∧
          ((os.entry w).isFunction = true → os.Warrants v w)) (x : ObjId) :
    Placed (os.modify v f) ids x := by
  have hFurther := further_modify hExtends
  by_cases hObject : x < os.size
  · by_cases hSame : x = v
    · subst hSame
      have hThis := entry_modify_self f hObject
      have hPlaced := hAll x
      refine ⟨fun h => ?_, ?_, fun b h w hw => ?_, fun h r hr w hTarget => ?_⟩
      · rw [hThis, hExtends.isFunction] at h
        exact hPlaced.listed h
      · rw [hThis, hExtends.isLive]
        exact hPlaced.fresh
      · rw [hThis] at h
        obtain ⟨hLt, hNoted⟩ := hBody b h w hw
        refine ⟨hLt.trans_le hFurther.size, fun hIs => ?_⟩
        rw [(hFurther.entry w hLt).isFunction] at hIs
        exact (hNoted hIs).further hFurther hLt
      · rw [hThis, hExtends.isFunction] at h
        rw [hThis] at hr
        obtain ⟨hLt, hNoted⟩ := hRelocs h r hr w hTarget
        refine ⟨hLt.trans_le hFurther.size, fun hIs => ?_⟩
        rw [(hFurther.entry w hLt).isFunction] at hIs
        exact (hNoted hIs).further hFurther hLt hObject h
    · refine (hAll x).further hFurther hObject ?_
      rw [entry_modify_ne f hSame]
      exact .refl _
  · exact placed_of_size_le (by
      rw [Array.size_modify]
      exact not_lt.mp hObject)

end Objects

namespace ParseState

variable {s t u : ParseState} {v : ObjId} {o : Obj}

/-
  A state that has come further, with the same function being
  read.
-/
structure Furthers (s t : ParseState) : Prop where
  objects : s.objects.Further t.objects
  function? : t.function? = s.function?

theorem Furthers.refl (s : ParseState) : s.Furthers s := ⟨.refl _, rfl⟩

theorem Furthers.trans (hFirst : s.Furthers t) (hSecond : t.Furthers u) : s.Furthers u :=
  ⟨hFirst.objects.trans hSecond.objects, hSecond.function?.trans hFirst.function?⟩

theorem Furthers.kept (hFurther : s.Furthers t) : s.Kept t where
  size := hFurther.objects.size
  name v hv := (hFurther.objects.entry v hv).name
  isLocal v hv := (hFurther.objects.entry v hv).isLocal
  isFunction v hv := (hFurther.objects.entry v hv).isFunction
  isTentative v hv := (hFurther.objects.entry v hv).isTentative

theorem furthers_of_same (hObjects : t.objects = s.objects)
    (hFunction : t.function? = s.function?) : s.Furthers t :=
  ⟨by rw [hObjects]; exact .refl _, hFunction⟩

/-
  A function is noted: by name in the function that is being
  read, and as one that is needed outside of functions.
-/
def Credits (s : ParseState) (v : ObjId) : Prop :=
  match s.function? with
  | some g => s.objects.Mentions g v
  | none => (s.objects.entry v).isRoot = true

theorem credits_of_none (hReading : s.function? = none) :
    s.Credits v ↔ (s.objects.entry v).isRoot = true := by rw [Credits, hReading]

theorem credits_of_some {g : ObjId} (hReading : s.function? = some g) :
    s.Credits v ↔ s.objects.Mentions g v := by rw [Credits, hReading]

/- A tree may name variables, and functions that are noted. -/
structure Allows (s : ParseState) (v : ObjId) : Prop where
  lt : v < s.objects.size
  credits : (s.objects.entry v).isFunction = true → s.Credits v

theorem allows_of_variable (hObject : v < s.objects.size)
    (hVariable : (s.objects.entry v).isFunction = false) : s.Allows v :=
  ⟨hObject, fun h => by
    rw [hVariable] at h
    cases h⟩

/- What a tree may name it may name later. -/
theorem Allows.further (hFurther : s.Furthers t) (hAllows : s.Allows v) : t.Allows v := by
  have hHere := hFurther.objects.entry v hAllows.lt
  refine ⟨hAllows.lt.trans_le hFurther.objects.size, fun hIs => ?_⟩
  have hCredits := hAllows.credits (hHere.isFunction ▸ hIs)
  cases hReading : s.function? with
  | none =>
    rw [credits_of_none (hFurther.function?.trans hReading)]
    exact hHere.isRoot ((credits_of_none hReading).mp hCredits)
  | some g =>
    rw [credits_of_some (hFurther.function?.trans hReading)]
    exact ((credits_of_some hReading).mp hCredits).further hFurther.objects hAllows.lt

/-
  A state whose trees are held against the notes.  Names stand
  for objects that there are, the one being read is a function,
  and lengths of arrays name what a tree may name.
-/
structure Accounted (s : ParseState) : Prop where
  bound : ∀ v, s.Binds v → v < s.objects.size
  reading : ∀ f, s.function? = some f → (s.objects.entry f).isFunction = true
  alloca : s.alloca < s.objects.size ∧
    (s.objects.entry s.alloca).isFunction = false
  lengths : ∀ (i : Nat) (a : Vla), s.vlas[i]? = some a →
    (∀ v ∈ a.len.names, s.Allows v) ∧
      ∀ v, a.size? = some v → v < s.objects.size ∧
        (s.objects.entry v).isFunction = false
  placed : ∀ v, s.objects.Placed (TopLevel.ids s.globals.toList) v

/- Objects were added or changed, each to one that is in place. -/
theorem Accounted.further (hSound : s.Accounted) (hFurther : s.Furthers t)
    (hBinds : ∀ v, t.Binds v → s.Binds v ∨ v < t.objects.size) (hAlloca : t.alloca = s.alloca)
    (hVlas : t.vlas = s.vlas) (hPlaced : ∀ v, t.objects.Placed (TopLevel.ids t.globals.toList) v) :
    t.Accounted where
  bound v hv := (hBinds v hv).elim (fun h => (hSound.bound v h).trans_le hFurther.objects.size) id
  reading f hf := by
    have hIs := hSound.reading f (by rw [← hFurther.function?, hf])
    rwa [(hFurther.objects.entry f (Objects.lt_of_isFunction hIs)).isFunction]
  alloca := by
    obtain ⟨hLt, hIs⟩ := hSound.alloca
    rw [hAlloca]
    exact ⟨hLt.trans_le hFurther.objects.size, (hFurther.objects.entry _ hLt).isFunction.trans hIs⟩
  lengths i a ha := by
    rw [hVlas] at ha
    obtain ⟨hNames, hSize⟩ := hSound.lengths i a ha
    refine ⟨fun v hv => (hNames v hv).further hFurther, fun v hv => ?_⟩
    obtain ⟨hLt, hIs⟩ := hSize v hv
    exact ⟨hLt.trans_le hFurther.objects.size, (hFurther.objects.entry v hLt).isFunction.trans hIs⟩
  placed := hPlaced

/- A step that is not about objects. -/
theorem Accounted.same (hSound : s.Accounted) (hObjects : t.objects = s.objects)
    (hGlobals : TopLevel.ids s.globals.toList ⊆ TopLevel.ids t.globals.toList)
    (hFunction : t.function? = s.function?) (hVlas : t.vlas = s.vlas)
    (hAlloca : t.alloca = s.alloca) (hBinds : ∀ v, t.Binds v → s.Binds v ∨ v < s.objects.size) :
    t.Accounted := by
  refine hSound.further (furthers_of_same hObjects hFunction)
    (by rw [hObjects]; exact hBinds) hAlloca hVlas fun v => ?_
  rw [hObjects]
  exact (hSound.placed v).mono hGlobals

theorem Quiet.accounted (hSound : s.Accounted) (hQuiet : s.Quiet t) : t.Accounted :=
  hSound.same hQuiet.objects (by rw [hQuiet.globals]; exact fun _ h => h)
    hQuiet.function? hQuiet.vlas hQuiet.alloca
    fun v h => .inl (hQuiet.binds v h)

end ParseState

/- The account of the references of a unit. -/
def Account.references : Account where
  sound := ParseState.Accounted
  grows := ParseState.Furthers
  ok := ParseState.Allows
  outer s := s.function? = none
  refl := ParseState.Furthers.refl
  trans := ParseState.Furthers.trans
  kept := ParseState.Furthers.kept
  mono := ParseState.Allows.further
  stays := fun hFurther h => hFurther.function?.trans h
  quiet := fun hSound hQuiet => ⟨hQuiet.accounted hSound,
    ParseState.furthers_of_same hQuiet.objects hQuiet.function?⟩

end CCompiler
