import Mathlib
import CCompiler.Proofs.Syntax.ReferenceRules

/-
  Reading functions with care.

  A declaration of a function says again whether the function
  is needed in any case, and so can take back what was noted
  where its name was read before.  A careful reader does not
  take it back.  It also reads every body with no other lengths
  of arrays that name functions than those in the body, so that
  what a body names is noted with the function.  Such a reader
  keeps the account of references.

  Main declarations:
    * `ParseState.plainVlas`, `Declaration.forgetLengths`
    * `Declaration.functionWith`
    * `Declaration.references_function`
-/

------------
-- The Reader
------------

namespace CCompiler

open Parse Account

/- The lengths of arrays, with none that names a function. -/
def ParseState.plainVlas (s : ParseState) : Array Vla :=
  s.vlas.map fun a =>
    if a.len.names.any fun v => (s.objects.entry v).isFunction then
      { a with len := .null ⟨default, none⟩ }
    else a

namespace Declaration

open Specifier

/- Forget the lengths of arrays that name functions. -/
def forgetLengths : Parse Unit :=
  modify fun s => { s with vlas := s.plainVlas }

/- A body is read outside of functions. -/
def beginBody : Parse Unit := do
  if (← get).function?.isSome then throw .internal
  forgetLengths

/-
  A declaration or definition of a function after its
  specifiers, read with or without care.
-/
def functionWith
    (careful : Bool)
    (read : Reader)
    (base : CType)
    (attr : VarAttr) :
    Parse Unit := do
  let d ← read (.declarator base)
  match d.name? with
  | none => fail d.pos .functionNameOmitted
  | some name =>
    let symbol ← symbolName
    skipAttributes read
    let isBody ← check "\x7b"
    if isBody && (← get).function?.isSome then
      fail name .functionNotAllowedHere
    checkFunctionName name
    let f ← declareFunction name.text d.type attr isBody
    modifyObject f fun o => { o with
      isRoot := careful && o.isRoot || !(o.isStatic && o.isInline)
      asmName := if symbol.isEmpty then o.asmName else symbol }
    if !(← accept ";") then
      if careful then beginBody
      functionBody read f name.text d.type
      if careful then forgetLengths

variable {s t u : ParseState} {f : ObjId} {r : Reader}

------------
-- Declarations
------------

/- A declaration of a function finds or adds one. -/
theorem references_declareFunction (s : ParseState) (name : Bytes) (type : CType) (attr : VarAttr)
    (isBody : Bool) :
    references.Keeps s (declareFunction name type attr isBody) fun u f => u.Function f := by
  intro s₁ hSound hGrows f s₂ hRun
  obtain ⟨f?, t, hFind, hRun⟩ := exists_of_bind hRun
  obtain ⟨rfl, hIs⟩ := function?_run hFind
  cases f? with
  | some id =>
    have hFunction : t.Function id := ⟨Objects.lt_of_isFunction (hIs id rfl), hIs id rfl⟩
    have hKeeps : references.Keeps t (do
        let f ← object id
        if f.isDefinition && isBody then
          fail (← tok) (.redefinition name)
        if !f.isStatic && attr.isStatic then
          fail (← tok) .staticAfterNonStatic
        modifyObject id fun o => { o with
          isDefinition := o.isDefinition || isBody
          type := if isBody then type else o.type }
        return id) fun u f => u.Function f :=
      keeps_after fun _ => keeps_ite
        (fun _ => keeps_after fun _ => keeps_fail_bind _ _ _)
        fun _ => keeps_ite
        (fun _ => keeps_after fun _ => keeps_fail_bind _ _ _)
        fun _ => Keeps.step (references_touchFunction hFunction
          (fun o hFunction => ⟨rfl, rfl, rfl, rfl, rfl, fun hNever =>
            absurd (hFunction.symm.trans hNever) (by decide),
            fun h => h, fun _ h => h⟩) fun _ => ⟨rfl, rfl⟩) fun _ =>
        keeps_pure fun _ _ hLater => hFunction.kept hLater.kept
    exact hKeeps.run hSound hRun
  | none =>
    obtain ⟨id, t₁, hNew, hRun⟩ := exists_of_bind hRun
    obtain ⟨rfl, hGlobals, hPushes⟩ := newGlobal_run hNew
    obtain ⟨⟨⟩, t₂, hChange, hRun⟩ := exists_of_bind hRun
    obtain rfl := modifyObject_run hChange
    cases hRun
    have hChanged := hPushes.changed fun o => { o with
      isFunction := true
      isDefinition := isBody
      isStatic := attr.isStatic || (attr.isInline && !attr.isExtern)
      isInline := attr.isInline }
    have hIds : TopLevel.ids t.globals.toList ⊆ TopLevel.ids t₁.globals.toList := by
      rw [hGlobals]
      exact ids_push_subset _ _
    have hListed : t.objects.size ∈ TopLevel.ids t₁.globals.toList := by
      rw [hGlobals, Array.toList_push, TopLevel.ids_append]
      exact List.mem_append_right _ (List.mem_singleton_self _)
    obtain ⟨hSound₂, hFurther⟩ := hChanged.accounted hSound hIds (fun _ => hListed) rfl rfl rfl
    refine ⟨hSound₂, hFurther, ?_, ?_⟩
    · rw [hChanged.size]
      exact Nat.lt_succ_self _
    · rw [hChanged.new]

------------
-- Bodies
------------

/- What is in a table without the lengths that name functions. -/
theorem of_mem_plainVlas {i : Nat} {a : Vla} (hVla : s.plainVlas[i]? = some a) :
    ∃ b, s.vlas[i]? = some b ∧ a.size? = b.size? ∧ ∀ v ∈ a.len.names, v ∈ b.len.names ∧
        (s.objects.entry v).isFunction = false := by
  unfold ParseState.plainVlas at hVla
  rw [Array.getElem?_map] at hVla
  obtain ⟨b, hOld, rfl⟩ := Option.map_eq_some_iff.mp hVla
  refine ⟨b, hOld, ?_⟩
  split
  · exact ⟨rfl, fun v hv => by cases hv⟩
  · rename_i hPlain
    refine ⟨rfl, fun v hv => ⟨hv, ?_⟩⟩
    rw [List.any_eq_true, not_exists] at hPlain
    simpa using fun h => hPlain v ⟨hv, h⟩

/-
  Where lengths that name functions are forgotten, the trees
  are held against the notes whatever is read next.
-/
theorem accounted_plainVlas {f? : Option ObjId} {locals : Array ObjId} (hSound : s.Accounted)
    (hReading : ∀ f, f? = some f → (s.objects.entry f).isFunction = true) :
    { s with vlas := s.plainVlas
             function? := f?
             locals := locals }.Accounted where
  bound := hSound.bound
  reading := hReading
  alloca := hSound.alloca
  lengths i a ha := by
    obtain ⟨b, hOld, hSize, hNames⟩ := of_mem_plainVlas ha
    obtain ⟨hBefore, hSizes⟩ := hSound.lengths i b hOld
    refine ⟨fun v hv => ?_, fun v hv => hSizes v (hSize ▸ hv)⟩
    obtain ⟨hIn, hVariable⟩ := hNames v hv
    exact ParseState.allows_of_variable (hBefore v hIn).lt hVariable
  placed := hSound.placed

/- The end of a body, when the function has been left. -/
def LeftFrom (s s' : ParseState) : Prop :=
  ∃ t, t.Accounted ∧ s.Furthers t ∧ s' = { t with function? := none }

/- What the body that is read names is noted with the function. -/
theorem ends_insideBody [hReads : references.Reads r] (hReading : s.function? = some f)
    (hGrows : s.Furthers t) (name : Bytes) :
    references.Ends t (insideBody r f name) (LeftFrom s) := by
  refine (references_newLocal t _ _).ends fun t₁ bottom h₁ _ => ?_
  refine ends_step (references_touch
    (fun _ _ => Obj.extends_of_eq rfl) fun _ => ⟨rfl, rfl⟩) fun _ =>
    ends_after fun _ =>
    ends_after fun _ =>
    ends_after fun _ =>
    hReads.compound.ends fun t₂ body h₂ hBody => ?_
  have hAll := hGrows.trans (h₁.trans h₂)
  refine ends_after fun w =>
    ends_step (references_setBody (hAll.function?.trans hReading) hBody)
      fun _ => ends_after fun _ =>
    ends_after fun _ => ?_
  intro s₁ hSound h₃ a s₂ hRun
  cases hRun
  exact ⟨s₁, hSound, hAll.trans h₃, rfl⟩

/- A body is read in a function that has been entered. -/
theorem ends_functionBody {s₀ : ParseState} [hReads : references.Reads r] (name : Bytes)
    (type : CType) (hEntered : s = { s₀ with function? := some f, locals := #[] })
    (hSound : s.Accounted) {s' : ParseState} (hRun : functionBody r f name type s₀ = .ok () s') :
    LeftFrom s s' := by
  obtain ⟨⟨⟩, s₁, hEnter, hRun⟩ := exists_of_bind hRun
  obtain rfl : s = s₁ := by
    cases hEnter
    exact hEntered
  have hReading : s.function? = some f := by rw [hEntered]
  have hArea : ∀ t, s.Furthers t → ∀ (ids : List ObjId) (variadic : Bool), references.Ends t (do
        modifyObject f fun o => { o with params := ids }
        if variadic then
          let area ← newLocal (ascii "__va_area__") (← arrayOf .char 136)
          modifyObject f fun o => { o with vaArea? := some area }
        insideBody r f name) (LeftFrom s) := by
    intro t hGrows ids variadic
    refine ends_step (references_touch
      (fun _ _ => Obj.extends_of_eq rfl) fun _ => ⟨rfl, rfl⟩) fun _ =>
      ends_ite ?_ (ends_insideBody hReading hGrows name)
    refine ends_after fun _ =>
      (references_newLocal _ _ _).ends fun u area hMore _ => ?_
    exact ends_step (references_touch
      (fun _ _ => Obj.extends_of_eq rfl) fun _ => ⟨rfl, rfl⟩) fun _ =>
      ends_insideBody hReading (hGrows.trans hMore) name
  refine (?_ : references.Ends s _ (LeftFrom s)) s hSound (.refl s) () s' hRun
  refine ends_after fun _ => ?_
  split
  · refine ((safe_bindParameters _ _).runs _).ends fun t₁ _ h₁ _ =>
      ends_after fun own =>
      ends_after fun size => ends_ite ?_ ?_
    · exact (references_newLocal _ _ _).ends fun t₂ _ h₂ _ => hArea t₂ (h₁.trans h₂) _ _
    · exact hArea t₁ h₁ _ _
  · intro s₁ _ _ a s₂ hNever
    obtain ⟨_, _, hThrow, -⟩ := exists_of_bind hNever
    cases hThrow

/- A careful reader keeps the account over the body of a function. -/
theorem references_body [hReads : references.Reads r] (hFunction : s.Function f) (name : Bytes)
    (type : CType) :
    references.Runs s (do
      beginBody
      functionBody r f name type
      forgetLengths) := by
  intro s₁ hSound hGrows u s₂ hRun
  obtain ⟨⟨⟩, t₁, hBegin, hRun⟩ := exists_of_bind hRun
  obtain ⟨⟨⟩, t₂, hBody, hRun⟩ := exists_of_bind hRun
  cases hRun
  obtain ⟨w, w', hGet, hBegin⟩ := exists_of_bind hBegin
  cases hGet
  have hFunction₁ := hFunction.kept hGrows.kept
  cases hReading : s₁.function? with
  | some g =>
    rw [hReading] at hBegin
    obtain ⟨_, _, hThrow, -⟩ := exists_of_bind hBegin
    cases hThrow
  | none =>
    rw [hReading] at hBegin
    cases hBegin
    change functionBody r f name type { s₁ with vlas := s₁.plainVlas } = _ at hBody
    generalize hBegun : { s₁ with vlas := s₁.plainVlas } = s₀ at hBody
    have hEntered : { s₀ with
        function? := some f
        locals := #[] }.Accounted := by
      rw [← hBegun]
      refine accounted_plainVlas hSound fun g hg => ?_
      obtain rfl := Option.some.inj hg
      exact hFunction₁.isFunction
    obtain ⟨t, hEnd, hMore, rfl⟩ := ends_functionBody name type rfl hEntered hBody
    have hAll : s₁.objects.Further t.objects := by
      have hSame := hMore.objects
      rwa [← hBegun] at hSame
    have hLeft : { t with
        vlas := t.plainVlas
        function? := none
        locals := t.locals }.Accounted :=
      accounted_plainVlas hEnd fun g hg => by cases hg
    exact ⟨hLeft, ⟨hAll, hReading.symm⟩, trivial⟩

/- A declaration of a function, read with care, keeps the account. -/
theorem references_function : references.Declares (functionWith true) := by
  refine fun r base attr hReads => ⟨fun s => ?_⟩
  refine keeps_after fun d => ?_
  split
  · exact keeps_fail _ _
  · rename_i name hName
    refine keeps_after fun symbol =>
      keeps_after fun _ =>
      keeps_after fun isBody =>
      keeps_after fun u => keeps_ite (fun _ => keeps_fail_bind _ _ _) fun _ =>
      keeps_after fun _ =>
      (references_declareFunction _ _ _ _ _).bind fun u f _ hFunction => ?_
    refine Keeps.step (references_touchFunction hFunction
      (fun o _ => ⟨rfl, rfl, rfl, rfl, rfl, fun _ => rfl,
        fun hRoot => by simp [hRoot], fun _ h => h⟩)
      fun _ => ⟨rfl, rfl⟩) fun _ =>
      keeps_after fun _ => keeps_ite
        (fun _ => references_body hFunction _ _)
        fun _ => runs_pure _

end Declaration

end CCompiler
