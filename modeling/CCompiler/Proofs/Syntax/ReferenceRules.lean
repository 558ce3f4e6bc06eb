import Mathlib
import CCompiler.Proofs.Syntax.References

/-
  Steps that keep the account of references.  Objects are added
  without content, bodies and addresses are put in as they were
  read, and a name is noted wherever it is read.

  Main declarations:
    * `Account.references_touch`, `Account.references_setBody`
    * `Account.references_noteReference`
    * `Account.references_globalInit`
    * `Declaration.references_unitVariable`
    * `Account.references_rules`
-/

------------
-- Changes of One Object
------------

namespace CCompiler

open Parse Account

variable {s t u : ParseState} {v f : ObjId} {g : Obj → Obj} {o : Obj}
  {r : Reader}

namespace ParseState

/- An object without content has been added. -/
theorem Pushes.accounted (hPushes : s.Pushes t o) (hSound : s.Accounted)
    (hGlobals : TopLevel.ids s.globals.toList ⊆ TopLevel.ids t.globals.toList)
    (hListed : o.isFunction = true →
      s.objects.size ∈ TopLevel.ids t.globals.toList) (hLive : o.isLive = false)
    (hBody : o.body? = none) (hRelocs : o.relocs = []) : t.Accounted ∧ s.Furthers t := by
  have hFurther : s.Furthers t :=
    ⟨by rw [hPushes.objects]; exact Objects.further_push _ _, hPushes.function?⟩
  refine ⟨hSound.further hFurther (fun v hv => ?_) hPushes.alloca
    hPushes.vlas fun v => ?_, hFurther⟩
  · refine (hPushes.binds v hv).imp_right fun hNew => ?_
    rw [hNew, hPushes.size]
    exact Nat.lt_succ_self _
  · rw [hPushes.objects]
    exact Objects.placed_push hSound.placed hGlobals hListed hLive hBody hRelocs v

/- An object has been changed, to content that is as it may be. -/
theorem Accounted.modify (hSound : s.Accounted)
    (hExtends : (s.objects.entry v).Extends (g (s.objects.entry v)))
    (hBody : ∀ b, (g (s.objects.entry v)).body? = some b →
      ∀ w ∈ b.names, w < s.objects.size ∧
        ((s.objects.entry w).isFunction = true → s.objects.Mentions v w))
    (hRelocs : (s.objects.entry v).isFunction = false →
      ∀ r ∈ (g (s.objects.entry v)).relocs, ∀ w,
        r.target = .object w → w < s.objects.size ∧
          ((s.objects.entry w).isFunction = true → s.objects.Warrants v w)) :
    { s with objects := s.objects.modify v g }.Accounted ∧
      s.Furthers { s with objects := s.objects.modify v g } := by
  have hFurther : s.Furthers { s with
      objects := s.objects.modify v g } :=
    ⟨Objects.further_modify hExtends, rfl⟩
  exact ⟨hSound.further hFurther (fun v hv => .inl hv) rfl rfl
    (Objects.placed_modify hSound.placed hExtends hBody hRelocs), hFurther⟩

end ParseState

namespace Account

/- An object is changed that keeps its content. -/
theorem references_touch
    (hTouch : ∀ t, s.Furthers t →
      (t.objects.entry v).Extends (g (t.objects.entry v))) (hSame : ∀ o, Obj.SameContent o (g o)) :
    references.Runs s (modifyObject v g) := by
  intro s₁ hSound hGrows u s₂ hRun
  obtain rfl := modifyObject_run hRun
  have hPlaced := hSound.placed v
  obtain ⟨hSound₂, hFurther⟩ := hSound.modify (hTouch s₁ hGrows)
    (by rw [(hSame _).body?]; exact hPlaced.body)
    (by rw [(hSame _).relocs]; exact hPlaced.relocs)
  exact ⟨hSound₂, hFurther, trivial⟩

/- A function is changed that keeps its content. -/
theorem references_touchFunction (hFunction : s.Function f)
    (hTouch : ∀ o, o.isFunction = true → Obj.Extends o (g o))
    (hSame : ∀ o, Obj.SameContent o (g o)) : references.Runs s (modifyObject f g) :=
  references_touch (fun _ hFurther => hTouch _ (hFunction.kept hFurther.kept).isFunction) hSame

/- The body of the function that is being read is put in. -/
theorem references_setBody {body : Stmt} {locals : List ObjId} (hReading : s.function? = some f)
    (hBody : references.stmt s body) :
    references.Runs s (modifyObject f fun o =>
      { o with body? := some body, locals := locals }) := by
  intro s₁ hSound hGrows u s₂ hRun
  obtain rfl := modifyObject_run hRun
  have hReading₁ := hGrows.function?.trans hReading
  have hIs := hSound.reading f hReading₁
  have hNames : ∀ w ∈ body.names, w < s₁.objects.size ∧ ((s₁.objects.entry w).isFunction = true →
        s₁.objects.Mentions f w) := by
    intro w hw
    have hAllows := (hBody w hw).further hGrows
    exact ⟨hAllows.lt, fun h => (ParseState.credits_of_some hReading₁).mp (hAllows.credits h)⟩
  obtain ⟨hSound₂, hGrows₂⟩ := hSound.modify (v := f)
    (g := fun o => { o with body? := some body, locals := locals })
    (Obj.extends_of_eq rfl)
    (fun b hb => by
      cases hb
      exact hNames)
    (fun hNever => absurd (hIs.symm.trans hNever) (by decide))
  exact ⟨hSound₂, hGrows₂, trivial⟩

------------
-- New Objects
------------

theorem references_newLocal (s : ParseState) (name : Bytes) (type : CType) :
    references.Keeps s (newLocal name type) fun u v => references.ok u v ∧ u.Local v := by
  intro s₁ hSound hGrows v s₂ hRun
  obtain ⟨rfl, hGlobals, hPushes⟩ := newLocal_run hRun
  obtain ⟨hSound₂, hFurther⟩ := hPushes.accounted hSound
    (by rw [hGlobals]; exact fun _ h => h) (fun h => by cases h) rfl rfl
    rfl
  have hLt : s₁.objects.size < s₂.objects.size := by
    rw [hPushes.size]
    exact Nat.lt_succ_self _
  exact ⟨hSound₂, hFurther, ParseState.allows_of_variable hLt (by
    rw [hPushes.new]), hLt, by rw [hPushes.new], by rw [hPushes.new]⟩

theorem ids_push_subset (globals : Array TopLevel) (x : TopLevel) :
    TopLevel.ids globals.toList ⊆ TopLevel.ids (globals.push x).toList := by
  rw [Array.toList_push, TopLevel.ids_append]
  exact List.subset_append_left _ _

theorem references_newAnonymous (s : ParseState) (type : CType) :
    references.Keeps s (newAnonymous type) fun u v => references.ok u v ∧ u.Anonymous v := by
  intro s₁ hSound hGrows v s₂ hRun
  obtain ⟨rfl, hGlobals, name, hHidden, hPushes⟩ := newAnonymous_run hRun
  obtain ⟨hSound₂, hFurther⟩ := hPushes.accounted hSound
    (by rw [hGlobals]; exact ids_push_subset _ _) (fun h => by cases h)
    rfl rfl rfl
  have hLt : s₁.objects.size < s₂.objects.size := by
    rw [hPushes.size]
    exact Nat.lt_succ_self _
  refine ⟨hSound₂, hFurther, ParseState.allows_of_variable hLt (by
    rw [hPushes.new]), hLt, ?_, ?_, ?_, ?_⟩
  all_goals rw [hPushes.new]
  exact hHidden

theorem references_newString (s : ParseState) (data : Bytes) (type : CType) :
    references.Keeps s (newString data type) fun u v => references.ok u v ∧ v < u.objects.size := by
  intro s₁ hSound hGrows v s₂ hRun
  obtain ⟨rfl, hGlobals, name, hHidden, hPushes⟩ := newString_run hRun
  obtain ⟨hSound₂, hFurther⟩ := hPushes.accounted hSound
    (by rw [hGlobals]; exact ids_push_subset _ _) (fun h => by cases h)
    rfl rfl rfl
  have hLt : s₁.objects.size < s₂.objects.size := by
    rw [hPushes.size]
    exact Nat.lt_succ_self _
  exact ⟨hSound₂, hFurther, ParseState.allows_of_variable hLt (by rw [hPushes.new]), hLt⟩

theorem references_bindName (name : Bytes) (hObject : v < s.objects.size) :
    references.Runs s (bindName name (.object v)) := by
  intro s₁ hSound hGrows u s₂ hRun
  have hNames := fun w => binds_bindName (w := w) hRun
  obtain ⟨scopes, rfl⟩ := modifyScope_run hRun
  refine ⟨hSound.same rfl (fun _ h => h) rfl rfl rfl fun w hw => ?_,
    ParseState.furthers_of_same rfl rfl, trivial⟩
  refine (hNames w hw).imp_right fun hSame => ?_
  rw [hSame]
  exact hObject.trans_le hGrows.objects.size

/- A change of what is not about objects. -/
theorem references_modify {h : ParseState → ParseState}
    (hChange : ∀ s, (h s).objects = s.objects ∧ TopLevel.ids s.globals.toList ⊆
        TopLevel.ids (h s).globals.toList ∧
      (h s).function? = s.function? ∧ (h s).vlas = s.vlas ∧
      (h s).alloca = s.alloca ∧ (h s).scopes = s.scopes) : references.Runs s (modify h) := by
  intro s₁ hSound _ u s₂ hRun
  cases hRun
  obtain ⟨hObjects, hGlobals, hFunction, hVlas, hAlloca, hScopes⟩ := hChange s₁
  refine ⟨hSound.same hObjects hGlobals hFunction hVlas hAlloca
    fun v hv => .inl ?_, ParseState.furthers_of_same hObjects hFunction,
    trivial⟩
  unfold ParseState.Binds at hv ⊢
  rwa [hScopes] at hv

------------
-- Lengths of Arrays
------------

/- The table of lengths is changed to one that names what it may. -/
theorem references_modifyVlas {h : ParseState → Array Vla}
    (hLengths : ∀ s₁, s.Furthers s₁ → s₁.Accounted →
      ∀ (i : Nat) (a : Vla), (h s₁)[i]? = some a →
        references.Oks s₁ a.len.names ∧
          ∀ v, a.size? = some v → v < s₁.objects.size ∧
            (s₁.objects.entry v).isFunction = false) :
    references.Runs s (modify fun s => { s with vlas := h s }) := by
  intro s₁ hSound hGrows u s₂ hRun
  cases hRun
  refine ⟨⟨hSound.bound, hSound.reading, hSound.alloca, fun i a ha => ?_, hSound.placed⟩,
    ParseState.furthers_of_same rfl rfl, trivial⟩
  obtain ⟨hNames, hSize⟩ := hLengths s₁ hGrows hSound i a ha
  exact ⟨fun v hv => ⟨(hNames v hv).lt, (hNames v hv).credits⟩, hSize⟩

theorem references_vlaOf (base : CType) {len : Expr} (hLen : references.expr s len) :
    references.Runs s (vlaOf base len) := by
  refine keeps_after fun u => Keeps.step
    (references_modifyVlas (h := (·.vlas.push { len := len }))
      fun s₁ hGrows hSound i a ha => ?_) fun _ => runs_pure _
  rw [Array.getElem?_push] at ha
  split at ha
  · cases ha
    exact ⟨Oks.mono hLen hGrows, fun v hv => by cases hv⟩
  · exact hSound.lengths i a ha

theorem references_setSize {i : Nat} (hVariable : (s.objects.entry v).isFunction = false)
    (hObject : v < s.objects.size) : references.Runs s (Vla.setSize i v) := by
  refine references_modifyVlas (h := (·.vlas.modify i fun a => { a with size? := some v }))
    fun s₁ hGrows hSound j a ha => ?_
  rw [Array.getElem?_modify] at ha
  split at ha
  · obtain ⟨b, hb, rfl⟩ := Option.map_eq_some_iff.mp ha
    refine ⟨(hSound.lengths j b hb).1, fun w hw => ?_⟩
    cases hw
    exact ⟨hObject.trans_le hGrows.objects.size,
      (hGrows.objects.entry v hObject).isFunction.trans hVariable⟩
  · exact hSound.lengths j a ha

/- A function is noted as one that is referred to. -/
theorem references_noteReference (hObject : v < s.objects.size) :
    references.Keeps s (Expression.noteReference v) fun u _ => references.ok u v := by
  intro s₁ hSound hGrows u s₂ hRun
  have hObject₁ := hObject.trans_le hGrows.objects.size
  obtain ⟨o, w, hGet, hRun⟩ := exists_of_bind hRun
  cases hGet
  by_cases hIs : (s₁.objects.entry v).isFunction = true
  · rw [if_pos hIs] at hRun
    obtain ⟨w, w', hGet, hRun⟩ := exists_of_bind hRun
    cases hGet
    cases hReading : s₁.function? with
    | none =>
      simp only [hReading] at hRun
      obtain ⟨hSound₂, hGrows₂, -⟩ := (references_touch
        (g := ({ · with isRoot := true })) (fun _ _ => ⟨rfl, rfl, rfl,
          rfl, rfl, fun _ => rfl, fun _ => rfl, fun _ h => h⟩)
        fun _ => ⟨rfl, rfl⟩).run hSound hRun
      refine ⟨hSound₂, hGrows₂, hObject₁.trans_le hGrows₂.objects.size, fun _ => ?_⟩
      rw [ParseState.credits_of_none (hGrows₂.function?.trans hReading), modifyObject_run hRun]
      change (Objects.entry (s₁.objects.modify v _) v).isRoot = true
      rw [Objects.entry_modify_self _ hObject₁]
    | some f =>
      simp only [hReading] at hRun
      have hFunction := hSound.reading f hReading
      have hIn := Objects.lt_of_isFunction hFunction
      obtain ⟨hSound₂, hGrows₂, -⟩ := (references_touch (g := fun g => { g with
          refs := g.refs ++ [(s₁.objects.entry v).name] })
        (fun _ _ => ⟨rfl, rfl, rfl, rfl, rfl, fun _ => rfl, id,
          List.subset_append_left _ _⟩) fun _ => ⟨rfl, rfl⟩).run hSound hRun
      refine ⟨hSound₂, hGrows₂, hObject₁.trans_le hGrows₂.objects.size, fun _ => ?_⟩
      rw [ParseState.credits_of_some (hGrows₂.function?.trans hReading)]
      refine ⟨(hGrows₂.objects.entry f hIn).isFunction.trans hFunction, ?_⟩
      rw [(hGrows₂.objects.entry v hObject₁).name, modifyObject_run hRun]
      change _ ∈ (Objects.entry (s₁.objects.modify f _) f).refs
      rw [Objects.entry_modify_self _ hIn]
      exact List.mem_append_right _ (List.mem_singleton_self _)
  · rw [if_neg hIs] at hRun
    cases hRun
    exact ⟨hSound, .refl _, ParseState.allows_of_variable hObject₁ (by simpa using hIs)⟩

------------
-- Variables of the Unit
------------

/-
  What the addresses in a variable may be those of.  In a
  function the variable has no name of its own, or is defined
  elsewhere.
-/
structure Takes (s : ParseState) (v : ObjId) : Prop where
  lt : v < s.objects.size
  isFunction : (s.objects.entry v).isFunction = false
  place : s.function? = none ∨ ParseState.Hidden (s.objects.entry v).name ∨
      (s.objects.entry v).isDefinition = false

theorem Takes.further (hTakes : Takes s v) (hFurther : s.Furthers t) : Takes t v := by
  have hHere := hFurther.objects.entry v hTakes.lt
  refine ⟨hTakes.lt.trans_le hFurther.objects.size, hHere.isFunction.trans hTakes.isFunction, ?_⟩
  rw [hFurther.function?, hHere.name, hHere.isDefinition hTakes.isFunction]
  exact hTakes.place

/- What a tree may name, the variable may hold the address of. -/
theorem Takes.warrants (hTakes : Takes s v) {w : ObjId} (hCredits : s.Credits w) :
    s.objects.Warrants v w := by
  cases hReading : s.function? with
  | none => exact .inl ((ParseState.credits_of_none hReading).mp hCredits)
  | some g =>
    refine .inr ⟨hTakes.place.resolve_left ?_, g, (ParseState.credits_of_some hReading).mp hCredits⟩
    rw [hReading]
    exact fun h => by cases h

/- A variable is given its data. -/
theorem references_setData {data : Bytes} {relocs : List Relocation} (hTakes : Takes s v)
    (hTargets : ∀ r ∈ relocs, ∀ w, r.target = .object w → references.ok s w) :
    references.Runs s (modifyObject v fun o =>
      { o with data? := some data, relocs := relocs }) := by
  intro s₁ hSound hGrows u s₂ hRun
  obtain rfl := modifyObject_run hRun
  have hHere := hTakes.further hGrows
  have hAddresses : ∀ r ∈ relocs, ∀ w, r.target = .object w →
      w < s₁.objects.size ∧ ((s₁.objects.entry w).isFunction = true → s₁.objects.Warrants v w) := by
    intro r hr w hTarget
    have hAllows := (hTargets r hr w hTarget).further hGrows
    exact ⟨hAllows.lt, fun h => hHere.warrants (hAllows.credits h)⟩
  obtain ⟨hSound₂, hGrows₂⟩ := hSound.modify (v := v)
    (g := fun o => { o with data? := some data, relocs := relocs })
    (Obj.extends_of_eq rfl)
    (hSound.placed v).body fun _ => hAddresses
  exact ⟨hSound₂, hGrows₂, trivial⟩

/- A variable holds addresses of what its initializer names. -/
theorem references_globalInit [hReads : references.Reads r] (hTakes : Takes s v) :
    references.Runs s (InitialValue.globalInit r v) := by
  refine keeps_after fun o =>
    (Initializer.keeps_complete o.type).bind fun t tree hGrows hTree => ?_
  refine Keeps.step (references_touch
    (fun _ _ => Obj.extends_of_eq rfl) fun _ => ⟨rfl, rfl⟩) fun _ =>
    keeps_after fun rs => keeps_ite
      (fun _ => keeps_after fun _ => keeps_fail_bind _ _ _)
      fun _ => keeps_known (InitialValue.quiet_fill_targets hTree _ _ _) fun image hTargets => ?_
  refine references_setData (hTakes.further hGrows) fun r hr w hTarget => ?_
  rcases hTargets r (Array.mem_toList_iff.mp hr) with hNever | hNamed
  · cases Array.not_mem_empty r hNever
  · exact hNamed w hTarget

end Account

namespace ParseState

theorem Pushes.quiet (hPushes : s.Pushes t o) (hQuiet : t.Quiet u) : s.Pushes u o where
  objects := hQuiet.objects.trans hPushes.objects
  function? := hQuiet.function?.trans hPushes.function?
  vlas := hQuiet.vlas.trans hPushes.vlas
  alloca := hQuiet.alloca.trans hPushes.alloca
  initialized := hQuiet.initialized.trans hPushes.initialized
  binds v hv := hPushes.binds v (hQuiet.binds v hv)

end ParseState

namespace Declaration

open Specifier

/- A variable that has just been named. -/
theorem references_unitObject [hReads : references.Reads r] (name : Token) (type : CType)
    (attr : VarAttr) (inherited : Bool) (hPlace : attr.isExtern = true ∨ s.function? = none) :
    references.Runs s (unitObject r name type attr inherited) := by
  intro s₁ hSound hGrows attr' s₂ hRun
  obtain ⟨rfl, t₁, t, w, hGlobals, hPushes, hQuiet, hValued, hSkip⟩ := unitObject_run hRun
  have hHere := hPushes.quiet hQuiet
  have hIds : TopLevel.ids s₁.globals.toList ⊆ TopLevel.ids t.globals.toList := by
    rw [hQuiet.globals, hGlobals]
    exact ids_push_subset _ _
  have hAdded := hHere.accounted hSound hIds (fun h => by cases h) rfl rfl rfl
  have hThere : w.Accounted ∧ s₁.Furthers w := by
    cases hValued with
    | value hFresh hInit =>
      have hTakes : Takes t s₁.objects.size := by
        refine ⟨by rw [hHere.size]; exact Nat.lt_succ_self _, by rw [hHere.new]; rfl, ?_⟩
        rw [hHere.new, hHere.function?, hGrows.function?]
        exact hPlace.symm.imp_right fun hExtern => .inr (by simp [unitEntry, hExtern])
      have hValue : references.Runs t (do
          modify fun s => { s with initialized := name.text :: s.initialized }
          InitialValue.globalInit r s₁.objects.size) :=
        Keeps.step (references_modify fun _ => ⟨rfl, fun _ h => h, rfl, rfl, rfl, rfl⟩) fun _ =>
          references_globalInit hTakes
      obtain ⟨hSound', hMore, -⟩ := hValue.run hAdded.1 hInit
      exact ⟨hSound', hAdded.2.trans hMore⟩
    | tentative hTentative hChange =>
      obtain rfl := modifyObject_run hChange
      exact (hHere.changed ({ · with isTentative := true })).accounted
        hSound hIds (fun h => by cases h) rfl rfl rfl
    | plain hOther => exact hAdded
  obtain ⟨hSound', hMore, -⟩ :=
    (safe_skipAttributes.runs w).run (A := references) hThere.1 hSkip
  exact ⟨hSound', hThere.2.trans hMore, trivial⟩

/- A declaration of a variable keeps the account of references. -/
theorem references_unitVariable [hReads : references.Reads r] (base : CType) (attr : VarAttr)
    (hPlace : attr.isExtern = true ∨ s.function? = none) :
    references.Runs s (unitVariable r base attr) := by
  refine ((Reads.safe_declarator base).runs s).bind fun t d hGrows _ => ?_
  split
  · exact keeps_fail _ _
  · rename_i name hName
    refine keeps_ite (fun _ => keeps_fail_bind _ _ _) fun _ =>
      keeps_ite (fun _ => keeps_fail_bind _ _ _) fun _ =>
      (((safe_attributesOn attr).runs t).giving
        (gives_attributesOn attr)).bind fun u attr' hMore hSame =>
      keeps_after fun inherited => ?_
    refine references_unitObject name d.type attr' inherited ?_
    rw [hSame.2, hMore.function?, hGrows.function?]
    exact hPlace

end Declaration

------------
-- Rules
------------

namespace Account

/- The account of references has all the rules. -/
instance references_rules : references.Rules where
  bound := fun hSound hBinds => hSound.bound _ hBinds
  alloca := fun hSound => ParseState.allows_of_variable hSound.alloca.1 hSound.alloca.2
  vla := fun hSound hVla => by
    obtain ⟨hNames, hSize⟩ := hSound.lengths _ _ hVla
    exact ⟨hNames, fun v hv => ParseState.allows_of_variable (hSize v hv).1 (hSize v hv).2⟩
  newLocal := references_newLocal
  newAnonymous := references_newAnonymous
  newString := fun s data t _ => references_newString s data t
  setAlign := fun s v n _ => references_touch (fun _ _ => Obj.extends_of_eq rfl) fun _ => ⟨rfl, rfl⟩
  setType := fun s v t _ => references_touch (fun _ _ => Obj.extends_of_eq rfl) fun _ => ⟨rfl, rfl⟩
  bindName := fun s name v hObject => references_bindName name hObject
  noteReference := fun s v hObject => references_noteReference hObject
  vlaOf := fun s base len hLen => references_vlaOf base hLen
  setSize := fun s i v _ hLocal => references_setSize hLocal.isFunction hLocal.lt
  globalInit := fun s r v _ hAnonymous =>
    references_globalInit ⟨hAnonymous.lt, hAnonymous.isFunction,
      .inr (.inl hAnonymous.hidden)⟩
  unitVariable := fun s r base attr _ hPlace =>
    Declaration.references_unitVariable base attr hPlace
  asm := fun t text => ⟨fun s => references_modify fun s =>
    ⟨rfl, ids_push_subset _ _, rfl, rfl, rfl, rfl⟩⟩

end Account

end CCompiler
