import Mathlib
import CCompiler.Proofs.Syntax.QuietSteps

/-
  Steps about objects: a table with one changed entry or one
  more, and what adding a variable does to a state.

  Main declarations:
    * `Objects.entry_modify_cases`, `Objects.entry_push_lt`
    * `ParseState.Pushes`
    * `Parse.newLocal_run`, `Parse.newGlobal_run`
-/

------------
-- Tables of Objects
------------

namespace CCompiler

namespace Objects

variable {os : Objects} {v w : ObjId} {o : Obj}

theorem entry_modify_self (f : Obj → Obj) (hObject : v < os.size) :
    entry (os.modify v f) v = f (os.entry v) := by
  simp only [entry, Array.getD_eq_getD_getElem?, Array.getElem?_modify, if_true]
  rw [Array.getElem?_eq_getElem hObject]
  rfl

theorem entry_modify_ne (f : Obj → Obj) (hOther : w ≠ v) :
    entry (os.modify v f) w = os.entry w := by
  simp only [entry, Array.getD_eq_getD_getElem?, Array.getElem?_modify, if_neg hOther.symm]

/- What holds of all objects and is kept by a change holds after it. -/
theorem entry_modify_cases (f : Obj → Obj) {P : Obj → Prop} (hOld : P (os.entry w))
    (hChanged : w = v → P (f (os.entry v))) : P (entry (os.modify v f) w) := by
  by_cases hSame : w = v
  · subst hSame
    by_cases hObject : w < os.size
    · rw [entry_modify_self f hObject]
      exact hChanged rfl
    · have hOut : entry (os.modify w f) w = os.entry w := by
        simp only [entry, Array.getD_eq_getD_getElem?]
        rw [Array.getElem?_eq_none (by simpa using hObject),
          Array.getElem?_eq_none (by simpa using hObject)]
      rw [hOut]
      exact hOld
  · rw [entry_modify_ne f hSame]
    exact hOld

theorem entry_push_lt (hObject : v < os.size) : entry (os.push o) v = os.entry v := by
  simp only [entry, Array.getD_eq_getD_getElem?]
  rw [Array.getElem?_push_lt hObject, Array.getElem?_eq_getElem hObject]

theorem entry_push_size : entry (os.push o) os.size = o := by
  simp [entry, Array.getD_eq_getD_getElem?]

theorem modify_push_size (f : Obj → Obj) : (os.push o).modify os.size f = os.push (f o) := by
  refine Array.ext_getElem? fun i => ?_
  rw [Array.getElem?_modify, Array.getElem?_push, Array.getElem?_push]
  by_cases hLast : os.size = i
  · simp [hLast]
  · simp [hLast, Ne.symm hLast]

theorem entry_of_size_le (hOut : os.size ≤ v) : os.entry v = default := by
  simp only [entry, Array.getD_eq_getD_getElem?]
  rw [Array.getElem?_eq_none hOut]
  rfl

/- Only objects of the table are functions. -/
theorem lt_of_isFunction (hFunction : (os.entry v).isFunction = true) : v < os.size := by
  by_contra hOut
  rw [entry_of_size_le (Nat.le_of_not_lt hOut)] at hFunction
  cases hFunction

end Objects

------------
-- New Objects
------------

namespace ParseState

/- An object has been added, and a name stands for it. -/
structure Pushes (s t : ParseState) (o : Obj) : Prop where
  objects : t.objects = s.objects.push o
  function? : t.function? = s.function?
  vlas : t.vlas = s.vlas
  alloca : t.alloca = s.alloca
  initialized : t.initialized = s.initialized
  binds : ∀ v, t.Binds v → s.Binds v ∨ v = s.objects.size

variable {s t : ParseState} {o : Obj} {v : ObjId}

theorem Pushes.size (hPushes : s.Pushes t o) : t.objects.size = s.objects.size + 1 := by
  rw [hPushes.objects, Array.size_push]

theorem Pushes.new (hPushes : s.Pushes t o) : t.objects.entry s.objects.size = o := by
  rw [hPushes.objects, Objects.entry_push_size]

theorem Pushes.old (hPushes : s.Pushes t o) (hObject : v < s.objects.size) :
    t.objects.entry v = s.objects.entry v := by rw [hPushes.objects, Objects.entry_push_lt hObject]

theorem Pushes.kept (hPushes : s.Pushes t o) : s.Kept t where
  size := by
    rw [hPushes.size]
    exact Nat.le_succ _
  name v hv := by rw [hPushes.old hv]
  isLocal v hv := by rw [hPushes.old hv]
  isFunction v hv := by rw [hPushes.old hv]
  isTentative v hv := by rw [hPushes.old hv]

/- The new object is changed. -/
theorem Pushes.changed (hPushes : s.Pushes t o) (f : Obj → Obj) :
    s.Pushes { t with
      objects := t.objects.modify s.objects.size f } (f o) where
  objects := by rw [hPushes.objects, Objects.modify_push_size]
  function? := hPushes.function?
  vlas := hPushes.vlas
  alloca := hPushes.alloca
  initialized := hPushes.initialized
  binds := hPushes.binds

end ParseState

namespace Parse

variable {s s' : ParseState} {name : Bytes} {t : CType} {v : ObjId}

variable {u : Unit}

theorem modifyObject_run {f : Obj → Obj} (hRun : modifyObject v f s = .ok u s') :
    s' = { s with objects := s.objects.modify v f } := by
  cases hRun
  rfl

/- A change of the present block leaves the rest of the state. -/
theorem modifyScope_run {f : Scope → Scope} (hRun : modifyScope f s = .ok u s') :
    ∃ scopes, s' = { s with scopes := scopes } := by
  cases hRun
  dsimp only
  split
  · exact ⟨_, rfl⟩
  · exact ⟨s.scopes, rfl⟩

/- A name that is given to an object stands for that one besides. -/
theorem binds_bindName {w : ObjId} (hRun : bindName name (.object v) s = .ok u s')
    (hBinds : s'.Binds w) : s.Binds w ∨ w = v := by
  cases hRun
  dsimp only at hBinds
  split at hBinds
  · rename_i sc rest hScopes
    obtain ⟨sc', hScope, n, hName⟩ := hBinds
    rcases List.mem_cons.mp hScope with rfl | hOld
    · rcases List.mem_cons.mp hName with hNew | hOld
      · exact .inr (Binding.object.inj (Prod.mk.inj hNew).2)
      · exact .inl ⟨sc, by simp [hScopes], n, hOld⟩
    · exact .inl ⟨sc', by simp [hScopes, hOld], n, hName⟩
  · exact .inl hBinds

theorem newObject_run (hRun : newObject name t s = .ok v s') :
    v = s.objects.size ∧ s'.globals = s.globals ∧
      s.Pushes s' { name := name
                    type := t
                    align := t.align s.records } := by
  obtain ⟨⟨⟩, s₁, hBind, hEnd⟩ : ∃ u s₁, bindName name (.object s.objects.size) { s with
        objects := s.objects.push ({ name := name, type := t, align := t.align s.records }) } =
          .ok u s₁ ∧ (pure s.objects.size : Parse ObjId) s₁ = .ok v s' :=
    exists_of_bind hRun
  cases hEnd
  have hNames := fun w => binds_bindName (w := w) hBind
  obtain ⟨scopes, rfl⟩ := modifyScope_run hBind
  exact ⟨rfl, rfl, rfl, rfl, rfl, rfl, rfl, hNames⟩

/- A variable of a function is added. -/
theorem newLocal_run (hRun : newLocal name t s = .ok v s') :
    v = s.objects.size ∧ s'.globals = s.globals ∧
      s.Pushes s' { name := name
                    type := t
                    align := t.align s.records
                    isLocal := true } := by
  obtain ⟨w, s₁, hNew, hRest⟩ := exists_of_bind hRun
  obtain ⟨rfl, hGlobals, hPushes⟩ := newObject_run hNew
  cases hRest
  have hLocal := hPushes.changed fun o => { o with isLocal := true }
  exact ⟨rfl, hGlobals, hLocal.objects, hLocal.function?, hLocal.vlas,
    hLocal.alloca, hLocal.initialized, hLocal.binds⟩

/- A variable or function of the unit is added. -/
theorem newGlobal_run (hRun : newGlobal name t s = .ok v s') :
    v = s.objects.size ∧ s'.globals = s.globals.push (.object v) ∧
      s.Pushes s' { name := name
                    type := t
                    align := t.align s.records
                    isStatic := true
                    isDefinition := true } := by
  obtain ⟨w, s₁, hNew, hRest⟩ := exists_of_bind hRun
  obtain ⟨rfl, hGlobals, hPushes⟩ := newObject_run hNew
  cases hRest
  have hGlobal := hPushes.changed fun o => { o with isStatic := true, isDefinition := true }
  exact ⟨rfl, by rw [← hGlobals], hGlobal.objects, hGlobal.function?,
    hGlobal.vlas, hGlobal.alloca, hGlobal.initialized,
    hGlobal.binds⟩

/- A variable without a name of its own is added. -/
theorem newAnonymous_run (hRun : newAnonymous t s = .ok v s') :
    v = s.objects.size ∧ s'.globals = s.globals.push (.object v) ∧ ∃ name, ParseState.Hidden name ∧
        s.Pushes s' { name := name
                      type := t
                      align := t.align s.records
                      isStatic := true
                      isDefinition := true } := by
  obtain ⟨name, s₁, hName, hNew⟩ := exists_of_bind hRun
  obtain ⟨-, hHidden⟩ := quiet_freshName s name s₁ hName
  cases hName
  obtain ⟨hId, hGlobals, hPushes⟩ := newGlobal_run hNew
  exact ⟨hId, hGlobals, _, hHidden, hPushes.objects,
    hPushes.function?, hPushes.vlas, hPushes.alloca,
    hPushes.initialized, hPushes.binds⟩

/- A variable that holds given bytes is added. -/
theorem newString_run {data : Bytes} (hRun : newString data t s = .ok v s') :
    v = s.objects.size ∧ s'.globals = s.globals.push (.object v) ∧ ∃ name, ParseState.Hidden name ∧
        s.Pushes s' { name := name
                      type := t
                      align := t.align s.records
                      isStatic := true
                      isDefinition := true
                      data? := some data } := by
  obtain ⟨w, s₁, hNew, hRest⟩ := exists_of_bind hRun
  obtain ⟨rfl, hGlobals, name, hHidden, hPushes⟩ := newAnonymous_run hNew
  cases hRest
  have hString := hPushes.changed fun o => { o with data? := some data }
  exact ⟨rfl, by rw [← hGlobals], name, hHidden, hString.objects,
    hString.function?, hString.vlas, hString.alloca,
    hString.initialized, hString.binds⟩

end Parse

end CCompiler
