import Mathlib
import CCompiler.Proofs.Syntax.GlobalDeclarations

/-
  A unit that has been read, and which functions of it are
  needed.

  Finding the functions that are needed changes nothing else
  about objects.  Functions refer to others by name, in any way:
  to themselves, in circles, and by names that no function has.
  Marking what is needed goes from the roots along these
  names.  It comes to an end, and what is marked then is what
  a root refers to, directly or through other functions.

  A function that is marked already is passed by, although
  what it refers to need not be marked yet.  The invariant is
  therefore about new marks: what a newly marked function
  refers to is marked at the end.

  Main declarations:
    * `TranslationUnit.entry_finish`
    * `TranslationUnit.Refers`, `TranslationUnit.Needed`
    * `TranslationUnit.Marks`
    * `TranslationUnit.exists_marks`
    * `TranslationUnit.Marks.closed`
    * `TranslationUnit.live_iff_needed`
-/

------------
-- Objects of Units
------------

namespace CCompiler

namespace TranslationUnit

variable {find : Callees} {os : Objects} {v : ObjId} {s : ParseState}

/- An object with another mark for what is needed. -/
def Remarked (o o' : Obj) : Prop :=
  o' = { o with isLive := o'.isLive }

theorem Remarked.trans {o o' o'' : Obj} (hFirst : Remarked o o') (hSecond : Remarked o' o'') :
    Remarked o o'' := by
  unfold Remarked at hFirst hSecond ⊢
  rw [hSecond, hFirst]

/- Marking what is needed changes the marks only. -/
theorem markLive_entry (find : Callees) (fuel : Nat) (ids : List ObjId) (os : Objects) (v : ObjId) :
    Remarked (os.entry v) ((markLive find fuel ids os).entry v) := by
  fun_induction markLive find fuel ids os with
  | case1 => rfl
  | case2 => rfl
  | case3 fuel id rest os o hSkip ih => exact ih
  | case4 fuel id rest os o hNew os' ih =>
    refine Remarked.trans ?_ ih
    exact Objects.entry_modify_cases _ (P := fun o => Remarked (os.entry v) o) rfl fun hSame => by
        rw [hSame]
        rfl

/- An object of a unit is as it was read but for its mark. -/
theorem entry_finish (s : ParseState) (v : ObjId) :
    Remarked (s.objects.entry v) ((finish s).objects.entry v) := markLive_entry _ _ _ _ _

end TranslationUnit

end CCompiler

------------
-- References
------------

namespace CCompiler

namespace TranslationUnit

/- A function refers to another one by name. -/
def Refers
    (find : Callees)
    (os : Objects)
    (v w : ObjId) : Prop :=
  ∃ name ∈ (os.entry v).refs,
    find name = some w ∧ (os.entry w).isFunction = true

/- A root, or what a root refers to through other functions. -/
def Needed
    (find : Callees)
    (globals : List TopLevel)
    (os : Objects)
    (v : ObjId) : Prop :=
  ∃ root, .object root ∈ globals ∧ (os.entry root).isRoot = true ∧
    (os.entry root).isFunction = true ∧
    Relation.ReflTransGen (Refers find os) root v

/- An object with the mark of what is needed. -/
def withMark (os : Objects) (v : ObjId) : Objects :=
  os.modify v fun o => { o with isLive := true }

/-
  Marking the functions on a list one after the other.  A
  function that is new is marked before those that it refers
  to; other objects are passed by.
-/
inductive Marks (find : Callees) :
    List ObjId → Objects → Objects → Prop
| done (os : Objects) : Marks find [] os os
| pass {id : ObjId} {ids : List ObjId} {os os' : Objects} :
    ((os.entry id).isFunction = false ∨ (os.entry id).isLive = true) →
    Marks find ids os os' → Marks find (id :: ids) os os'
| mark {id : ObjId} {ids : List ObjId} {os mid os' : Objects} :
    (os.entry id).isFunction = true → (os.entry id).isLive = false →
    Marks find ((os.entry id).refs.filterMap find)
      (withMark os id) mid → Marks find ids mid os' →
    Marks find (id :: ids) os os'

variable {find : Callees} {os os' os'' mid : Objects}
variable {id v w : ObjId} {ids : List ObjId}

/- There is one way to mark a list. -/
theorem Marks.unique (hMarks : Marks find ids os os') (hOther : Marks find ids os os'') :
    os'' = os' := by
  induction hMarks generalizing os'' with
  | done os =>
    cases hOther
    rfl
  | pass hPast _ ih =>
    cases hOther with
    | pass _ hRest => exact ih hRest
    | mark hFunction hNew _ _ =>
      rw [hFunction, hNew] at hPast
      simp at hPast
  | mark hFunction hNew _ _ ihRefs ihRest =>
    cases hOther with
    | pass hPast _ =>
      rw [hFunction, hNew] at hPast
      simp at hPast
    | mark _ _ hRefs hRest =>
      rw [ihRefs hRefs] at hRest
      exact ihRest hRest

------------
-- An End
------------

/- How many names an object can still bring in. -/
def loadOf (o : Obj) : Nat :=
  if o.isFunction && !o.isLive then o.refs.length else 0

/- How many names can still be brought in. -/
def load (os : Objects) : Nat :=
  (os.toList.map loadOf).sum

theorem sum_load_modify (f : Obj → Obj) (l : List Obj) (hIn : v < l.length) :
    ((l.modify v f).map loadOf).sum + loadOf l[v] = (l.map loadOf).sum + loadOf (f l[v]) := by
  induction l generalizing v with
  | nil => simp at hIn
  | cons o l ih =>
    cases v with
    | zero =>
      simp only [List.modify_zero_cons, List.map_cons, List.sum_cons, List.getElem_cons_zero]
      omega
    | succ v =>
      have := ih (v := v) (by simpa using hIn)
      simp only [List.modify_succ_cons, List.map_cons, List.sum_cons, List.getElem_cons_succ]
      omega

/- The names of a function are brought in once. -/
theorem load_withMark (hFunction : (os.entry v).isFunction = true)
    (hNew : (os.entry v).isLive = false) :
    load (withMark os v) + (os.entry v).refs.length = load os := by
  have hIn := Objects.lt_of_isFunction hFunction
  have hEntry : os.entry v = os.toList[v] := by
    simp [Objects.entry, Array.getD_eq_getD_getElem?, hIn]
  rw [hEntry] at hFunction hNew ⊢
  have hSum := sum_load_modify (fun o => { o with isLive := true }) os.toList
    (v := v) (by simpa using hIn)
  rw [loadOf, loadOf, hFunction, hNew] at hSum
  simpa [load, withMark, Array.toList_modify] using hSum

theorem load_le_refs (os : Objects) : load os ≤ os.foldl (fun n o => n + o.refs.length) 0 := by
  have hAll : ∀ (l : List Obj) (n : Nat), n + (l.map loadOf).sum ≤
        l.foldl (fun n o => n + o.refs.length) n := by
    intro l
    induction l with
    | nil => simp
    | cons o l ih =>
      intro n
      have hOne : loadOf o ≤ o.refs.length := by
        unfold loadOf
        split <;> omega
      have := ih (n + o.refs.length)
      simp only [List.map_cons, List.sum_cons, List.foldl_cons]
      omega
  have := hAll os.toList 0
  rw [Array.foldl_toList] at this
  unfold load
  omega

/-
  Marking a list comes to an end, and the work list does the
  same in a number of steps that the names bound.
-/
theorem exists_marks (find : Callees) (ids : List ObjId) (os : Objects) :
    ∃ os' n, Marks find ids os os' ∧ n + load os' ≤ ids.length + load os ∧
      ∀ k rest, markLive find (n + k) (ids ++ rest) os = markLive find k rest os' := by
  -- A marked function puts its names on the list, and they
  -- are taken from the load: the sum gets smaller.
  induction hSize : ids.length + load os using Nat.strong_induction_on generalizing ids os with
  | _ size ih =>
    subst hSize
    cases ids with
    | nil => exact ⟨os, 0, .done os, by simp, by simp⟩
    | cons id ids =>
      by_cases hPast : (os.entry id).isFunction = false ∨ (os.entry id).isLive = true
      · obtain ⟨os', n, hMarks, hCost, hRun⟩ := ih (ids.length + load os) (by simp) ids os rfl
        refine ⟨os', n + 1, .pass hPast hMarks, ?_, ?_⟩
        · simp only [List.length_cons]
          omega
        · intro k rest
          rw [Nat.add_right_comm, List.cons_append, markLive, if_pos (by simpa using hPast), hRun]
      · obtain ⟨hFunction, hNew⟩ := not_or.mp hPast
        rw [Bool.not_eq_false] at hFunction
        rw [Bool.not_eq_true] at hNew
        have hLoad := load_withMark hFunction hNew
        have hFew := List.length_filterMap_le find (os.entry id).refs
        obtain ⟨mid, n, hRefs, hCost, hRun⟩ :=
          ih _ (by simp only [List.length_cons]; omega) ((os.entry id).refs.filterMap find)
            (withMark os id) rfl
        obtain ⟨os', m, hRest, hCost', hRun'⟩ :=
          ih (ids.length + load mid) (by simp only [List.length_cons]; omega) ids mid rfl
        refine ⟨os', n + m + 1, .mark hFunction hNew hRefs hRest, ?_, ?_⟩
        · simp only [List.length_cons]
          omega
        · intro k rest
          rw [Nat.add_right_comm, List.cons_append, markLive,
            if_neg (by simpa using not_or.mp hPast), Nat.add_assoc]
          exact (hRun (m + k) (ids ++ rest)).trans (hRun' k rest)

/- The steps that are allowed are enough. -/
theorem marks_markAllLive (find : Callees) (globals : List TopLevel) (os : Objects) :
    Marks find (roots globals os) os (markAllLive find globals os) := by
  obtain ⟨os', n, hMarks, hCost, hRun⟩ := exists_marks find (roots globals os) os
  have hLoad := load_le_refs os
  obtain ⟨k, hFuel⟩ := Nat.exists_eq_add_of_le (show n ≤ (roots globals os).length +
      os.foldl (fun n o => n + o.refs.length) 0 + 1 by omega)
  have hEnd := hRun k []
  rw [List.append_nil] at hEnd
  simp only [markAllLive, hFuel, hEnd]
  cases k <;> exact hMarks

------------
-- What Is Marked
------------

theorem withMark_entry (os : Objects) (v w : ObjId) :
    Remarked (os.entry w) ((withMark os v).entry w) :=
  Objects.entry_modify_cases _ (P := fun o => Remarked (os.entry w) o) rfl fun hSame => by
      rw [hSame]
      rfl

/- Marking changes the marks only. -/
theorem Marks.entry (hMarks : Marks find ids os os') (v : ObjId) :
    Remarked (os.entry v) (os'.entry v) := by
  induction hMarks with
  | done os => rfl
  | pass _ _ ih => exact ih
  | mark _ _ _ _ ihRefs ihRest => exact ((withMark_entry _ _ v).trans ihRefs).trans ihRest

theorem Remarked.isFunction {o o' : Obj} (hMarked : Remarked o o') :
    o'.isFunction = o.isFunction := by rw [hMarked]

theorem Remarked.refs {o o' : Obj} (hMarked : Remarked o o') : o'.refs = o.refs := by rw [hMarked]

/- Marks do not change what refers to what. -/
theorem refers_congr (hMarked : ∀ v, Remarked (os.entry v) (os'.entry v)) :
    Refers find os' = Refers find os := by
  funext v w
  unfold Refers
  rw [(hMarked v).refs, (hMarked w).isFunction]

/- A mark stays. -/
theorem withMark_grows (hLive : (os.entry w).isLive = true) :
    ((withMark os v).entry w).isLive = true :=
  Objects.entry_modify_cases _ (P := fun o => o.isLive = true) hLive fun _ => rfl

theorem Marks.grows (hMarks : Marks find ids os os') (hLive : (os.entry v).isLive = true) :
    (os'.entry v).isLive = true := by
  induction hMarks with
  | done os => exact hLive
  | pass _ _ ih => exact ih hLive
  | mark _ _ _ _ ihRefs ihRest => exact ihRest (ihRefs (withMark_grows hLive))

/- What is marked was marked, or a function of the list leads to it. -/
theorem Marks.sound (hMarks : Marks find ids os os') (hLive : (os'.entry v).isLive = true) :
    (os.entry v).isLive = true ∨ ∃ id ∈ ids, (os.entry id).isFunction = true ∧
        Relation.ReflTransGen (Refers find os) id v := by
  induction hMarks with
  | done os => exact .inl hLive
  | pass _ _ ih =>
    rcases ih hLive with hOld | ⟨id, hId, hLeads⟩
    · exact .inl hOld
    · exact .inr ⟨id, List.mem_cons_of_mem _ hId, hLeads⟩
  | @mark id ids os mid os' hFunction hNew hRefs _ ihRefs ihRest =>
    have hOne := withMark_entry os id
    have hMid : ∀ w, Remarked (os.entry w) (mid.entry w) := fun w => (hOne w).trans (hRefs.entry w)
    rcases ihRest hLive with hLive | ⟨next, hNext, hIs, hLeads⟩
    · rcases ihRefs hLive with hLive | ⟨next, hNext, hIs, hLeads⟩
      · by_cases hSame : v = id
        · subst hSame
          exact .inr ⟨v, List.mem_cons_self, hFunction, .refl⟩
        · rw [withMark, Objects.entry_modify_ne _ hSame] at hLive
          exact .inl hLive
      · rw [refers_congr hOne] at hLeads
        rw [(hOne next).isFunction] at hIs
        obtain ⟨name, hName, hFind⟩ := List.mem_filterMap.mp hNext
        exact .inr ⟨id, List.mem_cons_self, hFunction, .head ⟨name, hName, hFind, hIs⟩ hLeads⟩
    · rw [refers_congr hMid] at hLeads
      rw [(hMid next).isFunction] at hIs
      exact .inr ⟨next, List.mem_cons_of_mem _ hNext, hIs, hLeads⟩

/-
  The functions of the list are marked, and so is what a
  newly marked function refers to.
-/
theorem Marks.closed (hMarks : Marks find ids os os') :
    (∀ id ∈ ids, (os.entry id).isFunction = true →
      (os'.entry id).isLive = true) ∧ ∀ v w, (os'.entry v).isLive = true →
      (os.entry v).isLive = false → Refers find os v w →
      (os'.entry w).isLive = true := by
  induction hMarks with
  | done os =>
    refine ⟨by simp, fun v w hLive hNew => ?_⟩
    rw [hLive] at hNew
    cases hNew
  | pass hPast hRest ih =>
    refine ⟨fun next hNext hIs => ?_, ih.2⟩
    rcases List.mem_cons.mp hNext with rfl | hNext
    · rcases hPast with hOther | hLive
      · rw [hIs] at hOther
        cases hOther
      · exact hRest.grows hLive
    · exact ih.1 next hNext hIs
  | @mark id ids os mid os' hFunction hNew hRefs hRest ihRefs ihRest =>
    have hOne := withMark_entry os id
    have hMid : ∀ w, Remarked (os.entry w) (mid.entry w) := fun w => (hOne w).trans (hRefs.entry w)
    have hSelf : (mid.entry id).isLive = true := by
      refine hRefs.grows ?_
      rw [withMark, Objects.entry_modify_self _ (Objects.lt_of_isFunction hFunction)]
    constructor
    · intro next hNext hIs
      rcases List.mem_cons.mp hNext with rfl | hNext
      · exact hRest.grows hSelf
      · exact ihRest.1 next hNext (by rw [(hMid next).isFunction]; exact hIs)
    · intro v w hLive hBefore hRefers
      have hIs := hRefers
      obtain ⟨name, hName, hFind, hIs⟩ := hIs
      cases hThen : (mid.entry v).isLive with
      | false =>
        -- Marked with the rest of the list.
        refine ihRest.2 v w hLive hThen ?_
        rw [refers_congr hMid]
        exact hRefers
      | true =>
        refine hRest.grows ?_
        by_cases hSame : v = id
        · subst hSame
          exact ihRefs.1 w (List.mem_filterMap.mpr ⟨name, hName, hFind⟩)
            (by rw [(hOne w).isFunction]; exact hIs)
        · refine ihRefs.2 v w hThen ?_ ?_
          · rw [withMark, Objects.entry_modify_ne _ hSame]
            exact hBefore
          · rw [refers_congr hOne]
            exact hRefers

------------
-- Needed Functions
------------

variable {globals : List TopLevel}

theorem mem_roots :
    v ∈ roots globals os ↔ .object v ∈ globals ∧ (os.entry v).isRoot = true := by
  unfold roots
  rw [List.mem_filterMap]
  constructor
  · rintro ⟨g, hMem, hRoot⟩
    cases g with
    | asm t s => cases hRoot
    | object w =>
      simp only [Option.ite_none_right_eq_some, Option.some.injEq] at hRoot
      obtain ⟨hRoot, rfl⟩ := hRoot
      exact ⟨hMem, hRoot⟩
  · rintro ⟨hMem, hRoot⟩
    exact ⟨_, hMem, by simp [hRoot]⟩

/- What is marked at the end is what is needed. -/
theorem Marks.live_iff (hMarks : Marks find (roots globals os) os os')
    (hFresh : ∀ v, (os.entry v).isLive = false) (v : ObjId) :
    (os'.entry v).isLive = true ↔ Needed find globals os v := by
  constructor
  · intro hLive
    rcases hMarks.sound hLive with hOld | ⟨root, hRoot, hIs, hLeads⟩
    · rw [hFresh] at hOld
      cases hOld
    · obtain ⟨hMem, hRoot⟩ := mem_roots.mp hRoot
      exact ⟨root, hMem, hRoot, hIs, hLeads⟩
  · rintro ⟨root, hMem, hRoot, hIs, hLeads⟩
    induction hLeads with
    | refl => exact hMarks.closed.1 root (mem_roots.mpr ⟨hMem, hRoot⟩) hIs
    | tail _ hRefers ih => exact hMarks.closed.2 _ _ ih (hFresh _) hRefers

/-
  Marking the needed functions of a unit comes to an end, in
  one way only, and a function is marked then if and only if
  a root leads to it.
-/
theorem live_iff_needed (s : ParseState) (hFresh : ∀ v, (s.objects.entry v).isLive = false) :
    (∀ os, Marks (functionNamed s) (roots s.globals.toList s.objects) s.objects os ↔
      os = (finish s).objects) ∧
    ∀ v, ((finish s).objects.entry v).isLive = true ↔
      Needed (functionNamed s) s.globals.toList s.objects v := by
  have hMarks : Marks (functionNamed s) (roots s.globals.toList s.objects) s.objects
      (finish s).objects :=
    marks_markAllLive _ _ _
  refine ⟨fun os => ⟨fun hOther => hMarks.unique hOther, ?_⟩, hMarks.live_iff hFresh⟩
  rintro rfl
  exact hMarks

/- A root, a function that only calls itself, and two that call each other. -/
def circles : ParseState :=
  let function (name : String) (root : Bool) (refs : List String) : Obj :=
    { name := ascii name
      type := .func .int [] [] false
      align := 1
      isFunction := true
      isRoot := root
      refs := refs.map ascii }
  { toks := []
    scopes := [{ vars := [(ascii "main", .object 0),
      (ascii "odd", .object 1), (ascii "even", .object 2),
      (ascii "self", .object 3)] }]
    objects := #[function "main" true ["odd", "odd", "printf"],
      function "odd" false ["even"], function "even" false ["odd"],
      function "self" false ["self", "main"]]
    globals := #[.object 0, .object 1, .object 2, .object 3] }

theorem live_iff_needed_circles :
    (∀ v, (circles.objects.entry v).isLive = false) ∧
      Needed (functionNamed circles) circles.globals.toList circles.objects 2 ∧
      ¬ Needed (functionNamed circles) circles.globals.toList circles.objects 3 := by
  have hFresh : ∀ v, (circles.objects.entry v).isLive = false := by
    intro v
    rcases v with - | - | - | - | v
    all_goals rfl
  obtain ⟨-, hLive⟩ := live_iff_needed circles hFresh
  refine ⟨hFresh, (hLive 2).mp ?_, mt (hLive 3).mpr ?_⟩
  · decide
  · decide

end TranslationUnit

end CCompiler
