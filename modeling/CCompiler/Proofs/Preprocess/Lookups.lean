import Mathlib
import CCompiler.Proofs.Preprocess.Likeness
import CCompiler.Proofs.Preprocess.Reprinting

/-
  The lookups of headers in the course of preprocessing.

  Where headers were found, and where a search goes on, is
  read and changed by lookups only.  Everything else that is
  done to a session has no regard for it: what is done by a
  computation is a sequence of such steps and of lookups.

  Main declarations:
    * `SearchPath`, `Session.searchPath`
    * `Include.search_fresh`, `Include.searchNext_run`
    * `Include.Lookup`, `Include.Looks`
    * `Include.Kind`, `Include.Tells`, `Include.telling`
    * `Expansion.like_expandAll`
    * `Preprocessor.like_process`
-/

------------
-- Directories
------------

namespace CCompiler

/- The directories that are searched, and the paths at which something is. -/
structure SearchPath where
  dirs : List Bytes
  present : Bytes → Bool

namespace SearchPath

variable (w : SearchPath) (start : Nat) (header : Bytes)

/- Whether a directory has a header. -/
def has (dir : Bytes) : Bool :=
  w.present (Include.inDirectory dir header)

/- The number of the first directory from a number on that has a header. -/
def dir? : Option Nat :=
  ((w.dirs.drop start).findIdx? (w.has header)).map (start + ·)

/- The path of a header in the first such directory. -/
def path? : Option Bytes :=
  ((w.dirs.drop start).find? (w.has header)).map
    (Include.inDirectory · header)

theorem path?_eq_none_iff : w.path? start header = none ↔ w.dir? start header = none := by
  simp [path?, dir?]

end SearchPath

/- Where the headers of a session are searched. -/
def Session.searchPath (s : Session) : SearchPath where
  dirs := Include.searchPaths s.cfg
  present path :=
    match Include.builtinName? path with
    | some name => (Header.find? name).isSome
    | none => s.store.exists? path

/- A session with another trail of lookups. -/
def Session.withTrail
    (s : Session)
    (found : List (Bytes × Bytes))
    (nextDir : Nat) : Session :=
  { s with found := found, nextDir := nextDir }

variable {path : Bytes}

namespace Include

open Expansion

theorem get_bind {β : Type} (f : Session → Pre β) (s : Session) :
    (get >>= f) s = f s s := rfl

theorem fileExists_run (path : Bytes) (s : Session) :
    ∃ asked, fileExists path s = .ok (s.searchPath.present path) { s with asked := asked } := by
  unfold fileExists Session.searchPath
  simp only
  cases builtinName? path with
  | some name => exact ⟨s.asked, rfl⟩
  | none => exact ⟨s.asked.push path, rfl⟩

/- Looking through directories changes nothing but what was asked for. -/
theorem firstWith_run (header : Bytes) (i : Nat) (dirs : List Bytes) (s : Session) :
    ∃ asked r, firstWith header i dirs s = .ok r { s with asked := asked } ∧
      r.map Prod.fst = (dirs.findIdx? (s.searchPath.has header)).map (i + ·) ∧
      r.map Prod.snd = (dirs.find? (s.searchPath.has header)).map (inDirectory · header) := by
  induction dirs generalizing i s with
  | nil => exact ⟨s.asked, none, rfl, rfl, rfl⟩
  | cons dir dirs ih =>
    rcases fileExists_run (inDirectory dir header) s with
      ⟨asked, hExists⟩
    have hRun : firstWith header i (dir :: dirs) s = (if s.searchPath.has header dir = true then
          pure (some (i, inDirectory dir header))
        else firstWith header (i + 1) dirs)
          { s with asked := asked } := bind_ok hExists
    rw [hRun, List.findIdx?_cons, List.find?_cons]
    cases hHas : s.searchPath.has header dir with
    | true => exact ⟨asked, some (i, inDirectory dir header), rfl, rfl, rfl⟩
    | false =>
      rcases ih (i + 1) { s with asked := asked } with
        ⟨asked', r, hMore, hDir, hPath⟩
      refine ⟨asked', r, hMore, ?_, hPath⟩
      rw [hDir, if_neg (by simp), Option.map_map]
      congr 1
      funext k
      exact Nat.add_right_comm i 1 k

variable {header : Bytes} {s : Session}

theorem search_absolute (hAbsolute : PathName.isAbsolute header = true) :
    search header s = .ok (some header) s := by
  unfold search
  rw [if_pos hAbsolute]
  rfl

theorem search_known (hRelative : PathName.isAbsolute header = false)
    (hKnown : s.found.lookup header = some path) : search header s = .ok (some path) s := by
  unfold search
  rw [if_neg (by simp [hRelative]), get_bind, hKnown]
  rfl

/- A header that was not found before is looked for in all directories. -/
theorem search_fresh (hRelative : PathName.isAbsolute header = false)
    (hFresh : s.found.lookup header = none) :
    ∃ asked, search header s = .ok (s.searchPath.path? 0 header)
        (({ s with asked := asked } : Session).withTrail
          (((s.searchPath.path? 0 header).map (header, ·)).toList ++ s.found)
          (((s.searchPath.dir? 0 header).map (· + 1)).getD s.nextDir)) := by
  rcases firstWith_run header 0 (searchPaths s.cfg) s with
    ⟨asked, r, hRun, hDir, hPath⟩
  refine ⟨asked, ?_⟩
  unfold search
  rw [if_neg (by simp [hRelative]), get_bind, hFresh]
  change (firstWith header 0 (searchPaths s.cfg) >>= _) s = _
  refine (bind_ok hRun).trans ?_
  have hDir' : s.searchPath.dir? 0 header = r.map Prod.fst := hDir.symm
  have hPath' : s.searchPath.path? 0 header = r.map Prod.snd := hPath.symm
  rw [hDir', hPath']
  cases r <;> rfl

theorem searchNext_run (header : Bytes) (s : Session) :
    ∃ asked, searchNext header s = .ok (s.searchPath.path? s.nextDir header)
        (({ s with asked := asked } : Session).withTrail s.found
          ((s.searchPath.dir? s.nextDir header).getD
            (max s.nextDir s.searchPath.dirs.length))) := by
  rcases firstWith_run header s.nextDir ((searchPaths s.cfg).drop s.nextDir) s with
    ⟨asked, r, hRun, hDir, hPath⟩
  refine ⟨asked, ?_⟩
  change (firstWith header s.nextDir ((searchPaths s.cfg).drop s.nextDir) >>= _) s = _
  refine (bind_ok hRun).trans ?_
  have hDir' : s.searchPath.dir? s.nextDir header = r.map Prod.fst := hDir.symm
  have hPath' : s.searchPath.path? s.nextDir header = r.map Prod.snd := hPath.symm
  rw [hDir', hPath']
  cases r <;> rfl

------------
-- Lookups
------------

/-
  A header that is looked up, and the path that is found: in
  all directories, or in those from the present one on.
-/
inductive Lookup
| first (header : Bytes) (answer : Option Bytes)
| next (header : Bytes) (answer : Option Bytes)
deriving DecidableEq, Repr

variable {α β : Type}

/-
  What a computation does from a session, with the lookups on
  the way, the latest first.  Between two lookups, what is
  read of a session and how it is changed is the same on any
  trail, and settings and files stay.
-/
inductive Looks :
    {α : Type} → Pre α → List Lookup → Session →
      EStateM.Result Failure Session α → Prop
| given {α : Type} (a : α) (s : Session) :
    Looks (pure a) [] s (.ok a s)
| failed {α : Type} (e : Failure) (s : Session) :
    Looks (throw e : Pre α) [] s (.error e s)
| read {α : Type}
    {f : Session → Pre α}
    {log : List Lookup}
    {s : Session}
    {r : EStateM.Result Failure Session α}
    (hBlind : ∀ s found nextDir, f (s.withTrail found nextDir) = f s)
    (hNext : Looks (f s) log s r) :
    Looks (get >>= f) log s r
| change
    {f : Session → Session}
    (hBlind : ∀ s found nextDir, f (s.withTrail found nextDir) =
        (f s).withTrail found nextDir)
    (hFiles : ∀ s, (f s).cfg = s.cfg ∧ (f s).store = s.store)
    (s : Session) :
    Looks (modify f : Pre PUnit) [] s (.ok () (f s))
| first
    {header : Bytes}
    {answer : Option Bytes}
    {s t : Session}
    (hRun : search header s = .ok answer t) :
    Looks (search header) [.first header answer] s
      (.ok answer t)
| next
    {header : Bytes}
    {answer : Option Bytes}
    {s t : Session}
    (hRun : searchNext header s = .ok answer t) :
    Looks (searchNext header) [.next header answer] s
      (.ok answer t)
| andThen {α β : Type}
    {x : Pre α}
    {f : α → Pre β}
    {log more : List Lookup}
    {a : α}
    {s t : Session}
    {r : EStateM.Result Failure Session β}
    (hFirst : Looks x log s (.ok a t))
    (hNext : Looks (f a) more t r) :
    Looks (x >>= f) (more ++ log) s r
| stopped {α β : Type}
    {x : Pre α}
    {log : List Lookup}
    {e : Failure}
    {s t : Session}
    (f : α → Pre β)
    (hFirst : Looks x log s (.error e t)) :
    Looks (x >>= f) log s (.error e t)
| fine {α : Type}
    {x : Pre α}
    {log : List Lookup}
    {a : α}
    {s t : Session}
    (handle : Failure → Pre α)
    (hFirst : Looks x log s (.ok a t)) :
    Looks (tryCatch x handle) log s (.ok a t)
| handled {α : Type}
    {x : Pre α}
    {handle : Failure → Pre α}
    {log more : List Lookup}
    {e : Failure}
    {s t : Session}
    {r : EStateM.Result Failure Session α}
    (hFirst : Looks x log s (.error e t))
    (hNext : Looks (handle e) more t r) :
    Looks (tryCatch x handle) (more ++ log) s r

variable {x : Pre α}

/- What is done is what the computation does. -/
theorem Looks.runs {log : List Lookup} {r : EStateM.Result Failure Session α}
    (hLooks : Looks x log s r) : x s = r := by
  induction hLooks with
  | given | failed | change => rfl
  | read _ _ ih => exact ih
  | first hRun | next hRun => exact hRun
  | andThen _ _ ihFirst ihNext => exact (bind_ok ihFirst).trans ihNext
  | stopped f _ ih => exact bind_error ih
  | fine handle _ ih =>
    change EStateM.tryCatch _ _ _ = _
    rw [EStateM.tryCatch, ih]
  | handled _ _ ihFirst ihNext =>
    change EStateM.tryCatch _ _ _ = _
    rw [EStateM.tryCatch, ihFirst]
    exact ihNext

/- A kind of lookups, of which more may follow. -/
structure Kind where
  holds : List Lookup → Prop
  nil : holds []
  append : ∀ {log more}, holds log → holds more → holds (more ++ log)

/- All lookups. -/
def Kind.any : Kind := ⟨fun _ => True, trivial, fun _ _ => trivial⟩

/- No lookups at all. -/
def Kind.none : Kind := ⟨(· = []), rfl, by rintro _ _ rfl rfl; rfl⟩

/- A computation of which the lookups can be told, and are of a kind. -/
def Tells (k : Kind) (x : Pre α) : Prop :=
  ∀ s, ∃ log, k.holds log ∧ Looks x log s (x s)

variable {k : Kind} {f : α → Pre β}

theorem tells_step (hLooks : ∀ s, Looks x [] s (x s)) : Tells k x :=
  fun s => ⟨[], k.nil, hLooks s⟩

theorem Tells.bind (hFirst : Tells k x) (hNext : ∀ a, Tells k (f a)) : Tells k (x >>= f) := by
  intro s
  rcases hFirst s with ⟨log, hKind, hX⟩
  cases hRun : x s with
  | ok a t =>
    rw [hRun] at hX
    rcases hNext a t with ⟨more, hMore, hF⟩
    rw [bind_ok hRun]
    exact ⟨more ++ log, k.append hKind hMore, .andThen hX hF⟩
  | error e t =>
    rw [hRun] at hX
    rw [bind_error hRun]
    exact ⟨log, hKind, .stopped f hX⟩

theorem Tells.tryCatch {handle : Failure → Pre α} (hFirst : Tells k x)
    (hHandle : ∀ e, Tells k (handle e)) : Tells k (tryCatch x handle) := by
  intro s
  rcases hFirst s with ⟨log, hKind, hX⟩
  cases hRun : x s with
  | ok a t =>
    rw [hRun] at hX
    have hLooks := Looks.fine handle hX
    exact ⟨log, hKind, by rwa [← hLooks.runs] at hLooks⟩
  | error e t =>
    rw [hRun] at hX
    rcases hHandle e t with ⟨more, hMore, hNext⟩
    have hLooks := Looks.handled hX hNext
    exact ⟨more ++ log, k.append hKind hMore, by rwa [← hLooks.runs] at hLooks⟩

/- The lookups can be told of what has no regard for where headers were found. -/
def telling (k : Kind) : Likeness where
  rel x y := x = y ∧ Tells k x
  given a := ⟨rfl, tells_step (.given a)⟩
  failed e := ⟨rfl, tells_step (.failed e)⟩
  andThen hFirst hNext :=
    ⟨by rw [hFirst.1, funext fun a => (hNext a).1], hFirst.2.bind fun a => (hNext a).2⟩
  read {_ f g} hNext := by
    have hSame : ∀ s, f s = g s := fun s =>
      (hNext s s.asked s.messages s.found s.nextDir).1
    refine ⟨congrArg (get >>= ·) (funext hSame), fun s => ?_⟩
    rcases (hNext s s.asked s.messages s.found s.nextDir).2 s with ⟨log, hKind, hLooks⟩
    refine ⟨log, hKind, .read (fun t found nextDir => ?_) hLooks⟩
    exact (hSame _).trans (hNext t t.asked t.messages found nextDir).1.symm
  change {f} hBlind hSources := by
    refine ⟨rfl, tells_step (.change (fun s found nextDir => ?_) fun s => ?_)⟩
    · have hOwn : f s = (f s).retold s.asked s.messages s.found s.nextDir := hBlind s _ _ _ _
      exact (hBlind s s.asked s.messages found nextDir).trans
        (congrArg (·.withTrail found nextDir) hOwn).symm
    · simpa [Session.sources] using And.intro (congrArg (·.1) (hSources s))
        (congrArg (·.2.1) (hSources s))
  said m := by
    refine ⟨rfl, ?_⟩
    unfold Pre.say
    split
    · exact tells_step (.given ())
    · exact tells_step (.change (fun _ _ _ => rfl) fun _ => ⟨rfl, rfl⟩)

open Likeness

theorem Tells.like (hTells : Tells k x) : Selfsame (telling k) x := ⟨rfl, hTells⟩

theorem tells_of_like [hLike : Selfsame (telling k) x] : Tells k x := hLike.rel.2

instance like_tryCatch {handle : Failure → Pre α} [Selfsame (telling k) x]
    [∀ e, Selfsame (telling k) (handle e)] :
    Selfsame (telling k) (tryCatch x handle) :=
  (tells_of_like.tryCatch fun _ => tells_of_like).like

variable {L : Likeness} {γ : Type}

theorem like_forM {f : γ → Pre PUnit} (hEach : ∀ c, Selfsame L (f c)) (xs : List γ) :
    Selfsame L (xs.forM f) := by
  induction xs with
  | nil => exact like_pure _
  | cons x xs ih => exact like_seq (hEach x) fun _ => ih

instance like_mapM {f : γ → Pre β} [hEach : ∀ c, Selfsame L (f c)] (xs : List γ) :
    Selfsame L (xs.mapM f) := by
  induction xs with
  | nil => exact like_pure _
  | cons x xs ih =>
    rw [List.mapM_cons]
    exact like_seq (hEach x) fun _ => like_seq ih fun _ => like_pure _

------------
-- Files
------------

open Pre

/- A change of what nothing is looked up in. -/
theorem like_other {f : Session → Session}
    (hBlind : ∀ s found nextDir, f (s.withTrail found nextDir) = (f s).withTrail found nextDir)
    (hFiles : ∀ s, (f s).cfg = s.cfg ∧ (f s).store = s.store) :
    Selfsame (telling k) (modify f : Pre PUnit) :=
  (tells_step (.change hBlind hFiles)).like

instance like_consult (path : Bytes) : Selfsame (telling k) (consult path) :=
  like_seq (like_other (fun _ _ _ => rfl) fun _ => ⟨rfl, rfl⟩) fun _ => inferInstance

instance like_fileExists (path : Bytes) : Selfsame (telling k) (fileExists path) := by
  unfold fileExists
  split <;> infer_instance

instance like_searchBeside (asking name : Bytes) :
    Selfsame (telling k) (searchBeside asking name) := by
  dsimp only [searchBeside]
  infer_instance

instance like_readStdin : Selfsame (telling k) readStdin :=
  like_look fun _ _ _ _ _ =>
    like_seq (like_other (fun _ _ _ => rfl) fun _ => ⟨rfl, rfl⟩) fun _ => inferInstance

instance like_read (path : Bytes) : Selfsame (telling k) (read path) := by
  unfold read
  split
  · split <;> infer_instance
  · infer_instance

instance like_tokenizeFile (path : Bytes) :
    Selfsame (telling k) (tokenizeFile path) := by
  refine like_step fun r => ?_
  split <;> infer_instance

instance like_noteGuard (path guard : Bytes) :
    Selfsame (telling k) (modify fun s => { s with guards := (path, guard) :: s.guards } : Pre PUnit) :=
  like_other (fun _ _ _ => rfl) fun _ => ⟨rfl, rfl⟩

instance like_includeFile (path : Bytes) (nameTok : Token) :
    Selfsame (telling k) (includeFile path nameTok) := by
  refine like_look fun s _ _ _ _ => like_choice inferInstance (like_choice inferInstance ?_)
  refine like_step fun r => ?_
  split
  · infer_instance
  · refine like_step fun ts => ?_
    dsimp only
    split <;> infer_instance

instance like_search (header : Bytes) : Selfsame (telling .any) (search header) := by
  refine Tells.like fun s => ?_
  have hRun : ∃ answer t, search header s = .ok answer t := by
    cases hAbsolute : PathName.isAbsolute header with
    | true => exact ⟨_, _, search_absolute hAbsolute⟩
    | false =>
      cases hLookup : s.found.lookup header with
      | some path => exact ⟨_, _, search_known hAbsolute hLookup⟩
      | none =>
        rcases search_fresh hAbsolute hLookup with ⟨asked, hRun⟩
        exact ⟨_, _, hRun⟩
  rcases hRun with ⟨answer, t, hRun⟩
  rw [hRun]
  exact ⟨_, trivial, .first hRun⟩

instance like_searchNext (header : Bytes) :
    Selfsame (telling .any) (searchNext header) := by
  refine Tells.like fun s => ?_
  rcases searchNext_run header s with ⟨asked, hRun⟩
  rw [hRun]
  exact ⟨_, trivial, .next hRun⟩

instance like_forceOne (name : Bytes) : Selfsame (telling .any) (forceOne name) := by
  refine like_step fun there =>
    like_choice (like_step fun path? => ?_) (like_step fun path? => ?_)
  all_goals
    cases path? with
    | none => exact like_throw _
    | some path =>
      refine like_step fun r => ?_
      cases r <;> dsimp only <;> infer_instance

instance like_force (names : List Bytes) (ts : List Token) :
    Selfsame (telling .any) (force names ts) := by
  unfold force
  induction names.reverse generalizing ts with
  | nil => exact like_pure _
  | cons name names ih =>
    rw [List.foldlM_cons]
    exact like_seq inferInstance fun us => ih us

end Include

open Include Likeness

------------
-- Whole Lists
------------

variable {expand : Expand} [∀ ts, Selfsame (telling .any) (expand ts)]

namespace Directive

instance like_include (hash : Token) (ts : List Token) :
    Selfsame (telling .any) (includeDirective expand hash ts) := by
  dsimp only [includeDirective]
  refine like_step fun r => like_choice (like_step fun beside? => ?_) (like_step fun beside? => ?_)
  all_goals
    split <;> infer_instance

instance like_includeNext (ts : List Token) :
    Selfsame (telling .any) (includeNext expand ts) := by
  dsimp only [includeNext]
  infer_instance

end Directive

namespace Expansion

instance like_step (p : Progress) : Selfsame (telling .any) (step expand p) := by
  unfold step
  split
  · infer_instance
  · refine like_choice inferInstance (Likeness.like_step fun found? => ?_)
    split
    · infer_instance
    · refine like_choice ?_ inferInstance
      refine like_seq ?_ fun _ => inferInstance
      exact Directive.like_run _ _ (fun _ => inferInstance) fun _ => inferInstance

instance like_repeatStep (n : Nat) (p : Progress) :
    Selfsame (telling .any) (repeatStep (step expand) n p) := by
  induction n generalizing p with
  | zero => exact like_throw _
  | succ n ih =>
    refine Likeness.like_step fun next => ?_
    split
    · exact ih _
    · infer_instance

/- Lists are expanded with lookups, however deep it goes. -/
instance like_expandAll (n : Nat) (ts : List Token) :
    Selfsame (telling .any) (expandAll n ts) := by
  induction n generalizing ts with
  | zero => exact like_throw _
  | succ n ih => exact like_repeatStep n _

end Expansion

------------
-- Whole Texts
------------

variable {k : Kind}

namespace StringRun

instance like_widen (l : LitType) (t : Token) : Selfsame (telling k) (widen l t) := by
  refine like_choice inferInstance ?_
  dsimp only
  split <;> infer_instance

instance like_merge (first : Token) (others : List Token) :
    Selfsame (telling k) (merge first others) := by
  dsimp only [merge]
  infer_instance

instance like_joinFrom (run : List Token) (done : Array Token) (ts : List Token) :
    Selfsame (telling k) (joinFrom run done ts) := by
  induction ts generalizing run done with
  | nil => exact like_pure _
  | cons t ts ih =>
    refine like_choice (ih _ _) ?_
    split
    · exact ih _ _
    · exact ih _ _
    · infer_instance

instance like_joinAll (ts : List Token) : Selfsame (telling k) (joinAll ts) := like_joinFrom _ _ _

end StringRun

namespace Preprocessor

instance like_define (name body : Bytes) : Selfsame (telling k) (define name body) := by
  refine Likeness.like_step fun f => Likeness.like_step fun ts => ?_
  exact like_modify (fun _ _ _ _ _ => rfl) fun _ => rfl

instance like_undef (name : Bytes) : Selfsame (telling k) (undef name) :=
  like_modify (fun _ _ _ _ _ => rfl) fun _ => rfl

instance like_definePredefined : Selfsame (telling k) definePredefined := by
  refine like_seq (like_forM ?_ _) fun _ => like_forM ?_ _
  · rintro ⟨name, body⟩
    exact like_define _ _
  · rintro ⟨name, b⟩
    exact like_modify (fun _ _ _ _ _ => rfl) fun _ => rfl

instance like_changeMacros (changes : List Definition) :
    Selfsame (telling k) (changeMacros changes) := by
  refine like_forM ?_ _
  rintro (⟨name, body⟩ | name)
  · exact like_define name body
  · exact like_undef name

instance like_load (name : Bytes) (src? : Option Bytes) :
    Selfsame (telling k) (load name src?) := by
  cases src? <;> dsimp only [load] <;> infer_instance

instance like_run (ts : List Token) : Selfsame (telling .any) (run ts) := by
  refine Likeness.like_step fun e => like_look fun s _ _ _ _ => ?_
  dsimp only
  split <;> infer_instance

/- All of preprocessing is changes that have no regard for lookups, and lookups. -/
instance like_process (name : Bytes) (src? : Option Bytes) (forced : List Bytes) :
    Selfsame (telling .any) (process name src? forced) := by
  dsimp only [process]
  infer_instance

end Preprocessor

end CCompiler
