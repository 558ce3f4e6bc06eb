import Mathlib
import CCompiler.Proofs.Preprocess.Lookups

/-
  Where `#include_next` goes on.

  One number stands for the place of the search.  What it is
  depends on all lookups so far: a header that is found for
  the first time leaves it behind its directory, a header that
  was found before does not move it, and `#include_next`
  leaves it at the directory in which it found its header.

  Main declarations:
    * `SearchPath.place`, `SearchPath.Answered`
    * `Include.Looks.remembers`
    * `Preprocessor.includeNext_goes_on`
    * `Preprocessor.includeNext_misses`
-/

------------
-- Places
------------

namespace CCompiler

open Include

/- Whether a header was looked up in all directories. -/
def Include.sought (header : Bytes) : List Lookup → Bool
| [] => false
| .first h _ :: log => h == header || sought header log
| .next _ _ :: log => sought header log

theorem Include.sought_append (header : Bytes) (later before : List Lookup) :
    sought header (later ++ before) = (sought header later || sought header before) := by
  induction later with
  | nil => rfl
  | cons lookup later ih =>
    cases lookup with
    | first h answer => rw [List.cons_append, sought, ih, sought, Bool.or_assoc]
    | next h answer => exact ih

namespace SearchPath

/- The number of the directory from which a search goes on after some lookups. -/
def place (w : SearchPath) : List Lookup → Nat
| [] => 0
| .first header _ :: log =>
  if PathName.isAbsolute header || sought header log then
    place w log
  else ((w.dir? 0 header).map (· + 1)).getD (place w log)
| .next header _ :: log =>
  (w.dir? (place w log) header).getD
    (max (place w log) w.dirs.length)

/-
  Every lookup finds the first match: in all directories, or
  in those from the place on to which the lookups before it
  have led.
-/
def Answered (w : SearchPath) : List Lookup → Prop
| [] => True
| .first header answer :: log =>
  answer = (if PathName.isAbsolute header then some header
    else w.path? 0 header) ∧ Answered w log
| .next header answer :: log =>
  answer = w.path? (w.place log) header ∧ Answered w log

/-
  Lookups, after those of another list, that do not move the
  search: of paths, of headers that were looked up before, and
  of headers that are in no directory.
-/
def idle (before : List Lookup) : List Lookup → Bool
| [] => true
| .first header answer :: log =>
  (PathName.isAbsolute header || sought header (log ++ before) ||
    answer.isNone) && idle before log
| .next _ _ :: _ => false

variable {w : SearchPath} {before log : List Lookup}

theorem Answered.of_append (hAnswered : w.Answered (log ++ before)) : w.Answered before := by
  induction log with
  | nil => exact hAnswered
  | cons lookup log ih =>
    cases lookup with
    | first | next => exact ih hAnswered.2

/- Idle lookups leave the place of the search. -/
theorem place_idle (hIdle : idle before log = true) (hAnswered : w.Answered (log ++ before)) :
    w.place (log ++ before) = w.place before := by
  induction log with
  | nil => rfl
  | cons lookup log ih =>
    cases lookup with
    | next => cases hIdle
    | first header answer =>
      rw [idle, Bool.and_eq_true] at hIdle
      rcases hAnswered with ⟨hAnswer, hRest⟩
      rw [List.cons_append, place, ih hIdle.2 hRest]
      split
      · rfl
      · rename_i hFresh
        rw [Bool.not_eq_true] at hFresh
        have hNone : answer = none := by simpa [hFresh] using hIdle.1
        rw [Bool.or_eq_false_iff] at hFresh
        rw [if_neg (by simp [hFresh.1]), hNone] at hAnswer
        rw [(w.path?_eq_none_iff 0 header).mp hAnswer.symm]
        rfl

/-
  A search goes on where the last lookup left it that is not
  idle: one of a header that was new, or of a next one.
-/
theorem exists_mover (log : List Lookup) :
    ∃ later before, log = later ++ before ∧ idle before later = true ∧
      (before = [] ∨ (∃ header path more, before = .first header (some path) :: more ∧
            PathName.isAbsolute header = false ∧ sought header more = false) ∨
        ∃ header answer more, before = .next header answer :: more) := by
  induction log with
  | nil => exact ⟨[], [], rfl, rfl, .inl rfl⟩
  | cons lookup log ih =>
    cases lookup with
    | next header answer => exact ⟨[], _, rfl, rfl, .inr (.inr ⟨header, answer, log, rfl⟩)⟩
    | first header answer =>
      cases hIdle : PathName.isAbsolute header || sought header log || answer.isNone with
      | true =>
        rcases ih with ⟨later, before, rfl, hLater, hBefore⟩
        refine ⟨.first header answer :: later, before, rfl, ?_, hBefore⟩
        rw [idle, hIdle, hLater]
        rfl
      | false =>
        simp only [Bool.or_eq_false_iff, Option.isNone_eq_false_iff,
          Option.isSome_iff_exists] at hIdle
        obtain ⟨⟨hRelative, hNew⟩, path, rfl⟩ := hIdle
        exact ⟨[], _, rfl, rfl, .inr (.inl ⟨header, path, log, rfl, hRelative, hNew⟩)⟩

/- The directory with a number has the header. -/
theorem exists_dir {header path : Bytes} {start : Nat} (hPath : w.path? start header = some path) :
    ∃ i dir, w.dir? start header = some i ∧
      w.dirs[i]? = some dir ∧ path = inDirectory dir header := by
  rcases Option.map_eq_some_iff.mp hPath with ⟨dir, hFind, rfl⟩
  rcases List.find?_eq_some_iff_getElem.mp hFind with
    ⟨hHas, k, hk, hAt, hBefore⟩
  have hIndex : (w.dirs.drop start).findIdx? (w.has header) = some k :=
    List.findIdx?_eq_some_iff_getElem.mpr
      ⟨hk, by rwa [hAt], fun j hj => by simpa using hBefore j hj⟩
  refine ⟨start + k, dir, by rw [dir?, hIndex]; rfl, ?_, rfl⟩
  rw [← List.getElem?_drop, List.getElem?_eq_getElem hk, hAt]

end SearchPath

------------
-- Sessions
------------

/- What a session has left of the lookups so far. -/
structure Session.Remembers
    (w : SearchPath)
    (log : List Lookup)
    (s : Session) : Prop where
  searchPath : s.searchPath = w
  found : ∀ header, PathName.isAbsolute header = false → s.found.lookup header =
      if sought header log then w.path? 0 header else none
  nextDir : s.nextDir = w.place log
  answered : w.Answered log

namespace Include

variable {w : SearchPath} {log before : List Lookup}
  {header : Bytes} {answer : Option Bytes} {s t : Session}

/- A header is entered where it was found. -/
theorem lookup_fresh {found : List (Bytes × Bytes)} (hFresh : found.lookup header = none)
    (hFound : ∀ other, PathName.isAbsolute other = false → found.lookup other =
        if sought other log then w.path? 0 other else none) (other : Bytes)
    (hRelative : PathName.isAbsolute other = false) :
    (((w.path? 0 header).map (header, ·)).toList ++ found).lookup other =
      if sought other (.first header answer :: log) then
        w.path? 0 other
      else none := by
  have hOld := hFound other hRelative
  by_cases hSame : header = other
  · subst hSame
    rw [sought, beq_self_eq_true, Bool.true_or, if_pos rfl]
    cases hPath : w.path? 0 header with
    | none => exact hFresh
    | some path => exact List.lookup_cons_self
  · have hOther : (header == other) = false := beq_eq_false_iff_ne.mpr hSame
    rw [sought, hOther, Bool.false_or, ← hOld]
    cases w.path? 0 header with
    | none => rfl
    | some path =>
      change List.lookup other ((header, path) :: found) = _
      rw [List.lookup_cons, beq_eq_false_iff_ne.mpr (Ne.symm hSame)]

/- One lookup finds what the lookups before it lead to. -/
theorem remembers_search (hBefore : s.Remembers w log) (hRun : search header s = .ok answer t) :
    t.Remembers w (.first header answer :: log) := by
  obtain ⟨rfl, hFound, hDir, hAnswered⟩ := hBefore
  cases hAbsolute : PathName.isAbsolute header with
  | true =>
    rw [search_absolute hAbsolute] at hRun
    cases hRun
    refine ⟨rfl, fun other hRelative => ?_, ?_, ?_, hAnswered⟩
    · have hOther : (header == other) = false := by
        rw [beq_eq_false_iff_ne]
        rintro rfl
        rw [hAbsolute] at hRelative
        cases hRelative
      rw [sought, hOther, Bool.false_or]
      exact hFound other hRelative
    · rw [SearchPath.place, if_pos (by simp [hAbsolute])]
      exact hDir
    · rw [if_pos hAbsolute]
  | false =>
    have hHeader := hFound header hAbsolute
    cases hLookup : s.found.lookup header with
    | some path =>
      rw [search_known hAbsolute hLookup] at hRun
      cases hRun
      rw [hLookup] at hHeader
      have hSought : sought header log = true := by
        cases hSought : sought header log with
        | true => rfl
        | false =>
          rw [hSought] at hHeader
          cases hHeader
      rw [if_pos hSought] at hHeader
      refine ⟨rfl, fun other hRelative => ?_, ?_, ?_, hAnswered⟩
      · rw [hFound other hRelative, sought]
        by_cases hSame : header = other
        · rw [← hSame, hSought, Bool.or_true]
        · rw [beq_eq_false_iff_ne.mpr hSame, Bool.false_or]
      · rw [SearchPath.place, if_pos (by simp [hSought])]
        exact hDir
      · rw [if_neg (by simp [hAbsolute])]
        exact hHeader
    | none =>
      rcases search_fresh hAbsolute hLookup with
        ⟨wanted, hFresh⟩
      rw [hFresh] at hRun
      cases hRun
      rw [hLookup] at hHeader
      refine ⟨rfl, fun other hRelative => ?_, ?_, ?_, hAnswered⟩
      · exact lookup_fresh hLookup hFound other hRelative
      · cases hSought : sought header log with
        | false =>
          rw [SearchPath.place, if_neg (by simp [hAbsolute, hSought]), ← hDir]
          rfl
        | true =>
          rw [if_pos hSought] at hHeader
          rw [SearchPath.place, if_pos (by simp [hSought]), ← hDir]
          change ((s.searchPath.dir? 0 header).map _).getD s.nextDir = _
          rw [(s.searchPath.path?_eq_none_iff 0 header).mp hHeader.symm]
          rfl
      · rw [if_neg (by simp [hAbsolute])]

theorem remembers_searchNext (hBefore : s.Remembers w log)
    (hRun : searchNext header s = .ok answer t) : t.Remembers w (.next header answer :: log) := by
  obtain ⟨rfl, hFound, hDir, hAnswered⟩ := hBefore
  rcases searchNext_run header s with ⟨wanted, hNext⟩
  rw [hNext] at hRun
  cases hRun
  refine ⟨rfl, hFound, ?_, ?_, hAnswered⟩
  · rw [SearchPath.place, ← hDir]
    rfl
  · rw [← hDir]

/- The session that a computation leaves. -/
def leaves {α : Type} :
    EStateM.Result Failure Session α → Session
| .ok _ s => s
| .error _ s => s

/- A change that has no regard for lookups leaves what they left. -/
theorem remembers_change {f : Session → Session}
    (hBlind : ∀ s found nextDir, f (s.withTrail found nextDir) =
        (f s).withTrail found nextDir) (hFiles : ∀ s, (f s).cfg = s.cfg ∧ (f s).store = s.store)
    (hBefore : s.Remembers w log) : (f s).Remembers w log := by
  obtain ⟨rfl, hFound, hDir, hAnswered⟩ := hBefore
  have hSame : f s = (f s).withTrail s.found s.nextDir := hBlind s s.found s.nextDir
  obtain ⟨hCfg, hStore⟩ := hFiles s
  have hPath : (f s).searchPath = s.searchPath := by
    unfold Session.searchPath
    rw [hCfg, hStore]
  refine ⟨hPath, ?_, ?_, hAnswered⟩
  · rw [hSame]
    exact hFound
  · rw [hSame]
    exact hDir

/- All lookups of a computation find what those before them lead to. -/
theorem Looks.remembers {α : Type} {x : Pre α} {r : EStateM.Result Failure Session α}
    (hLooks : Looks x log s r) (hBefore : s.Remembers w before) :
    (leaves r).Remembers w (log ++ before) := by
  induction hLooks generalizing before with
  | given | failed => exact hBefore
  | read _ _ ih => exact ih hBefore
  | change hBlind hFiles => exact remembers_change hBlind hFiles hBefore
  | first hRun => exact remembers_search hBefore hRun
  | next hRun => exact remembers_searchNext hBefore hRun
  | stopped _ _ ih | fine _ _ ih => exact ih hBefore
  | andThen _ _ ihFirst ihNext | handled _ _ ihFirst ihNext =>
    rw [List.append_assoc]
    exact ihNext (ihFirst hBefore)

end Include

------------
-- Whole Texts
------------

namespace Preprocessor

/- Nothing has been looked up when a session starts. -/
theorem remembers_start (cfg : Config) (store : FileStore) (stdin baseFile : Bytes) :
    (start cfg store stdin baseFile).Remembers
      (Session.searchPath { cfg := cfg, store := store }) [] := by
  have hFresh : ({
      cfg := cfg
      store := store
      stdin := stdin
      baseFile := baseFile } : Session).Remembers
      (Session.searchPath { cfg := cfg, store := store }) [] :=
    ⟨rfl, fun _ _ => rfl, rfl, trivial⟩
  obtain ⟨log, rfl, hLooks⟩ := (tells_of_like (k := .none) (x := definePredefined)) _
  have hDefined := hLooks.remembers hFresh
  unfold start EStateM.run
  simp only
  cases hRun : definePredefined _ <;>
  · rw [hRun] at hDefined
    exact hDefined

/-
  The lookups in the course of preprocessing a text.  Every
  `#include_next` finds the first match in the directories
  from the place on to which the lookups before it lead.  If
  the last header that was new is the one that holds the
  directive, these are the directories behind its own.
-/
theorem includeNext_goes_on (cfg : Config) (store : FileStore) (stdin baseFile name : Bytes)
    (changes : List Definition) (src? : Option Bytes) (forced : List Bytes) :
    let s := start cfg store stdin baseFile
    let w := Session.searchPath { cfg := cfg, store := store }
    let x := changeMacros changes >>= fun _ => process name src? forced
    (∃ log, Looks x log s (x s)) ∧ ∀ log r, Looks x log s r → w.Answered log ∧
      ∀ later header answer idle outer path before, log = later ++ .next header answer ::
            (idle ++ .first outer (some path) :: before) →
          PathName.isAbsolute outer = false → sought outer before = false →
          SearchPath.idle (.first outer (some path) :: before)
            idle = true → ∃ i dir, w.dir? 0 outer = some i ∧
            w.dirs[i]? = some dir ∧ path = inDirectory dir outer ∧
            answer = w.path? (i + 1) header := by
  intro s w x
  refine ⟨?_, fun log r hLooks => ?_⟩
  · obtain ⟨log, -, hLooks⟩ := (tells_of_like (k := .any) (x := x)) s
    exact ⟨log, hLooks⟩
  have hAll := (hLooks.remembers (remembers_start cfg store stdin baseFile)).answered
  rw [List.append_nil] at hAll
  refine ⟨hAll, ?_⟩
  rintro later header answer idle outer path before rfl hRelative hNew hIdle
  obtain ⟨hAnswer, hRest⟩ := hAll.of_append
  obtain ⟨hPath, -⟩ := hRest.of_append
  rw [if_neg (by simp [hRelative])] at hPath
  rcases SearchPath.exists_dir hPath.symm with
    ⟨i, dir, hDir, hListed, hFile⟩
  refine ⟨i, dir, hDir, hListed, hFile, ?_⟩
  rw [hAnswer, SearchPath.place_idle hIdle hRest,
    SearchPath.place, if_neg (by simp [hRelative, hNew]), hDir]
  rfl

/- Settings with three directories. -/
def threeDirs : Config :=
  { includePaths := [ascii "a", ascii "b", ascii "c"] }

/- A header in the first and the last of them, and one in the last. -/
def threeFiles : FileStore :=
  FileStore.ofEntries
    [(ascii "a/x.h", ascii "first\n#include_next <x.h>\n"),
      (ascii "c/x.h", ascii "second\n"), (ascii "c/y.h", ascii "y\n")]

/- Where these files are searched. -/
def threePath : SearchPath :=
  Session.searchPath { cfg := threeDirs, store := threeFiles }

/- What preprocessing a text does with these files. -/
def processed (text : String) :
    EStateM.Result Failure Session (List Token) :=
  (changeMacros [] >>= fun _ =>
    process (ascii "m.c") (some (ascii text)) [])
    (start threeDirs threeFiles [] [])

/- What a text comes to when it is printed. -/
def printed? (text : String) : Option Bytes :=
  match processed text with
  | .ok ts _ => some (Output.source ts)
  | .error _ _ => none

/- What is the matter with a text, in which file, and on which line. -/
def trouble? (text : String) : Option (Fault × Bytes × Int) :=
  match processed text with
  | .error (.fault cause place) _ =>
    some (cause, place.filename, place.line)
  | _ => none

/- A header that includes its namesake in a later directory. -/
theorem includeNext_goes_on_behind :
    ∃ log r, Looks (changeMacros [] >>= fun _ =>
        process (ascii "m.c") (some (ascii "#include <x.h>\n")) [])
        log (start threeDirs threeFiles [] []) r ∧
      ∃ later header answer earlier, log = later ++ .next header answer :: earlier ∧
        threePath.place log = 2 ∧
        answer = threePath.path? (threePath.place earlier)
          header := by
  obtain ⟨⟨log, hLooks⟩, hAll⟩ := includeNext_goes_on threeDirs threeFiles [] [] (ascii "m.c") []
    (some (ascii "#include <x.h>\n")) []
  have hAnswered := (hAll log _ hLooks).1
  refine ⟨log, _, hLooks, ?_⟩
  have hLeft := hLooks.remembers (remembers_start threeDirs threeFiles [] [])
  rw [List.append_nil] at hLeft
  have hDir : (leaves (processed "#include <x.h>\n")).nextDir =
      2 := by
    decide +kernel
  have hFound : (leaves (processed "#include <x.h>\n")).found = [(ascii "x.h", ascii "a/x.h")] := by
    decide +kernel
  have hPlace : threePath.place log = 2 := hLeft.nextDir.symm.trans hDir
  rcases SearchPath.exists_mover log with
    ⟨later, before, rfl, hIdle, hBefore⟩
  have hSame : threePath.place before = 2 :=
    (SearchPath.place_idle hIdle hAnswered).symm.trans hPlace
  rcases hBefore with rfl | ⟨header, path, more, rfl, hRelative, hNew⟩ | ⟨header, answer, more, rfl⟩
  · cases hSame
  · -- the only header that was new is in the first directory
    have hHeader := hLeft.found header hRelative
    obtain ⟨hPath, -⟩ := hAnswered.of_append
    rw [if_neg (by simp [hRelative])] at hPath
    have hSought : sought header (later ++ .first header (some path) :: more) = true := by
      rw [sought_append, sought, beq_self_eq_true, Bool.true_or, Bool.or_true]
    change (leaves (processed "#include <x.h>\n")).found.lookup header = _ at hHeader
    rw [if_pos hSought, ← hPath, hFound, List.lookup_cons] at hHeader
    split at hHeader
    · rename_i hOnly
      rw [SearchPath.place, if_neg (by simp [hRelative, hNew]), beq_iff_eq.mp hOnly] at hSame
      have hFirst : threePath.dir? 0 (ascii "x.h") = some 0 := by decide +kernel
      rw [hFirst] at hSame
      cases hSame
    · cases hHeader
  · exact ⟨later, header, answer, more, rfl, hPlace, hAnswered.of_append.1⟩

/-
  A header that was found before does not move the search: in
  between, it was moved behind the directory of another one.
-/
theorem includeNext_misses :
    threePath.path? 1 (ascii "x.h") = some (ascii "c/x.h") ∧
    printed? "#include <x.h>\n#include <y.h>\n" = some (ascii "first\nsecond\ny\n") ∧
    trouble? "#include <x.h>\n#include <y.h>\n#include <x.h>\n" =
      some (.cannotOpen (ascii "x.h") FileReason.missing.message,
        ascii "a/x.h", 2) := by refine ⟨?_, ?_, ?_⟩ <;> decide +kernel

end Preprocessor

end CCompiler
