import CCompiler.Source.PathName

/-
  This file models the files that a compilation can see.
  Looking up a path walks its parts, each of which must be a
  directory.

  Key definitions include:
    * `FileStore`, `FileStore.ofEntries`
    * `FileStore.find`
    * `FileStore.read`, `FileStore.write`
    * `FileStore.changes`
-/

namespace CCompiler

------------
-- Reasons
------------

/- Why a file could not be used. -/
inductive FileReason
| missing
| notDirectory
| isDirectory
| nameTooLong
| invalidName
| noSuchHeader
deriving DecidableEq, Repr

/- The wording of a reason. -/
def FileReason.message : FileReason → Bytes
| .missing => ascii "no such file or directory"
| .notDirectory => ascii "not a directory"
| .isDirectory => ascii "is a directory"
| .nameTooLong => ascii "file name too long"
| .invalidName => ascii "invalid argument"
| .noSuchHeader => ascii "file does not exist"

/- A refused access: what was tried, on which path, and why it failed. -/
structure FileFault where
  action : Bytes
  path : Bytes
  reason : FileReason
deriving DecidableEq, Repr

/- The wording of a refused access. -/
def FileFault.message (f : FileFault) : Bytes :=
  f.action ++ ascii " " ++ f.path ++ ascii ": " ++ f.reason.message

------------
-- Stores
------------

/- What a path leads to. -/
inductive FileEntry
| file (contents : Bytes)
| directory
deriving DecidableEq, Repr

/-
  A place: the parts of a path from the working directory, or
  from the root if the first of them is a slash.
-/
abbrev FilePlace := List Bytes

namespace FilePlace

/- The root. -/
def root : FilePlace :=
  [[PathName.slash]]

/- Whether a place is the root, the working directory, or a directory around that. -/
def isAround (place : FilePlace) : Bool :=
  place == root || place.all (· == ascii "..")

/- The place that a part leads to from a directory. -/
def step (place : FilePlace) (part : Bytes) : FilePlace :=
  if part.isEmpty || part == ascii "." then place
  else if part != ascii ".." then place ++ [part]
  else if place == root then root
  else if place.isAround then place ++ [part]
  else place.dropLast

/- The path of a place. -/
def path (place : FilePlace) : Bytes :=
  match place with
  | [] => ascii "."
  | first :: rest =>
    if [first] == root then PathName.slash :: Bytes.join [PathName.slash] rest
    else Bytes.join [PathName.slash] place

end FilePlace

/- The entries that are known, by their places. -/
structure FileStore where
  entries : List (FilePlace × FileEntry) := []
deriving Repr

namespace FileStore

/- The entry at a place. -/
def entry? (s : FileStore) (place : FilePlace) : Option FileEntry :=
  if place.isAround then some .directory else s.entries.lookup place

/- Put an entry in the place of another one. -/
def put (s : FileStore) (ps : FilePlace) (e : FileEntry) : FileStore :=
  ⟨(ps, e) :: s.entries.filter (·.1 != ps)⟩

/- Add the directories on the way to a place. -/
def addDirectories (s : FileStore) (ps : FilePlace) : FileStore :=
  (List.range ps.length).foldl (fun s n =>
    let dir := ps.take n
    if (s.entry? dir).isSome then s else s.put dir .directory) s

/- The parts of a path that do not stand still. -/
def steps (path : Bytes) : List Bytes :=
  (PathName.parts path).filter fun p => !p.isEmpty && p != ascii "."

/- Add a file with the directories on the way; a path that ends with a slash is a directory. -/
def add (s : FileStore) (path contents : Bytes) : FileStore :=
  let ps := steps path
  let s := s.addDirectories ps
  if path.getLast? == some PathName.slash then s.put ps .directory
  else s.put ps (.file contents)

/- A store with the given files. -/
def ofEntries (files : List (Bytes × Bytes)) : FileStore :=
  files.foldl (fun s (p, c) => s.add p c) {}

------------
-- Look-up
------------

/-
  Walk parts from a place.  The last place is returned even
  if nothing is there yet, as long as its directory exists.
-/
def walk (s : FileStore) : FilePlace → List Bytes → Except FileReason FilePlace
| place, [] => .ok place
| place, p :: ps =>
  match s.entry? place with
  | none => .error .missing
  | some (.file _) => .error .notDirectory
  | some .directory =>
    if p.length > 255 then .error .nameTooLong else walk s (place.step p) ps

/- The first place on the way that parts lead which is not a directory, or the last one. -/
def frontier (s : FileStore) : FilePlace → List Bytes → FilePlace
| place, [] => place
| place, p :: ps =>
  match s.entry? place with
  | some .directory => frontier s (place.step p) ps
  | _ => place

/- The place that a path starts from. -/
def origin (path : Bytes) : FilePlace :=
  if PathName.isAbsolute path then FilePlace.root else []

/- The place that a path names. -/
def resolve (s : FileStore) (path : Bytes) : Except FileReason FilePlace :=
  if path.contains 0 then .error .invalidName
  else if path.isEmpty then .error .missing
  else walk s (origin path) (PathName.parts path)

/- A place that has to be known before a path can be looked up, if there is one. -/
def unknown? (s : FileStore) (path : Bytes) : Option FilePlace :=
  let place := s.frontier (origin path) (PathName.parts path)
  if (s.entry? place).isSome then none else some place

/- The entry that a path names. -/
def find (s : FileStore) (path : Bytes) : Except FileReason FileEntry := do
  match s.entry? (← resolve s path) with
  | some e => .ok e
  | none => .error .missing

/- Whether a path names an entry. -/
def exists? (s : FileStore) (path : Bytes) : Bool :=
  match s.find path with
  | .ok _ => true
  | .error _ => false

/- The contents of a file. -/
def read (s : FileStore) (path : Bytes) : Except FileFault Bytes :=
  match s.find path with
  | .ok (.file contents) => .ok contents
  | .ok .directory => .error ⟨ascii "read", path, .isDirectory⟩
  | .error r => .error ⟨ascii "open", path, r⟩

/- A path without the slashes at its end. -/
def trimSlashes (path : Bytes) : Bytes :=
  (path.reverse.dropWhile (· == PathName.slash)).reverse

/-
  Make a file, or replace its contents.  A path that ends with
  a slash can only name a directory.
-/
def write (s : FileStore) (path contents : Bytes) : Except FileFault FileStore :=
  let refuse (r : FileReason) : Except FileFault FileStore := .error ⟨ascii "open", path, r⟩
  match s.resolve (trimSlashes path) with
  | .error r => refuse r
  | .ok place =>
    if path.getLast? == some PathName.slash then refuse .isDirectory
    else
      match s.entry? place with
      | some .directory => refuse .isDirectory
      | _ => .ok (s.put place (.file contents))

/- The files that are new in a store, or have new contents, since an earlier state of it. -/
def changes (s earlier : FileStore) : List (Bytes × Bytes) :=
  s.entries.filterMap fun (place, e) =>
    match e with
    | .directory => none
    | .file contents =>
      if earlier.entry? place == some e then none else some (place.path, contents)

end FileStore

end CCompiler
