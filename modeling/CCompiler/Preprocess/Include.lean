import CCompiler.Preprocess.Conditional
import CCompiler.Preprocess.Header

/-
  This file finds and reads source files: in the directories
  that are searched, beside the file that asks, or among the
  headers that come with the compiler.

  Key definitions include:
    * `Include.read`
    * `Include.search`, `Include.searchNext`, `Include.searchBeside`
    * `Include.includeFile`
    * `Include.force`
-/

namespace CCompiler

namespace Include

open Pre

------------
-- Files
------------

/- The directory of the headers that come with the compiler. -/
def builtinDir : Bytes :=
  ascii "<chibicc>/include"

/- The name of a builtin header, if a path names one. -/
def builtinName? (path : Bytes) : Option Bytes :=
  Bytes.dropPrefix? (builtinDir ++ ascii "/") path

/- The store, in which a path is about to be looked up. -/
def consult (path : Bytes) : Pre FileStore := do
  modify fun s => { s with asked := s.asked.push path }
  return (← get).store

/- Whether a path names a file, a directory or a builtin header. -/
def fileExists (path : Bytes) : Pre Bool := do
  match builtinName? path with
  | some name => return (Header.find? name).isSome
  | none => return (← consult path).exists? path

/- All of the standard input that is left. -/
def readStdin : Pre Bytes := do
  let text := (← get).stdin
  modify fun s => { s with stdin := [] }
  return text

/- The text of a file; a dash stands for the standard input. -/
def read (path : Bytes) : Pre (Except FileFault Bytes) := do
  match builtinName? path with
  | some name =>
    match Header.find? name with
    | some text => return .ok text
    | none => return .error ⟨ascii "open", ascii "include/" ++ name, .noSuchHeader⟩
  | none =>
    let store ← consult path
    if path == ascii "-" then return .ok (← readStdin) else return store.read path

/- The tokens of a file. -/
def tokenizeFile (path : Bytes) : Pre (List Token) := do
  match ← read path with
  | .ok text => tokenizeSource path text
  | .error f => throw (.plain f.message)

------------
-- Search
------------

/- The directories that are searched, in order. -/
def searchPaths (cfg : Config) : List Bytes :=
  cfg.includePaths ++ [builtinDir] ++ cfg.systemPaths ++ cfg.afterPaths

/- The path of a name in a directory. -/
def inDirectory (dir name : Bytes) : Bytes :=
  dir ++ ascii "/" ++ name

/- The first directory from a number on that has a file of a name. -/
def firstWith (name : Bytes) : Nat → List Bytes → Pre (Option (Nat × Bytes))
| _, [] => return none
| i, dir :: dirs => do
  let path := inDirectory dir name
  if ← fileExists path then return some (i, path) else firstWith name (i + 1) dirs

/- The path of a header, or nothing.  Where a name was found once, it is found again. -/
def search (name : Bytes) : Pre (Option Bytes) := do
  if PathName.isAbsolute name then return some name
  match (← get).found.lookup name with
  | some path => return some path
  | none =>
    match ← firstWith name 0 (searchPaths (← get).cfg) with
    | some (i, path) =>
      modify fun s => { s with found := (name, path) :: s.found, nextDir := i + 1 }
      return some path
    | none => return none

/- The path of a header in the directories from the present one on. -/
def searchNext (name : Bytes) : Pre (Option Bytes) := do
  let dirs := searchPaths (← get).cfg
  let start := (← get).nextDir
  match ← firstWith name start (dirs.drop start) with
  | some (i, path) =>
    modify fun s => { s with nextDir := i }
    return some path
  | none =>
    modify fun s => { s with nextDir := max start dirs.length }
    return none

/- The path of a name beside the file that asks for it, if a file is there. -/
def searchBeside (asking name : Bytes) : Pre (Option Bytes) := do
  let path :=
    if PathName.isAbsolute name then name
    else if (builtinName? asking).isSome then inDirectory builtinDir name
    else inDirectory (PathName.directory asking) name
  if ← fileExists path then return some path else return none

------------
-- Inclusion
------------

/- The tokens of a list before its end. -/
def beforeEof (ts : List Token) : List Token :=
  ts.takeWhile (!·.isEof)

/-
  The tokens of an included file.  A file that is to be read
  only once, or whose guard is still defined, gives none.
-/
def includeFile (path : Bytes) (nameTok : Token) : Pre (List Token) := do
  let s ← get
  if s.once.contains path then return []
  if ((s.guards.lookup path).map s.macros.contains).getD false then return []
  match ← read path with
  | .error f => fail nameTok (.cannotOpen path f.reason.message)
  | .ok text =>
    let ts ← tokenizeSource path text
    if let some g := Conditional.guard? ts then
      modify fun s => { s with guards := (path, g) :: s.guards }
    return beforeEof ts

/- Put a failure to read a file that was asked for from outside into words. -/
def forceFailure (path : Bytes) : Failure → Failure
| .fault cause place => .wrapped (path ++ ascii ": cannot open file: ") cause place
| f => f

/- The tokens of one file that is put before the text. -/
def forceOne (name : Bytes) : Pre (List Token) := do
  let path? ← if ← fileExists name then pure (some name) else search name
  match path? with
  | none => throw (.plain (name ++ ascii ": cannot open file: " ++ FileReason.missing.message))
  | some path =>
    match ← read path with
    | .error f => throw (.plain (path ++ ascii ": cannot open file: " ++ f.reason.message))
    | .ok text =>
      tryCatch (tokenizeSource path text) fun f => throw (forceFailure path f)

/- Put files before the tokens of a text; the last one is read first. -/
def force (names : List Bytes) (ts : List Token) : Pre (List Token) :=
  names.reverse.foldlM (fun ts name => do
    return beforeEof (← forceOne name) ++ ts) ts

end Include

end CCompiler
