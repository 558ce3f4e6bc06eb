import CCompiler.CommandLine.Flag
import CCompiler.Config

/-
  This file offers the features and warning groups of the
  settings as families of command-line switches.

  Key definitions include:
    * `Config.addFlagGroups`
    * `Config.rejectFlag`
    * `Config.applyCalls`
-/

namespace CCompiler

namespace Config

/- Entries in the order of their names. -/
def sortedEntries (entries : List GroupEntry) : List GroupEntry :=
  entries.mergeSort fun a b => !b.name.lt a.name

/- The family of feature switches. -/
def featureGroup (c : Config) : FlagGroup :=
  { title := ascii "Feature Flags"
    letters := ascii "f"
    noun := ascii "feature"
    header := ascii "Available Features:"
    entries := sortedEntries (Feature.all.map fun f => ⟨f.name, f.description, c.hasFeature f⟩) }

/- The family of warning switches. -/
def warningGroup (c : Config) : FlagGroup :=
  let all : GroupEntry :=
    { name := ascii "all", usage := ascii "Enable every warning except pedantic ones." }
  { title := ascii "Warning Flags"
    letters := ascii "W"
    noun := ascii "warning"
    header := ascii "Available Warnings:"
    entries := sortedEntries
      (Warning.all.map (fun w => ⟨w.name, w.description, c.hasWarning w⟩) ++ [all]) }

/- Add both families to a set of flags. -/
def addFlagGroups (c : Config) (s : FlagSet) : Except RegisterFault FlagSet := do
  let s ← s.addGroup c.featureGroup
  s.addGroup c.warningGroup

/- Why a switch of a family is refused, if it is. -/
def rejectFlag (c : Config) (letters value : Bytes) : Option Bytes :=
  match c.applyFlag (ascii "-" ++ letters ++ value) with
  | .ok _ => none
  | .error f => some f.message

/- The settings after the switches of both families, in the order they were given. -/
def applyCalls (c : Config) (calls : List (Bytes × Bytes)) : Config :=
  calls.foldl (fun c (name, value) =>
    if name == ascii "f" || name == ascii "W" then
      (c.applyFlag (ascii "-" ++ name ++ value)).toOption.getD c
    else c) c

end Config

end CCompiler
