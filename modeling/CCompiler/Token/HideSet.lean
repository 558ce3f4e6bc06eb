import CCompiler.Text.Bytes

/-
  This file defines hide sets: the macro names that a token
  may not be replaced by again.  A hide set is kept in the
  order in which names were added, with repetitions.

  Key definitions include:
    * `HideSet`
    * `HideSet.union`
    * `HideSet.inter`
-/

namespace CCompiler

/- The names hidden in a token. -/
abbrev HideSet := List Bytes

namespace HideSet

/- The hide set of one name. -/
def single (name : Bytes) : HideSet :=
  [name]

/- All names of the first set, then all names of the second. -/
def union (a b : HideSet) : HideSet :=
  a ++ b

/- The names of the first set that the second one has too. -/
def inter (a b : HideSet) : HideSet :=
  a.filter b.contains

end HideSet

end CCompiler
