import CCompiler.Preprocess.Session

/-
  This file finds the way through conditional sections: past
  a group that is left out, and around a whole file that is
  one section under an include guard.

  Key definitions include:
    * `Conditional.isHash`, `Conditional.opens`
    * `Conditional.skipGroup`
    * `Conditional.guard?`
-/

namespace CCompiler

namespace Conditional

/- Whether a token starts a directive. -/
def isHash (t : Token) : Bool :=
  t.atLineStart && t.is "#"

/- Whether a directive of this name opens a conditional section. -/
def opens (name : Token) : Bool :=
  name.is "if" || name.is "ifdef" || name.is "ifndef"

/- Whether a directive of this name ends a group. -/
def endsGroup (name : Token) : Bool :=
  name.is "elif" || name.is "else" || name.is "endif"

/-
  Skip to the directive that ends the present group.  Whole
  sections inside it are passed over; `level` counts those
  that are open.
-/
def skipGroup : Nat → List Token → List Token
| level, h :: name :: rest =>
  if h.isEof then h :: name :: rest
  else if isHash h && opens name then skipGroup (level + 1) rest
  else if isHash h && level == 0 && endsGroup name then h :: name :: rest
  else if isHash h && level > 0 && name.is "endif" then skipGroup (level - 1) rest
  else skipGroup level (name :: rest)
| _, ts => ts

/-
  Whether the section that is open ends with the last line of
  the file.
-/
def closesAtEnd : Nat → List Token → Bool
| level, h :: name :: rest =>
  if h.isEof then false
  else if isHash h && level == 0 && name.is "endif" && ((rest.head?).map (·.isEof)).getD false then
    true
  else if isHash h && opens name then closesAtEnd (level + 1) rest
  else if isHash h && level > 0 && name.is "endif" then closesAtEnd (level - 1) rest
  else closesAtEnd level (name :: rest)
| _, _ => false

/-
  The name of the include guard, if the file is one section
  that starts by asking for the name and defining it.
-/
def guard? : List Token → Option Bytes
| h :: ifndef :: name :: h' :: define :: again :: rest =>
  if isHash h && ifndef.is "ifndef" && name.isIdent && isHash h' && define.is "define" &&
      again.isText name.text && closesAtEnd 0 (h' :: define :: again :: rest) then
    some name.text
  else none
| _ => none

end Conditional

end CCompiler
