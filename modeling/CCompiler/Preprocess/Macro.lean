import CCompiler.Token.Basic

/-
  This file defines macros and their tables.

  Key definitions include:
    * `Builtin`, `Macro`
    * `Macro.sameAs`
    * `Macros`
-/

namespace CCompiler

------------
-- Macros
------------

/- The macros whose replacement is worked out at each use. -/
inductive Builtin
| file
| line
| counter
| timestamp
| baseFile
deriving DecidableEq, Repr

/-
  A macro.  Bodies end with a token of kind `eof`; `rest?` is
  the name for all the arguments after the parameters.
-/
inductive Macro
| object (body : List Token)
| function (params : List Bytes) (rest? : Option Bytes) (body : List Token)
| builtin (b : Builtin)
deriving Repr, Inhabited

namespace Macro

/- The body of a macro that has one. -/
def body? : Macro → Option (List Token)
| .object body | .function _ _ body => some body
| .builtin _ => none

/- Whether a macro is used without an argument list. -/
def isObjectLike : Macro → Bool
| .function _ _ _ => false
| _ => true

/- The names of the parameters. -/
def params : Macro → List Bytes
| .function ps _ _ => ps
| _ => []

/- The name for further arguments; empty if there may be none. -/
def restName : Macro → Bytes
| .function _ rest? _ => rest?.getD []
| _ => []

/-
  Whether two definitions agree: the same parameters and the
  same spelling of the body.  Worked-out macros agree with
  none.
-/
def sameAs : Macro → Macro → Bool
| .object a, .object b => Token.joinText a == Token.joinText b
| .function ps r a, .function qs s b =>
  ps == qs && r == s && Token.joinText a == Token.joinText b
| _, _ => false

end Macro

------------
-- Tables
------------

/- The macros by name, each name once. -/
abbrev Macros := List (Bytes × Macro)

namespace Macros

/- The macro of a name. -/
def find? (ms : Macros) (name : Bytes) : Option Macro :=
  ms.lookup name

/- Whether a name is defined. -/
def contains (ms : Macros) (name : Bytes) : Bool :=
  (ms.find? name).isSome

/- Without the macro of a name. -/
def erase (ms : Macros) (name : Bytes) : Macros :=
  ms.filter (·.1 != name)

/- With a macro for a name. -/
def insert (ms : Macros) (name : Bytes) (m : Macro) : Macros :=
  (name, m) :: ms.erase name

/- The macro that a token names; only identifiers name macros. -/
def ofToken? (ms : Macros) (t : Token) : Option Macro :=
  if t.isIdent then ms.find? t.text else none

end Macros

end CCompiler
