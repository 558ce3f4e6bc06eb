import CCompiler.Syntax.Constant

/-
  This file names the phrases of C that contain one another:
  expressions, types, declarators, statements and
  initializers.  How a phrase is read is written as a function
  of how its parts are read; the parts are asked for through
  `Reader`.

  Key definitions include:
    * `VarAttr`, `Declared`, `Init`
    * `Phrase`
    * `Reader`
-/

namespace CCompiler

------------
-- Results of reading
------------

/- Storage classes and alignment of a declaration. -/
structure VarAttr where
  isTypedef : Bool := false
  isStatic : Bool := false
  isExtern : Bool := false
  isInline : Bool := false
  isThreadLocal : Bool := false
  align : Int := 0
deriving DecidableEq, Inhabited, Repr

/- A declarator: the type it builds, the name if any, and where the name belongs. -/
structure Declared where
  type : CType
  name? : Option Token
  pos : Token
deriving Inhabited

/-
  The values that an initializer gives to an object.  The
  children are those of the elements or members; a leaf holds
  an expression, or nothing for zero.  `isOpen` marks an array
  whose length the initializer itself tells.
-/
inductive Init
| mk (type : CType) (isOpen : Bool) (expr? : Option Expr) (children : Array Init)
    (member? : Option Member)

namespace Init

/- The type of the object. -/
def type : Init → CType
| .mk t _ _ _ _ => t

/- Whether the length of the object is still to be found. -/
def isOpen : Init → Bool
| .mk _ o _ _ _ => o

/- The expression of a leaf. -/
def expr? : Init → Option Expr
| .mk _ _ e _ _ => e

/- The values of elements or members. -/
def children : Init → Array Init
| .mk _ _ _ c _ => c

/- The member of a union that has a value. -/
def member? : Init → Option Member
| .mk _ _ _ _ m => m

/- No value for an object of a type. -/
def empty (t : CType) (isOpen : Bool) (children : Array Init) : Init :=
  .mk t isOpen none children none

instance : Inhabited Init := ⟨.empty .int false #[]⟩

/- With another type. -/
def withType (t : CType) : Init → Init
| .mk _ o e c m => .mk t o e c m

/- With an expression. -/
def withExpr (e : Option Expr) : Init → Init
| .mk t o _ c m => .mk t o e c m

/- With a chosen member. -/
def withMember (m : Member) : Init → Init
| .mk t o e c _ => .mk t o e c (some m)

/- The value of one element or member. -/
def child (i : Init) (n : Nat) : Init :=
  i.children.getD n default

/- With another value of one element or member. -/
def setChild : Init → Nat → Init → Init
| .mk t o e cs m, n, c => .mk t o e (cs.setIfInBounds n c) m

end Init

------------
-- Phrases
------------

/- The phrases that contain one another, with what reading them gives. -/
inductive Phrase : Type → Type
| expr : Phrase Expr
| assign : Phrase Expr
| conditional : Phrase Expr
| binary (least : Nat) : Phrase Expr
| cast : Phrase Expr
| unary : Phrase Expr
| typeName : Phrase CType
| specifiers (attr? : Option VarAttr) : Phrase (CType × Option VarAttr)
| declarator (base : CType) : Phrase Declared
| abstractDeclarator (base : CType) : Phrase CType
| typeSuffix (base : CType) : Phrase CType
| stmt : Phrase Stmt
| compound : Phrase Stmt
| skipExcess : Phrase Unit
| initializer (init : Init) : Phrase Init
| designation (init : Init) : Phrase Init

/- How the parts of a phrase are read. -/
abbrev Reader := {α : Type} → Phrase α → Parse α

namespace Grammar

/- The value of an integer constant expression. -/
def constExpr (read : Reader) : Parse Int64 := do
  Constant.evalInt (← read .conditional)

end Grammar

end CCompiler
