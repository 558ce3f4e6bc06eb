import CCompiler.Syntax.CType

/-
  This file defines the trees of expressions and statements.
  Every expression carries the token at which faults in it are
  reported and, once it is known, its type.  Variables,
  functions and records are numbers of entries in the tables
  of the translation unit.

  Key definitions include:
    * `UnOp`, `BinOp`
    * `Expr`, `Stmt`
    * `Expr.info`, `Expr.type?`, `Expr.withType`
-/

namespace CCompiler

/- The number of a variable or function. -/
abbrev ObjId := Nat

/- The number of a jump whose label is looked up when its function ends. -/
abbrev JumpId := Nat

------------
-- Operators
------------

/- Operators with one operand. -/
inductive UnOp
| neg
| not
| bitNot
| addressOf
| deref
deriving DecidableEq, Repr, Inhabited

/- Operators with two operands that are both values. -/
inductive BinOp
| add
| sub
| mul
| div
| mod
| bitAnd
| bitOr
| bitXor
| shl
| shr
| eq
| ne
| lt
| le
| logAnd
| logOr
deriving DecidableEq, Repr, Inhabited

/- Where an expression stands and which type it has. -/
structure Info where
  tok : Token
  type? : Option CType := none
deriving Inhabited, Repr

/- One arm of a switch: its label and the values it covers. -/
structure CaseArm where
  label : Bytes
  first : Int64
  last : Int64
deriving DecidableEq, Inhabited, Repr

------------
-- Trees
------------

mutual

/- An expression. -/
inductive Expr
| null (i : Info)
| num (i : Info) (value : Int64)
| fnum (i : Info) (value : Double)
| unary (i : Info) (op : UnOp) (e : Expr)
| binary (i : Info) (op : BinOp) (l r : Expr)
| assign (i : Info) (l r : Expr)
| comma (i : Info) (l r : Expr)
| ternary (i : Info) (cond thn els : Expr)
| member (i : Info) (e : Expr) (m : Member)
| cast (i : Info) (e : Expr)
| call (i : Info) (fn : Expr) (type : CType) (args : List Expr) (buffer? : Option ObjId)
| stmtExpr (i : Info) (body : List Stmt)
| var (i : Info) (v : ObjId)
| vlaPtr (i : Info) (v : ObjId)
| memZero (i : Info) (v : ObjId)
| labelVal (i : Info) (label : Bytes) (jump : JumpId)
| cas (i : Info) (addr old new : Expr)
| exch (i : Info) (addr value : Expr)

/- A statement. -/
inductive Stmt
| ret (tok : Token) (e : Option Expr)
| cond (tok : Token) (test : Expr) (thn : Stmt) (els : Option Stmt)
| loop (tok : Token) (init : Option Stmt) (test inc : Option Expr) (body : Stmt)
    (brk cont : Bytes)
| doLoop (tok : Token) (body : Stmt) (test : Expr) (brk cont : Bytes)
| switch (tok : Token) (test : Expr) (body : Stmt) (arms : List CaseArm)
    (default? : Option Bytes) (brk : Bytes)
| case (tok : Token) (label : Bytes) (first last : Int64) (body : Stmt)
| block (tok : Token) (body : List Stmt)
| goto (tok : Token) (label : Bytes) (jump : JumpId)
| jump (tok : Token) (target : Bytes)
| gotoExpr (tok : Token) (e : Expr)
| label (tok : Token) (name unique : Bytes) (body : Stmt)
| expr (tok : Token) (e : Expr)
| asm (tok : Token) (text : Bytes)

end

instance : Inhabited Expr := ⟨.null default⟩

instance : Inhabited Stmt := ⟨.block default []⟩

namespace Expr

/- The place and type of an expression. -/
def info : Expr → Info
| .null i | .num i _ | .fnum i _ | .unary i _ _ | .binary i _ _ _ | .assign i _ _
| .comma i _ _ | .ternary i _ _ _ | .member i _ _ | .cast i _ | .call i _ _ _ _
| .stmtExpr i _ | .var i _ | .vlaPtr i _ | .memZero i _ | .labelVal i _ _ | .cas i _ _ _
| .exch i _ _ => i

/- The token of an expression. -/
def tok (e : Expr) : Token :=
  e.info.tok

/- The type of an expression, if it is known. -/
def type? (e : Expr) : Option CType :=
  e.info.type?

/- The type of an expression; void where none is known. -/
def type (e : Expr) : CType :=
  e.type?.getD .void

/- An expression at another place or of another type. -/
def withInfo (i : Info) : Expr → Expr
| .null _ => .null i
| .num _ v => .num i v
| .fnum _ v => .fnum i v
| .unary _ op e => .unary i op e
| .binary _ op l r => .binary i op l r
| .assign _ l r => .assign i l r
| .comma _ l r => .comma i l r
| .ternary _ c t e => .ternary i c t e
| .member _ e m => .member i e m
| .cast _ e => .cast i e
| .call _ f t a b => .call i f t a b
| .stmtExpr _ b => .stmtExpr i b
| .var _ v => .var i v
| .vlaPtr _ v => .vlaPtr i v
| .memZero _ v => .memZero i v
| .labelVal _ l j => .labelVal i l j
| .cas _ a o n => .cas i a o n
| .exch _ a v => .exch i a v

/- An expression with its type. -/
def withType (t : CType) (e : Expr) : Expr :=
  e.withInfo { e.info with type? := some t }

/- An expression at another token. -/
def withTok (t : Token) (e : Expr) : Expr :=
  e.withInfo { e.info with tok := t }

end Expr

namespace Stmt

/- The token of a statement. -/
def tok : Stmt → Token
| .ret t _ | .cond t _ _ _ | .loop t _ _ _ _ _ _ | .doLoop t _ _ _ _ | .switch t _ _ _ _ _
| .case t _ _ _ _ | .block t _ | .goto t _ _ | .jump t _ | .gotoExpr t _ | .label t _ _ _
| .expr t _ | .asm t _ => t

end Stmt

end CCompiler
