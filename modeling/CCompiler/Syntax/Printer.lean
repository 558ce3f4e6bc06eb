import CCompiler.Syntax.Program

/-
  This file writes the trees of a unit as text: the name of a
  node, its type in angle brackets, and its parts by name, all
  in parentheses.

  Key definitions include:
    * `Printer.nodeNames`
    * `Printer.expr`, `Printer.stmt`
    * `Program.renderBody`
-/

namespace CCompiler

namespace Printer

------------
-- Names
------------

/- The name of an operator with one operand. -/
def unName : UnOp → String
| .neg => "Neg"
| .not => "Not"
| .bitNot => "BitNot"
| .addressOf => "AddressOf"
| .deref => "Indirection"

/- The name of an operator with two operands. -/
def binName : BinOp → String
| .add => "Add"
| .sub => "Sub"
| .mul => "Mul"
| .div => "Div"
| .mod => "Mod"
| .bitAnd => "BitAnd"
| .bitOr => "BitOr"
| .bitXor => "BitXor"
| .shl => "Shl"
| .shr => "Shr"
| .eq => "Eq"
| .ne => "Ne"
| .lt => "Lt"
| .le => "Le"
| .logAnd => "LogAnd"
| .logOr => "LogOr"

/- The name of an expression. -/
def exprName : Expr → String
| .null _ => "NullExpr"
| .num _ _ | .fnum _ _ => "Number"
| .unary _ op _ => unName op
| .binary _ op _ _ => binName op
| .assign _ _ _ => "Assign"
| .comma _ _ _ => "Comma"
| .ternary _ _ _ _ => "Ternary"
| .member _ _ _ => "MemberAccess"
| .cast _ _ => "TypeCast"
| .call _ _ _ _ _ => "FuncCall"
| .stmtExpr _ _ => "StmtExpr"
| .var _ _ => "Var"
| .vlaPtr _ _ => "VLAPtr"
| .memZero _ _ => "MemZero"
| .labelVal _ _ _ => "LabelVal"
| .cas _ _ _ _ => "CAS"
| .exch _ _ _ => "Exch"

/- The name of a statement. -/
def stmtName : Stmt → String
| .ret _ _ => "Return"
| .cond _ _ _ _ => "If"
| .loop _ _ _ _ _ _ _ => "For"
| .doLoop _ _ _ _ _ => "Do"
| .switch _ _ _ _ _ _ => "Switch"
| .case _ _ _ _ _ => "Case"
| .block _ _ => "Block"
| .goto _ _ _ | .jump _ _ => "Goto"
| .gotoExpr _ _ => "GotoExpr"
| .label _ _ _ _ => "Label"
| .expr _ _ => "ExprStmt"
| .asm _ _ => "AsmStmt"

/- The names of all nodes, in the order of their numbers. -/
def nodeNames : List String :=
  ["NullExpr", "Add", "Sub", "Mul", "Div", "Neg", "Mod", "BitAnd", "BitOr", "BitXor", "Shl", "Shr",
    "Eq", "Ne", "Lt", "Le", "Assign", "Ternary", "Comma", "MemberAccess", "AddressOf",
    "Indirection", "Not", "BitNot", "LogAnd", "LogOr", "FuncCall", "StmtExpr", "Var", "VLAPtr",
    "Number", "TypeCast", "MemZero", "LabelVal", "CAS", "Exch", "Return", "If", "For", "Do",
    "Switch", "Case", "Block", "Goto", "GotoExpr", "Label", "ExprStmt", "AsmStmt"]

------------
-- Pieces of text
------------

/- A piece of text, put in front of what follows it. -/
abbrev Piece := Bytes → Bytes

/- A piece of fixed text. -/
def text (b : Bytes) : Piece := (b ++ ·)

/- Pieces one after the other. -/
def join (ps : List Piece) : Piece := fun rest => ps.foldr (· ·) rest

/- A part of a node by name. -/
def part (key : String) (value : Piece) : Piece :=
  join [text (ascii " "), text (ascii key), text (ascii "="), value]

/- A part of a node whose value is text that may be missing. -/
def textPart (key : String) (value : Bytes) : Piece :=
  if value.isEmpty then id else part key (text value)

/- A bracketed list with blanks between its elements. -/
def bracketed (ps : List Piece) : Piece :=
  join [text (ascii "["), join (ps.intersperse (text (ascii " "))), text (ascii "]")]

/- The tables that a tree refers to, and the variables of its function. -/
structure Env where
  program : Program
  locals : List ObjId

/- A reference to a variable or function. -/
def ref (env : Env) (id : ObjId) : Bytes :=
  let o := env.program.objects.entry id
  if o.isLocal then
    let index := match env.locals.idxOf? id with
      | some i => Bytes.ofNat i
      | none => ascii "?"
    ascii "%" ++ index ++ ascii ":" ++ o.name
  else ascii "@" ++ o.symbol

/- A whole node. -/
def node (env : Env) (name : String) (type? : Option CType) (parts : List Piece) : Piece :=
  let type := match type? with
    | some t => ascii "<" ++ t.render env.program.records ++ ascii ">"
    | none => []
  join [text (ascii "("), text (ascii name), text type, join parts, text (ascii ")")]

/- A member with its place in the record. -/
def member (m : Member) : Bytes :=
  let bits := match m.bits? with
    | some b => ascii ":" ++ Bytes.ofInt b.offset ++ ascii ":" ++ Bytes.ofInt b.width
    | none => []
  m.name?.getD [] ++ ascii "@" ++ Bytes.ofInt m.offset ++ bits

------------
-- Trees
------------

mutual

/- An expression. -/
def expr (env : Env) (e : Expr) : Piece :=
  node env (exprName e) e.type? (match e with
    | .null _ => []
    | .num _ v => [part "val" (text (Bytes.ofInt v.toInt))]
    | .fnum _ v => [part "fval" (text (Bytes.ofHex 16 v.bits.toNat))]
    | .unary _ _ a | .cast _ a => [part "lhs" (expr env a)]
    | .binary _ _ l r | .assign _ l r | .comma _ l r | .exch _ l r =>
      [part "lhs" (expr env l), part "rhs" (expr env r)]
    | .ternary _ c t f =>
      [part "cond" (expr env c), part "then" (expr env t), part "els" (expr env f)]
    | .member _ a m => [part "lhs" (expr env a), part "member" (text (member m))]
    | .call _ f _ args b =>
      [part "lhs" (expr env f), part "args" (bracketed (exprs env args)),
        textPart "retbuf" ((b.map (ref env)).getD [])]
    | .stmtExpr _ body => [part "body" (bracketed (stmts env body))]
    | .var _ v | .vlaPtr _ v | .memZero _ v => [part "var" (text (ref env v))]
    | .labelVal _ l j =>
      [textPart "label" l, textPart "ulabel" (env.program.jumpLabel j)]
    | .cas _ a o n =>
      [part "cas_addr" (expr env a), part "cas_old" (expr env o), part "cas_new" (expr env n)])

/- Expressions. -/
def exprs (env : Env) : List Expr → List Piece
| [] => []
| e :: es => expr env e :: exprs env es

/- A part that may be missing. -/
def optExpr (env : Env) (key : String) : Option Expr → Piece
| none => id
| some e => part key (expr env e)

/- A statement. -/
def stmt (env : Env) (s : Stmt) : Piece :=
  node env (stmtName s) none (match s with
    | .ret _ e => [optExpr env "lhs" e]
    | .cond _ c t f =>
      [part "cond" (expr env c), part "then" (stmt env t), optStmt env "els" f]
    | .loop _ i c n b brk cont =>
      [optExpr env "cond" c, part "then" (stmt env b), optStmt env "init" i,
        optExpr env "inc" n, textPart "brk" brk, textPart "cont" cont]
    | .doLoop _ b c brk cont =>
      [part "cond" (expr env c), part "then" (stmt env b), textPart "brk" brk,
        textPart "cont" cont]
    | .switch _ c b arms d brk =>
      [part "cond" (expr env c), part "then" (stmt env b), textPart "brk" brk,
        part "cases" (bracketed (arms.map fun a => text a.label)),
        textPart "default" (d.getD [])]
    | .case _ l f z b =>
      [part "lhs" (stmt env b), textPart "label" l,
        part "range" (text (Bytes.ofInt f.toInt ++ ascii ".." ++ Bytes.ofInt z.toInt))]
    | .block _ b => [part "body" (bracketed (stmts env b))]
    | .goto _ l j => [textPart "label" l, textPart "ulabel" (env.program.jumpLabel j)]
    | .jump _ l => [textPart "ulabel" l]
    | .gotoExpr _ e => [part "lhs" (expr env e)]
    | .label _ n u b => [part "lhs" (stmt env b), textPart "label" n, textPart "ulabel" u]
    | .expr _ e => [part "lhs" (expr env e)]
    | .asm _ s => [part "asm" (text (ascii "\"" ++ s ++ ascii "\""))])

/- A statement that may be missing. -/
def optStmt (env : Env) (key : String) : Option Stmt → Piece
| none => id
| some s => part key (stmt env s)

/- Statements. -/
def stmts (env : Env) : List Stmt → List Piece
| [] => []
| s :: ss => stmt env s :: stmts env ss

end

end Printer

namespace Program

/- A reference to a variable from within a function. -/
def renderRef (p : Program) (f : Obj) (id : ObjId) : Bytes :=
  Printer.ref ⟨p, f.locals⟩ id

/- The body of a function. -/
def renderBody (p : Program) (f : Obj) (body : Stmt) : Bytes :=
  Printer.stmt ⟨p, f.locals⟩ body []

end Program

end CCompiler
