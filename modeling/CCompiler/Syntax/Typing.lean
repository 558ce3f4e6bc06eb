import CCompiler.Syntax.Parse

/-
  This file gives expressions their types and inserts the
  conversions that C prescribes.  A tree that has a type is
  left as it is; below one that has none, every part gets one.
  Empty expressions and zero fills have no type.

  Key definitions include:
    * `Typing.castTo`, `Typing.newCast`
    * `Typing.convertBoth`
    * `Typing.addType`, `Typing.addTypeStmt`
-/

namespace CCompiler

namespace Typing

open Parse

------------
-- Conversions
------------

/- A conversion of an expression to a type. -/
def castTo (e : Expr) (t : CType) : Parse Expr := do
  return .cast ⟨e.tok, some (← copyType t)⟩ e

/- Operands are neither records nor void. -/
def checkOperand (e : Expr) : Parse Unit :=
  if e.type.isRecord || e.type.isVoid then fail e.tok .invalidOperands else pure ()

/- Convert two operands to their common type. -/
def convertBoth (l r : Expr) : Parse (Expr × Expr) := do
  checkOperand l
  checkOperand r
  let t := CType.common (← records) l.type r.type
  return (← castTo l t, ← castTo r t)

------------
-- One node, its parts having types
------------

/- The type of an address. -/
def addressType (t : CType) : CType :=
  match t.plain with
  | .array _ b _ _ _ => .ptr b
  | _ => .ptr t

/- An operator with one operand. -/
def typeUnary (i : Info) (op : UnOp) (e : Expr) : Parse Expr := do
  match op with
  | .neg =>
    checkOperand e
    let t := CType.common (← records) .int e.type
    return .unary { i with type? := some t } op (← castTo e t)
  | .not => return .unary { i with type? := some .int } op e
  | .bitNot => return .unary { i with type? := e.type? } op e
  | .addressOf => return .unary { i with type? := some (addressType e.type) } op e
  | .deref =>
    match e.type.base? with
    | none => fail i.tok .invalidDereference
    | some b =>
      if b.isVoid then fail i.tok .voidDereference
      else return .unary { i with type? := some b } op e

/- Whether an expression is written as a number. -/
def isNumber : Expr → Bool
| .num _ _ | .fnum _ _ => true
| _ => false

/- An operator with two operands. -/
def typeBinary (i : Info) (op : BinOp) (l r : Expr) : Parse Expr := do
  match op with
  | .add | .sub | .mul | .div | .mod | .bitAnd | .bitOr | .bitXor =>
    let (l, r) ← convertBoth l r
    return .binary { i with type? := l.type? } op l r
  | .eq | .ne | .lt | .le =>
    if l.type.base?.isSome && r.type.isInteger && !isNumber r then
      notify i.tok .pedantic .pointerIntegerComparison
    let (l, r) ← convertBoth l r
    return .binary { i with type? := some .int } op l r
  | .logAnd | .logOr => return .binary { i with type? := some .int } op l r
  | .shl | .shr => return .binary { i with type? := l.type? } op l r

/- An assignment; the value is converted to the type of its target. -/
def typeAssign (i : Info) (l r : Expr) : Parse Expr := do
  if l.type.isArray then fail l.tok .notAnLvalue
  let r ← if l.type.isRecord then pure r else castTo r l.type
  return .assign { i with type? := l.type? } l r

/- A choice between two expressions. -/
def typeTernary (i : Info) (c t e : Expr) : Parse Expr := do
  if t.type.isVoid || e.type.isVoid then
    return .ternary { i with type? := some .void } c t e
  else if t.type.isRecord || e.type.isRecord then
    return .ternary { i with type? := t.type? } c t e
  else
    let (t, e) ← convertBoth t e
    return .ternary { i with type? := t.type? } c t e

/- The value of a block used as an expression is that of its last expression. -/
def typeStmtExpr (i : Info) (body : List Stmt) : Parse Expr :=
  match body.getLast? with
  | some (.expr _ e) => return .stmtExpr { i with type? := e.type? } body
  | _ => fail i.tok .voidStatementExpression

/- A compare-and-swap. -/
def typeCas (i : Info) (a o n : Expr) : Parse Expr := do
  if !a.type.isPointer then fail a.tok .pointerExpected
  if !o.type.isPointer then fail o.tok .pointerExpected
  return .cas { i with type? := some .bool } a o n

/- An exchange. -/
def typeExch (i : Info) (a v : Expr) : Parse Expr := do
  if !a.type.isPointer then fail a.tok .pointerExpected
  return .exch { i with type? := a.type.base? } a v

------------
-- Whole trees
------------

mutual

/- An expression with types from the leaves up. -/
def addType (e : Expr) : Parse Expr :=
  if e.type?.isSome then pure e
  else
    match e with
    | .null i => return .null i
    | .memZero i v => return .memZero i v
    | .num i v => return .num { i with type? := some .int } v
    | .fnum i v => return .fnum { i with type? := some .int } v
    | .unary i op a => do
      let a ← addType a
      typeUnary i op a
    | .binary i op l r => do
      let l ← addType l
      let r ← addType r
      typeBinary i op l r
    | .assign i l r => do
      let l ← addType l
      let r ← addType r
      typeAssign i l r
    | .comma i l r => do
      let l ← addType l
      let r ← addType r
      return .comma { i with type? := r.type? } l r
    | .ternary i c t f => do
      let c ← addType c
      let t ← addType t
      let f ← addType f
      typeTernary i c t f
    | .member i a m => do
      let a ← addType a
      return .member { i with type? := some m.type } a m
    | .cast i a => do
      let a ← addType a
      return .cast i a
    | .call i f t args b => do
      let f ← addType f
      let args ← addTypes args
      return .call { i with type? := t.returnType? } f t args b
    | .stmtExpr i body => do
      let body ← addTypeStmts body
      typeStmtExpr i body
    | .var i v => do
      return .var { i with type? := some (← object v).type } v
    | .vlaPtr i v => do
      return .vlaPtr { i with type? := some (← object v).type } v
    | .labelVal i l j => return .labelVal { i with type? := some (.ptr .void) } l j
    | .cas i a o n => do
      let a ← addType a
      let o ← addType o
      let n ← addType n
      typeCas i a o n
    | .exch i a v => do
      let a ← addType a
      let v ← addType v
      typeExch i a v

/- Expressions with types. -/
def addTypes : List Expr → Parse (List Expr)
| [] => return []
| e :: es => do
  let e ← addType e
  let es ← addTypes es
  return e :: es

/- An optional expression with types. -/
def addType? : Option Expr → Parse (Option Expr)
| none => return none
| some e => do
  return some (← addType e)

/- A statement with types in all of its expressions. -/
def addTypeStmt : Stmt → Parse Stmt
| .ret t e => do
  return .ret t (← addType? e)
| .cond t c a b => do
  let c ← addType c
  let a ← addTypeStmt a
  let b ← addTypeStmt? b
  return .cond t c a b
| .loop t i c n b brk cont => do
  let c ← addType? c
  let b ← addTypeStmt b
  let i ← addTypeStmt? i
  let n ← addType? n
  return .loop t i c n b brk cont
| .doLoop t b c brk cont => do
  let c ← addType c
  let b ← addTypeStmt b
  return .doLoop t b c brk cont
| .switch t c b arms d brk => do
  let c ← addType c
  let b ← addTypeStmt b
  return .switch t c b arms d brk
| .case t l f z b => do
  return .case t l f z (← addTypeStmt b)
| .block t b => do
  return .block t (← addTypeStmts b)
| .goto t l j => return .goto t l j
| .jump t l => return .jump t l
| .gotoExpr t e => do
  return .gotoExpr t (← addType e)
| .label t n u b => do
  return .label t n u (← addTypeStmt b)
| .expr t e => do
  return .expr t (← addType e)
| .asm t s => return .asm t s

/- An optional statement with types. -/
def addTypeStmt? : Option Stmt → Parse (Option Stmt)
| none => return none
| some s => do
  return some (← addTypeStmt s)

/- Statements with types. -/
def addTypeStmts : List Stmt → Parse (List Stmt)
| [] => return []
| s :: ss => do
  let s ← addTypeStmt s
  let ss ← addTypeStmts ss
  return s :: ss

end

/- A conversion of an expression, which gets its types first, to a type. -/
def newCast (e : Expr) (t : CType) : Parse Expr := do
  castTo (← addType e) t

end Typing

end CCompiler
