import CCompiler.Syntax.Grammar

/-
  This file builds the trees of operators that C defines
  through others: pointer arithmetic, compound assignment,
  increments and member access.

  Key definitions include:
    * `Operator.newAdd`, `Operator.newSub`
    * `Operator.toAssign`
    * `Operator.newIncDec`
    * `Operator.findMember?`, `Operator.memberAccess`
-/

namespace CCompiler

namespace Operator

open Parse Typing

------------
-- Small trees
------------

/- A number at a token. -/
def number (v : Int64) (t : Token) : Expr := .num ⟨t, none⟩ v

/- A number of type `long`. -/
def long (v : Int) (t : Token) : Expr := .num ⟨t, some .long⟩ (Int64.ofInt v)

/- A number of type `unsigned long`. -/
def ulong (v : Int) (t : Token) : Expr := .num ⟨t, some .ulong⟩ (Int64.ofInt v)

/- A variable. -/
def var (v : ObjId) (t : Token) : Expr := .var ⟨t, none⟩ v

/- An operator with one operand. -/
def unary (op : UnOp) (e : Expr) (t : Token) : Expr := .unary ⟨t, none⟩ op e

/- An operator with two operands. -/
def binary (op : BinOp) (l r : Expr) (t : Token) : Expr := .binary ⟨t, none⟩ op l r

/- An assignment. -/
def assign (l r : Expr) (t : Token) : Expr := .assign ⟨t, none⟩ l r

/- Two expressions one after the other. -/
def comma (l r : Expr) (t : Token) : Expr := .comma ⟨t, none⟩ l r

/- The variable with the size of a variable-length array. -/
def vlaSizeVar (type : CType) (t : Token) : Parse Expr := do
  match ← vlaSize? type with
  | some v => return var v t
  | none => throw .internal

------------
-- Pointer arithmetic
------------

/- The distance of a number of elements in bytes. -/
def scaled (base : CType) (n : Expr) (t : Token) : Parse Expr := do
  if base.isVla then return binary .mul n (← vlaSizeVar base t) t
  else return binary .mul n (long (← sizeOf base) t) t

/- A sum; a number is added to a pointer in units of what it points to. -/
def newAdd (l r : Expr) (t : Token) : Parse Expr := do
  let l ← addType l
  let r ← addType r
  if l.type.isNumeric && r.type.isNumeric then return binary .add l r t
  if l.type.base?.isSome && r.type.base?.isSome then fail t .invalidOperands
  let (p, n) := if l.type.base?.isNone && r.type.base?.isSome then (r, l) else (l, r)
  match p.type.base? with
  | none => fail t .invalidOperands
  | some base =>
    if !n.type.isInteger then fail t .invalidOperands
    return binary .add p (← scaled base n t) t

/- A difference; that of two pointers counts the elements between them. -/
def newSub (l r : Expr) (t : Token) : Parse Expr := do
  let l ← addType l
  let r ← addType r
  if l.type.isNumeric && r.type.isNumeric then return binary .sub l r t
  match l.type.base? with
  | none => fail t .invalidOperands
  | some base =>
    if r.type.isInteger then
      let n ← addType (← scaled base r t)
      return .binary ⟨t, l.type?⟩ .sub l n
    else if r.type.base?.isSome then
      let d : Expr := .binary ⟨t, some .long⟩ .sub l r
      return binary .div d (number (Int64.ofInt (← sizeOf base)) t) t
    else fail t .invalidOperands

------------
-- Compound assignment
------------

/- `tmp = &A, (*tmp).x = (*tmp).x op B`, so that a bit-field is written back. -/
def assignMember (op : BinOp) (base : Expr) (m : Member) (r : Expr) (t : Token) :
    Parse Expr := do
  let v ← newLocal [] (.ptr base.type)
  let field : Expr := .member ⟨t, none⟩ (unary .deref (var v t) t) m
  let first := assign (var v t) (unary .addressOf base t) t
  return comma first (assign field (binary op field r t) t) t

/-
  A loop that computes the new value from the old one and
  stores it by compare-and-swap until no other store came in
  between.
-/
def assignAtomic (op : BinOp) (l r : Expr) (t : Token) : Parse Expr := do
  let addr ← newLocal [] (.ptr l.type)
  let val ← newLocal [] r.type
  let old ← newLocal [] l.type
  let new ← newLocal [] l.type
  let set (v : ObjId) (e : Expr) : Stmt := .expr t (assign (var v t) e t)
  let brk ← freshName
  let cont ← freshName
  let body : Stmt := .block t [set new (binary op (var old t) (var val t) t)]
  let cas : Expr := .cas ⟨t, none⟩ (var addr t) (unary .addressOf (var old t) t) (var new t)
  return .stmtExpr ⟨t, none⟩
    [set addr (unary .addressOf l t), set val r, set old (unary .deref (var addr t) t),
      .doLoop t body (unary .not cas t) brk cont, .expr t (var new t)]

/- `tmp = &A, *tmp = *tmp op B`. -/
def assignPlain (op : BinOp) (l r : Expr) (t : Token) : Parse Expr := do
  let v ← newLocal [] (.ptr l.type)
  let place := unary .deref (var v t) t
  let first := assign (var v t) (unary .addressOf l t) t
  return comma first (assign place (binary op place r t) t) t

/- `A op= B` for the tree of `A op B`. -/
def toAssign (e : Expr) : Parse Expr := do
  match e with
  | .binary i op l r =>
    let l ← addType l
    let r ← addType r
    match l with
    | .member _ base m => assignMember op base m r i.tok
    | l =>
      if l.type.isAtomic then assignAtomic op l r i.tok else assignPlain op l r i.tok
  | _ => throw .internal

/- `A++` and `A--` are `(A += n) - n` in the type of A. -/
def newIncDec (e : Expr) (t : Token) (n : Int64) : Parse Expr := do
  let e ← addType e
  let sum ← toAssign (← newAdd e (number n t) t)
  newCast (← newAdd sum (number (-n) t) t) e.type

------------
-- Members
------------

/-
  Whether a name is a member of a type, also through members
  without a name of their own.
-/
def hasMember (rs : Records) : Nat → CType → Bytes → Bool
| 0, _, _ => false
| fuel + 1, t, name =>
  (t.members rs).any fun m =>
    match m.name? with
    | some n => n == name
    | none => m.type.isRecord && hasMember rs fuel m.type name

/-
  The member of a name.  One found inside a member without a
  name gives that outer member.
-/
def findMember? (rs : Records) (t : CType) (name : Bytes) : Option Member :=
  (t.members rs).find? fun m =>
    match m.name? with
    | some n => n == name
    | none => m.type.isRecord && hasMember rs (rs.size + 1) m.type name

/- Access a member through all the members without a name on the way to it. -/
def memberPath (rs : Records) (t : Token) : Nat → Expr → CType → Parse Expr
| 0, _, _ => throw .internal
| fuel + 1, e, type =>
  match findMember? rs type t.text with
  | none => fail t .noSuchMember
  | some m =>
    let e : Expr := .member ⟨t, none⟩ e m
    if m.name?.isSome then return e else memberPath rs t fuel e m.type

/- The member named by a token of a structure or union. -/
def memberAccess (e : Expr) (t : Token) : Parse Expr := do
  let e ← addType e
  if !e.type.isRecord then fail e.tok .notStructOrUnion
  if (← sizeOf e.type) < 0 then fail e.tok .incompleteType
  let rs ← records
  memberPath rs t (rs.size + 2) e e.type

end Operator

end CCompiler
