import CCompiler.Syntax.Declarator
import CCompiler.Syntax.InitialValue
import CCompiler.Syntax.Vla

/-
  This file reads expressions.  Binary operators are read by
  climbing precedences; what C defines through simpler
  operators is written with those.

  Key definitions include:
    * `Expression.expr`, `Expression.assign`, `Expression.conditional`
    * `Expression.precedence`, `Expression.binary`
    * `Expression.cast`, `Expression.unary`
    * `Expression.suffixed`, `Expression.call`
    * `Expression.primary`
-/

namespace CCompiler

namespace Expression

open Parse Grammar Specifier Typing

------------
-- Assignments and choices
------------

/- One or more expressions with commas between them. -/
def expr (read : Reader) : Parse Expr := do
  let l ← read .assign
  let t ← tok
  if t.is "," then
    advance
    return Operator.comma l (← read .expr) t
  else return l

/- The operator inside a compound assignment. -/
def compoundOp? (t : Token) : Option BinOp :=
  [("+=", BinOp.add), ("-=", .sub), ("*=", .mul), ("/=", .div), ("%=", .mod), ("&=", .bitAnd),
    ("|=", .bitOr), ("^=", .bitXor), ("<<=", .shl), (">>=", .shr)].findSome? fun (s, op) =>
      if t.is s then some op else none

/- The tree of an operator in a compound assignment. -/
def compoundTree (op : BinOp) (l r : Expr) (t : Token) : Parse Expr := do
  match op with
  | .add => Operator.newAdd l r t
  | .sub => Operator.newSub l r t
  | op => return Operator.binary op l r t

/- An assignment, or an expression without one. -/
def assign (read : Reader) : Parse Expr := do
  let l ← read .conditional
  let t ← tok
  if t.kind != .punct then return l
  if t.is "=" then
    advance
    return Operator.assign l (← read .assign) t
  match compoundOp? t with
  | some op =>
    advance
    let r ← read .assign
    Operator.toAssign (← compoundTree op l r t)
  | none => return l

/- `a ?: b` is `tmp = a, tmp ? tmp : b`. -/
def elvis (read : Reader) (cond : Expr) (t : Token) : Parse Expr := do
  let cond ← addType cond
  let v ← newLocal [] cond.type
  let set := Operator.assign (Operator.var v t) cond t
  let els ← read .conditional
  return Operator.comma set (.ternary ⟨t, none⟩ (Operator.var v t) (Operator.var v t) els) t

/- A choice between two expressions, or one expression alone. -/
def conditional (read : Reader) : Parse Expr := do
  let cond ← read (.binary 1)
  let t ← tok
  if !t.is "?" then return cond
  advance
  if ← accept ":" then elvis read cond t
  else
    let thn ← read .expr
    expect ":"
    let els ← read .conditional
    return .ternary ⟨t, none⟩ cond thn els

------------
-- Binary operators
------------

/- The binary operators by precedence, the loosest first. -/
def precedences : List (List String) :=
  [["||"], ["&&"], ["|"], ["^"], ["&"], ["==", "!="], ["<", "<=", ">", ">="], ["<<", ">>"],
    ["+", "-"], ["*", "/", "%"]]

/- The precedence of a binary operator, counted from one; zero for other tokens. -/
def precedence (t : Token) : Nat :=
  if t.kind != .punct then 0
  else
    match precedences.findIdx? fun ops => ops.any t.is with
    | some i => i + 1
    | none => 0

/- The tree of a binary operator; `a > b` is `b < a`. -/
def binaryTree (t : Token) (l r : Expr) : Parse Expr := do
  let plain (op : BinOp) (l r : Expr) : Parse Expr := return Operator.binary op l r t
  if t.is "+" then Operator.newAdd l r t
  else if t.is "-" then Operator.newSub l r t
  else if t.is "*" then plain .mul l r
  else if t.is "/" then plain .div l r
  else if t.is "%" then plain .mod l r
  else if t.is "<<" then plain .shl l r
  else if t.is ">>" then plain .shr l r
  else if t.is "<" then plain .lt l r
  else if t.is "<=" then plain .le l r
  else if t.is ">" then plain .lt r l
  else if t.is ">=" then plain .le r l
  else if t.is "==" then plain .eq l r
  else if t.is "!=" then plain .ne l r
  else if t.is "&" then plain .bitAnd l r
  else if t.is "^" then plain .bitXor l r
  else if t.is "|" then plain .bitOr l r
  else if t.is "&&" then plain .logAnd l r
  else if t.is "||" then plain .logOr l r
  else throw .internal

/- Operands with operators of at least a precedence between them. -/
def binary (read : Reader) (least : Nat) : Parse Expr := do
  let first ← read .cast
  iterate first fun l => do
    let t ← tok
    let p := precedence t
    if p == 0 || p < least then return .inr l
    advance
    let r ← read (.binary (p + 1))
    return .inl (← binaryTree t l r)

------------
-- Casts and unary operators
------------

/- A cast, or an expression without one. -/
def cast (read : Reader) : Parse Expr := do
  if ← atParenType then
    let start ← cursor
    let t ← tok
    advance
    let type ← read .typeName
    expect ")"
    if ← check "\x7b" then
      rewind start
      read .unary
    else
      let e ← newCast (← read .cast) type
      return e.withTok t
  else read .unary

/- The address of an operand. -/
def addressOf (e : Expr) (t : Token) : Parse Expr := do
  let e ← addType e
  match e with
  | .member _ _ m => if m.bits?.isSome then fail t .addressOfBitField
  | _ => pure ()
  return Operator.unary .addressOf e t

/- What an operand points to; a function stands for itself. -/
def deref (e : Expr) (t : Token) : Parse Expr := do
  let e ← addType e
  if e.type.isFunction then return e else return Operator.unary .deref e t

/- The address of a label. -/
def labelAddress (t : Token) : Parse Expr := do
  let nameTok ← tok
  let name ← identOf nameTok
  let j ← newJump nameTok
  advance
  return .labelVal ⟨t, none⟩ name j

------------
-- Calls
------------

/- The function type of what is called. -/
def calleeType? (t : CType) : Option CType :=
  if t.isFunction then some t
  else
    match t.plain with
    | .ptr b => if b.isFunction then some b else none
    | _ => none

/- An argument converted to its parameter, or promoted where there is none. -/
def argument (params : List CType) (variadic : Bool) (i : Nat) (e : Expr) : Parse Expr := do
  let e ← addType e
  match params[i]? with
  | some p => if p.isRecord then return e else newCast e p
  | none =>
    if !variadic then fail (← tok) .tooManyArguments
    else if e.type.isFloatKind .float then newCast e .double
    else return e

/-
  A call after its opening parenthesis.  The caller makes
  room for a structure or union that is returned.
-/
def call (read : Reader) (fn : Expr) : Parse Expr := do
  let fn ← addType fn
  match calleeType? fn.type with
  | none => fail fn.tok .notAFunction
  | some type =>
    match type.plain with
    | .func ret params _ variadic =>
      let args ← iterate #[] fun (args : Array Expr) => do
        if ← check ")" then return .inr args
        if args.size > 0 then expect ","
        let e ← read .assign
        return .inl (args.push (← argument params variadic args.size e))
      if args.size < params.length then fail (← tok) .tooFewArguments
      let t ← tok
      expect ")"
      let buffer? ← if ret.isRecord then some <$> newLocal [] ret else pure none
      return .call ⟨t, some ret⟩ fn type args.toList buffer?
    | _ => throw .internal

------------
-- Suffixes
------------

/- A value of a type written as a braced list. -/
def compoundLiteral (read : Reader) : Parse Expr := do
  let start ← tok
  advance
  let type ← read .typeName
  expect ")"
  if ← atFileScope then
    let v ← newAnonymous type
    InitialValue.globalInit read v
    return Operator.var v start
  else
    let v ← newLocal [] type
    let t ← tok
    let e ← InitialValue.localInit read v
    return Operator.comma e (Operator.var v t) start

/- One suffix of an expression, or the end of them. -/
def suffix (read : Reader) (e : Expr) : Parse (Sum Expr Expr) := do
  let t ← tok
  if ← accept "(" then return .inl (← call read e)
  else if ← accept "[" then
    let i ← read .expr
    expect "]"
    return .inl (Operator.unary .deref (← Operator.newAdd e i t) t)
  else if ← accept "." then
    let e ← Operator.memberAccess e (← tok)
    advance
    return .inl e
  else if ← accept "->" then
    let e ← Operator.memberAccess (Operator.unary .deref e t) (← tok)
    advance
    return .inl e
  else if ← accept "++" then return .inl (← Operator.newIncDec e t 1)
  else if ← accept "--" then return .inl (← Operator.newIncDec e t (-1))
  else return .inr e

------------
-- Primary expressions
------------

/- The type in parentheses after `sizeof` and the like, if there is one. -/
def typeArgument? (read : Reader) : Parse (Option CType) := do
  if ← atParenType then
    advance
    let type ← read .typeName
    expect ")"
    return some type
  else return none

/- The size of a type or of the value of an expression. -/
def sizeof (read : Reader) (t : Token) : Parse Expr := do
  match ← typeArgument? read with
  | some type =>
    if type.isVla then
      match ← vlaSize? type with
      | some v => return Operator.var v t
      | none =>
        let e ← Vla.storeSizes t type
        return Operator.comma e (← Operator.vlaSizeVar type t) t
    else return Operator.ulong (← sizeOf type) t
  | none =>
    let e ← addType (← read .unary)
    if e.type.isVla then Operator.vlaSizeVar e.type t
    else return Operator.ulong (← sizeOf e.type) t

/- The alignment of a type or of the value of an expression. -/
def alignof (read : Reader) (t : Token) : Parse Expr := do
  match ← typeArgument? read with
  | some type => return Operator.ulong (← alignOf type) t
  | none =>
    let e ← addType (← read .unary)
    return Operator.ulong (← alignOf e.type) t

/- The type by which a selection is made; arrays and functions count as pointers. -/
def controlType (t : CType) : CType :=
  match t.plain with
  | .func _ _ _ _ => .ptr t
  | .array _ b _ _ _ => .ptr b
  | _ => t

/- A choice between expressions by the type of another one. -/
def genericSelection (read : Reader) : Parse Expr := do
  let start ← tok
  expect "("
  let ctrl ← addType (← read .assign)
  let type := controlType ctrl.type
  let chosen? ← iterate none fun (chosen? : Option Expr) => do
    if ← accept ")" then return .inr chosen?
    expect ","
    if ← accept "default" then
      expect ":"
      let e ← read .assign
      return .inl (some (chosen?.getD e))
    else
      let arm ← read .typeName
      expect ":"
      let e ← read .assign
      if CType.compatible (← records) type arm then return .inl (some e)
      else return .inl chosen?
  match chosen? with
  | some e => return e
  | none => fail start .noGenericMatch

/- Whether two types are compatible, as a number. -/
def typesCompatible (read : Reader) (t : Token) : Parse Expr := do
  expect "("
  let a ← read .typeName
  expect ","
  let b ← read .typeName
  expect ")"
  return Operator.number (if CType.compatible (← records) a b then 1 else 0) t

/- The class of register that a type is passed in, as a number. -/
def registerClass (read : Reader) (t : Token) : Parse Expr := do
  expect "("
  let type ← read .typeName
  expect ")"
  if type.isInteger || type.isPointer then return Operator.number 0 t
  else if type.isFloating then return Operator.number 1 t
  else return Operator.number 2 t

/- A compare-and-swap. -/
def compareAndSwap (read : Reader) (t : Token) : Parse Expr := do
  expect "("
  let addr ← read .assign
  expect ","
  let old ← read .assign
  expect ","
  let new ← read .assign
  expect ")"
  return .cas ⟨t, none⟩ addr old new

/- An atomic exchange. -/
def exchange (read : Reader) (t : Token) : Parse Expr := do
  expect "("
  let addr ← read .assign
  expect ","
  let value ← read .assign
  expect ")"
  return .exch ⟨t, none⟩ addr value

/-
  Note that a function is named: the function being read
  refers to it, and outside of functions it is needed anyway.
-/
def noteReference (id : ObjId) : Parse Unit := do
  let o ← object id
  if o.isFunction then
    match (← get).function? with
    | some f => modifyObject f fun g => { g with refs := g.refs ++ [o.name] }
    | none => modifyObject id fun g => { g with isRoot := true }

/- A variable, a function or a constant of an enumeration. -/
def name (t : Token) : Parse Expr := do
  advance
  match ← lookup? t.text with
  | some (.object id) =>
    noteReference id
    return Operator.var id t
  | some (.constant _ v) => return Operator.number v t
  | _ =>
    if ← check "(" then fail t .implicitFunction
    fail t .undefinedVariable

/- A name or a literal. -/
def atom (t : Token) : Parse Expr := do
  match t.kind with
  | .ident => name t
  | .str elem bytes =>
    let v ← newString bytes (← arrayOf (CType.ofLit elem) t.stringLength)
    advance
    return Operator.var v t
  | .int type v =>
    advance
    return .num ⟨t, some (CType.ofLit type)⟩ v
  | .float type v =>
    advance
    return .fnum ⟨t, some (CType.ofLit type)⟩ v
  | _ => fail t .expectedExpression

/- Statements in parentheses, whose last one gives the value. -/
def statementExpr (read : Reader) (t : Token) : Parse Expr := do
  advance
  advance
  match ← read .compound with
  | .block _ body =>
    expect ")"
    return .stmtExpr ⟨t, none⟩ body
  | _ => throw .internal

/- The words that start a primary expression of their own form. -/
def keywordForms (read : Reader) : List (String × (Token → Parse Expr)) :=
  [("sizeof", sizeof read), ("_Alignof", alignof read), ("__alignof__", alignof read),
    ("_Generic", fun _ => genericSelection read),
    ("__builtin_types_compatible_p", typesCompatible read),
    ("__builtin_reg_class", registerClass read),
    ("__builtin_compare_and_swap", compareAndSwap read),
    ("__builtin_atomic_exchange", exchange read)]

/- An expression without operators. -/
def primary (read : Reader) : Parse Expr := do
  let t ← tok
  if t.is "(" then
    if ← peekIs "\x7b" then statementExpr read t
    else
      advance
      let e ← read .expr
      expect ")"
      return e
  else
    match (keywordForms read).find? fun (w, _) => t.is w with
    | some (_, form) =>
      advance
      form t
    | none => atom t

/- A primary expression with its suffixes, or a compound literal. -/
def suffixed (read : Reader) : Parse Expr := do
  if ← atParenType then compoundLiteral read
  else
    let e ← primary read
    iterate e (suffix read)

/- An operator before its operand, or an expression without one. -/
def unary (read : Reader) : Parse Expr := do
  let t ← tok
  if t.kind != .punct then suffixed read
  else if t.is "+" then
    advance
    read .cast
  else if t.is "-" then
    advance
    return Operator.unary .neg (← read .cast) t
  else if t.is "&" then
    advance
    addressOf (← read .cast) t
  else if t.is "*" then
    advance
    deref (← read .cast) t
  else if t.is "!" then
    advance
    return Operator.unary .not (← read .cast) t
  else if t.is "~" then
    advance
    return Operator.unary .bitNot (← read .cast) t
  else if t.is "++" then
    advance
    Operator.toAssign (← Operator.newAdd (← read .unary) (Operator.number 1 t) t)
  else if t.is "--" then
    advance
    Operator.toAssign (← Operator.newSub (← read .unary) (Operator.number 1 t) t)
  else if t.is "&&" then
    advance
    labelAddress t
  else suffixed read

end Expression

end CCompiler
