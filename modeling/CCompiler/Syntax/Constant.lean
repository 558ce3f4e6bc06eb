import CCompiler.Syntax.Typing

/-
  This file evaluates constant expressions.  Integers are
  64-bit words; an address of the unit counts as a symbol plus
  a number where the caller allows one.

  Key definitions include:
    * `ConstValue`
    * `Constant.truncate`
    * `Constant.evalNode`
    * `Constant.isConstant`
    * `Constant.evalInt`, `Constant.evalAddress`, `Constant.evalDouble`
-/

namespace CCompiler

/- The value of a constant expression. -/
inductive ConstValue
| int (value : Int64) (symbol? : Option Target)
| dbl (value : Double)
deriving Inhabited

namespace Constant

------------
-- Arithmetic on words
------------

/- A truth value as a number. -/
def ofBool (b : Bool) : Int64 :=
  if b then 1 else 0

/- A number converted to an integer type. -/
def truncate (rs : Records) (v : Int64) (t : CType) : Int64 :=
  if t.isBool then ofBool (v != 0)
  else
    match t.size rs, t.isUnsigned with
    | 1, true => Int64.ofNat v.toUInt64.toUInt8.toNat
    | 1, false => v.toInt8.toInt64
    | 2, true => Int64.ofNat v.toUInt64.toUInt16.toNat
    | 2, false => v.toInt16.toInt64
    | 4, true => Int64.ofNat v.toUInt64.toUInt32.toNat
    | 4, false => v.toInt32.toInt64
    | _, _ => v

/- A shift to the left; a count beyond the word gives zero. -/
def shiftLeft (v count : Int64) : Int64 :=
  if count.toUInt64 < 64 then v <<< count else 0

/- A shift to the right that keeps the sign; a count beyond the word leaves only the sign. -/
def shiftRight (v count : Int64) : Int64 :=
  if count.toUInt64 < 64 then v >>> count else if v < 0 then -1 else 0

/- A shift to the right of an unsigned word. -/
def shiftRightUnsigned (v count : Int64) : Int64 :=
  if count.toUInt64 < 64 then (v.toUInt64 >>> count.toUInt64).toInt64 else 0

/- The integer part of a double; outside the range of words it is the least word. -/
def ofDouble (d : Double) : Int64 :=
  let n := d.truncate
  if d.isNaN || d.isInfinite || n < -0x8000000000000000 || n ≥ 0x8000000000000000 then Int64.minValue
  else Int64.ofInt n

/- A word as a double. -/
def toDouble (isUnsigned : Bool) (v : Int64) : Double :=
  if isUnsigned then Double.ofInt v.toUInt64.toNat else Double.ofInt v.toInt

/- An operator on two words; `none` for a division by zero and for jumping operators. -/
def intBinary? (op : BinOp) (t : CType) (size : Int) (operands : CType) (l r : Int64) :
    Option Int64 :=
  match op with
  | .add => some (l + r)
  | .sub => some (l - r)
  | .mul => some (l * r)
  | .div =>
    if r == 0 then none
    else if t.isUnsigned then some (l.toUInt64 / r.toUInt64).toInt64
    else some (l / r)
  | .mod =>
    if r == 0 then none
    else if t.isUnsigned then some (l.toUInt64 % r.toUInt64).toInt64
    else some (l % r)
  | .bitAnd => some (l &&& r)
  | .bitOr => some (l ||| r)
  | .bitXor => some (l ^^^ r)
  | .shl => some (shiftLeft l r)
  | .shr =>
    if t.isUnsigned && size == 8 then some (shiftRightUnsigned l r) else some (shiftRight l r)
  | .eq => some (ofBool (l == r))
  | .ne => some (ofBool (l != r))
  | .lt =>
    if operands.isUnsigned then some (ofBool (l.toUInt64 < r.toUInt64))
    else some (ofBool (l < r))
  | .le =>
    if operands.isUnsigned then some (ofBool (l.toUInt64 ≤ r.toUInt64))
    else some (ofBool (l ≤ r))
  | .logAnd | .logOr => none

/- An operator on two doubles. -/
def doubleBinary? (op : BinOp) (l r : Double) : Option Double :=
  match op with
  | .add => some (l.add r)
  | .sub => some (l.sub r)
  | .mul => some (l.mul r)
  | .div => some (l.div r)
  | _ => none

end Constant

namespace ConstValue

/- The word of a value. -/
def word : ConstValue → Int64
| .int v _ => v
| .dbl d => Constant.ofDouble d

/- The double of a value. -/
def double (isUnsigned : Bool) : ConstValue → Double
| .int v _ => Constant.toDouble isUnsigned v
| .dbl d => d

/- The symbol of a value. -/
def symbol? : ConstValue → Option Target
| .int _ s => s
| .dbl _ => none

/- A value in the form that is asked for. -/
def convert (asDouble isUnsigned : Bool) (v : ConstValue) : ConstValue :=
  if asDouble then .dbl (v.double isUnsigned)
  else
    match v with
    | .int n s => .int n s
    | .dbl d => .int (Constant.ofDouble d) none

end ConstValue

namespace Constant

------------
-- Expressions
------------

/- The tables that an expression refers to. -/
structure Env where
  objects : Objects
  records : Records

/- A fault at an expression. -/
def failAt {α : Type} (e : Expr) (cause : Fault) : Except Failure α :=
  .error (.fault cause e.tok.place)

/-
  Whether an expression is worked out as a double: those of a
  floating type, and where a double is asked for all but
  integers.
-/
def inDouble (asDouble : Bool) (t : CType) : Bool :=
  t.isFloating || (asDouble && !t.isInteger)

mutual

/-
  The value of an expression, as a word or as a double.
  `symbols` says whether addresses are allowed.
-/
def evalNode (env : Env) (asDouble symbols : Bool) (e : Expr) : Except Failure ConstValue :=
  match e.type? with
  | none => .error .internal
  | some t =>
    let finish (v : ConstValue) : Except Failure ConstValue :=
      .ok (v.convert asDouble t.isUnsigned)
    let wide := inDouble asDouble t
    match e with
    | .num _ v => finish (if wide then .dbl ⟨0⟩ else .int v none)
    | .fnum _ d => finish (if wide then .dbl d else .int 0 none)
    | .binary i op l r =>
      if wide then do
        if (doubleBinary? op ⟨0⟩ ⟨0⟩).isNone then failAt e .notConstant
        let a ← evalNode env true false l
        let b ← evalNode env true false r
        match doubleBinary? op (a.double false) (b.double false) with
        | some d => finish (.dbl d)
        | none => failAt (.binary i op l r) .notConstant
      else
        match op with
        | .logAnd => do
          let a ← evalNode env false false l
          if a.word == 0 then finish (.int 0 none)
          else
            let b ← evalNode env false false r
            finish (.int (ofBool (b.word != 0)) none)
        | .logOr => do
          let a ← evalNode env false false l
          if a.word != 0 then finish (.int 1 none)
          else
            let b ← evalNode env false false r
            finish (.int (ofBool (b.word != 0)) none)
        | op => do
          let symbolic := symbols && (op == .add || op == .sub)
          let a ← evalNode env false symbolic l
          let b ← evalNode env false false r
          match intBinary? op t (t.size env.records) l.type a.word b.word with
          | some v => finish (.int v a.symbol?)
          | none => failAt (.binary i op l r) .divisionByZero
    | .unary i op a =>
      if wide then
        match op with
        | .neg => do
          let v ← evalNode env true false a
          finish (.dbl (v.double false).neg)
        | _ => failAt (.unary i op a) .notConstant
      else
        match op with
        | .neg => do
          let v ← evalNode env false false a
          finish (.int (-v.word) none)
        | .not => do
          let v ← evalNode env false false a
          finish (.int (ofBool (v.word == 0)) none)
        | .bitNot => do
          let v ← evalNode env false false a
          finish (.int (~~~v.word) none)
        | .addressOf => do
          let (v, s) ← evalPlace env symbols a
          finish (.int v s)
        | .deref => failAt (.unary i op a) .notConstant
    | .ternary _ c a b => do
      let v ← evalNode env wide false c
      let taken := if wide then !(v.double false).eqNum ⟨0⟩ else v.word != 0
      if taken then finish (← evalNode env wide symbols a)
      else finish (← evalNode env wide symbols b)
    | .comma _ _ r => do
      finish (← evalNode env wide symbols r)
    | .cast _ a =>
      if wide then do
        let v ← evalNode env true false a
        let d := v.double false
        finish (.dbl (if t.isFloatKind .float then d.roundToSingle else d))
      else do
        let v ← evalNode env false symbols a
        let n := if t.isInteger then truncate env.records v.word t else v.word
        finish (.int n v.symbol?)
    | .labelVal i l j =>
      if wide || !symbols then failAt (.labelVal i l j) .notConstant
      else finish (.int 0 (some (.label j)))
    | .member i a m =>
      if wide || !symbols then failAt (.member i a m) .notConstant
      else if !t.isArray then failAt (.member i a m) .invalidInitializer
      else do
        let (v, s) ← evalPlace env symbols a
        finish (.int (v + Int64.ofInt m.offset) s)
    | .var i v =>
      let o := env.objects.entry v
      if wide || !symbols then failAt (.var i v) .notConstant
      else if !o.type.isArray && !o.type.isFunction then failAt (.var i v) .invalidInitializer
      else if o.isLocal then failAt (.var i v) .notConstant
      else finish (.int 0 (some (.object v)))
    | e => failAt e .notConstant

/- The address of an lvalue: a number, and the symbol it is relative to. -/
def evalPlace (env : Env) (symbols : Bool) (e : Expr) : Except Failure (Int64 × Option Target) :=
  match e with
  | .var i v =>
    if (env.objects.entry v).isLocal || !symbols then failAt (.var i v) .notConstant
    else .ok (0, some (.object v))
  | .unary _ .deref a => do
    let v ← evalNode env false symbols a
    .ok (v.word, v.symbol?)
  | .member _ a m => do
    let (v, s) ← evalPlace env symbols a
    .ok (v + Int64.ofInt m.offset, s)
  | e => failAt e .invalidInitializer

end

/-
  Whether an expression is an integer constant expression.
  A remainder does not count as one.
-/
def isConstant (env : Env) : Expr → Except Failure Bool
| .binary _ op l r =>
  if op == .mod then .ok false
  else do
    if ← isConstant env l then isConstant env r else return false
| .ternary _ c a b => do
  if ← isConstant env c then
    let v ← evalNode env false false c
    if v.word != 0 then isConstant env a else isConstant env b
  else return false
| .comma _ _ r => isConstant env r
| .unary _ op a =>
  match op with
  | .neg | .not | .bitNot => isConstant env a
  | _ => .ok false
| .cast _ a => isConstant env a
| .num _ _ | .fnum _ _ => .ok true
| _ => .ok false

------------
-- Steps of reading
------------

open Parse

/- The result of an evaluation with the present tables. -/
def run {α : Type} (f : Env → Except Failure α) : Parse α := do
  let s ← get
  match f ⟨s.objects, s.records⟩ with
  | .ok v => return v
  | .error e => throw e

/- The word of a constant expression. -/
def evalInt (e : Expr) : Parse Int64 := do
  let e ← Typing.addType e
  return (← run fun env => evalNode env false false e).word

/- The word of a constant expression and the symbol it is relative to. -/
def evalAddress (e : Expr) : Parse (Int64 × Option Target) := do
  let e ← Typing.addType e
  let v ← run fun env => evalNode env false true e
  return (v.word, v.symbol?)

/- The double of a constant expression. -/
def evalDouble (e : Expr) : Parse Double := do
  let e ← Typing.addType e
  return (← run fun env => evalNode env true false e).double false

end Constant

end CCompiler
