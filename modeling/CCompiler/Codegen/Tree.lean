import CCompiler.Codegen.Call
import CCompiler.Codegen.Frame
import CCompiler.Codegen.Operation

/-
  This file defines the code of expressions and statements.
  The value of an expression ends up in `rax`, in the first
  vector register or on the stack of extended values; the
  address of one ends up in `rax`.

  Key definitions include:
    * `Context`
    * `variableAddress`
    * `dispatch`
    * `expr`, `stmt`
-/

namespace CCompiler

namespace Codegen

open Assembly

------------
-- Context
------------

/- What the code of a function depends on. -/
structure Context where
  program : Program
  positionIndependent : Bool
  function : Obj
  frame : Frame

namespace Context

/- The records of the unit. -/
abbrev records (c : Context) : Records :=
  c.program.records

/- A variable or function. -/
def object (c : Context) (id : ObjId) : Obj :=
  c.program.objects.entry id

/- The place of a variable in the frame. -/
def slot (c : Context) (id : ObjId) : Operand :=
  .slot (c.frame.offset id)

/- The place where the end of the memory allocated at run time is kept. -/
def allocaBottom (c : Context) : Int :=
  (c.function.allocaBottom?.map c.frame.offset).getD 0

/- The place of the first parameter. -/
def firstParam (c : Context) : Int :=
  (c.function.params.head?.map c.frame.offset).getD 0

/- The type of the result of the function. -/
def returnType (c : Context) : CType :=
  c.function.type.returnType?.getD .void

end Context

/- Whether an expression is wanted for its value or for its address. -/
inductive Want
| value
| address
deriving DecidableEq, Repr

------------
-- Variables
------------

/-
  The address of a variable or function; `t` is the type it is
  used at.  A variable-length array holds the address of its
  elements.  The address of a function defined elsewhere, and
  of everything in position-independent code, comes from a
  table.
-/
def variableAddress (c : Context) (id : ObjId) (t : CType) : List Line :=
  let o := c.object id
  let name := o.symbol
  if o.type.isVla then [.instr (.mov (c.slot id) .rax)]
  else if o.isLocal then [.instr (.lea (c.slot id) .rax)]
  else if c.positionIndependent then
    if o.isThreadLocal then
      [ .instr (.leaData16 (.rip name .tlsGd) .rdi),
        .directive (.value 0x6666),
        .instr .rex64,
        .instr (.callSymbol (ascii "__tls_get_addr")) ]
    else [.instr (.mov (.rip name .got) .rax)]
  else if o.isThreadLocal then
    [.instr (.mov .threadBase .rax), .instr (.alu .add (.offsetOf name) .rax)]
  else if t.isFunction && !o.isDefinition then [.instr (.mov (.rip name .got) .rax)]
  else [.instr (.lea (.rip name .direct) .rax)]

/- Whether an expression names the function that allocates memory in the frame. -/
def isAlloca (c : Context) : Expr → Bool
| .var _ v => (c.object v).name == ascii "alloca"
| _ => false

/- The bit-field that an expression names, with the type of its storage unit. -/
def bitField? : Expr → Option (CType × BitField)
| .member _ _ m => m.bits?.map fun b => (m.type, b)
| _ => none

------------
-- Switches
------------

/-
  Compare the value of a switch with one arm.  A range matches
  if the distance from its first value, taken as unsigned, is
  at most the distance of its last one.
-/
def armTest (w : Width) (a : CaseArm) : List Instr :=
  let ax := Operand.reg .rax w
  let di := Operand.reg .rdi w
  let target := JumpTarget.label (.named a.label)
  if a.first == a.last then
    [.alu .cmp (.imm a.first.toInt) ax, .jumpIf .equal target]
  else
    [ .mov ax di,
      .alu .sub (.imm a.first.toInt) di,
      .alu .cmp (.imm (a.last - a.first).toInt) di,
      .jumpIf .belowOrEqual target ]

/- Jump to the first arm that matches, else to the default or past the switch. -/
def dispatch (w : Width) (arms : List CaseArm) (default? : Option Bytes) (brk : Bytes) :
    List Instr :=
  let toDefault : List Instr :=
    match default? with
    | some l => [.jump (.label (.named l))]
    | none => []
  arms.flatMap (armTest w) ++ toDefault ++ [.jump (.label (.named brk))]

------------
-- Pieces of expressions
------------

/- An expression that has a value but no address. -/
def valueOnly (want : Want) (t : Token) (x : Emit Unit) : Emit Unit :=
  match want with
  | .value => do
    Emit.loc t
    x
  | .address => Emit.fail t .notAnLvalue

/- An expression whose address is computed first and then its value loaded. -/
def loaded (want : Want) (t : Token) (address : Emit Unit) (after : List Instr) : Emit Unit :=
  match want with
  | .value => do
    Emit.loc t
    address
    Emit.code after
  | .address => address

/- An expression that is evaluated for its address too, if it has one. -/
def valueOrAddress (want : Want) (t : Token) (addressable : Bool) (x : Emit Unit) : Emit Unit :=
  match want, addressable with
  | .address, false => Emit.fail t .notAnLvalue
  | _, _ => do
    Emit.loc t
    x

/- A choice between two computations by the value of a third one. -/
def choose (rs : Records) (testType : CType) (test thn els : Emit Unit) (padded : Bool) :
    Emit Unit := do
  let n ← Emit.fresh
  let toElse := JumpTarget.label (.numbered .elseArm n)
  test
  Emit.code (compareZero rs testType)
  Emit.code [if padded then .jumpIfPadded .equal toElse else .jumpIf .equal toElse]
  thn
  Emit.code [.jump (.label (.numbered .finish n))]
  Emit.label (.numbered .elseArm n)
  els
  Emit.label (.numbered .finish n)

/-
  The value of `&&` or `||`: as soon as an operand decides,
  the rest is skipped.
-/
def shortCircuit (rs : Records) (isAnd : Bool) (lt rt : CType) (l r : Emit Unit) :
    Emit Unit := do
  let n ← Emit.fresh
  let decided := Label.numbered (if isAnd then .whenFalse else .whenTrue) n
  let leave : Instr := .jumpIf (if isAnd then .equal else .notEqual) (.label decided)
  l
  Emit.code (compareZero rs lt)
  Emit.code [leave]
  r
  Emit.code (compareZero rs rt)
  Emit.code [leave, .mov (.imm (if isAnd then 1 else 0)) .rax,
    .jump (.label (.numbered .finish n))]
  Emit.label decided
  Emit.code [.mov (.imm (if isAnd then 0 else 1)) .rax]
  Emit.label (.numbered .finish n)

/- An operation that a type may not have. -/
def orInvalid (t : Token) : Option (List Instr) → Emit Unit
| some is => Emit.code is
| none => Emit.fail t .invalidExpression

/- The value of an operator with two operands. -/
def binary (rs : Records) (t : Token) (op : BinOp) (result lt : CType) (l r : Emit Unit) :
    Emit Unit :=
  match Carrier.of lt with
  | .vector p => do
    r
    Emit.pushVector
    l
    Emit.popVector 1
    orInvalid t (floatBinary p op)
  | .extended => do
    l
    r
    orInvalid t (extendedBinary op)
  | .general => do
    r
    Emit.push
    l
    Emit.pop .rdi
    Emit.code (intBinary rs op lt result)

/- Store a value at an address; a bit-field is merged into its storage unit. -/
def assign (rs : Records) (t : CType) (field? : Option (CType × BitField))
    (address value : Emit Unit) : Emit Unit := do
  address
  Emit.push
  value
  match field? with
  | some (unit, b) =>
    Emit.code (fieldMerge rs unit b)
    Emit.pop .rdi
    Emit.code (store rs t)
    Emit.code [.mov .r8 .rax]
  | none =>
    Emit.pop .rdi
    Emit.code (store rs t)

/- The register width of what a pointer points at. -/
def pointeeWidth (rs : Records) (t : CType) : Emit Width :=
  match (t.base?.map (·.size rs)).bind Width.ofBytes? with
  | some w => pure w
  | none => Emit.stop .internal

/-
  Replace what an address points at if it has the old value,
  else read it into the old value.  The comparison is made on
  the bits in general registers.
-/
def compareExchange (rs : Records) (addrType oldType newType : CType)
    (addr old new : Emit Unit) : Emit Unit := do
  addr
  Emit.push
  new
  if newType.isFloating then Emit.code [.movWide .quad .xmm0 .rax]
  Emit.push
  old
  Emit.code [.mov .rax .r8]
  let w ← pointeeWidth rs addrType
  let oldBase := oldType.base?.getD .void
  if oldBase.isFloating then Emit.code [.mov (.deref .rax) (.reg .rax w)]
  else Emit.code (load rs oldBase)
  Emit.pop .rdx
  Emit.pop .rdi
  Emit.code [.lockCmpxchg (.reg .rdx w) (.deref .rdi), .set .equal .cl,
    .jumpIf .equal (.forward 1), .mov (.reg .rax w) (.deref .r8)]
  Emit.label (.digit 1)
  Emit.code [.extend .zeroByte .cl .eax]

/- Exchange what an address points at with a value. -/
def exchange (rs : Records) (addrType : CType) (addr value : Emit Unit) : Emit Unit := do
  addr
  Emit.push
  value
  Emit.pop .rdi
  let w ← pointeeWidth rs addrType
  Emit.code [.xchg (.reg .rax w) (.deref .rdi)]

/- Bring a record to where the caller of the function expects it. -/
def returnValue (c : Context) (t : CType) : List Instr :=
  if !t.isRecord then []
  else if t.size c.records ≤ 16 then returnInRegisters c.records c.returnType
  else returnInMemory c.records c.returnType c.firstParam

------------
-- Trees
------------

mutual

/- The code of an expression. -/
def expr (c : Context) (want : Want) : Expr → Emit Unit
| .null i => valueOnly want i.tok (pure ())
| .num i v => valueOnly want i.tok (Emit.lines (intConstant v))
| .fnum i v => valueOnly want i.tok (Emit.lines (floatConstant (i.type?.getD .void) v))
| .unary i op e =>
  let t := i.type?.getD .void
  match op with
  | .deref => loaded want i.tok (expr c .value e) (load c.records t)
  | .addressOf => valueOnly want i.tok (expr c .address e)
  | .neg => valueOnly want i.tok do
    expr c .value e
    Emit.code (negate t)
  | .not => valueOnly want i.tok do
    expr c .value e
    Emit.code (compareZero c.records e.type)
    Emit.code [.set .equal .al, .extend .zeroByteAny .al .rax]
  | .bitNot => valueOnly want i.tok do
    expr c .value e
    Emit.code [.unary .not .rax]
| .binary i op l r =>
  valueOnly want i.tok (match op with
    | .logAnd => shortCircuit c.records true l.type r.type (expr c .value l) (expr c .value r)
    | .logOr => shortCircuit c.records false l.type r.type (expr c .value l) (expr c .value r)
    | op =>
      binary c.records i.tok op (i.type?.getD .void) l.type (expr c .value l) (expr c .value r))
| .assign i l r =>
  let t := i.type?.getD .void
  valueOrAddress want i.tok t.isRecord
    (assign c.records t (bitField? l) (expr c .address l) (expr c .value r))
| .comma i l r =>
  match want with
  | .value => do
    Emit.loc i.tok
    expr c .value l
    expr c .value r
  | .address => do
    expr c .value l
    expr c .address r
| .ternary i cond thn els =>
  valueOrAddress want i.tok (i.type?.getD .void).isRecord
    (choose c.records cond.type (expr c .value cond) (expr c .value thn) (expr c .value els) false)
| .member i e m =>
  let t := i.type?.getD .void
  let cut := match m.bits? with
    | some b => fieldRead b m.type.isUnsigned
    | none => []
  loaded want i.tok
    (do
      expr c .address e
      Emit.code [.alu .add (.imm m.offset) .rax])
    (load c.records t ++ cut)
| .cast i e => valueOnly want i.tok do
  expr c .value e
  Emit.lines (convert c.records e.type (i.type?.getD .void))
| .call i fn _ args buffer? =>
  valueOrAddress want i.tok buffer?.isSome
    (if isAlloca c fn then
      match arguments c args with
      | [] => Emit.stop .internal
      | size :: _ => do
        size.value
        Emit.code [.mov .rax .rdi]
        Emit.lines (growFrame c.allocaBottom)
    else
      call c.records (i.type?.getD .void) (expr c .value fn) (arguments c args)
        (buffer?.map fun b => ⟨(c.object b).type, c.frame.offset b⟩))
| .stmtExpr i body => valueOnly want i.tok (stmts c body)
| .var i v =>
  let t := i.type?.getD .void
  loaded want i.tok (Emit.lines (variableAddress c v t)) (load c.records t)
| .vlaPtr _ v =>
  match want with
  | .value => Emit.stop .internal
  | .address => Emit.code [.lea (c.slot v) .rax]
| .memZero i v => valueOnly want i.tok (Emit.code
  [ .mov (.imm ((c.object v).type.size c.records)) .rcx, .lea (c.slot v) .rdi,
    .mov (.imm 0) .al, .repStosb ])
| .labelVal i _ j =>
  valueOnly want i.tok (Emit.code [.lea (.rip (c.program.jumpLabel j) .direct) .rax])
| .cas i addr old new =>
  valueOnly want i.tok
    (compareExchange c.records addr.type old.type new.type (expr c .value addr)
      (expr c .value old) (expr c .value new))
| .exch i addr value =>
  valueOnly want i.tok
    (exchange c.records addr.type (expr c .value addr) (expr c .value value))

/- The arguments of a call. -/
def arguments (c : Context) : List Expr → List Argument
| [] => []
| e :: es => ⟨e.type, expr c .value e⟩ :: arguments c es

/- The code of an expression that may be missing. -/
def optExpr (c : Context) : Option Expr → Emit Unit
| none => pure ()
| some e => expr c .value e

/- A jump out of a loop if its condition, which may be missing, is zero. -/
def exitTest (c : Context) (brk : Bytes) : Option Expr → Emit Unit
| none => pure ()
| some e => do
  expr c .value e
  Emit.code (compareZero c.records e.type)
  Emit.code [.jumpIf .equal (.label (.named brk))]

/- The value that a function returns, which may be missing. -/
def result (c : Context) : Option Expr → Emit Unit
| none => pure ()
| some e => do
  expr c .value e
  Emit.code (returnValue c e.type)

/- The code of a statement. -/
def stmt (c : Context) : Stmt → Emit Unit
| .ret t e => do
  Emit.loc t
  result c e
  Emit.code [.jump (.label (.epilogue c.function.name))]
| .cond t test thn els => do
  Emit.loc t
  choose c.records test.type (expr c .value test) (stmt c thn) (optStmt c els) true
| .loop t init test inc body brk cont => do
  Emit.loc t
  let n ← Emit.fresh
  optStmt c init
  Emit.label (.numbered .start n)
  exitTest c brk test
  stmt c body
  Emit.label (.named cont)
  optExpr c inc
  Emit.code [.jump (.label (.numbered .start n))]
  Emit.label (.named brk)
| .doLoop t body test brk cont => do
  Emit.loc t
  let n ← Emit.fresh
  Emit.label (.numbered .start n)
  stmt c body
  Emit.label (.named cont)
  expr c .value test
  Emit.code (compareZero c.records test.type)
  Emit.code [.jumpIf .notEqual (.label (.numbered .start n))]
  Emit.label (.named brk)
| .switch t test body arms default? brk => do
  Emit.loc t
  expr c .value test
  Emit.code (dispatch (if test.type.size c.records = 8 then .quad else .long) arms default? brk)
  stmt c body
  Emit.label (.named brk)
| .case t label _ _ body => do
  Emit.loc t
  Emit.label (.named label)
  stmt c body
| .block t body => do
  Emit.loc t
  stmts c body
| .goto t _ j => do
  Emit.loc t
  Emit.code [.jump (.label (.named (c.program.jumpLabel j)))]
| .jump t target => do
  Emit.loc t
  Emit.code [.jump (.label (.named target))]
| .gotoExpr t e => do
  Emit.loc t
  expr c .value e
  Emit.code [.jumpTo .rax]
| .label t _ unique body => do
  Emit.loc t
  Emit.label (.named unique)
  stmt c body
| .expr t e => do
  Emit.loc t
  expr c .value e
| .asm t text => do
  Emit.loc t
  Emit.lines [.verbatim text]

/- The code of a statement that may be missing. -/
def optStmt (c : Context) : Option Stmt → Emit Unit
| none => pure ()
| some s => stmt c s

/- The code of statements one after the other. -/
def stmts (c : Context) : List Stmt → Emit Unit
| [] => pure ()
| s :: ss => do
  stmt c s
  stmts c ss

end

end Codegen

end CCompiler
