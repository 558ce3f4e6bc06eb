import CCompiler.Syntax.Program

/-
  This file defines the state in which a translation unit is
  read and the basic steps on it: moving over the tokens,
  looking up names, and adding objects and types.

  Looking ahead saves and restores only the place in the
  tokens.  Names, objects and labels made on the way stay.

  Key definitions include:
    * `Binding`, `Scope`
    * `ParseState`, `Parse`
    * `Parse.check`, `Parse.accept`, `Parse.expect`
    * `Parse.iterate`
    * `Parse.newLocal`, `Parse.newGlobal`
-/

namespace CCompiler

------------
-- State
------------

/- What an ordinary name stands for. -/
inductive Binding
| object (id : ObjId)
| typedef (type : CType)
| constant (type : CType) (value : Int64)
deriving Inhabited

/- The names of a block: ordinary ones, and tags. -/
structure Scope where
  vars : List (Bytes × Binding) := []
  tags : List (Bytes × CType) := []
deriving Inhabited

/- A variable-length array: its length, and the variable that holds its size. -/
structure Vla where
  len : Expr
  size? : Option ObjId := none
deriving Inhabited

/- A jump to a label of the function being read, with the place of the label's name. -/
structure PendingJump where
  id : JumpId
  label : Bytes
  place : Place
deriving Inhabited

/- The switch being read: its arms so far and the label of its default. -/
structure SwitchFrame where
  arms : List CaseArm := []
  default? : Option Bytes := none
deriving Inhabited

/-
  The state of reading a translation unit.  `limit` is the
  number of tokens that there were at the start.
-/
structure ParseState where
  cfg : Config := {}
  toks : List Token
  limit : Nat := toks.length
  scopes : List Scope := [{}]
  objects : Objects := #[]
  records : Records := #[]
  vlas : Array Vla := #[]
  globals : Array TopLevel := #[]
  locals : Array ObjId := #[]
  function? : Option ObjId := none
  jumps : Array Bytes := #[]
  pending : List PendingJump := []
  labels : List (Bytes × Bytes) := []
  brk : Bytes := []
  cont : Bytes := []
  switch? : Option SwitchFrame := none
  alloca : ObjId := 0
  unique : Nat := 0
  nextType : Nat := 0
  initialized : List Bytes := []
  notices : Bytes := []
deriving Inhabited

/- Steps of reading a translation unit; the first fault ends it. -/
abbrev Parse := EStateM Failure ParseState

namespace Parse

------------
-- Tokens
------------

/- Stop with a fault at a token. -/
def fail {α : Type} (t : Token) (cause : Fault) : Parse α :=
  throw (.fault cause t.place)

/- Print a notice at a token, if its group is on. -/
def notify (t : Token) (group : Warning) (n : Notice) : Parse Unit :=
  modify fun s => { s with notices := s.notices ++ Diagnostic.notice s.cfg group n t.place }

/- The present token. -/
def tok : Parse Token := do
  return (← get).toks.headD default

/- The token after the present one. -/
def next? : Parse (Option Token) := do
  return (← get).toks.tail.head?

/- Move to the next token; the end is never left. -/
def advance : Parse Unit :=
  modify fun s =>
    match s.toks with
    | _ :: t :: rest => { s with toks := t :: rest }
    | _ => s

/- The place in the tokens. -/
def cursor : Parse (List Token) := do
  return (← get).toks

/- Go back to a place in the tokens. -/
def rewind (toks : List Token) : Parse Unit :=
  modify fun s => { s with toks := toks }

/- Whether the present token has a spelling. -/
def check (s : String) : Parse Bool := do
  return (← tok).is s

/- Whether the present token has one of several spellings. -/
def checkAny (ss : List String) : Parse Bool := do
  let t ← tok
  return ss.any t.is

/- Whether the token after the present one has a spelling. -/
def peekIs (s : String) : Parse Bool := do
  return ((← next?).map (·.is s)).getD false

/- Move over a token of a spelling, if it is there. -/
def accept (s : String) : Parse Bool := do
  if ← check s then
    advance
    return true
  else return false

/- Move over a token of a spelling, which must be there. -/
def expect (s : String) : Parse Unit := do
  if !(← accept s) then fail (← tok) (.expected (ascii s))

/- The spelling of an identifier. -/
def identOf (t : Token) : Parse Bytes :=
  if t.isIdent then return t.text else fail t .expectedIdentifier

/- Whether a braced list ends here, with or without a last comma. -/
def atListEnd : Parse Bool := do
  if ← check "\x7d" then return true
  if ← check "," then peekIs "\x7d" else return false

/- Move over the end of a braced list, if it is here. -/
def acceptListEnd : Parse Bool := do
  if ← accept "\x7d" then return true
  if ← check "," then
    if ← peekIs "\x7d" then
      advance
      advance
      return true
  return false

------------
-- Repetition
------------

/- Repeat a step until it gives a result, at most a number of times. -/
def repeatN {σ β : Type} (step : σ → Parse (Sum σ β)) : Nat → σ → Parse β
| 0, _ => throw .internal
| n + 1, s => do
  match ← step s with
  | .inl s => repeatN step n s
  | .inr b => return b

/-
  Repeat a step until it gives a result.  Each step moves
  over at least one token, so their number bounds the steps.
-/
def iterate {σ β : Type} (s : σ) (step : σ → Parse (Sum σ β)) : Parse β := do
  repeatN step (2 * (← get).limit + 8) s

------------
-- Scopes
------------

/- Open a block. -/
def enterScope : Parse Unit :=
  modify fun s => { s with scopes := {} :: s.scopes }

/- Close a block. -/
def leaveScope : Parse Unit :=
  modify fun s => { s with scopes := s.scopes.tail }

/- Whether no block is open. -/
def atFileScope : Parse Bool := do
  return (← get).scopes.length == 1

/- What a name stands for. -/
def lookup? (name : Bytes) : Parse (Option Binding) := do
  return (← get).scopes.findSome? fun sc => sc.vars.lookup name

/- What a name stands for at file scope. -/
def lookupGlobal? (name : Bytes) : Parse (Option Binding) := do
  return (← get).scopes.getLast?.bind fun sc => sc.vars.lookup name

/- The type of a tag. -/
def lookupTag? (name : Bytes) : Parse (Option CType) := do
  return (← get).scopes.findSome? fun sc => sc.tags.lookup name

/- The type of a tag of the present block. -/
def lookupTagHere? (name : Bytes) : Parse (Option CType) := do
  return (← get).scopes.head?.bind fun sc => sc.tags.lookup name

/- The type that a token names, if it names one. -/
def typedef? (t : Token) : Parse (Option CType) := do
  if !t.isIdent then return none
  match ← lookup? t.text with
  | some (.typedef ty) => return some ty
  | _ => return none

/- Change the present block. -/
def modifyScope (f : Scope → Scope) : Parse Unit :=
  modify fun s =>
    match s.scopes with
    | sc :: rest => { s with scopes := f sc :: rest }
    | [] => s

/- Give a name a meaning in the present block. -/
def bindName (name : Bytes) (b : Binding) : Parse Unit :=
  modifyScope fun sc => { sc with vars := (name, b) :: sc.vars }

/- Give a tag a type in the present block. -/
def bindTag (name : Bytes) (t : CType) : Parse Unit :=
  modifyScope fun sc => { sc with tags := (name, t) :: sc.tags }

------------
-- Types
------------

/- A number for a new type. -/
def freshType : Parse Nat := do
  let n := (← get).nextType
  modify fun s => { s with nextType := n + 1 }
  return n

/- The records so far. -/
def records : Parse Records := do
  return (← get).records

/- The size of a type. -/
def sizeOf (t : CType) : Parse Int := do
  return t.size (← records)

/- The alignment of a type. -/
def alignOf (t : CType) : Parse Int := do
  return t.align (← records)

/- A new array type. -/
def arrayOf (base : CType) (n : Int) : Parse CType := do
  let id ← freshType
  return CType.arrayOf (← records) id base n

/- A new variable-length array type. -/
def vlaOf (base : CType) (len : Expr) : Parse CType := do
  let id := (← get).vlas.size
  modify fun s => { s with vlas := s.vlas.push { len := len } }
  return .vla id base

/- Add a record to the table. -/
def addRecord (r : Record) : Parse Nat := do
  let id := (← get).records.size
  modify fun s => { s with records := s.records.push r }
  return id

/- Replace a record in the table. -/
def setRecord (id : Nat) (r : Record) : Parse Unit :=
  modify fun s => { s with records := s.records.setIfInBounds id r }

/-
  A copy of a type.  A record is copied as it is now: members
  it is given later do not show in the copy.
-/
def copyType (t : CType) : Parse CType := do
  match t with
  | .record id => return .record (← addRecord ((← records).entry id))
  | .atomic (.record id) => return .atomic (.record (← addRecord ((← records).entry id)))
  | t => return t

/- The variable that holds the size of a variable-length array. -/
def vlaSize? (t : CType) : Parse (Option ObjId) := do
  match t.plain with
  | .vla id _ => return (← get).vlas[id]?.bind (·.size?)
  | _ => return none

------------
-- Objects
------------

/- The object of a number. -/
def object (id : ObjId) : Parse Obj := do
  return (← get).objects.entry id

/- Change an object. -/
def modifyObject (id : ObjId) (f : Obj → Obj) : Parse Unit :=
  modify fun s => { s with objects := s.objects.modify id f }

/- Add an object and bind its name. -/
def newObject (name : Bytes) (t : CType) : Parse ObjId := do
  let id := (← get).objects.size
  let o : Obj := { name := name, type := t, align := ← alignOf t }
  modify fun s => { s with objects := s.objects.push o }
  bindName name (.object id)
  return id

/- Add a variable of the function being read. -/
def newLocal (name : Bytes) (t : CType) : Parse ObjId := do
  let id ← newObject name t
  modifyObject id fun o => { o with isLocal := true }
  modify fun s => { s with locals := s.locals.push id }
  return id

/- Add a variable or function of the unit. -/
def newGlobal (name : Bytes) (t : CType) : Parse ObjId := do
  let id ← newObject name t
  modifyObject id fun o => { o with isStatic := true, isDefinition := true }
  modify fun s => { s with globals := s.globals.push (.object id) }
  return id

/- A name that no source text can spell. -/
def freshName : Parse Bytes := do
  let n := (← get).unique
  modify fun s => { s with unique := n + 1 }
  return ascii ".L.." ++ Bytes.ofNat n

/- Add a variable of the unit without a name of its own. -/
def newAnonymous (t : CType) : Parse ObjId := do
  newGlobal (← freshName) t

/- Add a variable that holds given bytes. -/
def newString (data : Bytes) (t : CType) : Parse ObjId := do
  let id ← newAnonymous t
  modifyObject id fun o => { o with data? := some data }
  return id

/- The function of a name at file scope. -/
def function? (name : Bytes) : Parse (Option ObjId) := do
  match ← lookupGlobal? name with
  | some (.object id) => return if (← object id).isFunction then some id else none
  | _ => return none

/- Record a jump to a label of the function being read; `t` is the label's name. -/
def newJump (t : Token) : Parse JumpId := do
  let id := (← get).jumps.size
  modify fun s => { s with
    jumps := s.jumps.push []
    pending := s.pending ++ [⟨id, t.text, t.place⟩] }
  return id

end Parse

end CCompiler
