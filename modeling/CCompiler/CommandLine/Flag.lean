import CCompiler.Text.Quoted

/-
  This file defines command-line flags in the style of
  compiler drivers and the reading of arguments.  A flag that
  takes a value accepts it as the next argument, after an
  equals sign, or glued to its name; a glued value goes to the
  longest name that fits.

  Key definitions include:
    * `FlagValue`, `Flag`, `FlagGroup`, `FlagSet`
    * `FlagSet.add`
    * `FlagSet.lookup?`, `FlagSet.longestFit?`
    * `FlagSet.parse`
-/

namespace CCompiler

------------
-- Values
------------

/-
  What a flag holds.  A hook keeps the last value only; every
  occurrence is handed to the program in order.
-/
inductive FlagValue
| text (s : Bytes)
| switch (on : Bool)
| list (items : List Bytes)
| hook (last : Bytes)
deriving DecidableEq, Repr

/- Why arguments were refused. -/
inductive FlagFault
| missingArgument (arg : Bytes)
| unknownArgument (arg : Bytes)
| invalidBool (value : Bytes)
| rejected (message : Bytes)
deriving DecidableEq, Repr

/- The wording of a refusal. -/
def FlagFault.message : FlagFault → Bytes
| .missingArgument arg => ascii "missing argument to '" ++ arg ++ ascii "'"
| .unknownArgument arg => ascii "unknown argument: '" ++ arg ++ ascii "'"
| .invalidBool v =>
  ascii "invalid boolean value '" ++ v ++ ascii "': strconv.ParseBool: parsing " ++
    Quoted.quote v ++ ascii ": invalid syntax"
| .rejected m => m

namespace FlagValue

/- The text of a truth value. -/
def boolText (b : Bool) : Bytes :=
  if b then ascii "true" else ascii "false"

/- The truth value of a text. -/
def bool? (s : Bytes) : Option Bool :=
  if ["1", "t", "T", "TRUE", "true", "True"].any (ascii · == s) then some true
  else if ["0", "f", "F", "FALSE", "false", "False"].any (ascii · == s) then some false
  else none

/- A value as shown to the user. -/
def render : FlagValue → Bytes
| .text s => s
| .switch b => boolText b
| .list items => Bytes.join (ascii ", ") items
| .hook s => s

/- A value as shown in a listing, with brackets around a list. -/
def listing : FlagValue → Bytes
| .list items => ascii "[" ++ Bytes.join (ascii " ") items ++ ascii "]"
| v => v.render

/- A value after one more occurrence of its flag. -/
def assign (v : FlagValue) (s : Bytes) : Except FlagFault FlagValue :=
  match v with
  | .text _ => .ok (.text s)
  | .switch _ =>
    if s.isEmpty then .ok (.switch true)
    else
      match bool? s with
      | some b => .ok (.switch b)
      | none => .error (.invalidBool s)
  | .list items => .ok (.list (items ++ [s]))
  | .hook _ => .ok (.hook s)

end FlagValue

------------
-- Flags
------------

/- A flag; its name is written without the dash. -/
structure Flag where
  name : Bytes
  usage : Bytes := []
  value : FlagValue
  defaultText : Bytes := []
  expected : Bytes := []
  isHidden : Bool := false

namespace Flag

/- Whether a flag takes no value. -/
def isSwitch (f : Flag) : Bool :=
  match f.value with
  | .switch _ => true
  | _ => false

/- Whether every occurrence of a flag is handed to the program. -/
def isHook (f : Flag) : Bool :=
  match f.value with
  | .hook _ => true
  | _ => false

end Flag

/- One switch of a family, on the help page. -/
structure GroupEntry where
  name : Bytes
  usage : Bytes := []
  enabled : Bool := false

/- A family of switches that share their first letters. -/
structure FlagGroup where
  title : Bytes
  letters : Bytes
  noun : Bytes
  header : Bytes
  entries : List GroupEntry

/- The flags of a program. -/
structure FlagSet where
  flags : List Flag := []
  groups : List FlagGroup := []

/- Why a flag cannot be added. -/
inductive RegisterFault
| emptyName
| redefined (name : Bytes)
deriving DecidableEq, Repr

/- The wording of a refused flag. -/
def RegisterFault.message : RegisterFault → Bytes
| .emptyName => ascii "flag name cannot be empty"
| .redefined name => ascii "flag redefined: " ++ name

namespace FlagSet

/- The flag of a name. -/
def lookup? (s : FlagSet) (name : Bytes) : Option Flag :=
  s.flags.find? fun f => f.name == name

/- Add a flag under a name that is not taken. -/
def add (s : FlagSet) (f : Flag) : Except RegisterFault FlagSet :=
  if f.name.isEmpty then .error .emptyName
  else if (s.lookup? f.name).isSome then .error (.redefined f.name)
  else .ok { s with flags := s.flags ++ [f] }

/- Add a family of switches; its letters become a flag that the help page leaves out. -/
def addGroup (s : FlagSet) (g : FlagGroup) : Except RegisterFault FlagSet := do
  let flag : Flag :=
    { name := g.letters, value := .hook [], expected := g.noun, isHidden := true }
  let s ← s.add flag
  return { s with groups := s.groups ++ [g] }

/- The value-taking flag with the longest name that a text properly starts with. -/
def longestFit? (s : FlagSet) (text : Bytes) : Option Flag :=
  s.flags.foldl (fun best f =>
    if f.isSwitch || !text.startsWith f.name || text.length == f.name.length then best
    else
      match best with
      | none => some f
      | some b => if f.name.length > b.name.length then some f else best) none

/- Replace the value of a flag. -/
def update (s : FlagSet) (name : Bytes) (v : FlagValue) : FlagSet :=
  { s with flags := s.flags.map fun f => if f.name == name then { f with value := v } else f }

------------
-- Reading arguments
------------

/- What an argument asks for. -/
inductive Request
| positional
| endOfFlags
| assign (f : Flag) (value : Bytes)
| assignNext (f : Flag)
| unknown

/- How an argument is to be read. -/
def classify (s : FlagSet) (arg : Bytes) : Request :=
  match arg with
  | dash :: second :: rest =>
    if dash != Bytes.of '-' then .positional
    else if arg == ascii "--" then .endOfFlags
    else
      let name := if second == Bytes.of '-' then rest else second :: rest
      match s.lookup? name with
      | some f => if f.isSwitch then .assign f [] else .assignNext f
      | none =>
        let afterEquals := (Bytes.splitAt? (Bytes.of '=') name).bind fun (n, v) =>
          (s.lookup? n).map fun f => (f, v)
        match afterEquals with
        | some (f, v) => .assign f v
        | none =>
          match s.longestFit? name with
          | some f => .assign f (name.drop f.name.length)
          | none => .unknown
  | _ => .positional

/-
  What reading the arguments gave: the flags with their
  values, the other arguments, the occurrences of hooks in
  order, and why reading stopped early, if it did.
-/
structure Parsed where
  flags : FlagSet
  positional : List Bytes := []
  calls : List (Bytes × Bytes) := []
  fault? : Option FlagFault := none

/-
  Give a flag a value.  A hook is called after its value is
  recorded; `reject?` says whether the program refuses it.
-/
def Parsed.assign
    (p : Parsed)
    (reject? : Bytes → Bytes → Option Bytes)
    (name value : Bytes) : Parsed :=
  match p.flags.lookup? name with
  | none => p
  | some f =>
    match f.value.assign value with
    | .error e => { p with fault? := some e }
    | .ok v =>
      let p := { p with flags := p.flags.update name v }
      if f.isHook then
        { p with
          calls := p.calls ++ [(name, value)]
          fault? := (reject? name value).map .rejected }
      else p

/- Read arguments up to the first refusal. -/
def parseFrom (reject? : Bytes → Bytes → Option Bytes) (p : Parsed) : List Bytes → Parsed
| [] => p
| arg :: rest =>
  if p.fault?.isSome then p
  else
    match p.flags.classify arg with
    | .positional => parseFrom reject? { p with positional := p.positional ++ [arg] } rest
    | .endOfFlags => { p with positional := p.positional ++ rest }
    | .assign f v => parseFrom reject? (p.assign reject? f.name v) rest
    | .assignNext f =>
      match rest with
      | [] => { p with fault? := some (.missingArgument arg) }
      | v :: rest => parseFrom reject? (p.assign reject? f.name v) rest
    | .unknown => { p with fault? := some (.unknownArgument arg) }

/- Read the arguments of a program. -/
def parse
    (s : FlagSet)
    (reject? : Bytes → Bytes → Option Bytes)
    (args : List Bytes) : Parsed :=
  parseFrom reject? { flags := s } args

end FlagSet

end CCompiler
