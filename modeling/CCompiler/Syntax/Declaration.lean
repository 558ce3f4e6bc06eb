import CCompiler.Syntax.Declarator
import CCompiler.Syntax.InitialValue
import CCompiler.Syntax.Vla

/-
  This file reads declarations: of variables in a block, of
  type names, of variables of the unit and of functions with
  their bodies.

  Key definitions include:
    * `Declaration.declaration`
    * `Declaration.typedefs`
    * `Declaration.unitVariables`
    * `Declaration.function`
-/

namespace CCompiler

namespace Declaration

open Parse Grammar Specifier Operator InitialValue

------------
-- Variables of a block
------------

/- A variable of a block that lives as long as the program. -/
def staticVariable (read : Reader) (d : Declared) (name : Token) (attr : VarAttr) :
    Parse Unit := do
  let v ← newAnonymous d.type
  bindName name.text (.object v)
  if attr.align != 0 then modifyObject v fun o => { o with align := attr.align }
  if ← accept "=" then globalInit read v

/- An array of the length found here: a pointer to memory on the stack. -/
def vlaVariable (d : Declared) (name : Token) : Parse Stmt := do
  let t ← tok
  if t.is "=" then fail t .vlaInitialized
  let v ← newLocal name.text d.type
  let mem ← Vla.alloca (← vlaSizeVar d.type name)
  return .expr name (assign (.vlaPtr ⟨name, none⟩ v) mem name)

/- A variable of a block. -/
def plainVariable (read : Reader) (d : Declared) (name : Token) (align : Int) :
    Parse (List Stmt) := do
  let v ← newLocal name.text d.type
  if align != 0 then modifyObject v fun o => { o with align := align }
  let t ← tok
  let body ← if t.is "=" then do
      advance
      let e ← localInit read v
      pure [Stmt.expr t e]
    else pure []
  let type := (← object v).type
  if (← sizeOf type) < 0 then fail name .incompleteVariable
  if type.isVoid then fail name .variableVoid
  return body

/- One variable of a declaration: what it does, and the attributes so far. -/
def blockVariable (read : Reader) (base : CType) (attr? : Option VarAttr) :
    Parse (List Stmt × Option VarAttr) := do
  let d ← read (.declarator base)
  if d.type.isVoid then fail (← tok) .variableVoid
  match d.name? with
  | none => fail d.pos .variableNameOmitted
  | some name =>
    let attr? ← attributesOn? read attr?
    let attr := attr?.getD {}
    if attr.isStatic then
      staticVariable read d name attr
      return ([], attr?)
    else
      let t ← tok
      let sizes : Stmt := .expr t (← Vla.storeSizes t d.type)
      if d.type.isVla then
        return ([sizes, ← vlaVariable d name], attr?)
      else
        return (sizes :: (← plainVariable read d name attr.align), attr?)

/- The variables of a declaration in a block, up to its semicolon. -/
def declaration (read : Reader) (base : CType) (attr? : Option VarAttr) : Parse Stmt := do
  let body ← iterate (true, attr?, #[]) fun (first, attr?, (body : Array Stmt)) => do
    if ← check ";" then return .inr body
    if !first then expect ","
    let (ss, attr?) ← blockVariable read base attr?
    return .inl (false, attr?, body ++ ss.toArray)
  let t ← tok
  advance
  return .block t body.toList

------------
-- Type names
------------

/- The names that a typedef defines. -/
def typedefs (read : Reader) (base : CType) : Parse Unit :=
  iterate true fun first => do
    if ← accept ";" then return .inr ()
    if !first then expect ","
    let d ← read (.declarator base)
    match d.name? with
    | none => fail d.pos .typedefNameOmitted
    | some name =>
      skipAttributes read
      bindName name.text (.typedef d.type)
      return .inl false

------------
-- Variables of the unit
------------

/-
  Check a variable against an earlier declaration of its
  name.  The result is whether it takes over internal linkage
  from it.
-/
def checkRedeclared (name : Token) (type : CType) (attr : VarAttr) : Parse Bool := do
  match ← lookupGlobal? name.text with
  | none => return false
  | some (.object id) =>
    let prev ← object id
    if prev.isFunction then fail name .differentKind
    if !CType.sameObject (← records) prev.type type then
      fail name (.conflictingTypes name.text)
    if attr.isStatic && !prev.isStatic then fail name .staticAfterNonStatic
    if !attr.isStatic && !attr.isExtern && prev.isStatic then fail name .nonStaticAfterStatic
    return attr.isExtern && prev.isStatic
  | some _ => fail name .differentKind

/- One variable of the unit: the attributes after it. -/
def unitVariable (read : Reader) (base : CType) (attr : VarAttr) : Parse VarAttr := do
  let d ← read (.declarator base)
  match d.name? with
  | none => fail d.pos .globalNameOmitted
  | some name =>
    if d.type.isVoid then fail name .variableVoid
    if d.type.isVla then fail name .vlaAtFileScope
    let attr ← attributesOn read attr
    let inherited ← checkRedeclared name d.type attr
    let v ← newGlobal name.text d.type
    modifyObject v fun o => { o with
      isDefinition := !attr.isExtern
      isStatic := attr.isStatic || inherited
      isThreadLocal := attr.isThreadLocal
      align := alignOr attr.align o.align }
    if ← accept "=" then
      if (← get).initialized.contains name.text then fail name (.redefinition name.text)
      modify fun s => { s with initialized := name.text :: s.initialized }
      globalInit read v
    else if !attr.isExtern && !attr.isThreadLocal then
      modifyObject v fun o => { o with isTentative := true }
    skipAttributes read
    return attr

/- The variables of a declaration of the unit. -/
def unitVariables (read : Reader) (base : CType) (attr : VarAttr) : Parse Unit :=
  iterate (true, attr) fun (first, attr) => do
    if ← accept ";" then return .inr ()
    if !first then expect ","
    return .inl (false, ← unitVariable read base attr)

------------
-- Functions
------------

/- Whether the declarator here declares a function. -/
def atFunction (read : Reader) : Parse Bool := do
  if ← check ";" then return false
  let start ← cursor
  skipAttributes read
  let d ← read (.declarator .void)
  rewind start
  return d.type.isFunction

/- The symbol that a function is given by hand, if any. -/
def symbolName : Parse Bytes := do
  if ← checkAny ["asm", "__asm__"] then
    advance
    expect "("
    let t ← tok
    match t.kind with
    | .str _ bytes =>
      advance
      expect ")"
      return bytes.dropLast
    | _ => fail t .expectedString
  else return []

/- The function of a name that was declared before, or a new one. -/
def declareFunction (name : Bytes) (type : CType) (attr : VarAttr) (isBody : Bool) :
    Parse ObjId := do
  match ← function? name with
  | some id =>
    let f ← object id
    if f.isDefinition && isBody then fail (← tok) (.redefinition name)
    if !f.isStatic && attr.isStatic then fail (← tok) .staticAfterNonStatic
    modifyObject id fun o => { o with
      isDefinition := o.isDefinition || isBody
      type := if isBody then type else o.type }
    return id
  | none =>
    let id ← newGlobal name type
    modifyObject id fun o => { o with
      isFunction := true
      isDefinition := isBody
      isStatic := attr.isStatic || (attr.isInline && !attr.isExtern)
      isInline := attr.isInline }
    return id

/- Only functions may share a name at file scope; the builtin one may be declared again. -/
def checkFunctionName (name : Token) : Parse Unit := do
  if ← atFileScope then
    match ← lookupGlobal? name.text with
    | none => pure ()
    | some (.object id) =>
      if !(← object id).isFunction && id != (← get).alloca then fail name .differentKind
    | some _ => fail name .differentKind

/- The parameters of a function as variables. -/
def bindParameters : List CType → List ParamName → Parse Unit
| t :: ts, n :: ns => do
  match n.name? with
  | none => fail n.pos .parameterNameOmitted
  | some name =>
    let _ ← newLocal name.text t
    bindParameters ts ns
| _, _ => return ()

/- Give a name in the body the text of the function's own name. -/
def bindOwnName (known : String) (name : Bytes) : Parse Unit := do
  let data := name ++ [0]
  let v ← newString data (← arrayOf .char data.length)
  bindName (ascii known) (.object v)

/-
  Give every jump of the function just read its label.  Of
  labels with one name the last one counts.
-/
def resolveJumps : Parse Unit := do
  let s ← get
  for j in s.pending do
    match s.labels.lookup j.label with
    | none => throw (.fault .undeclaredLabel j.place)
    | some unique =>
      modify fun s => { s with jumps := s.jumps.setIfInBounds j.id unique }
  modify fun s => { s with pending := [], labels := [] }

/- The body of a function, from its opening brace on. -/
def functionBody (read : Reader) (f : ObjId) (name : Bytes) (type : CType) : Parse Unit := do
  modify fun s => { s with function? := some f, locals := #[] }
  enterScope
  match type.plain with
  | .func ret params names variadic =>
    bindParameters params names
    let own := (← get).locals.toList
    let params ← if ret.isRecord && (← sizeOf ret) > 16 then do
        let buffer ← newLocal [] (.ptr ret)
        pure (buffer :: own)
      else pure own
    modifyObject f fun o => { o with params := params }
    if variadic then
      let area ← newLocal (ascii "__va_area__") (← arrayOf .char 136)
      modifyObject f fun o => { o with vaArea? := some area }
  | _ => throw .internal
  let bottom ← newLocal (ascii "__alloca_size__") (.ptr .char)
  modifyObject f fun o => { o with allocaBottom? := some bottom }
  expect "\x7b"
  bindOwnName "__func__" name
  bindOwnName "__FUNCTION__" name
  let body ← read .compound
  let locals := (← get).locals.toList
  modifyObject f fun o => { o with body? := some body, locals := locals }
  leaveScope
  resolveJumps
  modify fun s => { s with function? := none }

/- A declaration or definition of a function after its specifiers. -/
def function (read : Reader) (base : CType) (attr : VarAttr) : Parse Unit := do
  let d ← read (.declarator base)
  match d.name? with
  | none => fail d.pos .functionNameOmitted
  | some name =>
    let symbol ← symbolName
    skipAttributes read
    let isBody ← check "\x7b"
    if isBody && (← get).function?.isSome then fail name .functionNotAllowedHere
    checkFunctionName name
    let f ← declareFunction name.text d.type attr isBody
    modifyObject f fun o => { o with
      isRoot := !(o.isStatic && o.isInline)
      asmName := if symbol.isEmpty then o.asmName else symbol }
    if !(← accept ";") then functionBody read f name.text d.type

end Declaration

end CCompiler
