import Mathlib
import CCompiler.Proofs.Syntax.KeptExpressions

/-
  Reading statements keeps an account, and with it reading any
  phrase.  How a declaration of a function is read is a
  parameter here, so that a stricter way can be looked at too.

  Main declarations:
    * `Declaration.keeps_declaration`
    * `Statement.compoundWith`, `Statement.keeps_stmt`
    * `TranslationUnit.readWith`, `TranslationUnit.readWith_function`
    * `TranslationUnit.reads`, `TranslationUnit.sound_of_declarationsWith`
-/

namespace CCompiler

set_option synthInstance.maxSize 20000

open Parse Account

variable {A : Account} {s : ParseState} {r : Reader} [hReads : A.Reads r]
  {F : Reader → CType → VarAttr → Parse Unit}

------------
-- Declarations
------------

namespace Declaration

open Grammar Specifier

/- Statements as the result. -/
theorem keeps_stmts {bs : List Stmt} (hStmts : A.Oks s (Stmt.namesAll bs)) :
    A.Keeps s (pure bs) fun u bs => A.Oks u (Stmt.namesAll bs) :=
  keeps_return (fun hGrows h => Oks.mono h hGrows) hStmts

variable [hRules : A.Rules]

theorem runs_staticVariable (d : Declared)
    (name : Token) (attr : VarAttr) : A.Runs s (staticVariable r d name attr) := by
  refine (hRules.newAnonymous s d.type).bind fun u v _ hVar =>
    Keeps.step (hRules.bindName u name.text v hVar.2.lt) fun _ => ?_
  have hInit : A.Runs u (do
      if ← accept "=" then InitialValue.globalInit r v) :=
    keeps_after fun _ => keeps_ite (fun _ => hRules.globalInit u r v hVar.2)
      (fun _ => runs_pure _)
  exact keeps_ite (fun _ => Keeps.step (hRules.setAlign u v _ (.inr hVar.2)) fun _ => hInit)
    (fun _ => hInit)

theorem keeps_vlaVariable (d : Declared) (name : Token) :
    A.Keeps s (vlaVariable d name) A.stmt := by
  refine keeps_after fun t => keeps_ite (fun _ => keeps_fail_bind _ _ _) fun _ => ?_
  refine Keeps.step (hRules.newLocal s _ _).runs fun v => ?_
  refine (Operator.keeps_vlaSizeVar _ _).bind fun u size _ hSize =>
    (Vla.keeps_alloca hSize).bind fun w mem _ hMem =>
    keeps_return (fun hGrows h => Oks.mono h hGrows) ?_
  exact Oks.append oks_nil hMem

theorem keeps_plainVariable (d : Declared)
    (name : Token) (align : Int) :
    A.Keeps s (plainVariable r d name align) fun u bs => A.Oks u (Stmt.namesAll bs) := by
  refine (hRules.newLocal s name.text d.type).bind fun u v _ hVar => ?_
  have hCheck : ∀ {w} (bs : List Stmt), A.Oks w (Stmt.namesAll bs) → A.Keeps w (do
        let type := (← object v).type
        if (← sizeOf type) < 0 then fail name .incompleteVariable
        if type.isVoid then fail name .variableVoid
        return bs) fun u bs => A.Oks u (Stmt.namesAll bs) :=
    fun bs hStmts => keeps_after fun _ =>
      keeps_after fun _ => keeps_ite
        (fun _ => keeps_fail_bind _ _ _) fun _ => keeps_ite
        (fun _ => keeps_fail_bind _ _ _) fun _ => keeps_stmts hStmts
  have hValue : A.Keeps u (do
      let t ← tok
      let body ← if t.is "=" then do
          advance
          let e ← InitialValue.localInit r v
          pure [Stmt.expr t e]
        else pure []
      let type := (← object v).type
      if (← sizeOf type) < 0 then fail name .incompleteVariable
      if type.isVoid then fail name .variableVoid
      return body) fun u bs => A.Oks u (Stmt.namesAll bs) := by
    refine keeps_after fun t => keeps_ite (fun _ => ?_) fun _ => hCheck [] oks_nil
    refine keeps_after fun _ =>
      (InitialValue.keeps_localInit hVar.1 hVar.2).bind fun w e _ hTree => hCheck _ ?_
    exact Oks.append hTree oks_nil
  exact keeps_ite (fun _ => Keeps.step (hRules.setAlign u v _ (.inl hVar.2)) fun _ => hValue)
    (fun _ => hValue)

theorem keeps_blockVariable (base : CType)
    (attr? : Option VarAttr) :
    A.Keeps s (blockVariable r base attr?) fun u x => A.Oks u (Stmt.namesAll x.1) := by
  have hEnd : ∀ {w} (bs : List Stmt) (attr? : Option VarAttr),
      A.Oks w (Stmt.namesAll bs) → A.Keeps w (pure (bs, attr?))
        fun u x => A.Oks u (Stmt.namesAll x.1) :=
    fun bs attr? hStmts => keeps_pure fun _ _ hLater => Oks.mono hStmts hLater
  refine keeps_after fun d =>
    keeps_ite (fun _ => keeps_after fun _ => keeps_fail_bind _ _ _) fun _ => ?_
  split
  · exact keeps_fail _ _
  · rename_i name hName
    refine keeps_after fun attr? =>
      keeps_ite (fun _ => (runs_staticVariable _ _
        _).step fun _ => hEnd [] attr? oks_nil) fun _ =>
      keeps_after fun t =>
      (Vla.keeps_storeSizes t d.type).bind
        fun u sizes _ hSizes => keeps_ite (fun _ => ?_) fun _ => ?_
    · exact (keeps_vlaVariable d name).bind fun w b hLater hStmt => hEnd _ _
          ((hSizes.mono hLater).append (hStmt.append oks_nil))
    · exact (keeps_plainVariable d name _).bind fun w bs hLater hStmts => hEnd _ _
          ((hSizes.mono hLater).append hStmts)

theorem keeps_declaration (base : CType)
    (attr? : Option VarAttr) : A.Keeps s (declaration r base attr?) A.stmt := by
  refine Keeps.bind (Q := fun u (body : Array Stmt) => A.Oks u (Stmt.namesAll body.toList)) ?_
    fun u body _ hBody => keeps_after fun t =>
      keeps_after fun _ =>
      keeps_return (fun hGrows h => Oks.mono h hGrows) hBody
  refine keeps_iterate (R := fun u (body : Array Stmt) => A.Oks u (Stmt.namesAll body.toList))
    (J := fun u (x : Bool × Option VarAttr × Array Stmt) => A.Oks u (Stmt.namesAll x.2.2.toList))
    (fun hGrows h => Oks.mono h hGrows) (fun u x _ hBody => ?_) oks_nil
  obtain ⟨first, attr?, body⟩ := x
  refine keeps_after fun _ => keeps_ite
    (fun _ => keeps_pure fun _ _ hLater => Oks.mono hBody hLater)
    fun _ => ?_
  refine keeps_separated ?_
  exact (keeps_blockVariable base attr?).bind
    fun w x hMore hStmts => keeps_pure fun y _ hLater => by
      change A.Oks y (Stmt.namesAll (body ++ x.1.toArray).toList)
      rw [Array.toList_append, Stmt.namesAll_append]
      exact (hBody.mono (A.trans hMore hLater)).append (hStmts.mono hLater)

instance safe_typedefs (base : CType) : A.Safe (typedefs r base) := by
  dsimp only [typedefs]
  refine safe_loop fun first => safe_step fun b => safe_choice inferInstance ?_
  refine safe_choice (safe_step fun _ => ?_) ?_
  all_goals
    refine safe_step fun d => ?_
    split <;> infer_instance

/- Attributes behind a declarator do not say that it is external. -/
theorem gives_attributesOn (attr : VarAttr) :
    Gives (attributesOn r attr) (·.isExtern = attr.isExtern) := gives_bind fun _ => gives_pure rfl

theorem gives_unitVariable (base : CType) (attr : VarAttr) :
    Gives (unitVariable r base attr) (·.isExtern = attr.isExtern) := by
  refine gives_bind fun d => ?_
  split
  · exact gives_fail _ _
  · refine gives_unless <| gives_unless <| (gives_attributesOn attr).bind fun attr' hSame =>
      gives_bind fun _ => gives_bind fun _ => gives_bind fun _ =>
      gives_bind fun _ => gives_ite (fun _ => ?_) fun _ =>
      gives_ite (fun _ => ?_) fun _ => ?_
    · exact gives_bind fun _ => gives_unless <| gives_bind fun _ =>
        gives_bind fun _ => gives_bind fun _ => gives_pure hSame
    · exact gives_bind fun _ => gives_bind fun _ => gives_pure hSame
    · exact gives_bind fun _ => gives_pure hSame

theorem runs_unitVariables (base : CType)
    (attr : VarAttr) (hPlace : attr.isExtern = true ∨ A.outer s) :
    A.Runs s (unitVariables r base attr) := by
  refine keeps_iterate (J := fun u (x : Bool × VarAttr) => x.2.isExtern = true ∨ A.outer u)
    (R := fun _ _ => True) (fun _ h => h) (fun u x _ hHere => ?_)
    hPlace
  refine keeps_after fun _ =>
    keeps_ite (fun _ => keeps_pure fun _ _ _ => trivial) fun _ => ?_
  refine keeps_separated ?_
  refine ((hRules.unitVariable u r base x.2 hHere).giving (gives_unitVariable base x.2)).bind
    fun w attr' hMore hSame => keeps_pure fun y _ hLater => ?_
  exact hHere.imp (fun hExtern => hSame.2.trans hExtern) (A.stays (A.trans hMore hLater))

instance safe_atFunction : A.Safe (atFunction r) := by
  dsimp only [atFunction]
  infer_instance

end Declaration

------------
-- Statements
------------

namespace Statement

open Grammar Specifier Typing

/- A statement as the result. -/
theorem keeps_result {b : Stmt} (hStmt : A.stmt s b) : A.Keeps s (pure b) A.stmt :=
  keeps_return (fun hGrows h => Oks.mono h hGrows) hStmt

/- A step that changes labels and jumps only. -/
instance still_relabel (jumps : ParseState → Array Bytes) (pending : ParseState → List PendingJump)
    (labels : ParseState → List (Bytes × Bytes)) (brk cont : ParseState → Bytes)
    (switch? : ParseState → Option SwitchFrame) :
    Still (modify fun s => { s with
      jumps := jumps s
      pending := pending s
      labels := labels s
      brk := brk s
      cont := cont s
      switch? := switch? s }) :=
  still_modify fun _ => ⟨rfl, rfl, rfl, rfl, rfl, rfl, fun _ h => h⟩

instance still_modifySwitch (f : SwitchFrame → SwitchFrame) : Still (modifySwitch f) := by
  unfold modifySwitch
  infer_instance

instance still_asmText : Still asmText := by
  dsimp only [asmText]
  refine still_step fun _ => still_step fun _ => still_step fun _ => still_step fun t => ?_
  split <;> infer_instance

theorem keeps_exprStmt : A.Keeps s (exprStmt r) A.stmt :=
  keeps_after fun _ => keeps_ite
    (fun _ => keeps_after fun _ => keeps_result oks_nil)
    (fun _ => hReads.expr.bind fun _ _ _ hExpr =>
      keeps_after fun _ => keeps_result hExpr)

theorem keeps_returnStmt (t : Token) : A.Keeps s (returnStmt r t) A.stmt := by
  refine keeps_after fun _ =>
    keeps_after fun _ =>
    keeps_ite (fun _ => keeps_result oks_nil) fun _ =>
    hReads.expr.bind fun u e _ hExpr =>
    keeps_after fun _ =>
    keeps_typed hExpr fun e hExpr => keeps_get fun w _ hLater => ?_
  have hExpr := hExpr.mono hLater
  split
  · exact keeps_throw _
  · refine keeps_after fun _ => ?_
    split
    · exact keeps_throw _
    · exact keeps_ite (fun _ => keeps_result hExpr) fun _ =>
        (Operator.keeps_newCast _ hExpr).bind fun _ _ _ hCast => keeps_result hCast

theorem keeps_gotoStmt (t : Token) : A.Keeps s (gotoStmt r t) A.stmt :=
  keeps_after fun _ =>
    keeps_after fun _ => keeps_ite (fun _ => hReads.expr.bind fun _ _ _ hExpr =>
        keeps_after fun _ => keeps_result hExpr)
      (fun _ => keeps_after fun _ =>
        keeps_after fun _ =>
        keeps_after fun _ =>
        keeps_after fun _ =>
        keeps_after fun _ => keeps_result oks_nil)

theorem keeps_leaveStmt (t : Token) (target : Bytes) (cause : Fault) :
    A.Keeps s (leaveStmt t target cause) A.stmt :=
  keeps_ite (fun _ => keeps_fail_bind _ _ _) fun _ =>
    keeps_after fun _ =>
    keeps_after fun _ => keeps_result oks_nil

theorem keeps_labelStmt (t : Token) : A.Keeps s (labelStmt r t) A.stmt :=
  keeps_after fun _ => keeps_after fun _ =>
    keeps_after fun _ => keeps_after fun _ =>
    hReads.stmt.bind fun _ _ _ hStmt => keeps_result hStmt

theorem keeps_condition : A.Keeps s (condition r) A.expr :=
  keeps_after fun _ =>
    hReads.expr.bind fun _ _ _ hExpr =>
    keeps_after fun _ => keeps_tree hExpr

theorem keeps_ifStmt (t : Token) : A.Keeps s (ifStmt r t) A.stmt := by
  refine keeps_after fun _ =>
    keeps_condition.bind fun u c _ hCond =>
    hReads.stmt.bind fun w thn hMore hThen =>
    keeps_after fun _ => keeps_ite (fun _ => ?_) fun _ => keeps_result
        (((hCond.mono hMore).append hThen).append oks_nil)
  rw [map_eq_pure_bind]
  refine Keeps.bind (Q := fun u b? => A.Oks u (Stmt.names? b?))
    (hReads.stmt.bind fun x els _ hElse => keeps_return (fun hGrows h => Oks.mono h hGrows) hElse)
    fun x els hLater hElse => keeps_result ?_
  exact ((hCond.mono (A.trans hMore hLater)).append (hThen.mono hLater)).append hElse

theorem keeps_switchStmt (t : Token) : A.Keeps s (switchStmt r t) A.stmt := by
  refine keeps_after fun _ =>
    keeps_condition.bind fun u c _ hCond =>
    keeps_get fun u₁ _ h₁ => keeps_get fun u₂ _ h₂ =>
    keeps_after fun _ =>
    keeps_after fun _ =>
    hReads.stmt.bind fun w body hMore hBody =>
    keeps_get fun x _ hLater =>
    keeps_after fun _ => keeps_result ?_
  exact (hCond.mono (A.trans (A.trans (A.trans h₁ h₂) hMore) hLater)).append (hBody.mono hLater)

theorem keeps_caseStmt (t : Token) : A.Keeps s (caseStmt r t) A.stmt := by
  have hEnd : ∀ {u} (first last : Int64), A.Keeps u (do
      expect ":"
      let label ← freshName
      modifySwitch fun f => { f with
        arms := f.arms ++ [⟨label, first, last⟩] }
      return Stmt.case t label first last (← r .stmt)) A.stmt :=
    fun _ _ => keeps_after fun _ =>
      keeps_after fun _ =>
      keeps_after fun _ =>
      hReads.stmt.bind fun _ _ _ hStmt => keeps_result hStmt
  refine keeps_get fun u _ _ =>
    keeps_ite (fun _ => keeps_fail_bind _ _ _) fun _ =>
    keeps_after fun _ =>
    keeps_after fun first =>
    keeps_after fun _ => keeps_ite (fun _ => ?_) fun _ => hEnd _ _
  refine keeps_after fun last => ?_
  exact keeps_ite (fun _ => keeps_after fun _ => keeps_fail_bind _ _ _) fun _ => hEnd _ _

theorem keeps_defaultStmt (t : Token) : A.Keeps s (defaultStmt r t) A.stmt :=
  keeps_get fun _ _ _ =>
    keeps_ite (fun _ => keeps_fail_bind _ _ _) fun _ =>
    keeps_after fun _ =>
    keeps_after fun _ =>
    keeps_after fun _ =>
    keeps_after fun _ =>
    hReads.stmt.bind fun _ _ _ hStmt => keeps_result hStmt

------------
-- Loops
------------

/- The inside of a loop keeps the account as the loop does. -/
theorem keeps_inLoop {α : Type} {inside : Bytes → Bytes → Parse α} {Q : ParseState → α → Prop}
    (hStable : ∀ {t u a}, A.grows t u → Q t a → Q u a)
    (hInside : ∀ brk cont t, A.grows s t →
      A.Keeps t (inside brk cont) Q) : A.Keeps s (inLoop inside) Q := by
  refine keeps_get fun u₁ _ h₁ => keeps_get fun u₂ _ h₂ =>
    keeps_after fun brk =>
    keeps_after fun cont =>
    keeps_after fun _ =>
    (hInside brk cont u₂ (A.trans h₁ h₂)).bind fun w a _ hResult =>
    keeps_after fun _ => keeps_return hStable hResult

theorem keeps_exprUntil (stop : String) :
    A.Keeps s (exprUntil r stop) fun u e? => A.Oks u (Expr.names? e?) := by
  have hEnd : ∀ {u} (e? : Option Expr), A.Oks u (Expr.names? e?) → A.Keeps u (do
        expect stop
        return e?) fun u e? => A.Oks u (Expr.names? e?) :=
    fun e? hOks => keeps_after fun _ =>
      keeps_return (fun hGrows h => Oks.mono h hGrows) hOks
  refine keeps_after fun _ => keeps_ite (fun _ => hEnd none oks_nil) fun _ => ?_
  rw [map_eq_pure_bind]
  exact Keeps.bind (Q := fun u e? => A.Oks u (Expr.names? e?))
    (hReads.expr.bind fun _ _ _ hExpr => keeps_return (fun hGrows h => Oks.mono h hGrows) hExpr)
    fun u e? _ hOks => hEnd e? hOks

theorem keeps_whileStmt (t : Token) : A.Keeps s (whileStmt r t) A.stmt := by
  refine keeps_after fun _ =>
    keeps_condition.bind fun u c _ hCond =>
    keeps_inLoop (Q := A.stmt) (fun hGrows h => Oks.mono h hGrows) fun brk cont w hMore => ?_
  exact hReads.stmt.bind fun x b hLater hBody => keeps_result
    (((Oks.append oks_nil (hCond.mono (A.trans hMore hLater))).append
      oks_nil).append hBody)

theorem keeps_doStmt (t : Token) : A.Keeps s (doStmt r t) A.stmt := by
  refine keeps_after fun _ =>
    (keeps_inLoop (Q := fun u (x : Stmt × Bytes × Bytes) =>
      A.stmt u x.1) (fun hGrows h => Oks.mono h hGrows)
      fun brk cont u _ => hReads.stmt.bind fun w b _ hBody =>
        keeps_pure fun _ _ hLater => Oks.mono hBody hLater).bind
    fun u x _ hBody => keeps_after fun _ =>
    keeps_condition.bind fun w c hLater hCond =>
    keeps_after fun _ => keeps_result ((hBody.mono hLater).append hCond)

variable [hRules : A.Rules]

theorem keeps_forInit : A.Keeps s (forInit r) A.stmt :=
  keeps_after fun _ =>
    keeps_after fun _ => keeps_ite
      (fun _ => keeps_after fun _ =>
        Declaration.keeps_declaration _ none)
      (fun _ => keeps_exprStmt)

theorem keeps_forStmt (t : Token) :
    A.Keeps s (forStmt r t) A.stmt := by
  refine keeps_after fun _ =>
    keeps_after fun _ =>
    keeps_after fun _ =>
    (keeps_inLoop (Q := A.stmt) (fun hGrows h => Oks.mono h hGrows)
      fun brk cont u _ => ?_).bind fun w b _ hStmt =>
      keeps_after fun _ => keeps_result hStmt
  refine keeps_forInit.bind fun u₁ i _ hInit =>
    (keeps_exprUntil _).bind fun u₂ c h₂ hTest =>
    (keeps_exprUntil _).bind fun u₃ n h₃ hNext =>
    hReads.stmt.bind fun u₄ b h₄ hBody => keeps_result ?_
  exact (((hInit.mono (A.trans (A.trans h₂ h₃) h₄)).append
    (hTest.mono (A.trans h₃ h₄))).append (hNext.mono h₄)).append hBody

/- A statement names what its parts name. -/
theorem keeps_stmt : A.Keeps s (stmt r) A.stmt := by
  refine keeps_after fun t => keeps_ite
    (fun _ => keeps_returnStmt t) fun _ => keeps_ite
    (fun _ => keeps_ifStmt t) fun _ => keeps_ite
    (fun _ => keeps_switchStmt t) fun _ => keeps_ite
    (fun _ => keeps_caseStmt t) fun _ => keeps_ite
    (fun _ => keeps_defaultStmt t) fun _ => keeps_ite
    (fun _ => keeps_forStmt t) fun _ => keeps_ite
    (fun _ => keeps_whileStmt t) fun _ => keeps_ite
    (fun _ => keeps_doStmt t) fun _ => keeps_ite
    (fun _ => keeps_after fun _ =>
      keeps_after fun _ => keeps_result oks_nil)
    fun _ => keeps_ite (fun _ => keeps_gotoStmt t) fun _ =>
    keeps_ite (fun _ => ?_) fun _ => keeps_ite (fun _ => ?_) fun _ => ?_
  · exact keeps_get fun _ _ _ => keeps_leaveStmt t _ _
  · exact keeps_get fun _ _ _ => keeps_leaveStmt t _ _
  · refine keeps_after fun _ => keeps_ite
      (fun _ => keeps_labelStmt t) fun _ => keeps_ite
      (fun _ => keeps_after fun _ => hReads.compound)
      fun _ => keeps_exprStmt

------------
-- Blocks
------------

/-
  A declaration in a block, where `function` reads the
  declaration of a function.
-/
def blockDeclarationWith
    (function : Reader → CType → VarAttr → Parse Unit)
    (read : Reader) :
    Parse (Option Stmt) := do
  let (base, attr?) ← read (.specifiers (some {}))
  let attr := attr?.getD {}
  if attr.isTypedef then
    Declaration.typedefs read base
    return none
  else if ← Declaration.atFunction read then
    function read base attr
    return none
  else if attr.isExtern then
    Declaration.unitVariables read base attr
    return none
  else return some (← Declaration.declaration read base (some attr))

/- One declaration or statement of a block. -/
def blockItemWith
    (function : Reader → CType → VarAttr → Parse Unit)
    (read : Reader) :
    Parse (Option Stmt) := do
  if (← isTypeName (← tok)) && !(← peekIs ":") then
    blockDeclarationWith function read
  else return some (← read .stmt)

/- A block after its opening brace. -/
def compoundWith
    (function : Reader → CType → VarAttr → Parse Unit)
    (read : Reader) :
    Parse Stmt := do
  let start ← tok
  enterScope
  let body ← iterate #[] fun (body : Array Stmt) => do
    let t ← tok
    if t.is "\x7d" then return .inr body
    if t.isEof then fail t (.expected (ascii "\x7d"))
    match ← blockItemWith function read with
    | some s => return .inl (body.push (← addTypeStmt s))
    | none => return .inl body
  leaveScope
  advance
  return .block start body.toList

theorem compoundWith_function (read : Reader) :
    compoundWith Declaration.function read = compound read := rfl

theorem keeps_blockDeclarationWith (hDeclares : A.Declares F) :
    A.Keeps s (blockDeclarationWith F r) fun u b? => A.Oks u (Stmt.names? b?) := by
  have hNone : ∀ {u}, A.Keeps u (pure (none : Option Stmt)) fun u b? => A.Oks u (Stmt.names? b?) :=
    keeps_pure fun _ _ _ => oks_nil
  refine keeps_after fun x => keeps_ite
    (fun _ => keeps_after fun _ => hNone)
    fun _ => keeps_after fun _ =>
    keeps_ite (fun _ => Keeps.step ((hDeclares r _ _).runs s)
      fun _ => hNone) fun _ => keeps_ite
    (fun hExtern => (Declaration.runs_unitVariables _ _
      (.inl hExtern)).step fun _ => hNone) fun _ => ?_
  exact (Declaration.keeps_declaration _ _).bind fun _ _ _ hStmt => keeps_return
      (fun hGrows h => Oks.mono h hGrows) hStmt

theorem keeps_blockItemWith (hDeclares : A.Declares F) :
    A.Keeps s (blockItemWith F r) fun u b? => A.Oks u (Stmt.names? b?) :=
  keeps_after fun _ => keeps_after fun _ => keeps_after fun _ => keeps_ite
      (fun _ => keeps_blockDeclarationWith hDeclares)
      (fun _ => hReads.stmt.bind fun _ _ _ hStmt => keeps_return
        (fun hGrows h => Oks.mono h hGrows) hStmt)

/- A block names what its items name. -/
theorem keeps_compoundWith (hDeclares : A.Declares F) :
    A.Keeps s (compoundWith F r) A.stmt := by
  refine keeps_after fun start =>
    keeps_after fun _ => Keeps.bind
    (Q := fun u (body : Array Stmt) => A.Oks u (Stmt.namesAll body.toList)) ?_
    fun u body _ hBody => keeps_after fun _ =>
      keeps_after fun _ => keeps_result hBody
  refine keeps_iterate (R := fun u (body : Array Stmt) => A.Oks u (Stmt.namesAll body.toList))
    (J := fun u (body : Array Stmt) => A.Oks u (Stmt.namesAll body.toList))
    (fun hGrows h => Oks.mono h hGrows) (fun u body _ hBody => ?_)
    oks_nil
  refine keeps_after fun t => keeps_ite
    (fun _ => keeps_pure fun _ _ hLater => Oks.mono hBody hLater)
    fun _ => keeps_ite (fun _ => keeps_fail_bind _ _ _) fun _ =>
    (keeps_blockItemWith hDeclares).bind fun w b? hMore hItem => ?_
  cases b? with
  | none => exact keeps_pure fun _ _ hLater => Oks.mono hBody (A.trans hMore hLater)
  | some b =>
    refine keeps_known (quiet_addTypeStmt b) fun b' hSame => keeps_pure fun y _ hLater => ?_
    change A.Oks y (Stmt.namesAll (body.push b').toList)
    rw [Array.toList_push, Stmt.namesAll_append, Stmt.namesAll,
      Stmt.namesAll, List.append_nil, hSame]
    exact (hBody.mono (A.trans hMore hLater)).append (Oks.mono hItem hLater)

end Statement

------------
-- Functions
------------

namespace Declaration

instance still_symbolName : Still symbolName := by
  refine still_step fun _ => still_choice ?_ inferInstance
  refine still_step fun _ => still_step fun _ => still_step fun t => ?_
  split <;> infer_instance

instance still_checkFunctionName (name : Token) : Still (checkFunctionName name) := by
  refine still_step fun _ => still_choice (still_step fun b => ?_) inferInstance
  split <;> infer_instance

instance still_forIn {α : Type} {step : α → PUnit → Parse (ForInStep PUnit)}
    [hStep : ∀ a b, Still (step a b)] (as : List α) : Still (forIn as PUnit.unit step) := by
  induction as with
  | nil => exact still_pure _
  | cons a as ih =>
    rw [List.forIn_cons]
    refine still_step fun x => ?_
    cases x with
    | done b => exact still_pure _
    | yield b => exact ih

instance still_resolveJumps : Still resolveJumps := by
  refine still_step fun s => ?_
  have hJump : ∀ (j : PendingJump) (_ : PUnit), Still (do
      match s.labels.lookup j.label with
      | none => throw (.fault .undeclaredLabel j.place)
      | some unique =>
        modify fun s => { s with jumps := s.jumps.setIfInBounds j.id unique }
      pure (.yield .unit) : Parse (ForInStep PUnit)) := by
    intro j _
    split <;> infer_instance
  have hJumps := @still_forIn _ _ hJump s.pending
  exact still_bind

variable [hRules : A.Rules]

instance safe_bindParameters (ts : List CType) (ns : List ParamName) :
    A.Safe (bindParameters ts ns) := by
  induction ts generalizing ns with
  | nil =>
    unfold bindParameters
    infer_instance
  | cons t ts ih =>
    cases ns with
    | nil =>
      unfold bindParameters
      infer_instance
    | cons n ns =>
      unfold bindParameters
      split
      · infer_instance
      · exact ⟨fun s => (hRules.newLocal s _ _).runs.step fun _ => (ih ns).runs s⟩

theorem spelt_bytes (rs : Records) (id : Nat) (data : Bytes) :
    Spelt data (CType.arrayOf rs id .char data.length) := by
  intro rs'
  change wrap64 (1 * (data.length : Int)) ≤ data.length
  unfold wrap64
  rw [Int.bmod_def]
  omega

instance safe_bindOwnName (known : String) (name : Bytes) : A.Safe (bindOwnName known name) where
  runs s := by
    refine keeps_known (Q := Spelt (name ++ [0])) ?_ fun type hSpelt => ?_
    · exact quiet_after fun id => quiet_after fun rs => quiet_pure (spelt_bytes rs id _)
    · exact (hRules.newString s _ type hSpelt).bind fun u v _ hNew =>
        hRules.bindName u _ v hNew.2

end Declaration

------------
-- Phrases
------------

namespace TranslationUnit

variable [hRules : A.Rules]

/-
  Read a phrase, where `function` reads the declaration of a
  function.
-/
def readWith (function : Reader → CType → VarAttr → Parse Unit) :
    Nat → {α : Type} → Phrase α → Parse α
| 0, _, _ => throw .internal
| n + 1, _, p =>
  match p with
  | .expr => Expression.expr (readWith function n)
  | .assign => Expression.assign (readWith function n)
  | .conditional => Expression.conditional (readWith function n)
  | .binary least => Expression.binary (readWith function n) least
  | .cast => Expression.cast (readWith function n)
  | .unary => Expression.unary (readWith function n)
  | .typeName => Declarator.typeName (readWith function n)
  | .specifiers attr? =>
    Specifier.specifiers (readWith function n) attr?
  | .declarator base => Declarator.declarator (readWith function n) base
  | .abstractDeclarator base =>
    Declarator.abstractDeclarator (readWith function n) base
  | .typeSuffix base => Declarator.typeSuffix (readWith function n) base
  | .stmt => Statement.stmt (readWith function n)
  | .compound =>
    Statement.compoundWith function (readWith function n)
  | .skipExcess => Initializer.skipExcess (readWith function n)
  | .initializer init =>
    Initializer.initializer (readWith function n) init
  | .designation init =>
    Initializer.designation (readWith function n) init

/- With the reading of functions put in, phrases are read as they are. -/
theorem readWith_function (n : Nat) : @readWith Declaration.function n = @read n := by
  induction n with
  | zero => rfl
  | succ n ih =>
    funext α p
    cases p <;> simp only [readWith, read, ih, Statement.compoundWith_function]

/- Every reader keeps an account with rules. -/
theorem reads (hDeclares : A.Declares F) (n : Nat) : A.Reads (@readWith F n) := by
  induction n with
  | zero => exact ⟨fun p s _ => keeps_throw _⟩
  | succ n ih =>
    refine ⟨fun p s hGiven => ?_⟩
    cases p with
    | expr => exact Expression.keeps_expr
    | assign => exact Expression.keeps_assign
    | conditional => exact Expression.keeps_conditional
    | binary least => exact Expression.keeps_binary least
    | cast => exact Expression.keeps_cast
    | unary => exact Expression.keeps_unary
    | stmt => exact Statement.keeps_stmt
    | compound => exact Statement.keeps_compoundWith hDeclares
    | initializer init => exact Initializer.keeps_initializer hGiven
    | designation init => exact Initializer.keeps_designation hGiven
    | typeName | specifiers | declarator | abstractDeclarator | typeSuffix | skipExcess =>
      dsimp only [readWith]
      exact Safe.runs s

------------
-- Units
------------

/-
  One declaration of the unit, where `function` reads the
  declaration of a function.
-/
def topLevelWith
    (function : Reader → CType → VarAttr → Parse Unit)
    (r : Reader) :
    Parse Unit := do
  let t ← tok
  if t.is "asm" || t.is "__asm__" then
    let text ← Statement.asmText
    modify fun s => { s with globals := s.globals.push (.asm t text) }
    let _ ← accept ";"
  else
    let (base, attr?) ← r (.specifiers (some {}))
    let attr := attr?.getD {}
    if attr.isTypedef then Declaration.typedefs r base
    else if ← Declaration.atFunction r then function r base attr
    else Declaration.unitVariables r base attr

/- All the declarations of a unit. -/
def declarationsWith
    (function : Reader → CType → VarAttr → Parse Unit)
    (r : Reader) :
    Parse Unit := do
  declareBuiltins
  iterate () fun _ => do
    if (← tok).isEof then return .inr ()
    topLevelWith function r
    return .inl ()

theorem declarationsWith_function (r : Reader) :
    declarationsWith Declaration.function r = declarations r := rfl

theorem runs_topLevelWith (hDeclares : A.Declares F) (hOuter : A.outer s) :
    A.Runs s (topLevelWith F r) :=
  keeps_after fun t => keeps_ite
    (fun _ => keeps_after fun text => Keeps.step ((hRules.asm t text).runs s) fun _ => Safe.runs s)
    fun _ => keeps_after fun _ => keeps_ite (fun _ => Safe.runs s) fun _ =>
    keeps_after fun _ => keeps_ite (fun _ => (hDeclares r _ _).runs s)
      fun _ => Declaration.runs_unitVariables _ _ (.inr hOuter)

/-
  What an account says of every unit that is read: it is kept
  from the builtin declarations on.
-/
theorem grows_of_declarationsWith (hDeclares : A.Declares F) {s' : ParseState}
    (hStart : ∀ t, declareBuiltins s = .ok () t →
      A.sound t ∧ A.outer t) (hRun : declarationsWith F r s = .ok () s') :
    ∃ t, declareBuiltins s = .ok () t ∧ A.sound s' ∧ A.grows t s' := by
  obtain ⟨⟨⟩, t, hBuiltins, hRest⟩ := exists_of_bind hRun
  obtain ⟨hSoundStart, hOuter⟩ := hStart t hBuiltins
  have hLoop : A.Runs t (iterate () fun _ => do
      if (← tok).isEof then return .inr ()
      topLevelWith F r
      return .inl () : Parse Unit) :=
    runs_iterate fun _ => keeps_after fun _ => keeps_ite (fun _ => runs_pure _)
      (fun _ => (runs_topLevelWith hDeclares hOuter).step fun _ => runs_pure _)
  obtain ⟨hSound, hGrows, -⟩ := hLoop t hSoundStart (A.refl t) () s' hRest
  exact ⟨t, hBuiltins, hSound, hGrows⟩

end TranslationUnit

end CCompiler
