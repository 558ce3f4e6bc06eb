import Mathlib
import CCompiler.Proofs.Codegen.Balance
import CCompiler.Proofs.Codegen.LevelPieces

/-
  Expressions and statements leave the stack as high as they
  found it.

  Calls have to be popped as they were pushed, and no argument
  may take fewer eightbytes than none: this happens to records
  whose size is more than a word holds.

  Main declarations:
    * `Codegen.CallSite.Fair`
    * `Codegen.plainExpr`, `Codegen.plainStmt`
    * `Codegen.level_expr`, `Codegen.goes_stmt`
-/

------------
-- Calls
------------

namespace CCompiler

open Assembly

namespace Codegen

open Emit

/-
  A call whose arguments are popped as they were pushed, none
  of them in fewer eightbytes than none.
-/
structure CallSite.Fair (rs : Records) (s : CallSite) :
    Prop where
  agrees : s.Agrees rs
  sized : ∀ t ∈ s.args, 0 ≤ (ArgClass.of rs t).eightbytes

/- Calls that are all fair. -/
def AllFair (rs : Records) (sites : List CallSite) : Prop :=
  ∀ s ∈ sites, s.Fair rs

variable {rs : Records}

theorem allFair_append {xs ys : List CallSite} :
    AllFair rs (xs ++ ys) ↔ AllFair rs xs ∧ AllFair rs ys := List.forall_mem_append

theorem allFair_cons {s : CallSite} {sites : List CallSite} :
    AllFair rs (s :: sites) ↔ s.Fair rs ∧ AllFair rs sites := List.forall_mem_cons

------------
-- Trees without Statement Expressions
------------

mutual

/- An expression without statements in it. -/
def plainExpr : Expr → Bool
| .null _ | .num _ _ | .fnum _ _ | .var _ _ | .vlaPtr _ _
| .memZero _ _ | .labelVal _ _ _ => true
| .unary _ _ e | .member _ e _ | .cast _ e => plainExpr e
| .binary _ _ l r | .assign _ l r | .comma _ l r
| .exch _ l r => plainExpr l && plainExpr r
| .ternary _ x y z | .cas _ x y z =>
  plainExpr x && plainExpr y && plainExpr z
| .call _ fn _ args _ => plainExpr fn && plainArgs args
| .stmtExpr _ _ => false

/- Arguments without statements in them. -/
def plainArgs : List Expr → Bool
| [] => true
| e :: es => plainExpr e && plainArgs es

/- An expression without statements, or none. -/
def plainOptExpr : Option Expr → Bool
| none => true
| some e => plainExpr e

/- A statement whose expressions have no statements in them. -/
def plainStmt : Stmt → Bool
| .ret _ e => plainOptExpr e
| .cond _ test thn els =>
  plainExpr test && plainStmt thn && plainOptStmt els
| .loop _ init test inc body _ _ =>
  plainOptStmt init && plainOptExpr test && plainOptExpr inc && plainStmt body
| .doLoop _ body test _ _ | .switch _ test body _ _ _ =>
  plainStmt body && plainExpr test
| .case _ _ _ _ body | .label _ _ _ body => plainStmt body
| .block _ body => plainStmts body
| .goto _ _ _ | .jump _ _ | .asm _ _ => true
| .gotoExpr _ e | .expr _ e => plainExpr e

/- Such a statement, or none. -/
def plainOptStmt : Option Stmt → Bool
| none => true
| some s => plainStmt s

/- Such statements. -/
def plainStmts : List Stmt → Bool
| [] => true
| s :: ss => plainStmt s && plainStmts ss

end

/-
  Named labels may stand at every height, or a tree has no
  statements in its expressions.
-/
def Open (S : Int → Prop) (plain : Bool) : Prop :=
  (∀ h, S h) ∨ plain = true

theorem open_and {S : Int → Prop} {b b' : Bool} : Open S (b && b') ↔ Open S b ∧ Open S b' := by
  simp only [Open, Bool.and_eq_true]
  tauto

------------
-- A Call
------------

variable {S : Int → Prop} {low : Int}

/- A call with fair arguments. -/
theorem level_callNode (c : Context) (i : Info) (fn : Expr) (args : List Expr)
    (buffer? : Option ObjId) (hLow : 0 ≤ low)
    (hFair : (CallSite.mk (i.type?.getD .void)
      (args.map Expr.type) buffer?.isSome).Fair c.records)
    (hCallee : Level S low (expr c .value fn)) (hArgs : LevelArguments S low (arguments c args)) :
    Level S low (call c.records (i.type?.getD .void) (expr c .value fn) (arguments c args)
      (buffer?.map fun b =>
        ⟨(c.object b).type, c.frame.offset b⟩)) := by
  have hTypes := arguments_types c args
  have hClasses : (arguments c args).map (fun a => ArgClass.of c.records a.type) =
        (args.map Expr.type).map (ArgClass.of c.records) := by
    rw [← hTypes, List.map_map]
    rfl
  have hSized : Sized c.records (arguments c args) := by
    intro a ha
    refine hFair.sized a.type ?_
    rw [← hTypes]
    exact List.mem_map_of_mem ha
  refine level_call c.records _ hLow rfl ?_ hCallee hArgs hSized
  have hAgrees := hFair.agrees
  rw [hClasses, Option.isSome_map]
  exact hAgrees

------------
-- Trees
------------

mutual

/- An expression whose calls are fair. -/
theorem level_expr (c : Context) (hLow : 0 ≤ low) (want : Want) (e : Expr)
    (hFair : AllFair c.records (callsInExpr c e)) (hOpen : Open S (plainExpr e)) :
    Level S low (expr c want e) := by
  cases e with
  | null i =>
    simp only [expr]
    exact level_valueOnly want _ fun _ _ => goes_pure _
  | num i v =>
    simp only [expr]
    exact level_valueOnly want _ fun _ hFloor => goes_lines hFloor (plain_of_all rfl)
  | fnum i v =>
    simp only [expr]
    exact level_valueOnly want _ fun _ hFloor => goes_lines hFloor (plain_floatConstant _ _)
  | unary i op e =>
    simp only [callsInExpr] at hFair
    simp only [plainExpr] at hOpen
    have hValue := level_expr c hLow .value e hFair hOpen
    simp only [expr]
    cases op with
    | deref => exact level_loaded want _ hValue (isPlain_load _ _)
    | addressOf => exact level_valueOnly want _ (level_expr c hLow .address e hFair hOpen)
    | neg =>
      refine level_valueOnly want _ fun d hFloor => ?_
      refine (hValue d hFloor).bind fun _ => ?_
      exact goes_code hFloor (isPlain_negate _)
    | not =>
      refine level_valueOnly want _ fun d hFloor => ?_
      refine (hValue d hFloor).bind fun _ => ?_
      refine (goes_code hFloor (isPlain_compareZero _ _)).bind fun _ => ?_
      exact goes_code hFloor (isPlain_of_all rfl)
    | bitNot =>
      refine level_valueOnly want _ fun d hFloor => ?_
      refine (hValue d hFloor).bind fun _ => ?_
      exact goes_code hFloor (isPlain_of_all rfl)
  | binary i op l r =>
    simp only [callsInExpr, allFair_append] at hFair
    simp only [plainExpr, open_and] at hOpen
    have hLeft := level_expr c hLow .value l hFair.1 hOpen.1
    have hRight := level_expr c hLow .value r hFair.2 hOpen.2
    simp only [expr]
    refine level_valueOnly want _ ?_
    split
    · exact level_shortCircuit _ _ _ _ hLeft hRight
    · exact level_shortCircuit _ _ _ _ hLeft hRight
    · exact level_binary _ _ _ _ _ hLeft hRight
  | assign i l r =>
    simp only [callsInExpr, allFair_append] at hFair
    simp only [plainExpr, open_and] at hOpen
    simp only [expr]
    exact level_valueOrAddress want _ _
      (level_assign _ _ _ (level_expr c hLow .address l hFair.1 hOpen.1)
        (level_expr c hLow .value r hFair.2 hOpen.2))
  | comma i l r =>
    simp only [callsInExpr, allFair_append] at hFair
    simp only [plainExpr, open_and] at hOpen
    have hLeft := level_expr c hLow .value l hFair.1 hOpen.1
    simp only [expr]
    intro d hFloor
    cases want with
    | value =>
      refine (goes_loc _ hFloor).bind fun _ => ?_
      refine (hLeft d hFloor).bind fun _ => ?_
      exact level_expr c hLow .value r hFair.2 hOpen.2 d hFloor
    | address =>
      refine (hLeft d hFloor).bind fun _ => ?_
      exact level_expr c hLow .address r hFair.2 hOpen.2 d hFloor
  | ternary i test thn els =>
    simp only [callsInExpr, allFair_append] at hFair
    simp only [plainExpr, open_and] at hOpen
    simp only [expr]
    exact level_valueOrAddress want _ _ fun d hFloor => goes_choose _ _ _ hFloor
        (level_expr c hLow .value test hFair.1.1 hOpen.1.1 d hFloor)
        (level_expr c hLow .value thn hFair.1.2 hOpen.1.2 d hFloor)
        (level_expr c hLow .value els hFair.2 hOpen.2 d hFloor)
  | member i e m =>
    simp only [callsInExpr] at hFair
    simp only [plainExpr] at hOpen
    simp only [expr]
    refine level_loaded want _ (fun d hFloor => ?_) ((isPlain_load _ _).append ?_)
    · refine (level_expr c hLow .address e hFair hOpen d hFloor).bind fun _ => ?_
      exact goes_code hFloor (isPlain_of_all rfl)
    · cases m.bits? with
      | none => exact isPlain_of_all rfl
      | some b => exact isPlain_fieldRead _ _
  | cast i e =>
    simp only [callsInExpr] at hFair
    simp only [plainExpr] at hOpen
    simp only [expr]
    refine level_valueOnly want _ fun d hFloor => ?_
    refine (level_expr c hLow .value e hFair hOpen d hFloor).bind fun _ => ?_
    exact goes_still hFloor (still_convert _ _ _)
  | call i fn type args buffer? =>
    simp only [callsInExpr] at hFair
    simp only [plainExpr, open_and] at hOpen
    simp only [expr]
    refine level_valueOrAddress want _ _ ?_
    split
    · rename_i hAlloca
      rw [if_pos hAlloca] at hFair
      cases args with
      | nil => exact fun _ _ => goes_stop _
      | cons size rest =>
        simp only [callsInArgs, List.headD_cons] at hFair
        simp only [plainArgs, open_and] at hOpen
        simp only [arguments]
        intro d hFloor
        refine (level_expr c hLow .value size hFair hOpen.2.1 d hFloor).bind fun _ => ?_
        refine (goes_code hFloor (isPlain_of_all rfl)).bind fun _ => ?_
        exact goes_still hFloor (still_growFrame _)
    · rename_i hCalled
      rw [if_neg hCalled, allFair_cons, allFair_append] at hFair
      obtain ⟨hSite, hCallee, hArgs⟩ := hFair
      exact level_callNode c i fn args buffer? hLow hSite
        (level_expr c hLow .value fn hCallee hOpen.1)
        (level_arguments c hLow args hArgs hOpen.2)
  | stmtExpr i body =>
    simp only [callsInExpr] at hFair
    have hEvery : ∀ h, S h := hOpen.resolve_right (by simp [plainExpr])
    simp only [expr]
    exact level_valueOnly want _ fun d hFloor =>
      goes_stmts c hLow body hFair (.inl hEvery) hFloor (hEvery _)
  | var i v =>
    simp only [expr]
    exact level_loaded want _ (fun _ hFloor =>
      goes_lines hFloor (plain_variableAddress _ _ _))
      (isPlain_load _ _)
  | vlaPtr i v =>
    simp only [expr]
    cases want with
    | value => exact fun _ _ => goes_stop _
    | address => exact fun _ hFloor => goes_code hFloor (isPlain_of_all rfl)
  | memZero i v =>
    simp only [expr]
    exact level_valueOnly want _ fun _ hFloor => goes_code hFloor (isPlain_of_all rfl)
  | labelVal i l j =>
    simp only [expr]
    exact level_valueOnly want _ fun _ hFloor => goes_code hFloor (isPlain_of_all rfl)
  | cas i addr old new =>
    simp only [callsInExpr, allFair_append] at hFair
    simp only [plainExpr, open_and] at hOpen
    simp only [expr]
    exact level_valueOnly want _ (level_compareExchange _ _ _ _
        (level_expr c hLow .value addr hFair.1.1 hOpen.1.1)
        (level_expr c hLow .value old hFair.1.2 hOpen.1.2)
        (level_expr c hLow .value new hFair.2 hOpen.2))
  | exch i addr value =>
    simp only [callsInExpr, allFair_append] at hFair
    simp only [plainExpr, open_and] at hOpen
    simp only [expr]
    exact level_valueOnly want _ (level_exchange _ _ (level_expr c hLow .value addr hFair.1 hOpen.1)
        (level_expr c hLow .value value hFair.2 hOpen.2))

theorem level_arguments (c : Context) (hLow : 0 ≤ low) (args : List Expr)
    (hFair : AllFair c.records (callsInArgs c args).flatten) (hOpen : Open S (plainArgs args)) :
    LevelArguments S low (arguments c args) := by
  cases args with
  | nil =>
    simp only [arguments]
    exact List.forall_mem_nil _
  | cons e es =>
    simp only [callsInArgs, List.flatten_cons, allFair_append] at hFair
    simp only [plainArgs, open_and] at hOpen
    simp only [arguments]
    exact List.forall_mem_cons.mpr ⟨level_expr c hLow .value e hFair.1 hOpen.1,
        level_arguments c hLow es hFair.2 hOpen.2⟩

theorem level_optExpr (c : Context) (hLow : 0 ≤ low) (e? : Option Expr)
    (hFair : AllFair c.records (callsInOptExpr c e?)) (hOpen : Open S (plainOptExpr e?)) :
    Level S low (optExpr c e?) := by
  cases e? with
  | none => exact fun _ _ => goes_pure _
  | some e => exact level_expr c hLow .value e hFair hOpen

theorem goes_exitTest {d : Int} (c : Context) (hLow : 0 ≤ low) (brk : Bytes) (e? : Option Expr)
    (hFair : AllFair c.records (callsInOptExpr c e?)) (hOpen : Open S (plainOptExpr e?))
    (hFloor : low ≤ d) (hHeight : S (8 * d)) : Goes S low d d (exitTest c brk e?) := by
  cases e? with
  | none => exact goes_pure _
  | some e =>
    refine (level_expr c hLow .value e hFair hOpen d hFloor).bind fun _ => ?_
    refine (goes_code hFloor (isPlain_compareZero _ _)).bind fun _ => ?_
    exact goes_calm hFloor hHeight (calm_of_all rfl)

theorem goes_result {d : Int} (c : Context) (hLow : 0 ≤ low) (e? : Option Expr)
    (hFair : AllFair c.records (callsInOptExpr c e?)) (hOpen : Open S (plainOptExpr e?))
    (hFloor : low ≤ d) : Goes S low d d (result c e?) := by
  cases e? with
  | none => exact goes_pure _
  | some e =>
    refine (level_expr c hLow .value e hFair hOpen d hFloor).bind fun _ => ?_
    exact goes_code hFloor (isPlain_returnValue _ _)

/- A statement whose calls are fair. -/
theorem goes_stmt {d : Int} (c : Context) (hLow : 0 ≤ low) (s : Stmt)
    (hFair : AllFair c.records (callsInStmt c s)) (hOpen : Open S (plainStmt s))
    (hFloor : low ≤ d) (hHeight : S (8 * d)) : Goes S low d d (stmt c s) := by
  cases s with
  | ret t e =>
    simp only [callsInStmt] at hFair
    simp only [plainStmt] at hOpen
    simp only [stmt]
    refine (goes_loc t hFloor).bind fun _ => ?_
    refine (goes_result c hLow e hFair hOpen hFloor).bind fun _ => ?_
    exact goes_calm hFloor hHeight (calm_of_all rfl)
  | cond t test thn els =>
    simp only [callsInStmt, allFair_append] at hFair
    simp only [plainStmt, open_and] at hOpen
    simp only [stmt]
    refine (goes_loc t hFloor).bind fun _ => ?_
    exact goes_choose _ _ _ hFloor (level_expr c hLow .value test hFair.1.1 hOpen.1.1 d hFloor)
      (goes_stmt c hLow thn hFair.1.2 hOpen.1.2 hFloor hHeight)
      (goes_optStmt c hLow els hFair.2 hOpen.2 hFloor hHeight)
  | loop t init test inc body brk cont =>
    simp only [callsInStmt, allFair_append] at hFair
    simp only [plainStmt, open_and] at hOpen
    obtain ⟨⟨⟨hInit, hTest⟩, hInc⟩, hBody⟩ := hFair
    obtain ⟨⟨⟨oInit, oTest⟩, oInc⟩, oBody⟩ := hOpen
    simp only [stmt]
    refine (goes_loc t hFloor).bind fun _ G => ?_
    refine keeps_fresh.bind ?_
    rintro n d G₀ - ⟨rfl, hMarks⟩
    refine (goes_optStmt c hLow init hInit oInit hFloor hHeight G₀).next fun _ G₁ h₁ => ?_
    have hMarks₁ := hMarks.mono h₁
    refine (keeps_label _ hFloor hMarks₁).next fun _ G₂ h₂ => ?_
    have hMarks₂ := hMarks₁.mono h₂
    refine (goes_exitTest c hLow brk test hTest oTest hFloor hHeight G₂).next fun _ G₃ h₃ => ?_
    refine (goes_stmt c hLow body hBody oBody hFloor hHeight G₃).next fun _ G₄ h₄ => ?_
    refine (goes_label cont hFloor hHeight G₄).next fun _ G₅ h₅ => ?_
    refine (level_optExpr c hLow inc hInc oInc _ hFloor G₅).next fun _ G₆ h₆ => ?_
    have hMarks₆ := hMarks₂.mono (((h₃.trans h₄).trans h₅).trans h₆)
    refine (keeps_jumps hFloor hMarks₆ ?_).next fun _ G₇ h₇ => ?_
    · intro i hi
      obtain rfl := List.mem_singleton.mp hi
      exact .inr rfl
    exact goes_label brk hFloor hHeight G₇
  | doLoop t body test brk cont =>
    simp only [callsInStmt, allFair_append] at hFair
    simp only [plainStmt, open_and] at hOpen
    simp only [stmt]
    refine (goes_loc t hFloor).bind fun _ G => ?_
    refine keeps_fresh.bind ?_
    rintro n d G₀ - ⟨rfl, hMarks⟩
    refine (keeps_label _ hFloor hMarks).next fun _ G₁ h₁ => ?_
    have hMarks₁ := hMarks.mono h₁
    refine (goes_stmt c hLow body hFair.1 hOpen.1 hFloor hHeight G₁).next fun _ G₂ h₂ => ?_
    refine (goes_label cont hFloor hHeight G₂).next fun _ G₃ h₃ => ?_
    refine (level_expr c hLow .value test hFair.2 hOpen.2 _ hFloor G₃).next fun _ G₄ h₄ => ?_
    refine (goes_code hFloor (isPlain_compareZero _ _) G₄).next fun _ G₅ h₅ => ?_
    have hMarks₅ := hMarks₁.mono (((h₂.trans h₃).trans h₄).trans h₅)
    refine (keeps_jumps hFloor hMarks₅ ?_).next fun _ G₆ h₆ => ?_
    · intro i hi
      obtain rfl := List.mem_singleton.mp hi
      exact .inr rfl
    exact goes_label brk hFloor hHeight G₆
  | switch t test body arms default? brk =>
    simp only [callsInStmt, allFair_append] at hFair
    simp only [plainStmt, open_and] at hOpen
    simp only [stmt]
    refine (goes_loc t hFloor).bind fun _ => ?_
    refine (level_expr c hLow .value test hFair.2 hOpen.2 d hFloor).bind fun _ => ?_
    refine (goes_calm hFloor hHeight (calm_dispatch _ _ _ _)).bind fun _ => ?_
    refine (goes_stmt c hLow body hFair.1 hOpen.1 hFloor hHeight).bind fun _ => ?_
    exact goes_label brk hFloor hHeight
  | case t l first last body =>
    simp only [callsInStmt] at hFair
    simp only [plainStmt] at hOpen
    simp only [stmt]
    refine (goes_loc t hFloor).bind fun _ => ?_
    refine (goes_label l hFloor hHeight).bind fun _ => ?_
    exact goes_stmt c hLow body hFair hOpen hFloor hHeight
  | block t body =>
    simp only [callsInStmt] at hFair
    simp only [plainStmt] at hOpen
    simp only [stmt]
    refine (goes_loc t hFloor).bind fun _ => ?_
    exact goes_stmts c hLow body hFair hOpen hFloor hHeight
  | goto t l j =>
    simp only [stmt]
    refine (goes_loc t hFloor).bind fun _ => ?_
    exact goes_calm hFloor hHeight (calm_of_all rfl)
  | jump t target =>
    simp only [stmt]
    refine (goes_loc t hFloor).bind fun _ => ?_
    exact goes_calm hFloor hHeight (calm_of_all rfl)
  | gotoExpr t e =>
    simp only [callsInStmt] at hFair
    simp only [plainStmt] at hOpen
    simp only [stmt]
    refine (goes_loc t hFloor).bind fun _ => ?_
    refine (level_expr c hLow .value e hFair hOpen d hFloor).bind fun _ => ?_
    exact goes_calm hFloor hHeight (calm_of_all rfl)
  | label t name unique body =>
    simp only [callsInStmt] at hFair
    simp only [plainStmt] at hOpen
    simp only [stmt]
    refine (goes_loc t hFloor).bind fun _ => ?_
    refine (goes_label unique hFloor hHeight).bind fun _ => ?_
    exact goes_stmt c hLow body hFair hOpen hFloor hHeight
  | expr t e =>
    simp only [callsInStmt] at hFair
    simp only [plainStmt] at hOpen
    simp only [stmt]
    refine (goes_loc t hFloor).bind fun _ => ?_
    exact level_expr c hLow .value e hFair hOpen d hFloor
  | asm t text =>
    simp only [stmt]
    refine (goes_loc t hFloor).bind fun _ => ?_
    exact goes_lines hFloor (plain_of_all rfl)

theorem goes_optStmt {d : Int} (c : Context) (hLow : 0 ≤ low) (s? : Option Stmt)
    (hFair : AllFair c.records (callsInOptStmt c s?)) (hOpen : Open S (plainOptStmt s?))
    (hFloor : low ≤ d) (hHeight : S (8 * d)) : Goes S low d d (optStmt c s?) := by
  cases s? with
  | none => exact goes_pure _
  | some s => exact goes_stmt c hLow s hFair hOpen hFloor hHeight

theorem goes_stmts {d : Int} (c : Context) (hLow : 0 ≤ low) (ss : List Stmt)
    (hFair : AllFair c.records (callsInStmts c ss)) (hOpen : Open S (plainStmts ss))
    (hFloor : low ≤ d) (hHeight : S (8 * d)) : Goes S low d d (stmts c ss) := by
  cases ss with
  | nil => exact goes_pure _
  | cons s ss =>
    simp only [callsInStmts, allFair_append] at hFair
    simp only [plainStmts, open_and] at hOpen
    refine (goes_stmt c hLow s hFair.1 hOpen.1 hFloor hHeight).bind fun _ => ?_
    exact goes_stmts c hLow ss hFair.2 hOpen.2 hFloor hHeight

end

end Codegen

end CCompiler
