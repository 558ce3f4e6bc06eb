import Mathlib
import CCompiler.Codegen.Module
import CCompiler.Proofs.Codegen.Depth

/-
  Which units have a function that leaves the stack at another
  depth than it found it.

  A tree moves the stack by the sum over its calls of what
  each one pushes for registers and does not pop.  This is
  zero for a call if its two counts of registers agree.

  Main declarations:
    * `Codegen.CallSite`, `Codegen.CallSite.surplus`
    * `Codegen.callsInExpr`, `Codegen.callsInStmt`
    * `Codegen.deepens_expr`, `Codegen.deepens_stmt`
    * `Codegen.accounts_generate`
    * `Codegen.calls_balance`
-/

------------
-- Calls of a Tree
------------

namespace CCompiler

namespace Codegen

/-
  What decides about the registers of a call: the types of its
  result and arguments, and whether the result has a buffer.
-/
structure CallSite where
  result : CType
  args : List CType
  buffered : Bool

namespace CallSite

/- Whether the result is written through a pointer. -/
def hidden (rs : Records) (s : CallSite) : Bool :=
  decide (s.result.size rs > 16) && s.buffered

/- The registers taken before the first argument. -/
def start (rs : Records) (s : CallSite) : RegisterUse :=
  startUse (s.hidden rs)

/- The classes of the arguments. -/
def classes (rs : Records) (s : CallSite) : List ArgClass :=
  s.args.map (ArgClass.of rs)

/- The eightbytes pushed for registers and not popped. -/
def surplus (rs : Records) (s : CallSite) : Int :=
  pushedFor (s.start rs) (s.classes rs) -
    (unloadAll (s.start rs) (s.classes rs)).1.length

/- Every argument is popped as it was pushed. -/
def Agrees (rs : Records) (s : CallSite) : Prop :=
  AllMatched (s.start rs) (s.start rs) (s.classes rs)

/- Registers counted past the end of records never decide. -/
def Plain (rs : Records) (s : CallSite) : Prop :=
  Undisturbed (s.start rs) {} (s.classes rs)

instance  (rs : Records) (s : CallSite) : Decidable (s.Plain rs) :=
  inferInstanceAs (Decidable (Undisturbed _ _ _))

theorem agrees_iff (rs : Records) (s : CallSite) : s.Agrees rs ↔ s.Plain rs := allMatched_iff _ _

variable {rs : Records}

theorem Agrees.surplus_eq_zero {s : CallSite} (hAgrees : s.Agrees rs) : s.surplus rs = 0 := by
  unfold surplus
  rw [AllMatched.length_unloadAll hAgrees]
  omega

/- The surplus of calls together. -/
def total (rs : Records) (sites : List CallSite) : Int :=
  (sites.map (·.surplus rs)).sum

@[simp] theorem total_nil (rs : Records) :
    total rs [] = 0 := rfl

@[simp] theorem total_cons (rs : Records) (s : CallSite) (sites : List CallSite) :
    total rs (s :: sites) = s.surplus rs + total rs sites := by simp [total]

@[simp] theorem total_append (rs : Records) (xs ys : List CallSite) :
    total rs (xs ++ ys) = total rs xs + total rs ys := by simp [total]

theorem total_flatten (rs : Records) (xss : List (List CallSite)) :
    total rs xss.flatten = (xss.map (total rs)).sum := by
  induction xss with
  | nil => rfl
  | cons xs xss ih => simp [ih]

theorem total_eq_zero {sites : List CallSite} (hAgree : ∀ s ∈ sites, s.Agrees rs) :
    total rs sites = 0 := by
  induction sites with
  | nil => rfl
  | cons s sites ih =>
    have hFirst := (hAgree s (by simp)).surplus_eq_zero
    have hRest := ih fun r hr => hAgree r (by simp [hr])
    simp [hFirst, hRest]

end CallSite

mutual

/-
  The calls that an expression is compiled with.  Memory of
  the frame is allocated without a call, and only the first
  argument of that is computed.
-/
def callsInExpr (c : Context) : Expr → List CallSite
| .null _ | .num _ _ | .fnum _ _ | .var _ _ | .vlaPtr _ _
| .memZero _ _ | .labelVal _ _ _ => []
| .unary _ _ e | .member _ e _ | .cast _ e => callsInExpr c e
| .binary _ _ l r | .assign _ l r | .comma _ l r
| .exch _ l r => callsInExpr c l ++ callsInExpr c r
| .ternary _ x y z | .cas _ x y z =>
  callsInExpr c x ++ callsInExpr c y ++ callsInExpr c z
| .call i fn _ args buffer? =>
  if isAlloca c fn then (callsInArgs c args).headD []
  else
    ⟨i.type?.getD .void, args.map Expr.type, buffer?.isSome⟩ ::
      (callsInExpr c fn ++ (callsInArgs c args).flatten)
| .stmtExpr _ body => callsInStmts c body

/- The calls of each of some arguments. -/
def callsInArgs (c : Context) : List Expr → List (List CallSite)
| [] => []
| e :: es => callsInExpr c e :: callsInArgs c es

/- The calls of an expression that may be missing. -/
def callsInOptExpr (c : Context) : Option Expr → List CallSite
| none => []
| some e => callsInExpr c e

/- The calls that a statement is compiled with. -/
def callsInStmt (c : Context) : Stmt → List CallSite
| .ret _ e => callsInOptExpr c e
| .cond _ test thn els =>
  callsInExpr c test ++ callsInStmt c thn ++ callsInOptStmt c els
| .loop _ init test inc body _ _ =>
  callsInOptStmt c init ++ callsInOptExpr c test ++
    callsInOptExpr c inc ++ callsInStmt c body
| .doLoop _ body test _ _ | .switch _ test body _ _ _ =>
  callsInStmt c body ++ callsInExpr c test
| .case _ _ _ _ body | .label _ _ _ body =>
  callsInStmt c body
| .block _ body => callsInStmts c body
| .goto _ _ _ | .jump _ _ | .asm _ _ => []
| .gotoExpr _ e | .expr _ e => callsInExpr c e

/- The calls of a statement that may be missing. -/
def callsInOptStmt (c : Context) : Option Stmt → List CallSite
| none => []
| some s => callsInStmt c s

/- The calls of statements one after the other. -/
def callsInStmts (c : Context) : List Stmt → List CallSite
| [] => []
| s :: ss => callsInStmt c s ++ callsInStmts c ss

end

------------
-- Trees
------------

open Emit CallSite

variable {n : Int}

/- A call moves the stack by its surplus and by its parts. -/
theorem deepens_callNode (c : Context) (i : Info) (fn : Expr) (args : List Expr)
    (buffer? : Option ObjId) {ns : List Int} (hCallee : (expr c .value fn).Deepens n)
    (hArgs : ArgumentsDeepen (arguments c args) ns)
    (hTypes : (arguments c args).map (·.type) = args.map Expr.type) :
    (call c.records (i.type?.getD .void) (expr c .value fn) (arguments c args) (buffer?.map fun b =>
          ⟨(c.object b).type, c.frame.offset b⟩)).Deepens
      ((CallSite.mk (i.type?.getD .void) (args.map Expr.type)
          buffer?.isSome).surplus c.records + (n + ns.sum)) := by
  have hClasses : (arguments c args).map (fun a => ArgClass.of c.records a.type) =
        (args.map Expr.type).map (ArgClass.of c.records) := by
    rw [← hTypes, List.map_map]
    rfl
  refine (deepens_call c.records _ rfl hCallee hArgs).of_eq ?_
  rw [hClasses, Option.isSome_map]
  simp only [surplus, start, CallSite.hidden, classes]
  omega

theorem arguments_types (c : Context) (args : List Expr) :
    (arguments c args).map (·.type) = args.map Expr.type := by
  induction args with
  | nil => simp [arguments]
  | cons e es ih => simp [arguments, ih]

mutual

/- An expression moves the stack by the surplus of its calls. -/
theorem deepens_expr (c : Context) (want : Want) (e : Expr) :
    (expr c want e).Deepens (total c.records (callsInExpr c e)) := by
  cases e with
  | null i =>
    simp only [expr, callsInExpr]
    exact deepens_valueOnly want _ (deepens_pure _)
  | num i v =>
    simp only [expr, callsInExpr]
    exact deepens_valueOnly want _ (deepens_lines _)
  | fnum i v =>
    simp only [expr, callsInExpr]
    exact deepens_valueOnly want _ (deepens_lines _)
  | unary i op e =>
    have hValue := deepens_expr c .value e
    simp only [expr, callsInExpr]
    cases op with
    | deref => exact deepens_loaded want _ _ hValue
    | addressOf => exact deepens_valueOnly want _ (deepens_expr c .address e)
    | neg =>
      refine deepens_valueOnly want _ ?_
      refine hValue.bind fun _ => ?_
      exact (deepens_code _).of_eq (by omega)
    | not =>
      refine deepens_valueOnly want _ ?_
      refine hValue.bind fun _ => ?_
      refine (deepens_code _).bind fun _ => ?_
      exact (deepens_code _).of_eq (by omega)
    | bitNot =>
      refine deepens_valueOnly want _ ?_
      refine hValue.bind fun _ => ?_
      exact (deepens_code _).of_eq (by omega)
  | binary i op l r =>
    have hLeft := deepens_expr c .value l
    have hRight := deepens_expr c .value r
    simp only [expr, callsInExpr, total_append]
    refine deepens_valueOnly want _ ?_
    split
    · exact deepens_shortCircuit _ _ _ _ hLeft hRight
    · exact deepens_shortCircuit _ _ _ _ hLeft hRight
    · exact deepens_binary _ _ _ _ _ hLeft hRight
  | assign i l r =>
    simp only [expr, callsInExpr, total_append]
    exact deepens_valueOrAddress want _ _ (deepens_assign _ _ _ (deepens_expr c .address l)
        (deepens_expr c .value r))
  | comma i l r =>
    have hLeft := deepens_expr c .value l
    simp only [expr, callsInExpr, total_append]
    cases want with
    | value =>
      refine (deepens_loc _).bind fun _ => ?_
      refine hLeft.bind fun _ => ?_
      exact (deepens_expr c .value r).of_eq (by omega)
    | address =>
      refine hLeft.bind fun _ => ?_
      exact (deepens_expr c .address r).of_eq (by omega)
  | ternary i test thn els =>
    simp only [expr, callsInExpr, total_append]
    exact deepens_valueOrAddress want _ _ (deepens_choose _ _ _ (deepens_expr c .value test)
        (deepens_expr c .value thn) (deepens_expr c .value els))
  | member i e m =>
    simp only [expr, callsInExpr]
    refine deepens_loaded want _ _ ?_
    refine (deepens_expr c .address e).bind fun _ => ?_
    exact (deepens_code _).of_eq (by omega)
  | cast i e =>
    simp only [expr, callsInExpr]
    refine deepens_valueOnly want _ ?_
    refine (deepens_expr c .value e).bind fun _ => ?_
    exact (deepens_lines _).of_eq (by omega)
  | call i fn type args buffer? =>
    have hArgs := deepen_arguments c args
    simp only [expr, callsInExpr]
    refine deepens_valueOrAddress want _ _ ?_
    split
    · revert hArgs
      cases hList : arguments c args with
      | nil => exact fun _ => deepens_stop id _
      | cons size rest =>
        intro hArgs
        obtain ⟨n, ns, hFirst, -, hSums⟩ := List.forall₂_cons_left_iff.mp hArgs
        obtain ⟨sites, more, hSites, rfl, -⟩ := List.map_eq_cons_iff.mp hSums
        rw [hSites]
        refine hFirst.bind fun _ => ?_
        refine (deepens_code _).bind fun _ => ?_
        exact (deepens_lines _).of_eq (by simp)
    · refine (deepens_callNode c i fn args buffer?
        (deepens_expr c .value fn) hArgs (arguments_types c args)).of_eq ?_
      rw [total_cons, total_append, total_flatten]
  | stmtExpr i body =>
    simp only [expr, callsInExpr]
    exact deepens_valueOnly want _ (deepens_stmts c body)
  | var i v =>
    simp only [expr, callsInExpr]
    exact deepens_loaded want _ _ (deepens_lines _)
  | vlaPtr i v =>
    simp only [expr, callsInExpr]
    cases want with
    | value => exact deepens_stop id _
    | address => exact deepens_code _
  | memZero i v =>
    simp only [expr, callsInExpr]
    exact deepens_valueOnly want _ (deepens_code _)
  | labelVal i l j =>
    simp only [expr, callsInExpr]
    exact deepens_valueOnly want _ (deepens_code _)
  | cas i addr old new =>
    simp only [expr, callsInExpr, total_append]
    exact deepens_valueOnly want _ (deepens_compareExchange _ _ _ _ (deepens_expr c .value addr)
        (deepens_expr c .value old) (deepens_expr c .value new))
  | exch i addr value =>
    simp only [expr, callsInExpr, total_append]
    exact deepens_valueOnly want _ (deepens_exchange _ _ (deepens_expr c .value addr)
        (deepens_expr c .value value))

/- Arguments move the stack by the surplus of their calls. -/
theorem deepen_arguments (c : Context) (args : List Expr) :
    ArgumentsDeepen (arguments c args) ((callsInArgs c args).map (total c.records)) := by
  cases args with
  | nil => exact .nil
  | cons e es =>
    simp only [arguments, callsInArgs, List.map_cons]
    exact .cons (deepens_expr c .value e) (deepen_arguments c es)

theorem deepens_optExpr (c : Context) (e? : Option Expr) :
    (optExpr c e?).Deepens (total c.records (callsInOptExpr c e?)) := by
  cases e? with
  | none => exact deepens_pure _
  | some e => exact deepens_expr c .value e

theorem deepens_exitTest (c : Context) (brk : Bytes) (e? : Option Expr) :
    (exitTest c brk e?).Deepens (total c.records (callsInOptExpr c e?)) := by
  cases e? with
  | none => exact deepens_pure _
  | some e =>
    refine (deepens_expr c .value e).bind fun _ => ?_
    refine (deepens_code _).bind fun _ => ?_
    exact (deepens_code _).of_eq (by simp [callsInOptExpr])

theorem deepens_result (c : Context) (e? : Option Expr) :
    (result c e?).Deepens (total c.records (callsInOptExpr c e?)) := by
  cases e? with
  | none => exact deepens_pure _
  | some e =>
    refine (deepens_expr c .value e).bind fun _ => ?_
    exact (deepens_code _).of_eq (by simp [callsInOptExpr])

/- A statement moves the stack by the surplus of its calls. -/
theorem deepens_stmt (c : Context) (s : Stmt) :
    (stmt c s).Deepens (total c.records (callsInStmt c s)) := by
  cases s with
  | ret t e =>
    simp only [stmt, callsInStmt]
    refine (deepens_loc t).bind fun _ => ?_
    refine (deepens_result c e).bind fun _ => ?_
    exact (deepens_code _).of_eq (by omega)
  | cond t test thn els =>
    simp only [stmt, callsInStmt, total_append]
    refine (deepens_loc t).bind fun _ => ?_
    refine (deepens_choose _ _ _ (deepens_expr c .value test)
      (deepens_stmt c thn) (deepens_optStmt c els)).of_eq ?_
    omega
  | loop t init test inc body brk cont =>
    simp only [stmt, callsInStmt, total_append]
    refine (deepens_loc t).bind fun _ => ?_
    refine deepens_fresh.bind fun _ => ?_
    refine (deepens_optStmt c init).bind fun _ => ?_
    refine (deepens_label _).bind fun _ => ?_
    refine (deepens_exitTest c brk test).bind fun _ => ?_
    refine (deepens_stmt c body).bind fun _ => ?_
    refine (deepens_label _).bind fun _ => ?_
    refine (deepens_optExpr c inc).bind fun _ => ?_
    refine (deepens_code _).bind fun _ => ?_
    exact (deepens_label _).of_eq (by omega)
  | doLoop t body test brk cont =>
    simp only [stmt, callsInStmt, total_append]
    refine (deepens_loc t).bind fun _ => ?_
    refine deepens_fresh.bind fun _ => ?_
    refine (deepens_label _).bind fun _ => ?_
    refine (deepens_stmt c body).bind fun _ => ?_
    refine (deepens_label _).bind fun _ => ?_
    refine (deepens_expr c .value test).bind fun _ => ?_
    refine (deepens_code _).bind fun _ => ?_
    refine (deepens_code _).bind fun _ => ?_
    exact (deepens_label _).of_eq (by omega)
  | switch t test body arms default? brk =>
    simp only [stmt, callsInStmt, total_append]
    refine (deepens_loc t).bind fun _ => ?_
    refine (deepens_expr c .value test).bind fun _ => ?_
    refine (deepens_code _).bind fun _ => ?_
    refine (deepens_stmt c body).bind fun _ => ?_
    exact (deepens_label _).of_eq (by omega)
  | case t l first last body =>
    simp only [stmt, callsInStmt]
    refine (deepens_loc t).bind fun _ => ?_
    refine (deepens_label _).bind fun _ => ?_
    exact (deepens_stmt c body).of_eq (by omega)
  | block t body =>
    simp only [stmt, callsInStmt]
    refine (deepens_loc t).bind fun _ => ?_
    exact (deepens_stmts c body).of_eq (by omega)
  | goto t l j =>
    simp only [stmt, callsInStmt]
    refine (deepens_loc t).bind fun _ => ?_
    exact deepens_code _
  | jump t target =>
    simp only [stmt, callsInStmt]
    refine (deepens_loc t).bind fun _ => ?_
    exact deepens_code _
  | gotoExpr t e =>
    simp only [stmt, callsInStmt]
    refine (deepens_loc t).bind fun _ => ?_
    refine (deepens_expr c .value e).bind fun _ => ?_
    exact (deepens_code _).of_eq (by omega)
  | label t name unique body =>
    simp only [stmt, callsInStmt]
    refine (deepens_loc t).bind fun _ => ?_
    refine (deepens_label _).bind fun _ => ?_
    exact (deepens_stmt c body).of_eq (by omega)
  | expr t e =>
    simp only [stmt, callsInStmt]
    refine (deepens_loc t).bind fun _ => ?_
    exact (deepens_expr c .value e).of_eq (by omega)
  | asm t text =>
    simp only [stmt, callsInStmt]
    refine (deepens_loc t).bind fun _ => ?_
    exact deepens_lines _

theorem deepens_optStmt (c : Context) (s? : Option Stmt) :
    (optStmt c s?).Deepens (total c.records (callsInOptStmt c s?)) := by
  cases s? with
  | none => exact deepens_pure _
  | some s => exact deepens_stmt c s

theorem deepens_stmts (c : Context) (ss : List Stmt) :
    (stmts c ss).Deepens (total c.records (callsInStmts c ss)) := by
  cases ss with
  | nil => exact deepens_pure _
  | cons s ss =>
    simp only [callsInStmts, total_append]
    refine (deepens_stmt c s).bind fun _ => ?_
    exact (deepens_stmts c ss).of_eq (by omega)

end

------------
-- Functions and Units
------------

/-
  The rest of a function: it moves the stack by `n` and ends
  at depth zero, or else it fails and says at which depth.
-/
def Settles (x : Emit Unit) (name : Bytes) (n : Int) : Prop :=
  ∀ c : Counters,
    match x c with
    | .ok r => c.depth + n = 0 ∧ r.counters.depth = 0
    | .error e =>
      e.IsUnbalanced → c.depth + n ≠ 0 ∧
          e = .fault (.unbalancedStack name (c.depth + n))
            Place.nowhere

theorem Settles.bind {α : Type} {x : Emit α} {f : α → Emit Unit} {name : Bytes} {k : Int}
    (hFirst : x.Deepens n) (hRest : ∀ a, Settles (f a) name (k - n)) :
    Settles (x >>= f) name k := by
  intro c
  have hBefore := hFirst c
  change match andThen x f c with | .ok r => _ | .error e => _
  unfold andThen
  cases hRun : x c with
  | error e =>
    rw [hRun] at hBefore
    exact fun hUnbalanced => absurd hUnbalanced hBefore
  | ok r =>
    have hAfter := hRest r.value r.counters
    rw [hRun] at hBefore
    simp only at hBefore
    have hDepth : r.counters.depth + (k - n) = c.depth + k := by omega
    rw [hDepth] at hAfter
    cases hNext : f r.value r.counters with
    | error e => simpa [hNext] using hAfter
    | ok s => simpa [hNext] using hAfter

theorem deepens_spillGeneral (n : Nat) (offset size : Int) :
    (spillGeneral n offset size).Deepens 0 := by
  unfold spillGeneral
  split <;> exact deepens_code _

theorem deepens_spillVector (n : Nat) (offset size : Int) :
    (spillVector n offset size).Deepens 0 := by
  unfold spillVector
  split
  · exact deepens_code _
  · split
    · exact deepens_code _
    · exact deepens_stop id 0

theorem deepens_spillNext (u : RegisterUse) (isVector : Bool) (offset size : Int) :
    (spillNext u isVector offset size).Deepens 0 := by
  refine Deepens.bind_ite (deepens_spillVector _ _ _) (deepens_spillGeneral _ _ _) fun _ => ?_
  exact deepens_pure _

theorem deepens_spillParam (rs : Records) (u : RegisterUse) (t : CType) (offset : Int) :
    (spillParam rs u t offset).Deepens 0 := by
  unfold spillParam
  simp only
  split
  · refine (deepens_spillNext _ _ _ _).bind fun _ => ?_
    split
    · exact deepens_spillNext _ _ _ _
    · exact deepens_pure _
  · exact deepens_spillNext _ _ _ _
  · exact deepens_spillNext _ _ _ _

theorem deepens_spill (c : Context) (u : RegisterUse) (params : List ObjId) :
    (spill c u params).Deepens 0 := by
  induction params generalizing u with
  | nil => exact deepens_pure _
  | cons id ids ih =>
    unfold spill
    split
    · exact ih u
    · refine (deepens_spillParam _ _ _ _).bind fun u => ?_
      exact ih u

/- The calls that the code of a function is made of. -/
def callsOf (c : Context) : List CallSite :=
  callsInOptStmt c c.function.body?

/- The end of a function, where the depth is looked at. -/
theorem settles_check (name : Bytes) {f : Unit → Emit Unit} (hTail : (f ()).Deepens 0) :
    Settles (Emit.depth >>= fun depth =>
        if depth ≠ 0 then
          Emit.stop (.fault (.unbalancedStack name depth) Place.nowhere) >>= f
        else f ())
      name 0 := by
  intro c
  have hAfter := hTail c
  have hRun : (Emit.depth >>= fun depth =>
        if depth ≠ 0 then
          Emit.stop (.fault (.unbalancedStack name depth) Place.nowhere) >>= f
        else f ()) c =
        if c.depth ≠ 0 then
          .error (.fault (.unbalancedStack name c.depth) Place.nowhere)
        else f () c := by
    by_cases hZero : c.depth = 0
    · simp [bind, andThen, Emit.depth, hZero]
      cases f () c <;> rfl
    · simp [bind, andThen, Emit.depth, Emit.stop, hZero]
  rw [hRun]
  by_cases hZero : c.depth = 0
  · rw [if_neg (by simp [hZero])]
    cases hEnd : f () c with
    | error e =>
      rw [hEnd] at hAfter
      exact fun hUnbalanced => absurd hUnbalanced hAfter
    | ok r =>
      simp only [hEnd] at hAfter ⊢
      omega
  · rw [if_pos hZero]
    intro _
    simp [hZero]

/- The part of a function after its registers are saved. -/
theorem settles_body (c : Context) :
    Settles (do
        spill c {} c.function.params
        optStmt c c.function.body?
        let depth ← Emit.depth
        if depth ≠ 0 then
          Emit.stop (.fault (.unbalancedStack c.function.name depth) Place.nowhere)
        if c.function.name == ascii "main" then
          Emit.code [.mov (.imm 0) .rax]
        Emit.label (.epilogue c.function.name)
        Emit.code [.mov .rbp .rsp, .pop .rbp, .ret])
      c.function.name (total c.records (callsOf c)) := by
  refine Settles.bind (deepens_spill _ _ _) fun _ => ?_
  refine Settles.bind (deepens_optStmt c _) fun _ => ?_
  rw [callsOf, Int.sub_zero, Int.sub_self]
  refine settles_check _ ?_
  refine Deepens.bind_when (deepens_code _) fun _ => ?_
  refine (deepens_label _).bind fun _ => ?_
  exact deepens_code _

/- A function ends at depth zero or fails. -/
theorem settles_function (c : Context) :
    Settles (function c) c.function.name (total c.records (callsOf c)) := by
  unfold function
  refine Settles.bind (deepens_lines _) fun _ => ?_
  refine Settles.bind (deepens_label _) fun _ => ?_
  refine Settles.bind (deepens_code _) fun _ => ?_
  simp only [Int.sub_zero]
  split
  · refine Settles.bind (deepens_code _) fun _ => ?_
    rw [Int.sub_zero]
    exact settles_body c
  · exact settles_body c

/- The function that code is written for, if it is one. -/
def emitted? (p : Program) (pic : Bool) :
    TopLevel → Option Context
| .asm _ _ => none
| .object id =>
  let o := p.objects.entry id
  if o.isFunction && o.isDefinition && o.isLive then
    some ⟨p, pic, o, Frame.of p o⟩
  else none

/- The functions of a unit that code is written for. -/
def emitted (cfg : Config) (p : Program) : List Context :=
  p.globals.filterMap (emitted? p (cfg.hasFeature .pic))

/- One entry of the top level. -/
theorem topLevel_eq (p : Program) (pic : Bool) (entry : TopLevel) :
    (∃ c, emitted? p pic entry = some c ∧ c.records = p.records ∧
        topLevel p pic entry = function c) ∨ (emitted? p pic entry = none ∧
        (topLevel p pic entry).Deepens 0) := by
  cases entry with
  | asm t text => exact .inr ⟨rfl, deepens_lines _⟩
  | object id =>
    unfold emitted? topLevel
    simp only
    split
    · exact .inl ⟨_, rfl, rfl, rfl⟩
    · exact .inr ⟨rfl, deepens_pure _⟩

/-
  How the code of functions may end: each of them has surplus
  zero, or it is not the stack that something fails for, or
  the failure names one of them and its surplus.
-/
def Accounts
    {α : Type}
    (rs : Records)
    (cs : List Context) :
    Except Failure α → Prop
| .ok _ => ∀ c ∈ cs, total rs (callsOf c) = 0
| .error e =>
  e.IsUnbalanced → ∃ c ∈ cs,
      total rs (callsOf c) ≠ 0 ∧ e = .fault
        (.unbalancedStack c.function.name (total rs (callsOf c)))
        Place.nowhere

theorem Accounts.cons {α : Type} {rs : Records} {c : Context} {cs : List Context}
    {outcome : Except Failure α} (hFirst : total rs (callsOf c) = 0)
    (hRest : Accounts rs cs outcome) : Accounts rs (c :: cs) outcome := by
  cases outcome with
  | ok a =>
    intro d hd
    rcases List.mem_cons.mp hd with rfl | hd
    · exact hFirst
    · exact hRest d hd
  | error e =>
    intro hUnbalanced
    obtain ⟨d, hd, hNamed⟩ := hRest hUnbalanced
    exact ⟨d, List.mem_cons_of_mem c hd, hNamed⟩

/- What came before is no part of the account. -/
theorem Accounts.andThen {rs : Records} {cs : List Context} {x y : Emit Unit} {k : Counters}
    {r : Emitted Unit} (hRun : x k = .ok r) (hRest : Accounts rs cs (y r.counters)) :
    Accounts rs cs (x.andThen (fun _ => y) k) := by
  unfold Emit.andThen
  rw [hRun]
  cases hNext : y r.counters with
  | error e => simpa only [hNext, Accounts] using hRest
  | ok s => simpa only [hNext, Accounts] using hRest

variable {k : Counters}

/- A failure of the first part is one of the whole. -/
theorem andThen_error {x y : Emit Unit} {e : Failure} (hRun : x k = .error e) :
    x.andThen (fun _ => y) k = .error e := by
  unfold Emit.andThen
  rw [hRun]

/- The entries of the top level, one after the other. -/
theorem accounts_topLevel (p : Program) (pic : Bool) (entries : List TopLevel)
    (hStart : k.depth = 0) :
    Accounts p.records (entries.filterMap (emitted? p pic))
      (Emit.sequence (entries.map (topLevel p pic)) k) := by
  induction entries generalizing k with
  | nil => simp [Emit.sequence, done, Accounts]
  | cons entry entries ih =>
    rw [List.map_cons, Emit.sequence]
    rcases topLevel_eq p pic entry with
      ⟨c, hSome, hRecords, hCode⟩ | ⟨hNone, hKept⟩
    · have hFunction := settles_function c k
      rw [hStart, Int.zero_add, hRecords] at hFunction
      rw [hCode, List.filterMap_cons_some hSome]
      cases hRun : function c k with
      | error e =>
        rw [hRun] at hFunction
        rw [andThen_error hRun]
        intro hUnbalanced
        exact ⟨c, List.mem_cons_self, hFunction hUnbalanced⟩
      | ok r =>
        rw [hRun] at hFunction
        exact (ih hFunction.2).cons hFunction.1 |>.andThen hRun
    · have hEntry := hKept k
      rw [List.filterMap_cons_none hNone]
      cases hRun : topLevel p pic entry k with
      | error e =>
        rw [hRun] at hEntry
        rw [andThen_error hRun]
        exact fun hUnbalanced => absurd hUnbalanced hEntry
      | ok r =>
        simp only [hRun] at hEntry
        exact (ih (by omega)).andThen hRun

/- The functions of a unit account for how its code ends. -/
theorem accounts_generate (cfg : Config) (files : List SourceFile) (p : Program) :
    Accounts p.records (emitted cfg p) (generate cfg files p) := by
  have hCode := accounts_topLevel p (cfg.hasFeature .pic) p.globals (k := {}) rfl
  unfold generate
  simp only
  cases hRun : Emit.sequence (p.globals.map (topLevel p (cfg.hasFeature .pic))) {} with
  | error e =>
    rw [hRun] at hCode
    exact hCode
  | ok r =>
    rw [hRun] at hCode
    exact hCode

/- A unit with a function of another surplus is refused. -/
theorem generate_ne_ok {cfg : Config} {files : List SourceFile} {p : Program}
    (hSurplus : ∃ c ∈ emitted cfg p, total p.records (callsOf c) ≠ 0) (ls : List Assembly.Line) :
    generate cfg files p ≠ .ok ls := by
  intro hOk
  have hAccounts := accounts_generate cfg files p
  rw [hOk] at hAccounts
  obtain ⟨c, hc, hTotal⟩ := hSurplus
  exact hTotal (hAccounts c hc)

/-
  The two counts of registers of a call agree, about every
  argument and with one pop for each eightbyte pushed, exactly
  if the registers counted past the end of records decide
  about none of them.  Every tree moves the stack by what its
  calls push and do not pop, and a unit is refused for its
  stack only if that is not zero for a function in it: never,
  if all calls of its functions are plain.
-/
theorem calls_balance (cfg : Config) (files : List SourceFile) (p : Program) :
    (∀ s : CallSite, s.Agrees p.records ↔ s.Plain p.records) ∧ (∀ s : CallSite,
      s.Agrees p.records → s.surplus p.records = 0) ∧
    (∀ (c : Context) (want : Want) (e : Expr), (expr c want e).Deepens
        (total c.records (callsInExpr c e))) ∧
    Accounts p.records (emitted cfg p)
      (generate cfg files p) ∧ ((∀ c ∈ emitted cfg p, ∀ s ∈ callsOf c,
        s.Plain p.records) → ∀ e, generate cfg files p = .error e →
        ¬ e.IsUnbalanced) := by
  have hAccounts := accounts_generate cfg files p
  refine ⟨agrees_iff p.records, fun s hAgrees => hAgrees.surplus_eq_zero,
    deepens_expr, hAccounts, ?_⟩
  intro hPlain e hError hUnbalanced
  rw [hError] at hAccounts
  obtain ⟨c, hc, hTotal, -⟩ := hAccounts hUnbalanced
  refine hTotal (total_eq_zero fun s hs => ?_)
  exact (agrees_iff p.records s).mpr (hPlain c hc s hs)

/-
  A unit of one function, which calls another one with given
  arguments.  The first record is `struct { int a; }`, the
  second `struct { int a; double b; }`.
-/
def callingUnit (args : List Expr) : Program where
  globals := [.object 1]
  objects :=
    #[{ name := ascii "f", type := .void, align := 1 },
      { name := ascii "g", type := .void, align := 1,
        isFunction := true, isDefinition := true,
        isLive := true,
        body? := some
          (.expr default (.call { tok := default } (.var { tok := default } 0)
              .void args none)) }]
  records :=
    #[{ isUnion := false, size := 4, align := 4, root := 0,
        members := [⟨.int, none, 0, 4, 0, none⟩] },
      { isUnion := false, size := 16, align := 8, root := 1,
        members :=
          [⟨.int, none, 0, 4, 0, none⟩,
            ⟨.floating .double, none, 1, 8, 8, none⟩] }]
  jumps := #[]

/- An argument of a type. -/
def operand (t : CType) : Expr :=
  .var { tok := default, type? := some t } 0

/- Small and large records in registers and on the stack. -/
theorem calls_balance_mixed :
    let args :=
      [operand (.record 0), operand (.record 1), operand (.floating .ldouble), operand (.record 0),
        operand .int, operand (.record 1), operand .int]
    (∀ c ∈ emitted {} (callingUnit args), ∀ s ∈ callsOf c, s.Plain (callingUnit args).records) ∧
      ∀ e, generate {} [] (callingUnit args) = .error e → ¬ e.IsUnbalanced := by
  intro args
  have hPlain : ∀ c ∈ emitted {} (callingUnit args), ∀ s ∈ callsOf c,
        s.Plain (callingUnit args).records := by
    decide
  exact ⟨hPlain, (calls_balance {} [] (callingUnit args)).2.2.2.2 hPlain⟩

/-
  Five records of four bytes fill five vector registers that
  nothing is in, so that the last of four values of type
  `double` is pushed with the arguments on the stack and
  popped all the same.
-/
theorem generate_small_records :
    let args :=
      List.replicate 5 (operand (.record 0)) ++ List.replicate 4 (operand (.floating .double))
    (∃ c ∈ emitted {} (callingUnit args), total (callingUnit args).records (callsOf c) = -1) ∧
      ∀ ls, generate {} [] (callingUnit args) ≠ .ok ls := by
  intro args
  have hSurplus : ∃ c ∈ emitted {} (callingUnit args),
        total (callingUnit args).records (callsOf c) = -1 := by
    decide +kernel
  refine ⟨hSurplus, generate_ne_ok ?_⟩
  obtain ⟨c, hc, hTotal⟩ := hSurplus
  exact ⟨c, hc, by rw [hTotal]; decide⟩

end Codegen

end CCompiler
