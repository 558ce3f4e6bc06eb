import Mathlib
import CCompiler.Proofs.Syntax.CompoundTrees
import CCompiler.Proofs.Syntax.Evaluation
import CCompiler.Proofs.Syntax.Keeping
import CCompiler.Proofs.Syntax.QuietSteps
import CCompiler.Proofs.Syntax.TypedAssignments

/-
  What the trees of compound assignments, increments and
  decrements compute.

  A tree that names none of the compiler's variables does not
  see them: what it gives does not depend on them, it leaves
  them as they are, and its value is never the place of one.

  All three forms of the tree of a compound assignment find the
  place of the left operand, evaluate the right one, and give
  the place the value that C says, which is also the value of
  the tree.  Where the value of the place before is asked for,
  it is found again from the one that was stored.

  Main declarations:
    * `Evaluation.Apart`, `Evaluation.Apart.bind`
    * `Evaluation.apart`
    * `Evaluation.Gives.yields`, `Evaluation.Denotes.reaches`
    * `Operator.Assigns`, `Operator.Lowered.assigns`
    * `Operator.newIncDec_run`
    * `Operator.compound_assignment_value`
-/

------------
-- Computations Apart
------------

namespace CCompiler

namespace Evaluation

variable {W α β γ δ : Type}

/-
  A computation that neither sees nor changes the variables of
  the compiler, with results of a kind.
-/
def Apart
    (kind : α → β)
    (f : Store W → Option (β × Store W)) : Prop :=
  ∀ μ, ∃ r : Option (α × Outside W), ∀ own,
    f ⟨own, μ⟩ = r.map fun p => (kind p.1, ⟨own, p.2⟩)

variable {kind : α → β} {kind' : γ → δ}
  {f g : Store W → Option (β × Store W)}

theorem apart_none : Apart kind fun _ : Store W => none := fun _ => ⟨none, fun _ => rfl⟩

theorem apart_pure (a : α) : Apart kind fun σ : Store W => some (kind a, σ) :=
  fun μ => ⟨some (a, μ), fun _ => rfl⟩

theorem apart_some (a? : Option α) :
    Apart kind fun σ : Store W =>
      a?.bind fun a => some (kind a, σ) := by
  cases a? with
  | none => exact apart_none
  | some a => exact apart_pure a

/- What is left to the host. -/
theorem apart_leave (run : Outside W → Option (α × Outside W)) :
    Apart kind fun σ => σ.leave run kind := by
  intro μ
  refine ⟨run μ, fun own => ?_⟩
  cases hRun : run μ with
  | none => simp [Store.leave, hRun]
  | some p => simp [Store.leave, hRun]

theorem Apart.bind (hFirst : Apart kind f) (next : β → Store W → Option (δ × Store W))
    (hNext : ∀ a, Apart kind' (next (kind a))) :
    Apart kind' fun σ => (f σ).bind fun p => next p.1 p.2 := by
  intro μ
  obtain ⟨r, hRun⟩ := hFirst μ
  cases r with
  | none => exact ⟨none, fun own => by simp [hRun own]⟩
  | some p =>
    obtain ⟨r, hRest⟩ := hNext p.1 p.2
    exact ⟨r, fun own => by simp [hRun own, hRest own]⟩

theorem Apart.ite {c : Prop} [Decidable c] (hThen : Apart kind f) (hElse : Apart kind g) :
    Apart kind fun σ => if c then f σ else g σ := by
  split
  · exact hThen
  · exact hElse

/- What stands at an address is a number. -/
theorem apart_read (a : BitVec 64) (t : CType) :
    Apart Value.num fun σ : Store W =>
      (σ.read (.byte a) t).map (·, σ) := by
  intro μ
  cases hPointer : t.isPointer with
  | true => exact ⟨some ((μ.1.load a .quad).toNat, μ), fun own => by simp [Store.read, hPointer]⟩
  | false =>
    cases hValues : t.values? with
    | none => exact ⟨none, fun own => by simp [Store.read, hPointer, hValues]⟩
    | some τ =>
      exact ⟨some (μ.1.loadValue a τ, μ), fun own => by simp [Store.read, hPointer, hValues]⟩

/- A number is put at an address. -/
theorem apart_write (a : BitVec 64) (t : CType) (n m : Int) :
    Apart Value.num fun σ : Store W =>
      (σ.write (.byte a) t (.num n)).map (.num m, ·) := by
  intro μ
  cases hPointer : t.isPointer with
  | true =>
    exact ⟨some (m, (μ.1.store a .quad (BitVec.ofInt 64 n), μ.2)),
      fun own => by simp [Store.write, hPointer]⟩
  | false =>
    cases hValues : t.values? with
    | none => exact ⟨none, fun own => by simp [Store.write, hPointer, hValues]⟩
    | some τ =>
      exact ⟨some (m, (μ.1.storeValue a τ n, μ.2)), fun own => by
        simp [Store.write, Store.give, hPointer, hValues]⟩

/- A compare-and-swap between two addresses. -/
theorem apart_swap (a b : BitVec 64) (t : CType) (n : Int) :
    Apart Value.num fun σ : Store W =>
      swap σ (.byte a) (.byte b) t (.num n) := by
  let write (now old : Int) (σ : Store W) : Option (Value × Store W) :=
    if now = old then
      (σ.write (.byte a) t (.num n)).map (Value.num 1, ·)
    else (σ.write (.byte b) t (.num now)).map (Value.num 0, ·)
  let second (now : Int) (x : Value) (σ : Store W) : Option (Value × Store W) :=
    x.num?.bind fun old => write now old σ
  let first (x : Value) (σ : Store W) : Option (Value × Store W) :=
    x.num?.bind fun now => ((σ.read (.byte b) t).map (·, σ)).bind fun p => second now p.1 p.2
  have hSteps : (fun σ : Store W =>
      swap σ (.byte a) (.byte b) t (.num n)) =
      fun σ => ((σ.read (.byte a) t).map (·, σ)).bind fun p =>
        first p.1 p.2 := by
    funext σ
    simp only [swap, first, second, write, Option.bind_eq_bind, Option.bind_map, Function.comp_def]
  rw [hSteps]
  exact (apart_read a t).bind first fun now =>
    (apart_read b t).bind (second now) fun old =>
      Apart.ite (apart_write a t n 1) (apart_write b t now 0)

------------
-- Expressions Apart
------------

variable {h : Host W} {n : Nat} {e l r : Expr} {i : Info}

/- Names of variables of the program only. -/
def Below (h : Host W) (vs : List ObjId) : Prop :=
  ∀ v ∈ vs, v < h.first

theorem below_append {vs ws : List ObjId} : Below h (vs ++ ws) ↔ Below h vs ∧ Below h ws :=
  List.forall_mem_append

/- What is shown of all trees at once, by induction on the fuel. -/
structure AllApart (h : Host W) (n : Nat) : Prop where
  place : ∀ e, Below h e.names → Apart Location.byte (place h n e)
  value : ∀ e, Below h e.names → Apart Value.num (value h n e)
  run : ∀ s, Below h (Stmt.names s) → Apart (Option.map Value.num) (run h n s)
  runAll : ∀ ss, Below h (Stmt.namesAll ss) →
    Apart (Option.map Value.num) (runAll h n ss)

theorem AllApart.place_succ (hAll : AllApart h n) (hNames : Below h e.names) :
    Apart Location.byte (Evaluation.place h (n + 1) e) := by
  have hOther : Apart Location.byte fun σ : Store W => σ.leave (h.place e) .byte := apart_leave _
  cases e with
  | var i v =>
    have hHome : h.home v = .byte (h.address v) :=
      if_neg (Nat.not_le.mpr (hNames v (by simp [Expr.names])))
    change Apart _ fun σ => some (h.home v, σ)
    rw [hHome]
    exact apart_pure _
  | unary i op a =>
    cases op with
    | deref => exact (hAll.value a hNames).bind (fun x σ => some (x.place, σ)) fun x => apart_pure _
    | _ => exact hOther
  | member i a m =>
    exact (hAll.place a hNames).bind (fun p σ => (p.field? m).bind fun q => some (q, σ)) fun b =>
        apart_pure (b + BitVec.ofInt 64 m.offset)
  | comma i l r =>
    obtain ⟨hLeft, hRight⟩ := below_append.mp hNames
    exact (hAll.value l hLeft).bind (fun _ => Evaluation.place h n r) fun _ => hAll.place r hRight
  | _ => exact hOther

theorem AllApart.value_succ (hAll : AllApart h n) (hNames : Below h e.names) :
    Apart Value.num (Evaluation.value h (n + 1) e) := by
  have hOther : Apart Value.num fun σ : Store W => σ.leave (h.value e) .num := apart_leave _
  -- An lvalue that is read as a whole, and all other nodes.
  have hRest : Apart Value.num fun σ : Store W =>
      if isWordPlace e then
        (Evaluation.place h n e σ).bind fun p => (p.2.read p.1 e.type).bind fun x => some (x, p.2)
      else σ.leave (h.value e) .num := by
    refine Apart.ite ?_ hOther
    exact (hAll.place e hNames).bind (fun p σ => (σ.read p e.type).bind fun x => some (x, σ))
      fun a => by simpa only [Option.map_eq_bind, Function.comp_def] using apart_read a e.type
  cases e with
  | num i v =>
    change Apart _ fun σ => Evaluation.value h (n + 1) (.num i v) σ
    simp only [value_num]
    split
    · exact apart_pure _
    · exact hOther
  | unary i op a =>
    cases op with
    | addressOf =>
      exact (hAll.place a hNames).bind (fun p σ => some (p.pointer, σ)) fun b =>
          apart_pure (b.toNat : Int)
    | not =>
      exact (hAll.value a hNames).bind
        (fun x σ => some (Value.num (truthValue (x.isZero = true)), σ))
        fun x => apart_pure _
    | _ => exact hRest
  | cast i a =>
    have hInner := hAll.value a hNames
    change Apart _ fun σ => Evaluation.value h (n + 1) (.cast i a) σ
    simp only [value_cast]
    split
    · exact hInner.bind (fun x σ => x.num?.bind fun m => some (Value.num (IntType.convert _ m), σ))
        fun m => apart_pure _
    · exact Apart.ite hInner hOther
  | binary i op l r =>
    obtain ⟨hLeft, hRight⟩ := below_append.mp hNames
    change Apart _ fun σ => Evaluation.value h (n + 1) (.binary i op l r) σ
    simp only [value_binary]
    split
    · refine Apart.ite hOther ?_
      exact (hAll.value r hRight).bind (fun y σ => (Evaluation.value h n l σ).bind fun p =>
          p.1.num?.bind fun m => y.num?.bind fun k =>
            (result? op _ m k).bind fun z => some (Value.num z, p.2))
        fun k => (hAll.value l hLeft).bind (fun x σ => x.num?.bind fun m =>
            (result? op _ m k).bind fun z => some (Value.num z, σ))
          fun m => apart_some (result? op _ m k)
    · exact hOther
  | assign i l r =>
    obtain ⟨hLeft, hRight⟩ := below_append.mp hNames
    refine Apart.ite ?_ hOther
    exact (hAll.place l hLeft).bind (fun p σ => (Evaluation.value h n r σ).bind fun x =>
        (x.2.write p l.type x.1).bind fun σ => some (x.1, σ))
      fun a => (hAll.value r hRight).bind (fun x σ => (σ.write (.byte a) l.type x).bind fun σ =>
          some (x, σ))
        fun m => by
          simpa only [Option.map_eq_bind, Function.comp_def] using apart_write a l.type m m
  | comma i l r =>
    obtain ⟨hLeft, hRight⟩ := below_append.mp hNames
    exact (hAll.value l hLeft).bind (fun _ => Evaluation.value h n r) fun _ => hAll.value r hRight
  | stmtExpr i body =>
    refine Apart.ite ?_ hOther
    exact (hAll.runAll body hNames).bind (fun x? σ => x?.bind fun x => some (x, σ)) fun m? => by
        cases m? with
        | none => exact apart_none
        | some m => exact apart_pure m
  | cas i addr old new =>
    obtain ⟨hFirst, hNew⟩ := below_append.mp hNames
    obtain ⟨hAddr, hOld⟩ := below_append.mp hFirst
    change Apart _ fun σ => Evaluation.value h (n + 1) (.cas i addr old new) σ
    simp only [value_cas]
    split
    · rename_i T hBase
      exact (hAll.value addr hAddr).bind (fun p σ => (Evaluation.value h n new σ).bind fun x =>
          (Evaluation.value h n old x.2).bind fun q => swap q.2 p.place q.1.place T x.1)
        fun a => (hAll.value new hNew).bind (fun x σ => (Evaluation.value h n old σ).bind fun q =>
            swap q.2 (Value.num a).place q.1.place T x)
          fun m => (hAll.value old hOld).bind
            (fun q σ => swap σ (Value.num a).place q.place T (Value.num m))
            fun b => apart_swap _ _ T m
    · exact hOther
  | _ => exact hRest

variable {s : Stmt} {ss : List Stmt}

theorem AllApart.run_succ (hAll : AllApart h n) (hNames : Below h (Stmt.names s)) :
    Apart (Option.map Value.num) (Evaluation.run h (n + 1) s) := by
  cases s with
  | expr tok e =>
    exact (hAll.value e hNames).bind (fun x σ => some (some x, σ)) fun m => apart_pure (some m)
  | block tok body =>
    exact (hAll.runAll body hNames).bind (fun _ σ => some (none, σ))
      fun _ => apart_pure (none : Option Int)
  | doLoop tok body cond brk cont =>
    obtain ⟨hBody, hCond⟩ := below_append.mp hNames
    exact (hAll.run body hBody).bind (fun _ σ => (Evaluation.value h n cond σ).bind fun x =>
        if x.1.isZero then some (none, x.2)
        else Evaluation.run h n (.doLoop tok body cond brk cont) x.2)
      fun _ => (hAll.value cond hCond).bind (fun x σ => if x.isZero then some (none, σ)
          else Evaluation.run h n (.doLoop tok body cond brk cont) σ)
        fun m => Apart.ite (apart_pure (none : Option Int)) (hAll.run _ hNames)
  | _ => exact apart_none

theorem AllApart.runAll_succ (hAll : AllApart h n) (hNames : Below h (Stmt.namesAll ss)) :
    Apart (Option.map Value.num) (Evaluation.runAll h (n + 1) ss) := by
  match ss, hNames with
  | [], _ => exact apart_pure (none : Option Int)
  | [s], hNames => exact hAll.run s (below_append.mp hNames).1
  | s :: u :: us, hNames =>
    obtain ⟨hFirst, hOthers⟩ := below_append.mp hNames
    exact (hAll.run s hFirst).bind (fun _ => Evaluation.runAll h n (u :: us))
      fun _ => hAll.runAll (u :: us) hOthers

/- Trees of the program do not see the compiler's variables. -/
theorem allApart (h : Host W) (n : Nat) : AllApart h n := by
  induction n with
  | zero =>
    exact ⟨fun _ _ => apart_none, fun _ _ => apart_none,
      fun _ _ => apart_none, fun _ _ => apart_none⟩
  | succ n hAll =>
    exact ⟨fun _ => hAll.place_succ, fun _ => hAll.value_succ,
      fun _ => hAll.run_succ, fun _ => hAll.runAll_succ⟩

------------
-- Operands
------------

/-
  The place of an operand, and what finding it does to the
  rest, whatever the compiler's variables hold.  It leaves
  these as they are.
-/
def Reaches
    (h : Host W)
    (e : Expr)
    (μ : Outside W)
    (a : BitVec 64)
    (μ' : Outside W) : Prop :=
  ∀ own, Denotes h e ⟨own, μ⟩ (.byte a) ⟨own, μ'⟩

/- The value of an operand, in the same way. -/
def Yields
    (h : Host W)
    (e : Expr)
    (μ : Outside W)
    (m : Int)
    (μ' : Outside W) : Prop :=
  ∀ own, Gives h e ⟨own, μ⟩ (.num m) ⟨own, μ'⟩

variable {σ σ' : Store W}

/- What an operand gives once, it gives for all of these variables. -/
theorem Denotes.reaches {a : BitVec 64} (hNames : Below h e.names)
    (hDenotes : Denotes h e σ (.byte a) σ') : Reaches h e σ.outside a σ'.outside := by
  intro own
  refine hDenotes.mono fun n hPlace => ?_
  obtain ⟨r, hRun⟩ := (allApart h n).place e hNames σ.outside
  rw [hRun own]
  rw [show σ = ⟨σ.own, σ.outside⟩ from rfl, hRun σ.own] at hPlace
  cases r with
  | none => cases hPlace
  | some p =>
    cases hPlace
    rfl

theorem Gives.yields {m : Int} (hNames : Below h e.names) (hGives : Gives h e σ (.num m) σ') :
    Yields h e σ.outside m σ'.outside := by
  intro own
  refine hGives.mono fun n hValue => ?_
  obtain ⟨r, hRun⟩ := (allApart h n).value e hNames σ.outside
  rw [hRun own]
  rw [show σ = ⟨σ.own, σ.outside⟩ from rfl, hRun σ.own] at hValue
  cases r with
  | none => cases hValue
  | some p =>
    cases hValue
    rfl

end Evaluation

end CCompiler

------------
-- The Three Forms
------------

namespace CCompiler

/-
  An expression has a value and leaves the rest in a state; of
  the compiler's variables nothing is said.
-/
def Evaluation.Results
    {W : Type}
    (h : Host W)
    (e : Expr)
    (σ : Store W)
    (n : Int)
    (μ : Outside W) : Prop :=
  ∃ own, Gives h e σ (.num n) ⟨own, μ⟩

/-
  An operand that can be assigned to: a member that is no
  bit-field of a record, or no member.
-/
def Expr.IsTarget : Expr → Prop
| .member i base m =>
  i.type? = some m.type ∧ base.type.isRecord = true ∧ m.bits? = none
| _ => True

namespace Operator

open Parse Typing Evaluation Interleaving

variable {s s' : ParseState} {l r tree : Expr} {t : Token}
  {v : ObjId} {τ ρ : IntType} {op : BinOp}

/-
  A tree with a type for `l op= r`: the place of l is found,
  then r is evaluated, each once; then the place gets the
  value that C says, and the tree has this value.
-/
structure Assigns
    (first : ObjId)
    (op : BinOp)
    (τ ρ : IntType)
    (l r tree : Expr) : Prop where
  type : tree.type? = some l.type
  runs : ∀ {W : Type} (h : Host W) (own : ObjId → Value)
    {μ μ₁ μ₂ : Outside W} {a : BitVec 64} {b w : Int},
    h.first ≤ first → Reaches h l μ a μ₁ → Yields h r μ₁ b μ₂ →
    ρ.Has b → valueIn op τ ρ (μ₂.1.loadValue a τ) b = some w →
      Results h tree ⟨own, μ⟩ (τ.convert w)
        (μ₂.1.storeValue a τ (τ.convert w), μ₂.2)

/- An integer with its type is left as it is. -/
theorem addType_of_values {e : Expr} (s : ParseState) (hValues : e.type.values? = some τ) :
    addType e s = .ok e s :=
  addType_of_isSome (Option.isSome_of_eq_some (type?_of_values hValues)) s

theorem throughPointer_assigns (hVar : s.Gains s' v (.ptr l.type)) (hOp : isCompound op = true)
    (hLeft : l.type.values? = some τ) (hRight : r.type.values? = some ρ)
    (hShift : op.isShift = true → τ.promote = τ) :
    ∃ tree', addType (throughPointer v op l r t) s' = .ok tree' s' ∧
      Assigns s.objects.size op τ ρ l r tree' := by
  obtain ⟨e₁, hFirst, hPoints⟩ := pointTo_typed (t := t) hVar.type (addType_of_values s' hLeft)
  obtain ⟨e₂, hDeref, hType, -, hWord, hPointee⟩ :=
    pointee_typed (t := t) hVar.type (isWord_cases (isWord_of_values hLeft)).2.1
  have hPlaceType : e₂.type = l.type := by rw [Expr.type, hType]; rfl
  obtain ⟨e₃, hSecond, hResult, hUpdates⟩ := update_typed (t := t) hOp
    hDeref (hWord (isWord_of_values hLeft)) (by rw [hPlaceType, hLeft])
    (addType_of_values s' hRight) hRight hShift
  refine ⟨_, addType_comma hFirst hSecond, ?_, ?_⟩
  · rw [← hPlaceType, ← hResult]
    rfl
  · intro W h own μ μ₁ μ₂ a b w hFirst hReaches hYields _ hValue
    have hOwn := hFirst.trans hVar.new
    let own₁ := Function.update own v (.num a.toNat)
    have hHolds : ∀ μ : Outside W, (⟨own₁, μ⟩ : Store W).own v = (Location.byte a).pointer :=
      fun _ => Function.update_self ..
    exact ⟨own₁, (hPoints hOwn (hReaches own)).comma
      (hUpdates (hPointee hOwn (hHolds μ₁)) (hPointee hOwn (hHolds μ₂)) (hYields own₁) hValue)⟩

theorem throughRecord_assigns {base : Expr} {m : Member} {i : Info}
    (hVar : s.Gains s' v (.ptr base.type)) (hTarget : (Expr.member i base m).IsTarget)
    (hOp : isCompound op = true) (hLeft : (Expr.member i base m).type.values? = some τ)
    (hRight : r.type.values? = some ρ) (hShift : op.isShift = true → τ.promote = τ) :
    ∃ tree', addType (throughRecord v op base m r t) s' = .ok tree' s' ∧
      Assigns s.objects.size op τ ρ (.member i base m) r tree' := by
  obtain ⟨hMember, hRecord, hBits⟩ := hTarget
  have hMemberType : (Expr.member i base m).type = m.type := by
    simp [Expr.type, Expr.type?, Expr.info, hMember]
  rw [hMemberType] at hLeft
  have hBase : addType base s' = .ok base s' := addType_of_isSome
    (isSome_of_type (p := CType.isRecord) rfl hRecord) s'
  have hVoid : base.type.isVoid = false := by
    unfold CType.isRecord at hRecord
    unfold CType.isVoid
    generalize base.type.plain = p at hRecord ⊢
    cases p <;> first | rfl | cases hRecord
  obtain ⟨e₁, hFirst, hPoints⟩ := pointTo_typed (t := t) hVar.type hBase
  obtain ⟨e₂, hDeref, -, -, -, hPointee⟩ := pointee_typed (t := t) hVar.type hVoid
  have hField := addType_member (t := t) m hDeref
  have hWord : isWordPlace (.member ⟨t, some m.type⟩ e₂ m) = true :=
    Bool.and_eq_true_iff.mpr ⟨isWord_of_values hLeft, by simp [hBits]⟩
  obtain ⟨e₃, hSecond, hResult, hUpdates⟩ := update_typed (t := t) hOp
    hField hWord hLeft (addType_of_values s' hRight) hRight hShift
  refine ⟨_, addType_comma hFirst hSecond, ?_, ?_⟩
  · rw [hMemberType]
    exact hResult
  · intro W h own μ μ₁ μ₂ a b w hFirst hReaches hYields _ hValue
    have hOwn := hFirst.trans hVar.new
    let p : BitVec 64 := a - BitVec.ofInt 64 m.offset
    let own₁ := Function.update own v (.num p.toNat)
    have hPlace : ∀ μ : Outside W, Denotes h (.member ⟨t, some m.type⟩ e₂ m) ⟨own₁, μ⟩
          (.byte a) ⟨own₁, μ⟩ := by
      intro μ
      have hHolds : (⟨own₁, μ⟩ : Store W).own v =
          (Location.byte p).pointer := Function.update_self ..
      have hDenotes := (hPointee hOwn hHolds).member (i := ⟨t, some m.type⟩) (m := m)
      rwa [BitVec.sub_add_cancel] at hDenotes
    exact ⟨own₁, (hPoints hOwn (hReaches own).of_member).comma
      (hUpdates (hPlace μ₁) (hPlace μ₂) (hYields own₁) hValue)⟩

variable {x : Slots}

/-
  The condition at the end of the loop.  The variable for what
  was there holds what is there, so the new value is installed
  and the loop is left.
-/
theorem loopCondition_gives {W : Type} {h : Host W} (σ : Store W) {T : CType} {a : BitVec 64}
    {n : Int} (hWord : T.values? = some τ) (hOwnAddr : h.first ≤ x.addr)
    (hOwnOld : h.first ≤ x.old) (hOwnNew : h.first ≤ x.new)
    (hAddr : σ.own x.addr = (Location.byte a).pointer)
    (hOld : σ.own x.old = .num (σ.outside.1.loadValue a τ)) (hNew : σ.own x.new = .num n) :
    Gives h (.unary ⟨t, some .int⟩ .not (.cas ⟨t, some .bool⟩ (.var ⟨t, some (.ptr T)⟩ x.addr)
          (.unary ⟨t, some (addressType T)⟩ .addressOf (.var ⟨t, some T⟩ x.old))
          (.var ⟨t, some T⟩ x.new))) σ (.num 0) (σ.give a τ n) := by
  have hGivesOld : Gives h (.unary ⟨t, some (addressType T)⟩ .addressOf (.var ⟨t, some T⟩ x.old)) σ
      (Location.own x.old).pointer σ := by
    rw [← home_own hOwnOld]
    exact (denotes_var x.old).addressOf
  have hInstalls : swap σ (Location.byte a).pointer.place
      (Location.own x.old).pointer.place T (.num n) =
      some (.num 1, σ.give a τ n) := by
    rw [Location.place_pointer, Location.place_pointer]
    exact swap_installs n hWord hOld
  exact (Gives.cas rfl (own_gives rfl rfl hOwnAddr hAddr)
    (own_gives rfl (isWord_of_values hWord) hOwnNew hNew) hGivesOld
    hInstalls).not

/- The loop ends after one turn, as nothing else swaps meanwhile. -/
theorem swapLoop_assigns {brk cont : Bytes} (hSlots : SlotsGained s s' x l.type r.type)
    (hOp : isCompound op = true) (hLeft : l.type.values? = some τ)
    (hRight : r.type.values? = some ρ) (hShift : op.isShift = true → τ.promote = τ) :
    ∃ tree', addType (swapLoop x op l r brk cont t) s' = .ok tree' s' ∧
      Assigns s.objects.size op τ ρ l r tree' := by
  have hWord := isWord_of_values hLeft
  have hWord' := isWord_of_values hRight
  have hVoid := (isWord_cases hWord).2.1
  have hAddrVar := addType_var (t := t) hSlots.addr.type
  have hValVar := addType_var (t := t) hSlots.val.type
  have hOldVar := addType_var (t := t) hSlots.old.type
  have hNewVar := addType_var (t := t) hSlots.new.type
  obtain ⟨e₁, hAddr, hPoints⟩ := pointTo_typed (t := t)
    hSlots.addr.type (addType_of_values s' hLeft)
  obtain ⟨e₂, hVal, hKeeps⟩ := keep_typed (t := t) hSlots.val.type
    hRight (addType_of_values s' hRight) hRight
  obtain ⟨e₃, hDeref, hType, -, hWordPlace, hPointee⟩ :=
    pointee_typed (t := t) hSlots.addr.type hVoid
  have hPlaceType : e₃.type = l.type := by rw [Expr.type, hType]; rfl
  obtain ⟨e₄, hOld, hCopies⟩ := keep_typed (t := t) hSlots.old.type
    hLeft hDeref (by rw [hPlaceType, hLeft])
  obtain ⟨e₅, κ, hOperator, hResult, hComputes⟩ :=
    operator_typed (t := t) hOp hOldVar hValVar hLeft hRight hShift
  obtain ⟨e₆, hNew, hStores⟩ := keep_typed (t := t) hSlots.new.type hLeft hOperator hResult
  have hSwap := addType_not (t := t) (addType_cas (t := t) hAddrVar
    (addType_addressOf (t := t) hOldVar) hNewVar rfl (isPointer_addressType _))
  have hBody := addTypeStmts_cons (addTypeStmt_expr (t := t) hAddr)
    (addTypeStmts_cons (addTypeStmt_expr (t := t) hVal)
      (addTypeStmts_cons (addTypeStmt_expr (t := t) hOld)
        (addTypeStmts_cons (addTypeStmt_doLoop (t := t) brk cont hSwap
            (addTypeStmt_block (t := t) (addTypeStmts_cons
              (addTypeStmt_expr (t := t) hNew) addTypeStmts_nil)))
          (addTypeStmts_cons (addTypeStmt_expr (t := t) hNewVar) addTypeStmts_nil))))
  refine ⟨_, addType_stmtExpr hBody rfl, rfl, ?_⟩
  intro W h own μ μ₁ μ₂ a b w hFirst hReaches hYields hHas hValue
  have hDistinct := x.distinct
  simp only [List.nodup_cons, List.mem_cons, List.not_mem_nil,
    or_false, not_or, List.nodup_nil, not_false_eq_true, and_true] at hDistinct
  obtain ⟨⟨hAddrVal, hAddrOld, hAddrNew⟩, ⟨hValOld, hValNew⟩, hOldNew⟩ := hDistinct
  have hOwnAddr := hFirst.trans hSlots.addr.new
  have hOwnVal := hFirst.trans hSlots.val.new
  have hOwnOld := hFirst.trans hSlots.old.new
  have hOwnNew := hFirst.trans hSlots.new.new
  let v : Int := μ₂.1.loadValue a τ
  let σ₁ : Store W := ⟨Function.update own x.addr (.num a.toNat), μ₁⟩
  let σ₂ : Store W := ⟨Function.update σ₁.own x.val (.num b), μ₂⟩
  let σ₃ : Store W := σ₂.set x.old (.num v)
  let σ₄ : Store W := σ₃.set x.new (.num (τ.convert w))
  have hRun₁ : Gives h e₁ ⟨own, μ⟩ (.num a.toNat) σ₁ := hPoints hOwnAddr (hReaches own)
  have hRun₂ : Gives h e₂ σ₁ (.num b) σ₂ := by
    have hRun := hKeeps hOwnVal (hYields σ₁.own)
    rwa [IntType.convert_of_has hHas] at hRun
  have hRun₃ : Gives h e₄ σ₂ (.num v) σ₃ := by
    have hHolds : σ₂.own x.addr = (Location.byte a).pointer := by
      simp [σ₂, σ₁, hAddrVal, Location.pointer]
    have hRead : Gives h e₃ σ₂ (.num v) σ₂ :=
      (hPointee hOwnAddr hHolds).read (hWordPlace hWord)
        (by rw [hPlaceType]; exact σ₂.read_byte hLeft)
    have hRun := hCopies hOwnOld hRead
    rwa [IntType.convert_of_has Memory.has_loadValue] at hRun
  have hRun₄ : Gives h e₆ σ₃ (.num (τ.convert w)) σ₄ := by
    have hVal : σ₃.own x.val = .num b := by simp [σ₃, σ₂, Store.set, hValOld]
    have hOld : σ₃.own x.old = .num v := by simp [σ₃]
    exact hStores hOwnNew (hComputes Memory.has_loadValue hValue
      (own_gives rfl hWord' hOwnVal hVal) (own_gives rfl hWord hOwnOld hOld))
  have hTest := loopCondition_gives (t := t) (a := a) σ₄
    (n := τ.convert w) hLeft hOwnAddr hOwnOld hOwnNew
    (by simp [σ₄, σ₃, σ₂, σ₁, Store.set, hAddrVal, hAddrOld, hAddrNew, Location.pointer])
    (by simp [σ₄, σ₃, Store.set, hOldNew, v, σ₂])
    (by simp [σ₄])
  have hResult : Gives h (.var ⟨t, some l.type⟩ x.new)
      (σ₄.give a τ (τ.convert w)) (.num (τ.convert w))
      (σ₄.give a τ (τ.convert w)) :=
    own_gives rfl hWord hOwnNew (by simp [σ₄, Store.give])
  exact ⟨σ₄.own, RunsAll.stmtExpr rfl (Runs.before hRun₁.expr
      (Runs.before hRun₂.expr (Runs.before hRun₃.expr (Runs.before
            (Runs.doLoop (RunsAll.block (Runs.last hRun₄.expr)) hTest rfl)
            (Runs.last hResult.expr) (by simp))
          (by simp))
        (by simp))
      (by simp))⟩

/- Each form of the tree assigns what C says. -/
theorem Lowered.assigns (hLowered : Lowered s s' op l r t tree) (hTarget : l.IsTarget)
    (hOp : isCompound op = true) (hLeft : l.type.values? = some τ)
    (hRight : r.type.values? = some ρ) (hShift : op.isShift = true → τ.promote = τ) :
    ∃ tree', addType tree s' = .ok tree' s' ∧ Assigns s.objects.size op τ ρ l r tree' := by
  cases hLowered with
  | member hMember hGains =>
    subst hMember
    exact throughRecord_assigns hGains hTarget hOp hLeft hRight hShift
  | swap _ _ hSlots => exact swapLoop_assigns hSlots hOp hLeft hRight hShift
  | pointer _ _ hGains => exact throughPointer_assigns hGains hOp hLeft hRight hShift

end Operator

------------
-- Sums
------------

namespace IntType

variable {a b : Int}

/- Numbers that are congruent are converted to the same value. -/
theorem convert_congr (k : IntKind) (u : Bool) (hSame : a ≡ b [ZMOD 2 ^ (IntType.of k u).bits]) :
    (IntType.of k u).convert a = (IntType.of k u).convert b := by
  have hRest : a % (2 ^ (IntType.of k u).bits : Nat) = b % (2 ^ (IntType.of k u).bits : Nat) := by
    push_cast
    exact hSame
  rw [← convert_emod k u a, ← convert_emod k u b, hRest]

/- Operands are not converted to a narrower type, nor to truth values. -/
theorem common_wide (k : IntKind) (u : Bool) (ρ : IntType) :
    ∃ k' u', (IntType.of k u).common ρ = .of k' u' ∧
      (IntType.of k u).bits ≤ (IntType.of k' u').bits := by
  obtain _ | ⟨j, v⟩ := ρ
  · cases k <;> cases u <;> exact ⟨_, _, rfl, by decide⟩
  · cases k <;> cases u <;> cases j <;> cases v <;> exact ⟨_, _, rfl, by decide⟩

variable {τ : IntType}

/- A sum in a common type, converted back to the type of an operand. -/
theorem convert_sum (hBool : τ ≠ .bool) (ρ : IntType) (a b : Int) :
    τ.convert ((τ.common ρ).convert ((τ.common ρ).convert a + (τ.common ρ).convert b)) =
      τ.convert (a + b) := by
  obtain _ | ⟨k, u⟩ := τ
  · exact absurd rfl hBool
  · obtain ⟨k', u', hCommon, hWide⟩ := common_wide k u ρ
    rw [hCommon]
    refine convert_congr k u (Int.ModEq.of_dvd (pow_dvd_pow 2 hWide) ?_)
    exact (convert_modEq k' u' _).trans ((convert_modEq k' u' a).add (convert_modEq k' u' b))

/- A sum with what was converted before. -/
theorem convert_convert_add (hBool : τ ≠ .bool) (a b : Int) :
    τ.convert (τ.convert a + b) = τ.convert (a + b) := by
  obtain _ | ⟨k, u⟩ := τ
  · exact absurd rfl hBool
  · exact convert_congr k u ((convert_modEq k u a).add_right b)

end IntType

------------
-- Compound Assignments
------------

namespace Operator

open Parse Typing Evaluation

variable {s s' s₁ s₂ : ParseState} {left right l r e : Expr}
  {t : Token} {τ ρ : IntType} {op : BinOp}

/- A sum of two integers is their sum as it is. -/
theorem newAdd_integers (hLeft : addType left s = .ok l s₁) (hRight : addType right s₁ = .ok r s₂)
    (hLeftType : l.type.values? = some τ) (hRightType : r.type.values? = some ρ) :
    newAdd left right t s = .ok (binary .add l r t) s₂ := by
  have hNumeric : ∀ {T : CType} {σ : IntType}, T.values? = some σ →
      T.isNumeric = true := fun hValues => by
    simp [CType.isNumeric, CType.isInteger_of_values hValues]
  unfold newAdd
  rw [Parse.run_bind hLeft, Parse.run_bind hRight, hNumeric hLeftType, hNumeric hRightType]
  rfl

theorem newSub_integers (hLeft : addType left s = .ok l s₁) (hRight : addType right s₁ = .ok r s₂)
    (hLeftType : l.type.values? = some τ) (hRightType : r.type.values? = some ρ) :
    newSub left right t s = .ok (binary .sub l r t) s₂ := by
  have hNumeric : ∀ {T : CType} {σ : IntType}, T.values? = some σ →
      T.isNumeric = true := fun hValues => by
    simp [CType.isNumeric, CType.isInteger_of_values hValues]
  unfold newSub
  rw [Parse.run_bind hLeft, Parse.run_bind hRight, hNumeric hLeftType, hNumeric hRightType]
  rfl

/- The tree of `A op= B` for integers. -/
theorem compound_run (hOp : isCompound op = true) (hLeft : addType left s = .ok l s₁)
    (hRight : addType right s₁ = .ok r s₂) (hLeftType : l.type.values? = some τ)
    (hRightType : r.type.values? = some ρ) :
    ∃ tree s', (Update.compound op right).assigned left t s = .ok tree s' ∧
      Lowered s₂ s' op l r t tree := by
  have hAgain : ∀ op : BinOp, ∃ tree s', toAssign (binary op l r t) s₂ = .ok tree s' ∧
        Lowered s₂ s' op l r t tree := fun op =>
    toAssign_run ⟨t, none⟩ op (addType_of_values s₂ hLeftType) (addType_of_values s₂ hRightType)
  unfold Update.assigned Update.operation Expression.compoundTree
  cases op
  case add =>
    obtain ⟨tree, s', hRun, hLowered⟩ := hAgain .add
    refine ⟨tree, s', ?_, hLowered⟩
    rw [Parse.run_bind (newAdd_integers hLeft hRight hLeftType hRightType), hRun]
  case sub =>
    obtain ⟨tree, s', hRun, hLowered⟩ := hAgain .sub
    refine ⟨tree, s', ?_, hLowered⟩
    rw [Parse.run_bind (newSub_integers hLeft hRight hLeftType hRightType), hRun]
  all_goals exact toAssign_run ⟨t, none⟩ _ hLeft hRight

/- The number that `A++` or `A--` adds. -/
theorem addType_number (n : Int64) (s : ParseState) :
    addType (number n t) s = .ok (.num ⟨t, some .int⟩ n) s := rfl

variable {W : Type}

theorem number_yields (h : Host W) (μ : Outside W) {n : Int64} (hHas : IntType.int.Has n.toInt) :
    Yields h (.num ⟨t, some .int⟩ n) μ n.toInt μ := by
  intro own
  have hInt : CType.int.values? = some IntType.int := rfl
  have hGives : Gives h (.num ⟨t, some .int⟩ n) ⟨own, μ⟩ _ ⟨own, μ⟩ := gives_num rfl hInt
  rwa [IntType.convert_of_has hHas] at hGives

/- The sum that a conversion to the common type gives. -/
theorem valueIn_add (τ ρ : IntType) (a b : Int) :
    valueIn .add τ ρ a b = some ((τ.common ρ).convert
        ((τ.common ρ).convert a + (τ.common ρ).convert b)) := valueIn_eq rfl τ ρ a b

/-
  An increment whose value is taken back: A is left with the
  sum, reduced to its type, and the tree has the value that A
  had.
-/
theorem newIncDec_run (hLeft : addType left s = .ok l s₁) (hTarget : l.IsTarget)
    (hType : l.type.values? = some τ) (hBool : τ ≠ .bool) (isDown : Bool) :
    ∃ tree s', newIncDec left t (if isDown then -1 else 1) s = .ok tree s' ∧
      ∀ {W : Type} (h : Host W) (own : ObjId → Value) {μ μ₁ : Outside W} {a : BitVec 64},
        h.first ≤ s.objects.size → Reaches h l μ a μ₁ → Results h tree ⟨own, μ⟩ (μ₁.1.loadValue a τ)
            (μ₁.1.storeValue a τ (τ.convert (μ₁.1.loadValue a τ + if isDown then -1 else 1)),
                μ₁.2) := by
  let n : Int64 := if isDown then -1 else 1
  let m : Int64 := if isDown then 1 else -1
  have hn : n.toInt = if isDown then -1 else 1 := by cases isDown <;> rfl
  have hm : m.toInt = -n.toInt := by cases isDown <;> rfl
  have hHas : IntType.int.Has n.toInt ∧ IntType.int.Has m.toInt := by cases isDown <;> decide
  have hInt : CType.int.values? = some IntType.int := rfl
  have hAdd : isCompound .add = true := rfl
  have hNoShift : BinOp.isShift .add = true → τ.promote = τ := fun hNever => by cases hNever
  obtain ⟨sum, s', hRun, hLowered⟩ := compound_run (t := t) hAdd
    (addType_of_values s₁ hType) (addType_number (t := t) n s₁) hType
    hInt
  obtain ⟨sum', hSum, hAssigns⟩ := hLowered.assigns hTarget hAdd hType hInt hNoShift
  have hSumType : sum'.type = l.type := by
    rw [Expr.type, hAssigns.type]
    rfl
  have hSumValues : sum'.type.values? = some τ := by rw [hSumType, hType]
  have hNumber : addType (.num ⟨t, some .int⟩ m) s' = .ok (.num ⟨t, some .int⟩ m) s' := rfl
  obtain ⟨back, κ, hBack, hResult, hComputes⟩ := operator_typed (t := t)
    hAdd (addType_of_values s' hSumValues) hNumber hSumValues hInt
    hNoShift
  refine ⟨.cast ⟨back.tok, some l.type⟩ back, s', ?_, ?_⟩
  · have hAfter : (Update.after isDown).assigned l t s₁ = .ok sum s' := by
      rw [← hRun]
      unfold Update.assigned Update.operation
      simp only [Parse.run_bind (addType_of_values s₁ hType), bind_assoc]
      cases isDown <;> rfl
    rw [newIncDec_eq t isDown hLeft (Option.isSome_of_eq_some (type?_of_values hType)),
      Parse.run_bind hAfter, Parse.run_bind (newAdd_integers hSum
        (addType_number m s') hSumValues hInt), newCast, Parse.run_bind hBack]
    exact castTo_word back (isWord_of_values hType)
  · intro W h own μ μ₁ a hFirst hReaches
    rw [← (quiet_addType _ _ _ _ hLeft).1.objects] at hFirst
    obtain ⟨own', hGives⟩ := hAssigns.runs h own hFirst hReaches
      (number_yields h μ₁ hHas.1) hHas.1 (valueIn_add τ .int _ _)
    rw [IntType.convert_sum hBool, hn] at hGives
    refine ⟨own', ?_⟩
    have hBackGives := hComputes (IntType.has_convert τ _)
      (valueIn_add τ .int _ _) (number_yields h μ hHas.2 own) hGives
    have hCast := hBackGives.cast (i := ⟨back.tok, some l.type⟩) rfl hType hResult
    rw [IntType.convert_sum hBool, IntType.convert_convert_add hBool, hm, hn, add_neg_cancel_right,
      IntType.convert_of_has Memory.has_loadValue] at hCast
    exact hCast

/- Operands with types name what they named before. -/
theorem below_addType {h : Host W} (hTyped : addType left s = .ok l s₁)
    (hNames : ∀ v ∈ left.names, v < h.first) : Below h l.names := by
  intro v hNamed
  rw [(quiet_addType left s l s₁ hTyped).2] at hNamed
  exact hNames v hNamed

/-
  Assignments with operators, and increments and decrements
  whose value is taken back.

  A is an lvalue of an integer type that is no truth value, at
  the address `a`; finding it leads from σ to σ₁.

  `A op= B`: B is evaluated once, after A was found once, and
  leads to σ₂ with the value b.  Then `A op B`, as C computes
  it and converted to the type of A, is stored at `a`.  The
  tree has this value too, and there is no other effect.

  `A++` and `A--`: A is found once, and gets its value plus or
  minus one, reduced to its type; the tree has the value that
  was there before.
-/
theorem compound_assignment_value (hLeft : addType left s = .ok l s₁) (hTarget : l.IsTarget)
    (hType : l.type.values? = some τ) (hBool : τ ≠ .bool) :
    (∀ op right r s₂ ρ, isCompound op = true → (op.isShift = true → τ.promote = τ) →
      addType right s₁ = .ok r s₂ → r.type.values? = some ρ → ∃ tree s' tree',
        (Update.compound op right).assigned left t s = .ok tree s' ∧
        addType tree s' = .ok tree' s' ∧ tree'.type? = some l.type ∧
        ∀ {W : Type} (h : Host W) {σ σ₁ σ₂ : Store W}
          {a : BitVec 64} {b w : Int}, h.first = s.objects.size →
          (∀ v ∈ left.names ++ right.names, v < s.objects.size) →
          Denotes h l σ (.byte a) σ₁ → Gives h r σ₁ (.num b) σ₂ → ρ.Has b →
          valueIn op τ ρ (σ₂.outside.1.loadValue a τ) b = some w →
          Results h tree' σ (τ.convert w)
            (σ₂.outside.1.storeValue a τ (τ.convert w), σ₂.outside.2)) ∧
    ∀ isDown : Bool, ∃ tree s', newIncDec left t (if isDown then -1 else 1) s = .ok tree s' ∧
      ∀ {W : Type} (h : Host W) {σ σ₁ : Store W} {a : BitVec 64},
        h.first = s.objects.size → (∀ v ∈ left.names, v < s.objects.size) →
        Denotes h l σ (.byte a) σ₁ →
        Results h tree σ (σ₁.outside.1.loadValue a τ)
          (σ₁.outside.1.storeValue a τ (τ.convert (σ₁.outside.1.loadValue a τ +
              if isDown then -1 else 1)),
            σ₁.outside.2) := by
  have hObjects := (quiet_addType left s l s₁ hLeft).1.objects
  constructor
  · intro op right r s₂ ρ hOp hShift hRight hRightType
    obtain ⟨tree, s', hRun, hLowered⟩ := compound_run (t := t) hOp hLeft hRight hType hRightType
    obtain ⟨tree', hTyped, hAssigns⟩ := hLowered.assigns hTarget hOp hType hRightType hShift
    refine ⟨tree, s', tree', hRun, hTyped, hAssigns.type, ?_⟩
    intro W h σ σ₁ σ₂ a b w hFirst hNames hPlace hValue hHas hDefined
    rw [← hFirst] at hNames
    obtain ⟨hNamesL, hNamesR⟩ := List.forall_mem_append.mp hNames
    have hObjects' := (quiet_addType right s₁ r s₂ hRight).1.objects
    exact hAssigns.runs h σ.own (by rw [hObjects', hObjects, hFirst])
      (hPlace.reaches (below_addType hLeft hNamesL))
      (hValue.yields (below_addType hRight hNamesR)) hHas hDefined
  · intro isDown
    obtain ⟨tree, s', hRun, hResults⟩ := newIncDec_run (t := t) hLeft hTarget hType hBool isDown
    refine ⟨tree, s', hRun, ?_⟩
    intro W h σ σ₁ a hFirst hNames hPlace
    rw [← hFirst] at hNames
    exact hResults h σ.own hFirst.le (hPlace.reaches (below_addType hLeft hNames))

/- unsigned char c; -/
def byteObjects : ParseState where
  toks := []
  objects := #[{ name := ascii "c", type := .integer .char true, align := 1 }]

/- The variable is at an address, and nothing else is known. -/
def byteHost : Host Unit where
  first := 1
  address _ := 4096
  place _ _ := none
  value _ _ := none

/- Memory with 255 in each byte. -/
def byteStore : Store Unit where
  own _ := .num 0
  outside := (fun _ => 255, ())

/-
  `c *= 3` and `c++` where c is 255.  The first one stores 253
  and has this value; the second one stores 0, and its value is
  255.
-/
theorem compound_assignment_wraps :
    (∃ tree s' tree', (Update.compound .mul (number 3 default)).assigned
        (var 0 default) default byteObjects = .ok tree s' ∧
      addType tree s' = .ok tree' s' ∧ Results byteHost tree' byteStore 253
        (byteStore.outside.1.storeValue 4096 (.of .char true) 253, ())) ∧
    ∃ tree s', newIncDec (var 0 default) default 1 byteObjects = .ok tree s' ∧
      Results byteHost tree byteStore 255 (byteStore.outside.1.storeValue 4096 (.of .char true) 0,
          ()) := by
  have hLeft : addType (var 0 default) byteObjects =
      .ok (.var ⟨default, some (.integer .char true)⟩ 0)
        byteObjects := rfl
  have hNames : ∀ v ∈ (var 0 default).names, v < byteObjects.objects.size := by decide
  have hPlace : Denotes byteHost (.var ⟨default, some (.integer .char true)⟩ 0) byteStore
      (.byte 4096) byteStore := denotes_var 0
  have hRight : Gives byteHost (.num ⟨default, some .int⟩ 3) byteStore (.num 3) byteStore :=
    number_yields byteHost _ (by decide) byteStore.own
  have hLoad : byteStore.outside.1.loadValue 4096 (.of .char true) = 255 := by decide +kernel
  have hProduct : valueIn .mul (.of .char true) .int
      (byteStore.outside.1.loadValue 4096 (.of .char true)) 3 =
      some 765 := by
    rw [hLoad, valueIn_eq rfl]
    rfl
  have hType : (Expr.var ⟨default, some (.integer .char true)⟩
      0).type.values? = some (.of .char true) := rfl
  obtain ⟨hCompound, hPostfix⟩ := compound_assignment_value
    (t := default) hLeft trivial hType (by decide)
  constructor
  · obtain ⟨tree, s', tree', hRun, hTyped, -, hResults⟩ :=
      hCompound .mul (number 3 default) _ _ .int rfl (fun hNever => by cases hNever)
        (addType_number 3 byteObjects) rfl
    exact ⟨tree, s', tree', hRun, hTyped, hResults byteHost rfl hNames
      hPlace hRight (by decide) hProduct⟩
  · obtain ⟨tree, s', hRun, hResults⟩ := hPostfix false
    exact ⟨tree, s', hRun, hResults byteHost rfl hNames hPlace⟩

end Operator

end CCompiler
