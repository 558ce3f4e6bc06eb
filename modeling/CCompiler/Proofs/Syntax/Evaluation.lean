import Mathlib
import CCompiler.Proofs.Codegen.Converting
import CCompiler.Proofs.Codegen.TypedTree
import CCompiler.Proofs.Syntax.WordArithmetic

/-
  What trees with types compute.

  Evaluation gives the place that an lvalue denotes and the
  value of an expression, and tells what it leaves in memory.
  It knows integers, pointers and the nodes that assignments
  are made of; everything else is left to a host.  Variables
  from a number on belong to the compiler: no address leads to
  them.  As in the code that is generated, the right operand of
  an operator comes first.

  Main declarations:
    * `CType.values?_common`
    * `Memory.loadValue`, `Memory.storeValue`
    * `Evaluation.Host`, `Evaluation.Store`
    * `Evaluation.place`, `Evaluation.value`
    * `Evaluation.Denotes`, `Evaluation.Gives`
-/

------------
-- Integers in Memory
------------

namespace CCompiler

open Codegen

namespace CType

variable {t u : CType} {σ τ : IntType}

theorem values?_cases (hValues : t.values? = some σ) :
    (t.plain = .bool ∧ σ = .bool) ∨ (∃ k v, t.plain = .integer k v ∧ σ = .of k v) ∨
        ∃ id, t.plain = .enum id ∧ σ = .int := by
  unfold values? at hValues
  generalize t.plain = p at hValues ⊢
  cases p <;> cases hValues <;> simp

theorem values?_of_pointer (hPointer : t.isPointer = true) : t.values? = none := by
  unfold isPointer at hPointer
  unfold values?
  generalize t.plain = p at hPointer ⊢
  cases p <;> first | rfl | cases hPointer

theorem isPointer_of_values (hValues : t.values? = some σ) : t.isPointer = false := by
  cases hPointer : t.isPointer with
  | false => rfl
  | true =>
    rw [values?_of_pointer hPointer] at hValues
    cases hValues

theorem isInteger_of_values (hValues : t.values? = some σ) : t.isInteger = true := by
  rcases values?_cases hValues with
    ⟨hPlain, -⟩ | ⟨k, v, hPlain, -⟩ | ⟨id, hPlain, -⟩ <;>
    simp [isInteger, hPlain]

/- What the common type of integers depends on. -/
structure Integral
    (rs : Records)
    (t : CType)
    (σ : IntType) : Prop where
  base : t.base? = none
  function : t.isFunction = false
  floating : ∀ k, t.isFloatKind k = false
  size : t.size rs =
    match σ with
    | .bool => 1
    | .of k _ => intSize k
  unsigned : t.isUnsigned =
    match σ with
    | .bool => false
    | .of _ v => v

theorem integral (rs : Records) (hValues : t.values? = some σ) : Integral rs t σ := by
  rcases values?_cases hValues with
    ⟨hPlain, rfl⟩ | ⟨k, v, hPlain, rfl⟩ | ⟨id, hPlain, rfl⟩ <;>
    constructor <;>
    simp [base?, isFunction, isFloatKind, CType.size, isUnsigned, hPlain, intSize]

/- The common type has the values of the one that C prescribes. -/
theorem values?_common (rs : Records) (hLeft : t.values? = some σ) (hRight : u.values? = some τ) :
    (common rs t u).values? = some (σ.common τ) := by
  obtain ⟨hBase, hFunction, hFloat, hSize, -⟩ := integral rs hLeft
  obtain ⟨-, hFunction', hFloat', hSize', hSign'⟩ := integral rs hRight
  obtain ⟨-, -, -, hIntSize, hIntSign⟩ := integral rs (t := .int) rfl
  have hInt : CType.int.values? = some .int := rfl
  unfold common
  simp only [hBase, hFunction, hFunction', hFloat, hFloat', hSize,
    hSize', Bool.or_false, Bool.false_eq_true, if_false]
  obtain _ | ⟨k, v⟩ := σ <;> obtain _ | ⟨k', v'⟩ := τ
  · simp [hIntSize, hIntSign, hInt, intSize]
    rfl
  · cases k' <;> cases v' <;> simp [hIntSize, hIntSign, hInt, hSize', hSign', hRight,
        intSize] <;> rfl
  · cases k <;> cases v <;> simp [hIntSize, hIntSign, hInt, hSize, hLeft, intSize] <;> rfl
  · cases k <;> cases v <;> cases k' <;> cases v' <;>
      simp [hIntSize, hIntSign, hInt, hSize, hSize', hSign', hLeft, hRight, intSize] <;> rfl

end CType

/- A conversion sees a number up to multiples of the number of values. -/
theorem IntType.convert_emod (k : IntKind) (u : Bool) (n : Int) :
    (IntType.of k u).convert (n % (2 ^ (IntType.of k u).bits : Nat)) =
      (IntType.of k u).convert n := by
  cases u
  · exact Int.emod_bmod n _
  · simp only [convert, Nat.cast_pow, Nat.cast_ofNat, Int.emod_emod]

namespace Memory

variable {mem : Memory} {a : BitVec 64} {τ : IntType} {n : Int}

/- The value of a type that stands at an address. -/
def loadValue (mem : Memory) (a : BitVec 64) (τ : IntType) : Int :=
  τ.convert (mem.load a (stored τ)).toNat

/- Memory with a value of a type at an address. -/
def storeValue
    (mem : Memory)
    (a : BitVec 64)
    (τ : IntType)
    (n : Int) : Memory :=
  mem.store a (stored τ) (BitVec.ofInt _ n)

theorem has_loadValue : τ.Has (mem.loadValue a τ) := IntType.has_convert τ _

end Memory

------------
-- Evaluation
------------

mutual

/- Statements that do nothing but evaluate and repeat. -/
def Stmt.isStraight : Stmt → Bool
| .expr _ _ => true
| .block _ body => Stmt.areStraight body
| .doLoop _ body _ _ _ => body.isStraight
| _ => false

def Stmt.areStraight : List Stmt → Bool
| [] => true
| s :: ss => s.isStraight && Stmt.areStraight ss

end

namespace Evaluation

variable {W : Type}

/- Memory, and whatever else an operand may change. -/
abbrev Outside (W : Type) :=
  Memory × W

/- Where an object is: a variable of the compiler, or an address. -/
inductive Location
| own (v : ObjId)
| byte (a : BitVec 64)

/- A number, which may be an address, or a variable's place. -/
inductive Value
| own (v : ObjId)
| num (n : Int)

/- The value of a pointer to a place. -/
def Location.pointer : Location → Value
| .own v => .own v
| .byte a => .num a.toNat

/- The place that a value points to. -/
def Value.place : Value → Location
| .own v => .own v
| .num n => .byte (BitVec.ofInt 64 n)

/- The place of a member; the compiler's variables have none. -/
def Location.field? : Location → Member → Option Location
| .own _, _ => none
| .byte a, m => some (.byte (a + BitVec.ofInt 64 m.offset))

@[simp]
theorem Location.place_pointer (p : Location) : p.pointer.place = p := by
  cases p with
  | own v => rfl
  | byte a =>
    simp only [pointer, Value.place, BitVec.ofInt_natCast, BitVec.ofNat_toNat, BitVec.setWidth_eq]

/- Whether a value is zero. -/
def Value.isZero : Value → Bool
| .own _ => false
| .num n => n == 0

def Value.num? : Value → Option Int
| .own _ => none
| .num n => some n

/- What there is besides the tree: the compiler's variables, and the rest. -/
structure Store (W : Type) where
  own : ObjId → Value
  outside : Outside W

/-
  Where the compiler's variables start, the addresses of the
  others, and what the nodes do that evaluation does not know.
-/
structure Host (W : Type) where
  first : ObjId
  address : ObjId → BitVec 64
  place : Expr → Outside W → Option (BitVec 64 × Outside W)
  value : Expr → Outside W → Option (Int × Outside W)

variable {v : ObjId}

namespace Store

variable (σ : Store W)

/- What a place of a type holds; a pointer is a number. -/
def read (p : Location) (t : CType) : Option Value :=
  match p with
  | .own v => some (σ.own v)
  | .byte a =>
    if t.isPointer then some (.num (σ.outside.1.load a .quad).toNat)
    else t.values?.map fun τ => .num (σ.outside.1.loadValue a τ)

/- Give one of the compiler's variables a value. -/
def set (v : ObjId) (x : Value) : Store W :=
  { σ with own := Function.update σ.own v x }

/- Give an integer at an address a value. -/
def give (a : BitVec 64) (τ : IntType) (n : Int) : Store W :=
  { σ with
    outside := (σ.outside.1.storeValue a τ n, σ.outside.2) }

/- Give a place of a type a value. -/
def write (p : Location) (t : CType) (x : Value) : Option (Store W) :=
  match p, x with
  | .own v, x => some (σ.set v x)
  | .byte a, .num n =>
    if t.isPointer then
      some { σ with
        outside := (σ.outside.1.store a .quad (BitVec.ofInt 64 n),
          σ.outside.2) }
    else t.values?.map fun τ => σ.give a τ n
  | .byte _, .own _ => none

/- Leave a node to the host. -/
def leave {α β : Type}
    (run : Outside W → Option (α × Outside W))
    (f : α → β) : Option (β × Store W) :=
  (run σ.outside).map fun (a, μ) => (f a, { σ with outside := μ })

@[simp]
theorem set_own (v : ObjId) (x : Value) : (σ.set v x).own v = x := Function.update_self ..

theorem set_own_of_ne {w : ObjId} (x : Value) (hOther : w ≠ v) : (σ.set v x).own w = σ.own w :=
  Function.update_of_ne hOther ..

theorem write_own (v : ObjId) (t : CType) (x : Value) : σ.write (.own v) t x = some (σ.set v x) :=
  rfl

variable {t : CType} {τ : IntType} {a : BitVec 64}

theorem read_byte (hValues : t.values? = some τ) :
    σ.read (.byte a) t = some (.num (σ.outside.1.loadValue a τ)) := by
  simp [read, CType.isPointer_of_values hValues, hValues]

theorem write_byte (n : Int) (hValues : t.values? = some τ) :
    σ.write (.byte a) t (.num n) = some (σ.give a τ n) := by
  simp [write, CType.isPointer_of_values hValues, hValues]

end Store

/- The place of a variable. -/
def Host.home (h : Host W) (v : ObjId) : Location :=
  if h.first ≤ v then .own v else .byte (h.address v)

/- A type that is read and written as a whole. -/
def isWord (t : CType) : Bool :=
  t.isPointer || t.values?.isSome

/- Whether an expression is an lvalue of such a type. -/
def isWordPlace (e : Expr) : Bool :=
  isWord e.type &&
    match e with
    | .var _ _ | .unary _ .deref _ => true
    | .member _ _ m => m.bits?.isNone
    | _ => false

/- The result of an operator on two values; `τ` is the type of the first. -/
def result? (op : BinOp) (τ : IntType) (x y : Int) : Option Int :=
  if op.isShift then op.shiftValue τ x y else op.value τ x y

/-
  Compare what is at a place with what is at another one, and
  give the first one a value if they are equal, or else make
  the second one a copy of it.
-/
def swap
    (σ : Store W)
    (p q : Location)
    (t : CType)
    (x : Value) : Option (Value × Store W) := do
  let now ← (← σ.read p t).num?
  let old ← (← σ.read q t).num?
  if now = old then (σ.write p t x).map (.num 1, ·)
  else (σ.write q t (.num now)).map (.num 0, ·)

/- A variable with what is at the address: the new value gets there. -/
theorem swap_installs {σ : Store W} {a : BitVec 64} {t : CType} {τ : IntType} (n : Int)
    (hValues : t.values? = some τ) (hOld : σ.own v = .num (σ.outside.1.loadValue a τ)) :
    swap σ (.byte a) (.own v) t (.num n) = some (.num 1, σ.give a τ n) := by
  have hRead : σ.read (.own v) t = some (.num (σ.outside.1.loadValue a τ)) := by
    rw [← hOld]
    rfl
  simp [swap, σ.read_byte hValues, hRead, Value.num?, σ.write_byte n hValues]

mutual

/- The place that an expression denotes. -/
def place (h : Host W) :
    Nat → Expr → Store W → Option (Location × Store W)
| 0, _, _ => none
| n + 1, e, σ =>
  match e with
  | .var _ v => some (h.home v, σ)
  | .unary _ .deref a => do
    let (x, σ) ← value h n a σ
    return (x.place, σ)
  | .member _ a m => do
    let (p, σ) ← place h n a σ
    return (← p.field? m, σ)
  | .comma _ l r => do
    let (_, σ) ← value h n l σ
    place h n r σ
  | e => σ.leave (h.place e) .byte

/- The value of an expression. -/
def value (h : Host W) :
    Nat → Expr → Store W → Option (Value × Store W)
| 0, _, _ => none
| n + 1, e, σ =>
  match e with
  | .num i v =>
    match (i.type?.getD .void).values? with
    | some τ => some (.num (τ.convert v.toInt), σ)
    | none => σ.leave (h.value e) .num
  | .unary _ .addressOf a => do
    let (p, σ) ← place h n a σ
    return (p.pointer, σ)
  | .unary _ .not a => do
    let (x, σ) ← value h n a σ
    return (.num (truthValue (x.isZero = true)), σ)
  | .cast i a =>
    match (i.type?.getD .void).values?, a.type.values? with
    | some τ, some _ => do
      let (x, σ) ← value h n a σ
      return (.num (τ.convert (← x.num?)), σ)
    | _, _ =>
      if (i.type?.getD .void).isPointer && a.type.isPointer then
        value h n a σ
      else σ.leave (h.value e) .num
  | .binary i op l r =>
    match (i.type?.getD .void).values?, l.type.values?,
      r.type.values? with
    | some _, some τ, some _ =>
      if op.isLogical then σ.leave (h.value e) .num
      else do
        let (y, σ) ← value h n r σ
        let (x, σ) ← value h n l σ
        return (.num (← result? op τ (← x.num?) (← y.num?)), σ)
    | _, _, _ => σ.leave (h.value e) .num
  | .assign _ l r =>
    if isWordPlace l then do
      let (p, σ) ← place h n l σ
      let (x, σ) ← value h n r σ
      return (x, ← σ.write p l.type x)
    else σ.leave (h.value e) .num
  | .comma _ l r => do
    let (_, σ) ← value h n l σ
    value h n r σ
  | .stmtExpr _ body =>
    if Stmt.areStraight body then do
      let (x?, σ) ← runAll h n body σ
      return (← x?, σ)
    else σ.leave (h.value e) .num
  | .cas _ addr old new =>
    match addr.type.base? with
    | some t => do
      let (p, σ) ← value h n addr σ
      let (x, σ) ← value h n new σ
      let (q, σ) ← value h n old σ
      swap σ p.place q.place t x
    | none => σ.leave (h.value e) .num
  | e =>
    if isWordPlace e then do
      let (p, σ) ← place h n e σ
      return (← σ.read p e.type, σ)
    else σ.leave (h.value e) .num

/- Run a statement; an expression statement has a value. -/
def run (h : Host W) :
    Nat → Stmt → Store W → Option (Option Value × Store W)
| 0, _, _ => none
| n + 1, s, σ =>
  match s with
  | .expr _ e => do
    let (x, σ) ← value h n e σ
    return (some x, σ)
  | .block _ body => do
    let (_, σ) ← runAll h n body σ
    return (none, σ)
  | .doLoop _ body cond _ _ => do
    let (_, σ) ← run h n body σ
    let (x, σ) ← value h n cond σ
    if x.isZero then return (none, σ) else run h n s σ
  | _ => none

/- Run statements; the value is that of the last one. -/
def runAll (h : Host W) :
    Nat → List Stmt → Store W → Option (Option Value × Store W)
| 0, _, _ => none
| _ + 1, [], σ => some (none, σ)
| n + 1, [s], σ => run h n s σ
| n + 1, s :: ss, σ => do
  let (_, σ) ← run h n s σ
  runAll h n ss σ

end

end Evaluation

------------
-- Nodes
------------

namespace Evaluation

variable {W : Type} {h : Host W} {n : Nat} {i : Info} {e l r : Expr}
  {σ : Store W} {tok : Token} {s : Stmt} {ss : List Stmt}

theorem place_deref :
    place h (n + 1) (.unary i .deref e) σ = (do
      let (x, σ) ← value h n e σ
      return (x.place, σ)) := rfl

theorem place_member {m : Member} :
    place h (n + 1) (.member i e m) σ = (do
      let (p, σ) ← place h n e σ
      return (← p.field? m, σ)) := rfl

theorem place_comma :
    place h (n + 1) (.comma i l r) σ = (do
      let (_, σ) ← value h n l σ
      place h n r σ) := rfl

theorem value_num {v : Int64} :
    value h (n + 1) (.num i v) σ = match (i.type?.getD .void).values? with
      | some τ => some (.num (τ.convert v.toInt), σ)
      | none => σ.leave (h.value (.num i v)) .num := rfl

theorem value_addressOf :
    value h (n + 1) (.unary i .addressOf e) σ = (do
      let (p, σ) ← place h n e σ
      return (p.pointer, σ)) := rfl

theorem value_not :
    value h (n + 1) (.unary i .not e) σ = (do
      let (x, σ) ← value h n e σ
      return (.num (truthValue (x.isZero = true)), σ)) := rfl

theorem value_cast :
    value h (n + 1) (.cast i e) σ = match (i.type?.getD .void).values?, e.type.values? with
      | some τ, some _ => do
        let (x, σ) ← value h n e σ
        return (.num (τ.convert (← x.num?)), σ)
      | _, _ =>
        if (i.type?.getD .void).isPointer && e.type.isPointer then
          value h n e σ
        else σ.leave (h.value (.cast i e)) .num := rfl

theorem value_binary {op : BinOp} :
    value h (n + 1) (.binary i op l r) σ = match (i.type?.getD .void).values?, l.type.values?,
        r.type.values? with
      | some _, some τ, some _ =>
        if op.isLogical then
          σ.leave (h.value (.binary i op l r)) .num
        else do
          let (y, σ) ← value h n r σ
          let (x, σ) ← value h n l σ
          return (.num (← result? op τ (← x.num?) (← y.num?)), σ)
      | _, _, _ => σ.leave (h.value (.binary i op l r)) .num := rfl

theorem value_assign :
    value h (n + 1) (.assign i l r) σ = if isWordPlace l then do
        let (p, σ) ← place h n l σ
        let (x, σ) ← value h n r σ
        return (x, ← σ.write p l.type x)
      else σ.leave (h.value (.assign i l r)) .num := rfl

theorem value_comma :
    value h (n + 1) (.comma i l r) σ = (do
      let (_, σ) ← value h n l σ
      value h n r σ) := rfl

theorem value_stmtExpr :
    value h (n + 1) (.stmtExpr i ss) σ = if Stmt.areStraight ss then do
        let (x?, σ) ← runAll h n ss σ
        return (← x?, σ)
      else σ.leave (h.value (.stmtExpr i ss)) .num := rfl

theorem value_cas {addr old new : Expr} :
    value h (n + 1) (.cas i addr old new) σ = match addr.type.base? with
      | some t => do
        let (p, σ) ← value h n addr σ
        let (x, σ) ← value h n new σ
        let (q, σ) ← value h n old σ
        swap σ p.place q.place t x
      | none => σ.leave (h.value (.cas i addr old new)) .num := rfl

/- An lvalue that is read. -/
theorem value_of_isWordPlace (hWord : isWordPlace e = true) :
    value h (n + 1) e σ = (do
      let (p, σ) ← place h n e σ
      return (← σ.read p e.type, σ)) := by
  have hNode : value h (n + 1) e σ = (do
      if isWordPlace e then do
        let (p, σ) ← place h n e σ
        return (← σ.read p e.type, σ)
      else σ.leave (h.value e) .num) := by
    cases e with
    | var _ _ => rfl
    | member _ _ _ => rfl
    | unary _ op _ =>
      cases op with
      | deref => rfl
      | _ => simp [isWordPlace] at hWord
    | _ => simp [isWordPlace] at hWord
  rw [hNode, if_pos hWord]

theorem run_expr :
    run h (n + 1) (.expr tok e) σ = (do
      let (x, σ) ← value h n e σ
      return (some x, σ)) := rfl

theorem run_block :
    run h (n + 1) (.block tok ss) σ = (do
      let (_, σ) ← runAll h n ss σ
      return (none, σ)) := rfl

theorem run_doLoop {brk cont : Bytes} :
    run h (n + 1) (.doLoop tok s e brk cont) σ = (do
      let (_, σ) ← run h n s σ
      let (x, σ) ← value h n e σ
      if x.isZero then return (none, σ)
      else run h n (.doLoop tok s e brk cont) σ) := rfl

theorem runAll_cons {u : Stmt} :
    runAll h (n + 1) (s :: u :: ss) σ = (do
      let (_, σ) ← run h n s σ
      runAll h n (u :: ss) σ) := rfl

end Evaluation

------------
-- Rules
------------

namespace Evaluation

open Filter

variable {W : Type} {h : Host W} {i : Info} {e l r : Expr}
  {s : Stmt} {ss : List Stmt} {σ σ₁ σ₂ σ₃ : Store W} {p q : Location}
  {x y : Value} {x? : Option Value} {t : CType} {τ ρ : IntType}
  {a : BitVec 64} {m n k : Int}

/- An expression has a value, with any fuel from some amount on. -/
def Gives
    (h : Host W)
    (e : Expr)
    (σ : Store W)
    (x : Value)
    (σ' : Store W) : Prop :=
  ∀ᶠ n in atTop, value h n e σ = some (x, σ')

/- An lvalue denotes a place. -/
def Denotes
    (h : Host W)
    (e : Expr)
    (σ : Store W)
    (p : Location)
    (σ' : Store W) : Prop :=
  ∀ᶠ n in atTop, place h n e σ = some (p, σ')

/- A statement comes to its end. -/
def Runs
    (h : Host W)
    (s : Stmt)
    (σ : Store W)
    (x? : Option Value)
    (σ' : Store W) : Prop :=
  ∀ᶠ n in atTop, run h n s σ = some (x?, σ')

/- Statements come to their end, one after the other. -/
def RunsAll
    (h : Host W)
    (ss : List Stmt)
    (σ : Store W)
    (x? : Option Value)
    (σ' : Store W) : Prop :=
  ∀ᶠ n in atTop, runAll h n ss σ = some (x?, σ')

variable {P : Nat → Prop}

theorem eventually_succ (hNext : ∀ᶠ n in atTop, P (n + 1)) : ∀ᶠ n in atTop, P n := by
  obtain ⟨N, hLater⟩ := eventually_atTop.mp hNext
  refine eventually_atTop.mpr ⟨N + 1, fun n hn => ?_⟩
  obtain ⟨k, rfl⟩ : ∃ k, n = k + 1 := ⟨n - 1, by omega⟩
  exact hLater k (by omega)

theorem eventually_next (hLater : ∀ᶠ n in atTop, P n) : ∀ᶠ n in atTop, P (n + 1) :=
  (tendsto_add_atTop_nat 1).eventually hLater

theorem denotes_var (v : ObjId) : Denotes h (.var i v) σ (h.home v) σ :=
  eventually_succ (Eventually.of_forall fun _ => rfl)

theorem gives_num {v : Int64} (hType : i.type? = some t) (hValues : t.values? = some τ) :
    Gives h (.num i v) σ (.num (τ.convert v.toInt)) σ :=
  eventually_succ (Eventually.of_forall fun n => by
    rw [value_num]
    simp [hType, hValues])

theorem Gives.deref (hGives : Gives h e σ x σ₁) : Denotes h (.unary i .deref e) σ x.place σ₁ :=
  eventually_succ <| hGives.mono fun n hValue => by simp [place_deref, hValue]

theorem Denotes.member {m : Member} (hDenotes : Denotes h e σ (.byte a) σ₁) :
    Denotes h (.member i e m) σ (.byte (a + BitVec.ofInt 64 m.offset)) σ₁ :=
  eventually_succ <| hDenotes.mono fun n hPlace => by simp [place_member, hPlace, Location.field?]

/- The place of a member lies in that of its record. -/
theorem Denotes.of_member {m : Member} (hDenotes : Denotes h (.member i e m) σ (.byte a) σ₁) :
    Denotes h e σ (.byte (a - BitVec.ofInt 64 m.offset)) σ₁ := by
  refine (eventually_next hDenotes).mono fun n hPlace => ?_
  rw [place_member] at hPlace
  cases hInner : place h n e σ with
  | none =>
    rw [hInner] at hPlace
    cases hPlace
  | some found =>
    rw [hInner] at hPlace
    obtain ⟨_ | a', σ'⟩ := found
    · cases hPlace
    · cases hPlace
      rw [BitVec.add_sub_cancel]

theorem Denotes.addressOf (hDenotes : Denotes h e σ p σ₁) :
    Gives h (.unary i .addressOf e) σ p.pointer σ₁ :=
  eventually_succ <| hDenotes.mono fun n hPlace => by simp [value_addressOf, hPlace]

/- An lvalue of a type that is read as a whole. -/
theorem Denotes.read (hWord : isWordPlace e = true) (hDenotes : Denotes h e σ p σ₁)
    (hRead : σ₁.read p e.type = some x) : Gives h e σ x σ₁ := by
  refine eventually_succ <| hDenotes.mono fun n hPlace => ?_
  rw [value_of_isWordPlace hWord, hPlace]
  simp [hRead]

theorem Gives.not (hGives : Gives h e σ x σ₁) :
    Gives h (.unary i .not e) σ (.num (truthValue (x.isZero = true))) σ₁ :=
  eventually_succ <| hGives.mono fun n hValue => by simp [value_not, hValue]

/- A conversion between integer types. -/
theorem Gives.cast (hType : i.type? = some t) (hTarget : t.values? = some τ)
    (hSource : e.type.values? = some ρ) (hGives : Gives h e σ (.num n) σ₁) :
    Gives h (.cast i e) σ (.num (τ.convert n)) σ₁ :=
  eventually_succ <| hGives.mono fun n hValue => by
    simp [value_cast, hValue, hType, hTarget, hSource, Value.num?]

/- A conversion between pointer types. -/
theorem Gives.castPointer (hType : i.type? = some t) (hTarget : t.isPointer = true)
    (hSource : e.type.isPointer = true) (hGives : Gives h e σ x σ₁) :
    Gives h (.cast i e) σ x σ₁ := by
  have hNone := CType.values?_of_pointer hTarget
  exact eventually_succ <| hGives.mono fun n hValue => by
    simp [value_cast, hValue, hType, hTarget, hSource, hNone]

/- An operator; its right operand comes first. -/
theorem Gives.binary {op : BinOp} (hType : i.type? = some t) (hResult : t.values?.isSome = true)
    (hLeft : l.type.values? = some τ) (hRight : r.type.values?.isSome = true)
    (hOp : op.isLogical = false) (hGivesR : Gives h r σ (.num n) σ₁)
    (hGivesL : Gives h l σ₁ (.num m) σ₂) (hValue : result? op τ m n = some k) :
    Gives h (.binary i op l r) σ (.num k) σ₂ := by
  obtain ⟨_, hResult⟩ := Option.isSome_iff_exists.mp hResult
  obtain ⟨_, hRight⟩ := Option.isSome_iff_exists.mp hRight
  exact eventually_succ <| (hGivesR.and hGivesL).mono fun n ⟨hR, hL⟩ => by
      simp [value_binary, hR, hL, hType, hResult, hLeft, hRight, hOp, Value.num?, hValue]

theorem Gives.assign (hWord : isWordPlace l = true) (hLeft : Denotes h l σ p σ₁)
    (hRight : Gives h r σ₁ x σ₂) (hWrite : σ₂.write p l.type x = some σ₃) :
    Gives h (.assign i l r) σ x σ₃ :=
  eventually_succ <| (hLeft.and hRight).mono fun n ⟨hL, hR⟩ => by
    simp [value_assign, hWord, hL, hR, hWrite]

theorem Gives.comma (hLeft : Gives h l σ x σ₁) (hRight : Gives h r σ₁ y σ₂) :
    Gives h (.comma i l r) σ y σ₂ :=
  eventually_succ <| (hLeft.and hRight).mono fun n ⟨hL, hR⟩ => by simp [value_comma, hL, hR]

theorem RunsAll.stmtExpr (hStraight : Stmt.areStraight ss = true)
    (hRuns : RunsAll h ss σ (some x) σ₁) : Gives h (.stmtExpr i ss) σ x σ₁ :=
  eventually_succ <| hRuns.mono fun n hRun => by simp [value_stmtExpr, hStraight, hRun]

/- A compare-and-swap of what the address points to. -/
theorem Gives.cas {addr old new : Expr} {z : Value} (hBase : addr.type.base? = some t)
    (hAddr : Gives h addr σ x σ₁) (hNew : Gives h new σ₁ y σ₂) (hOld : Gives h old σ₂ z σ₃)
    {u : Value} {σ₄ : Store W} (hSwap : swap σ₃ x.place z.place t y = some (u, σ₄)) :
    Gives h (.cas i addr old new) σ u σ₄ :=
  eventually_succ <| (hAddr.and (hNew.and hOld)).mono fun n ⟨hA, hN, hO⟩ => by
      simp [value_cas, hBase, hA, hN, hO, hSwap]

theorem Gives.expr {tok : Token} (hGives : Gives h e σ x σ₁) : Runs h (.expr tok e) σ (some x) σ₁ :=
  eventually_succ <| hGives.mono fun n hValue => by simp [run_expr, hValue]

theorem RunsAll.block {tok : Token} (hRuns : RunsAll h ss σ x? σ₁) :
    Runs h (.block tok ss) σ none σ₁ :=
  eventually_succ <| hRuns.mono fun n hRun => by simp [run_block, hRun]

/- A loop whose condition does not hold after its body. -/
theorem Runs.doLoop {tok : Token} {brk cont : Bytes} (hBody : Runs h s σ x? σ₁)
    (hCond : Gives h e σ₁ x σ₂) (hZero : x.isZero = true) :
    Runs h (.doLoop tok s e brk cont) σ none σ₂ :=
  eventually_succ <| (hBody.and hCond).mono fun n ⟨hRun, hValue⟩ => by
    simp [run_doLoop, hRun, hValue, hZero]

theorem Runs.last (hRuns : Runs h s σ x? σ₁) : RunsAll h [s] σ x? σ₁ := eventually_succ hRuns

theorem Runs.before {y? : Option Value} (hFirst : Runs h s σ x? σ₁)
    (hRest : RunsAll h ss σ₁ y? σ₂) (hSome : ss ≠ []) : RunsAll h (s :: ss) σ y? σ₂ := by
  obtain ⟨u, us, rfl⟩ := List.exists_cons_of_ne_nil hSome
  exact eventually_succ <| (hFirst.and hRest).mono fun n ⟨hF, hR⟩ => by simp [runAll_cons, hF, hR]

end Evaluation

end CCompiler
