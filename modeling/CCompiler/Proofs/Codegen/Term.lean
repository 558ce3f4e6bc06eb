import Mathlib
import CCompiler.Syntax.Tree

/-
  Integer expressions and their values in C.

  A term is an expression on integers, without the conversions
  that C implies.  Its type follows the integer promotions and
  the usual arithmetic conversions; it has no value where its
  evaluation divides by zero, has a quotient that is no value
  of the type, or shifts by a number of bits that the type
  does not have.  Signed operations wrap around.

  Main declarations:
    * `IntType`, `IntType.convert`, `IntType.common`
    * `Term`, `Term.type`, `Term.value`
    * `Term.Proper`
    * `Term.has_value`
-/

------------
-- Integer Types
------------

namespace CCompiler

/- An integer type. -/
inductive IntType
| bool
| of (kind : IntKind) (isUnsigned : Bool)
deriving DecidableEq, Repr

namespace IntType

abbrev int : IntType := .of .int false

/- The type as the trees have it. -/
def toCType : IntType → CType
| .bool => .bool
| .of k u => .integer k u

/- The number of bits that make up a value. -/
def bits : IntType → Nat
| .bool => 1
| .of .char _ => 8
| .of .short _ => 16
| .of .int _ => 32
| .of .long _ => 64

/- Whether a type has no negative values. -/
def isUnsigned : IntType → Bool
| .bool => true
| .of _ u => u

/- The least value. -/
def least (τ : IntType) : Int :=
  if τ.isUnsigned then 0 else -2 ^ (τ.bits - 1)

/- The greatest value. -/
def greatest (τ : IntType) : Int :=
  if τ.isUnsigned then 2 ^ τ.bits - 1 else 2 ^ (τ.bits - 1) - 1

/- A number is a value of a type. -/
def Has (τ : IntType) (v : Int) : Prop :=
  τ.least ≤ v ∧ v ≤ τ.greatest

instance  (τ : IntType) (v : Int) : Decidable (τ.Has v) := inferInstanceAs (Decidable (_ ∧ _))

/-
  A number converted to a type: whether it differs from zero,
  or the value of the type that it is congruent to.
-/
def convert (τ : IntType) (v : Int) : Int :=
  match τ with
  | .bool => if v = 0 then 0 else 1
  | .of _ true => v % 2 ^ τ.bits
  | .of _ false => v.bmod (2 ^ τ.bits)

/- A type whose values are all values of another one. -/
def Fits (τ σ : IntType) : Prop :=
  σ.least ≤ τ.least ∧ τ.greatest ≤ σ.greatest

instance  (τ σ : IntType) : Decidable (τ.Fits σ) := inferInstanceAs (Decidable (_ ∧ _))

/- The type to which a value is promoted. -/
def promote (τ : IntType) : IntType :=
  if τ.Fits .int then .int else τ

/- The unsigned type that corresponds to a type. -/
def toUnsigned : IntType → IntType
| .bool => .bool
| .of k _ => .of k true

/- The common type of an unsigned and a signed type. -/
def mixed (unsigned signed : IntType) : IntType :=
  if signed.bits ≤ unsigned.bits then unsigned
  else if unsigned.Fits signed then signed
  else signed.toUnsigned

/- The type to which both operands are converted. -/
def common (σ τ : IntType) : IntType :=
  let a := σ.promote
  let b := τ.promote
  if a.isUnsigned = b.isUnsigned then
    if a.bits < b.bits then b else a
  else if a.isUnsigned then mixed a b
  else mixed b a

/- The result of an operation on bits, as a value. -/
def bitwise
    (τ : IntType)
    (f : BitVec 64 → BitVec 64 → BitVec 64)
    (a b : Int) : Int :=
  τ.convert (f (.ofInt 64 a) (.ofInt 64 b)).toInt

end IntType

/- A truth value as a number. -/
def truthValue (p : Prop) [Decidable p] : Int :=
  if p then 1 else 0

/- The value of an operator on two values of one type. -/
def BinOp.value (op : BinOp) (τ : IntType) (a b : Int) :
    Option Int :=
  match op with
  | .add => some (τ.convert (a + b))
  | .sub => some (τ.convert (a - b))
  | .mul => some (τ.convert (a * b))
  | .div =>
    if b = 0 ∨ ¬ τ.Has (a.tdiv b) then none
    else some (a.tdiv b)
  | .mod =>
    if b = 0 ∨ ¬ τ.Has (a.tdiv b) then none
    else some (a.tmod b)
  | .bitAnd => some (τ.bitwise (· &&& ·) a b)
  | .bitOr => some (τ.bitwise (· ||| ·) a b)
  | .bitXor => some (τ.bitwise (· ^^^ ·) a b)
  | .eq => some (truthValue (a = b))
  | .ne => some (truthValue (a ≠ b))
  | .lt => some (truthValue (a < b))
  | .le => some (truthValue (a ≤ b))
  | _ => none

/-
  The value of a shift; `τ` is the type of the first operand,
  and the second one is less than its number of bits.
-/
def BinOp.shiftValue (op : BinOp) (τ : IntType) (a n : Int) :
    Option Int :=
  if 0 ≤ n ∧ n < τ.bits then
    match op with
    | .shl => some (τ.convert (a * 2 ^ n.toNat))
    | .shr => some (a / 2 ^ n.toNat)
    | _ => none
  else none

/- Whether an operator shifts its first operand. -/
def BinOp.isShift : BinOp → Bool
| .shl | .shr => true
| _ => false

/- Whether an operator may leave out its second operand. -/
def BinOp.isLogical : BinOp → Bool
| .logAnd | .logOr => true
| _ => false

/- Whether an operator compares its operands. -/
def BinOp.isComparison : BinOp → Bool
| .eq | .ne | .lt | .le => true
| _ => false

------------
-- Terms
------------

/- An expression on integers. -/
inductive Term
| const (τ : IntType) (v : Int)
| var (x : ObjId)
| cast (τ : IntType) (t : Term)
| neg (t : Term)
| not (t : Term)
| bitNot (t : Term)
| binary (op : BinOp) (l r : Term)
| cond (test thn els : Term)
| comma (l r : Term)

namespace Term

/- The type of a term; `Γ` has the types of the variables. -/
def type (Γ : ObjId → IntType) : Term → IntType
| .const τ _ => τ
| .var x => Γ x
| .cast τ _ => τ
| .neg t | .bitNot t => (t.type Γ).promote
| .not _ => .int
| .binary op l r =>
  if op.isShift then (l.type Γ).promote
  else if op.isLogical || op.isComparison then .int
  else (l.type Γ).common (r.type Γ)
| .cond _ t e => (t.type Γ).common (e.type Γ)
| .comma _ r => r.type Γ

/- The value of a term; `ρ` has those of the variables. -/
def value
    (Γ : ObjId → IntType)
    (ρ : ObjId → Int) : Term → Option Int
| .const _ v => some v
| .var x => some (ρ x)
| .cast τ t => (t.value Γ ρ).map τ.convert
| .neg t =>
  (t.value Γ ρ).map fun v =>
    let τ := (t.type Γ).promote
    τ.convert (-τ.convert v)
| .not t => (t.value Γ ρ).map fun v => truthValue (v = 0)
| .bitNot t =>
  (t.value Γ ρ).map fun v =>
    let τ := (t.type Γ).promote
    τ.convert (-τ.convert v - 1)
| .binary op l r =>
  match op with
  | .logAnd => do
    let a ← l.value Γ ρ
    if a = 0 then some 0
    else (r.value Γ ρ).map fun b => truthValue (b ≠ 0)
  | .logOr => do
    let a ← l.value Γ ρ
    if a ≠ 0 then some 1
    else (r.value Γ ρ).map fun b => truthValue (b ≠ 0)
  | op => do
    let a ← l.value Γ ρ
    let b ← r.value Γ ρ
    if op.isShift then
      let τ := (l.type Γ).promote
      op.shiftValue τ (τ.convert a) b
    else
      let τ := (l.type Γ).common (r.type Γ)
      op.value τ (τ.convert a) (τ.convert b)
| .cond c t e => do
  let τ := (t.type Γ).common (e.type Γ)
  let a ← c.value Γ ρ
  if a ≠ 0 then (t.value Γ ρ).map τ.convert
  else (e.value Γ ρ).map τ.convert
| .comma l r => do
  let _ ← l.value Γ ρ
  r.value Γ ρ

/- The variables of a term. -/
def vars : Term → List ObjId
| .const _ _ => []
| .var x => [x]
| .cast _ t | .neg t | .not t | .bitNot t => t.vars
| .binary _ l r | .comma l r => l.vars ++ r.vars
| .cond c t e => c.vars ++ t.vars ++ e.vars

/-
  Constants are values of their types, and operands whose bits
  count are not narrower than an `int`.
-/
def Proper (Γ : ObjId → IntType) : Term → Prop
| .const τ v => τ.Has v
| .var _ => True
| .cast _ t | .neg t | .not t => t.Proper Γ
| .bitNot t => t.Proper Γ ∧ (t.type Γ).promote = t.type Γ
| .binary op l r =>
  l.Proper Γ ∧ r.Proper Γ ∧
    (op.isShift = true → (l.type Γ).promote = l.type Γ)
| .cond c t e => c.Proper Γ ∧ t.Proper Γ ∧ e.Proper Γ
| .comma l r => l.Proper Γ ∧ r.Proper Γ

/- How many bytes of the stack the code of a term uses. -/
def room : Term → Nat
| .const _ _ | .var _ => 0
| .cast _ t | .neg t | .not t | .bitNot t => t.room
| .binary op l r =>
  if op.isLogical then max l.room r.room
  else max (l.room + 8) r.room
| .cond c t e => max c.room (max t.room e.room)
| .comma l r => max l.room r.room

end Term

------------
-- Values of Types
------------

namespace IntType

variable {τ : IntType} {a v : Int}

/- Every type has the values zero and one. -/
theorem has_zero (τ : IntType) : τ.Has 0 := by
  obtain _ | ⟨k, u⟩ := τ
  · decide
  · cases k <;> cases u <;> decide

theorem has_truthValue (p : Prop) [Decidable p] : IntType.int.Has (truthValue p) := by
  unfold truthValue
  split <;> decide

/- Between zero and a value lie only values. -/
theorem Has.between (hHas : τ.Has a) (hBetween : 0 ≤ v ∧ v ≤ a ∨ a ≤ v ∧ v ≤ 0) : τ.Has v := by
  have hZero := has_zero τ
  unfold Has at *
  omega

/- The remainder of a value is a value. -/
theorem Has.tmod (hHas : τ.Has a) (b : Int) : τ.Has (a.tmod b) := by
  refine hHas.between ?_
  have hAbs : (a.tmod b).natAbs ≤ a.natAbs := by
    rw [Int.natAbs_tmod]
    exact Nat.mod_le _ _
  rcases le_total 0 a with hSign | hSign
  · have hPos := Int.tmod_nonneg b hSign
    omega
  · have hNeg := Int.tmod_nonneg (a := -a) b (by omega)
    rw [Int.neg_tmod] at hNeg
    omega

/- A value shifted to the right is a value. -/
theorem Has.shift (hHas : τ.Has a) (n : Nat) : τ.Has (a / 2 ^ n) := by
  refine hHas.between ?_
  have hPos : (0 : Int) < 2 ^ n := by positivity
  rcases le_total 0 a with hSign | hSign
  · exact .inl ⟨Int.ediv_nonneg hSign hPos.le, Int.ediv_le_self _ hSign⟩
  · refine .inr ⟨?_, Int.ediv_nonpos_of_nonpos_of_neg hSign hPos⟩
    rw [Int.le_ediv_iff_mul_le hPos]
    nlinarith

/- A conversion gives a value of the type. -/
theorem has_convert (τ : IntType) (v : Int) : τ.Has (τ.convert v) := by
  obtain _ | ⟨k, u⟩ := τ
  · by_cases hZero : v = 0 <;> simp only [convert, hZero, if_true, if_false] <;> decide
  · cases u
    · have hLow := @Int.le_bmod v (2 ^ bits (.of k false)) (by positivity)
      have hHigh := @Int.bmod_lt v (2 ^ bits (.of k false)) (by positivity)
      simp only [Has, convert, least, greatest, isUnsigned, Bool.false_eq_true, if_false]
      cases k <;> simp only [bits] at * <;> omega
    · have hLow := Int.emod_nonneg v (b := 2 ^ bits (.of k true)) (by positivity)
      have hHigh := Int.emod_lt_of_pos v (b := 2 ^ bits (.of k true)) (by positivity)
      simp only [Has, convert, least, greatest, isUnsigned, if_true]
      omega

/- A value of the type is converted to itself. -/
theorem convert_of_has (hHas : τ.Has v) : τ.convert v = v := by
  obtain _ | ⟨k, u⟩ := τ
  · have hRange : 0 ≤ v ∧ v ≤ 1 := hHas
    have hCases : v = 0 ∨ v = 1 := by omega
    rcases hCases with rfl | rfl <;> rfl
  · obtain ⟨hLow, hHigh⟩ := hHas
    cases u
    · simp only [convert]
      simp only [least, greatest, isUnsigned, Bool.false_eq_true, if_false] at hLow hHigh
      refine Int.bmod_eq_of_le ?_ ?_ <;> cases k <;> simp only [bits] at * <;> omega
    · simp only [convert]
      simp only [least, greatest, isUnsigned, if_true] at hLow hHigh
      exact Int.emod_eq_of_lt hLow (by omega)

/- Apart from truth values a conversion is a congruence. -/
theorem convert_modEq (k : IntKind) (u : Bool) (v : Int) :
    (IntType.of k u).convert v ≡ v [ZMOD 2 ^ (IntType.of k u).bits] := by
  cases u
  · simp only [convert]
    exact_mod_cast Int.bmod_emod
  · exact Int.mod_modEq v _

/- The types that operands are promoted to. -/
theorem promote_cases (τ : IntType) :
    τ.promote = .of .int false ∨ τ.promote = .of .int true ∨ τ.promote = .of .long false ∨
      τ.promote = .of .long true := by
  obtain _ | ⟨k, u⟩ := τ
  · decide
  · cases k <;> cases u <;> decide

/- A common type is one that operands are promoted to. -/
theorem promote_common (σ τ : IntType) : (σ.common τ).promote = σ.common τ := by
  rcases promote_cases σ with hσ | hσ | hσ | hσ <;>
    rcases promote_cases τ with hτ | hτ | hτ | hτ <;>
    unfold common <;> rw [hσ, hτ] <;> decide

theorem promote_promote (τ : IntType) : τ.promote.promote = τ.promote := by
  rcases promote_cases τ with h | h | h | h <;> rw [h] <;> decide

end IntType

variable {op : BinOp}

/- An operator on values of a type gives a value. -/
theorem BinOp.has_value {τ : IntType} {a b v : Int} (hLeft : τ.Has a)
    (hValue : op.value τ a b = some v) : (if op.isComparison then IntType.int else τ).Has v := by
  cases op <;> simp only [BinOp.value, BinOp.isComparison,
      Bool.false_eq_true, if_false, if_true, reduceCtorEq,
      Option.some.injEq] at hValue ⊢
  case div =>
    split at hValue
    · cases hValue
    · rename_i hDefined
      cases hValue
      exact not_not.mp (not_or.mp hDefined).2
  case mod =>
    split at hValue
    · cases hValue
    · cases hValue
      exact hLeft.tmod b
  case eq => exact hValue ▸ IntType.has_truthValue _
  case ne => exact hValue ▸ IntType.has_truthValue _
  case lt => exact hValue ▸ IntType.has_truthValue _
  case le => exact hValue ▸ IntType.has_truthValue _
  all_goals exact hValue ▸ IntType.has_convert τ _

/- A shift of a value gives a value. -/
theorem BinOp.has_shiftValue {τ : IntType} {a n v : Int} (hLeft : τ.Has a)
    (hValue : op.shiftValue τ a n = some v) : τ.Has v := by
  unfold BinOp.shiftValue at hValue
  split at hValue
  · cases op <;> cases hValue
    · exact IntType.has_convert τ _
    · exact hLeft.shift n.toNat
  · cases hValue

namespace Term

variable {Γ : ObjId → IntType} {ρ : ObjId → Int}

/- Operators that may leave out an operand give truth values. -/
theorem type_logical (hOp : op.isLogical = true) (l r : Term) :
    (Term.binary op l r).type Γ = .int := by cases op <;> first | rfl | cases hOp

/- The value of an operator that uses both operands. -/
theorem value_binary (hOp : op.isLogical = false) (l r : Term) :
    (Term.binary op l r).value Γ ρ = (l.value Γ ρ).bind fun a =>
        (r.value Γ ρ).bind fun b =>
          if op.isShift then
            op.shiftValue (l.type Γ).promote ((l.type Γ).promote.convert a) b
          else
            op.value ((l.type Γ).common (r.type Γ)) (((l.type Γ).common (r.type Γ)).convert a)
              (((l.type Γ).common (r.type Γ)).convert b) := by cases op <;> first | rfl | cases hOp

/- The value of a term is a value of its type. -/
theorem has_value {t : Term} {v : Int} (hProper : t.Proper Γ)
    (hVars : ∀ x ∈ t.vars, (Γ x).Has (ρ x)) (hValue : t.value Γ ρ = some v) : (t.type Γ).Has v := by
  induction t generalizing v with
  | const τ w =>
    cases hValue
    exact hProper
  | var x =>
    cases hValue
    exact hVars x (by simp [vars])
  | cast τ t ih =>
    obtain ⟨w, -, rfl⟩ := Option.map_eq_some_iff.mp hValue
    exact IntType.has_convert τ w
  | neg t ih =>
    obtain ⟨w, -, rfl⟩ := Option.map_eq_some_iff.mp hValue
    exact IntType.has_convert _ _
  | not t ih =>
    obtain ⟨w, -, rfl⟩ := Option.map_eq_some_iff.mp hValue
    exact IntType.has_truthValue _
  | bitNot t ih =>
    obtain ⟨w, -, rfl⟩ := Option.map_eq_some_iff.mp hValue
    exact IntType.has_convert _ _
  | binary op l r ihl ihr =>
    cases hOp : op.isLogical with
    | true =>
      -- both branches give a truth value
      rw [type_logical hOp]
      cases op <;> try cases hOp
      all_goals
        obtain ⟨a, -, hRest⟩ := Option.bind_eq_some_iff.mp hValue
        split at hRest
        · cases hRest
          decide
        · obtain ⟨b, -, rfl⟩ := Option.map_eq_some_iff.mp hRest
          exact IntType.has_truthValue _
    | false =>
      rw [value_binary hOp] at hValue
      obtain ⟨a, -, hRest⟩ := Option.bind_eq_some_iff.mp hValue
      obtain ⟨b, -, hOut⟩ := Option.bind_eq_some_iff.mp hRest
      simp only [type, hOp, Bool.false_or]
      split at hOut
      · rename_i hShift
        rw [if_pos hShift]
        exact BinOp.has_shiftValue (IntType.has_convert _ _) hOut
      · rename_i hShift
        rw [if_neg hShift]
        exact BinOp.has_value (IntType.has_convert _ _) hOut
  | cond c t e ihc iht ihe =>
    obtain ⟨a, -, hRest⟩ := Option.bind_eq_some_iff.mp hValue
    split at hRest <;> obtain ⟨w, -, rfl⟩ := Option.map_eq_some_iff.mp hRest <;>
      exact IntType.has_convert _ _
  | comma l r ihl ihr =>
    obtain ⟨a, -, hRest⟩ := Option.bind_eq_some_iff.mp hValue
    exact ihr hProper.2 (fun x hx => hVars x (by simp [vars, hx])) hRest

end Term

end CCompiler
