import Mathlib
import CCompiler.Proofs.Codegen.Term
import CCompiler.Proofs.Syntax.Stepping

/-
  Arithmetic expressions as they are written, and their types.

  A formula is an expression on operands of integer and floating
  types, with the tokens that spell it.  Its type in C follows
  the integer promotions and the usual arithmetic conversions.
  The type that its tree is given differs from it where a
  promotion is left out.

  Main declarations:
    * `ArithType`, `ArithType.promote`, `ArithType.common`
    * `Monadic`, `Dyadic`, `Formula`
    * `Formula.type`, `Formula.given`
    * `Formula.given_eq_type_iff`
-/

------------
-- Arithmetic Types
------------

namespace CCompiler

/- An arithmetic type. -/
inductive ArithType
| integer (τ : IntType)
| enum (id : Nat)
| floating (kind : FloatKind)
deriving DecidableEq, Repr

/- The arithmetic type that a type is, whether atomic or not. -/
def CType.arith? (t : CType) : Option ArithType :=
  match t.plain with
  | .bool => some (.integer .bool)
  | .integer k u => some (.integer (.of k u))
  | .enum id => some (.enum id)
  | .floating k => some (.floating k)
  | _ => none

/- The arithmetic type of an expression that has its type. -/
def Info.arith? (i : Info) : Option ArithType :=
  i.type?.bind CType.arith?

namespace ArithType

abbrev int : ArithType := .integer .int

/- The integer type with the values of a type; those of an enumeration are `int`. -/
def values : ArithType → IntType
| .integer τ => τ
| _ => .int

/- Whether a type is one of integers. -/
def isInteger : ArithType → Bool
| .floating _ => false
| _ => true

/- The type to which a value is promoted. -/
def promote : ArithType → ArithType
| .floating k => .floating k
| τ => .integer τ.values.promote

/- The wider one of two floating types. -/
def wider : FloatKind → FloatKind → FloatKind
| .ldouble, _ | _, .ldouble => .ldouble
| .double, _ | _, .double => .double
| _, _ => .float

/- The type to which both operands of an operator are converted. -/
def common : ArithType → ArithType → ArithType
| .floating j, .floating k => .floating (wider j k)
| .floating k, _ | _, .floating k => .floating k
| σ, τ => .integer (σ.values.common τ.values)

/-
  The common type as trees get it: an enumeration on the left
  stands for itself where the common type is `int`.
-/
def merged (σ τ : ArithType) : ArithType :=
  match σ with
  | .enum id => if common σ τ = .int then .enum id else common σ τ
  | _ => common σ τ

end ArithType

------------
-- Operators
------------

/- The operators before an operand. -/
inductive Monadic
| plus
| minus
| complement
| not
deriving DecidableEq, Repr

/- How an operator is written. -/
def Monadic.text : Monadic → String
| .plus => "+"
| .minus => "-"
| .complement => "~"
| .not => "!"

/- The operators between two operands. -/
inductive Dyadic
| mul | div | mod
| add | sub
| shl | shr
| lt | le | gt | ge
| eq | ne
| bitAnd | bitXor | bitOr
| logAnd | logOr
deriving DecidableEq, Repr

namespace Dyadic

/- How an operator is written. -/
def text : Dyadic → String
| .mul => "*"
| .div => "/"
| .mod => "%"
| .add => "+"
| .sub => "-"
| .shl => "<<"
| .shr => ">>"
| .lt => "<"
| .le => "<="
| .gt => ">"
| .ge => ">="
| .eq => "=="
| .ne => "!="
| .bitAnd => "&"
| .bitXor => "^"
| .bitOr => "|"
| .logAnd => "&&"
| .logOr => "||"

/- How tightly an operator binds; the loosest is one. -/
def binding : Dyadic → Nat
| .mul | .div | .mod => 10
| .add | .sub => 9
| .shl | .shr => 8
| .lt | .le | .gt | .ge => 7
| .eq | .ne => 6
| .bitAnd => 5
| .bitXor => 4
| .bitOr => 3
| .logAnd => 2
| .logOr => 1

/- The operator of the tree. -/
def node : Dyadic → BinOp
| .mul => .mul
| .div => .div
| .mod => .mod
| .add => .add
| .sub => .sub
| .shl => .shl
| .shr => .shr
| .lt | .gt => .lt
| .le | .ge => .le
| .eq => .eq
| .ne => .ne
| .bitAnd => .bitAnd
| .bitXor => .bitXor
| .bitOr => .bitOr
| .logAnd => .logAnd
| .logOr => .logOr

/- Whether the operands change places in the tree. -/
def swaps : Dyadic → Bool
| .gt | .ge => true
| _ => false

end Dyadic

------------
-- Formulas
------------

/-
  An arithmetic expression with the tokens that spell it.
  Names and the words of a conversion come with the types that
  they stand for.
-/
inductive Formula
| number (t : Token)
| name (t : Token) (type : ArithType)
| paren (opening closing : Token) (a : Formula)
| unary (op : Monadic) (t : Token) (a : Formula)
| cast (opening : Token) (words : List Token) (closing : Token)
    (type : ArithType) (a : Formula)
| binary (op : Dyadic) (t : Token) (l r : Formula)
| cond (question colon : Token) (test thn els : Formula)
| comma (t : Token) (l r : Formula)
| assign (t : Token) (l r : Formula)

namespace Formula

/- The tokens of a formula. -/
def tokens : Formula → List Token
| .number t | .name t _ => [t]
| .paren o c a => o :: a.tokens ++ [c]
| .unary _ t a => t :: a.tokens
| .cast o ws c _ a => o :: ws ++ c :: a.tokens
| .binary _ t l r | .comma t l r | .assign t l r =>
  l.tokens ++ t :: r.tokens
| .cond q c b t e => b.tokens ++ q :: t.tokens ++ c :: e.tokens

/- The type of a constant. -/
def numberType (t : Token) : ArithType :=
  match t.kind with
  | .int type _ | .float type _ =>
    ((CType.ofLit type).arith?).getD .int
  | _ => .int

/- The type of a formula in C. -/
def type : Formula → ArithType
| .number t => numberType t
| .name _ τ => τ
| .paren _ _ a => a.type
| .unary op _ a =>
  match op with
  | .not => .int
  | _ => a.type.promote
| .cast _ _ _ τ _ => τ
| .binary op _ l r =>
  if op.node.isShift then l.type.promote
  else if op.node.isLogical || op.node.isComparison then .int
  else l.type.common r.type
| .cond _ _ _ t e => t.type.common e.type
| .comma _ _ r => r.type
| .assign _ l _ => l.type

/- The type that the tree of a formula is given. -/
def given : Formula → ArithType
| .number t => numberType t
| .name _ τ => τ
| .paren _ _ a => a.given
| .unary op _ a =>
  match op with
  | .not => .int
  | .minus => a.given.promote
  | .plus | .complement => a.given
| .cast _ _ _ τ _ => τ
| .binary op _ l r =>
  if op.node.isShift then l.given
  else if op.node.isLogical || op.node.isComparison then .int
  else l.given.merged r.given
| .cond _ _ _ t e => t.given.merged e.given
| .comma _ _ r => r.given
| .assign _ l _ => l.given

/- The parts of a formula, with the formula itself. -/
def parts : Formula → List Formula
| .number t => [.number t]
| .name t τ => [.name t τ]
| .paren o c a => .paren o c a :: a.parts
| .unary op t a => .unary op t a :: a.parts
| .cast o ws c τ a => .cast o ws c τ a :: a.parts
| .binary op t l r => .binary op t l r :: (l.parts ++ r.parts)
| .cond q c b t e =>
  .cond q c b t e :: (b.parts ++ t.parts ++ e.parts)
| .comma t l r => .comma t l r :: (l.parts ++ r.parts)
| .assign t l r => .assign t l r :: (l.parts ++ r.parts)

/- Of two operands the left one is no enumeration with which C makes an `int`. -/
def Merges : ArithType → ArithType → Prop
| .enum id, τ => (ArithType.enum id).common τ ≠ .int
| _, _ => True

instance decidableMerges : (σ τ : ArithType) → Decidable (Merges σ τ)
| .enum _, _ => inferInstanceAs (Decidable (_ ≠ _))
| .integer _, _ | .floating _, _ => inferInstanceAs (Decidable True)

/-
  What an operator needs so that its tree gets its type in C:
  an operand that C promotes has a promoted type already.
-/
def Regular : Formula → Prop
| .unary .plus _ a | .unary .complement _ a =>
  a.type.promote = a.type
| .binary op _ l r =>
  if op.node.isShift then l.type.promote = l.type
  else if op.node.isLogical || op.node.isComparison then True
  else Merges l.type r.type
| .cond _ _ _ t e => Merges t.type e.type
| _ => True

instance decidableRegular : (a : Formula) → Decidable a.Regular
| .unary .plus _ a | .unary .complement _ a =>
  inferInstanceAs (Decidable (a.type.promote = a.type))
| .binary op _ l r =>
  inferInstanceAs (Decidable (if op.node.isShift then l.type.promote = l.type
    else if op.node.isLogical || op.node.isComparison then True
    else Merges l.type r.type))
| .cond _ _ _ t e => inferInstanceAs (Decidable (Merges t.type e.type))
| .number _ | .name _ _ | .paren _ _ _ | .unary .minus _ _
| .unary .not _ _ | .cast _ _ _ _ _ | .comma _ _ _
| .assign _ _ _ => inferInstanceAs (Decidable True)

------------
-- Types Given and Types in C
------------

theorem mem_parts (a : Formula) : a ∈ a.parts := by cases a <;> simp [parts]

/- Without an enumeration to keep, the common type is that of C. -/
theorem merged_eq_iff (σ τ : ArithType) : σ.merged τ = σ.common τ ↔ Merges σ τ := by
  cases σ with
  | enum id =>
    simp only [ArithType.merged, Merges]
    constructor
    · intro hSame hInt
      rw [if_pos hInt, hInt] at hSame
      cases hSame
    · intro hMerges
      rw [if_neg hMerges]
  | integer σ | floating k => exact iff_of_true rfl trivial

variable {t : Token}

/- A unary operator on an operand that has its type in C. -/
theorem given_unary {op : Monadic} {a : Formula} (hSame : a.given = a.type) :
    (unary op t a).given = (unary op t a).type ↔ (unary op t a).Regular := by
  cases op with
  | plus | complement =>
    simp only [given, type, Regular, hSame]
    exact eq_comm
  | minus | not => simp only [given, type, Regular, hSame]

/- A binary operator on operands that have their types in C. -/
theorem given_binary {op : Dyadic} {l r : Formula} (hLeft : l.given = l.type)
    (hRight : r.given = r.type) :
    (binary op t l r).given = (binary op t l r).type ↔ (binary op t l r).Regular := by
  simp only [given, type, Regular, hLeft, hRight]
  split_ifs
  · exact eq_comm
  · exact iff_of_true rfl trivial
  · exact merged_eq_iff _ _

/-
  All parts of a formula are given their types in C just if
  each of its operators is applied to operands that need no
  promotion of the kind that is left out.
-/
theorem given_eq_type_iff (a : Formula) :
    (∀ b ∈ a.parts, b.given = b.type) ↔ ∀ b ∈ a.parts, b.Regular := by
  induction a with
  | number t | name t τ => simp [parts, given, type, Regular]
  | paren o c a ih | cast o ws c τ a ih =>
    simp only [parts, List.forall_mem_cons, ← ih]
    apply and_congr_left
    intro hParts
    have hSame := hParts a a.mem_parts
    simp only [given, type, Regular, hSame]
  | unary op t a ih =>
    simp only [parts, List.forall_mem_cons, ← ih]
    apply and_congr_left
    intro hParts
    exact given_unary (hParts a a.mem_parts)
  | binary op t l r ihl ihr =>
    simp only [parts, List.forall_mem_cons, List.forall_mem_append, ← ihl, ← ihr]
    apply and_congr_left
    rintro ⟨hLeft, hRight⟩
    exact given_binary (hLeft l l.mem_parts) (hRight r r.mem_parts)
  | cond q c b t e ihb iht ihe =>
    simp only [parts, List.forall_mem_cons, List.forall_mem_append, ← ihb, ← iht, ← ihe]
    apply and_congr_left
    rintro ⟨⟨-, hThen⟩, hElse⟩
    simp only [given, type, Regular, hThen t t.mem_parts, hElse e e.mem_parts]
    exact merged_eq_iff _ _
  | comma t l r ihl ihr | assign t l r ihl ihr =>
    simp only [parts, List.forall_mem_cons, List.forall_mem_append, ← ihl, ← ihr]
    apply and_congr_left
    rintro ⟨hLeft, hRight⟩
    simp only [given, type, Regular, hLeft l l.mem_parts, hRight r r.mem_parts]

end Formula

end CCompiler
