import Mathlib
import CCompiler.Proofs.Syntax.CompoundTrees

/-
  What the trees of updates write.

  The tree of an update of an atomic lvalue assigns only to
  variables of its own, and installs the new value by
  compare-and-swap at the address of the lvalue.  A member is
  the exception: it is assigned to, atomic or not.

  Main declarations:
    * `Write`, `Expr.writes`
    * `Operator.Lowered.writes_swap`, `Lowered.writes_member`
    * `Operator.Update.exists_operation`
    * `Operator.atomic_update_swaps`
-/

------------
-- Writes
------------

namespace CCompiler

/-
  A node of a tree that writes: an assignment of a value to a
  place, a compare-and-swap or an exchange at an address, or a
  variable that is filled with zeros.
-/
inductive Write
| store (place value : Expr)
| swap (addr old new : Expr)
| exchange (addr value : Expr)
| clear (v : ObjId)

mutual

/- The nodes of a tree that write, from the outside inwards. -/
def Expr.writes : Expr → List Write
| .null _ | .num _ _ | .fnum _ _ | .labelVal _ _ _
| .vlaPtr _ _ | .var _ _ => []
| .memZero _ v => [.clear v]
| .unary _ _ e | .member _ e _ | .cast _ e => e.writes
| .binary _ _ l r | .comma _ l r => l.writes ++ r.writes
| .assign _ l r => .store l r :: (l.writes ++ r.writes)
| .ternary _ c t e => c.writes ++ t.writes ++ e.writes
| .cas _ a o n =>
  .swap a o n :: (a.writes ++ o.writes ++ n.writes)
| .exch _ a v => .exchange a v :: (a.writes ++ v.writes)
| .call _ f _ args _ => f.writes ++ Expr.writesAll args
| .stmtExpr _ body => Stmt.writesAll body

/- Those of several trees. -/
def Expr.writesAll : List Expr → List Write
| [] => []
| e :: es => e.writes ++ Expr.writesAll es

/- Those of a tree, if there is one. -/
def Expr.writes? : Option Expr → List Write
| none => []
| some e => e.writes

/- Those of a statement. -/
def Stmt.writes : Stmt → List Write
| .goto _ _ _ | .jump _ _ | .asm _ _ => []
| .ret _ e => Expr.writes? e
| .gotoExpr _ e | .expr _ e => e.writes
| .cond _ c a b => c.writes ++ a.writes ++ Stmt.writes? b
| .loop _ i c n b _ _ =>
  Stmt.writes? i ++ Expr.writes? c ++ Expr.writes? n ++ b.writes
| .doLoop _ b c _ _ => b.writes ++ c.writes
| .switch _ c b _ _ _ => c.writes ++ b.writes
| .case _ _ _ _ b | .label _ _ _ b => b.writes
| .block _ body => Stmt.writesAll body

/- Those of a statement, if there is one. -/
def Stmt.writes? : Option Stmt → List Write
| none => []
| some s => s.writes

/- Those of several statements. -/
def Stmt.writesAll : List Stmt → List Write
| [] => []
| s :: ss => s.writes ++ Stmt.writesAll ss

end

------------
-- Writes of Updates
------------

namespace Operator

open Parse Typing Interleaving

variable {s s' s₁ s₂ s₃ : ParseState} {op : BinOp}
  {left right l r b tree : Expr} {t : Token} {v : ObjId} {x : Slots}
  {u : Update}

/-
  The writes of the loop for `l op= r`: those of the operands,
  four variables, and the compare-and-swap.
-/
def swapWrites
    (x : Slots)
    (op : BinOp)
    (l r : Expr)
    (t : Token) : List Write :=
  .store (var x.addr t) (unary .addressOf l t) :: l.writes ++
    (.store (var x.val t) r :: r.writes) ++
    [.store (var x.old t) (unary .deref (var x.addr t) t), .store (var x.new t)
        (binary op (var x.old t) (var x.val t) t),
      .swap (var x.addr t) (unary .addressOf (var x.old t) t) (var x.new t)]

theorem writes_swapLoop (brk cont : Bytes) :
    (swapLoop x op l r brk cont t).writes = swapWrites x op l r t := by
  simp [swapLoop, Slots.body, Slots.set, Slots.compute, Slots.failed,
    swapWrites, assign, var, unary, binary, Expr.writes, Stmt.writes,
    Stmt.writesAll]

/-
  The writes for a member m of `base`: those of the operands,
  one variable, and the member itself.
-/
def memberWrites
    (v : ObjId)
    (op : BinOp)
    (base : Expr)
    (m : Member)
    (r : Expr)
    (t : Token) : List Write :=
  let field : Expr := .member ⟨t, none⟩ (unary .deref (var v t) t) m
  .store (var v t) (unary .addressOf base t) :: base.writes ++
    .store field (binary op field r t) :: r.writes

theorem writes_throughRecord (base : Expr) (m : Member) :
    (throughRecord v op base m r t).writes = memberWrites v op base m r t := by
  simp [throughRecord, memberWrites, comma, assign, var, unary, binary, Expr.writes]

variable {e : Expr}

/- A conversion has a type, and writes what its operand writes. -/
theorem writes_castTo {e' : Expr} {type : CType} (hRun : castTo e type s = .ok e' s') :
    e'.writes = e.writes ∧ e'.type?.isSome = true := by
  obtain ⟨type', s₁, -, hEnd⟩ := Parse.exists_of_bind hRun
  cases hEnd
  exact ⟨rfl, rfl⟩

theorem writes_convertBoth {l' r' : Expr} (hRun : convertBoth l r s = .ok (l', r') s') :
    l'.writes = l.writes ∧ r'.writes = r.writes ∧ l'.type?.isSome = true := by
  obtain ⟨-, s₁, -, hRun⟩ := Parse.exists_of_bind hRun
  obtain ⟨-, s₂, -, hRun⟩ := Parse.exists_of_bind hRun
  obtain ⟨rs, s₃, -, hRun⟩ := Parse.exists_of_bind hRun
  obtain ⟨a, s₄, hA, hRun⟩ := Parse.exists_of_bind hRun
  obtain ⟨b, s₅, hB, hEnd⟩ := Parse.exists_of_bind hRun
  cases hEnd
  obtain ⟨hLeft, hTyped⟩ := writes_castTo hA
  exact ⟨hLeft, (writes_castTo hB).1, hTyped⟩

/- A distance writes what the number in it writes. -/
theorem writes_scaled {base : CType} (hTyped : b.type?.isSome = true)
    (hRun : scaled base b t s = .ok e s₁) (hType : addType e s₂ = .ok r s₃) :
    r.writes = b.writes ∧ r.type?.isSome = true := by
  obtain ⟨x, rfl, hSize⟩ : ∃ x, e = binary .mul b x t ∧
      ∀ u x' u', addType x u = .ok x' u' → x'.writes = [] := by
    unfold scaled at hRun
    split at hRun
    · obtain ⟨x, s₄, hVar, hEnd⟩ := Parse.exists_of_bind hRun
      cases hEnd
      refine ⟨x, rfl, ?_⟩
      obtain ⟨v?, s₅, -, hVar⟩ := Parse.exists_of_bind hVar
      cases v? with
      | none => cases hVar
      | some v =>
        cases hVar
        intro u x' u' hType
        cases hType
        rfl
    · obtain ⟨n, s₄, -, hEnd⟩ := Parse.exists_of_bind hRun
      cases hEnd
      refine ⟨_, rfl, ?_⟩
      intro u x' u' hType
      rw [addType_of_isSome rfl] at hType
      cases hType
      rfl
  obtain ⟨b', s₄, hLeft, hType⟩ := Parse.exists_of_bind hType
  rw [addType_of_isSome hTyped] at hLeft
  cases hLeft
  obtain ⟨x', s₅, hRight, hType⟩ := Parse.exists_of_bind hType
  obtain ⟨⟨b'', x''⟩, s₆, hBoth, hEnd⟩ := Parse.exists_of_bind hType
  cases hEnd
  obtain ⟨hB, hX, hSome⟩ := writes_convertBoth hBoth
  refine ⟨?_, hSome⟩
  rw [Expr.writes, hB, hX, hSize _ _ _ hRight, List.append_nil]

instance still_scaled (base : CType) (n : Expr) (t : Token) : Still (scaled base n t) := by
  have hVar : Still (vlaSizeVar base t) := by
    dsimp only [vlaSizeVar]
    refine still_step fun v? => ?_
    split <;> infer_instance
  dsimp only [scaled]
  infer_instance

/-
  The tree of an operator between two operands that have their
  types.  The second one may be multiplied by a size in it.
-/
structure Operates
    (s s' : ParseState)
    (op : BinOp)
    (l b : Expr)
    (t : Token)
    (tree : Expr) : Prop where
  shape : ∃ i n, tree = .binary i op l n ∧ i.tok = t ∧
    ∀ u r u', addType n u = .ok r u' → r.writes = b.writes
  quiet : s.Quiet s'

/- The second operand as it is. -/
theorem operates_binary (hTyped : b.type?.isSome = true) (hQuiet : s.Quiet s') :
    Operates s s' op l b t (binary op l b t) := by
  refine ⟨⟨_, _, rfl, rfl, fun u r u' hType => ?_⟩, hQuiet⟩
  rw [addType_of_isSome hTyped] at hType
  cases hType
  rfl

theorem operates_newAdd (hLeft : addType left s = .ok l s₁) (hRight : addType right s₁ = .ok b s₂)
    (hPointer : b.type.base? = none) (hRun : newAdd left right t s = .ok tree s') :
    Operates s s' .add l b t tree := by
  have hQuiet : s.Quiet s₂ := (quiet_addType _ _ _ _ hLeft).1.trans (quiet_addType _ _ _ _ hRight).1
  unfold newAdd at hRun
  rw [Parse.run_bind hLeft, Parse.run_bind hRight] at hRun
  split at hRun
  · rename_i hNumeric
    cases hRun
    exact operates_binary (isSome_of_type (p := CType.isNumeric) rfl
      (Bool.and_eq_true_iff.mp hNumeric).2) hQuiet
  · simp only [hPointer, Option.isSome_none, Bool.and_false, Bool.false_eq_true, if_false] at hRun
    cases hBase : l.type.base? with
    | none =>
      rw [hBase] at hRun
      cases hRun
    | some base =>
      simp only [hBase] at hRun
      cases hInteger : b.type.isInteger with
      | false =>
        rw [hInteger] at hRun
        cases hRun
      | true =>
        rw [hInteger] at hRun
        obtain ⟨n, s₃, hScaled, hEnd⟩ := Parse.exists_of_bind hRun
        cases hEnd
        have hTyped : b.type?.isSome = true := isSome_of_type (p := CType.isInteger) rfl hInteger
        exact ⟨⟨_, n, rfl, rfl, fun u r u' hType =>
          (writes_scaled hTyped hScaled hType).1⟩,
          hQuiet.trans ((still_scaled _ _ _).quiet _ _ _ hScaled).1⟩

theorem operates_newSub (hLeft : addType left s = .ok l s₁) (hRight : addType right s₁ = .ok b s₂)
    (hPointer : b.type.base? = none) (hRun : newSub left right t s = .ok tree s') :
    Operates s s' .sub l b t tree := by
  have hQuiet : s.Quiet s₂ := (quiet_addType _ _ _ _ hLeft).1.trans (quiet_addType _ _ _ _ hRight).1
  unfold newSub at hRun
  rw [Parse.run_bind hLeft, Parse.run_bind hRight] at hRun
  split at hRun
  · rename_i hNumeric
    cases hRun
    exact operates_binary (isSome_of_type (p := CType.isNumeric) rfl
      (Bool.and_eq_true_iff.mp hNumeric).2) hQuiet
  · simp only [hPointer, Option.isSome_none, Bool.false_eq_true, if_false] at hRun
    cases hBase : l.type.base? with
    | none =>
      rw [hBase] at hRun
      cases hRun
    | some base =>
      simp only [hBase] at hRun
      cases hInteger : b.type.isInteger with
      | false =>
        rw [hInteger] at hRun
        cases hRun
      | true =>
        rw [hInteger] at hRun
        obtain ⟨e, s₃, hScaled, hRun⟩ := Parse.exists_of_bind hRun
        obtain ⟨n, s₄, hType, hEnd⟩ := Parse.exists_of_bind hRun
        cases hEnd
        have hTyped : b.type?.isSome = true := isSome_of_type (p := CType.isInteger) rfl hInteger
        obtain ⟨hWrites, hSome⟩ := writes_scaled hTyped hScaled hType
        refine ⟨⟨_, n, rfl, rfl, fun u r u' hAgain => ?_⟩,
          (hQuiet.trans ((still_scaled _ _ _).quiet _ _ _ hScaled).1).trans
            (quiet_addType _ _ _ _ hType).1⟩
        rw [addType_of_isSome hSome] at hAgain
        cases hAgain
        exact hWrites

/- The tree of an update has the form that its lvalue asks for. -/
theorem Update.lowered (hLeft : addType left s = .ok l s₁) (hTyped : l.type?.isSome = true)
    (hRight : addType (u.right t) s₁ = .ok b s₂)
    (hPointer : u.op = .add ∨ u.op = .sub → b.type.base? = none)
    (hRun : u.assigned left t s = .ok tree s') :
    ∃ r s₃, Lowered s₃ s' u.op l r t tree ∧ r.writes = b.writes ∧ s.Quiet s₃ := by
  obtain ⟨e, s₄, hOperation, hAssign⟩ := Parse.exists_of_bind hRun
  have hOperates : Operates s s₄ u.op l b t e → ∃ r s₃, Lowered s₃ s' u.op l r t tree ∧
        r.writes = b.writes ∧ s.Quiet s₃ := by
    rintro ⟨⟨i, n, rfl, rfl, hWrites⟩, hQuiet⟩
    obtain ⟨l', s₅, r, s₆, hL, hR, hLowered⟩ := lowered_of_toAssign hAssign
    rw [addType_of_isSome hTyped] at hL
    cases hL
    exact ⟨r, s₆, hLowered, hWrites _ _ _ hR, hQuiet.trans (quiet_addType _ _ _ _ hR).1⟩
  cases u with
  | before isDown =>
    cases isDown with
    | false => exact hOperates (operates_newAdd hLeft hRight (hPointer (.inl rfl)) hOperation)
    | true => exact hOperates (operates_newSub hLeft hRight (hPointer (.inr rfl)) hOperation)
  | after isDown =>
    have hSame := addType_of_isSome hTyped s₁
    have hAdd : newAdd l (right t (.after isDown)) t s₁ = .ok e s₄ := by
      rw [← hOperation, Update.operation, Parse.run_bind hLeft]
    have hAfter := operates_newAdd hSame hRight (hPointer (.inl rfl)) hAdd
    exact hOperates ⟨hAfter.shape, (quiet_addType _ _ _ _ hLeft).1.trans hAfter.quiet⟩
  | compound op right =>
    by_cases hAdd : op = .add
    · subst hAdd
      exact hOperates (operates_newAdd hLeft hRight (hPointer (.inl rfl)) hOperation)
    · by_cases hSub : op = .sub
      · subst hSub
        exact hOperates (operates_newSub hLeft hRight (hPointer (.inr rfl)) hOperation)
      · have hPure : (.ok (binary op left right t) s :
            EStateM.Result Failure ParseState Expr) = .ok e s₄ := by
          rw [← hOperation]
          cases op <;> first | rfl | exact absurd rfl ‹_›
        cases hPure
        obtain ⟨l', s₅, r, s₆, hL, hR, hLowered⟩ := lowered_of_toAssign hAssign
        rw [hLeft] at hL
        cases hL
        change addType right s₁ = _ at hRight
        rw [hRight] at hR
        cases hR
        exact ⟨_, _, hLowered, rfl, (quiet_addType _ _ _ _ hLeft).1.trans
          (quiet_addType _ _ _ _ hRight).1⟩

/-
  The tree of an update of an atomic lvalue, with an operand
  that can be added to it, writes new variables and otherwise
  only by one compare-and-swap, at a variable that holds the
  address of the lvalue and nothing else.  A member, however,
  is assigned to.
-/
theorem atomic_update_swaps (hLeft : addType left s = .ok l s₁) (hAtomic : l.type.isAtomic = true)
    (hRight : addType (u.right t) s₁ = .ok b s₂)
    (hPointer : u.op = .add ∨ u.op = .sub → b.type.base? = none)
    (hRun : u.assigned left t s = .ok tree s') :
    (l.isMember = false → ∃ (x : Slots) (r : Expr), r.writes = b.writes ∧
        (∀ v ∈ [x.addr, x.val, x.old, x.new], s.objects.size ≤ v) ∧
        tree.writes = swapWrites x u.op l r t) ∧
    (∀ i base m, l = .member i base m →
      ∃ (v : ObjId) (r : Expr), r.writes = b.writes ∧ s.objects.size ≤ v ∧
        tree.writes = memberWrites v u.op base m r t) := by
  have hTyped : l.type?.isSome = true := isSome_of_type (p := CType.isAtomic) rfl hAtomic
  obtain ⟨r, s₃, hLowered, hWrites, hQuiet⟩ := Update.lowered hLeft hTyped hRight hPointer hRun
  rw [← hQuiet.objects]
  cases hLowered with
  | member hMember hGains =>
    subst hMember
    refine ⟨fun hNever => (by cases hNever), fun i base m hSame => ?_⟩
    cases hSame
    exact ⟨_, r, hWrites, hGains.new, writes_throughRecord _ _⟩
  | swap hOther _ hSlots =>
    refine ⟨fun _ => ⟨_, r, hWrites, ?_, writes_swapLoop _ _⟩, ?_⟩
    · simp only [List.forall_mem_cons]
      exact ⟨hSlots.addr.new, hSlots.val.new, hSlots.old.new, hSlots.new.new, by simp⟩
    · rintro i base m rfl
      cases hOther
  | pointer _ hPlain =>
    rw [hAtomic] at hPlain
    cases hPlain

/- struct { _Atomic int x; } s; _Atomic int y; -/
def atomicObjects : ParseState where
  toks := []
  records := #[
    { isUnion := false, size := 4, align := 4, root := 0
      members := [
        { type := .atomic .int, name? := some (ascii "x")
          index := 0, align := 4 }] }]
  objects := #[{ name := ascii "s", type := .record 0, align := 4 },
    { name := ascii "y", type := .atomic .int, align := 4 }]

/- `y++` -/
theorem atomic_update_swaps_variable :
    ∃ tree s', (Update.after false).assigned (var 1 default) default
        atomicObjects = .ok tree s' ∧ ∃ (x : Slots) (r : Expr), r.writes = [] ∧
        (∀ v ∈ [x.addr, x.val, x.old, x.new], 2 ≤ v) ∧
        tree.writes = swapWrites x .add (.var ⟨default, some (.atomic .int)⟩ 1) r default := by
  obtain ⟨tree, s', hRun⟩ : ∃ tree s', (Update.after false).assigned (var 1 default) default
        atomicObjects = .ok tree s' := ⟨_, _, rfl⟩
  have hLeft : addType (var 1 default) atomicObjects =
      .ok (.var ⟨default, some (.atomic .int)⟩ 1) atomicObjects := rfl
  have hRight : addType ((Update.after false).right default)
      atomicObjects = .ok (.num ⟨default, some .int⟩ 1)
        atomicObjects := rfl
  exact ⟨tree, s', hRun, (atomic_update_swaps hLeft rfl hRight (fun _ => rfl) hRun).1 rfl⟩

/- The member in `s.x`. -/
def atomicMember : Expr :=
  .member ⟨default, none⟩ (var 0 default)
    { type := .atomic .int, name? := some (ascii "x")
      index := 0, align := 4 }

/- `s.x += 1` assigns to the member, and swaps nothing. -/
theorem atomic_member_assigned :
    ∃ l s₁ tree s', addType atomicMember atomicObjects = .ok l s₁ ∧ l.type.isAtomic = true ∧
      (Update.compound .add (number 1 default)).assigned atomicMember
        default atomicObjects = .ok tree s' ∧
      (∃ place value, .store place value ∈ tree.writes ∧ place.isMember = true) ∧
      ∀ addr old new, .swap addr old new ∉ tree.writes := by
  refine ⟨_, _, _, _, rfl, rfl, rfl, ⟨_, _, .tail _ (.head _), rfl⟩, fun addr old new hSwap => ?_⟩
  rcases hSwap with _ | ⟨_, _ | ⟨_, hNever⟩⟩
  cases hNever

end Operator

end CCompiler
