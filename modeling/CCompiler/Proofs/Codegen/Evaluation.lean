import Mathlib
import CCompiler.Proofs.Codegen.Choosing
import CCompiler.Proofs.Codegen.Operators
import CCompiler.Proofs.Codegen.TypedTree

/-
  The code of an integer expression computes its value in C.

  The variables lie in the frame, at or above the top of the
  stack; below it there is room for the words that the code
  pushes.  Code that is not reached may belong to a term that
  has no value.

  Main declarations:
    * `Codegen.Ready`
    * `Codegen.Computes`, `Typed.computes`
    * `Codegen.expr_computes_value`
-/

------------
-- Machines with Variables
------------

namespace CCompiler

open Assembly

namespace Codegen

open Machine

variable {c : Context} {Γ : ObjId → IntType} {ρ : ObjId → Int}
  {xs ys : List ObjId} {room less : Nat} {m m' : Machine}

/- Variables of a function that have integer types. -/
def Located
    (c : Context)
    (Γ : ObjId → IntType)
    (xs : List ObjId) : Prop :=
  ∀ x ∈ xs, (c.object x).isLocal = true ∧ (c.object x).type = (Γ x).toCType

/- The address of a variable of a function. -/
def place
    (c : Context)
    (m : Machine)
    (x : ObjId) : BitVec 64 :=
  m.regs .rbp + BitVec.ofInt 64 (c.frame.offset x)

/-
  A machine whose frame holds the values of variables, with
  room for some bytes on the stack.
-/
structure Ready
    (c : Context)
    (Γ : ObjId → IntType)
    (ρ : ObjId → Int)
    (xs : List ObjId)
    (room : Nat)
    (m : Machine) : Prop where
  room : room ≤ (m.regs .rsp).toNat
  holds : ∀ x ∈ xs, HoldsAt m (Γ x) (ρ x) (place c m x)
  above : ∀ x ∈ xs, m.regs .rsp ≤ place c m x
  inside : ∀ x ∈ xs,
    (place c m x).toNat + (stored (Γ x)).bytes ≤ 2 ^ 64

/- The frame is still there after a run that keeps it. -/
theorem Ready.carry (hReady : Ready c Γ ρ xs room m) (hSub : ys ⊆ xs)
    (hRoom : less ≤ (m'.regs .rsp).toNat) (hStack : m'.regs .rsp ≤ m.regs .rsp)
    (hFrame : m'.regs .rbp = m.regs .rbp) (hMemory : ∀ a, m.regs .rsp ≤ a → m'.mem a = m.mem a) :
    Ready c Γ ρ ys less m' := by
  have hPlace : ∀ x, place c m' x = place c m x := by
    intro x
    unfold place
    rw [hFrame]
  refine ⟨hRoom, ?_, ?_, ?_⟩
  · intro x hx
    have hAbove := hReady.above x (hSub hx)
    have hInside := hReady.inside x (hSub hx)
    have hHolds := hReady.holds x (hSub hx)
    unfold HoldsAt at hHolds ⊢
    rw [hPlace, Memory.load_above hMemory hAbove hInside]
    exact hHolds
  · intro x hx
    rw [hPlace]
    exact BitVec.le_trans hStack (hReady.above x (hSub hx))
  · intro x hx
    rw [hPlace]
    exact hReady.inside x (hSub hx)

theorem Ready.kept (hReady : Ready c Γ ρ xs room m) (hSub : ys ⊆ xs) (hLess : less ≤ room)
    (hKept : Kept m m') : Ready c Γ ρ ys less m' := by
  refine hReady.carry hSub ?_ ?_ hKept.frame hKept.memory
  · rw [hKept.stack]
    exact hLess.trans hReady.room
  · rw [hKept.stack]
    exact BitVec.le_refl _

theorem Ready.sub (hReady : Ready c Γ ρ xs room m) (hSub : ys ⊆ xs) (hLess : less ≤ room) :
    Ready c Γ ρ ys less m := hReady.kept hSub hLess (Kept.refl m)

/- There is still room after a word was pushed. -/
theorem Ready.lowered {m₁ : Machine} (hReady : Ready c Γ ρ xs room m) (hSub : ys ⊆ xs)
    (hLess : less + 8 ≤ room) (hKept : Kept m m₁) (hLowered : Lowered m₁ m') :
    Ready c Γ ρ ys less m' := by
  have hRoom := hReady.room
  have hTop : m'.regs .rsp = m.regs .rsp - 8 := by rw [hLowered.stack, hKept.stack]
  refine hReady.carry hSub ?_ ?_ ?_ ?_
  · rw [hTop]
    bv_omega
  · rw [hTop, BitVec.le_def]
    bv_omega
  · exact hLowered.frame.trans hKept.frame
  · intro a hAbove
    refine (hLowered.memory a ?_).trans (hKept.memory a hAbove)
    rw [hKept.stack]
    exact hAbove

end Codegen

------------
-- Expressions
------------

namespace Codegen

open Machine

variable {c : Context} {Γ : ObjId → IntType} {ρ : ObjId → Int}
  {t l r : Term} {e : Expr} {i : Info}

/-
  The code of a tree computes the value of a term, in every
  machine that is ready for it, if the term has one.
-/
def Computes
    (c : Context)
    (Γ : ObjId → IntType)
    (ρ : ObjId → Int)
    (t : Term)
    (e : Expr) : Prop :=
  Does 0 (expr c .value e)
    (fun m => Ready c Γ ρ t.vars t.room m ∧ (t.value Γ ρ).isSome = true)
    (Leaves (t.type Γ) (t.value Γ ρ))

/- Instructions written in two steps. -/
theorem code_append (is js : List Instr) :
    (do
      Emit.code is
      Emit.code js) = Emit.code (is ++ js) := by
  funext k
  simp only [bind, Emit.andThen, Emit.code, Emit.lines, List.map_append]

/- A tree that is written after the place of its token. -/
theorem computes_located {x : Emit Unit} {tok : Token}
    (hCode : expr c .value e = valueOnly .value tok x)
    (hDoes : Does 0 x (fun m => Ready c Γ ρ t.vars t.room m ∧
        (t.value Γ ρ).isSome = true) (Leaves (t.type Γ) (t.value Γ ρ))) : Computes c Γ ρ t e := by
  unfold Computes
  rw [hCode]
  exact Does.located tok hDoes

/- A constant. -/
theorem computes_const (τ : IntType) (v : Int) :
    Computes c Γ ρ (.const τ v) (.num i (Int64.ofInt v)) := by
  refine computes_located (by rw [expr]) ?_
  have hWord : BitVec.ofInt 64 (Int64.ofInt v).toInt = BitVec.ofInt 64 v := by
    rw [Int64.toInt_ofInt]
    exact BitVec.eq_of_toInt_eq (by simp)
  have hDoes : Does 0 (Emit.code [.mov (.imm (Int64.ofInt v).toInt) .rax])
      (fun m => Ready c Γ ρ [] 0 m ∧ True)
      (Leaves τ (some v)) := by
    refine does_code fun m _ => ⟨_, rfl, ?_, ?_⟩
    · exact kept_set m _ (by decide) (by decide)
    · intro w hMem
      cases hMem
      change τ.Represents v ((m.set .rax (BitVec.ofInt 64 _)).regs .rax)
      rw [set_regs_self, hWord]
      exact IntType.represents_ofInt τ v
  exact hDoes.mono (fun m hReady => ⟨hReady.1, trivial⟩) fun m m' _ hLeaves => hLeaves

/- A variable. -/
theorem computes_var {x : ObjId} (hLocal : Located c Γ [x]) (hHas : (Γ x).Has (ρ x))
    (hType : i.type? = some (Γ x).toCType) : Computes c Γ ρ (.var x) (.var i x) := by
  rcases hLocal x (by simp) with ⟨hIsLocal, hObject⟩
  have hVla : (c.object x).type.isVla = false := by
    rw [hObject]
    cases Γ x <;> rfl
  have hAddress : variableAddress c x (Γ x).toCType = [.instr (.lea (c.slot x) .rax)] := by
    simp [variableAddress, hVla, hIsLocal]
  have hFirst : Does 0 (Emit.lines [.instr (.lea (c.slot x) .rax)]) (fun m => Ready c Γ ρ [x] 0 m)
      (fun m m' => m' = m.set .rax (place c m x)) := by
    refine does_lines (by simp) fun lo m _ => ?_
    exact ⟨_, takes_instr rfl, rfl⟩
  have hNext : Does 0 (Emit.code (load c.records (Γ x).toCType))
      (fun m => HoldsAt m (Γ x) (ρ x) (m.regs .rax))
      (Leaves (Γ x) (some (ρ x))) := by
    refine does_code fun m hHolds => ?_
    rcases exec_load c.records hHas hHolds with
      ⟨m', hExec, hKept, hRep⟩
    refine ⟨m', hExec, hKept, ?_⟩
    intro v hMem
    cases hMem
    exact hRep
  have hBoth := hFirst.bind hNext (R := Leaves (Γ x) (some (ρ x))) ?_ ?_
  · unfold Computes
    rw [expr, hType, Option.getD_some]
    unfold loaded
    rw [hAddress]
    exact Does.located i.tok (hBoth.mono (fun m hReady => hReady.1) fun m m' _ hLeaves => hLeaves)
  · rintro m _ hReady rfl
    rw [set_regs_self]
    exact hReady.holds x (by simp)
  · rintro m _ m'' _ rfl ⟨hKept, hRep⟩
    exact ⟨(kept_set m _ (by decide) (by decide)).trans hKept, hRep⟩

variable {s : Term} {d : Expr}

/-
  A tree whose code works on the value of one part; `f` says
  what becomes of the value.
-/
theorem computes_unary {f : Int → Int} (tok : Token) (is : List Instr)
    (hCode : expr c .value d = valueOnly .value tok do
      expr c .value e
      Emit.code is) (hInner : Computes c Γ ρ s e) (hVars : t.vars = s.vars)
    (hRoom : t.room = s.room) (hValue : t.value Γ ρ = (s.value Γ ρ).map f)
    (hExec : ∀ m v, s.value Γ ρ = some v →
      (s.type Γ).Represents v (m.regs .rax) →
      ∃ m', m.execAll? is = some m' ∧ Kept m m' ∧
        (t.type Γ).Represents (f v) (m'.regs .rax)) : Computes c Γ ρ t d := by
  refine computes_located hCode (does_then hInner ?_ ?_)
  · intro m hReady
    simpa [hVars, hRoom, hValue] using hReady
  · intro m m₁ hReady hKept hRep
    rw [hValue, Option.isSome_map] at hReady
    rcases Option.isSome_iff_exists.mp hReady.2 with ⟨v, hv⟩
    rcases hExec m₁ v hv (hRep v hv) with
      ⟨m', hRun, hKept', hRep'⟩
    refine ⟨m', hRun, hKept.trans hKept', ?_⟩
    intro w hMem
    rw [hValue, hv] at hMem
    cases hMem
    exact hRep'

/- A conversion. -/
theorem computes_cast {τ : IntType} (hInner : Computes c Γ ρ t e) (hTyped : Typed Γ t e)
    (hHas : ∀ v ∈ t.value Γ ρ, (t.type Γ).Has v) (hType : i.type? = some τ.toCType) :
    Computes c Γ ρ (.cast τ t) (.cast i e) := by
  rcases convert_converts c.records (t.type Γ) τ with
    ⟨is, hCode, hConverts⟩
  refine computes_unary (f := τ.convert) i.tok is ?_ hInner rfl rfl rfl ?_
  · rw [expr, hTyped.type_eq, hType, Option.getD_some, hCode]
    rfl
  · intro m v hValue hRep
    exact hConverts m v (hHas v hValue) hRep

/- A change of the sign, after a promotion. -/
theorem computes_neg (hInner : Computes c Γ ρ (.cast (t.type Γ).promote t) e)
    (hType : i.type? = some (t.type Γ).promote.toCType) :
    Computes c Γ ρ (.neg t) (.unary i .neg e) := by
  refine computes_unary (f := fun v => (t.type Γ).promote.convert (-v)) i.tok
    (negate (t.type Γ).promote.toCType) ?_ hInner rfl rfl ?_ ?_
  · rw [expr, hType, Option.getD_some]
  · simp only [Term.value, Option.map_map]
    rfl
  · intro m v _ hRep
    exact exec_negate (IntType.promote_promote (t.type Γ)) hRep

/- Whether a value is zero. -/
theorem computes_not (hInner : Computes c Γ ρ t e) (hTyped : Typed Γ t e)
    (hHas : ∀ v ∈ t.value Γ ρ, (t.type Γ).Has v) : Computes c Γ ρ (.not t) (.unary i .not e) := by
  refine computes_unary (f := fun v => truthValue (v = 0))
    i.tok (compareZero c.records (t.type Γ).toCType ++
      [.set .equal .al, .extend .zeroByteAny .al .rax]) ?_
    hInner rfl rfl rfl ?_
  · rw [expr, hTyped.type_eq, code_append]
  · intro m v hValue hRep
    rcases exec_compareZero c.records (hHas v hValue) hRep with ⟨f, hCompare, hZero⟩
    have hHolds : Cond.holds? f .equal = some (decide (v = 0)) := by simp [Cond.holds?, hZero]
    rcases exec_truth (m := { m with flags? := some f }) (.inl ⟨rfl, .inr rfl⟩) rfl hHolds with
      ⟨m', hExec, hKept, hRax⟩
    refine ⟨m', execAll?_append hCompare hExec, (kept_flags m _).trans hKept, ?_⟩
    rw [hRax]
    exact IntType.represents_ofInt _ _

/- All bits of a value flipped. -/
theorem computes_bitNot (hInner : Computes c Γ ρ t e) (hWide : (t.type Γ).promote = t.type Γ)
    (hHas : ∀ v ∈ t.value Γ ρ, (t.type Γ).Has v) :
    Computes c Γ ρ (.bitNot t) (.unary i .bitNot e) := by
  refine computes_unary (f := fun v =>
    (t.type Γ).promote.convert (-(t.type Γ).promote.convert v - 1)) i.tok
    [.unary .not .rax] ?_ hInner rfl rfl rfl ?_
  · rw [expr]
  · intro m v hValue hRep
    change ∃ m', _ ∧ _ ∧ IntType.Represents (t.type Γ).promote _ _
    rw [hWide, IntType.convert_of_has (hHas v hValue)]
    exact exec_bitNot hWide hRep

variable {op : BinOp} {a b : Expr}

/- The code of an operator on two operands of integer types. -/
theorem expr_binary (hLogical : op.isLogical = false) (hTyped : Typed Γ l a) :
    expr c .value (.binary i op a b) = valueOnly .value i.tok (do
        expr c .value b
        Emit.push
        expr c .value a
        Emit.pop .rdi
        Emit.code (intBinary c.records op (l.type Γ).toCType (i.type?.getD .void))) := by
  have hCarrier : Carrier.of (l.type Γ).toCType = .general := by cases l.type Γ <;> rfl
  cases op <;> first
    | cases hLogical; done
    | simp only [expr, binary, hTyped.type_eq, hCarrier]

variable {u : Term}

/-
  An operator on two operands; `f` says what becomes of their
  values.
-/
theorem computes_binary {f : Int → Int → Option Int} (hLogical : op.isLogical = false)
    (hLeft : Computes c Γ ρ s a) (hRight : Computes c Γ ρ u b) (hTyped : Typed Γ s a)
    (hVars : s.vars = l.vars ∧ u.vars = r.vars) (hRoom : s.room = l.room ∧ u.room = r.room)
    (hValue : (Term.binary op l r).value Γ ρ =
      (s.value Γ ρ).bind fun v => (u.value Γ ρ).bind (f v))
    (hExec : ∀ m v w z, s.value Γ ρ = some v →
      u.value Γ ρ = some w → f v w = some z →
      (s.type Γ).Represents v (m.regs .rax) →
      (u.type Γ).Represents w (m.regs .rdi) →
      Results (intBinary c.records op (s.type Γ).toCType (i.type?.getD .void)) m
        ((Term.binary op l r).type Γ) z) : Computes c Γ ρ (.binary op l r) (.binary i op a b) := by
  have hWhole : (Term.binary op l r).room = max (l.room + 8) r.room := by simp [Term.room, hLogical]
  have hParts : ((Term.binary op l r).value Γ ρ).isSome = true →
      ∃ v w z, s.value Γ ρ = some v ∧ u.value Γ ρ = some w ∧ f v w = some z ∧
        (Term.binary op l r).value Γ ρ = some z := by
    intro hSome
    rcases Option.isSome_iff_exists.mp hSome with ⟨z, hz⟩
    rw [hValue] at hz
    rcases Option.bind_eq_some_iff.mp hz with ⟨v, hv, hRest⟩
    rcases Option.bind_eq_some_iff.mp hRest with ⟨w, hw, hf⟩
    exact ⟨v, w, z, hv, hw, hf, by rw [hValue]; exact hz⟩
  refine computes_located (expr_binary hLogical hTyped) (does_operands hRight hLeft ?_ ?_ ?_)
  · rintro m ⟨hReady, hSome⟩
    rcases hParts hSome with ⟨v, w, z, -, hw, -, -⟩
    rw [hWhole] at hReady
    have hTop := hReady.room
    refine ⟨by omega, hReady.sub ?_ ?_, by rw [hw]; rfl⟩
    · rw [hVars.2]
      exact List.subset_append_right _ _
    · rw [hRoom.2]
      exact le_max_right _ _
  · rintro m m₁ m₂ ⟨hReady, hSome⟩ hKept hLowered
    rcases hParts hSome with ⟨v, w, z, hv, -, -, -⟩
    rw [hWhole] at hReady
    refine ⟨hReady.lowered ?_ ?_ hKept hLowered, by rw [hv]; rfl⟩
    · rw [hVars.1]
      exact List.subset_append_left _ _
    · rw [hRoom.1]
      exact le_max_left _ _
  · rintro m m₁ ⟨hReady, hSome⟩ hKept hA hB
    rcases hParts hSome with ⟨v, w, z, hv, hw, hf, hz⟩
    rcases hExec m₁ v w z hv hw hf (hA v hv) (hB w hw) with
      ⟨m', hRun, hKept', hRep⟩
    refine ⟨m', hRun, hKept.trans hKept', ?_⟩
    intro z' hMem
    rw [hz] at hMem
    cases hMem
    exact hRep

/- An operator that converts both operands. -/
theorem computes_arith (hLogical : op.isLogical = false) (hShift : op.isShift = false)
    (hLeft : Computes c Γ ρ (.cast ((l.type Γ).common (r.type Γ)) l) a)
    (hRight : Computes c Γ ρ (.cast ((l.type Γ).common (r.type Γ)) r) b)
    (hTyped : Typed Γ (.cast ((l.type Γ).common (r.type Γ)) l) a)
    (hType : i.type? = some ((Term.binary op l r).type Γ).toCType) :
    Computes c Γ ρ (.binary op l r) (.binary i op a b) := by
  have hResult : (Term.binary op l r).type Γ = resultType op ((l.type Γ).common (r.type Γ)) := by
    simp only [Term.type, hShift, hLogical, Bool.false_or, Bool.false_eq_true, if_false, resultType]
  refine computes_binary (f := op.value ((l.type Γ).common (r.type Γ)))
    hLogical hLeft hRight hTyped ⟨rfl, rfl⟩ ⟨rfl, rfl⟩ ?_ ?_
  · rw [Term.value_binary hLogical]
    simp only [hShift, Bool.false_eq_true, if_false, Term.value, Option.bind_map]
    rfl
  · intro m v w z hv hw hz hRepV hRepW
    rcases Option.map_eq_some_iff.mp hv with ⟨v₀, -, rfl⟩
    rcases Option.map_eq_some_iff.mp hw with ⟨w₀, -, rfl⟩
    rw [hType, Option.getD_some, hResult]
    exact exec_arith c.records
      { wide := IntType.promote_common _ _
        hasLeft := IntType.has_convert _ v₀
        hasRight := IntType.has_convert _ w₀
        left := hRepV
        right := hRepW } hz

/- A shift. -/
theorem computes_shift (hShift : op.isShift = true) (hWide : (l.type Γ).promote = l.type Γ)
    (hHas : ∀ v ∈ l.value Γ ρ, (l.type Γ).Has v) (hLeft : Computes c Γ ρ l a)
    (hRight : Computes c Γ ρ r b) (hTyped : Typed Γ l a)
    (hType : i.type? = some (l.type Γ).promote.toCType) :
    Computes c Γ ρ (.binary op l r) (.binary i op a b) := by
  have hLogical : op.isLogical = false := by cases op <;> first | rfl | cases hShift
  have hResult : (Term.binary op l r).type Γ = l.type Γ := by
    simp only [Term.type, hShift, if_true, hWide]
  refine computes_binary (f := fun v w =>
    op.shiftValue (l.type Γ).promote ((l.type Γ).promote.convert v) w)
    hLogical hLeft hRight hTyped ⟨rfl, rfl⟩ ⟨rfl, rfl⟩ ?_ ?_
  · rw [Term.value_binary hLogical]
    simp only [hShift, if_true]
  · intro m v w z hv hw hz hRepV hRepW
    rw [hWide, IntType.convert_of_has (hHas v hv)] at hz
    rw [hType, Option.getD_some, hResult, hWide]
    exact exec_shift c.records hWide (hHas v hv) hRepV hRepW.low hz

/- The operator of a kind that may leave out an operand. -/
def logicalOp (isAnd : Bool) : BinOp :=
  if isAnd then .logAnd else .logOr

/- Its value, as the code finds it. -/
theorem value_logical (isAnd : Bool) (l r : Term) :
    (Term.binary (logicalOp isAnd) l r).value Γ ρ = (l.value Γ ρ).bind fun v =>
        if decides isAnd v then some (outcome isAnd true)
        else (r.value Γ ρ).map fun w =>
          outcome isAnd (decides isAnd w) := by
  have hTruth : ∀ w, outcome isAnd (decides isAnd w) = truthValue (w ≠ 0) := by
    intro w
    by_cases hZero : w = 0 <;> cases isAnd <;> simp [outcome, decides, truthValue, hZero]
  simp only [hTruth]
  cases isAnd
  · refine congrArg (Option.bind (l.value Γ ρ)) ?_
    funext v
    by_cases hZero : v = 0 <;> simp [decides, outcome, hZero]
  · refine congrArg (Option.bind (l.value Γ ρ)) ?_
    funext v
    by_cases hZero : v = 0 <;> simp [decides, outcome, hZero]

/- An operator that may leave out its second operand. -/
theorem computes_logical (isAnd : Bool) (hLeft : Computes c Γ ρ l a) (hRight : Computes c Γ ρ r b)
    (hTypedLeft : Typed Γ l a) (hTypedRight : Typed Γ r b)
    (hHasLeft : ∀ v ∈ l.value Γ ρ, (l.type Γ).Has v)
    (hHasRight : ∀ v ∈ r.value Γ ρ, (r.type Γ).Has v) :
    Computes c Γ ρ (.binary (logicalOp isAnd) l r) (.binary i (logicalOp isAnd) a b) := by
  have hCode : expr c .value (.binary i (logicalOp isAnd) a b) =
      valueOnly .value i.tok (shortCircuit c.records isAnd (l.type Γ).toCType (r.type Γ).toCType
        (expr c .value a) (expr c .value b)) := by
    rw [← hTypedLeft.type_eq, ← hTypedRight.type_eq]
    cases isAnd <;> simp only [logicalOp, if_true, Bool.false_eq_true, if_false] <;> rw [expr]
  have hRoom : (Term.binary (logicalOp isAnd) l r).room = max l.room r.room := by
    cases isAnd <;> rfl
  have hType : (Term.binary (logicalOp isAnd) l r).type Γ =
      .int := by
    cases isAnd <;> rfl
  have hValue := value_logical (Γ := Γ) (ρ := ρ) isAnd l r
  refine computes_located hCode ?_
  rw [hType]
  refine does_shortCircuit c.records isAnd hLeft hRight ?_ ?_
  · rintro m ⟨hReady, hSome⟩
    rw [hRoom] at hReady
    rcases Option.isSome_iff_exists.mp hSome with ⟨z, hz⟩
    rw [hValue] at hz
    rcases Option.bind_eq_some_iff.mp hz with ⟨v, hv, -⟩
    refine ⟨⟨hReady.sub (List.subset_append_left _ _)
      (le_max_left _ _), by rw [hv]; rfl⟩, v, hv, hHasLeft v hv, ?_⟩
    intro hDecides
    rw [hValue, hv, Option.bind_some, if_pos hDecides]
  · rintro m m₁ v ⟨hReady, hSome⟩ hKept hv hDecides
    rw [hRoom] at hReady
    have hMore : (Term.binary (logicalOp isAnd) l r).value Γ ρ = (r.value Γ ρ).map fun w =>
          outcome isAnd (decides isAnd w) := by
      rw [hValue, hv, Option.bind_some, hDecides, if_neg Bool.false_ne_true]
    rw [hMore, Option.isSome_map] at hSome
    rcases Option.isSome_iff_exists.mp hSome with ⟨w, hw⟩
    refine ⟨⟨hReady.kept (List.subset_append_right _ _)
      (le_max_right _ _) hKept, hSome⟩, w, hw, hHasRight w hw, ?_⟩
    rw [hMore, hw]
    rfl

/- A choice between two values. -/
theorem computes_cond (hTest : Computes c Γ ρ t d)
    (hThen : Computes c Γ ρ (.cast ((s.type Γ).common (u.type Γ)) s) a)
    (hElse : Computes c Γ ρ (.cast ((s.type Γ).common (u.type Γ)) u) b) (hTyped : Typed Γ t d)
    (hHas : ∀ v ∈ t.value Γ ρ, (t.type Γ).Has v) :
    Computes c Γ ρ (.cond t s u) (.ternary i d a b) := by
  have hCode : expr c .value (.ternary i d a b) = valueOnly .value i.tok (choose c.records
        (t.type Γ).toCType (expr c .value d)
        (expr c .value a) (expr c .value b) false) := by
    rw [← hTyped.type_eq, expr]
    rfl
  have hValue : ∀ v ∈ t.value Γ ρ, (Term.cond t s u).value Γ ρ =
        if v ≠ 0 then (Term.cast ((s.type Γ).common (u.type Γ)) s).value Γ ρ
        else (Term.cast
            ((s.type Γ).common (u.type Γ)) u).value Γ ρ := by
    intro v hv
    change (t.value Γ ρ).bind _ = _
    rw [hv]
    rfl
  refine computes_located hCode (does_choose c.records hTest hThen hElse ?_ ?_ ?_)
  · rintro m ⟨hReady, hSome⟩
    rcases Option.isSome_iff_exists.mp hSome with ⟨z, hz⟩
    rcases Option.bind_eq_some_iff.mp hz with ⟨v, hv, -⟩
    exact ⟨⟨hReady.sub (List.subset_append_of_subset_left _
      (List.subset_append_left _ _)) (le_max_left _ _),
      by rw [hv]; rfl⟩, v, hv, hHas v hv⟩
  · rintro m m₁ v ⟨hReady, hSome⟩ hKept hv hNonzero
    rw [hValue v hv, if_pos hNonzero] at hSome ⊢
    exact ⟨⟨hReady.kept (List.subset_append_of_subset_left _ (List.subset_append_right _ _))
      (le_max_of_le_right (le_max_left _ _)) hKept, hSome⟩, rfl⟩
  · rintro m m₁ ⟨hReady, hSome⟩ hKept hv
    rw [hValue 0 hv, if_neg (by simp)] at hSome ⊢
    exact ⟨⟨hReady.kept (List.subset_append_right _ _)
      (le_max_of_le_right (le_max_right _ _)) hKept, hSome⟩, rfl⟩

/- One value after the other. -/
theorem computes_comma (hLeft : Computes c Γ ρ l a) (hRight : Computes c Γ ρ r b) :
    Computes c Γ ρ (.comma l r) (.comma i a b) := by
  have hParts : ∀ {z : Int}, (Term.comma l r).value Γ ρ = some z →
      (l.value Γ ρ).isSome = true ∧ r.value Γ ρ = some z := by
    intro z hz
    rcases Option.bind_eq_some_iff.mp hz with ⟨v, hv, hw⟩
    exact ⟨by rw [hv]; rfl, hw⟩
  unfold Computes
  rw [expr]
  refine Does.located i.tok ?_
  intro k
  rcases hLeft k with ⟨p, hRun, hActs⟩
  rcases hRight p.counters with ⟨q, hMore, hThen⟩
  refine ⟨⟨(), p.code ++ q.code, q.counters⟩, ?_, ?_, ?_, ?_, ?_⟩
  · simp only [bind, Emit.andThen, hRun, hMore]
  · have hDepth := hActs.depth
    have hDepthThen := hThen.depth
    simp only
    omega
  · exact hActs.labels.trans hThen.labels
  · exact hActs.within.append hThen.within hActs.labels hThen.labels
  · rintro m ⟨hReady, hSome⟩
    rcases Option.isSome_iff_exists.mp hSome with ⟨z, hz⟩
    rcases hParts hz with ⟨hLeftSome, hw⟩
    rcases hActs.runs m ⟨hReady.sub (List.subset_append_left _ _) (le_max_left _ _),
      hLeftSome⟩ with ⟨m₁, hTakes, hKept, -⟩
    rcases hThen.runs m₁ ⟨hReady.kept (List.subset_append_right _ _) (le_max_right _ _) hKept,
      by rw [hw]; rfl⟩ with ⟨m₂, hTakes', hKept', hRep⟩
    refine ⟨m₂, hTakes.append hActs.within.fresh hActs.labels hTakes', hKept.trans hKept', ?_⟩
    intro z' hMem
    exact hRep z' (hParts hMem).2

end Codegen

------------
-- Typed Trees
------------

open Assembly Codegen Machine

variable {c : Context} {Γ : ObjId → IntType} {ρ : ObjId → Int}
  {t : Term} {e : Expr}

/- The code of a typed tree computes the value of its term. -/
theorem Typed.computes (hTyped : Typed Γ t e) (hProper : t.Proper Γ) (hLocal : Located c Γ t.vars)
    (hVars : ∀ x ∈ t.vars, (Γ x).Has (ρ x)) : Computes c Γ ρ t e := by
  -- a part has fewer variables, and values of its type
  have hHas : ∀ {t : Term}, t.Proper Γ → (∀ x ∈ t.vars, (Γ x).Has (ρ x)) →
      ∀ v ∈ t.value Γ ρ, (t.type Γ).Has v := by
    intro t hProper hVars v hValue
    exact Term.has_value hProper hVars hValue
  induction hTyped with
  | const hType => exact computes_const _ _
  | var hType => exact computes_var hLocal (hVars _ (by simp [Term.vars])) hType
  | cast hType hInner ih =>
    exact computes_cast (ih hProper hLocal hVars) hInner (hHas hProper hVars) hType
  | neg hType hInner ih => exact computes_neg (ih hProper hLocal hVars) hType
  | not hType hInner ih => exact computes_not (ih hProper hLocal hVars) hInner (hHas hProper hVars)
  | bitNot hType hInner ih =>
    exact computes_bitNot (ih hProper.1 hLocal hVars) hProper.2 (hHas hProper.1 hVars)
  | @logical i op l r a b hOp hType hLeft hRight ihl ihr =>
    have hLocalL : Located c Γ l.vars := fun x hx => hLocal x (List.mem_append_left _ hx)
    have hLocalR : Located c Γ r.vars := fun x hx => hLocal x (List.mem_append_right _ hx)
    have hVarsL : ∀ x ∈ l.vars, (Γ x).Has (ρ x) := fun x hx => hVars x (List.mem_append_left _ hx)
    have hVarsR : ∀ x ∈ r.vars, (Γ x).Has (ρ x) := fun x hx => hVars x (List.mem_append_right _ hx)
    have hEither : ∃ isAnd, op = logicalOp isAnd := by
      cases op <;> try cases hOp
      · exact ⟨true, rfl⟩
      · exact ⟨false, rfl⟩
    rcases hEither with ⟨isAnd, rfl⟩
    exact computes_logical isAnd (ihl hProper.1 hLocalL hVarsL)
      (ihr hProper.2.1 hLocalR hVarsR) hLeft hRight
      (hHas hProper.1 hVarsL) (hHas hProper.2.1 hVarsR)
  | @shift i op l r a b hOp hType hLeft hRight ihl ihr =>
    have hLocalL : Located c Γ l.vars := fun x hx => hLocal x (List.mem_append_left _ hx)
    have hVarsL : ∀ x ∈ l.vars, (Γ x).Has (ρ x) := fun x hx => hVars x (List.mem_append_left _ hx)
    exact computes_shift hOp (hProper.2.2 hOp) (hHas hProper.1 hVarsL)
      (ihl hProper.1 hLocalL hVarsL)
      (ihr hProper.2.1 (fun x hx => hLocal x (List.mem_append_right _ hx))
        fun x hx => hVars x (List.mem_append_right _ hx))
      hLeft hType
  | arith hLogical hShift hType hLeft hRight ihl ihr =>
    exact computes_arith hLogical hShift
      (ihl hProper.1 (fun x hx => hLocal x (List.mem_append_left _ hx))
        fun x hx => hVars x (List.mem_append_left _ hx))
      (ihr hProper.2.1 (fun x hx => hLocal x (List.mem_append_right _ hx))
        fun x hx => hVars x (List.mem_append_right _ hx))
      hLeft hType
  | @cond i p s u a b d hType hTest hThen hElse ihc iht ihe =>
    have hFirst : ∀ x ∈ p.vars, x ∈ (p.cond s u).vars :=
      fun x hx => List.mem_append_left _ (List.mem_append_left _ hx)
    have hNext : ∀ x ∈ s.vars, x ∈ (p.cond s u).vars :=
      fun x hx => List.mem_append_left _ (List.mem_append_right _ hx)
    have hLast : ∀ x ∈ u.vars, x ∈ (p.cond s u).vars := fun x hx => List.mem_append_right _ hx
    exact computes_cond (ihc hProper.1 (fun x hx => hLocal x (hFirst x hx))
        fun x hx => hVars x (hFirst x hx))
      (iht hProper.2.1 (fun x hx => hLocal x (hNext x hx)) fun x hx => hVars x (hNext x hx))
      (ihe hProper.2.2 (fun x hx => hLocal x (hLast x hx)) fun x hx => hVars x (hLast x hx))
      hTest (hHas hProper.1 fun x hx => hVars x (hFirst x hx))
  | comma hType hLeft hRight ihl ihr =>
    exact computes_comma (ihl hProper.1 (fun x hx => hLocal x (List.mem_append_left _ hx))
        fun x hx => hVars x (List.mem_append_left _ hx))
      (ihr hProper.2 (fun x hx => hLocal x (List.mem_append_right _ hx))
        fun x hx => hVars x (List.mem_append_right _ hx))

/-
  Adding types to a tree of integers succeeds, and so does
  writing its code.  Wherever the code stands between other
  lines, a machine that is ready for it and reaches its first
  line gets past its last one, with the value of the tree in
  `rax` and everything in use left as it was.
-/
theorem expr_computes_value {s : ParseState} {v : Int} (hSpells : Spells Γ t e)
    (hProper : t.Proper Γ) (hDeclares : Declares Γ s t) (hLocal : Located c Γ t.vars)
    (hVars : ∀ x ∈ t.vars, (Γ x).Has (ρ x)) (hValue : t.value Γ ρ = some v) (k : Counters) :
    ∃ e' r, Typing.addType e s = .ok e' s ∧ e'.type? = some (t.type Γ).toCType ∧
      Codegen.expr c .value e' k = .ok r ∧
      ∀ m before after, Ready c Γ ρ t.vars t.room m → Fresh k.labels before →
        ∃ m', Runs (before ++ r.code ++ after) ⟨before.length, m⟩
            ⟨before.length + r.code.length, m'⟩ ∧ Kept m m' ∧
          (t.type Γ).Represents v (m'.regs .rax) := by
  rcases hSpells.addType hProper s hDeclares with
    ⟨e', hAdd, hTyped⟩
  rcases hTyped.computes hProper hLocal hVars k with
    ⟨r, hRun, hActs⟩
  refine ⟨e', r, hAdd, hTyped.type?_eq, hRun, ?_⟩
  intro m before after hReady hFresh
  rcases hActs.runs m ⟨hReady, by rw [hValue]; rfl⟩ with
    ⟨m', hTakes, hKept, hRep⟩
  exact ⟨m', hTakes before after hFresh, hKept, hRep v hValue⟩

section Halving

/- Two variables, of types `char` and `unsigned long`. -/
def halvingTypes : ObjId → IntType
| 0 => .of .char false
| _ => .of .long true

def halvingValues : ObjId → Int
| 0 => -7
| _ => 5

/- `(x || x / 0) ? (short)x / 2 : y`. -/
def halving : Term :=
  .cond (.binary .logOr (.var 0) (.binary .div (.var 0) (.const .int 0)))
    (.binary .div (.cast (.of .short false) (.var 0)) (.const .int 2))
    (.var 1)

/- The tree of the term before types are added. -/
def halvingTree : Expr :=
  let i : Info := { tok := default }
  .ternary i (.binary i .logOr (.var i 0)
      (.binary i .div (.var i 0) (.num i 0)))
    (.binary i .div (.cast { i with type? := some (.integer .short false) }
        (.var { i with
          type? := some (.integer .char false) } 0)) (.num i 2))
    (.var i 1)

def halvingObjects : Objects :=
  #[ { name := [], type := .integer .char false,
       isLocal := true, align := 1 },
     { name := [], type := .integer .long true,
       isLocal := true, align := 8 } ]

def halvingContext : Context where
  program := ⟨[], halvingObjects, #[], #[]⟩
  positionIndependent := false
  function := default
  frame := ⟨[(0, -8), (1, -16)], 16⟩

/- A machine whose frame holds the values. -/
def halvingMachine : Machine where
  regs := fun r =>
    if r = .rsp then 4096 else if r = .rbp then 4160 else 0
  flags? := none
  mem := fun a =>
    if a = 4152 then 0xf9 else if a = 4144 then 5 else 0

/-
  The division by zero is not reached, and the quotient of the
  other one becomes a value of the type of `y`.
-/
theorem expr_computes_value_halving :
    Ready halvingContext halvingTypes halvingValues halving.vars halving.room halvingMachine ∧
      ∃ e r m', Typing.addType halvingTree { toks := [], objects := halvingObjects } =
            .ok e { toks := [], objects := halvingObjects } ∧
        Codegen.expr halvingContext .value e {} = .ok r ∧
        Runs r.code ⟨0, halvingMachine⟩ ⟨r.code.length, m'⟩ ∧ Kept halvingMachine m' ∧
        m'.regs .rax = BitVec.ofInt 64 (2 ^ 64 - 3) := by
  let s : ParseState := { toks := [], objects := halvingObjects }
  have hDeclares : Declares halvingTypes s halving := by
    intro x hx
    fin_cases hx <;> rfl
  have hLocal : Located halvingContext halvingTypes halving.vars := by
    intro x hx
    fin_cases hx <;> exact ⟨rfl, rfl⟩
  have hVar : Declares halvingTypes s (.var 0) := by
    intro x hx
    fin_cases hx
    rfl
  have hAddVar : Typing.addType (.var { tok := default } 0) s =
      .ok (.var ⟨default, some (.integer .char false)⟩ 0) s := by
    rw [Typing.addType]
    rfl
  have hSpells : Spells halvingTypes halving halvingTree :=
    .cond rfl (.binary rfl (.var rfl) (.binary rfl (.var rfl) (.const (.inr ⟨rfl, rfl⟩))))
      (.binary rfl (.cast rfl (.typed (.var rfl) hVar hAddVar) rfl) (.const (.inr ⟨rfl, rfl⟩)))
      (.var rfl)
  have hReady : Ready halvingContext halvingTypes halvingValues halving.vars halving.room
      halvingMachine := by
    refine ⟨by decide, ?_, by decide, by decide⟩
    unfold HoldsAt
    decide
  rcases expr_computes_value (c := halvingContext)
    (ρ := halvingValues) (s := s) (v := 2 ^ 64 - 3) hSpells
    (by simp only [halving, Term.Proper]; decide)
    hDeclares hLocal (by decide) (by decide) {} with ⟨e, r, hAdd, -, hRun, hRuns⟩
  rcases hRuns halvingMachine [] [] hReady (by simp [Fresh]) with ⟨m', hSteps, hKept, hRep⟩
  refine ⟨hReady, e, r, m', hAdd, hRun, ?_, hKept, ?_⟩
  · simpa using hSteps
  · exact (BitVec.setWidth_eq _).symm.trans hRep

end Halving

end CCompiler
