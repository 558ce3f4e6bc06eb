import Mathlib
import CCompiler.Proofs.Syntax.FormulaReading

/-
  Operators between operands, and the levels of the grammar.

  The grammar of C has a level for each precedence.  An
  expression of a level is one of the next level, or one of the
  same level, an operator of this level and an expression of
  the next level.  The reader knows no levels: it climbs from
  one operator to the next one, and reads behind each what
  binds tighter.  It takes the longest prefix that is an
  expression of the level it is asked for, and builds the tree
  that the grammar has for it.

  Main declarations:
    * `Formula.Link`, `Formula.Operand`
    * `Formula.Level`, `Formula.Level.unique`
    * `Formula.Builds`
    * `Formula.Level.climbs`
    * `Formula.climbs_longest`
-/

------------
-- Levels
------------

namespace CCompiler

theorem Dyadic.binding_le (op : Dyadic) : 1 ≤ op.binding ∧ op.binding ≤ 10 := by cases op <;> decide

namespace Formula

/- An operator and the operand behind it. -/
structure Link where
  op : Dyadic
  sign : Token
  operand : Formula

/- The tokens of some operators with their operands. -/
def Link.tokens (ls : List Link) : List Token :=
  ls.flatMap fun l => l.sign :: l.operand.tokens

/- An operand of operators: its own operators are inside of it. -/
structure Operand (s : ParseState) (a : Formula) : Prop where
  tight : 14 ≤ a.rank
  written : a.Written
  means : a.Means s

/- An operator is spelled by its token and followed by an operand. -/
structure Link.Sound (s : ParseState) (l : Link) : Prop where
  spelled : l.sign.Punct l.op.text
  operand : Operand s l.operand

/-
  The grammar: an operand with some operators and operands
  behind it is an expression of a level, with a tree.  Level
  one is that of `||`, level ten that of `*`, and from level
  eleven on there are only operands.
-/
inductive Level : Nat → Formula → List Link → Formula → Prop
| operand {k a}
    (hLevel : 11 ≤ k) :
    Level k a [] a
| above {k a ls t}
    (hLevel : k < 11)
    (hNext : Level (k + 1) a ls t) :
    Level k a ls t
| left {k a ls l ms r} {link : Link}
    (hLevel : k < 11)
    (hOp : link.op.binding = k)
    (hLeft : Level k a ls l)
    (hRight : Level (k + 1) link.operand ms r) :
    Level k a (ls ++ link :: ms)
      (.binary link.op link.sign l r)

/-
  The tree that reading builds.  Operators are nodes without
  types, the operands of a larger one change places, and those
  of sums and differences have their types already.
-/
inductive Builds (s : ParseState) : Formula → Expr → Prop
| operand {a e}
    (hTight : 14 ≤ a.rank)
    (hTypable : Typable s a e) :
    Builds s a e
| sum {op t l r x y x' y'}
    (hOp : op = .add ∨ op = .sub)
    (hLeft : Builds s l x)
    (hRight : Builds s r y)
    (hAdd : ∀ ts, Typing.addType x (s.before ts) = .ok x' (s.before ts))
    (hAdd' : ∀ ts, Typing.addType y (s.before ts) = .ok y' (s.before ts)) :
    Builds s (.binary op t l r) (.binary ⟨t, none⟩ op.node x' y')
| node {op t l r x y}
    (hAdd : op ≠ .add)
    (hSub : op ≠ .sub)
    (hLeft : Builds s l x)
    (hRight : Builds s r y) :
    Builds s (.binary op t l r)
      (.binary ⟨t, none⟩ op.node (if op.swaps then y else x)
        (if op.swaps then x else y))

variable {k : Nat} {a t t' : Formula} {ls ms : List Link}

/- All operators of an expression bind at least as tightly as its level. -/
theorem Level.binding_le (hLevel : Level k a ls t) : ∀ l ∈ ls, k ≤ l.op.binding := by
  induction hLevel with
  | operand => simp
  | above _ _ ih =>
    intro l hMem
    exact (Nat.le_succ _).trans (ih l hMem)
  | left _ hOp _ _ ihl ihr =>
    intro l hMem
    rcases List.mem_append.mp hMem with hMem | hMem
    · exact ihl l hMem
    rcases List.mem_cons.mp hMem with rfl | hMem
    · exact hOp.ge
    · exact (Nat.le_succ _).trans (ihr l hMem)

/- The last operator of a level divides an expression in one way only. -/
theorem split_unique {ls' ms' : List Link} {link link' : Link}
    (hSame : ls ++ link :: ms = ls' ++ link' :: ms') (hOp : link.op.binding = k)
    (hOp' : link'.op.binding = k) (hTighter : ∀ l ∈ ms, k + 1 ≤ l.op.binding)
    (hTighter' : ∀ l ∈ ms', k + 1 ≤ l.op.binding) : ls = ls' ∧ link = link' ∧ ms = ms' := by
  rcases List.append_eq_append_iff.mp hSame with
    ⟨between, hLeft, hRight⟩ | ⟨between, hLeft, hRight⟩
  · cases between with
    | nil =>
      rw [List.nil_append, List.cons_eq_cons] at hRight
      exact ⟨by simpa using hLeft.symm, hRight.1, hRight.2⟩
    | cons first between =>
      rw [List.cons_append, List.cons_eq_cons] at hRight
      have hMem : link' ∈ ms := by simp [hRight.2]
      have hLess := hTighter link' hMem
      omega
  · cases between with
    | nil =>
      rw [List.nil_append, List.cons_eq_cons] at hRight
      exact ⟨by simpa using hLeft, hRight.1.symm, hRight.2.symm⟩
    | cons first between =>
      rw [List.cons_append, List.cons_eq_cons] at hRight
      have hMem : link ∈ ms' := by simp [hRight.2]
      have hLess := hTighter' link hMem
      omega

/- An expression of a level has one tree. -/
theorem Level.unique (hLevel : Level k a ls t) (hOther : Level k a ls t') : t = t' := by
  induction hLevel generalizing t' with
  | operand hHigh =>
    generalize hNil : [] = ls at hOther
    cases hOther with
    | operand => rfl
    | above hLow => omega
    | left hLow => omega
  | @above k a ls t hLow hNext ih =>
    generalize hLinks : ls = all at hOther
    cases hOther with
    | operand hHigh => omega
    | above _ hNext' => exact ih (hLinks ▸ hNext')
    | @left _ _ before l after r link _ hOp _ _ =>
      have hMem : link ∈ ls := by simp [hLinks]
      have hLess := hNext.binding_le link hMem
      omega
  | @left k a ls l ms r link hLow hOp hLeft hRight ihl ihr =>
    generalize hLinks : ls ++ link :: ms = all at hOther
    cases hOther with
    | operand hHigh => omega
    | above _ hNext' =>
      have hMem : link ∈ all := by simp [← hLinks]
      have hLess := hNext'.binding_le link hMem
      omega
    | left _ hOp' hLeft' hRight' =>
      rcases split_unique hLinks hOp hOp' hRight.binding_le hRight'.binding_le with ⟨rfl, rfl, rfl⟩
      rw [ihl hLeft', ihr hRight']

/- The last thing of a list with a property. -/
theorem exists_last {p : Link → Prop} (hSome : ∃ l ∈ ls, p l) :
    ∃ before l after, ls = before ++ l :: after ∧ p l ∧ ∀ m ∈ after, ¬ p m := by
  classical
  induction ls with
  | nil => simp at hSome
  | cons first ls ih =>
    by_cases hLater : ∃ l ∈ ls, p l
    · rcases ih hLater with ⟨before, l, after, rfl, hHolds, hNone⟩
      exact ⟨first :: before, l, after, rfl, hHolds, hNone⟩
    · rcases hSome with ⟨l, hMem, hHolds⟩
      rcases List.mem_cons.mp hMem with rfl | hMem
      · exact ⟨[], l, ls, rfl, hHolds, fun m hIn hIs => hLater ⟨m, hIn, hIs⟩⟩
      · exact absurd ⟨l, hMem, hHolds⟩ hLater

/- Operators that bind tightly enough make an expression of a level. -/
theorem exists_level (k : Nat) (a : Formula) (ls : List Link)
    (hTight : ∀ l ∈ ls, k ≤ l.op.binding) : ∃ t, Level k a ls t := by
  by_cases hHigh : 11 ≤ k
  · cases ls with
    | nil => exact ⟨a, .operand hHigh⟩
    | cons l ls =>
      have hLess := hTight l (by simp)
      have hMost := (Dyadic.binding_le l.op).2
      omega
  by_cases hSome : ∃ l ∈ ls, l.op.binding = k
  · rcases exists_last hSome with
      ⟨before, link, after, hSplit, hOp, hTighter⟩
    have hShorter : before.length < ls.length := by simp [hSplit]
    rcases exists_level k a before (fun l hMem => hTight l (by simp [hSplit, hMem])) with
      ⟨l, hLeft⟩
    rcases exists_level (k + 1) link.operand after (by
        intro l hMem
        have hLess := hTight l (by simp [hSplit, hMem])
        have hNe : ¬ l.op.binding = k := hTighter l hMem
        omega) with ⟨r, hRight⟩
    rw [hSplit]
    exact ⟨_, .left (by omega) hOp hLeft hRight⟩
  · rcases exists_level (k + 1) a ls (by
        intro l hMem
        have hLess := hTight l hMem
        have hNe : ¬ l.op.binding = k := fun hEq => hSome ⟨l, hMem, hEq⟩
        omega) with ⟨t, hNext⟩
    exact ⟨t, .above (by omega) hNext⟩
termination_by (11 - k, ls.length)
decreasing_by
  all_goals simp_wf
  all_goals omega

------------
-- Climbing
------------

open Parse

variable {s : ParseState} {l r : Formula} {x y e : Expr}
  {u : Token} {rest : List Token}

/- What is built gets the types of its formula. -/
theorem Builds.typable (hBuilds : Builds s a e) : Typable s a e := by
  induction hBuilds with
  | operand _ hTypable => exact hTypable
  | @sum op t l r x y x' y' hOp _ _ hAdd hAdd' ihl ihr =>
    rcases ihl.operands ihr with
      ⟨x'', y'', hLeft, hRight, hTyped, hTyped', -⟩
    have hSame := (hAdd []).symm.trans (hTyped [])
    have hSame' := (hAdd' []).symm.trans (hTyped' [])
    cases hSame
    cases hSame'
    rcases hOp with rfl | rfl
    · exact hLeft.binary hRight .add t
    · exact hLeft.binary hRight .sub t
  | node _ _ _ _ ihl ihr => exact ihl.binary ihr _ _

/- The tree of one more operator. -/
theorem Builds.binaryTree {op : Dyadic} (hText : u.Punct op.text) (hLeft : Builds s l x)
    (hRight : Builds s r y) (ts : List Token) :
    ∃ e, Builds s (.binary op u l r) e ∧ Expression.binaryTree u x y (s.before ts) =
        .ok e (s.before ts) := by
  have hIs := hText.spells.is_eq
  rcases hLeft.typable.operands hRight.typable with
    ⟨x', y', -, -, hAdd, hAdd', hSums⟩
  rcases hSums u ts with ⟨hSum, hDifference⟩
  unfold Expression.binaryTree
  cases op
  case add =>
    refine ⟨_, .sum (.inl rfl) hLeft hRight hAdd hAdd', ?_⟩
    rw [if_pos (by rw [hIs]; decide)]
    exact hSum
  case sub =>
    refine ⟨_, .sum (.inr rfl) hLeft hRight hAdd hAdd', ?_⟩
    rw [if_neg (by rw [hIs]; decide), if_pos (by rw [hIs]; decide)]
    exact hDifference
  all_goals
    refine ⟨_, .node (by decide) (by decide) hLeft hRight, ?_⟩
    simp +decide only [hIs, Dyadic.text, if_true, if_false]
    rfl

/- The tokens of a tree are those of its operand and operators. -/
theorem Level.tokens_eq (hLevel : Level k a ls t) : t.tokens = a.tokens ++ Link.tokens ls := by
  induction hLevel with
  | operand => simp [Link.tokens]
  | above _ _ ih => exact ih
  | left _ _ _ _ ihl ihr =>
    simp only [Formula.tokens, ihl, ihr, Link.tokens,
      List.flatMap_append, List.flatMap_cons, List.append_assoc,
      List.cons_append]

/- Every operator has a token. -/
theorem Link.length_le_tokens (ls : List Link) : ls.length ≤ (Link.tokens ls).length := by
  induction ls with
  | nil => simp
  | cons l ls ih =>
    simp only [Link.tokens, List.flatMap_cons, List.length_append, List.length_cons] at ih ⊢
    omega

/-
  The operators of an expression are met one after the other:
  the first operand is read, and after a few steps of the loop
  the whole expression has been.
-/
def Climbing (s : ParseState) (n : Nat) (k : Nat) (t : Formula)
    (few : Nat) (u : Token) (rest : List Token) : Prop :=
  ∃ x ts j e, j ≤ few ∧ Builds s t e ∧ TranslationUnit.read n .cast
      (s.before (t.tokens ++ u :: rest)) = .ok x (s.before ts) ∧
    ∀ least m, least ≤ k →
      repeatN (climb (TranslationUnit.read n) least) (m + j) x
          (s.before ts) = repeatN (climb (TranslationUnit.read n) least) m e
          (s.before (u :: rest))

/-
  Where the climbing from an operand meets an operator that
  binds too loosely, an expression of a level has been read.
-/
theorem Climbing.reads {n few least : Nat} (hClimbing : Climbing s n k t few u rest)
    (hFew : few ≤ 2 * s.limit + 7) (hLeast : least ≤ k)
    (hEnd : Expression.precedence u = 0 ∨ Expression.precedence u < least) :
    ∃ e, Builds s t e ∧ TranslationUnit.read (n + 1) (.binary least)
        (s.before (t.tokens ++ u :: rest)) = .ok e (s.before (u :: rest)) := by
  rcases hClimbing with ⟨x, ts, j, e, hSteps, hBuilds, hFirst, hLoop⟩
  refine ⟨e, hBuilds, ?_⟩
  change (TranslationUnit.read n .cast >>= fun first =>
    iterate first (climb (TranslationUnit.read n) least)) _ = _
  have hCount : 2 * (s.before ts).limit + 8 = (2 * s.limit + 7 - j) + 1 + j := by
    change 2 * s.limit + 8 = _
    omega
  rw [run_bind hFirst, iterate_apply, hCount, hLoop least _ hLeast]
  exact repeatN_one _ (climb_end hEnd)

/- An expression of a level is met operator by operator. -/
theorem Level.climbs (hLevel : Level k a ls t) (hFirst : Operand s a)
    (hLinks : ∀ l ∈ ls, l.Sound s) (hLimit : t.tokens.length ≤ s.limit) (n : Nat) (u : Token)
    (rest : List Token) (hFuel : 32 * t.tokens.length ≤ n + 16) (hFree : u.Free suffixWords)
    (hLoose : Expression.precedence u ≤ k) : Climbing s n k t ls.length u rest := by
  induction hLevel generalizing n u rest with
  | operand =>
    rcases (readable hFirst.written hFirst.means hLimit).2 14 hFirst.tight n u rest hFuel
      (stops_tight hFree (by decide)) with ⟨e, hTypable, hRead⟩
    exact ⟨e, _, 0, e, le_rfl, .operand hFirst.tight hTypable, hRead, fun _ _ _ => rfl⟩
  | above _ _ ih =>
    rcases ih hFirst hLinks hLimit n u rest hFuel hFree (hLoose.trans (Nat.le_succ _)) with
      ⟨x, ts, j, e, hSteps, hBuilds, hRead, hLoop⟩
    exact ⟨x, ts, j, e, hSteps, hBuilds, hRead,
      fun least m hLeast => hLoop least m (hLeast.trans (Nat.le_succ _))⟩
  | @left k a ls l ms r link hLow hOp hLeft hRight ihl ihr =>
    have hSound : link.Sound s := hLinks link (by simp)
    have hText := hSound.spelled
    simp only [Formula.tokens, List.length_append, List.length_cons] at hLimit hFuel
    rcases Nat.exists_eq_add_of_le (show 1 ≤ n by omega) with
      ⟨m, rfl⟩
    rw [Nat.add_comm 1 m] at *
    rcases ihl hFirst (fun l hMem => hLinks l (by simp [hMem]))
      (by omega) (m + 1) link.sign (r.tokens ++ u :: rest)
      (by omega) (stops_operator hText).suffix
      ((precedence_eq hText).le.trans hOp.le) with
      ⟨x, ts, j, y, hSteps, hBuilds, hRead, hLoop⟩
    have hInner := ihr hSound.operand (fun l hMem => hLinks l (by simp [hMem])) (by omega)
      m u rest (by omega) hFree
      (hLoose.trans (Nat.le_succ _))
    have hFew : ms.length ≤ 2 * s.limit + 7 := by
      have hTokens := congrArg List.length hRight.tokens_eq
      have hEach := Link.length_le_tokens ms
      rw [List.length_append] at hTokens
      omega
    rcases hInner.reads hFew le_rfl (.inr (by omega)) with
      ⟨z, hBuilds', hRead'⟩
    rw [← hOp] at hRead'
    rcases hBuilds.binaryTree hText hBuilds' (u :: rest) with
      ⟨e, hBuildsE, hTree⟩
    refine ⟨x, ts, j + 1, e, ?_, hBuildsE, ?_, ?_⟩
    · simp only [List.length_append, List.length_cons]
      omega
    · rw [Formula.tokens, List.append_assoc]
      exact hRead
    · intro least c hLeast
      have hStep : climb (TranslationUnit.read (m + 1)) least y
          (s.before (link.sign :: (r.tokens ++ u :: rest))) =
          .ok (.inl e) (s.before (u :: rest)) :=
        climb_next hText (by omega) hRead' hTree
      rw [show c + (j + 1) = (c + 1) + j by omega, hLoop least (c + 1) hLeast, repeatN_next c hStep]

/- The operators at the start that bind tightly enough, and the others. -/
theorem exists_longest (least : Nat) (ls : List Link) :
    ∃ before after, ls = before ++ after ∧ (∀ l ∈ before, least ≤ l.op.binding) ∧
      ∀ l ∈ after.head?, l.op.binding < least := by
  induction ls with
  | nil => exact ⟨[], [], rfl, by simp, by simp⟩
  | cons l ls ih =>
    by_cases hTight : least ≤ l.op.binding
    · rcases ih with ⟨before, after, rfl, hBefore, hAfter⟩
      exact ⟨l :: before, after, rfl, List.forall_mem_cons.mpr ⟨hTight, hBefore⟩, hAfter⟩
    · refine ⟨[], l :: ls, rfl, by simp, ?_⟩
      rintro m ⟨⟩
      exact Nat.lt_of_not_le hTight

/-
  Reading operators that bind at least so tightly takes the
  longest prefix that is an expression of this level, and
  builds the only tree that the grammar has for it.  At the
  level of `||` it takes the whole sequence.
-/
theorem climbs_longest {n : Nat} (hFirst : Operand s a) (hLinks : ∀ l ∈ ls, l.Sound s)
    (hLimit : (a.tokens ++ Link.tokens ls).length ≤ s.limit)
    (hDepth : 32 * (a.tokens ++ Link.tokens ls).length ≤ n) (hFree : u.Free suffixWords)
    (hEnd : Expression.precedence u = 0) (least : Nat) (rest : List Token) :
    ∃ before after t e, ls = before ++ after ∧ Level least a before t ∧
      (∀ t', Level least a before t' → t' = t) ∧ Builds s t e ∧
      TranslationUnit.read n (.binary least) (s.before (a.tokens ++ Link.tokens ls ++ u :: rest)) =
        .ok e (s.before (Link.tokens after ++ u :: rest)) ∧
      (∀ more t', more <+: ls → Level least a more t' → more <+: before) ∧
      (least ≤ 1 → after = []) := by
  rcases exists_longest least ls with
    ⟨before, after, rfl, hBefore, hAfter⟩
  rcases exists_level least a before hBefore with ⟨t, hLevel⟩
  have hTokens := hLevel.tokens_eq
  have hAll : a.tokens ++ Link.tokens (before ++ after) = t.tokens ++ Link.tokens after := by
    rw [hTokens, Link.tokens, List.flatMap_append, ← List.append_assoc]
    rfl
  rw [hAll, List.length_append] at hLimit hDepth
  rw [hAll]
  have hFew := Link.length_le_tokens before
  have hCount := congrArg List.length hTokens
  rw [List.length_append] at hCount
  have hPos := t.tokens_length_pos
  rcases Nat.exists_eq_add_of_le (show 1 ≤ n by omega) with ⟨m, rfl⟩
  rw [Nat.add_comm 1 m] at *
  -- what stands behind the prefix binds too loosely for it
  have hStops : ∃ v vs, Link.tokens after ++ u :: rest = v :: vs ∧
        v.Free suffixWords ∧ Expression.precedence v ≤ least ∧
        (Expression.precedence v = 0 ∨ Expression.precedence v < least) := by
    cases after with
    | nil => exact ⟨u, rest, rfl, hFree, by omega, .inl hEnd⟩
    | cons link after =>
      have hText := (hLinks link (by simp)).spelled
      have hLess := hAfter link (by simp)
      rw [← precedence_eq hText] at hLess
      exact ⟨link.sign, _, rfl, (stops_operator hText).suffix, hLess.le, .inr hLess⟩
  rcases hStops with ⟨v, vs, hNext, hFreeV, hLoose, hEndV⟩
  have hClimbs := hLevel.climbs hFirst (fun l hMem => hLinks l (by simp [hMem])) (by omega) m v vs
    (by omega) hFreeV hLoose
  rcases hClimbs.reads (by omega) le_rfl hEndV with
    ⟨e, hBuilds, hRead⟩
  refine ⟨before, after, t, e, rfl, hLevel,
    fun t' hOther => hOther.unique hLevel, hBuilds, ?_, ?_, ?_⟩
  · rw [List.append_assoc, hNext]
    exact hRead
  · intro more t' hMore hOther
    rcases List.prefix_or_prefix_of_prefix hMore
      (List.prefix_append before after) with hShort | ⟨extra, rfl⟩
    · exact hShort
    · cases extra with
      | nil => simp
      | cons link extra =>
        rw [List.prefix_append_right_inj] at hMore
        rcases hMore with ⟨later, rfl⟩
        have hTight := hOther.binding_le link (by simp)
        have hLess := hAfter link (by simp)
        omega
  · intro hLoosest
    cases after with
    | nil => rfl
    | cons link after =>
      have hLess := hAfter link (by simp)
      have hTight := (Dyadic.binding_le link.op).1
      omega

/- 1 * 2 + 3 > c || d -/
def sampleLinks : List Link :=
  [⟨.mul, sign "*", sampleNumber 2 "2"⟩, ⟨.add, sign "+", sampleNumber 3 "3"⟩,
    ⟨.gt, sign ">", sampleChar⟩, ⟨.logOr, sign "||", sampleDouble⟩]

/- The sum is all that is read of them at the level of sums. -/
theorem climbs_longest_mixed :
    let product : Formula := .binary .mul (sign "*")
      (sampleNumber 1 "1") (sampleNumber 2 "2")
    let sum : Formula := .binary .add (sign "+") product (sampleNumber 3 "3")
    ∃ e, Builds sampleState sum e ∧ TranslationUnit.read 1024 (.binary 9)
          (sampleState.before ((sampleNumber 1 "1").tokens ++
            Link.tokens sampleLinks ++ [sign ";"])) = .ok e (sampleState.before
          (Link.tokens (sampleLinks.drop 2) ++ [sign ";"])) := by
  intro product sum
  have hOne : Operand sampleState (sampleNumber 1 "1") := ⟨by decide, by decide, trivial⟩
  have hLinks : ∀ l ∈ sampleLinks, l.Sound sampleState := by
    simp only [sampleLinks, List.forall_mem_cons]
    exact ⟨⟨by decide, by decide, by decide, trivial⟩, ⟨by decide, by decide, by decide, trivial⟩,
      ⟨by decide, by decide, by decide, .inl ⟨0, rfl, rfl, rfl⟩⟩,
      ⟨by decide, by decide, by decide, .inl ⟨1, rfl, rfl, rfl⟩⟩,
      by simp⟩
  have hStops : Stops 0 (sign ";") := stops_closing (w := ";") ⟨rfl, rfl⟩ (by decide)
  rcases climbs_longest (n := 1024) hOne hLinks (by decide)
    (by decide) hStops.suffix (by decide) 9 [] with
    ⟨before, after, t, e, hSplit, hLevel, hUnique, hBuilds, hRead, hLongest, -⟩
  -- the grammar has a sum of these two operators
  let times : Link := ⟨.mul, sign "*", sampleNumber 2 "2"⟩
  let plus : Link := ⟨.add, sign "+", sampleNumber 3 "3"⟩
  have hAtom : ∀ a, Level 11 a [] a := fun a => .operand le_rfl
  have hProduct : Level 10 (sampleNumber 1 "1") ([] ++ [times]) product :=
    .left (by decide) rfl (.above (by decide) (hAtom _)) (hAtom _)
  have hSum : Level 9 (sampleNumber 1 "1") ([times] ++ [plus]) sum :=
    .left (by decide) rfl (.above (by decide) hProduct) (.above (by decide) (hAtom _))
  rcases hLongest _ _ (List.take_prefix 2 _) hSum with ⟨extra, rfl⟩
  cases extra with
  | nil =>
    rw [hUnique sum hSum]
    have hAfter : after = sampleLinks.drop 2 := by
      simpa [sampleLinks, times, plus] using hSplit.symm
    rw [hAfter] at hRead
    exact ⟨e, hBuilds, hRead⟩
  | cons l extra =>
    have hNext : l = ⟨.gt, sign ">", sampleChar⟩ := by
      simp [sampleLinks] at hSplit
      exact hSplit.1.symm
    have hTight := hLevel.binding_le l (by simp)
    rw [hNext] at hTight
    exact absurd hTight (by decide)

end Formula

end CCompiler
