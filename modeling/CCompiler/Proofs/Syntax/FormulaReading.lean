import Mathlib
import CCompiler.Proofs.Syntax.ConstantValues
import CCompiler.Proofs.Syntax.FormulaTypes
import CCompiler.Proofs.Syntax.TypeNames

/-
  Reading formulas.

  A formula with parentheses around operands that bind more
  loosely than their places demand is read as its tree.  The
  reader climbs from one operator to the next one, and stops in
  front of a token that continues nothing it has begun.

  Main declarations:
    * `Formula.rank`, `Formula.Written`, `Formula.Means`
    * `Formula.Stops`
    * `Formula.readable`
    * `Formula.read_types`
-/

------------
-- Written Formulas
------------

namespace CCompiler

/-
  The words and signs with a meaning of their own in expressions
  and declarators.
-/
def reserved : List String :=
  Specifier.typeWords ++ ["__attribute__", "__attribute", "sizeof", "_Alignof",
      "__alignof__", "_Generic", "__builtin_types_compatible_p",
      "__builtin_reg_class", "__builtin_compare_and_swap",
      "__builtin_atomic_exchange", "(", ")", "[", "]", "\x7b", "\x7d",
      ".", "->", "++", "--", "*", ",", "...", "?", ":", "="]

variable {op : Dyadic} {w : String}

namespace Formula

/-
  How tightly the outermost operator of a formula binds: commas
  most loosely, then assignments, choices and the operators
  between two operands.
-/
def rank : Formula → Nat
| .comma _ _ _ => 0
| .assign _ _ _ => 1
| .cond _ _ _ _ _ => 2
| .binary op _ _ _ => 2 + op.binding
| _ => 14

/-
  The tokens of a formula spell it, and its operands bind as
  tightly as their places demand.
-/
def Written : Formula → Prop
| .number t => t.kind.isNum = true ∧ t.Free reserved
| .name t _ => t.kind = .ident ∧ t.Free reserved
| .paren o c a => o.Punct "(" ∧ c.Punct ")" ∧ a.Written
| .unary op t a => t.Punct op.text ∧ 14 ≤ a.rank ∧ a.Written
| .cast o _ c _ a =>
  o.Punct "(" ∧ c.Punct ")" ∧ 14 ≤ a.rank ∧ a.Written
| .binary op t l r =>
  t.Punct op.text ∧ 2 + op.binding ≤ l.rank ∧
    3 + op.binding ≤ r.rank ∧ l.Written ∧ r.Written
| .cond q c b t e =>
  q.Punct "?" ∧ c.Punct ":" ∧ 3 ≤ b.rank ∧ 2 ≤ e.rank ∧
    b.Written ∧ t.Written ∧ e.Written
| .comma t l r =>
  t.Punct "," ∧ 1 ≤ l.rank ∧ l.Written ∧ r.Written
| .assign t l r =>
  t.Punct "=" ∧ 2 ≤ l.rank ∧ 1 ≤ r.rank ∧ l.Written ∧ r.Written

instance decidableWritten : (a : Formula) → Decidable a.Written
| .number _ | .name _ _ => inferInstanceAs (Decidable (_ ∧ _))
| .paren _ _ a | .unary _ _ a | .cast _ _ _ _ a =>
  have := decidableWritten a
  inferInstanceAs (Decidable (_ ∧ _))
| .binary _ _ l r | .comma _ l r | .assign _ l r =>
  have := decidableWritten l
  have := decidableWritten r
  inferInstanceAs (Decidable (_ ∧ _))
| .cond _ _ b t e =>
  have := decidableWritten b
  have := decidableWritten t
  have := decidableWritten e
  inferInstanceAs (Decidable (_ ∧ _))

/- A number is an integer or a floating value. -/
theorem exists_value {t : Token} (hNum : t.kind.isNum = true) :
    (∃ type v, t.kind = .int type v) ∨ ∃ type v, t.kind = .float type v := by
  cases hKind : t.kind with
  | int type v => exact .inl ⟨type, v, rfl⟩
  | float type v => exact .inr ⟨type, v, rfl⟩
  | _ =>
    rw [hKind] at hNum
    cases hNum

/- The phrase that formulas of at least a rank are read as. -/
def phrase : Nat → Phrase Expr
| 0 => .expr
| 1 => .assign
| 2 => .conditional
| k + 3 => if k < 11 then .binary (k + 1) else .cast

/- The signs that continue an operand. -/
def suffixWords : List String := ["(", "[", ".", "->", "++", "--"]

/- A token that does not continue a formula of at least a rank. -/
structure Stops (k : Nat) (u : Token) : Prop where
  suffix : u.Free suffixWords
  binary : k ≤ 2 + Expression.precedence u → Expression.precedence u = 0
  choice : k ≤ 2 → u.is "?" = false
  assign : k ≤ 1 → u.is "=" = false ∧ Expression.compoundOp? u = none
  comma : k = 0 → u.is "," = false

variable {k : Nat} {u : Token}

theorem Stops.mono {m : Nat} (hStops : Stops k u) (hLess : k ≤ m) : Stops m u where
  suffix := hStops.suffix
  binary := fun h => hStops.binary (hLess.trans h)
  choice := fun h => hStops.choice (hLess.trans h)
  assign := fun h => hStops.assign (hLess.trans h)
  comma := fun h => hStops.comma (by omega)

/- An operator is recognised by its spelling. -/
theorem precedence_eq {t : Token} (hText : t.Punct op.text) :
    Expression.precedence t = op.binding := by
  unfold Expression.precedence
  cases op <;> simp +decide [hText.1, hText.spells.is_eq, Expression.precedences,
      Dyadic.text, Dyadic.binding, List.findIdx?, List.findIdx?.go]

/- A sign that is no operator between two operands. -/
theorem precedence_punct {t : Token} (hText : t.Punct w)
    (hOther : ∀ ops ∈ Expression.precedences, ∀ v ∈ ops,
      (ascii w == ascii v) = false) : Expression.precedence t = 0 := by
  have hNone : (Expression.precedences.findIdx? fun ops =>
      ops.any t.is) = none := by
    rw [List.findIdx?_eq_none_iff]
    intro ops hOps
    rw [List.any_eq_false]
    intro v hWord
    rw [hText.spells.is_eq, hOther ops hOps v hWord]
    exact Bool.false_ne_true
  unfold Expression.precedence
  rw [hNone, ite_self]

/- Behind an operand only a suffix continues it. -/
theorem stops_tight (hFree : u.Free suffixWords) (hTight : 13 ≤ k) : Stops k u where
  suffix := hFree
  binary := by
    have hLess : Expression.precedence u ≤ 10 := by
      unfold Expression.precedence
      split
      · omega
      split
      · rename_i i hFound
        have hIndex := (List.findIdx?_eq_some_iff_getElem.mp hFound).1
        exact hIndex
      · omega
    omega
  choice := by omega
  assign := by omega
  comma := by omega

variable {t : Token}

theorem stops_operator (hText : t.Punct op.text) : Stops (3 + op.binding) t where
  suffix := by
    intro w hWord
    rw [hText.spells.is_eq]
    revert w
    cases op <;> decide
  binary := by
    rw [precedence_eq hText]
    omega
  choice := by omega
  assign := by omega
  comma := by omega

/- A sign that is no operator stops what it has no part in. -/
theorem stops_punct (hText : t.Punct w)
    (hPlain : ∀ v ∈ suffixWords ++ Expression.precedences.flatten,
      (ascii w == ascii v) = false) (hChoice : k ≤ 2 → (ascii w == ascii "?") = false)
    (hAssign : k ≤ 1 → ∀ v ∈ ["=", "+=", "-=", "*=", "/=", "%=", "&=",
      "|=", "^=", "<<=", ">>="], (ascii w == ascii v) = false)
    (hComma : k = 0 → (ascii w == ascii ",") = false) : Stops k t := by
  have hIs := hText.spells.is_eq
  constructor
  · intro v hMem
    rw [hIs]
    exact hPlain v (List.mem_append_left _ hMem)
  · intro _
    apply precedence_punct hText
    intro ops hOps v hMem
    exact hPlain v (List.mem_append_right _ (List.mem_flatten.mpr ⟨ops, hOps, hMem⟩))
  · intro hLoose
    rw [hIs]
    exact hChoice hLoose
  · intro hLoose
    refine ⟨(hIs "=").trans (hAssign hLoose _ (by decide)), ?_⟩
    unfold Expression.compoundOp?
    simp only [List.findSome?_eq_none_iff]
    rintro ⟨v, op⟩ hMem
    have hWord : v ∈ ["=", "+=", "-=", "*=", "/=", "%=", "&=", "|=", "^=", "<<=", ">>="] :=
      List.mem_cons_of_mem _ (List.mem_map_of_mem (f := Prod.fst) hMem)
    simp only [hIs, hAssign hLoose v hWord]
    rfl
  · intro hLoose
    rw [hIs]
    exact hComma hLoose

theorem stops_question (hText : t.Punct "?") : Stops 3 t :=
  stops_punct hText (by decide) (by omega) (by omega) (by omega)

theorem stops_equals (hText : t.Punct "=") : Stops 2 t :=
  stops_punct hText (by decide) (by decide) (by omega) (by omega)

theorem stops_comma (hText : t.Punct ",") : Stops 1 t :=
  stops_punct hText (by decide) (by decide) (by decide) (by omega)

/- What stands behind a formula that is closed. -/
theorem stops_closing (hText : t.Punct w) (hWord : w ∈ [")", "]", ":", ";"]) : Stops 0 t := by
  fin_cases hWord <;> exact stops_punct hText (by decide) (by decide) (by decide) (by decide)

end Formula

------------
-- Meanings
------------

namespace Formula

open Parse Specifier

/- A name stands for a variable of a type, or for a constant of an enumeration. -/
def HasType (s : ParseState) (t : Token) (τ : ArithType) : Prop :=
  (∃ v, s.binding? t.text = some (.object v) ∧
    (s.objects.entry v).isFunction = false ∧
    (s.objects.entry v).type.arith? = some τ) ∨
  ∃ type v, s.binding? t.text = some (.constant type v) ∧ τ = .int

/- The names and the words for types have the types of a formula. -/
def Means (s : ParseState) : Formula → Prop
| .number _ => True
| .name t τ => HasType s t τ
| .paren _ _ a | .unary _ _ a => a.Means s
| .cast _ ws _ τ a =>
  (∃ type, NamesType s ws type ∧ type.arith? = some τ) ∧ a.Means s
| .binary _ _ l r | .comma _ l r | .assign _ l r =>
  l.Means s ∧ r.Means s
| .cond _ _ b t e => b.Means s ∧ t.Means s ∧ e.Means s

variable {s : ParseState} {t u : Token} {ts rest : List Token}
  {a : Formula} {e : Expr} {read : Reader}

/- What no formula starts with. -/
def foreignWords : List String := typeWords ++ ["\x7b", ":", "]"]

/- A token with which a formula may start. -/
def Starts (s : ParseState) (t : Token) : Prop :=
  t.Free foreignWords ∧ s.typedef? t = none

theorem Starts.isTypeName (hStarts : Starts s t) :
    isTypeName t (s.before ts) = .ok false (s.before ts) := by
  rw [isTypeName_before, (hStarts.1.mono (by decide)).any, hStarts.2]
  rfl

theorem starts_punct (hText : t.Punct w)
    (hWord : ∀ v ∈ foreignWords, (ascii w == ascii v) = false) : Starts s t := by
  constructor
  · intro v hMem
    rw [hText.spells.is_eq, hWord v hMem]
  · simp [ParseState.typedef?, Token.isIdent, hText.1]

/- The first token of a formula. -/
theorem exists_first (hWritten : a.Written) (hMeans : a.Means s) :
    ∃ t ts, a.tokens = t :: ts ∧ Starts s t := by
  induction a with
  | number t =>
    refine ⟨t, [], rfl, hWritten.2.mono (by decide), ?_⟩
    rcases exists_value hWritten.1 with ⟨type, v, hKind⟩ |
        ⟨type, v, hKind⟩ <;> simp [ParseState.typedef?, Token.isIdent, hKind]
  | name t τ =>
    refine ⟨t, [], rfl, hWritten.2.mono (by decide), ?_⟩
    rcases hMeans with ⟨v, hBinding, -⟩ | ⟨type, v, hBinding, -⟩ <;>
      simp [ParseState.typedef?, hBinding]
  | paren o c a ih | cast o ws c τ a ih => exact ⟨o, _, rfl, starts_punct hWritten.1 (by decide)⟩
  | unary op t a ih =>
    refine ⟨t, _, rfl, starts_punct hWritten.1 ?_⟩
    cases op <;> decide
  | binary op t l r ihl ihr =>
    rcases ihl hWritten.2.2.2.1 hMeans.1 with ⟨u, us, hTokens, hFirst⟩
    exact ⟨u, us ++ t :: r.tokens, by rw [tokens, hTokens]; rfl, hFirst⟩
  | cond q c b t e ihb iht ihe =>
    rcases ihb hWritten.2.2.2.2.1 hMeans.1 with
      ⟨u, us, hTokens, hFirst⟩
    exact ⟨u, us ++ q :: t.tokens ++ c :: e.tokens, by rw [tokens, hTokens]; rfl, hFirst⟩
  | comma t l r ihl ihr =>
    rcases ihl hWritten.2.2.1 hMeans.1 with ⟨u, us, hTokens, hFirst⟩
    exact ⟨u, us ++ t :: r.tokens, by rw [tokens, hTokens]; rfl, hFirst⟩
  | assign t l r ihl ihr =>
    rcases ihl hWritten.2.2.2.1 hMeans.1 with ⟨u, us, hTokens, hFirst⟩
    exact ⟨u, us ++ t :: r.tokens, by rw [tokens, hTokens]; rfl, hFirst⟩

end Formula

variable {τ : ArithType} {c : Token} {ws : List Token}

------------
-- Operands
------------

namespace Formula

open Parse Specifier

variable {s : ParseState} {t u v : Token} {ts rest : List Token}
  {a : Formula} {e : Expr} {read : Reader}

/- An operand without a suffix. -/
theorem iterate_suffix (hFree : u.Free suffixWords) :
    iterate e (Expression.suffix read) (s.before (u :: rest)) =
      .ok e (s.before (u :: rest)) := by
  apply iterate_one
  unfold Expression.suffix
  rw [run_bind tok_before,
    run_bind (accept_miss (hFree "(" (by decide))), if_neg Bool.false_ne_true,
    run_bind (accept_miss (hFree "[" (by decide))), if_neg Bool.false_ne_true,
    run_bind (accept_miss (hFree "." (by decide))), if_neg Bool.false_ne_true,
    run_bind (accept_miss (hFree "->" (by decide))), if_neg Bool.false_ne_true,
    run_bind (accept_miss (hFree "++" (by decide))), if_neg Bool.false_ne_true,
    run_bind (accept_miss (hFree "--" (by decide))), if_neg Bool.false_ne_true]
  rfl

/- An expression that is not a type in parentheses. -/
theorem read_cast (n : Nat) (hParen : atParenType (s.before ts) = .ok false (s.before ts)) :
    TranslationUnit.read (n + 2) .cast (s.before ts) =
      Expression.unary (TranslationUnit.read n) (s.before ts) := by
  change Expression.cast (TranslationUnit.read (n + 1)) _ = _
  unfold Expression.cast
  rw [run_bind hParen]
  rfl

/- An operand that starts with a parenthesis, a constant or a name. -/
theorem suffixed_eq (hParen : atParenType (s.before ts) = .ok false (s.before ts))
    (hPrimary : Expression.primary read (s.before ts) =
      .ok e (s.before (u :: rest))) (hStops : u.Free suffixWords) :
    Expression.suffixed read (s.before ts) = .ok e (s.before (u :: rest)) := by
  unfold Expression.suffixed
  rw [run_bind hParen, if_neg Bool.false_ne_true, run_bind hPrimary]
  exact iterate_suffix hStops

/- A constant or a name. -/
theorem read_leaf (n : Nat) (hKind : t.kind ≠ .punct) (hFree : t.Free reserved)
    (hAtom : Expression.atom t (s.before (t :: u :: rest)) =
      .ok e (s.before (u :: rest))) (hStops : u.Free suffixWords) :
    TranslationUnit.read (n + 2) .cast (s.before (t :: u :: rest)) =
      .ok e (s.before (u :: rest)) := by
  have hOpen : t.is "(" = false := hFree "(" (by decide)
  have hWords : ["sizeof", "_Alignof", "__alignof__", "_Generic",
      "__builtin_types_compatible_p", "__builtin_reg_class",
      "__builtin_compare_and_swap", "__builtin_atomic_exchange"] ⊆
      reserved := by decide
  have hForms (w : String) (hWord : w ∈ (Expression.keywordForms
        (TranslationUnit.read n)).map Prod.fst) :
      ¬ t.is w = true := by
    rw [hFree w (hWords hWord)]
    exact Bool.false_ne_true
  rw [read_cast n (atParenType_miss hOpen)]
  unfold Expression.unary
  rw [run_bind tok_before, if_pos (bne_iff_ne.mpr hKind)]
  apply suffixed_eq (atParenType_miss hOpen) _ hStops
  unfold Expression.primary
  rw [run_bind tok_before, hOpen, if_neg Bool.false_ne_true, List.find?_eq_none.mpr]
  · exact hAtom
  · rintro ⟨w, form⟩ hMem
    exact hForms w (List.mem_map_of_mem hMem)

/- The trees of constants and names. -/
theorem read_number (n : Nat) (hWritten : (Formula.number t).Written)
    (hStops : u.Free suffixWords) :
    ∃ e, Typable s (.number t) e ∧ TranslationUnit.read (n + 2) .cast (s.before (t :: u :: rest)) =
        .ok e (s.before (u :: rest)) := by
  rcases hWritten with ⟨hNum, hFree⟩
  rcases exists_value hNum with ⟨type, v, hKind⟩ | ⟨type, v, hKind⟩
  · refine ⟨_, typable_number hKind, read_leaf n ?_ hFree ?_ hStops⟩
    · simp [hKind]
    · unfold Expression.atom
      rw [hKind]
      exact run_bind advance_before
  · refine ⟨_, typable_fnumber hKind, read_leaf n ?_ hFree ?_ hStops⟩
    · simp [hKind]
    · unfold Expression.atom
      rw [hKind]
      exact run_bind advance_before

theorem read_name (n : Nat) (hWritten : (Formula.name t τ).Written) (hMeans : HasType s t τ)
    (hStops : u.Free suffixWords) :
    ∃ e, Typable s (.name t τ) e ∧ TranslationUnit.read (n + 2) .cast (s.before (t :: u :: rest)) =
        .ok e (s.before (u :: rest)) := by
  rcases hWritten with ⟨hKind, hFree⟩
  have hPunct : t.kind ≠ .punct := by simp [hKind]
  have hAtom : Expression.atom t = Expression.name t := by
    unfold Expression.atom
    rw [hKind]
  rcases hMeans with ⟨v, hBinding, hFunction, hArith⟩ | ⟨type, v, hBinding, rfl⟩
  · refine ⟨_, typable_object hArith t, read_leaf n hPunct hFree ?_ hStops⟩
    have hObject : object v (s.before (u :: rest)) =
        .ok (s.objects.entry v) (s.before (u :: rest)) := rfl
    have hNote : Expression.noteReference v (s.before (u :: rest)) =
        .ok () (s.before (u :: rest)) := by
      unfold Expression.noteReference
      rw [run_bind hObject, hFunction]
      rfl
    rw [hAtom, Expression.name, run_bind advance_before, run_bind (lookup?_before _), hBinding]
    exact run_bind hNote
  · refine ⟨_, typable_constant t v, read_leaf n hPunct hFree ?_ hStops⟩
    rw [hAtom, Expression.name, run_bind advance_before, run_bind (lookup?_before _), hBinding]
    rfl

/- An operator before an operand. -/
theorem unary_eq {op : Monadic} (hText : t.Punct op.text)
    (hOperand : read .cast (s.before (ts ++ u :: rest)) =
      .ok e (s.before (u :: rest))) (hTypable : Typable s a e) :
    ∃ e', Typable s (.unary op t a) e' ∧ Expression.unary read (s.before (t :: (ts ++ u :: rest))) =
        .ok e' (s.before (u :: rest)) := by
  have hIs := hText.spells.is_eq
  have hKind : ¬ (t.kind != .punct) = true := by simp [hText.1]
  unfold Expression.unary
  rw [run_bind tok_before, if_neg hKind]
  cases op with
  | plus =>
    refine ⟨e, hTypable.plus t, ?_⟩
    rw [if_pos (by rw [hIs]; decide), run_bind (advance_append ts)]
    exact hOperand
  | minus =>
    refine ⟨_, hTypable.minus t, ?_⟩
    rw [if_neg (by rw [hIs]; decide), if_pos (by rw [hIs]; decide),
      run_bind (advance_append ts), run_bind hOperand]
    rfl
  | not =>
    refine ⟨_, hTypable.not t, ?_⟩
    rw [if_neg (by rw [hIs]; decide), if_neg (by rw [hIs]; decide),
      if_neg (by rw [hIs]; decide), if_neg (by rw [hIs]; decide),
      if_pos (by rw [hIs]; decide), run_bind (advance_append ts),
      run_bind hOperand]
    rfl
  | complement =>
    refine ⟨_, hTypable.complement t, ?_⟩
    rw [if_neg (by rw [hIs]; decide), if_neg (by rw [hIs]; decide),
      if_neg (by rw [hIs]; decide), if_neg (by rw [hIs]; decide),
      if_neg (by rw [hIs]; decide), if_pos (by rw [hIs]; decide),
      run_bind (advance_append ts), run_bind hOperand]
    rfl

/- A formula in parentheses. -/
theorem unary_paren (hOpen : t.Punct "(") (hClose : c.Punct ")") (hFirst : Starts s u)
    (hInner : read .expr (s.before (u :: ts)) =
      .ok e (s.before (c :: v :: rest))) (hStops : v.Free suffixWords) :
    Expression.unary read (s.before (t :: u :: ts)) = .ok e (s.before (v :: rest)) := by
  have hIs := hOpen.spells.is_eq
  have hKind : ¬ (t.kind != .punct) = true := by simp [hOpen.1]
  have hBlock : u.is "\x7b" = false := hFirst.1 _ (by decide)
  have hParen : atParenType (s.before (t :: u :: ts)) = .ok false (s.before (t :: u :: ts)) :=
    (atParenType_open (by rw [hIs]; decide)).trans hFirst.isTypeName
  have hPrimary : Expression.primary read (s.before (t :: u :: ts)) =
      .ok e (s.before (v :: rest)) := by
    unfold Expression.primary
    rw [run_bind tok_before, if_pos (by rw [hIs]; decide),
      run_bind peekIs_before, hBlock, if_neg Bool.false_ne_true,
      run_bind advance_before, run_bind hInner,
      run_bind (expect_hit (by rw [hClose.spells.is_eq]; decide))]
    rfl
  unfold Expression.unary
  rw [run_bind tok_before, if_neg hKind]
  rw [if_neg (by rw [hIs]; decide), if_neg (by rw [hIs]; decide),
    if_neg (by rw [hIs]; decide), if_neg (by rw [hIs]; decide),
    if_neg (by rw [hIs]; decide), if_neg (by rw [hIs]; decide),
    if_neg (by rw [hIs]; decide), if_neg (by rw [hIs]; decide),
    if_neg (by rw [hIs]; decide)]
  exact suffixed_eq hParen hPrimary hStops

/- A conversion to a type in parentheses. -/
theorem read_conversion {type : CType} (n : Nat) (hOpen : t.Punct "(") (hClose : c.Punct ")")
    (hNames : NamesType s ws type) (hArith : type.arith? = some τ) (hLimit : ws.length ≤ s.limit)
    (hFirst : Starts s u)
    (hOperand : TranslationUnit.read (n + 3) .cast
      (s.before (u :: ts)) = .ok e (s.before rest)) (hTypable : Typable s a e) :
    ∃ e', Typable s (.cast t ws c τ a) e' ∧ TranslationUnit.read (n + 4) .cast
        (s.before (t :: (ws ++ c :: u :: ts))) = .ok e' (s.before rest) := by
  rcases hNames.exists_first with ⟨w, ws', hWords, hStart⟩
  rcases hTypable.newCast t ws c hArith rest with
    ⟨e', hCast, hTypable'⟩
  have hParen : atParenType (s.before (t :: (ws ++ c :: u :: ts))) =
      .ok true (s.before (t :: (ws ++ c :: u :: ts))) := by
    rw [hWords]
    exact (atParenType_open (by rw [hOpen.spells.is_eq]; decide)).trans (hStart _)
  have hAdvance : advance (s.before (t :: (ws ++ c :: u :: ts))) =
      .ok () (s.before (ws ++ c :: u :: ts)) := by
    rw [hWords]
    rfl
  refine ⟨_, hTypable', ?_⟩
  change Expression.cast (TranslationUnit.read (n + 3)) _ = _
  unfold Expression.cast
  rw [run_bind hParen, if_pos rfl, run_bind cursor_before, run_bind tok_before, run_bind hAdvance,
    run_bind (hNames.read_typeName hClose hLimit n),
    run_bind (expect_hit (by rw [hClose.spells.is_eq]; decide)),
    run_bind check_before, hFirst.1 "\x7b" (by decide),
    if_neg Bool.false_ne_true, run_bind hOperand, run_bind hCast]
  rfl

end Formula

------------
-- Operators between Operands
------------

namespace Formula

open Parse Specifier

variable {s : ParseState} {t u v : Token} {ts rest : List Token}
  {a l r : Formula} {e x y : Expr} {read : Reader} {k n : Nat}

/- The tree of an operator. -/
theorem binaryTree_eq (hText : t.Punct op.text) (hLeft : Typable s l x) (hRight : Typable s r y) :
    ∃ e, Typable s (.binary op t l r) e ∧ Expression.binaryTree t x y (s.before ts) =
        .ok e (s.before ts) := by
  have hIs := hText.spells.is_eq
  have hPlain := hLeft.binary hRight op t
  unfold Expression.binaryTree
  rcases hLeft.sum hRight t ts with
    ⟨⟨e, hAdd, hTypable⟩, ⟨e', hSub, hTypable'⟩⟩
  cases op
  case add => exact ⟨e, hTypable, by simpa +decide [hIs] using hAdd⟩
  case sub => exact ⟨e', hTypable', by simpa +decide [hIs, Dyadic.text] using hSub⟩
  all_goals
    refine ⟨_, hPlain, ?_⟩
    simp +decide only [hIs, Dyadic.text, if_true, if_false]
    rfl

/- One more operator and its right operand, or the end of them. -/
def climb (read : Reader) (least : Nat) (l : Expr) :
    Parse (Sum Expr Expr) := do
  let t ← tok
  let p := Expression.precedence t
  if p == 0 || p < least then return .inr l
  advance
  let r ← read (.binary (p + 1))
  return .inl (← Expression.binaryTree t l r)

variable {least : Nat}

/- The end of the operators that bind tightly enough. -/
theorem climb_end (hEnd : Expression.precedence u = 0 ∨ Expression.precedence u < least) :
    climb read least e (s.before (u :: rest)) = .ok (.inr e) (s.before (u :: rest)) := by
  have hLoose : (Expression.precedence u == 0 ||
      decide (Expression.precedence u < least)) = true := by
    rw [Bool.or_eq_true, beq_iff_eq, decide_eq_true_eq]
    exact hEnd
  unfold climb
  rw [run_bind tok_before]
  simp only [hLoose, if_true]
  rfl

theorem climb_stop (hStops : Stops (2 + least) u) :
    climb read least e (s.before (u :: rest)) = .ok (.inr e) (s.before (u :: rest)) := by
  apply climb_end
  by_cases hLess : Expression.precedence u < least
  · exact .inr hLess
  · exact .inl (hStops.binary (by omega))

theorem climb_next (hText : t.Punct op.text) (hLeast : least ≤ op.binding)
    (hOperand : read (.binary (op.binding + 1))
      (s.before (ts ++ u :: rest)) = .ok y (s.before (u :: rest)))
    (hTree : Expression.binaryTree t x y (s.before (u :: rest)) =
      .ok e (s.before (u :: rest))) :
    climb read least x (s.before (t :: (ts ++ u :: rest))) =
      .ok (.inl e) (s.before (u :: rest)) := by
  have hBinding : op.binding ≠ 0 := by cases op <;> decide
  have hMore : ¬ (op.binding == 0 || decide (op.binding < least)) =
      true := by
    rw [Bool.or_eq_true, beq_iff_eq, decide_eq_true_eq]
    omega
  unfold climb
  rw [run_bind tok_before]
  simp only [precedence_eq hText, hMore]
  rw [if_neg Bool.false_ne_true, run_bind (advance_append ts), run_bind hOperand, run_bind hTree]
  rfl

/-
  Formulas of at least a rank are read, given enough depth for
  their tokens.
-/
def Reads (s : ParseState) (a : Formula) (k : Nat) : Prop :=
  ∀ n u rest, 32 * a.tokens.length ≤ n + 2 + k → Stops k u →
    ∃ e, Typable s a e ∧ TranslationUnit.read n (phrase k)
        (s.before (a.tokens ++ u :: rest)) = .ok e (s.before (u :: rest))

/-
  The operators of a formula are met one after the other: the
  first operand is read, and some steps later the whole formula
  has been.
-/
def Climbs (s : ParseState) (a : Formula) : Prop :=
  ∀ n u rest, 32 * a.tokens.length ≤ n + 16 → Stops (a.rank + 1) u →
    ∃ x ts j e, j ≤ a.tokens.length ∧ Typable s a e ∧
      TranslationUnit.read n .cast
        (s.before (a.tokens ++ u :: rest)) = .ok x (s.before ts) ∧
      ∀ least m, 2 + least ≤ a.rank →
        repeatN (climb (TranslationUnit.read n) least) (m + j) x
            (s.before ts) = repeatN (climb (TranslationUnit.read n) least) m e
            (s.before (u :: rest))

theorem tokens_length_pos (a : Formula) : 0 < a.tokens.length := by cases a <;> simp [tokens]

/- Reading a looser phrase that consists of a tighter one. -/
theorem Reads.lower (hReads : Reads s a (k + 1)) (hLess : k < 3) : Reads s a k := by
  intro n u rest hFuel hStops
  have hPos := a.tokens_length_pos
  rcases Nat.exists_eq_add_of_lt (show 0 < n by omega) with ⟨m, rfl⟩
  rw [Nat.zero_add] at *
  rcases hReads m u rest (by omega) (hStops.mono (by omega)) with
    ⟨e, hTypable, hRead⟩
  refine ⟨e, hTypable, ?_⟩
  interval_cases k
  · change TranslationUnit.read m .assign _ = _ at hRead
    change Expression.expr (TranslationUnit.read m) _ = _
    unfold Expression.expr
    rw [run_bind hRead, run_bind tok_before, hStops.comma rfl]
    rfl
  · change TranslationUnit.read m .conditional _ = _ at hRead
    change Expression.assign (TranslationUnit.read m) _ = _
    unfold Expression.assign
    rcases hStops.assign le_rfl with ⟨hEquals, hCompound⟩
    rw [run_bind hRead, run_bind tok_before, hEquals]
    simp only [hCompound]
    split <;> rfl
  · change TranslationUnit.read m (.binary 1) _ = _ at hRead
    change Expression.conditional (TranslationUnit.read m) _ = _
    unfold Expression.conditional
    rw [run_bind hRead, run_bind tok_before, hStops.choice le_rfl]
    rfl

/- A formula is read when its operators have been met. -/
theorem Climbs.reads (hClimbs : Climbs s a) (hLimit : a.tokens.length ≤ s.limit) (hLow : 3 ≤ k)
    (hHigh : k ≤ 13) (hRank : k ≤ a.rank) : Reads s a k := by
  intro n u rest hFuel hStops
  have hPos := a.tokens_length_pos
  rcases Nat.exists_eq_add_of_lt (show 0 < n by omega) with ⟨m, rfl⟩
  rw [Nat.zero_add] at *
  rcases hClimbs m u rest (by omega) (hStops.mono (by omega)) with
    ⟨x, ts, j, e, hFew, hTypable, hFirst, hLoop⟩
  refine ⟨e, hTypable, ?_⟩
  rcases Nat.exists_eq_add_of_le hLow with ⟨p, rfl⟩
  have hPhrase : phrase (3 + p) = .binary (p + 1) := by
    rw [Nat.add_comm]
    exact if_pos (by omega)
  rw [hPhrase]
  change (TranslationUnit.read m .cast >>= fun first =>
    iterate first (climb (TranslationUnit.read m) (p + 1))) _ = _
  have hSteps : 2 * (s.before ts).limit + 8 = (2 * s.limit + 7 - j) + 1 + j := by
    change 2 * s.limit + 8 = _
    omega
  rw [run_bind hFirst, iterate_apply, hSteps, hLoop (p + 1) _ (by omega)]
  apply repeatN_one
  apply climb_stop
  exact hStops.mono (by omega)

/- An operand without operators beside it. -/
theorem Reads.climbs (hReads : Reads s a 14) : Climbs s a := by
  intro n u rest hFuel hStops
  rcases hReads n u rest hFuel (stops_tight hStops.suffix (by omega)) with ⟨e, hTypable, hRead⟩
  exact ⟨e, _, 0, e, by omega, hTypable, hRead, fun _ _ _ => rfl⟩

/- A formula is read as every phrase that its rank allows. -/
def Readable (s : ParseState) (a : Formula) : Prop :=
  (3 ≤ a.rank → Climbs s a) ∧ ∀ k ≤ a.rank, Reads s a k

theorem Reads.down (hReads : Reads s a k) (hLow : k ≤ 3) : ∀ m ≤ k, Reads s a m := by
  intro m hLess
  induction hLess using Nat.decreasingInduction with
  | self => exact hReads
  | of_succ i hLess ih => exact ih.lower (by omega)

theorem Climbs.readable (hClimbs : Climbs s a) (hLimit : a.tokens.length ≤ s.limit)
    (hLow : 3 ≤ a.rank) (hTop : 14 ≤ a.rank → Reads s a 14) (hHigh : a.rank ≤ 14) :
    Readable s a := by
  refine ⟨fun _ => hClimbs, ?_⟩
  intro k hRank
  by_cases hTight : k = 14
  · subst hTight
    exact hTop hRank
  by_cases hLoose : k < 3
  · exact (hClimbs.reads hLimit le_rfl (by omega) hLow).down le_rfl k (by omega)
  · exact hClimbs.reads hLimit (by omega) (by omega) hRank

/- An operand is read as every phrase. -/
theorem Reads.readable (hReads : Reads s a 14) (hLimit : a.tokens.length ≤ s.limit)
    (hRank : a.rank = 14) : Readable s a :=
  hReads.climbs.readable hLimit (by omega) (fun _ => hReads) (by omega)

/- An operator between two formulas. -/
theorem climbs_binary (hText : t.Punct op.text) (hLeftRank : 2 + op.binding ≤ l.rank)
    (hRightRank : 3 + op.binding ≤ r.rank) (hLeft : Readable s l) (hRight : Readable s r) :
    Climbs s (.binary op t l r) := by
  intro n u rest hFuel hStops
  have hBinding : 1 ≤ op.binding ∧ op.binding ≤ 10 := by cases op <;> decide
  simp only [tokens, List.length_append, List.length_cons] at hFuel ⊢
  simp only [rank] at hStops ⊢
  rcases hLeft.1 (by omega) n t (r.tokens ++ u :: rest) (by omega)
    ((stops_operator hText).mono (by omega)) with
    ⟨x, ts, j, y, hFew, hTypable, hRead, hLoop⟩
  rcases hRight.2 (3 + op.binding) hRightRank n u rest (by omega)
    (hStops.mono (by omega)) with ⟨z, hTypable', hRead'⟩
  have hPhrase : phrase (3 + op.binding) = .binary (op.binding + 1) := by
    rw [Nat.add_comm]
    exact if_pos (by omega)
  rw [hPhrase] at hRead'
  rcases binaryTree_eq hText hTypable hTypable' with
    ⟨e, hTypableE, hTree⟩
  refine ⟨x, ts, j + 1, e, by omega, hTypableE, ?_, ?_⟩
  · rw [List.append_assoc]
    exact hRead
  · intro least m hLeast
    have hStep : climb (TranslationUnit.read n) least y (s.before (t :: (r.tokens ++ u :: rest))) =
        .ok (.inl e) (s.before (u :: rest)) :=
      climb_next hText (by omega) hRead' hTree
    rw [show m + (j + 1) = (m + 1) + j by omega,
      hLoop least (m + 1) (by omega), repeatN_next m hStep]

variable {o : Token}

/- A formula in parentheses, behind an operator or converted. -/
theorem reads_paren (hOpen : o.Punct "(") (hClose : c.Punct ")") (hInner : Readable s a)
    (hFirst : ∃ v vs, a.tokens = v :: vs ∧ Starts s v) : Reads s (.paren o c a) 14 := by
  intro n u rest hFuel hStops
  simp only [tokens, List.length_cons, List.length_append, List.length_nil] at hFuel
  rcases Nat.exists_eq_add_of_le (show 2 ≤ n by omega) with ⟨m, rfl⟩
  rcases hInner.2 0 (by omega) m c (u :: rest) (by omega)
    (stops_closing hClose (by decide)) with ⟨e, hTypable, hRead⟩
  refine ⟨e, hTypable.paren o c, ?_⟩
  rcases hFirst with ⟨v, vs, hTokens, hStarts⟩
  have hParen : atParenType (s.before (o :: (a.tokens ++ c :: u :: rest)))
      = .ok false (s.before (o :: (a.tokens ++ c :: u :: rest))) := by
    rw [hTokens]
    exact (atParenType_open (by rw [hOpen.spells.is_eq]; decide)).trans hStarts.isTypeName
  have hTokens' : (Formula.paren o c a).tokens ++ u :: rest =
      o :: (a.tokens ++ c :: u :: rest) := by
    simp [tokens]
  rw [hTokens', Nat.add_comm 2 m]
  change TranslationUnit.read (m + 2) .cast _ = _
  rw [read_cast m hParen]
  rw [hTokens] at hRead ⊢
  exact unary_paren hOpen hClose hStarts hRead hStops.suffix

theorem reads_unary {op : Monadic} (hText : t.Punct op.text) (hRank : 14 ≤ a.rank)
    (hInner : Readable s a) : Reads s (.unary op t a) 14 := by
  intro n u rest hFuel hStops
  simp only [tokens, List.length_cons] at hFuel
  rcases Nat.exists_eq_add_of_le (show 2 ≤ n by omega) with ⟨m, rfl⟩
  rcases hInner.2 14 hRank m u rest (by omega) hStops with
    ⟨e, hTypable, hRead⟩
  change TranslationUnit.read m .cast _ = _ at hRead
  rcases unary_eq hText hRead hTypable with ⟨e', hTypable', hUnary⟩
  refine ⟨e', hTypable', ?_⟩
  have hParen : t.is "(" = false := by
    rw [hText.spells.is_eq]
    cases op <;> decide
  rw [Nat.add_comm 2 m]
  change TranslationUnit.read (m + 2) .cast _ = _
  rw [read_cast m]
  · exact hUnary
  · exact atParenType_miss hParen

theorem reads_conversion {type : CType} (hOpen : o.Punct "(") (hClose : c.Punct ")")
    (hNames : NamesType s ws type) (hArith : type.arith? = some τ) (hLimit : ws.length ≤ s.limit)
    (hRank : 14 ≤ a.rank) (hInner : Readable s a)
    (hFirst : ∃ v vs, a.tokens = v :: vs ∧ Starts s v) : Reads s (.cast o ws c τ a) 14 := by
  intro n u rest hFuel hStops
  simp only [tokens, List.length_cons, List.length_append] at hFuel
  rcases Nat.exists_eq_add_of_le (show 4 ≤ n by omega) with ⟨m, rfl⟩
  rcases hInner.2 14 hRank (m + 3) u rest (by omega) hStops with
    ⟨e, hTypable, hRead⟩
  change TranslationUnit.read (m + 3) .cast _ = _ at hRead
  rcases hFirst with ⟨v, vs, hTokens, hStarts⟩
  rw [hTokens] at hRead
  rcases read_conversion m hOpen hClose hNames hArith hLimit hStarts
    hRead hTypable with ⟨e', hTypable', hConversion⟩
  refine ⟨e', hTypable', ?_⟩
  have hTokens' : (Formula.cast o ws c τ a).tokens ++ u :: rest =
      o :: (ws ++ c :: v :: (vs ++ u :: rest)) := by
    simp [tokens, hTokens]
  rw [hTokens', Nat.add_comm 4 m]
  exact hConversion

/- A choice, and expressions beside an assignment or a comma. -/
theorem reads_cond {q : Token} {b d : Formula} (hQuestion : q.Punct "?") (hColon : c.Punct ":")
    (hTestRank : 3 ≤ b.rank) (hElseRank : 2 ≤ d.rank) (hTest : Readable s b)
    (hThen : Readable s a) (hElse : Readable s d)
    (hFirst : ∃ v vs, a.tokens = v :: vs ∧ Starts s v) : Reads s (.cond q c b a d) 2 := by
  intro n u rest hFuel hStops
  simp only [tokens, List.length_cons, List.length_append] at hFuel
  rcases Nat.exists_eq_add_of_le (show 1 ≤ n by omega) with ⟨m, rfl⟩
  rcases hTest.2 3 hTestRank m q (a.tokens ++ c :: (d.tokens ++ u :: rest)) (by omega)
    (stops_question hQuestion) with ⟨x, hTypable, hRead⟩
  rcases hThen.2 0 (by omega) m c (d.tokens ++ u :: rest) (by omega)
    (stops_closing hColon (by decide)) with ⟨y, hTypable', hRead'⟩
  rcases hElse.2 2 hElseRank m u rest (by omega) hStops with
    ⟨z, hTypable'', hRead''⟩
  refine ⟨_, hTypable.cond hTypable' hTypable'' q c, ?_⟩
  change TranslationUnit.read m (.binary 1) _ = _ at hRead
  change TranslationUnit.read m .expr _ = _ at hRead'
  change TranslationUnit.read m .conditional _ = _ at hRead''
  have hMiss : accept ":" (s.before (a.tokens ++ c :: (d.tokens ++ u :: rest))) =
      .ok false (s.before (a.tokens ++ c :: (d.tokens ++ u :: rest))) := by
    rcases hFirst with ⟨v, vs, hTokens, hStarts⟩
    rw [hTokens]
    exact accept_miss (hStarts.1 ":" (by decide))
  have hTokens : (Formula.cond q c b a d).tokens ++ u :: rest =
      b.tokens ++ q :: (a.tokens ++ c :: (d.tokens ++ u :: rest)) := by
    simp [tokens]
  rw [hTokens, Nat.add_comm 1 m]
  change Expression.conditional (TranslationUnit.read m) _ = _
  unfold Expression.conditional
  rw [run_bind hRead, run_bind tok_before, if_neg (by rw [hQuestion.spells.is_eq]; decide),
    run_bind (advance_append a.tokens), run_bind hMiss,
    if_neg Bool.false_ne_true, run_bind hRead', run_bind (expect_append d.tokens
      (by rw [hColon.spells.is_eq]; decide)), run_bind hRead'']
  rfl

theorem reads_assign (hText : t.Punct "=") (hLeftRank : 2 ≤ l.rank) (hRightRank : 1 ≤ r.rank)
    (hLeft : Readable s l) (hRight : Readable s r) : Reads s (.assign t l r) 1 := by
  intro n u rest hFuel hStops
  simp only [tokens, List.length_cons, List.length_append] at hFuel
  rcases Nat.exists_eq_add_of_le (show 1 ≤ n by omega) with ⟨m, rfl⟩
  rcases hLeft.2 2 hLeftRank m t (r.tokens ++ u :: rest) (by omega)
    (stops_equals hText) with ⟨x, hTypable, hRead⟩
  rcases hRight.2 1 hRightRank m u rest (by omega) hStops with
    ⟨y, hTypable', hRead'⟩
  refine ⟨_, hTypable.assign hTypable' t, ?_⟩
  change TranslationUnit.read m .conditional _ = _ at hRead
  change TranslationUnit.read m .assign _ = _ at hRead'
  have hKind : ¬ (t.kind != .punct) = true := by simp [hText.1]
  rw [tokens, List.append_assoc, Nat.add_comm 1 m]
  change Expression.assign (TranslationUnit.read m) _ = _
  unfold Expression.assign
  rw [List.cons_append, run_bind hRead, run_bind tok_before,
    if_neg hKind, if_pos (by rw [hText.spells.is_eq]; decide),
    run_bind (advance_append r.tokens), run_bind hRead']
  rfl

theorem reads_comma (hText : t.Punct ",") (hLeftRank : 1 ≤ l.rank) (hLeft : Readable s l)
    (hRight : Readable s r) : Reads s (.comma t l r) 0 := by
  intro n u rest hFuel hStops
  simp only [tokens, List.length_cons, List.length_append] at hFuel
  rcases Nat.exists_eq_add_of_le (show 1 ≤ n by omega) with ⟨m, rfl⟩
  rcases hLeft.2 1 hLeftRank m t (r.tokens ++ u :: rest) (by omega)
    (stops_comma hText) with ⟨x, hTypable, hRead⟩
  rcases hRight.2 0 (by omega) m u rest (by omega) hStops with
    ⟨y, hTypable', hRead'⟩
  refine ⟨_, hTypable.comma hTypable' t, ?_⟩
  change TranslationUnit.read m .assign _ = _ at hRead
  change TranslationUnit.read m .expr _ = _ at hRead'
  rw [tokens, List.append_assoc, Nat.add_comm 1 m]
  change Expression.expr (TranslationUnit.read m) _ = _
  unfold Expression.expr
  rw [List.cons_append, run_bind hRead, run_bind tok_before,
    if_pos (by rw [hText.spells.is_eq]; decide),
    run_bind (advance_append r.tokens), run_bind hRead']
  rfl

end Formula

------------
-- Whole Formulas
------------

namespace Formula

open Parse Specifier

variable {s : ParseState} {a : Formula}

/- Written formulas are read as the phrases that their rank allows. -/
theorem readable (hWritten : a.Written) (hMeans : a.Means s) (hLimit : a.tokens.length ≤ s.limit) :
    Readable s a := by
  induction a with
  | number t =>
    refine Reads.readable ?_ hLimit rfl
    intro n u rest hFuel hStops
    change 32 * 1 ≤ _ at hFuel
    rcases Nat.exists_eq_add_of_le (show 2 ≤ n by omega) with ⟨m, rfl⟩
    rw [Nat.add_comm 2 m]
    exact read_number m hWritten hStops.suffix
  | name t τ =>
    refine Reads.readable ?_ hLimit rfl
    intro n u rest hFuel hStops
    change 32 * 1 ≤ _ at hFuel
    rcases Nat.exists_eq_add_of_le (show 2 ≤ n by omega) with ⟨m, rfl⟩
    rw [Nat.add_comm 2 m]
    exact read_name m hWritten hMeans hStops.suffix
  | paren o c a ih =>
    rcases hWritten with ⟨hOpen, hClose, hInner⟩
    have hTokens := hLimit
    simp only [tokens, List.length_cons, List.length_append] at hTokens
    refine Reads.readable ?_ hLimit rfl
    exact reads_paren hOpen hClose (ih hInner hMeans (by omega)) (exists_first hInner hMeans)
  | unary op t a ih =>
    rcases hWritten with ⟨hText, hRank, hInner⟩
    simp only [tokens, List.length_cons] at hLimit
    refine Reads.readable ?_ hLimit rfl
    exact reads_unary hText hRank (ih hInner hMeans (by omega))
  | cast o ws c τ a ih =>
    rcases hWritten with ⟨hOpen, hClose, hRank, hInner⟩
    rcases hMeans with ⟨⟨type, hNames, hArith⟩, hMeans⟩
    have hTokens := hLimit
    simp only [tokens, List.length_cons, List.length_append] at hTokens
    refine Reads.readable ?_ hLimit rfl
    exact reads_conversion hOpen hClose hNames hArith (by omega) hRank
      (ih hInner hMeans (by omega)) (exists_first hInner hMeans)
  | binary op t l r ihl ihr =>
    rcases hWritten with ⟨hText, hLeftRank, hRightRank, hLeft, hRight⟩
    have hTokens := hLimit
    simp only [tokens, List.length_cons, List.length_append] at hTokens
    have hBinding : 1 ≤ op.binding ∧ op.binding ≤ 10 := by cases op <;> decide
    have hRank : (Formula.binary op t l r).rank = 2 + op.binding := rfl
    have hClimbs := climbs_binary hText hLeftRank hRightRank
      (ihl hLeft hMeans.1 (by omega)) (ihr hRight hMeans.2 (by omega))
    exact hClimbs.readable hLimit (by omega) (by omega) (by omega)
  | cond q c b t e ihb iht ihe =>
    rcases hWritten with ⟨hQuestion, hColon, hTestRank, hElseRank, hTest, hThen, hElse⟩
    rcases hMeans with ⟨hMeansB, hMeansT, hMeansE⟩
    simp only [tokens, List.length_cons, List.length_append] at hLimit
    have hReads := reads_cond hQuestion hColon hTestRank hElseRank
      (ihb hTest hMeansB (by omega)) (iht hThen hMeansT (by omega))
      (ihe hElse hMeansE (by omega)) (exists_first hThen hMeansT)
    exact ⟨fun hRank => absurd hRank (by simp [rank]), hReads.down (by omega)⟩
  | comma t l r ihl ihr =>
    rcases hWritten with ⟨hText, hLeftRank, hLeft, hRight⟩
    simp only [tokens, List.length_cons, List.length_append] at hLimit
    have hReads := reads_comma hText hLeftRank
      (ihl hLeft hMeans.1 (by omega)) (ihr hRight hMeans.2 (by omega))
    exact ⟨fun hRank => absurd hRank (by simp [rank]), hReads.down (by omega)⟩
  | assign t l r ihl ihr =>
    rcases hWritten with ⟨hText, hLeftRank, hRightRank, hLeft, hRight⟩
    simp only [tokens, List.length_cons, List.length_append] at hLimit
    have hReads := reads_assign hText hLeftRank hRightRank
      (ihl hLeft hMeans.1 (by omega)) (ihr hRight hMeans.2 (by omega))
    exact ⟨fun hRank => absurd hRank (by simp [rank]), hReads.down (by omega)⟩

/-
  A written formula is read whole, and every part of its tree
  gets the type that the formula is given.  These are the types
  of C just if no operator needs a promotion that is left out.
-/
theorem read_types {n : Nat} {u : Token} (hWritten : a.Written) (hMeans : a.Means s)
    (hLimit : a.tokens.length ≤ s.limit) (hDepth : 32 * a.tokens.length ≤ n) (hStops : Stops 0 u)
    (rest : List Token) :
    (∃ e e', TranslationUnit.read n .expr (s.before (a.tokens ++ u :: rest)) =
        .ok e (s.before (u :: rest)) ∧ Typing.addType e (s.before (u :: rest)) =
        .ok e' (s.before (u :: rest)) ∧ Carries given a e' ∧
      ((∀ b ∈ a.parts, b.Regular) → Carries type a e')) ∧
    ((∀ b ∈ a.parts, b.given = b.type) ↔ ∀ b ∈ a.parts, b.Regular) := by
  refine ⟨?_, given_eq_type_iff a⟩
  rcases (readable hWritten hMeans hLimit).2 0 (Nat.zero_le _) n u rest
    (by omega) hStops with ⟨e, ⟨e', hCarries, hAdd, -⟩, hRead⟩
  refine ⟨e, e', hRead, hAdd (u :: rest), hCarries, ?_⟩
  intro hRegular
  exact hCarries.congr ((given_eq_type_iff a).mpr hRegular)

/- A token for examples. -/
def sample (kind : TokenKind) (text : String) : Token :=
  { (default : Token) with kind := kind, text := ascii text }

/- A sign for examples. -/
def sign (text : String) : Token := sample .punct text

/- A state in which `c` is an unsigned char and `d` a double. -/
def sampleState : ParseState :=
  { toks := []
    limit := 32
    scopes := [{ vars := [(ascii "c", .object 0), (ascii "d", .object 1)] }]
    objects := #[{ name := ascii "c", type := .uchar, align := 1 },
      { name := ascii "d", type := .double, align := 8 }] }

/- The variables of this state. -/
def sampleChar : Formula :=
  .name (sample .ident "c") (.integer (.of .char true))

def sampleDouble : Formula :=
  .name (sample .ident "d") (.floating .double)

/- An integer for examples. -/
def sampleNumber (v : Int64) (text : String) : Formula :=
  .number (sample (.int .int v) text)

/- (long)-c * 3 > d ? ~1 << c : d, c -/
def sampleFormula : Formula :=
  .comma (sign ",")
    (.cond (sign "?") (sign ":") (.binary .gt (sign ">")
        (.binary .mul (sign "*")
          (.cast (sign "(") [sample .keyword "long"] (sign ")")
            (.integer (.of .long false)) (.unary .minus (sign "-") sampleChar))
          (sampleNumber 3 "3")) sampleDouble) (.binary .shl (sign "<<")
        (.unary .complement (sign "~") (sampleNumber 1 "1")) sampleChar)
      sampleDouble)
    sampleChar

theorem sampleFormula_means : sampleFormula.Means sampleState := by
  have hChar : sampleChar.Means sampleState := .inl ⟨0, rfl, rfl, rfl⟩
  have hDouble : sampleDouble.Means sampleState := .inl ⟨1, rfl, rfl, rfl⟩
  have hLong : NamesType sampleState [sample .keyword "long"] .long :=
    .inl ⟨by decide, by decide, { long := 1 }, by decide, rfl⟩
  exact ⟨⟨⟨⟨⟨⟨.long, hLong, rfl⟩, hChar⟩, trivial⟩, hDouble⟩, ⟨trivial, hChar⟩, hDouble⟩, hChar⟩

/- The parts of this formula get their types in C. -/
theorem read_types_mixed :
    ∃ e e', TranslationUnit.read 1024 .expr
          (sampleState.before (sampleFormula.tokens ++ [sign ";"])) =
        .ok e (sampleState.before [sign ";"]) ∧
      Typing.addType e (sampleState.before [sign ";"]) = .ok e' (sampleState.before [sign ";"]) ∧
      Carries type sampleFormula e' := by
  have hStops : Stops 0 (sign ";") := stops_closing (w := ";") ⟨rfl, rfl⟩ (by decide)
  have hDepth : 32 * sampleFormula.tokens.length ≤ 1024 := by decide
  rcases (read_types (by decide) sampleFormula_means (by decide) hDepth
    hStops []).1 with ⟨e, e', hRead, hAdd, -, hTypes⟩
  exact ⟨e, e', hRead, hAdd, hTypes (by decide)⟩

/-
  Behind `+` and `~` and to the left of a shift an operand keeps
  a type that C promotes, and so does an enumeration to the left
  of an `int`.
-/
theorem promotions_left_out :
    (∀ op ∈ [Monadic.plus, .complement],
      let a : Formula := .unary op (sign op.text) sampleChar
      a.Written ∧ a.given = .integer (.of .char true) ∧ a.type = .int) ∧
    Constant.wordOf? "sizeof(+(char)1)" = some 1 ∧
    Constant.wordOf? "sizeof(~(char)1)" = some 1 ∧
    Constant.wordOf? "sizeof((char)1 << 1)" = some 1 ∧
    Constant.wordOf? "sizeof(-(char)1)" = some 4 ∧ Constant.wordOf?
      "_Generic((enum \x7b A \x7d)0 + 0, int: 4, default: 1)" = some 1 := by
  refine ⟨by decide, ?_⟩
  decide +kernel

end Formula

end CCompiler
