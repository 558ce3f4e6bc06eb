import Mathlib
import CCompiler.Proofs.Syntax.ConstantBounds
import CCompiler.Proofs.Syntax.FormulaReading

/-
  Declarators as trees, the types that they denote, and how they
  are read.

  A declarator is read from its name outwards: what stands
  beside a part says what the type around that part is made of.
  Two arrays that are written apart have types of their own, so
  types are compared without the numbers that tell these apart.
  What stands in parentheses is read twice, and each time new
  array types are made; nothing else of the state changes.  The
  type of a declarator is therefore found in any state that has
  grown by such types.

  Main declarations:
    * `CType.bare`, `CType.adjusted`
    * `Shape`, `Suffix`, `Params`, `Shape.denote`
    * `ParseState.Grown`, `Parse.Moves`
    * `Shape.Written`
    * `Shape.declarator_denotes`
-/

variable {n : Nat}

------------
-- Types without Numbers
------------

namespace CCompiler

namespace CType

mutual

/- A type without the numbers of the arrays in it. -/
def bare : CType → CType
| .ptr b => .ptr b.bare
| .func r ps names v => .func r.bare (bareList ps) names v
| .array _ b n s a => .array 0 b.bare n s a
| .vla _ b => .vla 0 b.bare
| .atomic t => .atomic t.bare
| .void => .void
| .bool => .bool
| .integer k u => .integer k u
| .floating k => .floating k
| .enum id => .enum id
| .record id => .record id

/- Types without the numbers of the arrays in them. -/
def bareList : List CType → List CType
| [] => []
| t :: ts => t.bare :: bareList ts

end

theorem bareList_eq_map (ts : List CType) : bareList ts = ts.map bare := by
  induction ts with
  | nil => rfl
  | cons t ts ih => rw [bareList, ih, List.map_cons]

theorem plain_bare (t : CType) : t.bare.plain = t.plain.bare := by
  fun_induction plain t with
  | case1 t ih => exact ih
  | case2 t hPlain => cases t <;> first | rfl | exact absurd rfl (hPlain _)

theorem size_bare (rs : Records) (t : CType) : t.bare.size rs = t.size rs := by
  unfold size
  rw [plain_bare]
  cases t.plain <;> rfl

theorem align_bare (rs : Records) (t : CType) : t.bare.align rs = t.align rs := by
  unfold align
  rw [plain_bare]
  cases t.plain <;> rfl

theorem isVla_bare (t : CType) : t.bare.isVla = t.isVla := by
  unfold isVla
  rw [plain_bare]
  cases t.plain <;> rfl

theorem isRecord_bare (t : CType) : t.bare.isRecord = t.isRecord := by
  unfold isRecord
  rw [plain_bare]
  cases t.plain <;> rfl

theorem bare_arrayOf (rs : Records) (id : Nat) (t : CType) (n : Int) :
    (arrayOf rs id t n).bare = arrayOf rs 0 t.bare n := by
  unfold arrayOf
  rw [size_bare, align_bare, bare]

/- The type of a parameter: arrays and functions become pointers. -/
def adjusted (t : CType) : CType :=
  match t.plain with
  | .array _ base _ _ _ => .ptr base
  | .func _ _ _ _ => .ptr t
  | _ => t

theorem bare_adjusted (t : CType) : t.adjusted.bare = t.bare.adjusted := by
  unfold adjusted
  rw [plain_bare]
  cases t.plain <;> rfl

/- An array of a length; that of arrays found at run time is found there too. -/
def arrayOver (rs : Records) (t : CType) (n : Int) : CType :=
  if t.isVla then .vla 0 t else arrayOf rs 0 t n

end CType

------------
-- Declarators
------------

mutual

/- A declarator with the tokens that spell it. -/
inductive Shape
| name (t : Token)
| pointer (star : Token) (d : Shape)
| paren (opening : Token) (d : Shape) (closing : Token)
| suffixed (d : Shape) (x : Suffix)

/- What stands behind a declarator; a length comes with its value. -/
inductive Suffix
| array (opening : Token) (bound? : Option (Formula × Int)) (closing : Token)
| function (opening : Token) (ps : Params) (closing : Token)

/- The parameters of a function; the words before each come with their type. -/
inductive Params
| unlisted
| void (t : Token)
| last (words : List Token) (type : CType) (d : Shape)
| dots (words : List Token) (type : CType) (d : Shape) (comma ellipsis : Token)
| more (words : List Token) (type : CType) (d : Shape) (comma : Token) (ps : Params)

end

mutual

/- The tokens of a declarator. -/
def Shape.tokens : Shape → List Token
| .name t => [t]
| .pointer star d => star :: d.tokens
| .paren o d c => o :: (d.tokens ++ [c])
| .suffixed d x => d.tokens ++ x.tokens

def Suffix.tokens : Suffix → List Token
| .array o none c => [o, c]
| .array o (some (b, _)) c => o :: (b.tokens ++ [c])
| .function o ps c => o :: (ps.tokens ++ [c])

def Params.tokens : Params → List Token
| .unlisted => []
| .void t => [t]
| .last ws _ d => ws ++ d.tokens
| .dots ws _ d comma ellipsis => ws ++ (d.tokens ++ [comma, ellipsis])
| .more ws _ d comma ps => ws ++ (d.tokens ++ comma :: ps.tokens)

end

/- The name that a declarator declares. -/
def Shape.ident : Shape → Token
| .name t => t
| .pointer _ d | .paren _ d _ | .suffixed d _ => d.ident

mutual

/-
  The type that a declarator gives its name: a part with something
  beside it stands for what that makes of the type.
-/
def Shape.denote (rs : Records) : Shape → CType → CType
| .name _, t => t
| .pointer _ d, t => d.denote rs (.ptr t)
| .paren _ d _, t => d.denote rs t
| .suffixed d x, t => d.denote rs (x.denote rs t)

/- The array or function type with given elements or results. -/
def Suffix.denote (rs : Records) : Suffix → CType → CType
| .array _ none _, t => CType.arrayOf rs 0 t (-1)
| .array _ (some (_, n)) _, t => CType.arrayOver rs t n
| .function _ ps _, t => .func t (ps.types rs) ps.names ps.variadic

/- The types of parameters. -/
def Params.types (rs : Records) : Params → List CType
| .unlisted | .void _ => []
| .last _ t d | .dots _ t d _ _ => [(d.denote rs t).adjusted]
| .more _ t d _ ps => (d.denote rs t).adjusted :: ps.types rs

/- Their names. -/
def Params.names : Params → List ParamName
| .unlisted | .void _ => []
| .last _ _ d | .dots _ _ d _ _ => [⟨some d.ident, d.ident⟩]
| .more _ _ d _ ps => ⟨some d.ident, d.ident⟩ :: ps.names

/- Whether more arguments may follow; an empty list says nothing about them. -/
def Params.variadic : Params → Bool
| .unlisted | .dots _ _ _ _ _ => true
| .void _ | .last _ _ _ => false
| .more _ _ _ _ ps => ps.variadic

end

------------
-- Steps that make Types
------------

/- A state with other array types made since. -/
def ParseState.Grown (s s' : ParseState) : Prop :=
  ∃ k v, s' = { s with nextType := k, vlas := v }

namespace Parse

open ParseState (Grown)

variable {α β : Type} {s : ParseState} {ts us vs : List Token}

/-
  A step takes every state that has grown from a given one from
  some tokens to come to others, with a result as described.
-/
def Moves (s : ParseState) (p : Parse α) (ts us : List Token)
    (Q : α → Prop) : Prop :=
  ∀ s', s.Grown s' → ∃ a s'', s.Grown s'' ∧
    p (s'.before ts) = .ok a (s''.before us) ∧ Q a

variable {Q : α → Prop} {a : α}

theorem moves_pure (hResult : Q a) : Moves s (pure a) ts ts Q := by
  intro s' hGrown
  exact ⟨a, s', hGrown, rfl, hResult⟩

variable {p : Parse α} {f : α → Parse β} {R : β → Prop}

theorem Moves.bind (hFirst : Moves s p ts us Q) (hNext : ∀ a, Q a → Moves s (f a) us vs R) :
    Moves s (p >>= f) ts vs R := by
  intro s₀ hGrown₀
  rcases hFirst s₀ hGrown₀ with ⟨a, s₁, hGrown₁, hRun, hResult⟩
  rcases hNext a hResult s₁ hGrown₁ with ⟨b, s₂, hGrown₂, hRun', hOut⟩
  exact ⟨b, s₂, hGrown₂, (run_bind hRun).trans hRun', hOut⟩

/- A step that makes no type comes first. -/
theorem moves_step (hRun : ∀ s' : ParseState, p (s'.before ts) = .ok a (s'.before us))
    (hNext : Moves s (f a) us vs R) : Moves s (p >>= f) ts vs R := by
  intro s' hGrown
  rcases hNext s' hGrown with ⟨b, s'', hGrown', hRun', hOut⟩
  exact ⟨b, s'', hGrown', (run_bind (hRun s')).trans hRun', hOut⟩

/- A description may be weakened. -/
theorem Moves.mono {R : α → Prop} (hMoves : Moves s p ts us Q) (hWeaker : ∀ a, Q a → R a) :
    Moves s p ts us R := by
  intro s' hGrown
  rcases hMoves s' hGrown with ⟨a, s'', hGrown', hRun, hResult⟩
  exact ⟨a, s'', hGrown', hRun, hWeaker a hResult⟩

variable {σ : Type}

variable {step : σ → Parse (Sum σ β)} {x : σ}

/- A loop that is run as often as there are tokens. -/
theorem moves_iterate {γ : Type} {f : β → Parse γ} {R : γ → Prop}
    (hLoop : Moves s (repeatN step (2 * s.limit + 8) x >>= f) ts us R) :
    Moves s (iterate x step >>= f) ts us R := by
  rintro s' ⟨k, v, rfl⟩
  rcases hLoop _ ⟨k, v, rfl⟩ with ⟨a, s'', hGrown, hRun, hResult⟩
  refine ⟨a, s'', hGrown, ?_, hResult⟩
  rw [bind_apply] at hRun ⊢
  rw [iterate_apply]
  exact hRun

/- One round of a loop. -/
theorem moves_next {Q : σ → Prop} (hStep : Moves s (step x) ts us fun r => ∃ y, r = .inl y ∧ Q y)
    (hNext : ∀ y, Q y → Moves s (repeatN step n y) us vs R) :
    Moves s (repeatN step (n + 1) x) ts vs R := by
  rw [repeatN]
  apply hStep.bind
  rintro r ⟨y, rfl, hY⟩
  exact hNext y hY

theorem moves_last (hStep : Moves s (step x) ts us fun r => ∃ b, r = .inr b ∧ R b) :
    Moves s (repeatN step (n + 1) x) ts us R := by
  rw [repeatN]
  apply hStep.bind
  rintro r ⟨b, rfl, hResult⟩
  exact moves_pure hResult

theorem moves_arrayOf (t : CType) (n : Int) :
    Moves s (arrayOf t n) ts ts fun t' =>
      t'.bare = CType.arrayOf s.records 0 t.bare n := by
  rintro s' ⟨k, v, rfl⟩
  refine ⟨CType.arrayOf s.records k t n,
    { s with nextType := k + 1, vlas := v }, ⟨k + 1, v, rfl⟩, rfl, ?_⟩
  exact CType.bare_arrayOf s.records k t n

theorem moves_vlaOf (t : CType) (e : Expr) :
    Moves s (vlaOf t e) ts ts fun t' => t'.bare = .vla 0 t.bare := by
  rintro s' ⟨k, v, rfl⟩
  exact ⟨.vla v.size t, { s with nextType := k, vlas := v.push { len := e } },
    ⟨k, v.push { len := e }, rfl⟩, rfl, rfl⟩

end Parse

namespace Formula

/- Lengths do not depend on the types made so far. -/
theorem Means.grown {s s' : ParseState} {a : Formula} (hMeans : a.Means s) (hGrown : s.Grown s') :
    a.Means s' := by
  rcases hGrown with ⟨k, v, rfl⟩
  induction a with
  | number t => trivial
  | name t τ => exact hMeans
  | paren o c a ih | unary op t a ih => exact ih hMeans
  | cast o ws c τ a ih => exact ⟨hMeans.1, ih hMeans.2⟩
  | binary op t l r ihl ihr | comma t l r ihl ihr
  | assign t l r ihl ihr => exact ⟨ihl hMeans.1, ihr hMeans.2⟩
  | cond q c b t e ihb iht ihe => exact ⟨ihb hMeans.1, iht hMeans.2.1, ihe hMeans.2.2⟩

theorem Bounds.grown {s s' : ParseState} {a : Formula} {n : Int} (hBounds : Bounds s a n)
    (hGrown : s.Grown s') : Bounds s' a n := { hBounds with means := hBounds.means.grown hGrown }

end Formula

------------
-- Written Declarators
------------

/- Whether a suffix makes a function. -/
def Suffix.isFunction : Suffix → Bool
| .array _ _ _ => false
| .function _ _ _ => true

/-
  Whether a suffix may follow: none belongs to a pointer, and
  none is read behind the parameters of a function.
-/
def Shape.continues : Shape → Bool
| .name _ | .paren _ _ _ => true
| .pointer _ _ => false
| .suffixed _ x => !x.isFunction

/- Whether there is a parameter. -/
def Params.isListed : Params → Bool
| .unlisted | .void _ => false
| .last _ _ _ | .dots _ _ _ _ _ | .more _ _ _ _ _ => true

mutual

/- The tokens of a declarator spell it. -/
def Shape.Written (s : ParseState) : Shape → Prop
| .name t => t.kind = .ident ∧ t.Free reserved
| .pointer star d => star.Punct "*" ∧ d.Written s
| .paren o d c => o.Punct "(" ∧ c.Punct ")" ∧ d.Written s
| .suffixed d x => d.continues = true ∧ d.Written s ∧ x.Written s

def Suffix.Written (s : ParseState) : Suffix → Prop
| .array o none c => o.Punct "[" ∧ c.Punct "]"
| .array o (some (b, n)) c => o.Punct "[" ∧ c.Punct "]" ∧ b.Bounds s n
| .function o ps c => o.Punct "(" ∧ c.Punct ")" ∧ ps.Written s

def Params.Written (s : ParseState) : Params → Prop
| .unlisted => True
| .void t => t.Spells "void"
| .last ws type d => BuiltinType ws type ∧ d.Written s
| .dots ws type d comma ellipsis =>
  BuiltinType ws type ∧ d.Written s ∧ comma.Punct "," ∧ ellipsis.Punct "..."
| .more ws type d comma ps =>
  BuiltinType ws type ∧ d.Written s ∧ comma.Punct "," ∧
    ps.isListed = true ∧ ps.Written s

end

/- What a declarator does not start with. -/
def declaratorStops : List String :=
  Specifier.typeWords ++ Specifier.attributeWords ++ [")", ",", "..."]

/- The first token of a declarator. -/
theorem Shape.exists_first {s : ParseState} :
    ∀ d : Shape, d.Written s → ∃ t ts, d.tokens = t :: ts ∧ t.Free declaratorStops
| .name t, hWritten => ⟨t, [], rfl, hWritten.2.mono (by decide)⟩
| .pointer star d, hWritten => by
    refine ⟨star, d.tokens, rfl, ?_⟩
    unfold Token.Free
    simp only [hWritten.1.spells.is_eq]
    decide
| .paren o d c, hWritten => by
    refine ⟨o, d.tokens ++ [c], rfl, ?_⟩
    unfold Token.Free
    simp only [hWritten.1.spells.is_eq]
    decide
| .suffixed d x, hWritten => by
    rcases d.exists_first hWritten.2.1 with ⟨t, ts, hTokens, hFree⟩
    exact ⟨t, ts ++ x.tokens, by rw [tokens, hTokens]; rfl, hFree⟩

/- What an optional type is by either of two ways to it. -/
theorem CType.forall_ite {P : CType → Prop} {c : Prop} [Decidable c] {x y : Option CType}
    (hThen : ∀ t, x = some t → P t) (hElse : ∀ t, y = some t → P t) :
    ∀ t, (if c then x else y) = some t → P t := by split <;> assumption

/- A builtin type has no arrays in it and is no record. -/
theorem BuiltinType.plain_type {ws : List Token} {t : CType} (hBuiltin : BuiltinType ws t) :
    t.bare = t ∧ t.isRecord = false := by
  rcases hBuiltin.type with ⟨w, -, hType⟩
  have hNone : ∀ t : CType, none = some t → t.bare = t ∧ t.isRecord = false := nofun
  have hInteger : ∀ k t, w.integer? k = some t → t.bare = t ∧ t.isRecord = false := by
    intro k
    unfold TypeWords.integer?
    refine CType.forall_ite hNone ?_
    rintro t ⟨⟩
    exact ⟨rfl, rfl⟩
  have hNumber : ∀ u : CType, u.bare = u ∧ u.isRecord = false →
      ∀ t, some u = some t → t.bare = t ∧ t.isRecord = false := by
    rintro u hPlain t ⟨⟩
    exact hPlain
  unfold TypeWords.type? at hType
  exact CType.forall_ite (hNumber .void ⟨rfl, rfl⟩) (CType.forall_ite (hNumber .bool ⟨rfl, rfl⟩)
      (CType.forall_ite (hInteger .char) (CType.forall_ite (hInteger .short)
          (CType.forall_ite (hInteger .int) (CType.forall_ite (hInteger .long)
              (CType.forall_ite (hNumber .float ⟨rfl, rfl⟩)
                (CType.forall_ite (hNumber .double ⟨rfl, rfl⟩) (CType.forall_ite
                    (hNumber .ldouble ⟨rfl, rfl⟩) hNone)))))))) t hType

/- What a declarator makes of a type that is no record is none. -/
theorem Shape.isRecord_denote {rs : Records} :
    ∀ (d : Shape) {t : CType}, t.isRecord = false → (d.denote rs t).isRecord = false
| .name _, t, hRecord => hRecord
| .pointer _ d, t, _ => d.isRecord_denote rfl
| .paren _ d _, t, hRecord => d.isRecord_denote hRecord
| .suffixed d x, t, _ => by
    apply d.isRecord_denote
    rcases x with ⟨_, _ | ⟨b, n⟩, _⟩ | ⟨_, ps, _⟩
    · rfl
    · rw [Suffix.denote, CType.arrayOver]
      split <;> rfl
    · rfl

------------
-- Suffixes
------------

open Parse TranslationUnit

variable {s : ParseState} {ts : List Token} {f : CType → CType}
  {o c : Token}

/- A token that continues no declarator. -/
def Ends (u : Token) : Prop :=
  u.is "(" = false ∧ u.is "[" = false

theorem ends_punct {u : Token} {w : String} (hText : u.Punct w)
    (hWord : (ascii w == ascii "(") = false ∧ (ascii w == ascii "[") = false) : Ends u := by
  unfold Ends
  rw [hText.spells.is_eq, hText.spells.is_eq]
  exact hWord

/- Tokens behind a declarator that make of a type what `f` says. -/
def Suffixes (s : ParseState) (ts : List Token)
    (f : CType → CType) : Prop :=
  ∀ n base u rest, 32 * ts.length + 4 ≤ n → Ends u →
    Moves s (read n (.typeSuffix base)) (ts ++ u :: rest) (u :: rest)
      fun t => t.bare = f base.bare

theorem suffixes_nil : Suffixes s [] id := by
  intro n base u rest hFuel hEnds
  rcases Nat.exists_eq_add_of_le' (show 1 ≤ n by omega) with ⟨m, rfl⟩
  change Moves s (Declarator.typeSuffix (read m) base) _ _ _
  unfold Declarator.typeSuffix
  apply moves_step fun _ => accept_miss hEnds.1
  rw [if_neg Bool.false_ne_true]
  apply moves_step fun _ => accept_miss hEnds.2
  rw [if_neg Bool.false_ne_true]
  exact moves_pure rfl

/- Behind a bracket the length of an array is read. -/
theorem suffixes_bracket {us : List Token} (hOpen : o.Punct "[")
    (hLength : ∀ n base u rest, 32 * us.length + 35 ≤ n → Ends u →
      Moves s (Declarator.arrayLength (read n) base)
        (us ++ u :: rest) (u :: rest) fun t => t.bare = f base.bare) : Suffixes s (o :: us) f := by
  intro n base u rest hFuel hEnds
  rw [List.length_cons] at hFuel
  rcases Nat.exists_eq_add_of_le' (show 1 ≤ n by omega) with ⟨m, rfl⟩
  change Moves s (Declarator.typeSuffix (read m) base) _ _ _
  unfold Declarator.typeSuffix
  apply moves_step fun _ => accept_miss (by
    rw [hOpen.spells.is_eq]
    decide)
  rw [if_neg Bool.false_ne_true]
  apply moves_step fun _ => accept_append us (by
    rw [hOpen.spells.is_eq]
    decide)
  rw [if_pos rfl]
  exact hLength m base u rest (by omega) hEnds

/- No qualifier stands before the length. -/
theorem qualifiers_none {t : Token} (hFree : t.Free ["static", "restrict", "const"])
    (s' : ParseState) :
    iterate () (fun _ => do
      if ← checkAny ["static", "restrict", "const"] then
        advance
        return Sum.inl ()
      else return Sum.inr ()) (s'.before (t :: ts)) =
      .ok () (s'.before (t :: ts)) := by
  apply iterate_one
  rw [run_bind (checkAny_before _), hFree.any]
  rfl

/- An array without a length. -/
theorem suffixes_open (hOpen : o.Punct "[") (hClose : c.Punct "]") (hRest : Suffixes s ts f) :
    Suffixes s (o :: c :: ts) fun t => CType.arrayOf s.records 0 (f t) (-1) := by
  apply suffixes_bracket hOpen
  intro n base u rest hFuel hEnds
  rw [List.length_cons] at hFuel
  have hIs := hClose.spells.is_eq
  have hFree : c.Free ["static", "restrict", "const"] := by
    unfold Token.Free
    simp only [hIs]
    decide
  unfold Declarator.arrayLength
  apply moves_step (qualifiers_none hFree)
  apply moves_step fun _ => accept_append ts (by rw [hIs]; decide)
  rw [if_pos rfl]
  apply (hRest n base u rest (by omega) hEnds).bind
  intro t hBare
  rw [← hBare]
  exact moves_arrayOf t (-1)

/- An array with a length. -/
theorem suffixes_bound {b : Formula} {k : Int} (hOpen : o.Punct "[") (hClose : c.Punct "]")
    (hBounds : b.Bounds s k) (hLimit : b.tokens.length ≤ s.limit) (hRest : Suffixes s ts f) :
    Suffixes s (o :: (b.tokens ++ c :: ts)) fun t => CType.arrayOver s.records (f t) k := by
  apply suffixes_bracket hOpen
  intro n base u rest hFuel hEnds
  simp only [List.length_append, List.length_cons] at hFuel
  rcases Formula.exists_first hBounds.written hBounds.means with
    ⟨v, vs, hTokens, hStarts⟩
  have hTree : Moves s (read n .conditional)
      (b.tokens ++ c :: (ts ++ u :: rest)) (c :: (ts ++ u :: rest))
      fun e => ∃ e', (∀ s', Typing.addType e s' = .ok e' s') ∧
        (∀ env, Constant.isConstant env e' = .ok true) ∧
        ∀ s', Constant.evalInt e' s' = .ok (Int64.ofInt k) s' := by
    intro s' hGrown
    have hHere := hBounds.grown hGrown
    have hLimit' : b.tokens.length ≤ s'.limit := by
      rcases hGrown with ⟨i, w, rfl⟩
      exact hLimit
    rcases (Formula.readable hHere.written hHere.means hLimit').2 2
      hHere.rank n c (ts ++ u :: rest) (by omega)
      ((Formula.stops_closing hClose (by decide)).mono (by omega)) with
      ⟨e, hTypable, hRead⟩
    rcases hHere.evaluates hTypable with ⟨e', hAdd, hValue⟩
    exact ⟨e, s', hGrown, hRead, e', hAdd, hValue⟩
  unfold Declarator.arrayLength
  rw [List.append_assoc, List.cons_append]
  rw [hTokens] at hTree ⊢
  apply moves_step (qualifiers_none (hStarts.1.mono (by decide)))
  apply moves_step fun _ => accept_miss (hStarts.1 "]" (by decide))
  rw [if_neg Bool.false_ne_true]
  apply hTree.bind
  rintro e ⟨e', hAdd, hConstant, hEval⟩
  apply moves_step fun s' => expect_append ts (by
    rw [hClose.spells.is_eq]
    decide)
  apply (hRest n base u rest (by omega) hEnds).bind
  intro t hBare
  rw [← hBare, CType.arrayOver, CType.isVla_bare]
  split
  · exact moves_vlaOf t e
  · have hTyped : Moves s (Typing.addType e) (u :: rest) (u :: rest) (· = e') := by
      rintro s' ⟨i, w, rfl⟩
      exact ⟨e', _, ⟨i, w, rfl⟩, hAdd _, rfl⟩
    apply hTyped.bind
    rintro e'' rfl
    apply moves_step fun _ => Constant.run_ok hConstant _
    rw [if_pos rfl]
    apply moves_step fun s' => hEval _
    rw [hBounds.toInt_word]
    exact moves_arrayOf t k

end CCompiler

------------
-- Parameters
------------

namespace CCompiler

open Parse TranslationUnit

variable {s : ParseState} {ts ws rest : List Token} {o c u : Token}
  {type : CType} {d : Shape}

/- One more parameter of a list, or the dots at its end. -/
def parameterEntry (read : Reader) (ps : Declarator.Parameters) :
    Parse (Sum Declarator.Parameters Declarator.Parameters) := do
  if ← accept "..." then return .inr { ps with variadic := true }
  let (base, _) ← read (.specifiers none)
  let d ← read (.declarator base)
  return .inl { ps with
    types := ps.types.push (← Declarator.parameterType d.type)
    names := ps.names.push ⟨d.name?, d.pos⟩ }

/- The same behind the comma, or the end of the list. -/
def parameterStep (read : Reader) (ps : Declarator.Parameters) :
    Parse (Sum Declarator.Parameters Declarator.Parameters) := do
  if ← check ")" then return .inr ps
  if ps.types.size > 0 then expect ","
  parameterEntry read ps

theorem parameters_eq (read : Reader) (ret : CType) :
    Declarator.parameters read ret = (do
      if (← check "void") && (← peekIs ")") then
        advance
        advance
        return .func ret [] [] false
      let ps ← iterate {} (parameterStep read)
      expect ")"
      return .func ret ps.types.toList ps.names.toList (ps.variadic || ps.types.isEmpty)) := rfl

theorem parameterType_eq {t : CType} (hRecord : t.isRecord = false) (s' : ParseState) :
    Declarator.parameterType t s' = .ok t.adjusted s' := by
  have hCopy : copyType t s' = .ok t s' := by
    unfold copyType
    split
    · cases hRecord
    · cases hRecord
    · rfl
  unfold Declarator.parameterType CType.adjusted
  cases t.plain <;> first | rfl | exact hCopy

/- A declarator is read to its end, with the type that it denotes. -/
def Shape.Reads (s : ParseState) (d : Shape) : Prop :=
  ∀ n base u rest, 32 * d.tokens.length ≤ n → Ends u →
    Moves s (read n (.declarator base)) (d.tokens ++ u :: rest)
      (u :: rest) fun r => r.name? = some d.ident ∧ r.pos = d.ident ∧
        r.type.bare = d.denote s.records base.bare

/- What stands before the next parameter: a comma behind another one. -/
def Leads (ps : Declarator.Parameters) (lead : List Token) : Prop :=
  ps.types.size = 0 ∧ lead = [] ∨
    0 < ps.types.size ∧ ∃ comma, comma.Punct "," ∧ lead = [comma]

variable {ps : Declarator.Parameters} {lead : List Token}

/- The comma before an entry is left behind. -/
theorem moves_lead {us : List Token} {t : Token}
    {R : Sum Declarator.Parameters Declarator.Parameters → Prop} (hLeads : Leads ps lead)
    (hOther : t.is ")" = false) (hEntry : Moves s (parameterEntry (read n) ps) (t :: ts) us R) :
    Moves s (parameterStep (read n) ps) (lead ++ t :: ts) us R := by
  unfold parameterStep
  rcases hLeads with ⟨hNone, rfl⟩ | ⟨hSome, comma, hComma, rfl⟩
  · apply moves_step fun _ => check_before
    rw [hOther, if_neg Bool.false_ne_true, if_neg (by omega)]
    exact hEntry
  · apply moves_step fun _ => check_before
    have hIs := hComma.spells.is_eq
    rw [hIs, if_neg (by decide), if_pos hSome]
    apply moves_step fun _ => expect_hit (by rw [hIs]; decide)
    exact hEntry

/- A parameter in a list. -/
theorem moves_parameter (hBuiltin : BuiltinType ws type) (hWritten : d.Written s)
    (hReads : d.Reads s) (hLeads : Leads ps lead) (hLimit : ws.length ≤ s.limit)
    (hFuel : 32 * (d.tokens.length + 1) ≤ n) (hEnds : Ends u) :
    Moves s (parameterStep (read n) ps)
      (lead ++ (ws ++ (d.tokens ++ u :: rest))) (u :: rest) fun r =>
        ∃ y, r = .inl y ∧ ∃ t : CType, t.bare = (d.denote s.records type).adjusted ∧ y = { ps with
            types := ps.types.push t
            names := ps.names.push ⟨some d.ident, d.ident⟩ } := by
  rcases Specifier.exists_word hBuiltin with ⟨t, ts, v, rfl, hWord, hSpells⟩
  rcases d.exists_first hWritten with ⟨x, xs, hTokens, hFree⟩
  have hOther : t.is ")" = false ∧ t.is "..." = false := by
    rw [hSpells.is_eq, hSpells.is_eq]
    clear hSpells
    revert v
    decide
  have hSpecifiers : Moves s (read n (.specifiers none))
      (t :: ts ++ (d.tokens ++ u :: rest)) (d.tokens ++ u :: rest)
      (· = (type, none)) := by
    rintro s' ⟨i, w, rfl⟩
    rcases Nat.exists_eq_add_of_le' (show 1 ≤ n by omega) with ⟨m, rfl⟩
    refine ⟨_, _, ⟨i, w, rfl⟩, ?_, rfl⟩
    rw [hTokens]
    exact NamesType.specifiers (.inl hBuiltin) (hFree.mono (by decide)) hLimit
  rw [List.cons_append]
  apply moves_lead hLeads hOther.1
  unfold parameterEntry
  apply moves_step fun _ => accept_miss hOther.2
  rw [if_neg Bool.false_ne_true]
  apply hSpecifiers.bind
  rintro _ rfl
  apply (hReads n type u rest (by omega) hEnds).bind
  rintro ⟨t', name?, pos⟩ ⟨hName, hPos, hBare⟩
  rcases hBuiltin.plain_type with ⟨hSame, hRecord⟩
  rw [hSame] at hBare
  have hOut : t'.isRecord = false := by
    rw [← CType.isRecord_bare, hBare]
    exact d.isRecord_denote hRecord
  apply moves_step fun s' => parameterType_eq hOut _
  apply moves_pure
  refine ⟨_, rfl, t'.adjusted, ?_, ?_⟩
  · rw [CType.bare_adjusted, hBare]
  · cases hName
    cases hPos
    rfl

/- The parameters of a list are read one after the other. -/
def Params.Lists (s : ParseState) (ps : Params) : Prop :=
  ∀ n m acc lead c rest, 32 * (ps.tokens.length + 1) ≤ n →
    ps.tokens.length < m → Leads acc lead → acc.variadic = false → c.Punct ")" →
    Moves s (repeatN (parameterStep (read n)) m acc)
      (lead ++ (ps.tokens ++ c :: rest)) (c :: rest) fun r =>
        CType.bareList r.types.toList =
          CType.bareList acc.types.toList ++ ps.types s.records ∧
        r.names.toList = acc.names.toList ++ ps.names ∧ r.variadic = ps.variadic

/- The end of a list. -/
theorem moves_close {R : Declarator.Parameters → Prop} (hClose : c.Punct ")") (hResult : R ps) :
    Moves s (parameterStep (read n) ps) (c :: rest) (c :: rest) fun r => ∃ b, r = .inr b ∧ R b := by
  unfold parameterStep
  apply moves_step fun _ => check_before
  rw [hClose.spells.is_eq, if_pos (by decide)]
  exact moves_pure ⟨ps, rfl, hResult⟩

variable {comma : Token}

/- Behind a parameter stands a comma. -/
theorem leads_push (ps : Declarator.Parameters) (t : CType) (name : ParamName)
    (hComma : comma.Punct ",") :
    Leads { ps with
      types := ps.types.push t
      names := ps.names.push name } [comma] := by
  refine .inr ⟨?_, comma, hComma, rfl⟩
  rw [Array.size_push]
  exact Nat.succ_pos _

theorem bareList_push (ts : Array CType) (t : CType) :
    CType.bareList (ts.push t).toList =
      CType.bareList ts.toList ++ [t.bare] := by simp [CType.bareList_eq_map]

theorem tokens_pos (d : Shape) (hWritten : d.Written s) : 0 < d.tokens.length := by
  rcases d.exists_first hWritten with ⟨t, ts, hTokens, -⟩
  rw [hTokens]
  exact Nat.succ_pos _

theorem lists_last (hBuiltin : BuiltinType ws type) (hWritten : d.Written s) (hReads : d.Reads s)
    (hLimit : ws.length ≤ s.limit) : Params.Lists s (.last ws type d) := by
  intro n m acc lead c rest hFuel hCount hLeads hPlain hClose
  simp only [Params.tokens, List.length_append] at hFuel hCount
  have hPos := tokens_pos d hWritten
  rcases Nat.exists_eq_add_of_le' (show 2 ≤ m by omega) with ⟨k, rfl⟩
  rw [Params.tokens, List.append_assoc]
  apply moves_next (moves_parameter hBuiltin hWritten hReads hLeads
    hLimit (by omega) (ends_punct hClose (by decide)))
  rintro y ⟨t, hBare, rfl⟩
  apply moves_last
  apply moves_close hClose
  refine ⟨?_, ?_, hPlain⟩
  · rw [bareList_push, hBare]
    rfl
  · rw [Array.toList_push]
    rfl

theorem lists_dots {ellipsis : Token} (hBuiltin : BuiltinType ws type) (hWritten : d.Written s)
    (hReads : d.Reads s) (hLimit : ws.length ≤ s.limit) (hComma : comma.Punct ",")
    (hDots : ellipsis.Punct "...") : Params.Lists s (.dots ws type d comma ellipsis) := by
  intro n m acc lead c rest hFuel hCount hLeads hPlain hClose
  simp only [Params.tokens, List.length_append] at hFuel hCount
  have hPos := tokens_pos d hWritten
  rcases Nat.exists_eq_add_of_le' (show 2 ≤ m by omega) with ⟨k, rfl⟩
  rw [Params.tokens, List.append_assoc, List.append_assoc]
  apply moves_next (moves_parameter hBuiltin hWritten hReads hLeads
    hLimit (by omega) (ends_punct hComma (by decide)))
  rintro y ⟨t, hBare, rfl⟩
  have hNext : Leads { acc with
      types := acc.types.push t
      names := acc.names.push ⟨some d.ident, d.ident⟩ } [comma] :=
    leads_push acc t _ hComma
  have hIs := hDots.spells.is_eq
  apply moves_last
  apply moves_lead hNext (by rw [hIs]; decide)
  unfold parameterEntry
  apply moves_step fun _ => accept_hit (by rw [hIs]; decide)
  rw [if_pos rfl]
  apply moves_pure
  refine ⟨_, rfl, ?_, ?_, rfl⟩
  · rw [bareList_push, hBare]
    rfl
  · rw [Array.toList_push]
    rfl

theorem lists_more {ps : Params} (hBuiltin : BuiltinType ws type) (hWritten : d.Written s)
    (hReads : d.Reads s) (hLimit : ws.length ≤ s.limit) (hComma : comma.Punct ",")
    (hRest : ps.Lists s) : Params.Lists s (.more ws type d comma ps) := by
  intro n m acc lead c rest hFuel hCount hLeads hPlain hClose
  simp only [Params.tokens, List.length_append, List.length_cons] at hFuel hCount
  rcases Nat.exists_eq_add_of_le' (show 1 ≤ m by omega) with ⟨k, rfl⟩
  rw [Params.tokens, List.append_assoc, List.append_assoc]
  apply moves_next (moves_parameter hBuiltin hWritten hReads hLeads
    hLimit (by omega) (ends_punct hComma (by decide)))
  rintro y ⟨t, hBare, rfl⟩
  have hNext : Leads { acc with
      types := acc.types.push t
      names := acc.names.push ⟨some d.ident, d.ident⟩ } [comma] :=
    leads_push acc t _ hComma
  apply (hRest n k _ [comma] c rest (by omega) (by omega) hNext hPlain hClose).mono
  rintro r ⟨hTypes, hNames, hVariadic⟩
  refine ⟨?_, ?_, hVariadic⟩
  · rw [hTypes, bareList_push, hBare, List.append_assoc]
    rfl
  · rw [hNames, Array.toList_push, List.append_assoc]
    rfl

end CCompiler

------------
-- Functions
------------

namespace CCompiler

open Parse TranslationUnit

variable {s : ParseState} {ts rest : List Token} {o c u : Token}

/- Behind a parenthesis the parameters of a function are read. -/
theorem suffixes_paren {us : List Token} {f : CType → CType} (hOpen : o.Punct "(")
    (hParameters : ∀ n base u rest, 32 * us.length + 35 ≤ n →
      Moves s (Declarator.parameters (read n) base)
        (us ++ u :: rest) (u :: rest) fun t => t.bare = f base.bare) : Suffixes s (o :: us) f := by
  intro n base u rest hFuel hEnds
  rw [List.length_cons] at hFuel
  rcases Nat.exists_eq_add_of_le' (show 1 ≤ n by omega) with ⟨m, rfl⟩
  change Moves s (Declarator.typeSuffix (read m) base) _ _ _
  unfold Declarator.typeSuffix
  apply moves_step fun _ => accept_append us (by
    rw [hOpen.spells.is_eq]
    decide)
  rw [if_pos rfl]
  exact hParameters m base u rest (by omega)

variable {t : Token}

/- The word `void` alone says that there are none. -/
theorem suffixes_void (hOpen : o.Punct "(") (hVoid : t.Spells "void") (hClose : c.Punct ")") :
    Suffixes s [o, t, c] fun ret => .func ret [] [] false := by
  apply suffixes_paren hOpen
  intro n base u rest hFuel
  unfold Declarator.parameters
  apply moves_step fun _ => check_before
  apply moves_step fun _ => peekIs_before
  rw [hVoid.is_eq, hClose.spells.is_eq, if_pos (by decide)]
  apply moves_step fun _ => advance_before
  apply moves_step fun _ => advance_before
  exact moves_pure rfl

/- Any other list is read one by one. -/
theorem parameters_listed {base : CType} {v : Token} {R : CType → Prop}
    (hOther : t.is "void" = false ∨ v.is ")" = false) (hClose : c.Punct ")")
    (hLoop : Moves s (repeatN (parameterStep (read n))
      (2 * s.limit + 8) {}) (t :: v :: ts) (c :: u :: rest) fun r =>
        R (.func base r.types.toList r.names.toList
          (r.variadic || r.types.isEmpty))) :
    Moves s (Declarator.parameters (read n) base) (t :: v :: ts) (u :: rest) R := by
  rw [parameters_eq]
  apply moves_step fun _ => check_before
  apply moves_step fun _ => peekIs_before
  rw [if_neg (by rcases hOther with hIs | hIs <;> simp [hIs])]
  apply moves_iterate
  apply hLoop.bind
  intro r hResult
  apply moves_step fun _ => expect_hit (by
    rw [hClose.spells.is_eq]
    decide)
  exact moves_pure hResult

theorem suffixes_unlisted (hOpen : o.Punct "(") (hClose : c.Punct ")") :
    Suffixes s [o, c] fun ret => .func ret [] [] true := by
  apply suffixes_paren hOpen
  intro n base u rest hFuel
  apply parameters_listed (c := c) _ hClose
  · apply moves_last
    exact moves_close hClose rfl
  · rw [hClose.spells.is_eq]
    exact .inl (by decide)

variable {ps : Params}

/- The first two tokens of a list are not a word alone. -/
theorem Params.exists_two (hWritten : ps.Written s) (hListed : ps.isListed = true) :
    ∃ t v ts, ps.tokens = t :: v :: ts ∧ v.is ")" = false := by
  have hTwo : ∀ {ws : List Token} {type : CType} {d : Shape} us, BuiltinType ws type → d.Written s →
      ∃ t v ts, ws ++ (d.tokens ++ us) = t :: v :: ts ∧ v.is ")" = false := by
    intro ws type d us hBuiltin hWritten
    rcases d.exists_first hWritten with ⟨x, xs, hTokens, hFree⟩
    rcases hBuiltin.type with ⟨w, hAdd, -⟩
    rw [hTokens]
    match ws, hAdd, hBuiltin.nonempty with
    | [t], _, _ => exact ⟨t, x, _, rfl, hFree ")" (by decide)⟩
    | t :: v :: ws, hAdd, _ =>
      rcases Specifier.spells_addAll? hAdd v (by simp) with
        ⟨y, hWord, hSpells⟩
      refine ⟨t, v, _, rfl, ?_⟩
      rw [hSpells.is_eq]
      clear hSpells
      revert y
      decide
  cases ps with
  | unlisted => cases hListed
  | void t => cases hListed
  | last ws type d =>
    have hTokens := hTwo [] hWritten.1 hWritten.2
    rwa [List.append_nil] at hTokens
  | dots ws type d comma ellipsis => exact hTwo [comma, ellipsis] hWritten.1 hWritten.2.1
  | more ws type d comma ps => exact hTwo (comma :: ps.tokens) hWritten.1 hWritten.2.1

theorem Params.types_ne (rs : Records) (hListed : ps.isListed = true) : ps.types rs ≠ [] := by
  cases ps <;> first | (cases hListed; done) | simp [types]

theorem suffixes_listed (hOpen : o.Punct "(") (hClose : c.Punct ")") (hWritten : ps.Written s)
    (hListed : ps.isListed = true) (hLists : ps.Lists s) (hLimit : ps.tokens.length ≤ s.limit) :
    Suffixes s (o :: (ps.tokens ++ [c])) fun ret =>
      .func ret (ps.types s.records) ps.names ps.variadic := by
  apply suffixes_paren hOpen
  intro n base u rest hFuel
  rw [List.length_append] at hFuel
  rcases Params.exists_two hWritten hListed with
    ⟨t, v, ts, hTokens, hOther⟩
  have hLoop := hLists n (2 * s.limit + 8) {} [] c (u :: rest)
    (by omega) (by omega) (.inl ⟨rfl, rfl⟩) rfl hClose
  rw [List.append_assoc]
  rw [hTokens] at hLoop ⊢
  apply parameters_listed (.inr hOther) hClose
  apply hLoop.mono
  rintro r ⟨hTypes, hNames, hVariadic⟩
  rw [CType.bare, hTypes, hNames, hVariadic]
  have hSome : r.types.isEmpty = false := by
    rw [Array.isEmpty_eq_false_iff]
    rintro hNone
    rw [hNone] at hTypes
    exact Params.types_ne s.records hListed hTypes.symm
  rw [hSome, Bool.or_false]
  rfl

theorem suffixes_function (hOpen : o.Punct "(") (hClose : c.Punct ")") (hWritten : ps.Written s)
    (hLimit : ps.tokens.length ≤ s.limit) (hLists : ps.isListed = true → ps.Lists s) :
    Suffixes s (Suffix.function o ps c).tokens fun ret =>
      (Suffix.function o ps c).denote s.records ret := by
  simp only [Suffix.tokens, Suffix.denote]
  cases ps with
  | unlisted => exact suffixes_unlisted hOpen hClose
  | void t => exact suffixes_void hOpen hWritten hClose
  | last | dots | more => exact suffixes_listed hOpen hClose hWritten rfl (hLists rfl) hLimit

end CCompiler

------------
-- Whole Declarators
------------

namespace CCompiler

open Parse TranslationUnit Specifier

variable {s : ParseState} {ts rest : List Token} {t u : Token}

/- One more star. -/
def starStep (read : Reader) (type : CType) :
    Parse (Sum CType CType) := do
  if ← accept "*" then
    iterate () fun _ => do
      if ← checkAny ["const", "volatile", "restrict", "__restrict",
          "__restrict__", "_Atomic"] then
        advance
        return .inl ()
      else return .inr ()
    skipAttributes read
    return .inl (.ptr type)
  else return .inr type

/- What stands behind the stars. -/
def direct (read : Reader) (type : CType) : Parse Declared := do
  if ← check "(" then Declarator.nested read type .declarator
  else
    let pos ← tok
    let name? ← tag?
    return ⟨← read (.typeSuffix type), name?, pos⟩

theorem declarator_eq (read : Reader) (base : CType) :
    Declarator.declarator read base = (do
      skipAttributes read
      let type ← iterate base (starStep read)
      direct read type) := rfl

/-
  A declarator behind some stars is read together with the
  suffixes that follow it.
-/
def Shape.Follows (s : ParseState) (d : Shape) : Prop :=
  ∀ n m ts f base u rest, Suffixes s ts f →
    (d.continues = false → ts = [] ∧ f = id) →
    32 * (d.tokens.length + ts.length) ≤ n + 1 → d.tokens.length < m → Ends u →
    Moves s (repeatN (starStep (read n)) m base >>= direct (read n))
      (d.tokens ++ (ts ++ u :: rest)) (u :: rest) fun r =>
        r.name? = some d.ident ∧ r.pos = d.ident ∧
        r.type.bare = d.denote s.records (f base.bare)

variable {d : Shape}

theorem Shape.Follows.reads (hFollows : d.Follows s) (hWritten : d.Written s)
    (hLimit : d.tokens.length ≤ s.limit) : d.Reads s := by
  intro n base u rest hFuel hEnds
  have hPos := tokens_pos d hWritten
  rcases Nat.exists_eq_add_of_le' (show 1 ≤ n by omega) with ⟨k, rfl⟩
  rcases d.exists_first hWritten with ⟨t, ts, hTokens, hFree⟩
  have hWhole := hFollows k (2 * s.limit + 8) [] id base u rest
    suffixes_nil (fun _ => ⟨rfl, rfl⟩) (by simpa using hFuel)
    (by omega) hEnds
  change Moves s (Declarator.declarator (read k) base) _ _ _
  rw [declarator_eq]
  rw [List.nil_append] at hWhole
  rw [hTokens] at hWhole ⊢
  apply moves_step fun _ => skipAttributes_none (hFree.mono (by decide))
  exact moves_iterate hWhole

/- What follows the stars is a name or stands in parentheses. -/
theorem moves_direct {m : Nat} {base : CType} {R : Declared → Prop} (hOther : t.is "*" = false)
    (hDirect : Moves s (direct (read n) base) (t :: ts) (u :: rest) R) :
    Moves s (repeatN (starStep (read n)) (m + 1) base >>=
      direct (read n)) (t :: ts) (u :: rest) R := by
  have hStep : ∀ s' : ParseState, repeatN (starStep (read n)) (m + 1) base (s'.before (t :: ts)) =
        .ok base (s'.before (t :: ts)) := by
    intro s'
    apply repeatN_one
    unfold starStep
    rw [run_bind (accept_miss hOther)]
    rfl
  exact moves_step hStep hDirect

theorem follows_name (hKind : t.kind = .ident) (hFree : t.Free reserved) :
    Shape.Follows s (.name t) := by
  intro n m ts f base u rest hSuffixes _ hFuel hCount hEnds
  simp only [Shape.tokens, List.length_singleton] at hFuel hCount
  rcases Nat.exists_eq_add_of_le' (show 1 ≤ m by omega) with ⟨k, rfl⟩
  apply moves_direct (hFree "*" (by decide))
  unfold direct
  apply moves_step fun _ => check_before
  rw [hFree "(" (by decide), if_neg Bool.false_ne_true]
  apply moves_step fun _ => tok_before
  have hTag : ∀ s' : ParseState, tag? (s'.before (t :: (ts ++ u :: rest))) =
        .ok (some t) (s'.before (ts ++ u :: rest)) := by
    intro s'
    unfold tag?
    rw [run_bind tok_before, if_pos (by simp [Token.isIdent, hKind]), run_bind (advance_append ts)]
    rfl
  apply moves_step hTag
  apply (hSuffixes n base u rest (by omega) hEnds).bind
  intro type hBare
  exact moves_pure ⟨rfl, rfl, hBare⟩

theorem follows_pointer (hStar : t.Punct "*") (hWritten : d.Written s) (hInner : d.Follows s) :
    Shape.Follows s (.pointer t d) := by
  intro n m ts f base u rest hSuffixes hEnd hFuel hCount hEnds
  rcases hEnd rfl with ⟨rfl, rfl⟩
  simp only [Shape.tokens, List.length_cons] at hFuel hCount
  rcases Nat.exists_eq_add_of_le' (show 1 ≤ m by omega) with ⟨k, rfl⟩
  rcases d.exists_first hWritten with ⟨v, vs, hTokens, hFree⟩
  have hInner := hInner n k [] id (.ptr base) u rest hSuffixes
    (fun _ => ⟨rfl, rfl⟩) (by omega) (by omega) hEnds
  have hStep : ∀ s' : ParseState, starStep (read n) base
        (s'.before (t :: (d.tokens ++ ([] ++ u :: rest)))) =
        .ok (.inl (.ptr base)) (s'.before (d.tokens ++ ([] ++ u :: rest))) := by
    intro s'
    have hQualifiers : v.Free ["const", "volatile", "restrict",
        "__restrict", "__restrict__", "_Atomic"] :=
      hFree.mono (by decide)
    unfold starStep
    rw [hTokens, List.cons_append, run_bind (accept_hit (by
      rw [hStar.spells.is_eq]
      decide)), if_pos rfl, run_bind (iterate_one (b := ()) (by
        rw [run_bind (checkAny_before _), hQualifiers.any]
        rfl)),
      run_bind (skipAttributes_none (hFree.mono (by decide)))]
    rfl
  rw [repeatN, bind_assoc]
  exact moves_step hStep hInner

theorem follows_paren {o c : Token} (hOpen : o.Punct "(") (hClose : c.Punct ")")
    (hInner : d.Reads s) : Shape.Follows s (.paren o d c) := by
  intro n m ts f base u rest hSuffixes hEnd hFuel hCount hEnds
  simp only [Shape.tokens, List.length_cons, List.length_append] at hFuel hCount
  rcases Nat.exists_eq_add_of_le' (show 1 ≤ m by omega) with ⟨k, rfl⟩
  have hIs := hOpen.spells.is_eq
  have hCloses := ends_punct hClose (by decide)
  have hTokens : (Shape.paren o d c).tokens ++ (ts ++ u :: rest) =
      o :: (d.tokens ++ c :: (ts ++ u :: rest)) := by
    simp [Shape.tokens]
  rw [hTokens]
  apply moves_direct (by rw [hIs]; decide)
  unfold direct
  apply moves_step fun _ => check_before
  rw [hIs, if_pos (by decide)]
  unfold Declarator.nested
  apply moves_step fun _ => advance_append d.tokens
  apply moves_step fun _ => cursor_before
  apply (hInner n .void c (ts ++ u :: rest) (by omega) hCloses).bind
  intro _ _
  apply moves_step fun _ => expect_append ts (by
    rw [hClose.spells.is_eq]
    decide)
  apply (hSuffixes n base u rest (by omega) hEnds).bind
  intro type hBare
  apply moves_step fun _ => cursor_before
  apply moves_step fun _ => rewind_before _
  apply (hInner n type c (ts ++ u :: rest) (by omega) hCloses).bind
  rintro r ⟨hName, hPos, hType⟩
  apply moves_step fun _ => rewind_before _
  apply moves_pure
  rw [hBare] at hType
  exact ⟨hName, hPos, hType⟩

mutual

/- Every written declarator is read as its tree says. -/
theorem Shape.follows :
    ∀ d : Shape, d.Written s → d.tokens.length ≤ s.limit → d.Follows s
| .name t, hWritten, _ => follows_name hWritten.1 hWritten.2
| .pointer star d, hWritten, hLimit => by
    simp only [Shape.tokens, List.length_cons] at hLimit
    exact follows_pointer hWritten.1 hWritten.2 (d.follows hWritten.2 (by omega))
| .paren o d c, hWritten, hLimit => by
    rcases hWritten with ⟨hOpen, hClose, hInner⟩
    simp only [Shape.tokens, List.length_cons, List.length_append] at hLimit
    have hLess : d.tokens.length ≤ s.limit := by omega
    exact follows_paren hOpen hClose ((d.follows hInner hLess).reads hInner hLess)
| .suffixed d x, hWritten, hLimit => by
    rcases hWritten with ⟨hContinues, hInner, hSuffix⟩
    simp only [Shape.tokens, List.length_append] at hLimit
    intro n m ts f base u rest hSuffixes hEnd hFuel hCount hEnds
    simp only [Shape.tokens, List.length_append] at hFuel hCount
    have hAll := x.suffixes hSuffix (by omega) ts f hSuffixes (by
      intro hLast
      apply hEnd
      cases x <;> first | (cases hLast; done) | rfl)
    rw [Shape.tokens, List.append_assoc, ← List.append_assoc x.tokens]
    apply d.follows hInner (by omega) n m (x.tokens ++ ts)
      (fun t => x.denote s.records (f t)) base u rest hAll
    · intro hStop
      rw [hContinues] at hStop
      cases hStop
    · rw [List.length_append]
      omega
    · omega
    · exact hEnds

theorem Suffix.suffixes :
    ∀ x : Suffix, x.Written s → x.tokens.length ≤ s.limit →
      ∀ ts f, Suffixes s ts f → (x.isFunction = true → ts = [] ∧ f = id) →
        Suffixes s (x.tokens ++ ts) fun t => x.denote s.records (f t)
| .array o none c, hWritten, _, ts, f, hRest, _ =>
  suffixes_open hWritten.1 hWritten.2 hRest
| .array o (some (b, n)) c, hWritten, hLimit, ts, f, hRest, _ => by
    rcases hWritten with ⟨hOpen, hClose, hBounds⟩
    simp only [Suffix.tokens, List.length_cons, List.length_append] at hLimit
    have hTokens : (Suffix.array o (some (b, n)) c).tokens ++ ts = o :: (b.tokens ++ c :: ts) := by
      simp [Suffix.tokens]
    rw [hTokens]
    exact suffixes_bound hOpen hClose hBounds (by omega) hRest
| .function o ps c, hWritten, hLimit, ts, f, _, hEnd => by
    rcases hWritten with ⟨hOpen, hClose, hParams⟩
    rcases hEnd rfl with ⟨rfl, rfl⟩
    simp only [Suffix.tokens, List.length_cons, List.length_append] at hLimit
    rw [List.append_nil]
    exact suffixes_function hOpen hClose hParams (by omega)
      fun hListed => ps.lists hParams hListed (by omega)

theorem Params.lists :
    ∀ ps : Params, ps.Written s → ps.isListed = true → ps.tokens.length ≤ s.limit → ps.Lists s
| .unlisted, _, hListed, _ => nomatch hListed
| .void _, _, hListed, _ => nomatch hListed
| .last ws type d, hWritten, _, hLimit => by
    rcases hWritten with ⟨hBuiltin, hInner⟩
    simp only [Params.tokens, List.length_append] at hLimit
    have hLess : d.tokens.length ≤ s.limit := by omega
    exact lists_last hBuiltin hInner ((d.follows hInner hLess).reads hInner hLess) (by omega)
| .dots ws type d comma ellipsis, hWritten, _, hLimit => by
    rcases hWritten with ⟨hBuiltin, hInner, hComma, hDots⟩
    simp only [Params.tokens, List.length_append] at hLimit
    have hLess : d.tokens.length ≤ s.limit := by omega
    exact lists_dots hBuiltin hInner ((d.follows hInner hLess).reads hInner hLess) (by omega) hComma
      hDots
| .more ws type d comma ps, hWritten, _, hLimit => by
    rcases hWritten with ⟨hBuiltin, hInner, hComma, hListed, hRest⟩
    simp only [Params.tokens, List.length_append, List.length_cons] at hLimit
    have hLess : d.tokens.length ≤ s.limit := by omega
    exact lists_more hBuiltin hInner ((d.follows hInner hLess).reads hInner hLess) (by omega) hComma
      (ps.lists hRest hListed (by omega))

end

/-
  A written declarator is read to its end and no further.  The
  result is its name with the type that its tree denotes, found
  from the name outwards.
-/
theorem Shape.declarator_denotes {d : Shape} {n : Nat} (hWritten : d.Written s)
    (hLimit : d.tokens.length ≤ s.limit) (hDepth : 32 * d.tokens.length ≤ n) (hEnds : Ends u)
    (base : CType) (rest : List Token) :
    ∃ s' t, s.Grown s' ∧ read n (.declarator base) (s.before (d.tokens ++ u :: rest)) =
        .ok ⟨t, some d.ident, d.ident⟩ (s'.before (u :: rest)) ∧
      t.bare = d.denote s.records base.bare := by
  have hReads := (d.follows hWritten hLimit).reads hWritten hLimit
  rcases hReads n base u rest hDepth hEnds s ⟨_, _, rfl⟩ with
    ⟨⟨t, name?, pos⟩, s', hGrown, hRun, hName, hPos, hBare⟩
  cases hName
  cases hPos
  exact ⟨s', t, hGrown, hRun, hBare⟩

open Formula (sample sign sampleState sampleNumber)

/- 1 + 2 -/
def sampleSum : Formula :=
  .binary .add (sign "+") (sampleNumber 1 "1") (sampleNumber 2 "2")

/- (*fp[1 + 2])(int x, char *argv[], ...) -/
def sampleShape : Shape :=
  .suffixed
    (.paren (sign "(") (.pointer (sign "*")
        (.suffixed (.name (sample .ident "fp"))
          (.array (sign "[") (some (sampleSum, 3)) (sign "]")))) (sign ")"))
    (.function (sign "(")
      (.more [sample .keyword "int"] .int (.name (sample .ident "x")) (sign ",")
        (.dots [sample .keyword "char"] .char (.pointer (sign "*")
            (.suffixed (.name (sample .ident "argv"))
              (.array (sign "[") none (sign "]")))) (sign ",") (sign "...")))
      (sign ")"))

theorem sampleSum_bounds : sampleSum.Bounds sampleState 3 where
  written := by decide
  rank := by decide
  means := ⟨trivial, trivial⟩
  constant := ⟨⟨.int, 1, rfl, rfl⟩, ⟨.int, 2, rfl, rfl⟩⟩
  recognized := ⟨by decide, trivial, trivial⟩
  value := rfl
  range := by decide

theorem sampleShape_written : sampleShape.Written sampleState := by
  have hInt : BuiltinType [sample .keyword "int"] .int :=
    ⟨by decide, by decide, { int := 1 }, by decide, rfl⟩
  have hChar : BuiltinType [sample .keyword "char"] .char :=
    ⟨by decide, by decide, { char := 1 }, by decide, rfl⟩
  have hName : ∀ w ∈ ["fp", "x", "argv"], Shape.Written sampleState (.name (sample .ident w)) := by
    intro w hMem
    fin_cases hMem <;> exact ⟨rfl, by decide⟩
  have hInner : Shape.Written sampleState (.suffixed (.name (sample .ident "fp"))
      (.array (sign "[") (some (sampleSum, 3)) (sign "]"))) :=
    ⟨rfl, hName "fp" (by decide), by decide, by decide, sampleSum_bounds⟩
  have hVector : Shape.Written sampleState (.suffixed
      (.name (sample .ident "argv")) (.array (sign "[") none (sign "]"))) :=
    ⟨rfl, hName "argv" (by decide), by decide, by decide⟩
  exact ⟨rfl, ⟨by decide, by decide, by decide, hInner⟩, by decide,
    by decide, hInt, hName "x" (by decide), by decide, rfl, hChar,
    ⟨by decide, hVector⟩, by decide, by decide⟩

/- Three pointers to functions of an `int`, a `char **` and more. -/
theorem declarator_denotes_table :
    ∃ s' t, sampleState.Grown s' ∧ read 1024 (.declarator .int)
          (sampleState.before (sampleShape.tokens ++ [sign ";"])) =
        .ok ⟨t, some (sample .ident "fp"), sample .ident "fp"⟩
          (s'.before [sign ";"]) ∧ t.bare = .arrayOf #[] 0 (.ptr (.func .int
        [.int, .ptr (.ptr .char)]
        [⟨some (sample .ident "x"), sample .ident "x"⟩,
          ⟨some (sample .ident "argv"), sample .ident "argv"⟩] true)) 3 :=
  Shape.declarator_denotes sampleShape_written (by decide) (by decide)
    ⟨by decide, by decide⟩ .int []

/- 5 % 3 -/
def sampleRemainder : Formula :=
  .binary .mod (sign "%") (sampleNumber 5 "5") (sampleNumber 3 "3")

/- a[5 % 3] -/
def remainderShape : Shape :=
  .suffixed (.name (sample .ident "a"))
    (.array (sign "[") (some (sampleRemainder, 2)) (sign "]"))

/- A constant length with a remainder is taken for one found at run time. -/
theorem remainder_unrecognized :
    sampleRemainder.Written ∧ sampleRemainder.Constant ∧
    sampleRemainder.value = .ok 2 ∧
    remainderShape.denote #[] .int = .arrayOf #[] 0 .int 2 ∧
    (match read 1024 (.declarator .int)
        (sampleState.before (remainderShape.tokens ++ [sign ";"])) with
      | .ok d _ => some d.type.bare
      | .error _ _ => none) = some (.vla 0 .int) := by
  refine ⟨by decide, ⟨⟨.int, 5, rfl, rfl⟩, ⟨.int, 3, rfl, rfl⟩⟩, rfl, rfl, ?_⟩
  rfl

end CCompiler
