import Mathlib
import CCompiler.Preprocess.Expansion

/-
  What reading the arguments of a macro takes from a list.

  A list of tokens ends with a token that no reading passes,
  so nothing that is read depends on it.  Every argument is a
  stretch of the list with an end of its own, and a use of a
  macro takes a stretch up to its closing parenthesis.

  Main declarations:
    * `Token.Ends`
    * `Arguments.Uniform`
    * `Arguments.uniform_readAll`
    * `Expansion.Found`, `Expansion.use?_cases`
-/

------------
-- Ends of Lists
------------

namespace CCompiler

namespace Token

/- The token at the end of a list. -/
structure Ends (e : Token) : Prop where
  kind : e.kind = .eof
  text : e.text = []

theorem ends_toEof (t : Token) : t.toEof.Ends := ⟨rfl, rfl⟩

theorem Ends.isEof {e : Token} (hEnds : e.Ends) : e.isEof = true := by
  simp [Token.isEof, hEnds.kind]

/- An end has no spelling. -/
theorem Ends.is_eq_false {e : Token} (hEnds : e.Ends) {s : String} (hText : ascii s ≠ []) :
    e.is s = false := by
  have hOther : ([] == ascii s) = false := beq_eq_false_iff_ne.mpr (Ne.symm hText)
  rw [Token.is, hEnds.text, hOther, Bool.and_false]

end Token

namespace Arguments

/-
  A scan over a list whose end is given later.  It takes a
  prefix of the list or fails, whatever the end.
-/
inductive Uniform
    {α : Type}
    (scan : Token → TokenScan (α × List Token))
    (Q : α → List Token → Prop) : Prop
| taken
    (a : α)
    (rest : List Token)
    (hScan : ∀ e, e.Ends → scan e = .ok (a, rest ++ [e]))
    (hPost : Q a rest)
| failed
    (cause : Fault)
    (t : Token)
    (hScan : ∀ e, e.Ends → scan e = .error (cause, t))
| ended
    (cause : Fault)
    (hScan : ∀ e, e.Ends → scan e = .error (cause, e))

variable {α β : Type}

variable {scan : Token → TokenScan (α × List Token)} {Q : α → List Token → Prop}

/- Scans one after the other. -/
theorem Uniform.bind {next : α × List Token → TokenScan (β × List Token)}
    {R : β → List Token → Prop} (hScan : Uniform scan Q)
    (hNext : ∀ a rest, Q a rest → Uniform (fun e => next (a, rest ++ [e])) R) :
    Uniform (fun e => scan e >>= next) R := by
  cases hScan with
  | taken a rest hScan hPost =>
    cases hNext a rest hPost with
    | taken b more hMore hAfter =>
      refine .taken b more (fun e hEnds => ?_) hAfter
      rw [hScan e hEnds]
      exact hMore e hEnds
    | failed cause t hMore =>
      refine .failed cause t fun e hEnds => ?_
      rw [hScan e hEnds]
      exact hMore e hEnds
    | ended cause hMore =>
      refine .ended cause fun e hEnds => ?_
      rw [hScan e hEnds]
      exact hMore e hEnds
  | failed cause t hScan =>
    refine .failed cause t fun e hEnds => ?_
    rw [hScan e hEnds]
    rfl
  | ended cause hScan =>
    refine .ended cause fun e hEnds => ?_
    rw [hScan e hEnds]
    rfl

theorem Uniform.congr {other : Token → TokenScan (α × List Token)} {R : α → List Token → Prop}
    (hScan : Uniform scan Q) (hEq : ∀ e, e.Ends → other e = scan e)
    (hPost : ∀ a rest, Q a rest → R a rest) : Uniform other R := by
  cases hScan with
  | taken a rest hScan hQ =>
    exact .taken a rest (fun e hEnds => (hEq e hEnds).trans (hScan e hEnds)) (hPost a rest hQ)
  | failed cause t hScan => exact .failed cause t fun e hEnds => (hEq e hEnds).trans (hScan e hEnds)
  | ended cause hScan => exact .ended cause fun e hEnds => (hEq e hEnds).trans (hScan e hEnds)

/- What one argument takes: a stretch up to a token. -/
structure OneTaken
    (all : Bool)
    (xs arg rest : List Token) : Prop where
  stretch :
    ∃ seg z more,
      xs = seg ++ z :: more ∧ rest = z :: more ∧ arg = seg ++ [z.toEof] ∧
      (z.is ")" = true ∨ all = false ∧ z.is "," = true)

theorem uniform_readOne (all : Bool) (level : Nat) (xs : List Token) :
    Uniform (fun e => readOne all level (xs ++ [e])) (OneTaken all xs) := by
  induction xs generalizing level with
  | nil =>
    refine .ended .prematureEnd fun e hEnds => ?_
    simp [readOne, hEnds.is_eq_false (s := ")") (by decide),
      hEnds.is_eq_false (s := ",") (by decide), hEnds.isEof]
  | cons t xs ih =>
    simp only [List.cons_append, readOne]
    by_cases hClose : (level == 0 && (t.is ")" || (!all && t.is ","))) = true
    · simp only [hClose, if_true]
      refine .taken _ (t :: xs) (fun e _ => rfl) ⟨[], t, xs, rfl, rfl, rfl, ?_⟩
      simp only [Bool.and_eq_true, Bool.or_eq_true, Bool.not_eq_true'] at hClose
      exact hClose.2
    · simp only [hClose]
      by_cases hEof : t.isEof = true
      · simp only [hEof, if_true]
        exact .failed .prematureEnd t fun e _ => rfl
      · simp only [hEof]
        refine (ih _).bind fun arg rest hTaken => ?_
        obtain ⟨seg, z, more, hXs, hRest, hArg, hZ⟩ := hTaken.stretch
        refine .taken (t :: arg) rest (fun e _ => rfl) ⟨t :: seg, z, more, ?_, hRest, ?_, hZ⟩
        · rw [hXs, List.cons_append]
        · rw [hArg, List.cons_append]

/- An argument that is a stretch of some tokens. -/
def Stretch (xs : List Token) (a : MacroArg) : Prop :=
  ∃ seg e, a.toks = seg ++ [e] ∧ e.Ends ∧ seg <:+: xs

variable {xs ys : List Token}

theorem Stretch.mono {a : MacroArg} (hStretch : Stretch xs a) (hInfix : xs <:+: ys) :
    Stretch ys a := by
  obtain ⟨seg, e, hToks, hEnds, hSeg⟩ := hStretch
  exact ⟨seg, e, hToks, hEnds, hSeg.trans hInfix⟩

/-
  What reading some arguments takes, besides those that were
  there before.
-/
def SomeTaken
    (xs : List Token)
    (before after : Array MacroArg)
    (rest : List Token) : Prop :=
  ∃ c, xs = c ++ rest ∧ ∀ a ∈ after, a ∈ before ∨ Stretch c a

theorem SomeTaken.trans {zs : List Token} {a b c : Array MacroArg} (hFirst : SomeTaken xs a b ys)
    (hNext : SomeTaken ys b c zs) : SomeTaken xs a c zs := by
  obtain ⟨front, rfl, hFront⟩ := hFirst
  obtain ⟨back, rfl, hBack⟩ := hNext
  refine ⟨front ++ back, by simp, fun arg hArg => ?_⟩
  rcases hBack arg hArg with hBefore | hStretch
  · rcases hFront arg hBefore with hOld | hStretch
    · exact .inl hOld
    · exact .inr (hStretch.mono (List.prefix_append _ _).isInfix)
  · exact .inr (hStretch.mono (List.suffix_append _ _).isInfix)

variable {rest : List Token}

/- One more argument after a stretch of tokens. -/
theorem someTaken_push {all : Bool} {arg : List Token} (front : List Token)
    (before : Array MacroArg) (name : Bytes) (isRest : Bool) (hOne : OneTaken all xs arg rest) :
    SomeTaken (front ++ xs) before (before.push ⟨name, isRest, arg⟩) rest := by
  obtain ⟨seg, z, more, rfl, rfl, rfl, -⟩ := hOne.stretch
  refine ⟨front ++ seg, by simp, fun a hArg => ?_⟩
  rcases Array.mem_push.mp hArg with hOld | rfl
  · exact .inl hOld
  · exact .inr ⟨seg, z.toEof, rfl, z.ends_toEof, (List.suffix_append _ _).isInfix⟩

/- The comma before every argument but the first. -/
theorem uniform_comma {Q : β → List Token → Prop} (isFirst : Bool) (xs : List Token)
    {next : List Token → TokenScan (β × List Token)}
    (hNext : ∀ front rest, xs = front ++ rest →
      Uniform (fun e => next (rest ++ [e])) Q) :
    Uniform (fun e => do
        let ts ←
          if isFirst = true then pure (xs ++ [e])
          else skip "," (xs ++ [e])
        next ts)
      Q := by
  cases isFirst with
  | true => exact hNext [] xs rfl
  | false =>
    cases xs with
    | nil =>
      refine .ended (.expected (ascii ",")) fun e hEnds => ?_
      simp [skip, hEnds.is_eq_false (s := ",") (by decide), bind, Except.bind]
    | cons z rest =>
      by_cases hIs : z.is "," = true
      · have hRest := hNext [z] rest rfl
        simpa [skip, hIs, bind, Except.bind] using hRest
      · refine .failed (.expected (ascii ",")) z fun e _ => ?_
        simp [skip, hIs, bind, Except.bind]

theorem uniform_readNamed (params : List Bytes) (done : Array MacroArg) (xs : List Token) :
    Uniform (fun e => readNamed params done (xs ++ [e])) (SomeTaken xs done) := by
  induction params generalizing done xs with
  | nil => exact .taken done xs (fun e _ => rfl) ⟨[], rfl, fun a hArg => .inl hArg⟩
  | cons p ps ih =>
    refine uniform_comma done.isEmpty xs fun front rest hXs => ?_
    refine (uniform_readOne false 0 rest).bind fun arg more hOne => ?_
    have hPush := someTaken_push front done p false hOne
    rw [← hXs] at hPush
    exact (ih (done.push ⟨p, false, arg⟩) more).congr
      (fun _ _ => rfl) fun _ _ hRest => hPush.trans hRest

theorem uniform_readRest (name : Bytes) (done : Array MacroArg) (xs : List Token) :
    Uniform (fun e => readRest name done (xs ++ [e])) (SomeTaken xs done) := by
  have hAll : Uniform (fun e => do
          let ts ←
            if done.isEmpty = true then pure (xs ++ [e])
            else skip "," (xs ++ [e])
          let one ← readOne true 0 ts
          .ok (done.push ⟨name, true, one.1⟩, one.2))
        (SomeTaken xs done) := by
    refine uniform_comma done.isEmpty xs fun front rest hXs => ?_
    refine (uniform_readOne true 0 rest).bind fun arg more hOne => ?_
    have hPush := someTaken_push front done name true hOne
    rw [← hXs] at hPush
    exact .taken _ more (fun e _ => rfl) hPush
  cases xs with
  | nil =>
    refine hAll.congr (fun e hEnds => ?_) fun _ _ => id
    have hOpen : e.is ")" = false := hEnds.is_eq_false (by decide)
    simp only [List.nil_append, readRest, hOpen]
    rfl
  | cons t xs =>
    by_cases hClose : t.is ")" = true
    · have hOne : OneTaken true (t :: xs) [t.toEof] (t :: xs) :=
        ⟨[], t, xs, rfl, rfl, rfl, .inl hClose⟩
      refine .taken (done.push ⟨name, true, [t.toEof]⟩) (t :: xs) (fun e _ => ?_) ?_
      · simp [readRest, hClose]
      · exact someTaken_push [] done name true hOne
    · simp only [List.cons_append, readRest, hClose]
      exact hAll

/- The tokens that a use takes after its opening parenthesis. -/
def AllTaken
    (xs : List Token)
    (args : List MacroArg)
    (rest : List Token) : Prop :=
  ∃ c z more, xs = c ++ z :: more ∧ rest = z :: more ∧
    z.is ")" = true ∧ ∀ a ∈ args, Stretch c a

/- The closing parenthesis. -/
theorem uniform_close {args : Array MacroArg} (hArgs : SomeTaken xs #[] args rest) :
    Uniform (fun e => do
        let _ ← skip ")" (rest ++ [e])
        .ok (args.toList, rest ++ [e]))
      (AllTaken xs) := by
  cases rest with
  | nil =>
    refine .ended (.expected (ascii ")")) fun e hEnds => ?_
    simp [skip, hEnds.is_eq_false (s := ")") (by decide), bind, Except.bind]
  | cons z more =>
    by_cases hIs : z.is ")" = true
    · obtain ⟨c, hXs, hStretch⟩ := hArgs
      refine .taken args.toList (z :: more) (fun e _ => ?_)
        ⟨c, z, more, hXs, rfl, hIs, fun a hArg => ?_⟩
      · simp [skip, hIs, bind, Except.bind]
      · simpa using hStretch a (by simpa using hArg)
    · refine .failed (.expected (ascii ")")) z fun e _ => ?_
      simp [skip, hIs, bind, Except.bind]

/-
  The arguments of a use, up to the closing parenthesis: all
  of them are stretches of what is taken.
-/
theorem uniform_readAll (start : Token) (params : List Bytes) (rest? : Option Bytes)
    (xs : List Token) :
    Uniform (fun e => readAll start params rest? (xs ++ [e])) (AllTaken xs) := by
  refine (uniform_readNamed params #[] xs).bind fun named mid hNamed => ?_
  cases rest? with
  | some name =>
    refine (uniform_readRest name named mid).bind fun args rest hRest => ?_
    exact uniform_close (hNamed.trans hRest)
  | none =>
    cases mid with
    | nil =>
      refine .failed .tooManyArguments start fun e hEnds => ?_
      simp [hEnds.is_eq_false (s := ")") (by decide), bind, Except.bind]
    | cons z more =>
      by_cases hIs : z.is ")" = true
      · refine (uniform_close hNamed).congr (fun e _ => ?_) fun _ _ => id
        simp [hIs, bind, Except.bind]
      · refine .failed .tooManyArguments start fun e _ => ?_
        simp [hIs, bind, Except.bind]

end Arguments

------------
-- Uses of Macros
------------

namespace Expansion

open Arguments

/-
  A use of a macro at a token that takes some of the tokens
  after it.  Names hidden both in the token and in the last
  one taken stay hidden, and so does that of the macro.
-/
structure Found
    (ms : Macros)
    (t : Token)
    (c : List Token)
    (u : Use) : Prop where
  ident : t.isIdent = true
  open' : t.text ∉ t.hidden
  defined : ms.find? t.text = some u.definition
  name : t.text ∈ u.hidden
  hidden :
    ∀ x ∈ t.hidden,
      (∀ z, c.getLast? = some z → x ∈ z.hidden) → x ∈ u.hidden
  closed : ∀ z, c.getLast? = some z → z.is ")" = true
  args : ∀ a ∈ u.args, Stretch c a

/-
  What looking for a use gives on a list whose end is given
  later.
-/
inductive UseCases
    (s : Session)
    (t : Token)
    (xs : List Token) : Prop
| none
    (hUse : ∀ e, e.Ends → use? t (xs ++ [e]) s = .ok none s)
| found
    (u : Use)
    (c r : List Token)
    (hTaken : xs = c ++ r)
    (hUse : ∀ e, e.Ends → use? t (xs ++ [e]) s =
        .ok (some { u with rest := r ++ [e] }) s)
    (hFound : Found s.macros t c u)
| failed
    (cause : Fault)
    (z : Token)
    (hUse : ∀ e, e.Ends → use? t (xs ++ [e]) s = Pre.fail z cause s)
| ended
    (cause : Fault)
    (hUse : ∀ e, e.Ends → use? t (xs ++ [e]) s = Pre.fail e cause s)

variable {ms : Macros} {t : Token} {m : Macro}

/- The use of a macro that takes no arguments. -/
theorem found_alone (hOpen : t.text ∉ t.hidden) (hMacro : ms.ofToken? t = some m) :
    Found ms t [] ⟨m, [], t.hidden.union (.single t.text), []⟩
    := by
  unfold Macros.ofToken? at hMacro
  split at hMacro
  · rename_i hIdent
    exact
      { ident := hIdent
        open' := hOpen
        defined := hMacro
        name := by simp [HideSet.union, HideSet.single]
        hidden := fun x hx _ => by simp [HideSet.union, hx]
        closed := by simp
        args := by simp }
  · cases hMacro

/- The use of a macro with arguments. -/
theorem found_call {z : Token} {c : List Token} {args : List MacroArg} (p : Token)
    (hOpen : t.text ∉ t.hidden) (hMacro : ms.ofToken? t = some m) (hClose : z.is ")" = true)
    (hArgs : ∀ a ∈ args, Stretch c a) :
    Found ms t (p :: (c ++ [z])) ⟨m, args, (t.hidden.inter z.hidden).union (.single t.text), []⟩
    := by
  have hLast : (p :: (c ++ [z])).getLast? = some z := by simp [List.getLast?_cons]
  unfold Macros.ofToken? at hMacro
  split at hMacro
  · rename_i hIdent
    exact
      { ident := hIdent
        open' := hOpen
        defined := hMacro
        name := by simp [HideSet.union, HideSet.single]
        hidden := fun x hx hz => by
          have hBoth := hz z hLast
          simp [HideSet.union, HideSet.inter, hx, hBoth]
        closed := fun y hy => by
          rw [hLast] at hy
          cases hy
          exact hClose
        args := fun a hArg => by
          refine (hArgs a hArg).mono ?_
          exact (List.prefix_append c [z]).isInfix.trans (List.suffix_cons p _).isInfix }
  · cases hMacro

variable {s : Session}

/- What a use is, once its name is looked up. -/
theorem use?_open (hOpen : ¬ t.hidden.contains t.text = true) (rest : List Token) :
    use? t rest s = (match s.macros.ofToken? t with
      | none => pure none
      | some (.function params rest? body) => do
        if !(Directive.first rest).is "(" then return none
        let (args, close) ←
          Pre.ofScan (readAll t params rest? rest.tail)
        let hidden :=
          (t.hidden.inter (Directive.first close).hidden).union (.single t.text)
        return some ⟨.function params rest? body, args, hidden, close.tail⟩
      | some m =>
        return some ⟨m, [], t.hidden.union (.single t.text), rest⟩ : Pre (Option Use)) s := by
  unfold use?
  rw [if_neg hOpen]
  rfl

variable {params : List Bytes} {rest? : Option Bytes} {body : List Token}

/- A macro with parameters whose name stands alone. -/
theorem use?_function_alone {rest : List Token} (hOpen : ¬ t.hidden.contains t.text = true)
    (hMacro : s.macros.ofToken? t = some (.function params rest? body))
    (hParen : (Directive.first rest).is "(" = false) : use? t rest s = .ok none s := by
  rw [use?_open hOpen, hMacro]
  dsimp only
  rw [hParen]
  rfl

/- A macro with parameters and an argument list. -/
theorem use?_function_call (rest : List Token) (hOpen : ¬ t.hidden.contains t.text = true)
    (hMacro : s.macros.ofToken? t = some (.function params rest? body))
    (hParen : (Directive.first rest).is "(" = true) :
    use? t rest s = (do
        let (args, close) ←
          Pre.ofScan (readAll t params rest? rest.tail)
        let hidden :=
          (t.hidden.inter (Directive.first close).hidden).union (.single t.text)
        return some ⟨.function params rest? body, args,
          hidden, close.tail⟩ : Pre (Option Use)) s := by
  rw [use?_open hOpen, hMacro]
  dsimp only
  rw [hParen]
  rfl

/- Looking for a use never depends on the end of the list. -/
theorem use?_cases (s : Session) (t : Token) (xs : List Token) : UseCases s t xs := by
  by_cases hHidden : t.hidden.contains t.text = true
  · refine .none fun e _ => ?_
    unfold use?
    rw [if_pos hHidden]
    rfl
  have hOpen : t.text ∉ t.hidden := by simpa using hHidden
  cases hMacro : s.macros.ofToken? t with
  | none =>
    refine .none fun e _ => ?_
    rw [use?_open hHidden, hMacro]
    rfl
  | some m =>
    cases m with
    | object body =>
      refine .found _ [] xs rfl (fun e _ => ?_) (found_alone hOpen hMacro)
      rw [use?_open hHidden, hMacro]
      rfl
    | builtin b =>
      refine .found _ [] xs rfl (fun e _ => ?_) (found_alone hOpen hMacro)
      rw [use?_open hHidden, hMacro]
      rfl
    | function params rest? body =>
      cases xs with
      | nil =>
        refine .none fun e hEnds => ?_
        exact use?_function_alone hHidden hMacro (hEnds.is_eq_false (by decide))
      | cons p xs =>
        cases hParen : p.is "(" with
        | false => exact .none fun e _ => use?_function_alone hHidden hMacro hParen
        | true =>
          have hUse := fun e : Token => use?_function_call (p :: xs ++ [e]) hHidden hMacro hParen
          simp only [List.cons_append, List.tail_cons] at hUse
          cases uniform_readAll t params rest? xs with
          | taken args rest hScan hTaken =>
            obtain ⟨c, z, more, hXs, hRest, hClose, hArgs⟩ := hTaken
            refine .found _ (p :: (c ++ [z])) more ?_ (fun e hEnds => ?_)
              (found_call p hOpen hMacro hClose hArgs)
            · simp [hXs]
            · rw [List.cons_append, hUse e, hScan e hEnds, hRest]
              rfl
          | failed cause z hScan =>
            refine .failed cause z fun e hEnds => ?_
            rw [List.cons_append, hUse e, hScan e hEnds]
            rfl
          | ended cause hScan =>
            refine .ended cause fun e hEnds => ?_
            rw [List.cons_append, hUse e, hScan e hEnds]
            rfl

end Expansion

end CCompiler
