import Mathlib
import CCompiler.Proofs.Preprocess.Inline

/-
  The arguments of a call.

  A call ends at the parenthesis that matches the one it opens
  with.  What stands between them is divided into arguments at
  the commas outside of inner parentheses; the last argument of
  a variadic macro takes over what is left with its commas, or
  may be left out.

  Main declarations:
    * `Arguments.Balanced`, `Arguments.Separated`
    * `Arguments.Collected`, `Arguments.Suits`
    * `Arguments.readAll_collects`
-/

------------
-- Balanced Tokens
------------

namespace CCompiler

namespace Arguments

/-
  Tokens in which every parenthesis is matched, and the number
  of commas outside of parentheses among them.
-/
inductive Balanced : Nat → List Token → Prop
| nil :
    Balanced 0 []
| other {n t ts}
    (hMore : t.isEof = false)
    (hOpen : t.is "(" = false)
    (hClose : t.is ")" = false)
    (hComma : t.is "," = false)
    (hRest : Balanced n ts) :
    Balanced n (t :: ts)
| comma {n t ts}
    (hComma : t.is "," = true)
    (hRest : Balanced n ts) :
    Balanced (n + 1) (t :: ts)
| group {n k o inner c ts}
    (hOpen : o.is "(" = true)
    (hInner : Balanced k inner)
    (hClose : c.is ")" = true)
    (hRest : Balanced n ts) :
    Balanced n (o :: (inner ++ c :: ts))

variable {all : Bool} {n k level : Nat} {t c : Token}
  {ts us arg after rest : List Token}
  {r : List Token × List Token}

theorem Balanced.append (hFirst : Balanced n ts) (hSecond : Balanced k us) :
    Balanced (n + k) (ts ++ us) := by
  induction hFirst with
  | nil => simpa using hSecond
  | other hMore hOpen hClose hComma _ ih => exact .other hMore hOpen hClose hComma ih
  | @comma n _ _ hComma _ ih =>
    rw [Nat.succ_add]
    exact .comma hComma ih
  | group hOpen hInner hClose _ _ ih =>
    rw [List.cons_append, List.append_assoc, List.cons_append]
    exact .group hOpen hInner hClose ih

/- Tokens with commas are divided at the first one. -/
theorem Balanced.exists_comma (hBalanced : Balanced n ts) (hSome : n = k + 1) :
    ∃ a c us, ts = a ++ c :: us ∧ Balanced 0 a ∧ c.is "," = true ∧ Balanced k us := by
  induction hBalanced with
  | nil => cases hSome
  | @other _ t _ hMore hOpen hClose hComma _ ih =>
    rcases ih hSome with ⟨a, c, us, rfl, hFirst, hIs, hRest⟩
    exact ⟨t :: a, c, us, rfl, .other hMore hOpen hClose hComma hFirst, hIs, hRest⟩
  | @comma _ t ts hComma hRest _ =>
    cases hSome
    exact ⟨[], t, ts, rfl, .nil, hComma, hRest⟩
  | @group _ _ o inner c _ hOpen hInner hClose _ _ ih =>
    rcases ih hSome with ⟨a, d, us, rfl, hFirst, hIs, hRest⟩
    exact ⟨o :: (inner ++ c :: a), d, us, by simp, .group hOpen hInner hClose hFirst, hIs, hRest⟩

------------
-- One Argument
------------

/- How deep the tokens behind a token stand. -/
def nested (level : Nat) (t : Token) : Nat :=
  if t.is "(" then level + 1
  else if t.is ")" then level - 1
  else level

/- Whether an argument ends at a token. -/
def stops (all : Bool) (t : Token) : Bool :=
  t.is ")" || (!all && t.is ",")

/- The result of a scan whose value is completed. -/
theorem scanned_of_map {f : α → β} {scan : TokenScan α} {b : β} (hScan : scan.map f = .ok b) :
    ∃ a, scan = .ok a ∧ f a = b := by
  cases scan with
  | error cause => cases hScan
  | ok a =>
    cases hScan
    exact ⟨a, rfl, rfl⟩

theorem readOne_stop (hStops : stops all t = true) (ts : List Token) :
    readOne all 0 (t :: ts) = .ok ([t.toEof], t :: ts) := by
  rw [readOne, if_pos (by simpa [stops] using hStops)]

/- No argument ends inside of parentheses. -/
theorem within (hInside : level = 0 → stops all t = false) :
    (level == 0 && (t.is ")" || (!all && t.is ","))) = false := by
  cases level with
  | zero => exact hInside rfl
  | succ level => rfl

theorem readOne_next (hInside : level = 0 → stops all t = false) (hMore : t.isEof = false)
    (ts : List Token) :
    readOne all level (t :: ts) = (readOne all (nested level t) ts).map
        fun r => (t :: r.1, r.2) := by
  rw [readOne, if_neg (ne_true_of_eq_false (within hInside)), if_neg (ne_true_of_eq_false hMore)]
  change (readOne all (nested level t) ts >>= fun r => .ok (t :: r.1, r.2)) = _
  cases readOne all (nested level t) ts <;> rfl

/- A token at the end of its list ends no argument. -/
theorem readOne_eof (hInside : level = 0 → stops all t = false) (hEof : t.isEof = true)
    (ts : List Token) : readOne all level (t :: ts) = .error (.prematureEnd, t) := by
  rw [readOne, if_neg (ne_true_of_eq_false (within hInside)), if_pos hEof]

/- Inside of parentheses all tokens up to the end are taken. -/
theorem more_of_readOne (hInside : level = 0 → stops all t = false)
    (hRead : readOne all level (t :: ts) = .ok r) :
    t.isEof = false ∧ ∃ arg, readOne all (nested level t) ts = .ok (arg, r.2) ∧ r.1 = t :: arg := by
  cases hEof : t.isEof with
  | true =>
    rw [readOne_eof hInside hEof] at hRead
    cases hRead
  | false =>
    rw [readOne_next hInside hEof] at hRead
    rcases scanned_of_map hRead with ⟨⟨arg, after⟩, hNext, rfl⟩
    exact ⟨rfl, arg, hNext, rfl⟩

theorem nested_open (hOpen : t.is "(" = true) : nested level t = level + 1 := by
  rw [nested, if_pos hOpen]

theorem nested_close (hClose : t.is ")" = true) : nested (level + 1) t = level := by
  have hOpen : t.is "(" = false := Token.is_other hClose (by decide)
  rw [nested, if_neg (ne_true_of_eq_false hOpen), if_pos hClose, Nat.add_sub_cancel]

theorem nested_other (hOpen : t.is "(" = false) (hClose : t.is ")" = false) :
    nested level t = level := by
  rw [nested, if_neg (ne_true_of_eq_false hOpen), if_neg (ne_true_of_eq_false hClose)]

/- Tokens with the spelling of a sign do not end their list. -/
def Genuine (ts : List Token) : Prop :=
  ∀ t ∈ ts, t.isEof = true → t.Ends

theorem Genuine.more {w : String} (hGenuine : Genuine ts) (hMem : t ∈ ts) (hIs : t.is w = true)
    (hText : ascii w ≠ []) : t.isEof = false := by
  cases hEof : t.isEof with
  | false => rfl
  | true =>
    rw [(hGenuine t hMem hEof).is_eq_false hText] at hIs
    cases hIs

theorem Genuine.of_subset (hGenuine : Genuine ts) (hSubset : ∀ t ∈ us, t ∈ ts) : Genuine us :=
  fun t hMem => hGenuine t (hSubset t hMem)

/- Balanced tokens are taken over, and what follows them is read. -/
theorem readOne_append (hBalanced : Balanced n ts) (hGenuine : Genuine ts)
    (hInside : level = 0 → all = false → n = 0) (us : List Token) :
    readOne all level (ts ++ us) = (readOne all level us).map fun r => (ts ++ r.1, r.2) := by
  induction hBalanced generalizing level us with
  | nil =>
    rw [List.nil_append]
    cases readOne all level us <;> rfl
  | @other _ t ts hMore hOpen hClose hComma _ ih =>
    rw [List.cons_append, readOne_next (fun _ => by simp [stops, hClose, hComma]) hMore,
      nested_other hOpen hClose,
      ih (hGenuine.of_subset (by simp +contextual)) hInside]
    cases readOne all level us <;> rfl
  | @comma n t ts hComma _ ih =>
    have hOpen : t.is "(" = false := Token.is_other hComma (by decide)
    have hClose : t.is ")" = false := Token.is_other hComma (by decide)
    have hStays : level = 0 → all = true := by
      intro hZero
      cases all with
      | true => rfl
      | false => cases hInside hZero rfl
    rw [List.cons_append, readOne_next (fun hZero => by simp [stops, hClose, hStays hZero])
      (hGenuine.more (by simp) hComma (by decide)), nested_other hOpen hClose,
      ih (hGenuine.of_subset (by simp +contextual))
        (fun hZero hAll => by simp [hStays hZero] at hAll)]
    cases readOne all level us <;> rfl
  | @group n k o inner c ts hOpen _ hClose _ ihInner ih =>
    have hShut : o.is ")" = false := Token.is_other hOpen (by decide)
    have hComma : o.is "," = false := Token.is_other hOpen (by decide)
    rw [List.cons_append, List.append_assoc, List.cons_append,
      readOne_next (fun _ => by simp [stops, hShut, hComma])
        (hGenuine.more (by simp) hOpen (by decide)), nested_open hOpen,
      ihInner (hGenuine.of_subset (by simp +contextual)) (fun hZero => by cases hZero),
      readOne_next (fun hZero => by cases hZero)
        (hGenuine.more (by simp) hClose (by decide)), nested_close hClose,
      ih (hGenuine.of_subset (by simp +contextual)) hInside]
    cases readOne all level us with
    | error cause => rfl
    | ok r => simp [Except.map]

/- What is read inside of a parenthesis goes on behind its match. -/
theorem readOne_inner (hRead : readOne all (level + 1) ts = .ok r) :
    ∃ n inner close us arg, ts = inner ++ close :: us ∧ Balanced n inner ∧ close.is ")" = true ∧
      readOne all level us = .ok (arg, r.2) ∧
      r.1 = inner ++ close :: arg := by
  -- A group inside is followed by tokens of the same level, so
  -- the induction is on the number of tokens.
  induction hSize : ts.length using Nat.strong_induction_on generalizing level ts r with
  | _ size ih =>
  subst hSize
  cases ts with
  | nil => cases hRead
  | cons t ts =>
  rcases more_of_readOne (fun hZero => by cases hZero) hRead with
    ⟨hMore, arg, hNext, hArg⟩
  cases hOpen : t.is "(" with
  | true =>
    rw [nested_open hOpen] at hNext
    rcases ih _ (by simp) hNext rfl with
      ⟨k, group, c, us, next, rfl, hGroup, hShut, hRest, rfl⟩
    rcases ih us.length (by simp; omega) hRest rfl with
      ⟨n, inner, close, vs, last, rfl, hInner, hClose, hLast, rfl⟩
    exact ⟨n, t :: (group ++ c :: inner), close, vs, last,
      by simp, .group hOpen hGroup hShut hInner, hClose, hLast,
      by rw [hArg]; simp⟩
  | false =>
  cases hClose : t.is ")" with
  | true =>
    rw [nested_close hClose] at hNext
    exact ⟨0, [], t, ts, arg, rfl, .nil, hClose, hNext, hArg⟩
  | false =>
    rw [nested_other hOpen hClose] at hNext
    rcases ih _ (by simp) hNext rfl with
      ⟨n, inner, close, us, last, rfl, hInner, hShut, hLast, rfl⟩
    cases hComma : t.is "," with
    | true =>
      exact ⟨n + 1, t :: inner, close, us, last, rfl, .comma hComma hInner, hShut, hLast, hArg⟩
    | false =>
      exact ⟨n, t :: inner, close, us, last, rfl,
        .other hMore hOpen hClose hComma hInner, hShut, hLast, hArg⟩

/-
  An argument is the balanced tokens up to the first token
  outside of parentheses that ends it.
-/
theorem readOne_outer (hRead : readOne all 0 ts = .ok r) :
    ∃ n arg stop us, ts = arg ++ stop :: us ∧ Balanced n arg ∧
      (all = false → n = 0) ∧ stops all stop = true ∧
      r = (arg ++ [stop.toEof], stop :: us) := by
  induction hSize : ts.length using Nat.strong_induction_on generalizing ts r with
  | _ size ih =>
  subst hSize
  cases ts with
  | nil => cases hRead
  | cons t ts =>
  cases hStops : stops all t with
  | true =>
    rw [readOne_stop hStops] at hRead
    cases hRead
    exact ⟨0, [], t, ts, rfl, .nil, fun _ => rfl, hStops, rfl⟩
  | false =>
  rcases more_of_readOne (fun _ => hStops) hRead with
    ⟨hMore, next, hNext, hArg⟩
  have hClose : t.is ")" = false := (Bool.or_eq_false_iff.mp hStops).1
  cases hOpen : t.is "(" with
  | true =>
    rw [nested_open hOpen] at hNext
    rcases readOne_inner hNext with
      ⟨k, group, c, us, last, rfl, hGroup, hShut, hRest, rfl⟩
    rcases ih us.length (by simp; omega) hRest rfl with
      ⟨n, arg, stop, vs, rfl, hBalanced, hNone, hStop, hLast⟩
    rw [Prod.mk.injEq] at hLast
    exact ⟨n, t :: (group ++ c :: arg), stop, vs, by simp,
      .group hOpen hGroup hShut hBalanced, hNone, hStop,
      Prod.ext (by rw [hArg, hLast.1]; simp) hLast.2⟩
  | false =>
    rw [nested_other hOpen hClose] at hNext
    rcases ih _ (by simp) hNext rfl with
      ⟨n, arg, stop, us, rfl, hBalanced, hNone, hStop, hLast⟩
    rw [Prod.mk.injEq] at hLast
    have hWhole : r = (t :: arg ++ [stop.toEof], stop :: us) :=
      Prod.ext (by rw [hArg, hLast.1]; rfl) hLast.2
    cases hComma : t.is "," with
    | true =>
      have hAll : all = true := by
        cases all with
        | true => rfl
        | false => simp [stops, hComma] at hStops
      exact ⟨n + 1, t :: arg, stop, us, rfl, .comma hComma hBalanced,
        (fun hNot => by simp [hAll] at hNot), hStop, hWhole⟩
    | false =>
      exact ⟨n, t :: arg, stop, us, rfl,
        .other hMore hOpen hClose hComma hBalanced, hNone, hStop, hWhole⟩

/- A balanced argument is read up to the token that ends it. -/
theorem readOne_balanced (hBalanced : Balanced n ts) (hGenuine : Genuine ts)
    (hNone : all = false → n = 0) (hStops : stops all t = true) (us : List Token) :
    readOne all 0 (ts ++ t :: us) = .ok (ts ++ [t.toEof], t :: us) := by
  rw [readOne_append hBalanced hGenuine (fun _ => hNone), readOne_stop hStops]
  rfl

------------
-- Lists of Arguments
------------

/- Pieces that each follow a comma. -/
inductive Led : List (List Token) → List Token → Prop
| nil :
    Led [] []
| cons {c piece pieces ts}
    (hComma : c.is "," = true)
    (hRest : Led pieces ts) :
    Led (piece :: pieces) (c :: (piece ++ ts))

/- Pieces with one comma between each two. -/
inductive Separated : List (List Token) → List Token → Prop
| nil :
    Separated [] []
| cons {piece pieces ts}
    (hRest : Led pieces ts) :
    Separated (piece :: pieces) (piece ++ ts)

variable {first last : List Token} {piece : List Token}
  {pieces : List (List Token)} {stop : Token}
  {params : List Bytes} {name : Bytes} {rest? : Option Bytes}
  {done : Array MacroArg} {args : List MacroArg} {a : MacroArg}
  {isRest : Bool} {found : Array MacroArg × List Token}

theorem Led.append (hLed : Led pieces ts) (hComma : c.is "," = true) :
    Led (pieces ++ [piece]) (ts ++ c :: piece) := by
  induction hLed with
  | nil =>
    have hLast : Led [piece] (c :: (piece ++ [])) := .cons hComma .nil
    rwa [List.append_nil] at hLast
  | cons hFirst _ ih =>
    rw [List.cons_append, List.cons_append, List.append_assoc]
    exact .cons hFirst ih

theorem Led.exists_last (hLed : Led (pieces ++ [piece]) ts) :
    ∃ us c, Led pieces us ∧ c.is "," = true ∧ ts = us ++ c :: piece := by
  induction pieces generalizing ts with
  | nil =>
    cases hLed with
    | cons hComma hRest =>
      cases hRest
      exact ⟨[], _, .nil, hComma, by simp⟩
  | cons first pieces ih =>
    cases hLed with
    | @cons c _ _ _ hComma hRest =>
      rcases ih hRest with ⟨us, d, hLed, hLast, rfl⟩
      exact ⟨c :: (first ++ us), d, .cons hComma hLed, hLast, by simp⟩

theorem Separated.append (hSeparated : Separated pieces ts) (hSome : pieces ≠ [])
    (hComma : c.is "," = true) : Separated (pieces ++ [piece]) (ts ++ c :: piece) := by
  cases hSeparated with
  | nil => exact absurd rfl hSome
  | cons hLed =>
    rw [List.cons_append, List.append_assoc]
    exact .cons (hLed.append hComma)

/- An argument of a call ends at what follows it. -/
theorem Led.exists_stop (hLed : Led pieces ts) (hStops : stops false stop = true)
    (us : List Token) :
    ∃ t vs, ts ++ stop :: us = t :: vs ∧ stops false t = true := by
  cases hLed with
  | nil => exact ⟨stop, us, rfl, hStops⟩
  | cons hComma _ => exact ⟨_, _, rfl, by simp [stops, hComma]⟩

/- Tokens are divided at as many commas as there are arguments. -/
theorem Balanced.divide (hBalanced : Balanced k ts) (hEnough : n ≤ k) :
    ∃ first pieces led last, ts = first ++ (led ++ last) ∧
      Balanced 0 first ∧ Led pieces led ∧ pieces.length = n ∧
      (∀ piece ∈ pieces, Balanced 0 piece) ∧
      (last = [] ∨ n < k ∧ ∃ j c us, last = c :: us ∧ c.is "," = true ∧ Balanced j us) := by
  induction n generalizing k ts with
  | zero =>
    cases k with
    | zero => exact ⟨ts, [], [], [], by simp, hBalanced, .nil, rfl, by simp, .inl rfl⟩
    | succ k =>
      rcases hBalanced.exists_comma rfl with
        ⟨first, c, us, rfl, hFirst, hComma, hRest⟩
      exact ⟨first, [], [], c :: us, rfl, hFirst, .nil, rfl,
        by simp, .inr ⟨by omega, k, c, us, rfl, hComma, hRest⟩⟩
  | succ n ih =>
    cases k with
    | zero => omega
    | succ k =>
      rcases hBalanced.exists_comma rfl with
        ⟨first, c, us, rfl, hFirst, hComma, hRest⟩
      rcases ih hRest (by omega) with
        ⟨next, pieces, led, last, rfl, hNext, hLed, hLength, hPieces, hLast⟩
      refine ⟨first, next :: pieces, c :: (next ++ led), last,
        by simp, hFirst, .cons hComma hLed, by simp [hLength],
        ?_, ?_⟩
      · simpa using ⟨hNext, hPieces⟩
      · exact hLast.imp_right fun h => ⟨by omega, h.2⟩

/- The tokens of an argument without the end of their list. -/
def inner (a : MacroArg) : List Token :=
  a.toks.dropLast

/-
  An argument, with the number of commas outside of parentheses
  in it.
-/
structure Taken
    (name : Bytes)
    (isRest : Bool)
    (n : Nat)
    (a : MacroArg) : Prop where
  name : a.name = name
  isRest : a.isRest = isRest
  ended : ∃ e, e.Ends ∧ a.toks = inner a ++ [e]
  balanced : Balanced n (inner a)

/- The arguments for named parameters, in order. -/
def TakenAll (params : List Bytes) (args : List MacroArg) : Prop :=
  List.Forall₂ (fun name => Taken name false 0) params args

theorem inner_read (arg : List Token) : inner ⟨name, isRest, arg ++ [t.toEof]⟩ = arg := by
  simp [inner]

theorem Taken.of_read (hBalanced : Balanced n arg) :
    Taken name isRest n ⟨name, isRest, arg ++ [t.toEof]⟩ where
  name := rfl
  isRest := rfl
  ended := ⟨t.toEof, t.ends_toEof, by rw [inner_read]⟩
  balanced := by rwa [inner_read]

/- There is one comma less than arguments. -/
theorem TakenAll.led (hTaken : TakenAll params args) (hLed : Led (args.map inner) ts) :
    Balanced params.length ts := by
  induction hTaken generalizing ts with
  | nil =>
    cases hLed
    exact .nil
  | cons hFirst _ ih =>
    cases hLed with
    | cons hComma hRest =>
      have hMore := hFirst.balanced.append (ih hRest)
      rw [Nat.zero_add] at hMore
      exact .comma hComma hMore

theorem TakenAll.separated (hTaken : TakenAll params args)
    (hSeparated : Separated (args.map inner) ts) : Balanced (params.length - 1) ts := by
  cases hTaken with
  | nil =>
    cases hSeparated
    exact .nil
  | cons hFirst hTaken =>
    cases hSeparated with
    | cons hRest =>
      have hMore := hFirst.balanced.append (TakenAll.led hTaken hRest)
      rwa [Nat.zero_add] at hMore

variable {s : String}

theorem skip_ok (hSkip : skip s ts = .ok us) : ∃ t, ts = t :: us ∧ t.is s = true := by
  cases ts with
  | nil => cases hSkip
  | cons t ts =>
    cases hIs : t.is s with
    | true =>
      rw [skip, if_pos hIs] at hSkip
      cases hSkip
      exact ⟨t, rfl, hIs⟩
    | false =>
      rw [skip, if_neg (ne_true_of_eq_false hIs)] at hSkip
      cases hSkip

theorem skip_is (hIs : t.is s = true) : skip s (t :: ts) = .ok ts := if_pos hIs

/- Behind other arguments a named one follows a comma. -/
theorem readNamed_next (hSome : done.isEmpty = false) (hComma : c.is "," = true)
    (hBalanced : Balanced 0 piece) (hGenuine : Genuine piece) (hStops : stops false t = true)
    (us : List Token) :
    readNamed (name :: params) done (c :: (piece ++ t :: us)) =
      readNamed params (done.push ⟨name, false, piece ++ [t.toEof]⟩) (t :: us) := by
  rw [readNamed, if_neg (ne_true_of_eq_false hSome), skip_is hComma]
  change readOne false 0 _ >>= _ = _
  rw [readOne_balanced hBalanced hGenuine (fun _ => rfl) hStops]
  rfl

theorem readNamed_first (hBalanced : Balanced 0 piece) (hGenuine : Genuine piece)
    (hStops : stops false t = true) (us : List Token) :
    readNamed (name :: params) #[] (piece ++ t :: us) =
      readNamed params #[⟨name, false, piece ++ [t.toEof]⟩] (t :: us) := by
  have hFirst : (#[] : Array MacroArg).isEmpty = true := rfl
  rw [readNamed, if_pos hFirst]
  change readOne false 0 _ >>= _ = _
  rw [readOne_balanced hBalanced hGenuine (fun _ => rfl) hStops]
  rfl

/- What the reading of one named argument has read. -/
theorem exists_named (hRead : readNamed (name :: params) done ts = .ok found) :
    ∃ us arg stop rest, (done.isEmpty = true ∧ ts = us ∨
        done.isEmpty = false ∧ skip "," ts = .ok us) ∧
      us = arg ++ stop :: rest ∧ Balanced 0 arg ∧ readNamed params
        (done.push ⟨name, false, arg ++ [stop.toEof]⟩)
        (stop :: rest) = .ok found := by
  have hStart : ∃ us, (done.isEmpty = true ∧ ts = us ∨
        done.isEmpty = false ∧ skip "," ts = .ok us) ∧
      (readOne false 0 us >>= fun r =>
        readNamed params (done.push ⟨name, false, r.1⟩) r.2) = .ok found := by
    rw [readNamed] at hRead
    cases hSome : done.isEmpty with
    | true =>
      rw [if_pos hSome] at hRead
      exact ⟨ts, .inl ⟨rfl, rfl⟩, hRead⟩
    | false =>
      rw [if_neg (ne_true_of_eq_false hSome)] at hRead
      rcases exists_of_bind_ok hRead with ⟨us, hSkip, hNext⟩
      exact ⟨us, .inr ⟨rfl, hSkip⟩, hNext⟩
  rcases hStart with ⟨us, hSkip, hNext⟩
  rcases exists_of_bind_ok hNext with ⟨r, hOne, hMore⟩
  rcases readOne_outer hOne with
    ⟨n, arg, stop, rest, rfl, hBalanced, hNone, -, rfl⟩
  cases hNone rfl
  exact ⟨_, arg, stop, rest, hSkip, rfl, hBalanced, hMore⟩

/- Behind other arguments each one follows a comma. -/
theorem exists_led (hRead : readNamed params done ts = .ok found) (hSome : done.isEmpty = false) :
    ∃ args led, found.1.toList = done.toList ++ args ∧
      ts = led ++ found.2 ∧ Led (args.map inner) led ∧
      TakenAll params args := by
  induction params generalizing done ts with
  | nil =>
    cases hRead
    exact ⟨[], [], by simp, rfl, .nil, .nil⟩
  | cons name params ih =>
    rcases exists_named hRead with
      ⟨us, arg, stop, rest, hSkip, rfl, hBalanced, hMore⟩
    rw [hSome] at hSkip
    rcases hSkip with ⟨hNone, -⟩ | ⟨-, hSkip⟩
    · cases hNone
    rcases skip_ok hSkip with ⟨c, rfl, hComma⟩
    rcases ih hMore (by simp) with
      ⟨args, led, hFound, hRest, hLed, hTaken⟩
    rw [hRest]
    refine ⟨⟨name, false, arg ++ [stop.toEof]⟩ :: args,
      c :: (arg ++ led), by simp [hFound], by simp, ?_,
      .cons (.of_read hBalanced) hTaken⟩
    rw [List.map_cons, inner_read]
    exact .cons hComma hLed

/- The arguments for named parameters are separated by commas. -/
theorem exists_separated (hRead : readNamed params #[] ts = .ok found) :
    ∃ body, ts = body ++ found.2 ∧ Separated (found.1.toList.map inner) body ∧
      TakenAll params found.1.toList := by
  cases params with
  | nil =>
    cases hRead
    exact ⟨[], rfl, .nil, .nil⟩
  | cons name params =>
    rcases exists_named hRead with
      ⟨us, arg, stop, rest, hSkip, rfl, hBalanced, hMore⟩
    rcases hSkip with ⟨-, rfl⟩ | ⟨hSome, -⟩
    on_goal 2 => cases hSome
    rcases exists_led hMore rfl with
      ⟨args, led, hFound, hRest, hLed, hTaken⟩
    rw [hRest, hFound]
    refine ⟨arg ++ led, by simp, ?_, .cons (.of_read hBalanced) hTaken⟩
    change Separated (inner _ :: args.map inner) _
    rw [inner_read]
    exact .cons hLed

------------
-- Calls
------------

/-
  The arguments of a call.  A variadic macro has a further one,
  which has no comma in front of it when it is left out.
-/
inductive Collected
    (params : List Bytes) :
    Option Bytes → List MacroArg → List Token → Prop
| named {args : List MacroArg} {ts : List Token}
    (hNamed : TakenAll params args)
    (hSeparated : Separated (args.map inner) ts) :
    Collected params none args ts
| further {name : Bytes} {args : List MacroArg} {n : Nat}
    {a : MacroArg} {ts : List Token}
    (hNamed : TakenAll params args)
    (hRest : Taken name true n a)
    (hSeparated : Separated ((args ++ [a]).map inner) ts) :
    Collected params (some name) (args ++ [a]) ts
| omitted {name : Bytes} {args : List MacroArg} {a : MacroArg}
    {ts : List Token}
    (hNamed : TakenAll params args)
    (hRest : Taken name true 0 a)
    (hNothing : inner a = [])
    (hSeparated : Separated (args.map inner) ts) :
    Collected params (some name) (args ++ [a]) ts

/-
  Whether a macro of some number of named parameters can be
  called with tokens of some number of commas.
-/
def Suits : Nat → Bool → Nat → List Token → Prop
| 0, false, _, ts => ts = []
| 0, true, _, _ => True
| params + 1, false, commas, _ => commas = params
| params + 1, true, commas, _ => params ≤ commas

theorem Collected.suits (hCollected : Collected params rest? args ts) :
    ∃ n, Balanced n ts ∧ Suits params.length rest?.isSome n ts := by
  cases hCollected with
  | named hNamed hSeparated =>
    refine ⟨_, hNamed.separated hSeparated, ?_⟩
    cases hNamed with
    | nil =>
      cases hSeparated
      rfl
    | cons _ _ => rfl
  | @further _ args n a _ hNamed hRest hSeparated =>
    cases hNamed with
    | nil =>
      cases hSeparated with
      | cons hLed =>
        cases hLed
        rw [List.append_nil]
        exact ⟨n, hRest.balanced, trivial⟩
    | @cons _ first params args hFirst hNamed =>
      rw [List.cons_append, List.map_cons, List.map_append] at hSeparated
      cases hSeparated with
      | cons hLed =>
        rcases hLed.exists_last with
          ⟨us, c, hInit, hComma, rfl⟩
        have hMore := ((hFirst.balanced.append
          (TakenAll.led hNamed hInit)).append (.comma hComma hRest.balanced))
        rw [Nat.zero_add] at hMore
        refine ⟨params.length + (n + 1), by simpa using hMore, ?_⟩
        exact Nat.le_add_right _ _
  | omitted hNamed _ _ hSeparated =>
    refine ⟨_, hNamed.separated hSeparated, ?_⟩
    cases hNamed with
    | nil => trivial
    | cons _ _ => exact Nat.le_refl _

/- What the reading of the further argument has read. -/
theorem exists_rest (hRead : readRest name done ts = .ok found) :
    (∃ t us, ts = t :: us ∧ t.is ")" = true ∧
      found = (done.push ⟨name, true, [t.toEof]⟩, ts)) ∨ ∃ us n arg stop rest,
      (done.isEmpty = true ∧ ts = us ∨ done.isEmpty = false ∧ skip "," ts = .ok us) ∧
      us = arg ++ stop :: rest ∧ Balanced n arg ∧
      found = (done.push ⟨name, true, arg ++ [stop.toEof]⟩, stop :: rest) := by
  cases ts with
  | nil => cases hRead
  | cons t ts =>
  rw [readRest] at hRead
  cases hShut : t.is ")" with
  | true =>
    rw [if_pos hShut] at hRead
    cases hRead
    exact .inl ⟨t, ts, rfl, hShut, rfl⟩
  | false =>
    rw [if_neg (ne_true_of_eq_false hShut)] at hRead
    have hStart : ∃ us, (done.isEmpty = true ∧ t :: ts = us ∨
          done.isEmpty = false ∧ skip "," (t :: ts) = .ok us) ∧
        (readOne true 0 us >>= fun r =>
          .ok (done.push ⟨name, true, r.1⟩, r.2)) = .ok found := by
      cases hSome : done.isEmpty with
      | true =>
        rw [if_pos hSome] at hRead
        exact ⟨t :: ts, .inl ⟨rfl, rfl⟩, hRead⟩
      | false =>
        rw [if_neg (ne_true_of_eq_false hSome)] at hRead
        rcases exists_of_bind_ok hRead with ⟨us, hSkip, hNext⟩
        exact ⟨us, .inr ⟨rfl, hSkip⟩, hNext⟩
    rcases hStart with ⟨us, hSkip, hNext⟩
    rcases exists_of_bind_ok hNext with ⟨r, hOne, hFound⟩
    rcases readOne_outer hOne with
      ⟨n, arg, stop, rest, rfl, hBalanced, -, -, rfl⟩
    cases hFound
    exact .inr ⟨_, n, arg, stop, rest, hSkip, rfl, hBalanced, rfl⟩

/- The further argument follows the named ones. -/
theorem exists_further (hSeparated : Separated (done.toList.map inner) us)
    (hNamed : TakenAll params done.toList) (hRead : readRest name done ts = .ok found) :
    ∃ body, us ++ ts = body ++ found.2 ∧ Collected params (some name) found.1.toList body := by
  rcases exists_rest hRead with
    ⟨t, more, rfl, hShut, rfl⟩ | ⟨more, n, arg, stop, rest, hSkip, rfl, hBalanced, rfl⟩
  · refine ⟨us, rfl, ?_⟩
    rw [Array.toList_push]
    exact .omitted hNamed (.of_read .nil) (inner_read []) hSeparated
  · have hRest : Taken name true n ⟨name, true, arg ++ [stop.toEof]⟩ := .of_read hBalanced
    rcases hSkip with ⟨hNone, rfl⟩ | ⟨hSome, hSkip⟩
    · have hNil : done = #[] := Array.isEmpty_iff.mp hNone
      subst hNil
      cases hNamed
      cases hSeparated
      refine ⟨arg, rfl, .further .nil hRest ?_⟩
      change Separated [inner _] _
      rw [inner_read]
      have hOne : Separated [arg] (arg ++ []) := .cons .nil
      rwa [List.append_nil] at hOne
    · rcases skip_ok hSkip with ⟨c, rfl, hComma⟩
      refine ⟨us ++ c :: arg, by simp, ?_⟩
      rw [Array.toList_push]
      refine .further hNamed hRest ?_
      rw [List.map_append]
      change Separated (_ ++ [inner _]) _
      rw [inner_read]
      refine hSeparated.append (fun hNil => ?_) hComma
      have hNone : done = #[] := by simpa using hNil
      rw [hNone] at hSome
      cases hSome

theorem readAll_named (hNamed : readNamed params #[] ts = .ok found) :
    readAll t params none ts = if ((found.2.head?).map (·.is ")")).getD false then
        (skip ")" found.2).map fun _ => (found.1.toList, found.2)
      else .error (.tooManyArguments, t) := by
  rw [readAll, hNamed]
  change (if _ then _ else _) = _
  split
  · change (skip ")" found.2 >>= fun _ => .ok _) = _
    cases skip ")" found.2 <;> rfl
  · rfl

theorem readAll_further (hNamed : readNamed params #[] ts = .ok found) :
    readAll t params (some name) ts = readRest name found.1 found.2 >>= fun r =>
        (skip ")" r.2).map fun _ => (r.1.toList, r.2) := by
  rw [readAll, hNamed]
  change readRest name found.1 found.2 >>= _ = _
  rfl

/- A call is read up to the match of its parenthesis. -/
theorem collected_of_readAll (hRead : readAll t params rest? ts = .ok (args, after)) :
    ∃ body close us, ts = body ++ close :: us ∧ after = close :: us ∧ close.is ")" = true ∧
      Collected params rest? args body := by
  have hSome : ∃ found, readNamed params #[] ts = .ok found := by
    rw [readAll] at hRead
    rcases exists_of_bind_ok hRead with ⟨found, hNamed, -⟩
    exact ⟨found, hNamed⟩
  rcases hSome with ⟨⟨done, rest⟩, hNamed⟩
  rcases exists_separated hNamed with
    ⟨led, rfl, hSeparated, hTaken⟩
  cases rest? with
  | none =>
    rw [readAll_named hNamed] at hRead
    split at hRead
    on_goal 2 => cases hRead
    rcases scanned_of_map hRead with ⟨us, hSkip, hFound⟩
    cases hFound
    rcases skip_ok hSkip with ⟨close, hRest, hClose⟩
    rw [hRest]
    exact ⟨led, close, us, rfl, rfl, hClose, .named hTaken hSeparated⟩
  | some name =>
    rw [readAll_further hNamed] at hRead
    rcases exists_of_bind_ok hRead with
      ⟨⟨whole, more⟩, hFurther, hRead⟩
    rcases scanned_of_map hRead with ⟨us, hSkip, hFound⟩
    cases hFound
    rcases skip_ok hSkip with ⟨close, hRest, hClose⟩
    rcases exists_further hSeparated hTaken hFurther with
      ⟨body, hBody, hCollected⟩
    rw [hRest] at hBody
    exact ⟨body, close, us, hBody, hRest, hClose, hCollected⟩

/- The arguments behind the first are read up to what follows. -/
theorem readNamed_led (hLed : Led pieces ts) (hLength : pieces.length = params.length)
    (hPieces : ∀ piece ∈ pieces, Balanced 0 piece) (hGenuine : Genuine ts)
    (hStops : stops false stop = true) (hSome : done.isEmpty = false) (us : List Token) :
    ∃ whole, readNamed params done (ts ++ stop :: us) = .ok (whole, stop :: us) ∧
      whole.isEmpty = false := by
  induction hLed generalizing params done with
  | nil =>
    cases params with
    | nil => exact ⟨done, rfl, hSome⟩
    | cons _ _ => cases hLength
  | @cons c piece pieces ts hComma hRest ih =>
    cases params with
    | nil => cases hLength
    | cons name params =>
    rcases hRest.exists_stop hStops us with ⟨t, vs, hNext, hEnd⟩
    rw [List.forall_mem_cons] at hPieces
    have hMore : (done.push ⟨name, false, piece ++ [t.toEof]⟩).isEmpty = false := by simp
    rcases ih (Nat.succ_inj.mp hLength) hPieces.2
        (hGenuine.of_subset (by simp +contextual)) hMore with
      ⟨whole, hRead, hWhole⟩
    refine ⟨whole, ?_, hWhole⟩
    rw [List.cons_append, List.append_assoc, hNext, readNamed_next hSome hComma hPieces.1
        (hGenuine.of_subset (by simp +contextual)) hEnd, ← hNext, hRead]

/- The arguments for named parameters are read up to what follows. -/
theorem readNamed_separated (hFirst : Balanced 0 piece) (hLed : Led pieces ts)
    (hLength : pieces.length = params.length) (hPieces : ∀ piece ∈ pieces, Balanced 0 piece)
    (hGenuine : Genuine (piece ++ ts)) (hStops : stops false stop = true) (us : List Token)
    (name : Bytes) :
    ∃ whole, readNamed (name :: params) #[]
        (piece ++ (ts ++ stop :: us)) = .ok (whole, stop :: us) ∧
      whole.isEmpty = false := by
  rcases hLed.exists_stop hStops us with ⟨t, vs, hNext, hEnd⟩
  rw [hNext, readNamed_first hFirst (hGenuine.of_subset (by simp +contextual)) hEnd, ← hNext]
  exact readNamed_led hLed hLength hPieces (hGenuine.of_subset (by simp +contextual)) hStops rfl us

theorem readRest_close (hClose : t.is ")" = true) (us : List Token) (name : Bytes)
    (done : Array MacroArg) : ∃ whole, readRest name done (t :: us) = .ok (whole, t :: us) := by
  rw [readRest, if_pos hClose]
  exact ⟨_, rfl⟩

/- The further argument is read up to the end of the call. -/
theorem readRest_balanced (hBalanced : Balanced n ts) (hGenuine : Genuine ts)
    (hClose : t.is ")" = true) (hComma : c.is "," = true) (hSome : done.isEmpty = false)
    (us : List Token) (name : Bytes) :
    ∃ whole, readRest name done (c :: (ts ++ t :: us)) = .ok (whole, t :: us) := by
  have hShut : c.is ")" = false := Token.is_other hComma (by decide)
  refine ⟨done.push ⟨name, true, ts ++ [t.toEof]⟩, ?_⟩
  rw [readRest, if_neg (ne_true_of_eq_false hShut),
    if_neg (ne_true_of_eq_false hSome), skip_is hComma]
  change readOne true 0 _ >>= _ = _
  rw [readOne_balanced hBalanced hGenuine (fun h => by cases h) (by simp [stops, hClose])]
  rfl

/- A macro of further arguments only takes all tokens. -/
theorem readRest_only (hBalanced : Balanced n ts) (hGenuine : Genuine ts)
    (hClose : t.is ")" = true) (us : List Token) :
    ∃ whole, readRest name #[] (ts ++ t :: us) = .ok (whole, t :: us) := by
  have hStops : stops true t = true := by simp [stops, hClose]
  cases ts with
  | nil => exact readRest_close hClose us _ _
  | cons first ts =>
    have hOpen : first.is ")" = false := by
      cases hBalanced with
      | other _ _ hShut _ _ => exact hShut
      | comma hComma _ => exact Token.is_other hComma (by decide)
      | group hOpen _ _ _ => exact Token.is_other hOpen (by decide)
    have hFirst : (#[] : Array MacroArg).isEmpty = true := rfl
    have hOne := readOne_balanced hBalanced hGenuine (fun h => by cases h) hStops us
    refine ⟨#[⟨name, true, first :: ts ++ [t.toEof]⟩], ?_⟩
    rw [List.cons_append] at hOne ⊢
    rw [readRest, if_neg (ne_true_of_eq_false hOpen), if_pos hFirst]
    change readOne true 0 _ >>= _ = _
    rw [hOne]
    rfl

theorem readAll_of_named (hNamed : readNamed params #[] ts = .ok (done, stop :: us))
    (hClose : stop.is ")" = true) : ∃ r, readAll t params none ts = .ok r := by
  refine ⟨(done.toList, stop :: us), ?_⟩
  rw [readAll_named hNamed, if_pos (by simpa using hClose), skip_is hClose]
  rfl

theorem readAll_of_further {whole : Array MacroArg} (hNamed : readNamed params #[] ts = .ok found)
    (hRest : readRest name found.1 found.2 = .ok (whole, stop :: us))
    (hClose : stop.is ")" = true) : ∃ r, readAll t params (some name) ts = .ok r := by
  refine ⟨(whole.toList, stop :: us), ?_⟩
  rw [readAll_further hNamed, hRest]
  change (skip ")" (stop :: us)).map _ = _
  rw [skip_is hClose]
  rfl

/- A call with a suitable number of commas can be read. -/
theorem readAll_suited (hBalanced : Balanced n ts)
    (hSuits : Suits params.length rest?.isSome n ts) (hGenuine : Genuine ts)
    (hClose : c.is ")" = true) (us : List Token) :
    ∃ r, readAll t params rest? (ts ++ c :: us) = .ok r := by
  have hStops : stops false c = true := by simp [stops, hClose]
  cases params with
  | nil =>
    cases rest? with
    | none =>
      have hNone : ts = [] := hSuits
      subst hNone
      have hNamed : readNamed [] #[] (c :: us) = .ok (#[], c :: us) := rfl
      exact readAll_of_named hNamed hClose
    | some name =>
      rcases readRest_only hBalanced hGenuine hClose us with
        ⟨whole, hRest⟩
      have hNamed : readNamed [] #[] (ts ++ c :: us) = .ok (#[], ts ++ c :: us) := rfl
      exact readAll_of_further hNamed hRest hClose
  | cons first params =>
    have hEnough : params.length ≤ n := by
      cases rest? with
      | none => exact Nat.le_of_eq (Eq.symm hSuits)
      | some name => exact hSuits
    rcases hBalanced.divide hEnough with
      ⟨arg, pieces, led, last, rfl, hArg, hLed, hLength, hPieces, hLast⟩
    have hStart : Genuine (arg ++ led) :=
      hGenuine.of_subset fun t hMem => by
        rcases List.mem_append.mp hMem with hMem | hMem <;> simp [hMem]
    rcases hLast with rfl | ⟨hFurther, k, d, vs, rfl, hComma, hRest⟩
    · rcases readNamed_separated hArg hLed hLength hPieces
        hStart hStops us first with ⟨whole, hNamed, -⟩
      rw [List.append_nil, List.append_assoc]
      cases rest? with
      | none => exact readAll_of_named hNamed hClose
      | some name =>
        rcases readRest_close hClose us name whole with
          ⟨all, hRest⟩
        exact readAll_of_further hNamed hRest hClose
    · have hBetween : stops false d = true := by simp [stops, hComma]
      rcases readNamed_separated hArg hLed hLength hPieces
        hStart hBetween (vs ++ c :: us) first with
          ⟨whole, hNamed, hSome⟩
      rw [List.append_assoc, List.append_assoc, List.cons_append]
      cases rest? with
      | none => exact absurd hSuits (Nat.ne_of_gt hFurther)
      | some name =>
        rcases readRest_balanced hRest (hGenuine.of_subset (by simp +contextual)) hClose
          hComma hSome us name with ⟨all, hRest⟩
        exact readAll_of_further hNamed hRest hClose

/-
  A call is read if its parenthesis is matched and the number
  of commas suits the macro.  The tokens up to the match are
  the arguments, with one comma between each two.
-/
theorem readAll_collects (start : Token) (params : List Bytes) (rest? : Option Bytes)
    (ts : List Token) (hGenuine : Genuine ts) :
    (∀ args after, readAll start params rest? ts = .ok (args, after) →
        ∃ n body close us, ts = body ++ close :: us ∧ after = close :: us ∧ close.is ")" = true ∧
          Balanced n body ∧ Collected params rest? args body) ∧
    ((∃ r, readAll start params rest? ts = .ok r) ↔ ∃ n body close us, ts = body ++ close :: us ∧
        close.is ")" = true ∧ Balanced n body ∧
        Suits params.length rest?.isSome n body) := by
  refine ⟨?_, ?_, ?_⟩
  · intro args after hRead
    rcases collected_of_readAll hRead with
      ⟨body, close, us, hTokens, hAfter, hClose, hCollected⟩
    rcases hCollected.suits with ⟨n, hBalanced, -⟩
    exact ⟨n, body, close, us, hTokens, hAfter, hClose, hBalanced, hCollected⟩
  · rintro ⟨⟨args, after⟩, hRead⟩
    rcases collected_of_readAll hRead with
      ⟨body, close, us, hTokens, -, hClose, hCollected⟩
    rcases hCollected.suits with ⟨n, hBalanced, hSuits⟩
    exact ⟨n, body, close, us, hTokens, hClose, hBalanced, hSuits⟩
  · rintro ⟨n, body, close, us, rfl, hClose, hBalanced, hSuits⟩
    exact readAll_suited hBalanced hSuits (hGenuine.of_subset (by simp +contextual)) hClose us

/- The tokens of a call from its first argument on. -/
def sampleCall : List Token :=
  let sign (s : String) : Token :=
    { (default : Token) with kind := .punct, text := ascii s }
  let name (s : String) : Token :=
    { (default : Token) with kind := .ident, text := ascii s }
  [name "a", sign ",", sign "(", name "b", sign ",", name "c",
    sign ")", sign ")", sign ";", (default : Token).toEof]

/- The comma inside of parentheses divides no arguments. -/
theorem readAll_collects_nested :
    Genuine sampleCall ∧ ∃ args after n body close us,
      readAll default [ascii "x", ascii "y"] none sampleCall = .ok (args, after) ∧
      sampleCall = body ++ close :: us ∧ after = close :: us ∧
      close.is ")" = true ∧ Balanced n body ∧
      Collected [ascii "x", ascii "y"] none args body := by
  have hGenuine : Genuine sampleCall := by
    intro t hMem hEof
    simp only [sampleCall, List.mem_cons, List.not_mem_nil, or_false] at hMem
    rcases hMem with rfl | rfl | rfl | rfl | rfl | rfl | rfl | rfl | rfl | rfl
    on_goal 10 => exact Token.ends_toEof default
    all_goals cases hEof
  have hBalanced : Balanced 1 (sampleCall.take 7) :=
    .other rfl rfl rfl rfl (.comma rfl (.group rfl (.other rfl rfl rfl rfl (.comma rfl
        (.other rfl rfl rfl rfl .nil))) rfl .nil))
  have hReads := readAll_collects default [ascii "x", ascii "y"] none sampleCall hGenuine
  rcases hReads.2.mpr ⟨1, sampleCall.take 7, _, _, rfl, rfl,
    hBalanced, rfl⟩ with ⟨⟨args, after⟩, hRead⟩
  rcases hReads.1 args after hRead with
    ⟨n, body, close, us, hCall⟩
  exact ⟨hGenuine, args, after, n, body, close, us, hRead, hCall⟩

end Arguments

end CCompiler
