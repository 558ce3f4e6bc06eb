import Mathlib
import CCompiler.Proofs.Preprocess.Inline

/-
  How strings made of arguments are spelled.

  A hash makes a string of the argument after it, as the list
  of the argument stands by then.  Substitution expands the
  argument in its list, so an earlier use of the parameter
  that stands alone may change what a later string is made of.
  It does not where no such use comes first, and where the
  expansion finds nothing to replace.

  Main declarations:
    * `Substitution.written`
    * `Substitution.substVia`, `Substitution.subst_eq_via`
    * `Substitution.Spares`
    * `Substitution.repeats_expandAll`
    * `Substitution.Intact`, `Substitution.Matches`
-/

------------
-- Two Ways to Spell
------------

namespace CCompiler

namespace Substitution

open Pre

/-
  The spellings of tokens as they are written: a space
  wherever there are blanks or new lines between two of them.
-/
def written : List Token → Bytes
| [] => []
| first :: rest =>
  spelling first ++ rest.flatMap fun t =>
    if t.spaced || t.atLineStart then
      Bytes.of ' ' :: spelling t
    else spelling t

/- Lines after the first one start with blanks. -/
def Indented (ts : List Token) : Prop :=
  ∀ t ∈ ts.tail, t.atLineStart = true → t.spaced = true

variable {ts : List Token}

theorem written_eq (hIndented : Indented ts) : written ts = spellings ts := by
  cases ts with
  | nil => rfl
  | cons first rest =>
    have hSame : ∀ t ∈ rest, (t.spaced || t.atLineStart) = t.spaced := by
      intro t ht
      have hBlank := hIndented t ht
      cases hSpaced : t.spaced with
      | true => rfl
      | false =>
        rw [hSpaced] at hBlank
        simpa using hBlank
    change spelling first ++ _ = spelling first ++ _
    congr 1
    refine List.flatMap_congr fun t ht => ?_
    rw [hSame t ht]

/- A string literal of some spelling in the place of a hash. -/
def literal (hash : Token) (text : Bytes) : Pre Token :=
  makeToken (ascii "\"" ++ text ++ ascii "\"") hash

/- The argument that a token names. -/
def named? (args : List MacroArg) (t : Token) :
    Option MacroArg :=
  Progress.arg? { args := args } t

/- How a hash before a token makes a string. -/
abbrev Spell := List MacroArg → Token → Token → Pre Token

/- The string of an argument as it stands by then. -/
def spellFound : Spell := fun args hash next =>
  match named? args next with
  | none => fail next .hashWithoutParameter
  | some a =>
    literal hash (spellings (a.toks.takeWhile (!·.isEof)))

/- The string of an argument as it is written in the call. -/
def spellWritten (call : List MacroArg) : Spell :=
  fun _ hash next =>
    match named? call next with
    | none => fail next .hashWithoutParameter
    | some a =>
      literal hash (written (a.toks.takeWhile (!·.isEof)))

/- Substitution with a way to make strings. -/
def substVia (spell : Spell) (expand : Expand) :
    Nat → Progress → List Token → Pre Progress
| 0, _, _ => throw .exhausted
| _, _, [] => throw (.crash .pastEnd)
| fuel + 1, p, t :: rest => do
  let next := rest.headD default
  let after := rest.tail
  if t.isEof then return p
  else if t.is "#" then
    let made ← spell p.args t next
    substVia spell expand fuel (p.push made) after
  else
    let rest? :=
      if t.is "," && next.is "##" then
        p.arg? (after.headD default)
      else none
    match rest?.filter (·.isRest) with
    | some a =>
      if a.isEmpty then substVia spell expand fuel p after.tail
      else substVia spell expand fuel (p.push t) after
    | none =>
      if t.is "##" then
        checkPaste p t next
        let p ← pasteNext p next
        substVia spell expand fuel p after
      else
        let arg? := p.arg? t
        match arg?.filter fun _ => next.is "##" with
        | some a =>
          if a.isEmpty then
            substVia spell expand fuel
              (afterEmpty p (after.headD default)) after.tail
          else substVia spell expand fuel (p.append a.toks) rest
        | none =>
          if t.is "__VA_OPT__" && next.is "(" then
            let (opt, close) ←
              ofScan (Arguments.readOne true 0 after)
            let p ←
              if p.hasRest then do
                let inner ← substVia spell expand fuel
                  { args := p.args } opt
                pure { p with
                  done := p.done ++ inner.done
                  args := inner.args }
              else pure p
            substVia spell expand fuel p
              (← ofScan (Arguments.skip ")" close))
          else
            match arg? with
            | some a =>
              let p ← expandArg expand p t a
              substVia spell expand fuel p rest
            | none => substVia spell expand fuel (p.push t) rest

/- Substitution makes strings of arguments as they stand. -/
theorem subst_eq_via (expand : Expand) (fuel : Nat) (p : Progress) (ts : List Token) :
    subst expand fuel p ts = substVia spellFound expand fuel p ts := by
  induction fuel generalizing p ts with
  | zero => rfl
  | succ fuel ih =>
    cases ts with
    | nil => rfl
    | cons t rest =>
      rw [subst, substVia]
      simp only [ih]
      split
      · rfl
      split
      · cases hArg : p.arg? (rest.headD default) with
        | none =>
          have hNone : named? p.args (rest.headD default) = none := hArg
          simp only [spellFound, hNone]
          rfl
        | some a =>
          have hSome : named? p.args (rest.headD default) = some a := hArg
          simp only [spellFound, hSome]
          rfl
      · rfl

------------
-- Uses before Hashes
------------

/- Whether a token may name an argument. -/
def names (x : Bytes) (t : Token) : Bool :=
  (t.kind == .ident || t.kind == .keyword) && t.text == x

/- Whether a hash stands before a name. -/
def Hashes (x : Bytes) : List Token → Bool
| [] => false
| t :: rest =>
  (t.is "#" && names x (rest.headD default)) || Hashes x rest

/-
  Whether no use of a parameter that stands alone comes before
  a hash on the same one.  `late` is whether such a hash comes
  after the tokens.  Operands of hashes and double hashes do
  not stand alone; further arguments after a comma may.
-/
def Spares (x : Bytes) (late : Bool) : List Token → Bool
| [] => true
| [_] => true
| t :: next :: after =>
  if t.is "#" || t.is "##" then Spares x late after
  else if next.is "##" then
    Spares x late (next :: after) && (!t.is "," || Spares x late after)
  else
    !(names x t && (late || Hashes x (next :: after))) &&
      Spares x late (next :: after)

variable {x : Bytes} {late : Bool}

variable {t : Token}

/- A token of another spelling is no operator. -/
theorem not_operator {text : String} (hIs : t.is text = true) (hHash : ascii text ≠ ascii "#")
    (hPaste : ascii text ≠ ascii "##") : (t.is "#" || t.is "##") = false := by
  rw [Token.is_other hIs hHash, Token.is_other hIs hPaste]
  rfl

variable {rest : List Token}

theorem hashes_tail (hHashes : Hashes x rest = true) : Hashes x (t :: rest) = true := by
  rw [Hashes, hHashes, Bool.or_true]

theorem hashes_suffix (front : List Token) (hHashes : Hashes x rest = true) :
    Hashes x (front ++ rest) = true := by
  induction front with
  | nil => exact hHashes
  | cons t front ih => exact hashes_tail ih

/- The tokens after an operator and its operand. -/
theorem spares_operand (hIs : (t.is "#" || t.is "##") = true)
    (hSpares : Spares x late (t :: rest) = true) : Spares x late rest.tail = true := by
  cases rest with
  | nil => rfl
  | cons next after => rwa [Spares, if_pos hIs] at hSpares

/- The tokens after one that is no operator. -/
theorem spares_tail (hNot : (t.is "#" || t.is "##") = false)
    (hSpares : Spares x late (t :: rest) = true) : Spares x late rest = true := by
  cases rest with
  | nil => rfl
  | cons next after =>
    rw [Spares, if_neg (by simp [hNot])] at hSpares
    split at hSpares
    · exact (Bool.and_eq_true_iff.mp hSpares).1
    · exact (Bool.and_eq_true_iff.mp hSpares).2

variable {next : Token}

/- The tokens after a comma and a double hash. -/
theorem spares_comma {after : List Token} (hComma : t.is "," = true)
    (hPaste : next.is "##" = true) (hSpares : Spares x late (t :: next :: after) = true) :
    Spares x late after = true := by
  have hNot : (t.is "#" || t.is "##") = false := not_operator hComma (by decide) (by decide)
  rw [Spares, if_neg (by simp [hNot]), if_pos hPaste, hComma] at hSpares
  simpa using (Bool.and_eq_true_iff.mp hSpares).2

/- A parameter that stands alone before no hash on it. -/
theorem spares_alone (hNot : (t.is "#" || t.is "##") = false)
    (hNext : (rest.headD default).is "##" = false) (hNames : names x t = true)
    (hSpares : Spares x late (t :: rest) = true) : rest = [] ∨ (late || Hashes x rest) = false := by
  cases rest with
  | nil => exact .inl rfl
  | cons next after =>
    rw [List.headD_cons] at hNext
    rw [Spares, if_neg (by simp [hNot]), if_neg (by simp [hNext]), hNames] at hSpares
    refine .inr ?_
    simpa using (Bool.and_eq_true_iff.mp hSpares).1

/- One part of a body, and what comes after it. -/
theorem readOne_parts {level : Nat} {opt close : List Token}
    (hRead : Arguments.readOne true level ts = .ok (opt, close)) :
    ∃ seg z more, ts = seg ++ z :: more ∧ opt = seg ++ [z.toEof] ∧ close = z :: more ∧
      z.is ")" = true := by
  induction ts generalizing level opt close with
  | nil => cases hRead
  | cons t ts ih =>
    rw [Arguments.readOne] at hRead
    split at hRead
    · rename_i hStop
      cases hRead
      exact ⟨[], t, ts, rfl, rfl, rfl, by simpa using (Bool.and_eq_true_iff.mp hStop).2⟩
    split at hRead
    · cases hRead
    · generalize (if t.is "(" then level + 1
        else if t.is ")" then level - 1 else level) = inner at hRead
      cases hOne : Arguments.readOne true inner ts with
      | error f =>
        simp only [hOne] at hRead
        cases hRead
      | ok r =>
        simp only [hOne] at hRead
        cases hRead
        rcases ih hOne with
          ⟨seg, z, more, rfl, hOpt, hClose, hIs⟩
        exact ⟨t :: seg, z, more, rfl, congrArg (t :: ·) hOpt, hClose, hIs⟩

variable {e : Token}

/- A hash in a part of a body is one in the body. -/
theorem hashes_part (seg : List Token) (hEnds : e.Ends) (rest : List Token)
    (hHashes : Hashes x (seg ++ [e]) = true) : Hashes x (seg ++ rest) = true := by
  have hName : names x e = false := by simp [names, hEnds.kind]
  induction seg with
  | nil =>
    have hIs : e.is "#" = false := hEnds.is_eq_false (by decide)
    simp [Hashes, hIs] at hHashes
  | cons t seg ih =>
    simp only [List.cons_append, Hashes, Bool.or_eq_true_iff, Bool.and_eq_true_iff] at hHashes ⊢
    rcases hHashes with ⟨hHash, hNext⟩ | hLater
    · cases seg with
      | nil => simp [hName] at hNext
      | cons u seg => exact .inl ⟨hHash, hNext⟩
    · exact .inr (ih hLater)

/- The tokens after a part of a body. -/
theorem spares_after {z : Token} (hNot : (z.is "#" || z.is "##") = false) (more : List Token) :
    ∀ seg : List Token, Spares x late (seg ++ z :: more) = true → Spares x late more = true
| [], hSpares => spares_tail hNot hSpares
| [t], hSpares => by
    cases hIs : (t.is "#" || t.is "##") with
    | true => exact spares_operand hIs hSpares
    | false => exact spares_tail hNot (spares_tail hIs hSpares)
| t :: u :: seg, hSpares => by
    cases hIs : (t.is "#" || t.is "##") with
    | true => exact spares_after hNot more seg (spares_operand hIs hSpares)
    | false => exact spares_after hNot more (u :: seg) (spares_tail hIs hSpares)

theorem alone_mono {b c d : Bool} (hImplies : d = true → c = true) (hAlone : (!(b && c)) = true) :
    (!(b && d)) = true := by cases b <;> cases c <;> cases d <;> simp_all

/-
  A part of a body, with a hash that comes after it.  The walk
  over the part is that over the body, up to the token that
  ends it.
-/
theorem spares_part {z e : Token} (hEnds : e.Ends) (hPaste : z.is "##" = false)
    (more : List Token) :
    ∀ seg : List Token, Spares x late (seg ++ z :: more) = true →
        Spares x (late || Hashes x more) (seg ++ [e]) = true
| [], _ => rfl
| [t], hSpares => by
    have hEnd : e.is "##" = false := hEnds.is_eq_false (by decide)
    have hLast : Hashes x [e] = false := by simp [Hashes, hEnds.is_eq_false (s := "#") (by decide)]
    simp only [List.cons_append, List.nil_append, Spares,
      hPaste, hEnd, Bool.false_eq_true, if_false] at hSpares ⊢
    split at hSpares
    · rename_i hIs
      rw [if_pos hIs]
    · rename_i hNot
      rw [if_neg hNot, Bool.and_true, hLast, Bool.or_false]
      refine alone_mono (fun hLate => ?_) (Bool.and_eq_true_iff.mp hSpares).1
      rw [Bool.or_eq_true_iff] at hLate ⊢
      exact hLate.imp_right hashes_tail
| t :: u :: seg, hSpares => by
    simp only [List.cons_append, Spares] at hSpares ⊢
    split at hSpares
    · rename_i hIs
      rw [if_pos hIs]
      exact spares_part hEnds hPaste more seg hSpares
    · rename_i hNot
      rw [if_neg hNot]
      split at hSpares
      · rename_i hNext
        rw [if_pos hNext]
        rw [Bool.and_eq_true_iff] at hSpares ⊢
        refine ⟨spares_part hEnds hPaste more (u :: seg) hSpares.1, ?_⟩
        cases hComma : t.is "," with
        | false => rfl
        | true =>
          have hRest := hSpares.2
          rw [hComma] at hRest
          exact spares_part hEnds hPaste more seg hRest
      · rename_i hNext
        rw [if_neg hNext]
        rw [Bool.and_eq_true_iff] at hSpares ⊢
        refine ⟨?_, spares_part hEnds hPaste more (u :: seg) hSpares.2⟩
        refine alone_mono (fun hLate => ?_) hSpares.1
        rw [Bool.or_eq_true_iff, Bool.or_eq_true_iff] at hLate
        rw [Bool.or_eq_true_iff]
        rcases hLate with (hLate | hMore) | hPart
        · exact .inl hLate
        · exact .inr (hashes_suffix (u :: seg) (hashes_tail hMore))
        · exact .inr (hashes_part (u :: seg) hEnds (z :: more) hPart)

------------
-- Lists with Nothing to Replace
------------

open Expansion

/- Expanding a list with nothing to replace gives it back. -/
def Repeats (ms : Macros) (expand : Expand) : Prop :=
  ∀ (s s' : Session) (front : List Token) (e : Token)
    (r : Expanded),
    s.macros = ms → Flat front → (∀ t ∈ front, Idle ms t) →
      e.Ends → expand (front ++ [e]) s = .ok r s' →
      r = ⟨[], front.map (shownIn s),
        if front.isEmpty then none else some 0, e⟩

theorem repeatStep_idle {expand : Expand} {s s' : Session} {front : List Token}
    (hFlat : Flat front) (hIdle : ∀ t ∈ front, Idle s.macros t) (hEnds : e.Ends) (n : Nat)
    {p : Expansion.Progress} (hToks : p.toks = front ++ [e]) (hFresh : p.fresh = 0)
    (hUsed : p.used = #[])
    (hKept : p.kept? =
      if p.done.toList.isEmpty then none else some 0) {r : Expanded}
    (hRun : repeatStep (step expand) n p s = .ok r s') :
    r = ⟨[], p.done.toList ++ front.map (shownIn s), if (p.done.toList ++ front).isEmpty then none
      else some 0, e⟩ := by
  induction front generalizing n p with
  | nil =>
    cases n with
    | zero => cases hRun
    | succ n =>
      have hStep : step expand p s = .ok (.inr ⟨[], p.done.toList, p.kept?, e⟩)
              s := by
        unfold step
        rw [hToks]
        simp only [List.nil_append, hEnds.isEof, if_true, hUsed]
        rfl
      rw [repeatStep, bind_ok hStep] at hRun
      cases hRun
      rw [hKept]
      simp
  | cons t front ih =>
    cases n with
    | zero => cases hRun
    | succ n =>
      have hPlain := hFlat t (by simp)
      rw [List.forall_mem_cons] at hIdle
      rw [repeatStep_go (step_kept expand hToks hPlain.isEof
        (by simp [Conditional.isHash, hPlain.atLineStart]) hIdle.1)] at hRun
      have hNext := ih (fun u hu => hFlat u (by simp [hu]))
        hIdle.2 n (p := p.keep (shownIn s t) _) rfl
        (by simp [Progress.keep, hFresh]) hUsed ?_ hRun
      · rw [hNext]
        simp [Progress.keep]
      · simp only [Progress.keep, hKept, hFresh]
        cases hDone : p.done.toList with
        | nil =>
          have hSize : p.done.size = 0 := by
            rw [← Array.length_toList, hDone]
            rfl
          simp [hSize]
        | cons u us => simp

theorem repeats_expandAll (ms : Macros) (n : Nat) : Repeats ms (expandAll n) := by
  intro s s' front e r hState hFlat hIdle hEnds hRun
  subst hState
  cases n with
  | zero => cases hRun
  | succ n =>
    have hAll := repeatStep_idle hFlat hIdle hEnds n
      (p := { toks := front ++ [e] }) rfl rfl rfl rfl hRun
    simpa using hAll

/- The list that is left, with the blanks of a parameter. -/
theorem source_repeated (s : Session) (t : Token) (front : List Token) (e : Token) :
    (Expanded.spacedAs t ⟨[], front.map (shownIn s),
        if front.isEmpty then none else some 0, e⟩).source =
      spacedAs t (front.map (shownIn s) ++ [e]) := by
  cases front with
  | nil => rfl
  | cons u front => rfl

/- Blanks before the first token do not show in a spelling. -/
theorem spellings_repeated (s : Session) (t : Token) (front : List Token) :
    spellings (spacedAs t (front.map (shownIn s))) = spellings front := by
  cases front with
  | nil => rfl
  | cons u front =>
    change spelling u ++ _ = spelling u ++ _
    congr 1
    rw [List.flatMap_map]
    rfl

------------
-- Arguments as they are Spelled
------------

/- The spelling of the argument of a name. -/
def spelled? (args : List MacroArg) (x : Bytes) :
    Option Bytes :=
  (args.find? (·.name == x)).map fun a =>
    spellings (a.toks.takeWhile (!·.isEof))

/- Arguments with another list for one of them. -/
theorem find?_setArg (name : Bytes) (ts : List Token) (args : List MacroArg) (x : Bytes) :
    (Progress.setArg.go name ts args).find? (·.name == x) = (args.find? (·.name == x)).map fun a =>
        if a.name == name then { a with toks := ts } else a := by
  induction args with
  | nil => rfl
  | cons a args ih =>
    rw [Progress.setArg.go]
    by_cases hName : a.name = name
    · subst hName
      rw [if_pos (beq_self_eq_true _), List.find?_cons, List.find?_cons]
      cases hOther : a.name == x with
      | true => simp
      | false =>
        cases hFind : args.find? (·.name == x) with
        | none => rfl
        | some b =>
          have hIs := List.find?_some hFind
          have hNot : (b.name == a.name) = false := by
            rw [beq_iff_eq] at hIs
            rw [hIs, beq_eq_false_iff_ne]
            rintro rfl
            simp at hOther
          simp only [Option.map_some, hNot, Bool.false_eq_true, if_false]
    · have hNot : (a.name == name) = false := beq_eq_false_iff_ne.mpr hName
      rw [if_neg (by simp [hNot]), List.find?_cons, List.find?_cons, ih]
      cases a.name == x with
      | true => simp only [Option.map_some, hNot, Bool.false_eq_true, if_false]
      | false => rfl

/-
  What is known of a call: the macros, the arguments as they
  are written, and names of some with nothing to replace.
-/
structure Call where
  macros : Macros
  args : List MacroArg
  idle : Bytes → Prop

/-
  Arguments that are spelled as they are written: those that
  are due for a hash, and those with nothing to replace, which
  keep nothing to replace.
-/
structure Intact
    (c : Call)
    (due : Bytes → Prop)
    (p : Progress)
    (s : Session) : Prop where
  due : ∀ x, due x → spelled? p.args x = spelled? c.args x
  absent : ∀ x, spelled? c.args x = none → spelled? p.args x = none
  idle : ∀ x, c.idle x → spelled? p.args x = spelled? c.args x ∧
      ∀ a, p.args.find? (·.name == x) = some a → ∀ t ∈ a.toks, Idle c.macros t
  level : ∀ x, c.idle x → s.macros = c.macros ∧ Level p

variable {c : Call} {due : Bytes → Prop} {p q : Progress}
  {s s' : Session}

variable {due' : Bytes → Prop}

theorem Intact.mono (hIntact : Intact c due p s) (hDue : ∀ x, due' x → due x) : Intact c due' p s :=
  ⟨fun x hx => hIntact.due x (hDue x hx), hIntact.absent, hIntact.idle, hIntact.level⟩

/- Steps that leave the arguments alone. -/
theorem Intact.kept (hIntact : Intact c due p s) (hArgs : q.args = p.args)
    (hLevel : ∀ x, c.idle x → s'.macros = c.macros ∧ Level q) : Intact c due q s' := by
  refine ⟨fun x hx => ?_, fun x hx => ?_, fun x hx => ?_, hLevel⟩
  · rw [hArgs]
    exact hIntact.due x hx
  · rw [hArgs]
    exact hIntact.absent x hx
  · rw [hArgs]
    exact hIntact.idle x hx

/- A step that gives one argument another list. -/
theorem Intact.setArg {a : MacroArg} {src : List Token} (hIntact : Intact c due p s)
    (hFind : p.args.find? (·.name == a.name) = some a)
    (hDue : ∀ x, due' x → due x ∧ (x ≠ a.name ∨ c.idle x))
    (hSource : c.idle a.name → spellings (src.takeWhile (!·.isEof)) =
          spellings (a.toks.takeWhile (!·.isEof)) ∧ ∀ w ∈ src, Idle c.macros w)
    (hArgs : q.args = Progress.setArg.go a.name src p.args)
    (hLevel : ∀ x, c.idle x → s'.macros = c.macros ∧ Level q) : Intact c due' q s' := by
  have hOther : ∀ x, x ≠ a.name → q.args.find? (·.name == x) = p.args.find? (·.name == x) := by
    intro x hx
    rw [hArgs, find?_setArg]
    cases hOld : p.args.find? (·.name == x) with
    | none => rfl
    | some b =>
      have hName := List.find?_some hOld
      have hNot : (b.name == a.name) = false := by
        rw [beq_iff_eq] at hName
        rw [hName]
        exact beq_eq_false_iff_ne.mpr hx
      simp only [Option.map_some, hNot, Bool.false_eq_true, if_false]
  have hSelf : q.args.find? (·.name == a.name) = some { a with toks := src } := by
    rw [hArgs, find?_setArg, hFind]
    simp
  have hIdle : ∀ x, c.idle x → spelled? q.args x = spelled? c.args x ∧
        ∀ b, q.args.find? (·.name == x) = some b → ∀ w ∈ b.toks, Idle c.macros w := by
    intro x hx
    by_cases hName : x = a.name
    · subst hName
      rcases hSource hx with ⟨hSame, hTokens⟩
      refine ⟨?_, fun b hb => ?_⟩
      · rw [← (hIntact.idle _ hx).1]
        unfold spelled?
        rw [hSelf, hFind]
        exact congrArg some hSame
      · rw [hSelf] at hb
        cases hb
        exact hTokens
    · unfold spelled?
      rw [hOther x hName]
      exact hIntact.idle x hx
  refine ⟨fun x hx => ?_, fun x hx => ?_, hIdle, hLevel⟩
  · rcases hDue x hx with ⟨hBefore, hName | hQuiet⟩
    · unfold spelled?
      rw [hOther x hName]
      exact hIntact.due x hBefore
    · exact (hIdle x hQuiet).1
  · have hNone := hIntact.absent x hx
    unfold spelled? at hNone ⊢
    rw [hOther x ?_]
    · exact hNone
    · rintro rfl
      rw [hFind] at hNone
      cases hNone

/- The same string for a hash on an argument. -/
theorem spell_eq {call args : List MacroArg}
    (hIndented : ∀ a ∈ call, Indented (a.toks.takeWhile (!·.isEof))) (hash : Token)
    (hSame : ∀ x, names x next = true → spelled? args x = spelled? call x) :
    spellFound args hash next = spellWritten call args hash next := by
  unfold spellFound spellWritten named? Progress.arg?
  by_cases hName : (next.kind == .ident || next.kind == .keyword) = true
  · simp only [hName, if_true]
    have hSpelled := hSame next.text (by simp [names, hName])
    unfold spelled? at hSpelled
    cases hFound : args.find? (·.name == next.text) with
    | none =>
      rw [hFound] at hSpelled
      cases hCall : call.find? (·.name == next.text) with
      | none => rfl
      | some b =>
        rw [hCall] at hSpelled
        cases hSpelled
    | some a =>
      rw [hFound] at hSpelled
      cases hCall : call.find? (·.name == next.text) with
      | none =>
        rw [hCall] at hSpelled
        cases hSpelled
      | some b =>
        rw [hCall] at hSpelled
        have hText := Option.some.inj hSpelled
        have hMem := List.mem_of_find?_eq_some hCall
        simp only [hText, written_eq (hIndented b hMem)]
  · rw [if_neg hName, if_neg hName]

/- Two computations that agree, and what they come to. -/
def Matches
    {α : Type}
    (s : Session)
    (x y : Pre α)
    (Q : α → Session → Prop) : Prop :=
  x s = y s ∧ ∀ a s', x s = .ok a s' → Q a s'

section Matching

variable {α β : Type}

variable {Q : α → Session → Prop}

theorem matches_refl {x : Pre α} (hPost : ∀ a s', x s = .ok a s' → Q a s') : Matches s x x Q :=
  ⟨rfl, hPost⟩

theorem matches_pure {a : α} (hPost : Q a s) : Matches s (pure a) (pure a) Q := by
  refine matches_refl fun b s' hRun => ?_
  cases hRun
  exact hPost

theorem matches_throw (e : Failure) (Q : α → Session → Prop) :
    Matches s (throw e : Pre α) (throw e) Q := matches_refl fun _ _ hRun => by cases hRun

theorem matches_ofScan (scan : TokenScan α) :
    Matches s (ofScan scan) (ofScan scan) fun a s' =>
      scan = .ok a ∧ s' = s := by
  refine matches_refl fun a s' hRun => ?_
  cases scan with
  | error f => cases hRun
  | ok b =>
    cases hRun
    exact ⟨rfl, rfl⟩

variable {y : Pre α}

theorem Matches.bind {x : Pre α} {f g : α → Pre β} {R : β → Session → Prop}
    (hFirst : Matches s x y Q) (hNext : ∀ a s', Q a s' → Matches s' (f a) (g a) R) :
    Matches s (x >>= f) (y >>= g) R := by
  rcases hFirst with ⟨hSame, hPost⟩
  cases hRun : x s with
  | error e s' =>
    rw [hRun] at hSame
    refine ⟨?_, fun b s'' hOk => ?_⟩
    · rw [bind_error hRun, bind_error hSame.symm]
    · rw [bind_error hRun] at hOk
      cases hOk
  | ok a s' =>
    rw [hRun] at hSame
    have hAfter := hNext a s' (hPost a s' hRun)
    refine ⟨?_, fun b s'' hOk => ?_⟩
    · rw [bind_ok hRun, bind_ok hSame.symm]
      exact hAfter.1
    · rw [bind_ok hRun] at hOk
      exact hAfter.2 b s'' hOk

theorem matches_ite {b : Prop} [Decidable b] {x x' y' : Pre α} (hThen : b → Matches s x y Q)
    (hElse : ¬ b → Matches s x' y' Q) :
    Matches s (if b then x else x') (if b then y else y') Q := by
  split
  · exact hThen ‹_›
  · exact hElse ‹_›

end Matching

end Substitution

end CCompiler
