import Mathlib
import CCompiler.Proofs.Preprocess.Literals

/-
  Chains of double hashes whose operands may be empty.

  What a chain makes is told by itself: the tokens of its
  operands are joined from left to right, and an operand
  without tokens takes no part.  Substitution keeps no more of
  a chain than the tokens that it has made so far, so two
  empty operands at the front are like no chain at all: what
  comes third is joined to what stands before the chain.

  Main declarations:
    * `Substitution.join`, `Substitution.joinAll`
    * `Substitution.Chain`, `Chain.Fits`, `Chain.Kept`
    * `Substitution.subst_links`
    * `Substitution.subst_chain`
-/

------------
-- Joining
------------

namespace CCompiler

namespace Substitution

/- The tokens that an operand stands for. -/
def operand (p : Progress) (t : Token) : List Token :=
  match p.arg? t with
  | some a => a.toks.takeWhile (!·.isEof)
  | none => [t]

/-
  The tokens of an operand behind others: its first one is
  joined to the last of them.
-/
def join : List Token → List Token → Pre (List Token)
| done, [] => return done
| done, t :: ts =>
  match done.getLast? with
  | none => return t :: ts
  | some last => do return done.dropLast ++ (← paste last t) :: ts

/- The tokens of operands joined from left to right. -/
def joinAll (done : List Token) : List (List Token) → Pre (List Token)
| [] => return done
| ts :: more => do joinAll (← join done ts) more

/- Tokens that have been made behind others. -/
def Progress.behind (p : Progress) (ts : List Token) : Progress :=
  { p with done := p.done ++ ts.toArray }

variable {p : Progress} {t : Token} {cur ts : List Token}

@[simp]
theorem operand_behind (t : Token) :
    operand (p.behind ts) t = operand p t := rfl

theorem append_behind (us : List Token) :
    (p.behind ts).append us =
      p.behind (ts ++ us.takeWhile (!·.isEof)) := by simp [Progress.behind, Progress.append]

@[simp]
theorem joinAll_nil (done : List Token) :
    joinAll done [] = pure done := rfl

theorem joinAll_cons (done ts : List Token) (more : List (List Token)) :
    joinAll done (ts :: more) = join done ts >>= fun out => joinAll out more := rfl

/- Before the first tokens an operand is left as it is. -/
theorem join_nil (ts : List Token) : join [] ts = pure ts := by cases ts <;> rfl

theorem joinAll_nil_cons (ts : List Token) (more : List (List Token)) :
    joinAll [] (ts :: more) = joinAll ts more := by rw [joinAll_cons, join_nil, pure_bind]

/- Operands without tokens make nothing. -/
theorem joinAll_empty {more : List (List Token)} (hEmpty : ∀ ts ∈ more, ts = [])
    (done : List Token) : joinAll done more = pure done := by
  induction more with
  | nil => rfl
  | cons ts more ih =>
    rw [hEmpty ts List.mem_cons_self, joinAll_cons, join, pure_bind, ih fun us hus =>
        hEmpty us (List.mem_cons_of_mem _ hus)]

/- What is joined to some tokens stands behind the same ones. -/
theorem join_concat (init : List Token) (last t : Token) (ts : List Token) :
    join (init ++ [last]) (t :: ts) =
      paste last t >>= fun u => pure (init ++ u :: ts) := by simp [join]

/- The last token of those made so far joined to another one. -/
theorem pasteLast_behind (p : Progress) (init : List Token) (last t : Token) :
    (p.behind (init ++ [last])).pasteLast t =
      paste last t >>= fun u => pure (p.behind (init ++ [u])) := by
  have hBack : (p.behind (init ++ [last])).done.back? = some last := by simp [Progress.behind]
  unfold Progress.pasteLast
  rw [hBack]
  simp [Progress.behind]

/- An operand behind a double hash. -/
theorem pasteNext_behind (p : Progress) (hSome : cur ≠ []) (t : Token) :
    pasteNext (p.behind cur) t = join cur (operand p t) >>= fun out =>
        pure (p.behind out) := by
  obtain ⟨init, last, hConcat⟩ := (List.eq_nil_or_concat cur).resolve_left hSome
  rw [List.concat_eq_append] at hConcat
  subst hConcat
  have hArg : (p.behind (init ++ [last])).arg? t = p.arg? t := rfl
  unfold pasteNext operand
  rw [hArg]
  cases hFound : p.arg? t with
  | none =>
    simp only
    rw [pasteLast_behind, join_concat, bind_assoc]
    simp
  | some a =>
    simp only
    cases hToks : a.toks with
    | nil => simp [join]
    | cons u us =>
      have hFirst : a.isEmpty = u.isEof := by simp [MacroArg.isEmpty, hToks]
      cases hEof : u.isEof with
      | true => simp [hFirst, hEof, join]
      | false =>
        simp only [hFirst, hEof, Bool.false_eq_true, if_false, Bool.not_false,
          List.takeWhile_cons_of_pos]
        rw [pasteLast_behind, join_concat, bind_assoc, bind_assoc]
        simp [append_behind]

end Substitution

------------
-- Chains
------------

namespace Substitution

/-
  A chain of double hashes: its first operand, and every
  double hash with the operand behind it.
-/
structure Chain where
  first : Token
  links : List (Token × Token)

namespace Chain

/- The tokens of double hashes and the operands behind them. -/
def linked (links : List (Token × Token)) : List Token :=
  links.flatMap fun l => [l.1, l.2]

/- The tokens of a chain. -/
def tokens (c : Chain) : List Token :=
  c.first :: linked c.links

/- The tokens of the operands behind the first one. -/
def others (c : Chain) (p : Progress) : List (List Token) :=
  c.links.map fun l => operand p l.2

/-
  A chain of parameters and other tokens, with at least one
  double hash.  The first operand is no hash; nor is it a comma
  before the further arguments, which stays or goes with them.
-/
structure Fits (c : Chain) (p : Progress) : Prop where
  nonempty : c.links ≠ []
  hashes : ∀ l ∈ c.links,
    l.1.kind = .punct ∧ l.1.text = ascii "##"
  operands : ∀ l ∈ c.links, l.2.isEof = false
  first : c.first.isEof = false ∧ c.first.is "#" = false ∧
    c.first.is "##" = false
  comma : c.first.is "," = true → ∀ l ∈ c.links.head?,
    ∀ a, p.arg? l.2 = some a → a.isRest = false

/-
  When the first two operands are empty, the chain ends with
  them, or all the others are empty too and something stands
  before the chain.
-/
def Kept (c : Chain) (p : Progress) : Prop :=
  (∀ ts ∈ (operand p c.first :: c.others p).take 2, ts = []) →
    (c.others p).tail = [] ∨ (∀ ts ∈ (c.others p).tail, ts = []) ∧ p.done ≠ #[]

/- The number of steps for a chain: an empty first operand is taken with the next one. -/
def steps (c : Chain) (p : Progress) : Nat :=
  if operand p c.first = [] then c.links.length
  else c.links.length + 1

end Chain

variable {expand : Expand} {fuel : Nat} {p : Progress}
  {cur rest : List Token} {links : List (Token × Token)}

theorem operand_eq_nil {t : Token} : operand p t = [] ↔ ∃ a, p.arg? t = some a ∧ a.isEmpty := by
  unfold operand
  cases p.arg? t with
  | none => simp
  | some a =>
    cases hToks : a.toks with
    | nil => simp [MacroArg.isEmpty, hToks]
    | cons u us => simp [MacroArg.isEmpty, hToks]

theorem afterEmpty_eq (p : Progress) (t : Token) : afterEmpty p t = p.behind (operand p t) := by
  unfold afterEmpty operand
  cases p.arg? t with
  | none => simp [Progress.behind, Progress.push]
  | some a => simp [Progress.behind, Progress.append]

variable {hash : Token}

/- What a double hash is and what not. -/
theorem is_doubleHash (hHash : hash.kind = .punct ∧ hash.text = ascii "##") (w : String) :
    hash.is w = (ascii "##" == ascii w) := by simp [Token.is, hHash.1, hHash.2, TokenKind.isStr]

/- How substitution starts on the first operand of a chain. -/
theorem subst_first {c : Chain} {second : Token} (hFits : c.Fits p)
    (hLinks : c.links = (hash, second) :: links) :
    subst expand (fuel + 1) p (c.first :: hash :: second :: rest) = if operand p c.first = [] then
        subst expand fuel (p.behind (operand p second)) rest
      else subst expand fuel (p.behind (operand p c.first))
        (hash :: second :: rest) := by
  have hNext := is_doubleHash (hFits.hashes (hash, second) (by simp [hLinks]))
  have hParen : (ascii "##" == ascii "(") = false := by decide
  have hSame : (ascii "##" == ascii "##") = true := by decide
  obtain ⟨hEof, hSharp, hDouble⟩ := hFits.first
  have hComma : Option.filter (·.isRest) (if c.first.is "," = true then
        p.arg? second else none) = none := by
    split
    · rename_i hIs
      have hRest := hFits.comma hIs (hash, second) (by simp [hLinks])
      cases hArg : p.arg? second with
      | none => rfl
      | some a => simp [hRest a hArg]
    · rfl
  rw [subst]
  simp only [hEof, hSharp, hDouble, List.headD_cons,
    List.tail_cons, hNext, hParen, hSame, Bool.and_true,
    Bool.and_false, hComma, Bool.false_eq_true, if_false]
  have hOperand := operand_eq_nil (p := p) (t := c.first)
  cases hArg : p.arg? c.first with
  | none =>
    rw [if_neg (by simp [hOperand, hArg])]
    simp [operand, hArg, Progress.behind, Progress.push]
  | some a =>
    rw [hArg] at hOperand
    simp only [Option.filter_some, if_true]
    cases hEmpty : a.isEmpty with
    | true => rw [if_pos rfl, if_pos (hOperand.mpr ⟨a, rfl, hEmpty⟩), afterEmpty_eq]
    | false =>
      rw [if_neg Bool.false_ne_true, if_neg fun hNil => by
        obtain ⟨b, hSame, hNone⟩ := hOperand.mp hNil
        cases hSame
        rw [hEmpty] at hNone
        cases hNone]
      simp [operand, hArg, Progress.behind, Progress.append]

/- A double hash behind some token joins what stands after it. -/
theorem subst_doubleHash {next : Token} (hHash : hash.kind = .punct ∧ hash.text = ascii "##")
    (hNext : next.isEof = false) (hSome : p.done.isEmpty = false) :
    subst expand (fuel + 1) p (hash :: next :: rest) =
      pasteNext p next >>= fun p => subst expand fuel p rest := by
  have hIs := is_doubleHash hHash
  have hEof : hash.isEof = false := by simp [Token.isEof, hHash.1]
  have hCheck : checkPaste p hash next = pure () := by simp [checkPaste, hSome, hNext]
  rw [subst]
  have hString : (ascii "##" == ascii "#") = false := by decide
  have hComma : (ascii "##" == ascii ",") = false := by decide
  simp only [hEof, hIs, hString, hComma, List.headD_cons,
    List.tail_cons, Bool.false_and, Bool.false_eq_true, if_false,
    Option.filter_none, beq_self_eq_true, if_true, hCheck, pure_bind]

/- Double hashes join their operands to what stands before them. -/
theorem subst_links (hHashes : ∀ l ∈ links, l.1.kind = .punct ∧ l.1.text = ascii "##")
    (hOperands : ∀ l ∈ links, l.2.isEof = false) (hSome : cur ≠ []) :
    subst expand (links.length + fuel) (p.behind cur) (Chain.linked links ++ rest) =
      joinAll cur (links.map fun l => operand p l.2) >>=
        fun out => subst expand fuel (p.behind out) rest := by
  induction links generalizing cur with
  | nil => simp [Chain.linked]
  | cons l links ih =>
    have hDone : (p.behind cur).done.isEmpty = false := by simp [Progress.behind, hSome]
    have hLength : (l :: links).length + fuel = links.length + fuel + 1 := by
      rw [List.length_cons]
      omega
    rw [hLength]
    change subst expand _ _ (l.1 :: l.2 :: (Chain.linked links ++ rest)) = _
    rw [subst_doubleHash (hHashes l List.mem_cons_self) (hOperands l List.mem_cons_self) hDone,
      pasteNext_behind p hSome, List.map_cons, joinAll_cons,
      bind_assoc, bind_assoc]
    have hRest : ∀ {out : List Token}, out ≠ [] → subst expand (links.length + fuel) (p.behind out)
            (Chain.linked links ++ rest) = _ :=
      fun hOut => ih (fun l hl => hHashes l (List.mem_cons_of_mem _ hl))
        (fun l hl => hOperands l (List.mem_cons_of_mem _ hl))
        hOut
    cases hTokens : operand p l.2 with
    | nil =>
      simp only [join, pure_bind]
      exact hRest hSome
    | cons t ts =>
      obtain ⟨init, last, hConcat⟩ := (List.eq_nil_or_concat cur).resolve_left hSome
      rw [List.concat_eq_append] at hConcat
      subst hConcat
      rw [join_concat]
      simp only [bind_assoc, pure_bind]
      exact bind_congr fun u => hRest (by simp)

/- Behind two empty operands no other one makes a token. -/
theorem subst_empty_links (hHashes : ∀ l ∈ links, l.1.kind = .punct ∧ l.1.text = ascii "##")
    (hOperands : ∀ l ∈ links, l.2.isEof = false)
    (hEmpty : links = [] ∨ (∀ ts ∈ links.map fun l => operand p l.2, ts = []) ∧
        p.done ≠ #[]) :
    subst expand (links.length + fuel) (p.behind []) (Chain.linked links ++ rest) =
      joinAll [] (links.map fun l => operand p l.2) >>=
        fun out => subst expand fuel (p.behind out) rest := by
  rcases hEmpty with rfl | ⟨hEmpty, hSome⟩
  · simp [Chain.linked]
  · -- what stands before takes the place of the first operand
    let bare : Progress := { p with done := #[] }
    have hBare : p.behind [] = bare.behind p.done.toList := by simp [bare, Progress.behind]
    have hLinks : subst expand (links.length + fuel) (bare.behind p.done.toList)
        (Chain.linked links ++ rest) = _ :=
      subst_links hHashes hOperands (by simpa using hSome)
    have hSame : (links.map fun l => operand bare l.2) = links.map fun l => operand p l.2 := rfl
    rw [hBare, hLinks, hSame, joinAll_empty hEmpty,
      joinAll_empty hEmpty, pure_bind, pure_bind, hBare]

/-
  Substitution replaces a chain by the tokens of its operands
  joined from left to right.  Those without tokens take no
  part, what has been made before stays, and what stands after
  the chain is substituted as if nothing were before it; the
  chain fails only where two tokens do not go together.
-/
theorem subst_chain (expand : Expand) (fuel : Nat) {c : Chain} (hFits : c.Fits p)
    (hKept : c.Kept p) (rest : List Token) :
    subst expand (c.steps p + fuel) p (c.tokens ++ rest) =
      joinAll (operand p c.first) (c.others p) >>=
        fun out => subst expand fuel (p.behind out) rest := by
  obtain ⟨⟨hash, second⟩, links, hLinks⟩ := List.exists_cons_of_ne_nil hFits.nonempty
  have hTokens : c.tokens ++ rest = c.first :: hash :: second :: (Chain.linked links ++ rest) := by
    simp [Chain.tokens, hLinks, Chain.linked]
  have hOthers : c.others p = operand p second :: links.map fun l => operand p l.2 := by
    simp [Chain.others, hLinks]
  have hHashes := hFits.hashes
  have hOperands := hFits.operands
  rw [hLinks, List.forall_mem_cons] at hHashes hOperands
  unfold Chain.Kept at hKept
  rw [hOthers] at hKept
  rw [hTokens, hOthers]
  unfold Chain.steps
  by_cases hFirst : operand p c.first = []
  · have hSteps : c.links.length + fuel = links.length + fuel + 1 := by
      rw [hLinks, List.length_cons]
      omega
    rw [if_pos hFirst, hSteps, subst_first hFits hLinks, if_pos hFirst, hFirst, joinAll_nil_cons]
    by_cases hSecond : operand p second = []
    · rw [hSecond]
      exact subst_empty_links hHashes.2 hOperands.2 (by simpa [hFirst, hSecond] using hKept)
    · exact subst_links hHashes.2 hOperands.2 hSecond
  · have hSteps : c.links.length + 1 + fuel = ((hash, second) :: links).length + fuel + 1 := by
      rw [hLinks]
      omega
    rw [if_neg hFirst, hSteps, subst_first hFits hLinks, if_neg hFirst]
    have hAll : ∀ l ∈ (hash, second) :: links, l.1.kind = .punct ∧ l.1.text = ascii "##" :=
      List.forall_mem_cons.mpr hHashes
    exact subst_links hAll (List.forall_mem_cons.mpr hOperands) hFirst

open Expansion

/- A chain of three parameters. -/
def threeLinks : Chain where
  first := spelled .ident "x"
  links :=
    [(spelled .punct "##", spelled .ident "y"),
      (spelled .punct "##", spelled .ident "z")]

/- The three parameters with the given tokens, behind a word. -/
def behindWord (x y z : List Token) : Progress where
  done := #[spelled .ident "a"]
  args :=
    [⟨ascii "x", false, x ++ [spelled .eof ""]⟩,
      ⟨ascii "y", false, y ++ [spelled .eof ""]⟩,
      ⟨ascii "z", false, z ++ [spelled .eof ""]⟩]

/- Chains of parameters have nothing to do with their arguments. -/
theorem threeLinks_fits (x y z : List Token) : threeLinks.Fits (behindWord x y z) where
  nonempty := by decide
  hashes := by decide
  operands := by decide
  first := by decide
  comma := fun hComma => absurd hComma (by decide)

/- What substitution makes of the chain before a last word. -/
def madeOf (x y z : List Token) : Option (List Bytes) :=
  texts? ((do
    let q ← subst (expandAll 1)
      (threeLinks.steps (behindWord x y z) + 2)
      (behindWord x y z)
      (threeLinks.tokens ++ [spelled .ident "d", spelled .eof ""])
    return q.done.toList : Pre (List Token)) {})

/- An empty operand in the middle is left out. -/
theorem subst_chain_middle :
    let b := [spelled .ident "b"]
    let p := behindWord b [] b
    threeLinks.Fits p ∧ threeLinks.Kept p ∧ subst (expandAll 1) (threeLinks.steps p + 2) p
          (threeLinks.tokens ++ [spelled .ident "d", spelled .eof ""]) =
        (joinAll (operand p threeLinks.first) (threeLinks.others p) >>= fun out =>
            subst (expandAll 1) 2 (p.behind out) [spelled .ident "d", spelled .eof ""]) ∧
      madeOf b [] b = some (["a", "bb", "d"].map ascii) := by
  have hFits := threeLinks_fits [spelled .ident "b"] [] [spelled .ident "b"]
  have hKept : threeLinks.Kept (behindWord [spelled .ident "b"] [] [spelled .ident "b"]) := by
    intro hEmpty
    exact absurd (hEmpty _ List.mem_cons_self) (by decide)
  exact ⟨hFits, hKept, subst_chain (expandAll 1) 2 hFits hKept _, by decide +kernel⟩

/-
  Behind two empty operands the third one is joined to the
  word before the chain, though its tokens are all there are.
-/
theorem chain_joins_word_before :
    let b := [spelled .ident "b"]
    let p := behindWord [] [] b
    threeLinks.Fits p ∧ texts? (joinAll (operand p threeLinks.first)
        (threeLinks.others p) {}) = some [ascii "b"] ∧
      madeOf [] [] b = some (["ab", "d"].map ascii) :=
  ⟨threeLinks_fits [] [] _, by decide +kernel, by decide +kernel⟩

end Substitution

end CCompiler
