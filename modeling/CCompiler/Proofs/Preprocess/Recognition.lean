import Mathlib
import CCompiler.Proofs.Preprocess.Resuming

/-
  Which hashes start directives.

  Replacing a macro hands the place of its name in the line on
  to the token that comes next, whether that is the first one
  of its body or, if nothing takes its place, one that was
  read after it.  So a hash is carried out as a directive if
  and only if the first name of the replacements that led to
  it starts a line, or the hash itself if there were none.
  That token is as it was read from its file, or it stems from
  a macro and starts no line.

  The name of a directive is the token after the hash, on
  whatever line it is.  A hash before a line that starts with
  no such name has no effect.

  Main declarations:
    * `Expansion.History`, `Expansion.follow`
    * `Expansion.Moves`, `Expansion.moves_of_step`
    * `Expansion.Laid`, `Expansion.laid_follow`
    * `Expansion.hash_by_layout`
-/

------------
-- Histories
------------

namespace CCompiler

variable {ts : List Token}

namespace Expansion

open Pre

/-
  What led to a place in an expansion: the first name of the
  replacements right before it, and the tokens that the calls
  of macros took so far.
-/
structure History where
  lead? : Option Token := none
  calls : List Token := []

namespace History

/- The token whose place in the line a token has. -/
def source (past : History) (t : Token) : Token :=
  past.lead?.getD t

/- The history after a step. -/
def after
    (past : History)
    (p : Progress)
    (s : Session) : History :=
  match p.toks with
  | [] => past
  | t :: rest =>
    match use? t rest s with
    | .ok (some u) _ =>
      { lead? := some (past.source t)
        calls := past.calls ++ rest.take (rest.length - u.rest.length) }
    | _ => { past with lead? := none }

end History

/- A number of steps, with what led to the place they reach. -/
def follow (expand : Expand) :
    Nat → History → Progress → Pre (History × Progress)
| 0, past, p => return (past, p)
| k + 1, past, p => do
  let s ← get
  match ← step expand p with
  | .inl q => follow expand k (past.after p s) q
  | .inr _ => throw .exhausted

variable {expand : Expand} {past : History} {p q : Progress}
  {s s' : Session}

variable {k : Nat} {past' : History}

theorem follow_split (hSteps : follow expand (k + 1) past p s = .ok (past', q) s') :
    ∃ p₁ s₁, step expand p s = .ok (.inl p₁) s₁ ∧ follow expand k (past.after p s) p₁ s₁ =
        .ok (past', q) s' := by
  rw [follow] at hSteps
  rcases bind_split hSteps with ⟨s₀, s₁, hGet, hAfter⟩
  cases hGet
  rcases bind_split hAfter with ⟨r, s₂, hStep, hNext⟩
  cases r with
  | inr e => cases hNext
  | inl p₁ => exact ⟨p₁, s₂, hStep, hNext⟩

/- The steps that are followed are those of the expansion. -/
theorem repeatStep_follow (hSteps : follow expand k past p s = .ok (past', q) s') (m : Nat) :
    repeatStep (step expand) (k + m) p s = repeatStep (step expand) m q s' := by
  induction k generalizing past p s with
  | zero =>
    cases hSteps
    rw [Nat.zero_add]
  | succ k ih =>
    rcases follow_split hSteps with ⟨p₁, s₁, hStep, hNext⟩
    rw [Nat.add_right_comm, repeatStep_go hStep]
    exact ih hNext

------------
-- Steps
------------

/- What a step that goes on does to a list with an end. -/
inductive Moves
    (expand : Expand)
    (p : Progress)
    (s : Session) : Progress → Session → Prop
| replaced
    {t : Token}
    {c new : List Token}
    {u : Use}
    {s' : Session}
    (hToks : p.toks = t :: (c ++ u.rest))
    (hUse : use? t (c ++ u.rest) s = .ok (some u) s)
    (hRest : Closed u.rest)
    (hFound : Found s.macros t c u)
    (hNew : u.tokens expand t s = .ok new s') :
    Moves expand p s
      { p.goOn new u.rest with
        toks := spacedAs t (p.goOn new u.rest).toks } s'
| carried
    {t : Token}
    {rest : List Token}
    {r : Directive.Resume}
    {s' : Session}
    (hToks : p.toks = t :: rest)
    (hUse : use? t rest s = .ok none s)
    (hOpen : t.isEof = false)
    (hRun : Directive.run expand t rest s = .ok r s') :
    Moves expand p s (p.goOn r.inserted r.rest) s'
| kept
    {t : Token}
    {rest : List Token}
    (hToks : p.toks = t :: rest)
    (hUse : use? t rest s = .ok none s)
    (hOpen : t.isEof = false) :
    Moves expand p s (p.keep (shownIn s t) rest) s

variable {t : Token} {rest : List Token}

/- Looking for a use in a list with an end. -/
theorem use?_closed (hClosed : Closed rest) {u? : Option Use} (hUse : use? t rest s = .ok u? s') :
    s' = s ∧ ∀ u, u? = some u → ∃ c, rest = c ++ u.rest ∧ Closed u.rest ∧ Found s.macros t c u := by
  rcases hClosed with ⟨xs, e, rfl, hEnds⟩
  cases use?_cases s t xs with
  | none hOutcome =>
    rw [hOutcome e hEnds] at hUse
    cases hUse
    exact ⟨rfl, fun u hSome => by cases hSome⟩
  | found u c r hTaken hOutcome hFound =>
    rw [hOutcome e hEnds] at hUse
    cases hUse
    refine ⟨rfl, fun v hSome => ?_⟩
    cases hSome
    refine ⟨c, ?_, ⟨r, e, rfl, hEnds⟩, hFound.before _⟩
    rw [hTaken, List.append_assoc]
  | failed cause z hOutcome =>
    rw [hOutcome e hEnds] at hUse
    cases hUse
  | ended cause hOutcome =>
    rw [hOutcome e hEnds] at hUse
    cases hUse

/- A step replaces, carries out or keeps the first token. -/
theorem moves_of_step (hClosed : Closed p.toks) (hStep : step expand p s = .ok (.inl q) s') :
    Moves expand p s q s' := by
  rcases hClosed.exists_cons with ⟨t, rest, hToks⟩
  rw [hToks] at hClosed
  unfold step at hStep
  rw [hToks] at hStep
  by_cases hEof : t.isEof = true
  · simp only [hEof, if_true] at hStep
    cases hStep
  have hOpen : t.isEof = false := by simpa using hEof
  simp only [hOpen, Bool.false_eq_true, if_false] at hStep
  rcases bind_split hStep with ⟨u?, s₁, hUse, hAfter⟩
  rcases use?_closed (hClosed.tail hOpen) hUse with
    ⟨rfl, hTaken⟩
  cases u? with
  | some u =>
    rcases hTaken u rfl with ⟨c, rfl, hRest, hFound⟩
    rcases bind_split hAfter with ⟨new, s₂, hNew, hLast⟩
    cases hLast
    exact .replaced hToks hUse hRest hFound hNew
  | none =>
    simp only at hAfter
    split at hAfter
    · rcases bind_split hAfter with ⟨r, s₂, hRun, hLast⟩
      cases hLast
      exact .carried hToks hUse hOpen hRun
    · rcases bind_split hAfter with ⟨w, s₂, hShown, hLast⟩
      cases hShown
      cases hLast
      exact .kept hToks hUse hOpen

variable {c : List Token} {u : Use}

theorem after_replaced (hToks : p.toks = t :: (c ++ u.rest))
    (hUse : use? t (c ++ u.rest) s = .ok (some u) s) :
    past.after p s =
      { lead? := some (past.source t)
        calls := past.calls ++ c } := by
  unfold History.after
  rw [hToks]
  simp only [hUse, List.length_append, Nat.add_sub_cancel, List.take_left']

theorem after_other (hToks : p.toks = t :: rest) (hUse : use? t rest s = .ok none s) :
    past.after p s = { past with lead? := none } := by
  unfold History.after
  rw [hToks]
  simp only [hUse]

------------
-- Places in Lines
------------

/-
  A token as it was read, or one that stems from a macro and
  starts no line if no call so far goes on after its line.
-/
def Placed (calls : List Token) (t : Token) : Prop :=
  Lexed t ∨ t.origin? ≠ none ∧ (Flat calls → t.atLineStart = false)

/-
  A place in an expansion.  All tokens but the first one are
  as they were read or made; the first one has the place in
  the line of the token that led to it.
-/
structure Laid
    (past : History)
    (p : Progress)
    (s : Session) : Prop where
  closed : Closed p.toks
  tame : Flat past.calls → Tame s.macros
  tail : ∀ t ∈ p.toks.tail, Placed past.calls t
  source : ∀ t ∈ p.toks.head?,
    Placed past.calls (past.source t) ∧
      t.atLineStart = (past.source t).atLineStart

theorem Placed.more {calls : List Token} {t : Token} (hPlaced : Placed calls t) (c : List Token) :
    Placed (calls ++ c) t := by
  refine hPlaced.imp_right fun hMade => ⟨hMade.1, fun hFlat => hMade.2 fun w hw => ?_⟩
  exact hFlat w (List.mem_append_left c hw)

theorem Closed.spacedAs {ts : List Token} (hClosed : Closed ts) (t : Token) :
    Closed (spacedAs t ts) := by
  rcases hClosed with ⟨xs, e, rfl, hEnds⟩
  cases xs with
  | nil => exact ⟨[], _, rfl, ⟨hEnds.kind, hEnds.text⟩⟩
  | cons x xs => exact ⟨_ :: xs, e, rfl, hEnds⟩

theorem tail_spacedAs (t : Token) (ts : List Token) : (spacedAs t ts).tail = ts.tail := by
  cases ts <;> rfl

theorem atLineStart_spacedAs {u : Token} (hHead : u ∈ (spacedAs t ts).head?) :
    u.atLineStart = t.atLineStart := by
  cases ts with
  | nil => cases hHead
  | cons w ts =>
    cases hHead
    rfl

variable {new : List Token}

/- All but the first token of what takes a place are marked. -/
theorem origin_tokens (hNew : u.tokens expand t s = .ok new s') :
    ∀ w ∈ new.tail, w.origin? ≠ none := by
  have hMark : ∀ (hidden : HideSet) (body : Array Token), ∀ w ∈ (markBody t hidden body).tail,
        w.origin? ≠ none := by
    intro hidden body w hw
    rcases List.mem_map.mp (List.mem_of_mem_tail hw) with
      ⟨v, -, rfl⟩
    exact Option.some_ne_none _
  unfold Use.tokens at hNew
  cases hDef : u.definition with
  | builtin b =>
    rw [hDef] at hNew
    rcases bind_split hNew with ⟨v, s₁, -, hLast⟩
    cases hLast
    simp
  | object body =>
    rw [hDef] at hNew
    rcases bind_split hNew with ⟨done, s₁, -, hLast⟩
    cases hLast
    exact hMark _ _
  | function params rest? body =>
    rw [hDef] at hNew
    rcases bind_split hNew with ⟨done, s₁, -, hLast⟩
    cases hLast
    exact hMark _ _

/-
  After a replacement the next token has the place in the line
  of the token that was replaced.
-/
theorem Laid.replaced (hLaid : Laid past p s) (hExpand : QuietInLines expand)
    (hToks : p.toks = t :: (c ++ u.rest)) (hRest : Closed u.rest) (hFound : Found s.macros t c u)
    (hNew : u.tokens expand t s = .ok new s') :
    Laid
      { lead? := some (past.source t)
        calls := past.calls ++ c }
      { p.goOn new u.rest with
        toks := spacedAs t (p.goOn new u.rest).toks } s' := by
  have hTail := hLaid.tail
  rw [hToks, List.tail_cons] at hTail
  -- if all calls stay in their lines, so does what is new
  have hQuiet : Flat (past.calls ++ c) → s'.macros = s.macros ∧ Lined new := by
    intro hFlat
    have hTame := hLaid.tame fun w hw => hFlat w (List.mem_append_left c hw)
    exact (quiet_tokens hTame (hExpand _ hTame) rfl hFound
      fun w hw => hFlat w (List.mem_append_right _ hw)).kept
      new s' hNew
  have hOld : ∀ w ∈ u.rest, Placed (past.calls ++ c) w :=
    fun w hw => (hTail w (List.mem_append_right c hw)).more c
  refine ⟨?_, fun hFlat => ?_, ?_, ?_⟩
  · rw [goOn_toks]
    exact (hRest.append new).spacedAs t
  · rw [(hQuiet hFlat).1]
    exact hLaid.tame fun w hw => hFlat w (List.mem_append_left c hw)
  · rw [goOn_toks, tail_spacedAs]
    intro w hw
    cases new with
    | nil => exact hOld w (List.mem_of_mem_tail hw)
    | cons v new =>
      rcases List.mem_append.mp hw with hMade | hLeft
      · exact .inr ⟨origin_tokens hNew w hMade, fun hFlat =>
            ((hQuiet hFlat).2.2 w hMade).atLineStart⟩
      · exact hOld w hLeft
  · intro w hw
    rcases hLaid.source t (by rw [hToks]; rfl) with
      ⟨hPlaced, hStart⟩
    exact ⟨hPlaced.more c, (atLineStart_spacedAs hw).trans hStart⟩

/- After anything else the next token is on its own. -/
theorem laid_alone {calls : List Token} (hClosed : Closed p.toks)
    (hTame : Flat calls → Tame s.macros) (hPlaced : ∀ t ∈ p.toks, Placed calls t) :
    Laid { lead? := none, calls := calls } p s :=
  ⟨hClosed, hTame, fun t ht => hPlaced t (List.mem_of_mem_tail ht),
    fun t ht => ⟨hPlaced t (List.mem_of_mem_head? ht), rfl⟩⟩

/- One step keeps track of places in lines. -/
theorem laid_step (hExpand : QuietInLines expand) (hLaid : Laid past p s)
    (hStep : step expand p s = .ok (.inl q) s') : Laid (past.after p s) q s' := by
  have hClosed := hLaid.closed
  cases moves_of_step hClosed hStep with
  | replaced hToks hUse hRest hFound hNew =>
    rw [after_replaced hToks hUse]
    exact hLaid.replaced hExpand hToks hRest hFound hNew
  | @carried t rest r _ hToks hUse hOpen hRun =>
    rw [after_other hToks hUse]
    have hTail := hLaid.tail
    rw [hToks] at hClosed hTail
    have hRest : Closed rest := hClosed.tail hOpen
    rcases Directive.arrives_run hExpand (fun _ => hRest) t
      hLaid.tame r s' hRun with ⟨hTame, hWithin, hLexed⟩
    refine laid_alone ?_ hTame fun w hw => ?_
    · rw [goOn_toks]
      exact (hWithin.closed hRest).append r.inserted
    · rw [goOn_toks] at hw
      rcases List.mem_append.mp hw with hNew | hOld
      · exact .inl (hLexed w hNew)
      · exact hTail w (hWithin.suffix.subset hOld)
  | @kept t rest hToks hUse hOpen =>
    rw [after_other hToks hUse]
    have hTail := hLaid.tail
    rw [hToks] at hClosed hTail
    exact laid_alone (hClosed.tail hOpen) hLaid.tame hTail

/- So do a number of steps. -/
theorem laid_follow (hExpand : QuietInLines expand) (hLaid : Laid past p s)
    (hSteps : follow expand k past p s = .ok (past', q) s') : Laid past' q s' := by
  induction k generalizing past p s with
  | zero =>
    cases hSteps
    exact hLaid
  | succ k ih =>
    rcases follow_split hSteps with ⟨p₁, s₁, hStep, hNext⟩
    exact ih (laid_step hExpand hLaid hStep) hNext

end Expansion

------------
-- Hashes
------------

namespace Directive

open Expansion Pre

/- The words that name directives. -/
def words : List String :=
  ["include", "include_next", "define", "undef", "if",
    "ifdef", "ifndef", "elif", "else", "endif", "line", "pragma", "error"]

/- Whether a token names a directive, or is a line number. -/
def names (t : Token) : Bool :=
  words.any t.is || t.kind == .ppNum

/- A hash before a line of another kind has no effect. -/
theorem run_idle (expand : Expand) (hash : Token) (hName : names (first ts) = false)
    (hStart : (first ts).atLineStart = true) : run expand hash ts = pure (resumeAt ts) := by
  simp only [names, words, List.any_cons, List.any_nil,
    Bool.or_false, Bool.or_eq_false_iff] at hName
  unfold run
  simp [hName, hStart]

end Directive

namespace Expansion

open Pre

/- Carry out a directive and go on after it. -/
def carryOut
    (expand : Expand)
    (p : Progress)
    (hash : Token)
    (rest : List Token) : Pre (Sum Progress Expanded) := do
  let r ← Directive.run expand hash rest
  return .inl (p.goOn r.inserted r.rest)

/- A hash that starts a line is carried out, else kept. -/
theorem step_hash (expand : Expand) {p : Progress} {h : Token} {rest : List Token}
    (hToks : p.toks = h :: rest) (hHash : h.is "#" = true) (hPunct : h.kind = .punct)
    (s : Session) :
    step expand p s = if h.atLineStart then carryOut expand p h rest s
      else .ok (.inl (p.keep (shownIn s h) rest)) s := by
  have hOpen : h.isEof = false := by simp [Token.isEof, hPunct]
  have hIdle : Idle s.macros h := by
    right
    simp [Macros.ofToken?, Token.isIdent, hPunct]
  cases hStart : h.atLineStart with
  | false =>
    rw [if_neg (by decide)]
    exact step_kept expand hToks hOpen (by simp [Conditional.isHash, hStart]) hIdle
  | true =>
    have hIs : Conditional.isHash h = true := by simp [Conditional.isHash, hStart, hHash]
    unfold step
    rw [hToks, if_pos rfl]
    simp only [hOpen, Bool.false_eq_true, if_false]
    refine (bind_ok (use?_idle hIdle rest)).trans ?_
    simp only [hIs, if_true]
    rfl

/-
  A hash that an expansion reaches is carried out if and only
  if the token whose place in the line it has starts a line.
  That token is as it was read, or stems from a macro and
  starts no line.  Before a line that starts with no name of a
  directive a hash has no effect.
-/
theorem hash_by_layout {name : Bytes} {src? : Option Bytes} {forced : List Bytes}
    {s₀ s₁ s : Session} {ts : List Token} (hTame : Tame s₀.macros)
    (hLoad : (Preprocessor.load name src? >>= Include.force forced)
        s₀ = .ok ts s₁) {n k : Nat} {past : History} {p : Progress}
    (hSteps : follow (expandAll n) k {} { toks := ts } s₁ = .ok (past, p) s) {h : Token}
    {rest : List Token} (hToks : p.toks = h :: rest) (hHash : h.is "#" = true)
    (hPunct : h.kind = .punct) :
    (∀ m, repeatStep (step (expandAll n)) (k + m) { toks := ts } s₁ =
      repeatStep (step (expandAll n)) m p s) ∧ step (expandAll n) p s =
      (if (past.source h).atLineStart then carryOut (expandAll n) p h rest s
      else .ok (.inl (p.keep (shownIn s h) rest)) s) ∧
    ((past.source h).origin? = none → Lexed (past.source h)) ∧
    ((past.source h).origin? ≠ none → Flat past.calls → (past.source h).atLineStart = false) ∧
    ((past.source h).atLineStart = true → (Directive.first rest).atLineStart = true →
      Directive.names (Directive.first rest) = false → step (expandAll n) p s =
          .ok (.inl (p.goOn [] rest)) s) := by
  rcases Preprocessor.arrives_load name src? forced (fun _ : True => hTame) ts s₁ hLoad with
    ⟨hTame₁, hLoaded⟩
  have hStart : Laid {} { toks := ts } s₁ :=
    laid_alone hLoaded.closed (fun _ => hTame₁ trivial) fun t ht => .inl (hLoaded.lexed t ht)
  have hLaid := laid_follow (fun ms hMs => quiet_expandAll hMs n) hStart hSteps
  rcases hLaid.source h (by rw [hToks]; rfl) with
    ⟨hPlaced, hSame⟩
  have hStep := step_hash (expandAll n) hToks hHash hPunct s
  rw [hSame] at hStep
  refine ⟨repeatStep_follow hSteps, hStep, ?_, ?_, ?_⟩
  · intro hNone
    exact hPlaced.resolve_right fun hMade => hMade.1 hNone
  · intro hSome hFlat
    rcases hPlaced with hLexed | hMade
    · exact absurd hLexed.origin? hSome
    · exact hMade.2 hFlat
  · intro hLine hNext hOther
    rw [hStep, if_pos hLine]
    unfold carryOut
    rw [Directive.run_idle _ h hOther hNext]
    rfl

/- Whether an outcome is a value that passes a check. -/
def passes
    {α : Type}
    (check : α → Bool) :
    EStateM.Result Failure Session α → Bool
| .ok a _ => check a
| .error _ _ => false

theorem exists_of_passes {α : Type} {check : α → Bool} {r : EStateM.Result Failure Session α}
    (hPasses : passes check r = true) : ∃ a s, r = .ok a s ∧ check a = true := by
  cases r with
  | ok a s => exact ⟨a, s, rfl, hPasses⟩
  | error e s => cases hPasses

/- A hash on a line of its own, after a macro without a body. -/
def loneHash : Bytes :=
  ascii "#define E\nE\n#\nx\n"

/-
  Whether a place is that of a hash after a name at the start
  of a line, and before a line that is no directive.
-/
def afterName (r : History × Progress) : Bool :=
  match r.2.toks with
  | h :: next :: _ =>
    h.is "#" && h.kind == .punct && (r.1.source h).text == ascii "E" &&
      (r.1.source h).atLineStart && (r.1.source h).origin?.isNone &&
      next.atLineStart && !Directive.names next
  | _ => false

/-
  The hash has the place of the name before it, which starts
  a line, and has no effect.
-/
theorem hash_by_layout_lone :
    ∃ (ts : List Token) (s₁ s : Session) (past : History)
      (p : Progress) (h : Token) (rest : List Token),
      (Preprocessor.load (ascii "m.c") (some loneHash) >>= Include.force []) {} = .ok ts s₁ ∧
      follow (expandAll 9) 2 {} { toks := ts } s₁ = .ok (past, p) s ∧
      p.toks = h :: rest ∧ h.is "#" = true ∧ (past.source h).text = ascii "E" ∧
      Lexed (past.source h) ∧ step (expandAll 9) p s = .ok (.inl (p.goOn [] rest)) s := by
  have hPasses : passes afterName ((Preprocessor.load (ascii "m.c") (some loneHash) >>=
          Include.force [] >>= fun ts =>
        follow (expandAll 9) 2 {} { toks := ts }) {}) =
        true := by
    decide +kernel
  rcases exists_of_passes hPasses with
    ⟨⟨past, p⟩, s, hRun, hPlace⟩
  rcases bind_split hRun with ⟨ts, s₁, hLoad, hSteps⟩
  unfold afterName at hPlace
  split at hPlace
  · rename_i h next rest hToks
    simp only [Bool.and_eq_true, beq_iff_eq, Option.isNone_iff_eq_none, Bool.not_eq_true'] at hPlace
    rcases hPlace with ⟨⟨⟨⟨⟨⟨hHash, hPunct⟩, hText⟩, hStart⟩, hOrigin⟩, hNext⟩, hOther⟩
    rcases hash_by_layout (by simp [Tame]) hLoad hSteps hToks
      hHash hPunct with ⟨-, -, hLexed, -, hIdle⟩
    exact ⟨ts, s₁, s, past, p, h, _, hLoad, hSteps, hToks,
      hHash, hText, hLexed hOrigin, hIdle hStart hNext hOther⟩
  · cases hPlace

/- The spellings of the tokens of a text after preprocessing. -/
def textsOf (src : String) : Option (List Bytes) :=
  texts? (Preprocessor.process (ascii "m.c") (some (ascii src)) [] {})

/-
  A hash alone on its line takes the next line for a
  definition; one after a macro without a body starts a
  directive in the middle of its line; and one on the line
  after such a macro starts none.
-/
theorem hash_beside_layout :
    textsOf "#\ndefine X 1\nX\n" = some (["1", ""].map ascii) ∧
      textsOf "#define E\nE # define X 1\nX\n" = some (["1", ""].map ascii) ∧
      textsOf "#define E\nx E\n#define Y 1\nY\n" = some (["x", "#", "define", "Y", "1", "Y", ""].map
          ascii) := by decide +kernel

end Expansion

end CCompiler
