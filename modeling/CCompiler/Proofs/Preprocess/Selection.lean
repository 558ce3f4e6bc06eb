import Mathlib
import CCompiler.Proofs.Preprocess.Places
import CCompiler.Proofs.Preprocess.Sections

/-
  Which groups of conditional sections are read.

  A tree is read from the outside: of each section the first
  group whose condition holds, or else the last one, and of
  that again its lines and sections in order.

  A definition without a body ends its line, but it reads a
  parenthesis that starts the next one as the start of its
  parameters.  Trees with such lines are set apart.

  Steps of an expansion are put together to what they read and
  what they add, and directives to what they do with a line.

  Main declarations:
    * `Section.Group.select`, `Section.Tail.select`
    * `Section.Group.Apart`
    * `Section.Reads`, `Section.reads_directive`
    * `Section.define_object`, `Section.define_function`
-/

------------
-- The Meaning of a Tree
------------

namespace CCompiler

namespace Section

open Expansion Conditional Pre

/- The first token of some, or else the one after them. -/
def firstOf (ts : List Token) (next : Token) : Token :=
  ts.headD next

/- Enter a macro, with a warning if it replaces another one. -/
def enter (name : Token) (m : Macro) : Pre Unit := do
  if let some old := (← get).macros.find? name.text then
    if !old.sameAs m then
      warn name .macroRedefined (.macroRedefined name.text)
  modify fun s =>
    { s with macros := s.macros.insert name.text m }

/- Warn of superfluous tokens at the end of a line. -/
def noteExtra (extra : Remainder) (next : Token) : Pre Unit :=
  let t := firstOf extra.1 next
  if t.atLineStart then pure ()
  else warn t .extraTokens .extraToken

/- Carry out a line, and give its text. -/
def Line.carryOut (next : Token) : Line → Pre (List Token)
| .text l => do
  let s ← get
  return (Line.text l).toks.map (shownIn s)
| .object l => do
  enter l.name.1 (.object (l.body.1 ++ [next.toEof]))
  return []
| .function l => do
  enter l.name.1
    (.function l.read.names.toList l.read.rest? (l.body.1 ++ [next.toEof]))
  return []
| .undef l => do
  modify fun s =>
    { s with macros := s.macros.erase l.name.1.text }
  noteExtra l.extra next
  return []

/- Whether the first group of a section is to be read. -/
def Opening.holds
    (expand : Expand)
    (next : Token) : Opening → Pre Bool
| .value m cond => do
  let v ← Directive.conditionValue expand m.word.1
    (cond.1 ++ [next.toEof])
  return v != 0
| .defined _ name extra => do
  let s ← get
  noteExtra extra next
  return (s.macros.ofToken? name.1).isSome
| .undefined _ name extra => do
  let s ← get
  noteExtra extra next
  return !(s.macros.ofToken? name.1).isSome

/- The rest of a section of which a group was read. -/
def Tail.pass (next : Token) : Tail → Pre Unit
| .endif _ extra => noteExtra extra next
| .last _ extra g close extra' => do
  noteExtra extra (firstOf g.toks close.hash)
  noteExtra extra' next
| .elif _ _ _ t => t.pass next

mutual

/- Read a group, before a token, and give its text. -/
def Group.select (expand : Expand) :
    Group → Token → Pre (List Token)
| .done, _ => return []
| .line l g, next => do
  let text ← l.carryOut (firstOf g.toks next)
  return text ++ (← g.select expand next)
| .sect o g t rest, next => do
  let after := firstOf rest.toks next
  let taken ← o.holds expand (firstOf g.toks t.hash)
  let text ← (if taken then do
      let text ← g.select expand t.hash
      t.pass after
      return text
    else t.select expand after)
  return text ++ (← rest.select expand next)

/- Read the first group of the rest that is to be read. -/
def Tail.select (expand : Expand) :
    Tail → Token → Pre (List Token)
| .endif _ extra, next => do
  noteExtra extra next
  return []
| .last _ extra g close extra', next => do
  noteExtra extra (firstOf g.toks close.hash)
  let text ← g.select expand close.hash
  noteExtra extra' next
  return text
| .elif m cond g t, next => do
  let v ← Directive.conditionValue expand m.word.1
    (cond.1 ++ [(firstOf g.toks t.hash).toEof])
  if v != 0 then do
    let text ← g.select expand t.hash
    t.pass next
    return text
  else t.select expand next

end

/- A definition without a body, before a parenthesis. -/
def Line.Apart (next : Token) : Line → Prop
| .object l =>
  l.body.1 = [] → (!next.spaced && next.is "(") = false
| _ => True

mutual

/- No definition without a body stands before a parenthesis. -/
def Group.Apart : Group → Token → Prop
| .done, _ => True
| .line l g, next =>
  l.Apart (firstOf g.toks next) ∧ g.Apart next
| .sect _ g t rest, next =>
  g.Apart t.hash ∧ t.Apart ∧ rest.Apart next

def Tail.Apart : Tail → Prop
| .endif _ _ => True
| .last _ _ g close _ => g.Apart close.hash
| .elif _ _ g t => g.Apart t.hash ∧ t.Apart

end

/- The tokens of a line of text. -/
def Line.text? : Line → List Token
| .text l => l.first :: l.rest.1
| _ => []

/- The name that a line defines or that it takes away. -/
def Line.name? : Line → Option Bytes
| .text _ => none
| .object l => some l.name.1.text
| .function l => some l.name.1.text
| .undef l => some l.name.1.text

------------
-- Lines by Themselves
------------

/- A token that the line before it ends at. -/
def Bounds (t : Token) : Prop :=
  t.atLineStart = true ∨ t.isEof = true

variable {name : String}

theorem Mark.bounds (m : Mark name) : Bounds m.hash := by
  have hStarts := m.starts
  rw [isHash, Bool.and_eq_true] at hStarts
  exact .inl hStarts.1

theorem Tail.bounds (t : Tail) : Bounds t.hash := by
  cases t with
  | endif m extra => exact m.bounds
  | last m extra g close extra' => exact m.bounds
  | elif m cond g t => exact m.bounds

theorem Line.toks_eq (l : Line) : ∃ t rest, l.toks = t :: rest ∧ Bounds t := by
  cases l with
  | text l => exact ⟨l.first, _, rfl, .inl l.starts⟩
  | object l => exact ⟨l.mark.hash, _, rfl, l.mark.bounds⟩
  | function l => exact ⟨l.mark.hash, _, rfl, l.mark.bounds⟩
  | undef l => exact ⟨l.mark.hash, _, rfl, l.mark.bounds⟩

theorem Opening.toks_eq (o : Opening) : ∃ t rest, o.toks = t :: rest ∧ Bounds t := by
  cases o with
  | value m cond => exact ⟨m.hash, _, rfl, m.bounds⟩
  | defined m name extra => exact ⟨m.hash, _, rfl, m.bounds⟩
  | undefined m name extra => exact ⟨m.hash, _, rfl, m.bounds⟩

/- The first token after a line is one of a new line. -/
theorem Group.bounds (g : Group) {next : Token} (hNext : Bounds next) :
    Bounds (firstOf g.toks next) := by
  cases g with
  | done => exact hNext
  | line l g =>
    rcases l.toks_eq with ⟨t, rest, hToks, hBounds⟩
    rw [Group.toks, hToks]
    exact hBounds
  | sect o g t rest =>
    rcases o.toks_eq with ⟨t, rest, hToks, hBounds⟩
    rw [Group.toks, hToks]
    exact hBounds

/- The tokens from the first one on. -/
theorem append_firstOf (ts : List Token) (next : Token) (more : List Token) :
    ∃ rest, ts ++ next :: more = firstOf ts next :: rest := by
  cases ts with
  | nil => exact ⟨more, rfl⟩
  | cons t ts => exact ⟨ts ++ next :: more, rfl⟩

variable {e : Token}

/- A line that is copied. -/
theorem copyLine_line {ts : List Token} (hFlat : Flat ts) (hBounds : Bounds e) (more : List Token) :
    Arguments.copyLine (ts ++ e :: more) = (ts ++ [e.toEof], e :: more) := by
  induction ts with
  | nil =>
    have hEnd : (e.atLineStart || e.isEof) = true := by
      rcases hBounds with hStart | hEof
      · simp [hStart]
      · simp [hEof]
    simp [Arguments.copyLine, hEnd]
  | cons t ts ih =>
    have hPlain := hFlat t (by simp)
    have hRest := ih fun u hu => hFlat u (by simp [hu])
    simp [Arguments.copyLine, hPlain.atLineStart, hPlain.isEof, hRest]

/- A line whose rest is superfluous. -/
theorem skipLine_line (extra : Remainder) (hBounds : Bounds e) (more : List Token) :
    Directive.skipLine (extra.1 ++ e :: more) = (do
        noteExtra extra e
        return e :: more) := by
  rcases extra with ⟨ts, hFlat⟩
  have hDrop : (ts ++ e :: more).dropWhile (fun t => !t.atLineStart && !t.isEof) = e :: more := by
    induction ts with
    | nil =>
      rcases hBounds with hStart | hEof
      · simp [hStart]
      · simp [hEof]
    | cons t ts ih =>
      have hPlain := hFlat t (by simp)
      rw [List.cons_append, List.dropWhile_cons_of_pos (by simp [hPlain.atLineStart, hPlain.isEof])]
      exact ih fun u hu => hFlat u (by simp [hu])
  rcases append_firstOf ts e more with ⟨rest, hFirst⟩
  rw [hFirst] at hDrop ⊢
  simp only [Directive.skipLine, noteExtra, hDrop]
  split
  · rename_i hStart
    rw [List.dropWhile_cons_of_neg (by simp [hStart])] at hDrop
    rw [hDrop]
    rfl
  · rfl

theorem blind_noteExtra (extra : Remainder) (next : Token) : Blind (noteExtra extra next) :=
  blind_ite (blind_pure _) (blind_warn _ _ _)

theorem blind_enter (name : Token) (m : Macro) : Blind (enter name m) := by
  have hAdd : Blind (modify fun s =>
      { s with macros := s.macros.insert name.text m }) :=
    blind_modify fun _ _ => rfl
  refine blind_get (fun _ _ => rfl) fun s => ?_
  split
  · exact blind_ite ((blind_warn _ _ _).bind fun _ => hAdd) hAdd
  · exact hAdd

variable {α : Type} {s s' : Session}

variable {a : α}

/- What a blind computation gives under other sections. -/
theorem blind_ok {x : Pre α} (hBlind : Blind x) (hRun : x s = .ok a s') (cs : List Conditional) :
    x (s.under cs) = .ok a (s'.under cs) := by
  rw [hBlind s cs, hRun]
  rfl

------------
-- Steps
------------

/-
  Steps read some tokens, up to others, and add to what is
  done.  Each of them reads a token at least.
-/
def Reads
    (expand : Expand)
    (ts rest : List Token)
    (text : List Token)
    (s s' : Session) : Prop :=
  ∀ p : Progress, p.toks = ts → ∃ k p', k + rest.length ≤ ts.length ∧
      p'.toks = rest ∧ p'.done.toList = p.done.toList ++ text ∧
      ∀ n, repeatStep (step expand) (n + k) p s =
        repeatStep (step expand) n p' s'

theorem reads_refl (expand : Expand) (ts : List Token) (s : Session) : Reads expand ts ts [] s s :=
  fun p hToks => ⟨0, p, by simp, hToks, by simp, fun _ => rfl⟩

variable {rest : List Token}

theorem Reads.trans {expand : Expand} {ts mid text text' : List Token} {s'' : Session}
    (hFirst : Reads expand ts mid text s s') (hNext : Reads expand mid rest text' s' s'') :
    Reads expand ts rest (text ++ text') s s'' := by
  intro p hToks
  rcases hFirst p hToks with
    ⟨k, q, hLess, hMid, hDone, hRun⟩
  rcases hNext q hMid with
    ⟨k', r, hLess', hRest, hDone', hRun'⟩
  refine ⟨k' + k, r, by omega, hRest, ?_, fun n => ?_⟩
  · rw [hDone', hDone, List.append_assoc]
  · rw [← Nat.add_assoc, hRun, hRun']

/- A token that is no directive and names no macro is kept. -/
theorem reads_kept (expand : Expand) {t : Token} (hOpen : t.isEof = false)
    (hHash : isHash t = false) (hName : s.macros.ofToken? t = none) (rest : List Token) :
    Reads expand (t :: rest) rest [shownIn s t] s s := by
  intro p hToks
  have hStep := step_kept expand hToks hOpen hHash (.inr hName)
  exact ⟨1, p.keep (shownIn s t) rest, by simp; omega, rfl,
    by simp [Progress.keep], repeatStep_go hStep⟩

/- Tokens of a line of text are kept, one after the other. -/
theorem reads_flat (expand : Expand) {ts : List Token} (hFlat : Flat ts)
    (hNames : ∀ t ∈ ts, s.macros.ofToken? t = none) (rest : List Token) :
    Reads expand (ts ++ rest) rest (ts.map (shownIn s)) s s := by
  induction ts with
  | nil => exact reads_refl expand rest s
  | cons t ts ih =>
    rw [List.forall_mem_cons] at hNames
    have hPlain := hFlat t (by simp)
    have hFirst := reads_kept expand hPlain.isEof (by simp [isHash, hPlain.atLineStart]) hNames.1
      (ts ++ rest)
    exact hFirst.trans (ih (fun u hu => hFlat u (by simp [hu])) hNames.2)

/- A directive that goes on at a later place. -/
theorem reads_directive {expand : Expand} (m : Mark name) {ts : List Token}
    (hLess : rest.length ≤ ts.length + 1)
    (hRun : Directive.run expand m.hash (m.word.1 :: ts) s =
        .ok (Directive.resumeAt rest) s') : Reads expand (m.toks ++ ts) rest [] s s' := by
  intro p hToks
  have hName : s.macros.ofToken? m.hash = none := by simp [Macros.ofToken?, Token.isIdent, m.punct]
  have hStep : step expand p s = .ok (.inl (p.goOn [] rest)) s' := by
    unfold step
    rw [hToks]
    simp only [Mark.toks, List.cons_append, List.nil_append,
      m.hash_open, Bool.false_eq_true, if_false]
    refine (bind_ok (use?_idle (.inr hName) _)).trans ?_
    simp only [m.starts, if_true]
    exact bind_ok hRun
  refine ⟨1, p.goOn [] rest, ?_, ?_, ?_, repeatStep_go hStep⟩
  · simp only [Mark.toks, List.cons_append, List.nil_append, List.length_cons]
    omega
  · exact goOn_toks p [] rest
  · unfold Progress.goOn
    split <;> simp

------------
-- Directives
------------

/- The name of a directive has one spelling. -/
theorem Mark.is_eq (m : Mark name) (text : String) :
    m.word.1.is text = (ascii name == ascii text) := by
  have hNamed := m.named
  unfold Token.is at hNamed ⊢
  rw [Bool.and_eq_true, beq_iff_eq] at hNamed
  rw [hNamed.1, hNamed.2, Bool.true_and]

section Names

variable (expand : Expand) (hash : Token) (ts : List Token)

theorem run_define (m : Mark "define") :
    Directive.run expand hash (m.word.1 :: ts) = Directive.define ts := by
  simp only [Directive.run, Directive.first, List.headD_cons, m.is_eq]
  rfl

theorem run_undef (m : Mark "undef") :
    Directive.run expand hash (m.word.1 :: ts) = Directive.undef ts := by
  simp only [Directive.run, Directive.first, List.headD_cons, m.is_eq]
  rfl

theorem run_if (m : Mark "if") :
    Directive.run expand hash (m.word.1 :: ts) = Directive.ifDirective expand hash m.word.1 ts := by
  simp only [Directive.run, Directive.first, List.headD_cons, m.is_eq]
  rfl

theorem run_ifdef (hName : name = "ifdef" ∨ name = "ifndef") (m : Mark name) :
    Directive.run expand hash (m.word.1 :: ts) = Directive.ifdefDirective m.word.1 ts := by
  simp only [Directive.run, Directive.first, List.headD_cons, m.is_eq]
  rcases hName with rfl | rfl <;> rfl

theorem run_elif (m : Mark "elif") :
    Directive.run expand hash (m.word.1 :: ts) =
      Directive.elifDirective expand hash m.word.1 ts := by
  simp only [Directive.run, Directive.first, List.headD_cons, m.is_eq]
  rfl

theorem run_else (m : Mark "else") :
    Directive.run expand hash (m.word.1 :: ts) = Directive.elseDirective hash ts := by
  simp only [Directive.run, Directive.first, List.headD_cons, m.is_eq]
  rfl

theorem run_endif (m : Mark "endif") :
    Directive.run expand hash (m.word.1 :: ts) = Directive.endifDirective hash ts := by
  simp only [Directive.run, Directive.first, List.headD_cons, m.is_eq]
  rfl

end Names

/- What a definition does once its line is read. -/
theorem enter_then (name : Token) (m : Macro) (rest : List Token) :
    (do
      enter name m
      return Directive.resumeAt rest) =
      (do
        if let some old := (← get).macros.find? name.text then
          if !old.sameAs m then
            warn name .macroRedefined (.macroRedefined name.text)
        modify fun s => { s with macros := s.macros.insert name.text m }
        return Directive.resumeAt rest :
        Pre Directive.Resume) := by
  unfold enter
  simp only [bind_assoc]
  refine bind_congr fun s => ?_
  cases s.macros.find? name.text with
  | none => rfl
  | some old =>
    simp only
    by_cases hSame : (!old.sameAs m) = true
    · simp only [hSame, if_true, bind_assoc]
    · simp only [hSame, Bool.false_eq_true, if_false]

/- A definition without parameters reads its line. -/
theorem define_object (l : ObjectLine) (hBounds : Bounds e) (hApart : (Line.object l).Apart e)
    (more : List Token) :
    Directive.define (l.name.1 :: (l.body.1 ++ e :: more)) = (do
        enter l.name.1 (.object (l.body.1 ++ [e.toEof]))
        return Directive.resumeAt (e :: more)) := by
  have hNoList : (!(Directive.first (l.body.1 ++ e :: more)).spaced &&
        (Directive.first (l.body.1 ++ e :: more)).is "(") =
        false := by
    cases hBody : l.body.1 with
    | nil => exact hApart hBody
    | cons t ts => exact l.apart t (by rw [hBody]; rfl)
  unfold Directive.define
  simp only [Directive.first, List.headD_cons,
    List.tail_cons, l.ident, Bool.not_true, Bool.false_eq_true, if_false]
  simp only [Directive.first] at hNoList
  simp only [hNoList, Bool.false_eq_true, if_false, copyLine_line l.body.2 hBounds]
  exact (enter_then _ _ _).symm

/- Moving over a token goes on after it. -/
theorem skip_append {text : String} {ts : List Token}
    {f g : List Token → TokenScan (α × List Token)} (more : List Token)
    (hSkip : (Arguments.skip text ts >>= f) = .ok (a, rest))
    (hNext : ∀ us, f us = .ok (a, rest) →
      g (us ++ more) = .ok (a, rest ++ more)) :
    (Arguments.skip text (ts ++ more) >>= g) = .ok (a, rest ++ more) := by
  cases ts with
  | nil => cases hSkip
  | cons t ts =>
    simp only [Arguments.skip, List.cons_append] at hSkip ⊢
    by_cases hIs : t.is text = true
    · rw [if_pos hIs] at hSkip ⊢
      exact hNext ts hSkip
    · rw [if_neg hIs] at hSkip
      cases hSkip

variable {ps : Arguments.Parameters}

/- Some token follows a parameter. -/
theorem parameters_nil (fuel : Nat) (hSome : ps.names.isEmpty = false)
    (r : Arguments.Parameters × List Token) : Arguments.parameters fuel ps [] ≠ .ok r := by
  cases fuel with
  | zero => exact fun hOk => by cases hOk
  | succ fuel =>
    rw [parameters_succ, hSome]
    exact fun hOk => by cases hOk

variable {read : Arguments.Parameters}

/- One parameter goes on after it. -/
theorem oneParameter_append
    {next next' : Arguments.Parameters → List Token →
      TokenScan (Arguments.Parameters × List Token)} {ts : List Token} (more : List Token)
    (hNext : ∀ ps us, ps.names.isEmpty = false → next ps us = .ok (read, rest) →
        us ≠ [] ∧ next' ps (us ++ more) = .ok (read, rest ++ more))
    (hRead : oneParameter next ps ts = .ok (read, rest)) :
    oneParameter next' ps (ts ++ more) = .ok (read, rest ++ more) := by
  cases ts with
  | nil => cases hRead
  | cons t after =>
    simp only [oneParameter, List.cons_append] at hRead ⊢
    by_cases hDots : t.is "..." = true
    · rw [if_pos hDots] at hRead ⊢
      refine skip_append more hRead fun us hUs => ?_
      cases hUs
      rfl
    rw [if_neg hDots] at hRead ⊢
    by_cases hIdent : (!t.isIdent) = true
    · rw [if_pos hIdent] at hRead
      cases hRead
    rw [if_neg hIdent] at hRead ⊢
    have hNamed : (ps.names.push t.text).isEmpty = false := by simp
    cases after with
    | nil => exact absurd rfl (hNext _ _ hNamed hRead).1
    | cons u us =>
      simp only [List.cons_append, List.head?_cons,
        Option.map_some, Option.getD_some, List.tail_cons] at hRead ⊢
      by_cases hRest : u.is "..." = true
      · simp only [hRest, if_true] at hRead ⊢
        refine skip_append more hRead fun vs hVs => ?_
        cases hVs
        rfl
      · simp only [hRest, Bool.false_eq_true, if_false] at hRead ⊢
        exact (hNext _ _ hNamed hRead).2

/- Reading parameters goes on after them. -/
theorem parameters_append {fuel : Nat} {ts : List Token}
    (hParsed : Arguments.parameters fuel ps ts = .ok (read, rest)) (k : Nat) (more : List Token) :
    Arguments.parameters (fuel + k) ps (ts ++ more) = .ok (read, rest ++ more) := by
  induction fuel generalizing ps ts with
  | zero => cases hParsed
  | succ fuel ih =>
    have hOne : ∀ us, oneParameter (Arguments.parameters fuel) ps us = .ok (read, rest) →
        oneParameter (Arguments.parameters (fuel + k)) ps
          (us ++ more) = .ok (read, rest ++ more) := by
      intro us hUs
      refine oneParameter_append more (fun qs vs hSome hOk => ⟨?_, ih hOk⟩) hUs
      rintro rfl
      exact parameters_nil fuel hSome _ hOk
    rw [Nat.add_right_comm, parameters_succ]
    rw [parameters_succ] at hParsed
    cases ts with
    | nil =>
      by_cases hNone : ps.names.isEmpty = true
      · rw [hNone] at hParsed
        cases hParsed
      · rw [Bool.not_eq_true] at hNone
        rw [hNone] at hParsed
        cases hParsed
    | cons u us =>
      simp only [List.cons_append, List.head?_cons, Option.map_some, Option.getD_some] at hParsed ⊢
      by_cases hClose : u.is ")" = true
      · simp only [hClose, if_true] at hParsed ⊢
        cases hParsed
        rfl
      simp only [hClose, Bool.false_eq_true, if_false] at hParsed ⊢
      by_cases hNone : ps.names.isEmpty = true
      · simp only [hNone, if_true] at hParsed ⊢
        exact hOne (u :: us) hParsed
      · simp only [hNone, Bool.false_eq_true, if_false] at hParsed ⊢
        exact skip_append more hParsed hOne

/- A definition with parameters reads its line. -/
theorem define_function (l : FunctionLine) (hBounds : Bounds e) (more : List Token) :
    Directive.define (l.name.1 :: l.opening.1 :: (l.params.1 ++ l.body.1 ++ e :: more)) = (do
        enter l.name.1 (.function l.read.names.toList l.read.rest? (l.body.1 ++ [e.toEof]))
        return Directive.resumeAt (e :: more)) := by
  have hRead : Arguments.parameters
          ((l.opening.1 :: (l.params.1 ++ l.body.1 ++ e :: more)).length + 1)
          {} (l.params.1 ++ l.body.1 ++ e :: more) =
        .ok (l.read, l.body.1 ++ e :: more) := by
    rw [List.append_assoc]
    have hLength : (l.opening.1 :: (l.params.1 ++ (l.body.1 ++ e :: more))).length + 1 =
          l.params.1.length + 1 + (l.body.1 ++ e :: more).length.succ := by
      simp only [List.length_cons, List.length_append]
      omega
    rw [hLength]
    exact parameters_append l.parsed _ _
  unfold Directive.define
  simp only [Directive.first, List.headD_cons, List.tail_cons, l.ident, Bool.not_true,
    Bool.false_eq_true, if_false, l.joined, if_true, hRead,
    ofScan, pure_bind, copyLine_line l.body.2 hBounds]
  exact (enter_then _ _ _).symm

/- The end of a definition reads its line. -/
theorem undef_line (l : UndefLine) (hBounds : Bounds e) (more : List Token) :
    Directive.undef (l.name.1 :: (l.extra.1 ++ e :: more)) = (do
        modify fun s =>
          { s with macros := s.macros.erase l.name.1.text }
        noteExtra l.extra e
        return Directive.resumeAt (e :: more)) := by
  unfold Directive.undef
  simp only [Directive.first, List.headD_cons,
    List.tail_cons, l.ident, Bool.not_true, Bool.false_eq_true, if_false,
    skipLine_line l.extra hBounds, bind_assoc, pure_bind]

end Section

end CCompiler
