import Mathlib
import CCompiler.Proofs.Preprocess.Selection

/-
  Conditional inclusion.

  Expanding the tokens of a tree gives the text of just the
  groups that are to be read, and carries out just their
  definitions.  Sections that are open below are kept, and
  none is open in addition at the end.

  The names in lines of text are told apart from the names of
  definitions, so that no text is replaced.

  Main declarations:
    * `Section.Ready`, `Section.Line.Fits`
    * `Section.reads_line`, `Section.reads_opening`
    * `Section.reads_group`, `Section.reads_tail`
    * `Section.expandAll_selects`
-/

namespace CCompiler

namespace Section

open Expansion Conditional Pre

------------
-- Names of Macros and Names in Text
------------

/-
  A state before a group: bodies are lines, and no name in a
  line of text is defined.
-/
structure Ready (inText : Bytes → Prop) (s : Session) :
    Prop where
  tame : Tame s.macros
  unnamed : ∀ b, inText b → s.macros.find? b = none

/- A line of text has names of text, other lines have not. -/
structure Line.Fits (inText : Bytes → Prop) (l : Line) :
    Prop where
  text : ∀ t ∈ l.text?, t.isIdent = true → inText t.text
  name : ∀ b ∈ l.name?, ¬ inText b

variable {inText : Bytes → Prop} {s s' : Session}

theorem Ready.of_macros (hReady : Ready inText s) (hMacros : s'.macros = s.macros) :
    Ready inText s' := by
  refine ⟨?_, fun b hb => ?_⟩
  · rw [hMacros]
    exact hReady.tame
  · rw [hMacros]
    exact hReady.unnamed b hb

theorem Ready.ofToken? (hReady : Ready inText s) {t : Token}
    (hText : t.isIdent = true → inText t.text) : s.macros.ofToken? t = none := by
  unfold Macros.ofToken?
  split
  · exact hReady.unnamed _ (hText ‹_›)
  · rfl

theorem find?_erase_of_none {ms : Macros} {b : Bytes} (hNone : ms.find? b = none) (name : Bytes) :
    (ms.erase name).find? b = none := by
  unfold Macros.find? at hNone ⊢
  rw [List.lookup_eq_none_iff] at hNone ⊢
  exact fun entry hEntry => hNone entry (List.mem_of_mem_filter hEntry)

theorem Ready.erase (hReady : Ready inText s) (name : Bytes)
    (hMacros : s'.macros = s.macros.erase name) : Ready inText s' := by
  refine ⟨?_, fun b hb => ?_⟩
  · rw [hMacros]
    exact tame_erase hReady.tame name
  · rw [hMacros]
    exact find?_erase_of_none (hReady.unnamed b hb) name

theorem Ready.insert (hReady : Ready inText s) {name : Bytes} {m : Macro} (hTame : TameMacro m)
    (hName : ¬ inText name) (hMacros : s'.macros = s.macros.insert name m) : Ready inText s' := by
  refine ⟨?_, fun b hb => ?_⟩
  · rw [hMacros]
    exact tame_insert hReady.tame name hTame
  · have hOther : (b == name) = false := by
      rw [beq_eq_false_iff_ne]
      rintro rfl
      exact hName hb
    rw [hMacros]
    unfold Macros.insert Macros.find?
    rw [List.lookup_cons, hOther]
    exact find?_erase_of_none (hReady.unnamed b hb) name

------------
-- Lines
------------

theorem quiet_noteExtra (extra : Remainder) (next : Token) :
    Quiet s (noteExtra extra next) fun _ => True :=
  quiet_ite (fun _ => quiet_pure trivial) fun _ => quiet_warn _ _ _

variable {u : Unit}

/- What entering a macro makes of the table. -/
theorem macros_enter {name : Token} {m : Macro} (hRun : enter name m s = .ok u s') :
    s'.macros = s.macros.insert name.text m := by
  have hAdd : ∀ {s₁ : Session}, s₁.macros = s.macros → (modify fun s =>
        { s with macros := s.macros.insert name.text m } : Pre Unit) s₁ = .ok u s' →
      s'.macros = s.macros.insert name.text m := by
    intro s₁ hSame hModify
    cases hModify
    exact congrArg (·.insert name.text m) hSame
  unfold enter at hRun
  rcases bind_split hRun with ⟨s₀, s₁, hGet, hRest⟩
  cases hGet
  cases hOld : s.macros.find? name.text with
  | none =>
    simp only [hOld] at hRest
    exact hAdd rfl hRest
  | some old =>
    simp only [hOld] at hRest
    split at hRest
    · rcases bind_split hRest with ⟨v, s₂, hWarn, hLast⟩
      exact hAdd ((quiet_warn _ _ _).kept _ _ hWarn).1 hLast
    · exact hAdd rfl hRest

variable {l : Line} {text : List Token}

/- Lines keep names of text undefined. -/
theorem Ready.carryOut (hReady : Ready inText s) (hFits : l.Fits inText) {next : Token}
    (hRun : l.carryOut next s = .ok text s') : Ready inText s' := by
  cases l with
  | text l =>
    cases hRun
    exact hReady
  | object l =>
    rcases bind_split hRun with ⟨u, s₁, hEnter, hPure⟩
    cases hPure
    have hBody : ProperBody (l.body.1 ++ [next.toEof]) :=
      ⟨l.body.1, _, rfl, Token.ends_toEof next, l.body.2⟩
    exact hReady.insert (m := .object _) hBody.lineBody (hFits.name _ rfl) (macros_enter hEnter)
  | function l =>
    rcases bind_split hRun with ⟨u, s₁, hEnter, hPure⟩
    cases hPure
    have hBody : ProperBody (l.body.1 ++ [next.toEof]) :=
      ⟨l.body.1, _, rfl, Token.ends_toEof next, l.body.2⟩
    exact hReady.insert (m := .function _ _ _) hBody (hFits.name _ rfl) (macros_enter hEnter)
  | undef l =>
    rcases bind_split hRun with ⟨u, s₁, hErase, hRest⟩
    cases hErase
    rcases bind_split hRest with ⟨v, s₂, hNote, hPure⟩
    cases hPure
    exact hReady.erase l.name.1.text ((quiet_noteExtra _ _).kept _ _ hNote).1

variable {α : Type}

variable {a : α}

/- The same computation before another answer. -/
theorem blind_then {β : Type} {x : Pre Unit} {b : α} (hBlind : Blind x)
    (hRun : (do x; return a : Pre α) s = .ok b s') (c : β) (cs : List Conditional) :
    a = b ∧ (do x; return c : Pre β) (s.under cs) = .ok c (s'.under cs) := by
  rcases bind_split hRun with ⟨u, s₁, hFirst, hPure⟩
  cases hPure
  exact ⟨rfl, bind_ok (blind_ok hBlind hFirst cs)⟩

variable {e : Token}

/- A line is read as it is carried out. -/
theorem reads_line (expand : Expand) (hBounds : Bounds e) (hApart : l.Apart e)
    (hReady : Ready inText s) (hFits : l.Fits inText) (hRun : l.carryOut e s = .ok text s')
    (cs : List Conditional) (more : List Token) :
    Reads expand (l.toks ++ e :: more) (e :: more) text (s.under cs) (s'.under cs) := by
  cases l with
  | text l =>
    cases hRun
    have hNames : ∀ t ∈ l.first :: l.rest.1, (s.under cs).macros.ofToken? t = none :=
      fun t ht => hReady.ofToken? (hFits.text t ht)
    rw [List.forall_mem_cons] at hNames
    have hFirst := reads_kept expand l.notEof (by simp [isHash, l.notHash]) hNames.1
      (l.rest.1 ++ e :: more)
    exact hFirst.trans (reads_flat expand l.rest.2 hNames.2 (e :: more))
  | object l =>
    rcases blind_then (blind_enter _ _) hRun (Directive.resumeAt (e :: more)) cs with ⟨rfl, hSame⟩
    rw [Line.toks, List.append_assoc, List.cons_append]
    refine reads_directive l.mark (by simp; omega) ?_
    rw [run_define, define_object l hBounds hApart]
    exact hSame
  | function l =>
    rcases blind_then (blind_enter _ _) hRun (Directive.resumeAt (e :: more)) cs with ⟨rfl, hSame⟩
    rw [Line.toks, List.append_assoc, List.cons_append, List.cons_append]
    refine reads_directive l.mark (by simp; omega) ?_
    rw [run_define, define_function l hBounds]
    exact hSame
  | undef l =>
    have hBlind : Blind (do
        modify fun s => { s with macros := s.macros.erase l.name.1.text }
        noteExtra l.extra e) :=
      (blind_modify fun _ _ => rfl).bind fun _ => blind_noteExtra _ _
    rcases blind_then hBlind hRun (Directive.resumeAt (e :: more)) cs with ⟨rfl, hSame⟩
    rw [Line.toks, List.append_assoc, List.cons_append]
    refine reads_directive l.mark (by simp; omega) ?_
    rw [run_undef, undef_line l hBounds]
    exact hSame

------------
-- Sections
------------

variable {expand : Expand}

theorem quiet_value (hExpand : QuietInLines expand) (hReady : Ready inText s) (start : Token)
    (cond : Remainder) (next : Token) :
    Quiet s (Directive.conditionValue expand start (cond.1 ++ [next.toEof])) fun _ => True :=
  Directive.quiet_conditionValue (hExpand s.macros hReady.tame) rfl start
    ⟨cond.1, _, rfl, Token.ends_toEof next, cond.2⟩

theorem Opening.quiet_holds (hExpand : QuietInLines expand) (hReady : Ready inText s)
    (o : Opening) (next : Token) : Quiet s (o.holds expand next) fun _ => True := by
  cases o with
  | value m cond => exact (quiet_value hExpand hReady _ _ _).bind fun _ _ _ _ => quiet_pure trivial
  | defined m name extra =>
    refine quiet_get (fun _ => rfl) ?_
    exact (quiet_noteExtra _ _).bind fun _ _ _ _ => quiet_pure trivial
  | undefined m name extra =>
    refine quiet_get (fun _ => rfl) ?_
    exact (quiet_noteExtra _ _).bind fun _ _ _ _ => quiet_pure trivial

/- What a quiet computation gives under other sections. -/
theorem quiet_ok {x : Pre α} {Q : α → Prop} (hQuiet : Quiet s x Q) (hRun : x s = .ok a s')
    (cs : List Conditional) : x (s.under cs) = .ok a (s'.under cs) := by
  rw [hQuiet.blind cs, hRun]
  rfl

theorem length_skipGroup_le (level : Nat) (ts : List Token) :
    (skipGroup level ts).length ≤ ts.length := by
  fun_induction skipGroup level ts with
  | case1 => exact le_rfl
  | case2 level h name rest hOpen hIs ih =>
    simp only [List.length_cons]
    omega
  | case3 => exact le_rfl
  | case4 level h name rest hOpen hIs hEnds hClose ih =>
    simp only [List.length_cons]
    omega
  | case5 level h name rest hOpen hIs hEnds hClose ih =>
    simp only [List.length_cons] at ih ⊢
    omega
  | case6 => exact le_rfl

variable {v : Int64}

/- A condition at the start of a section or of a group. -/
theorem condition_line (hExpand : QuietInLines expand) (hReady : Ready inText s) (start : Token)
    (cond : Remainder) (hBounds : Bounds e)
    (hRun : Directive.conditionValue expand start
        (cond.1 ++ [e.toEof]) s = .ok v s') (cs : List Conditional) (more : List Token) :
    Directive.condition expand start (cond.1 ++ e :: more) (s.under cs) =
      .ok (v, e :: more) (s'.under cs) := by
  rw [Directive.condition_eq, copyLine_line cond.2 hBounds]
  exact bind_ok (quiet_ok (quiet_value hExpand hReady _ _ _) hRun cs)

/- What is left of the tokens from a group on. -/
def from? (taken : Bool) (ts : List Token) : List Token :=
  if taken then ts else skipGroup 0 ts

theorem length_from?_le (taken : Bool) (ts : List Token) : (from? taken ts).length ≤ ts.length := by
  cases taken with
  | true => exact le_rfl
  | false => exact length_skipGroup_le 0 ts

/- The opening line of a section about a name. -/
theorem ifdef_line (word : Token) (name : Word) (extra : Remainder) (hBounds : Bounds e)
    (hNote : noteExtra extra e s = .ok u s') (cs : List Conditional) (more : List Token) :
    let taken :=
      (s.macros.ofToken? name.1).isSome == word.is "ifdef"
    Directive.ifdefDirective word (name.1 :: (extra.1 ++ e :: more)) (s.under cs) =
      .ok (Directive.resumeAt (from? taken (e :: more)))
        (s'.under ({ start := word, taken := taken } :: cs)) := by
  unfold Directive.ifdefDirective
  simp only [Directive.first, List.headD_cons,
    List.tail_cons, skipLine_line extra hBounds, bind_assoc, pure_bind]
  exact bind_ok (blind_ok (blind_noteExtra _ _) hNote _)

/- The opening line of a section. -/
theorem reads_opening (hExpand : QuietInLines expand) (hReady : Ready inText s) {o : Opening}
    (hBounds : Bounds e) {taken : Bool} (hRun : o.holds expand e s = .ok taken s')
    (cs : List Conditional) (more : List Token) :
    ∃ c : Conditional, c.part ≠ .elsePart ∧ c.taken = taken ∧ Reads expand (o.toks ++ e :: more)
        (from? taken (e :: more)) [] (s.under cs)
        (s'.under (c :: cs)) := by
  have hLess := length_from?_le taken (e :: more)
  cases o with
  | value m cond =>
    rcases bind_split hRun with ⟨v, s₁, hValue, hPure⟩
    cases hPure
    refine ⟨⟨.thenPart, m.hash, v != 0⟩, by simp, rfl, ?_⟩
    rw [Opening.toks, List.append_assoc]
    refine reads_directive m (by simp; simp at hLess; omega) ?_
    rw [run_if]
    unfold Directive.ifDirective
    refine (bind_ok (condition_line hExpand hReady _ _ hBounds hValue cs more)).trans ?_
    by_cases hZero : v = 0
    · simp [hZero, from?]
      rfl
    · simp [hZero, from?]
      rfl
  | defined m name extra =>
    rcases bind_split hRun with ⟨s₀, s₁, hGet, hRest⟩
    cases hGet
    rcases bind_split hRest with ⟨u, s₂, hNote, hPure⟩
    cases hPure
    refine ⟨⟨.thenPart, m.word.1, (s.macros.ofToken? name.1).isSome⟩, by simp, rfl, ?_⟩
    rw [Opening.toks, List.append_assoc, List.cons_append]
    refine reads_directive m (by simp; simp at hLess; omega) ?_
    rw [run_ifdef _ _ _ (.inl rfl)]
    simpa [m.named] using ifdef_line m.word.1 name extra hBounds hNote cs more
  | undefined m name extra =>
    rcases bind_split hRun with ⟨s₀, s₁, hGet, hRest⟩
    cases hGet
    rcases bind_split hRest with ⟨u, s₂, hNote, hPure⟩
    cases hPure
    refine ⟨⟨.thenPart, m.word.1, !(s.macros.ofToken? name.1).isSome⟩, by simp, rfl, ?_⟩
    rw [Opening.toks, List.append_assoc, List.cons_append]
    refine reads_directive m (by simp; simp at hLess; omega) ?_
    rw [run_ifdef _ _ _ (.inr rfl)]
    have hOther : m.word.1.is "ifdef" = false := Token.is_other m.named (by decide)
    simpa [hOther] using ifdef_line m.word.1 name extra hBounds hNote cs more

/- The end of a section. -/
theorem reads_endif (expand : Expand) (m : Mark "endif") (extra : Remainder) (hBounds : Bounds e)
    (hNote : noteExtra extra e s = .ok u s') (c : Conditional) (cs : List Conditional)
    (more : List Token) :
    Reads expand (m.toks ++ (extra.1 ++ e :: more))
      (e :: more) [] (s.under (c :: cs)) (s'.under cs) := by
  refine reads_directive m (by simp; omega) ?_
  rw [run_endif]
  unfold Directive.endifDirective
  simp only [skipLine_line extra hBounds, bind_assoc, pure_bind]
  exact bind_ok (blind_ok (blind_noteExtra _ _) hNote cs)

variable {c : Conditional}

/- The section that is open, before its last group. -/
theorem openGroup_ok (hash : Token) (cause : Fault) (hPart : c.part ≠ .elsePart)
    (cs : List Conditional) :
    Directive.openGroup hash cause (s.under (c :: cs)) = .ok c (s.under (c :: cs)) := by
  have hOther : (c.part == .elsePart) = false := by simpa using hPart
  change (if c.part == .elsePart then _ else pure c : Pre Conditional) _ = _
  rw [hOther]
  rfl

/- The start of the last group of a section. -/
theorem reads_else (expand : Expand) (m : Mark "else") (extra : Remainder) (hBounds : Bounds e)
    (hNote : noteExtra extra e s = .ok u s') (hPart : c.part ≠ .elsePart) (cs : List Conditional)
    (more : List Token) :
    Reads expand (m.toks ++ (extra.1 ++ e :: more))
      (from? (!c.taken) (e :: more)) [] (s.under (c :: cs))
      (s'.under ({ c with part := .elsePart } :: cs)) := by
  have hLess := length_from?_le (!c.taken) (e :: more)
  refine reads_directive m (by simp; simp at hLess; omega) ?_
  rw [run_else]
  unfold Directive.elseDirective
  rw [bind_ok (openGroup_ok _ _ hPart cs)]
  simp only [skipLine_line extra hBounds, bind_assoc, pure_bind]
  refine (bind_ok (blind_ok (blind_noteExtra _ _) hNote
    ({ c with part := .elsePart } :: cs))).trans ?_
  cases c.taken <;> rfl

/- Another group of a section of which one was read. -/
theorem reads_elif_taken (expand : Expand) (m : Mark "elif") (hPart : c.part ≠ .elsePart)
    (hTaken : c.taken = true) (s : Session) (cs : List Conditional) (ts : List Token) :
    Reads expand (m.toks ++ ts) (skipGroup 0 (m.word.1 :: ts)) [] (s.under (c :: cs))
      (s.under ({ c with part := .elifPart } :: cs)) := by
  refine reads_directive m (length_skipGroup_le 0 _) ?_
  rw [run_elif]
  unfold Directive.elifDirective
  rw [bind_ok (openGroup_ok _ _ hPart cs), if_pos hTaken]
  rfl

/- Another group of a section of which none was read yet. -/
theorem reads_elif (hExpand : QuietInLines expand) (hReady : Ready inText s) (m : Mark "elif")
    (cond : Remainder) (hBounds : Bounds e)
    (hValue : Directive.conditionValue expand m.word.1
        (cond.1 ++ [e.toEof]) s = .ok v s') (hPart : c.part ≠ .elsePart)
    (hTaken : c.taken = false) (cs : List Conditional) (more : List Token) :
    Reads expand (m.toks ++ (cond.1 ++ e :: more))
      (from? (v != 0) (e :: more)) [] (s.under (c :: cs))
      (s'.under ({ c with part := .elifPart, taken := v != 0 } ::
          cs)) := by
  have hLess := length_from?_le (v != 0) (e :: more)
  refine reads_directive m (by simp; simp at hLess; omega) ?_
  rw [run_elif]
  unfold Directive.elifDirective
  rw [bind_ok (openGroup_ok _ _ hPart cs)]
  simp only [hTaken, Bool.false_eq_true, if_false]
  refine (bind_ok (condition_line hExpand hReady _ cond
    hBounds hValue ({ c with part := .elifPart } :: cs) more)).trans ?_
  by_cases hZero : (v != 0) = true
  · simp only [hZero, if_true]
    rfl
  · rw [Bool.not_eq_true] at hZero
    have hKept : c.taken = (v != 0) := hTaken.trans hZero.symm
    rw [← hKept]
    simp only [hTaken, Bool.false_eq_true, if_false]
    rfl

------------
-- Trees
------------

/- What is passed over of a section defines nothing. -/
theorem Tail.quiet_pass (t : Tail) (next : Token) : Quiet s (t.pass next) fun _ => True := by
  cases t with
  | endif m extra => exact quiet_noteExtra extra next
  | last m extra g close extra' =>
    exact (quiet_noteExtra _ _).bind fun _ _ _ _ => quiet_noteExtra _ _
  | elif m cond g t => exact t.quiet_pass next

/- The rest of a section of which a group was read. -/
theorem reads_passed (expand : Expand) (t : Tail) {next : Token} (hNext : Bounds next) {u : Unit}
    (hRun : t.pass next s = .ok u s') {c : Conditional} (hPart : c.part ≠ .elsePart)
    (hTaken : c.taken = true) (cs : List Conditional) (more : List Token) :
    Reads expand (t.toks ++ next :: more) (next :: more) [] (s.under (c :: cs)) (s'.under cs) := by
  cases t with
  | endif m extra =>
    rw [Tail.toks, List.append_assoc]
    exact reads_endif expand m extra hNext hRun c cs more
  | last m extra g close extra' =>
    rcases bind_split hRun with ⟨v, s₁, hNote, hNote'⟩
    simp only [Tail.toks, List.append_assoc]
    rcases append_firstOf g.toks close.hash (close.word.1 :: (extra'.1 ++ next :: more)) with
      ⟨rest, hRest⟩
    have hSkip : skipGroup 0 (firstOf g.toks close.hash :: rest) =
          close.toks ++ (extra'.1 ++ next :: more) := by
      rw [← hRest]
      have hGroup := skipGroup_to_tail g (.endif close extra') (next :: more)
      rw [Tail.toks, List.append_assoc] at hGroup
      exact hGroup
    have hElse := reads_else expand m extra (g.bounds close.bounds) hNote hPart cs rest
    rw [hTaken, from?, if_neg (by simp), hSkip, ← hRest] at hElse
    exact hElse.trans (reads_endif expand close extra' hNext hNote' _ cs more)
  | elif m cond g t =>
    simp only [Tail.toks, List.append_assoc]
    have hSkip : skipGroup 0 (m.word.1 :: (cond.1 ++ (g.toks ++ (t.toks ++ next :: more)))) =
          t.toks ++ next :: more := by
      have hFlat : Flat (m.word.1 :: cond.1) := List.forall_mem_cons.mpr ⟨m.word.2, cond.2⟩
      rcases t.toks_eq with ⟨rest, hTail⟩
      rcases exists_first g.toks t.hash (rest ++ next :: more) with ⟨y, ys, hFirst⟩
      have hGroup := skipGroup_to_tail g t (next :: more)
      rw [hTail, List.cons_append, hFirst] at hGroup ⊢
      rw [← hGroup]
      exact skipGroup_flat 0 hFlat y ys
    have hElif := reads_elif_taken expand m hPart hTaken s
      cs (cond.1 ++ (g.toks ++ (t.toks ++ next :: more)))
    rw [hSkip] at hElif
    exact hElif.trans (reads_passed expand t hNext hRun
        (c := { c with part := .elifPart }) (by simp) hTaken cs more)

mutual

/-
  A group is read as it is selected.  The induction is on the
  tree, for any sections that are open around it.
-/
theorem reads_group (hExpand : QuietInLines expand) (g : Group) {next : Token}
    (hNext : Bounds next) (hApart : g.Apart next) {s s' : Session} (hReady : Ready inText s)
    (hFits : ∀ l ∈ g.lines, l.Fits inText) {text : List Token}
    (hRun : g.select expand next s = .ok text s') (cs : List Conditional) (more : List Token) :
    Ready inText s' ∧ Reads expand (g.toks ++ next :: more) (next :: more)
        text (s.under cs) (s'.under cs) := by
  cases g with
  | done =>
    cases hRun
    exact ⟨hReady, reads_refl expand _ _⟩
  | line l g =>
    rw [Group.lines, List.forall_mem_cons] at hFits
    rw [Group.select] at hRun
    rcases bind_split hRun with ⟨text₁, s₁, hLine, hRest⟩
    rcases bind_split hRest with ⟨text₂, s₂, hGroup, hPure⟩
    cases hPure
    rcases append_firstOf g.toks next more with
      ⟨rest, hToks⟩
    have hFirst := reads_line expand (g.bounds hNext) hApart.1 hReady hFits.1 hLine cs rest
    rw [← hToks] at hFirst
    rcases reads_group hExpand g hNext hApart.2
      (hReady.carryOut hFits.1 hLine) hFits.2 hGroup cs more
      with ⟨hReady', hReads⟩
    rw [Group.toks, List.append_assoc]
    exact ⟨hReady', hFirst.trans hReads⟩
  | sect o g t rest =>
    simp only [Group.lines, List.forall_mem_append] at hFits
    rcases hFits with ⟨hInner, hTail, hOuter⟩
    rcases hApart with ⟨hApartInner, hApartTail, hApartOuter⟩
    rw [Group.select] at hRun
    rcases bind_split hRun with ⟨taken, s₁, hHolds, hRest⟩
    rcases bind_split hRest with ⟨text₁, s₂, hSect, hAfter⟩
    rcases bind_split hAfter with ⟨text₂, s₃, hOut, hPure⟩
    cases hPure
    have hReady₁ : Ready inText s₁ := hReady.of_macros
      ((o.quiet_holds hExpand hReady _).kept _ _ hHolds).1
    rcases append_firstOf rest.toks next more with
      ⟨more', hAfterToks⟩
    have hBounds : Bounds (firstOf rest.toks next) := rest.bounds hNext
    -- the section by itself, with the rest after it
    have hSection : Ready inText s₂ ∧ Reads expand
          (o.toks ++ (g.toks ++ (t.toks ++ firstOf rest.toks next :: more')))
          (firstOf rest.toks next :: more') text₁
          (s.under cs) (s₂.under cs) := by
      rcases t.toks_eq with ⟨tail, hTailToks⟩
      rcases append_firstOf g.toks t.hash (tail ++ firstOf rest.toks next :: more') with
        ⟨inner, hInnerToks⟩
      rcases reads_opening hExpand hReady (g.bounds t.bounds) hHolds cs inner with
        ⟨c, hPart, hTaken, hOpen⟩
      rw [← hInnerToks, ← List.cons_append, ← hTailToks] at hOpen
      cases taken with
      | true =>
        simp only [if_true] at hSect
        rcases bind_split hSect with
          ⟨text₃, s₄, hGroup, hPass⟩
        rcases bind_split hPass with
          ⟨u, s₅, hPassed, hPure⟩
        cases hPure
        rcases reads_group hExpand g t.bounds hApartInner hReady₁ hInner hGroup (c :: cs)
          (tail ++ firstOf rest.toks next :: more') with
          ⟨hReady₄, hReads⟩
        rw [← List.cons_append, ← hTailToks] at hReads
        refine ⟨hReady₄.of_macros ((t.quiet_pass _).kept _ _ hPassed).1, ?_⟩
        have hClose := reads_passed expand t hBounds hPassed hPart hTaken cs more'
        simpa using (hOpen.trans hReads).trans hClose
      | false =>
        simp only [Bool.false_eq_true, if_false] at hSect
        rw [from?, if_neg (by simp), skipGroup_to_tail] at hOpen
        rcases reads_tail hExpand t hBounds hApartTail
          hReady₁ hTail hSect hPart hTaken cs more' with
          ⟨hReady₂, hReads⟩
        exact ⟨hReady₂, hOpen.trans hReads⟩
    rcases hSection with ⟨hReady₂, hReads⟩
    rcases reads_group hExpand rest hNext hApartOuter
      hReady₂ hOuter hOut cs more with ⟨hReady₃, hReads'⟩
    rw [← hAfterToks] at hReads
    simp only [Group.toks, List.append_assoc]
    exact ⟨hReady₃, hReads.trans hReads'⟩

/- The rest of a section of which no group was read yet. -/
theorem reads_tail (hExpand : QuietInLines expand) (t : Tail) {next : Token} (hNext : Bounds next)
    (hApart : t.Apart) {s s' : Session} (hReady : Ready inText s)
    (hFits : ∀ l ∈ t.lines, l.Fits inText) {text : List Token}
    (hRun : t.select expand next s = .ok text s') {c : Conditional} (hPart : c.part ≠ .elsePart)
    (hTaken : c.taken = false) (cs : List Conditional) (more : List Token) :
    Ready inText s' ∧ Reads expand (t.toks ++ next :: more) (next :: more)
        text (s.under (c :: cs)) (s'.under cs) := by
  cases t with
  | endif m extra =>
    rw [Tail.select] at hRun
    rcases bind_split hRun with ⟨u, s₁, hNote, hPure⟩
    cases hPure
    rw [Tail.toks, List.append_assoc]
    exact ⟨hReady.of_macros ((quiet_noteExtra _ _).kept _ _ hNote).1,
      reads_endif expand m extra hNext hNote c cs more⟩
  | last m extra g close extra' =>
    rw [Tail.select] at hRun
    rcases bind_split hRun with ⟨u, s₁, hNote, hRest⟩
    rcases bind_split hRest with ⟨text₁, s₂, hGroup, hEnd⟩
    rcases bind_split hEnd with ⟨u', s₃, hNote', hPure⟩
    cases hPure
    rcases append_firstOf g.toks close.hash (close.word.1 :: (extra'.1 ++ next :: more)) with
      ⟨rest, hRest⟩
    have hElse := reads_else expand m extra (g.bounds close.bounds) hNote hPart cs rest
    rw [from?, if_pos (by simp [hTaken]), ← hRest] at hElse
    rcases reads_group hExpand g close.bounds hApart
      (hReady.of_macros ((quiet_noteExtra _ _).kept _ _ hNote).1) hFits
      hGroup ({ c with part := .elsePart } :: cs)
      (close.word.1 :: (extra'.1 ++ next :: more)) with
      ⟨hReady₂, hReads⟩
    have hEndif := reads_endif expand close extra' hNext hNote' { c with part := .elsePart } cs more
    simp only [Tail.toks, List.append_assoc]
    refine ⟨hReady₂.of_macros ((quiet_noteExtra _ _).kept _ _ hNote').1, ?_⟩
    have hAll := (hElse.trans hReads).trans hEndif
    rw [List.nil_append, List.append_nil] at hAll
    exact hAll
  | elif m cond g t =>
    simp only [Tail.lines, List.forall_mem_append] at hFits
    rw [Tail.select] at hRun
    rcases bind_split hRun with ⟨v, s₁, hValue, hRest⟩
    have hReady₁ : Ready inText s₁ := hReady.of_macros
      ((quiet_value hExpand hReady _ _ _).kept _ _ hValue).1
    rcases t.toks_eq with ⟨tail, hTailToks⟩
    rcases append_firstOf g.toks t.hash (tail ++ next :: more) with ⟨inner, hInnerToks⟩
    have hElif := reads_elif hExpand hReady m cond (g.bounds t.bounds) hValue hPart hTaken cs inner
    rw [← hInnerToks, ← List.cons_append, ← hTailToks] at hElif
    simp only [Tail.toks, List.append_assoc]
    by_cases hZero : (v != 0) = true
    · rw [if_pos hZero] at hRest
      rcases bind_split hRest with
        ⟨text₁, s₂, hGroup, hPass⟩
      rcases bind_split hPass with ⟨u, s₃, hPassed, hPure⟩
      cases hPure
      rw [hZero, from?, if_pos rfl] at hElif
      rcases reads_group hExpand g t.bounds hApart.1 hReady₁ hFits.1 hGroup
        ({ c with part := .elifPart, taken := true } :: cs)
        (tail ++ next :: more) with ⟨hReady₂, hReads⟩
      rw [← List.cons_append, ← hTailToks] at hReads
      refine ⟨hReady₂.of_macros ((t.quiet_pass _).kept _ _ hPassed).1, ?_⟩
      have hClose := reads_passed expand t hNext hPassed
        (c := { c with part := .elifPart, taken := true })
        (by simp) rfl cs more
      simpa using (hElif.trans hReads).trans hClose
    · rw [if_neg hZero] at hRest
      rw [Bool.not_eq_true] at hZero
      rw [hZero, from?, if_neg (by simp), skipGroup_to_tail] at hElif
      rcases reads_tail hExpand t hNext hApart.2 hReady₁ hFits.2 hRest
        (c := { c with part := .elifPart, taken := false })
        (by simp) rfl cs more with ⟨hReady₂, hReads⟩
      exact ⟨hReady₂, hElif.trans hReads⟩

end

/-
  Expanding the tokens of a tree gives the text of the groups
  that are to be read and does what their definitions do, and
  the sections that are open at the end are those of before.
-/
theorem expandAll_selects (g : Group) (eof : Token) (hEof : eof.isEof = true) {s s' : Session}
    (hTame : Tame s.macros) (hPlain : ∀ l ∈ g.lines, ∀ t ∈ l.text?, s.macros.ofToken? t = none)
    (hOther : ∀ l ∈ g.lines, ∀ t ∈ l.text?, t.isIdent = true →
        ∀ l' ∈ g.lines, l'.name? ≠ some t.text) (hApart : g.Apart eof) {n : Nat}
    (hEnough : g.toks.length < n) {text : List Token}
    (hRun : g.select (expandAll n) eof s = .ok text s') :
    ∃ e : Expanded, expandAll (n + 1) (g.toks ++ [eof]) s = .ok e (s'.under s.conds) ∧
      e.done = text ∧ e.eof = eof := by
  let inText : Bytes → Prop := fun b => ∃ l ∈ g.lines, ∃ t ∈ l.text?, t.isIdent = true ∧ t.text = b
  have hReady : Ready inText s := by
    refine ⟨hTame, ?_⟩
    rintro _ ⟨l, hl, t, ht, hIdent, rfl⟩
    have hNone := hPlain l hl t ht
    rwa [Macros.ofToken?, if_pos hIdent] at hNone
  have hFits : ∀ l ∈ g.lines, l.Fits inText := by
    intro l hl
    refine ⟨fun t ht hIdent => ⟨l, hl, t, ht, hIdent, rfl⟩, ?_⟩
    rintro b hName ⟨l', hl', t, ht, hIdent, rfl⟩
    exact hOther l' hl' t ht hIdent l hl hName
  have hReads := (reads_group (fun ms hMs => quiet_expandAll hMs n) g (.inr hEof) hApart
    hReady hFits hRun s.conds []).2
  rcases hReads { toks := g.toks ++ [eof] } rfl with
    ⟨k, p, hSteps, hToks, hDone, hMany⟩
  simp only [List.length_append, List.length_cons, List.length_nil] at hSteps
  rcases Nat.exists_eq_add_of_lt (show k < n by omega) with
    ⟨m, rfl⟩
  have hLast : step (expandAll (k + m + 1)) p (s'.under s.conds) =
      .ok (.inr ⟨p.used.toList, p.done.toList, p.kept?, eof⟩) (s'.under s.conds) := by
    unfold step
    rw [hToks]
    simp only [hEof, if_true]
    rfl
  refine ⟨⟨p.used.toList, p.done.toList, p.kept?, eof⟩, ?_, by simpa using hDone, rfl⟩
  have hAll := hMany (m + 1)
  rw [repeatStep, bind_ok hLast] at hAll
  rw [show m + 1 + k = k + m + 1 by omega] at hAll
  exact hAll

/- A token at the start of a line. -/
def starting (kind : TokenKind) (text : String) : Token :=
  { spelled kind text with atLineStart := true }

/- A word inside of a line. -/
def wordOf (text : String) : Word :=
  ⟨{ spelled .ident text with spaced := true }, rfl, rfl⟩

/- The start of a directive of a name. -/
def markOf (name : String) : Mark name where
  hash := starting .punct "#"
  word := wordOf name
  starts := rfl
  punct := rfl
  named := by simp [wordOf, spelled, Token.is, TokenKind.isStr]

/-
  A section whose second group is read.  In it a name is
  defined, and the condition of an inner section depends on
  it.  The last condition is none, and is never looked at.
-/
def nestedTree : Group :=
  .sect
    (.value (markOf "if") ⟨[spelled .ident "defined", spelled .ident "A"],
        by decide⟩)
    (.line
      (.text ⟨starting .ident "a", ⟨[], by decide⟩, rfl, rfl, rfl⟩) .done)
    (.elif (markOf "elif") ⟨[spelled .punct "!", spelled .ident "defined",
        spelled .ident "A"], by decide⟩ (.line (.object
          ⟨markOf "define", wordOf "B",
            ⟨[{ spelled .ppNum "2" with spaced := true }],
              by decide⟩, rfl, by decide⟩) (.sect
          (.undefined (markOf "ifndef") (wordOf "B")
            ⟨[], by decide⟩) (.line
            (.text ⟨starting .ident "b", ⟨[], by decide⟩, rfl, rfl, rfl⟩) .done)
          (.elif (markOf "elif") ⟨[spelled .ident "B", spelled .punct "==",
              spelled .ppNum "2"], by decide⟩ (.line
              (.text ⟨starting .punct "(",
                ⟨[spelled .ident "c"], by decide⟩, rfl, rfl, rfl⟩) .done)
            (.last (markOf "else") ⟨[], by decide⟩ (.line
                (.text ⟨starting .ident "d",
                  ⟨[], by decide⟩, rfl, rfl, rfl⟩) .done)
              (markOf "endif") ⟨[], by decide⟩)) .done))
      (.elif (markOf "elif") ⟨[spelled .punct ")"], by decide⟩
        .done (.endif (markOf "endif") ⟨[], by decide⟩)))
    (.line
      (.text ⟨starting .ident "f", ⟨[], by decide⟩, rfl, rfl, rfl⟩) .done)

/- The text of the two groups of the nested sections. -/
theorem expandAll_selects_nested :
    ∃ (e : Expanded) (s : Session), expandAll 61 (nestedTree.toks ++ [starting .eof ""])
          {} = .ok e s ∧ e.done.map (·.text) =
          ["(", "c", "f"].map ascii ∧ s.conds = [] := by
  have hSelect : texts? (nestedTree.select (expandAll 60) (starting .eof "") {}) =
        some (["(", "c", "f"].map ascii) := by
    decide +kernel
  rcases texts?_some hSelect with ⟨text, s, hRun, hText⟩
  rcases expandAll_selects nestedTree (starting .eof "") rfl (by simp [Tame])
    (by decide +kernel) (by decide +kernel)
    (by simp [nestedTree, Group.Apart, Tail.Apart, Line.Apart])
    (by decide +kernel) hRun with ⟨e, hExpand, hDone, -⟩
  exact ⟨e, _, hExpand, by rw [hDone]; exact hText, rfl⟩

/- A definition without a body before a line in parentheses. -/
def bareTree : Group :=
  .line
    (.object
      ⟨markOf "define", wordOf "X", ⟨[], by decide⟩, rfl,
        by decide⟩)
    (.line (.text ⟨starting .punct "(",
        ⟨[spelled .ident "a", spelled .punct ")"], by decide⟩, rfl, rfl, rfl⟩)
      (.line
        (.text ⟨starting .ident "b", ⟨[], by decide⟩, rfl, rfl, rfl⟩) .done))

/- The definition takes the next line for its parameters. -/
theorem bare_definition_takes_line :
    texts? (bareTree.select (expandAll 20) (starting .eof "") {}) =
        some (["(", "a", ")", "b"].map ascii) ∧ texts?
          ((do
            let e ← expandAll 21 (bareTree.toks ++ [starting .eof ""])
            return e.done : Pre (List Token)) {}) =
        some [ascii "b"] := by decide +kernel

end Section

end CCompiler
