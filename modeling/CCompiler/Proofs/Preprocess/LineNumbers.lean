import Mathlib
import CCompiler.Proofs.Preprocess.Following
import CCompiler.Proofs.Preprocess.MergedLiterals
import CCompiler.Proofs.Preprocess.Stringizing

/-
  The numbers and names under which lines are shown.

  A text is divided into lines without directives and those
  that number the line after them.  Each token of the former
  comes out with the line and the name that the last of the
  latter gives it; where the text asks for its own line or
  name, that is what it gets.

  Main declarations:
    * `Lexer.Reads.rising`, `Lexer.lexFile_numeral`
    * `Numbering.Marker`, `Numbering.View`
    * `Numbering.advances_part`
    * `Numbering.process_renumbers`
-/

------------
-- Lines of a Text
------------

namespace CCompiler

namespace Lexer

open Filler

variable {cfg : Config} {f : SourceFile} {shownName : Bytes}
  {gap gap' : Gap} {c c' : Cursor} {t : Token}

/- A token as it is made from a text. -/
def Made (f : SourceFile) (t : Token) : Prop :=
  t.file = f ∧ t.origin? = none ∧ t.hidden = []

/-
  Behind a line a token does not go back, and it goes on if
  it is the first one of its own line.
-/
def Past (line : Int) (t : Token) : Prop :=
  t.isEof = false → line ≤ t.line ∧ (t.atLineStart = true → line < t.line)

/- Blanks go on to the next line before they start one. -/
theorem line_skipBlanks (hSkip : skipBlanks gap c = .ok (gap', c')) :
    c.line ≤ c'.line ∧ (gap.atLineStart = false → gap'.atLineStart = true → c.line < c'.line) := by
  obtain ⟨ps, hText, -, rfl, rfl⟩ := skipBlanks_divides hSkip
  refine ⟨Nat.le_add_right _ _, fun hInside hStart => ?_⟩
  rw [atLineStart_past, hInside] at hStart
  have hMem : Filler.newline ∈ ps := hStart.resolve_left Bool.false_ne_true
  have hByte : Bytes.of '\n' ∈ Filler.spelled ps :=
    List.mem_flatMap.mpr ⟨_, hMem, List.mem_singleton.mpr rfl⟩
  refine Nat.lt_add_of_pos_right ?_
  rw [hText, List.take_left]
  exact List.countP_pos_iff.mpr ⟨_, hByte, beq_self_eq_true _⟩

theorem made_next (hNext : next cfg f shownName gap c = .ok (t, c')) :
    Made f t ∧ (t.isEof = false → (c.line : Int) ≤ t.line ∧ t.line ≤ c'.line ∧
      (gap.atLineStart = false → t.atLineStart = true → (c.line : Int) < t.line)) := by
  unfold next at hNext
  split at hNext
  · cases hNext
  rename_i gap₁ c₁ hSkip
  obtain ⟨hLe, hLt⟩ := line_skipBlanks hSkip
  split at hNext
  · cases hNext
    exact ⟨⟨rfl, rfl, rfl⟩, fun hEof => by cases hEof⟩
  split at hNext
  · cases hNext
  · cases hNext
    exact ⟨⟨rfl, rfl, rfl⟩, fun _ => ⟨Int.ofNat_le.mpr hLe, Int.ofNat_le.mpr (Nat.le_add_right _ _),
      fun hInside hStart => Int.ofNat_lt.mpr (hLt hInside hStart)⟩⟩

variable {ts : List Token}

/- The tokens of a text stand on lines that do not fall. -/
theorem Reads.rising {r : Except LexError (List Token)} (hReads : Reads cfg f shownName gap c r)
    (hTokens : r = .ok ts) :
    (∀ t ∈ ts, Made f t ∧ (t.isEof = false → (c.line : Int) ≤ t.line ∧
      (gap.atLineStart = false → t.atLineStart = true → (c.line : Int) < t.line))) ∧
    ts.Pairwise fun t u => t.isEof = false ∧ Past t.line u := by
  induction hReads generalizing ts with
  | fault hNext => cases hTokens
  | last hNext hEof =>
    cases hTokens
    obtain ⟨hMade, hLines⟩ := made_next hNext
    refine ⟨List.forall_mem_singleton.mpr ⟨hMade, fun hOpen =>
      ⟨(hLines hOpen).1, (hLines hOpen).2.2⟩⟩, List.pairwise_singleton _ _⟩
  | @more gap c c' t r hNext hEof hRest ih =>
    cases r with
    | error e => cases hTokens
    | ok us =>
      cases hTokens
      obtain ⟨hMade, hLines⟩ := made_next hNext
      obtain ⟨hLow, hNextLine, hStart⟩ := hLines hEof
      obtain ⟨hUs, hPairs⟩ := ih rfl
      refine ⟨List.forall_mem_cons.mpr ⟨⟨hMade, fun _ => ⟨hLow, hStart⟩⟩, fun u hu => ?_⟩,
        List.pairwise_cons.mpr ⟨fun u hu => ⟨hEof, ?_⟩, hPairs⟩⟩
      · refine ⟨(hUs u hu).1, fun hOpen => ?_⟩
        obtain ⟨hLater, hLaterStart⟩ := (hUs u hu).2 hOpen
        refine ⟨by omega, fun _ hFirst => ?_⟩
        have hMore := hLaterStart rfl hFirst
        omega
      · intro hOpen
        obtain ⟨hLater, hLaterStart⟩ := (hUs u hu).2 hOpen
        refine ⟨by omega, fun hFirst => ?_⟩
        have hMore := hLaterStart rfl hFirst
        omega

theorem lexFile_of_tokenize (hTokens : (tokenize cfg f shownName).tokens = .ok ts) :
    (lexFile cfg f shownName).result = .ok ts := by
  unfold tokenize at hTokens
  simp only at hTokens
  cases hResult : (lexFile cfg f shownName).result with
  | error e =>
    rw [hResult] at hTokens
    cases hTokens
  | ok us =>
    rw [hResult] at hTokens
    cases hTokens
    rfl

------------
-- Numerals
------------

/- A number takes all the digits that it starts with. -/
theorem numberTail_digits {ds : Bytes} (hDigits : ∀ b ∈ ds, Bytes.isDigit b = true) :
    numberTail (ds ++ [0x0A]) = ds.length := by
  induction ds with
  | nil => decide
  | cons d ds ih =>
    rw [List.forall_mem_cons] at hDigits
    obtain ⟨c, rest, hRest⟩ : ∃ c rest, ds ++ [0x0A] = c :: rest := by
      cases ds <;> exact ⟨_, _, rfl⟩
    have hLetter : (ascii "eEpP").contains d = false := by
      rw [← Bool.not_eq_true, List.contains_iff_mem]
      intro hMem
      have hAll : ∀ b ∈ ascii "eEpP", Bytes.isDigit b = false := by decide +kernel
      rw [hAll d hMem] at hDigits
      exact Bool.false_ne_true hDigits.1
    have hTail := ih hDigits.2
    rw [List.cons_append, hRest, numberTail, ← hRest, hTail]
    simp only [hLetter, hDigits.1, Bool.false_and,
      Bool.false_eq_true, if_false, Bool.true_or, if_true, List.length_cons]

/- A file that consists of a numeral is read as one number. -/
theorem lexFile_numeral (cfg : Config) (f : SourceFile) (shownName : Bytes) (n : Nat)
    (hText : f.contents = Bytes.ofNat n ++ [0x0A]) :
    ∃ t eof, (lexFile cfg f shownName).result = .ok [t, eof] ∧
      t.kind = .ppNum ∧ t.text = Bytes.ofNat n := by
  obtain ⟨hSome, hDigits⟩ := digits_ofNat n
  obtain ⟨d, ds, hNumeral⟩ := List.exists_cons_of_ne_nil hSome
  rw [hNumeral] at hText hDigits ⊢
  rw [List.forall_mem_cons] at hDigits
  have hStarts : startsNumber (d :: ds ++ [0x0A]) = true := by
    cases ds <;> simp [startsNumber, hDigits.1]
  -- The token as a text would hold it if it were printed.
  let t : Token := { (default : Token) with
    kind := .ppNum, text := d :: ds }
  have hBare : Bare (t.text ++ [0x0A]) := by
    have hPlain : d ≠ 0x2F ∧ Bytes.isSpace d = false := by
      refine ⟨?_, ?_⟩
      · rintro rfl
        exact Bool.false_ne_true hDigits.1
      · rw [← Bool.not_eq_true]
        intro hSpace
        simp only [Bytes.isSpace, Bool.or_eq_true, beq_iff_eq] at hSpace
        rcases hSpace with ((((rfl | rfl) | rfl) | rfl) | rfl) |
          rfl <;> exact absurd hDigits.1 (by decide)
    refine ⟨fun hSlash => ?_, fun hSlash => ?_, fun b hb => ?_⟩
    · exact hPlain.1 (List.cons_prefix_cons.mp hSlash).1.symm
    · exact hPlain.1 (List.cons_prefix_cons.mp hSlash).1.symm
    · cases hb
      exact hPlain.2
  have hStands : Stands cfg t [0x0A] := by
    refine ⟨List.cons_ne_nil _ _, hBare, ?_⟩
    unfold lexeme
    rw [if_pos hStarts]
    change Except.ok _ = Except.ok _
    rw [List.cons_append, List.tail_cons, numberTail_digits hDigits.2]
    rfl
  obtain ⟨u, c', hNext, hMore, hRest, hCore⟩ :=
    next_printed f shownName true hStands (c := ⟨0, 1, f.contents⟩) hText
  obtain ⟨eof, hLast, -⟩ := reads_newline cfg f shownName false hRest
  exact ⟨u, eof, (lexFile_reads cfg f shownName).unique
    (.more hNext hMore hLast), congrArg Prod.fst hCore,
    congrArg (fun core => core.2.1) hCore⟩

end Lexer

------------
-- Parts of a Text
------------

namespace Numbering

open Expansion Section Conditional Pre

/-
  A directive that numbers the line after it, and gives it a
  name if it has one.  The number is an `int`, and names have
  no newline.
-/
structure Marker where
  hash : Token
  word? : Option Word
  numeral : Word
  name? : Option Word
  number : Nat
  shown? : Option Bytes
  starts : isHash hash = true
  punct : hash.kind = .punct
  named : ∀ w ∈ word?, w.1.is "line" = true
  isNumber : numeral.1.kind = .ppNum
  small : number < 2 ^ 31
  read : IntConstant.read? numeral.1.text = some (.int, Int64.ofNat number)
  quoted : name?.map (·.1.kind) = shown?.map fun b => .str .char (b ++ [0])
  inner : ∀ b ∈ shown?, Bytes.of '\n' ∉ b

/- A line without a directive, or a directive for lines. -/
inductive Part
| text (l : TextLine)
| marker (m : Marker)

def Marker.toks (m : Marker) : List Token :=
  m.hash :: (m.word?.map (·.1)).toList ++
    m.numeral.1 :: (m.name?.map (·.1)).toList

def Part.toks : Part → List Token
| .text l => l.first :: l.rest.1
| .marker m => m.toks

/- The tokens of the lines without directives. -/
def texts (ps : List Part) : List Token :=
  ps.flatMap fun
    | .text l => l.first :: l.rest.1
    | .marker _ => []

------------
-- Views
------------

/-
  How lines are shown: the line of the last directive with the
  number that it gives, and the last name.
-/
structure View where
  last? : Option (Int × Nat)
  name : Bytes

namespace View

/- The line that a token is on. -/
def lineOf (v : View) (t : Token) : Int :=
  match v.last? with
  | none => t.line
  | some (d, n) => n + (t.line - d - 1)

/- The view of the lines after a directive. -/
def after (v : View) (m : Marker) : View :=
  ⟨some (m.numeral.1.line, m.number), m.shown?.getD v.name⟩

/- The entry that a session has for such lines. -/
def shown (v : View) : Shown :=
  ⟨v.name,
    match v.last? with
    | none => 0
    | some (d, n) => n - (d + 1)⟩

theorem lineOf_eq (v : View) (t : Token) : v.lineOf t = t.line + v.shown.lineDelta := by
  unfold lineOf shown
  cases v.last? with
  | none => exact (Int.add_zero _).symm
  | some p =>
    simp only
    omega

/- What a token asks for. -/
def asks? (t : Token) : Option Builtin :=
  if t.isIdent && t.text == ascii "__LINE__" then some .line
  else if t.isIdent && t.text == ascii "__FILE__" then
    some .file
  else none

/-
  A token is shown on its line under its name; one that asks
  for them becomes the number of the line or the name.
-/
structure Shows (v : View) (t u : Token) : Prop where
  line : u.line + u.lineDelta = v.lineOf t
  name : u.filename = v.name
  content :
    match asks? t with
    | some .line =>
      u.kind = .ppNum ∧ u.text = Bytes.ofInt (v.lineOf t)
    | some _ => u.kind = .str .char (v.name ++ [0])
    | none => u = { t with
        lineDelta := u.lineDelta, filename := u.filename }

end View

/- The tokens of a text, each with the view of its line. -/
def viewed : View → List Part → List (View × Token)
| _, [] => []
| v, .text l :: ps =>
  (l.first :: l.rest.1).map (v, ·) ++ viewed v ps
| v, .marker m :: ps => viewed (v.after m) ps

/- Every directive stands on a line before those after it. -/
def Ordered : List Part → Prop
| [] => True
| .text _ :: ps => Ordered ps
| .marker m :: ps =>
  (∀ t ∈ texts ps, m.numeral.1.line < t.line) ∧ Ordered ps

variable {ps : List Part}

/- Tokens after a line, of which lines start on later ones. -/
theorem past_texts {line : Int} {after : List Token}
    (hPast : ∀ t ∈ ps.flatMap Part.toks ++ after, Lexer.Past line t)
    (hPairs : (ps.flatMap Part.toks ++ after).Pairwise
      fun t u => t.isEof = false ∧ Lexer.Past t.line u) : ∀ t ∈ texts ps, line < t.line := by
  intro t ht
  obtain ⟨p, hp, ht⟩ := List.mem_flatMap.mp ht
  cases p with
  | marker m => cases ht
  | text l =>
    have hToks : ∀ u ∈ l.first :: l.rest.1, u ∈ ps.flatMap Part.toks ++ after := fun u hu =>
      List.mem_append_left _ (List.mem_flatMap.mpr ⟨_, hp, hu⟩)
    have hFirst := (hPast l.first (hToks _ List.mem_cons_self) l.notEof).2 l.starts
    rcases List.mem_cons.mp ht with rfl | ht
    · exact hFirst
    · have hLine : (Part.text l).toks.Pairwise fun t u =>
          t.isEof = false ∧ Lexer.Past t.line u :=
        (List.pairwise_flatMap.mp (List.pairwise_append.mp hPairs).1).1 _ hp
      have hLe := ((List.pairwise_cons.mp hLine).1 t ht).2 (l.rest.2 t ht).isEof
      exact hFirst.trans_le hLe.1

theorem ordered_of_pairs {after : List Token}
    (hPairs : (ps.flatMap Part.toks ++ after).Pairwise
      fun t u => t.isEof = false ∧ Lexer.Past t.line u) : Ordered ps := by
  induction ps with
  | nil => trivial
  | cons p ps ih =>
    rw [List.flatMap_cons, List.append_assoc, List.pairwise_append] at hPairs
    obtain ⟨-, hRest, hAcross⟩ := hPairs
    cases p with
    | text l => exact ih hRest
    | marker m =>
      refine ⟨past_texts (fun t ht => ?_) hRest, ih hRest⟩
      exact (hAcross m.numeral.1 (by simp [Part.toks, Marker.toks]) t ht).2

------------
-- Steps
------------

variable {s₀ s s' s'' : Session} {f : SourceFile} {v : View}
  {t u w : Token} {b : Builtin} {ts mid rest : List Token}
  {text text' : List Token} {expand : Expand}

/- A session in which lines of a file are shown in a way. -/
structure Told
    (s₀ : Session)
    (f : SourceFile)
    (v : View)
    (s : Session) : Prop where
  shown : s.shown[f.id]? = some v.shown
  macros : s.macros = s₀.macros
  conds : s.conds = s₀.conds

theorem Told.getD (hTold : Told s₀ f v s) (d : Shown) : s.shown.getD f.id d = v.shown := by
  rw [Array.getD_eq_getD_getElem?, hTold.shown]
  rfl

/-
  Steps that read some tokens, at most two for each of them,
  and add to what is done.
-/
def Advances
    (expand : Expand)
    (ts rest text : List Token)
    (s s' : Session) : Prop :=
  ∀ p : Progress, p.toks = ts → ∃ k p', k + 2 * rest.length ≤ 2 * ts.length ∧
      p'.toks = rest ∧ p'.done.toList = p.done.toList ++ text ∧
      ∀ n, repeatStep (step expand) (n + k) p s =
        repeatStep (step expand) n p' s'

theorem advances_refl (expand : Expand) (ts : List Token) (s : Session) :
    Advances expand ts ts [] s s := fun p hToks => ⟨0, p, by simp, hToks, by simp, fun _ => rfl⟩

theorem Advances.trans (hFirst : Advances expand ts mid text s s')
    (hNext : Advances expand mid rest text' s' s'') :
    Advances expand ts rest (text ++ text') s s'' := by
  intro p hToks
  rcases hFirst p hToks with ⟨k, q, hLess, hMid, hDone, hRun⟩
  rcases hNext q hMid with
    ⟨k', r, hLess', hRest, hDone', hRun'⟩
  refine ⟨k' + k, r, by omega, hRest, ?_, fun n => ?_⟩
  · rw [hDone', hDone, List.append_assoc]
  · rw [← Nat.add_assoc, hRun, hRun']

theorem advances_reads (hReads : Reads expand ts rest text s s') :
    Advances expand ts rest text s s' := by
  intro p hToks
  rcases hReads p hToks with ⟨k, q, hLess, hRest⟩
  exact ⟨k, q, by omega, hRest⟩

/- A directive that goes on with the next line. -/
theorem advances_directive (hHash : isHash t = true) (hKind : t.kind = .punct)
    (hLess : rest.length ≤ ts.length)
    (hRun : Directive.run expand t ts s = .ok (Directive.resumeAt rest) s') :
    Advances expand (t :: ts) rest [] s s' := by
  intro p hToks
  have hName : s.macros.ofToken? t = none := by simp [Macros.ofToken?, Token.isIdent, hKind]
  have hStep : step expand p s = .ok (.inl (p.goOn [] rest)) s' := by
    unfold step
    rw [hToks]
    simp only [show t.isEof = false by simp [Token.isEof, hKind], Bool.false_eq_true, if_false]
    refine (bind_ok (use?_idle (.inr hName) ts)).trans ?_
    simp only [hHash, if_true]
    exact bind_ok hRun
  have hCount : 1 + 2 * rest.length ≤ 2 * (t :: ts).length := by
    rw [List.length_cons]
    omega
  exact ⟨1, p.goOn [] rest, hCount, by simp, by rw [Progress.goOn_done, List.append_nil],
    repeatStep_go hStep⟩

/- A token that is worked out is kept in the next step. -/
theorem advances_builtin (hHidden : t.hidden = [])
    (hUse : s.macros.ofToken? t = some (.builtin b)) (hMade : builtinToken b t s = .ok w s')
    (hOpen : w.isEof = false) (hName : w.isIdent = false) (hHash : w.is "#" = false)
    (rest : List Token) :
    Advances expand (t :: rest) rest [shownIn s' { w with
        atLineStart := t.atLineStart, spaced := t.spaced }]
      s s' := by
  intro p hToks
  let u : Token := { w with
    atLineStart := t.atLineStart, spaced := t.spaced }
  have hMore : t.isEof = false := by
    cases hEof : t.isEof with
    | false => rfl
    | true =>
      have hIdent : t.isIdent = false := by
        rw [Token.isEof, beq_iff_eq] at hEof
        rw [Token.isIdent, hEof]
        rfl
      simp [Macros.ofToken?, hIdent] at hUse
  have hFree : ¬ t.hidden.contains t.text = true := by simp [hHidden]
  have hFound : use? t rest s = .ok (some ⟨.builtin b, [],
      t.hidden.union (.single t.text), rest⟩) s := by
    rw [use?_open hFree, hUse]
    rfl
  obtain ⟨q, hNext, hStep⟩ : ∃ q : Progress, q.toks = u :: rest ∧ q.done = p.done ∧
      step expand p s = .ok (.inl q) s' := by
    refine ⟨{ p.goOn [w] rest with
      toks := spacedAs t (p.goOn [w] rest).toks }, ?_, ?_, ?_⟩
    · rw [goOn_toks]
      rfl
    · exact Progress.goOn_done p [w] rest
    · unfold step
      rw [hToks]
      simp only [hMore, Bool.false_eq_true, if_false]
      refine (bind_ok hFound).trans ?_
      exact bind_ok (bind_ok hMade)
  have hIdle : s'.macros.ofToken? u = none := by
    rw [Macros.ofToken?, if_neg]
    exact Bool.eq_false_iff.mp hName
  have hKept := step_kept expand hNext hOpen (show isHash u = false by
      rw [isHash, show u.is "#" = false from hHash, Bool.and_false]) (.inr hIdle)
  have hCount : 2 + 2 * rest.length ≤ 2 * (t :: rest).length := by
    rw [List.length_cons]
    omega
  refine ⟨2, q.keep (shownIn s' u) rest, hCount, rfl,
    by simp [Progress.keep, hStep.1, u], fun n => ?_⟩
  rw [show n + 2 = n + 1 + 1 from rfl, repeatStep_go hStep.2, repeatStep_go hKept]

------------
-- Tokens
------------

open View (asks?)

/- A token made in the place of one is shown as that one. -/
theorem makeToken_told (made : Bytes) {P : TokenKind → Bytes → Prop} (hTold : Told s₀ f v s)
    (hFile : t.file = f)
    (hLex : ∀ g : SourceFile, g.contents = made → ∀ name,
      ∃ w eof, (Lexer.lexFile s.cfg g name).result =
        .ok [w, eof] ∧ P w.kind w.text) :
    ∃ w s', makeToken made t s = .ok w s' ∧ Told s₀ f v s' ∧ w.line = t.line ∧
      s'.shown[w.file.id]? = some v.shown ∧
      P w.kind w.text := by
  obtain ⟨w, eof, hResult, hContent⟩ :=
    hLex ⟨s.shown.size, t.file.name, t.file.number, made⟩ rfl
      (s.shown.getD t.file.id ⟨t.file.name, 0⟩).name
  have hOwn := ((Lexer.lexFile_reads _ _ _).rising hResult).1 w List.mem_cons_self
  obtain ⟨messages, hRun⟩ := Substitution.makeTokens_run t.line t.spaced hResult
  have hEntry : s.shown.getD t.file.id ⟨t.file.name, 0⟩ =
      v.shown := by rw [hFile, hTold.getD]
  rw [hEntry] at hRun
  refine ⟨_, _, bind_ok hRun, ⟨?_, hTold.macros, hTold.conds⟩, rfl, ?_, hContent⟩
  · change (s.shown.push v.shown)[f.id]? = some v.shown
    rw [Array.getElem?_push, hTold.shown, ite_self]
  · change (s.shown.push v.shown)[w.file.id]? = some v.shown
    rw [hOwn.1.1, Array.getElem?_push, if_pos rfl]

theorem asks?_eq_some (hAsks : asks? t = some b) :
    t.isIdent = true ∧ (b = .line ∧ t.text = ascii "__LINE__" ∨
        b = .file ∧ t.text = ascii "__FILE__") := by
  unfold asks? at hAsks
  split at hAsks
  · rename_i hLine
    rw [Bool.and_eq_true, beq_iff_eq] at hLine
    cases hAsks
    exact ⟨hLine.1, .inl ⟨rfl, hLine.2⟩⟩
  · split at hAsks
    · rename_i hFile
      rw [Bool.and_eq_true, beq_iff_eq] at hFile
      cases hAsks
      exact ⟨hFile.1, .inr ⟨rfl, hFile.2⟩⟩
    · cases hAsks

/- The line and the name that a token asks for are made. -/
theorem builtinToken_told (hTold : Told s₀ f v s) (hMade : Lexer.Made f t) (hLow : 0 ≤ v.lineOf t)
    (hName : Bytes.of '\n' ∉ v.name) (hBuiltin : b = .line ∨ b = .file) :
    ∃ w s', builtinToken b t s = .ok w s' ∧ Told s₀ f v s' ∧ w.line = t.line ∧
      s'.shown[w.file.id]? = some v.shown ∧
      (w.isEof = false ∧ w.isIdent = false ∧ w.is "#" = false) ∧
      if b = .line then
        w.kind = .ppNum ∧ w.text = Bytes.ofInt (v.lineOf t)
      else w.kind = .str .char (v.name ++ [0]) := by
  have hRoot : t.root = ⟨t.text, t.file, t.line⟩ := by rw [Token.root, hMade.2.1]
  rcases hBuiltin with rfl | rfl
  · have hNumeral : Bytes.ofInt (v.lineOf t) = Bytes.ofNat (v.lineOf t).natAbs := if_neg (by omega)
    obtain ⟨w, s', hRun, hAfter, hLine, hEntry, hKind, hText⟩ :=
      makeToken_told (P := fun k b => k = .ppNum ∧ b = Bytes.ofInt (v.lineOf t))
        (Bytes.ofInt (v.lineOf t) ++ ascii "\n") hTold hMade.1
        (fun g hText name => by
          rw [hNumeral] at hText ⊢
          exact Lexer.lexFile_numeral s.cfg g name _ hText)
    obtain ⟨d, ds, hDigits, hDigit⟩ := ofNat_head (v.lineOf t).natAbs
    refine ⟨w, s', ?_, hAfter, hLine, hEntry, ⟨by simp [Token.isEof, hKind],
        by simp [Token.isIdent, hKind], ?_⟩, hKind, hText⟩
    · unfold builtinToken numberToken
      simp only [hRoot]
      rw [← hRun, View.lineOf_eq, ← hTold.getD ⟨t.file.name, 0⟩, ← hMade.1]
      rfl
    · rw [Token.is, hText, hNumeral, hDigits, Bool.and_eq_false_iff]
      refine .inr (beq_eq_false_iff_ne.mpr fun hHash => ?_)
      cases hHash
      exact Bool.false_ne_true hDigit
  · obtain ⟨w, s', hRun, hAfter, hLine, hEntry, hKind⟩ :=
      makeToken_told (P := fun k _ =>
        k = .str .char (v.name ++ [0]))
        (Substitution.quote v.name) hTold hMade.1
        (fun g hText name => by
          obtain ⟨w, eof, hResult, hKind, -⟩ :=
            Lexer.lexFile_protected s.cfg g name (Substitution.protects_escape hName) hText
          exact ⟨w, eof, hResult, hKind⟩)
    refine ⟨w, s', ?_, hAfter, hLine, hEntry, ⟨by simp [Token.isEof, hKind],
        by simp [Token.isIdent, hKind],
        by simp [Token.is, TokenKind.isStr, hKind]⟩, hKind⟩
    unfold builtinToken
    simp only [hRoot]
    rw [← hRun, show v.name = v.shown.name from rfl, ← hTold.getD ⟨t.file.name, 0⟩, ← hMade.1]
    rfl

/- Names that stand for nothing but lines and names. -/
structure Bounded (s₀ : Session) (ts : List Token) : Prop where
  line : s₀.macros.find? (ascii "__LINE__") = some (.builtin .line)
  file : s₀.macros.find? (ascii "__FILE__") = some (.builtin .file)
  others : ∀ t ∈ ts, asks? t = none → s₀.macros.ofToken? t = none

/- A token of a line without a directive is shown. -/
theorem advances_token (expand : Expand) (hTold : Told s₀ f v s) (hBounded : Bounded s₀ [t])
    (hMade : Lexer.Made f t) (hOpen : t.isEof = false) (hHash : isHash t = false)
    (hLow : 0 ≤ v.lineOf t) (hName : Bytes.of '\n' ∉ v.name) (rest : List Token) :
    ∃ u s', v.Shows t u ∧ Told s₀ f v s' ∧ Advances expand (t :: rest) rest [u] s s' := by
  cases hAsks : asks? t with
  | none =>
    have hFree : s.macros.ofToken? t = none := by
      rw [hTold.macros]
      exact hBounded.others t List.mem_cons_self hAsks
    have hShown : shownIn s t = { t with
        lineDelta := v.shown.lineDelta
        filename := v.name } := by
      simp only [shownIn, hMade.1, hTold.getD]
      rfl
    refine ⟨shownIn s t, s, ?_, hTold, advances_reads (reads_kept expand hOpen hHash hFree rest)⟩
    rw [hShown]
    refine ⟨(v.lineOf_eq t).symm, rfl, ?_⟩
    rw [hAsks]
  | some b =>
    obtain ⟨hIdent, hForm⟩ := asks?_eq_some hAsks
    have hUse : s.macros.ofToken? t = some (.builtin b) := by
      rw [hTold.macros, Macros.ofToken?, if_pos hIdent]
      rcases hForm with ⟨rfl, hText⟩ | ⟨rfl, hText⟩
      · rw [hText, hBounded.line]
      · rw [hText, hBounded.file]
    obtain ⟨w, s', hRun, hAfter, hLine, hEntry, ⟨hMore, hOther, hPlain⟩, hContent⟩ :=
      builtinToken_told hTold hMade hLow hName (hForm.imp And.left And.left)
    refine ⟨_, s', ?_, hAfter, advances_builtin hMade.2.2 hUse hRun hMore hOther hPlain rest⟩
    have hShown : s'.shown.getD w.file.id ⟨w.file.name, 0⟩ = v.shown := by
      rw [Array.getD_eq_getD_getElem?, hEntry]
      rfl
    simp only [shownIn, hShown]
    refine ⟨?_, rfl, ?_⟩
    · rw [v.lineOf_eq t, ← hLine]
    · rw [hAsks]
      rcases hForm with ⟨rfl, -⟩ | ⟨rfl, -⟩
      · exact hContent
      · exact hContent

variable {p : Progress} {e : Token}

------------
-- Directives
------------

/- At the end of a list the expansion stops. -/
theorem repeatStep_end {more : List Token} (hToks : p.toks = e :: more) (hEof : e.isEof = true)
    (n : Nat) :
    repeatStep (step expand) (n + 1) p s = .ok ⟨p.used.toList, p.done.toList, p.kept?, e⟩ s := by
  have hStep : step expand p s = .ok (.inr ⟨p.used.toList, p.done.toList, p.kept?, e⟩)
        s := by
    unfold step
    rw [hToks]
    simp only [hEof, if_true]
    rfl
  rw [repeatStep, bind_ok hStep]
  rfl

/- The operands of a directive for lines. -/
def Marker.operands (m : Marker) : List Token :=
  m.numeral.1 :: (m.name?.map (·.1)).toList

theorem Marker.flat_operands (m : Marker) : Flat m.operands := by
  unfold Marker.operands
  cases m.name? with
  | none => exact List.forall_mem_singleton.mpr m.numeral.2
  | some w => exact List.forall_mem_cons.mpr ⟨m.numeral.2, List.forall_mem_singleton.mpr w.2⟩

/- They name no macros. -/
theorem Marker.operands_names (m : Marker) (ms : Macros) :
    ∀ t ∈ m.operands, ms.ofToken? t = none := by
  have hNone : ∀ t : Token, t.isIdent = false → ms.ofToken? t = none := fun t hIdent => by
    rw [Macros.ofToken?, hIdent]
    rfl
  have hQuoted := m.quoted
  unfold Marker.operands
  cases hName : m.name? with
  | none => exact List.forall_mem_singleton.mpr (hNone _ (by simp [Token.isIdent, m.isNumber]))
  | some w =>
    rw [hName] at hQuoted
    obtain ⟨b, -, hKind⟩ := Option.map_eq_some_iff.mp hQuoted.symm
    exact List.forall_mem_cons.mpr ⟨hNone _ (by simp [Token.isIdent, m.isNumber]),
        List.forall_mem_singleton.mpr (hNone _ (by simp [Token.isIdent, ← hKind]))⟩

/- Both forms of the directive read the same operands. -/
theorem Marker.run_eq (m : Marker) (expand : Expand) (rest : List Token) :
    Directive.run expand m.hash ((m.word?.map (·.1)).toList ++ m.numeral.1 :: rest) =
      Directive.lineMarker expand (m.numeral.1 :: rest) := by
  cases hWord : m.word? with
  | some w =>
    have hNamed := m.named w hWord
    have hOther : ∀ b ∈ ["include", "include_next", "define",
        "undef", "if", "ifdef", "ifndef", "elif", "else",
        "endif"], w.1.is b = false := fun b hb =>
      Token.is_other hNamed (by
        revert b
        decide)
    simp only [List.forall_mem_cons] at hOther
    simp [Directive.run, Directive.first, hNamed, hOther]
  | none =>
    have hOther : ∀ b ∈ ["include", "include_next", "define",
        "undef", "if", "ifdef", "ifndef", "elif", "else",
        "endif", "line"], m.numeral.1.is b = false := by
      intro b hb
      rw [Token.is, Bool.and_eq_false_iff]
      refine .inr (beq_eq_false_iff_ne.mpr fun hText => ?_)
      have hRead := m.read
      rw [hText] at hRead
      have hNone : ∀ b ∈ ["include", "include_next",
          "define", "undef", "if", "ifdef", "ifndef", "elif",
          "else", "endif", "line"],
          IntConstant.read? (ascii b) = none := by
        decide +kernel
      rw [hNone b hb] at hRead
      cases hRead
    simp only [List.forall_mem_cons] at hOther
    simp [Directive.run, Directive.first, hOther, m.isNumber]

/- What the operands are converted to. -/
theorem Marker.convert_operands (m : Marker) (hEof : e.isEof = true) :
    ∃ num names, Pre.convert (m.operands.map (shownIn s) ++ [e]) s = .ok (num :: names) s ∧
      num.kind = .int .int (Int64.ofNat m.number) ∧
      (Directive.first names).kind = (m.shown?.map fun b =>
          TokenKind.str .char (b ++ [0])).getD .eof := by
  have hNumeral : (shownIn s m.numeral.1).convert? = some { shownIn s m.numeral.1 with
        kind := .int .int (Int64.ofNat m.number) } := by
    simp only [Token.convert?, shownIn, m.isNumber, m.read]
  have hKind : e.kind = .eof := by simpa [Token.isEof] using hEof
  have hEnd : Token.convert [e] = .ok [e] :=
    Token.convert_cons.mpr ⟨e, [], by
      simp only [Token.convert?, hKind], rfl, rfl⟩
  obtain ⟨names, hNames, hFirst⟩ : ∃ names,
      Token.convert ((m.name?.map (·.1)).toList.map (shownIn s)
        ++ [e]) = .ok names ∧ (Directive.first names).kind =
        (m.shown?.map fun b =>
          TokenKind.str .char (b ++ [0])).getD .eof := by
    rw [← m.quoted]
    have hQuoted := m.quoted
    cases hName : m.name? with
    | none => exact ⟨[e], hEnd, hKind⟩
    | some w =>
      rw [hName] at hQuoted
      obtain ⟨b, -, hString⟩ := Option.map_eq_some_iff.mp hQuoted.symm
      refine ⟨[shownIn s w.1, e], Token.convert_cons.mpr ⟨shownIn s w.1, [e], ?_, hEnd, rfl⟩, rfl⟩
      simp only [Token.convert?, shownIn, ← hString]
  refine ⟨{ shownIn s m.numeral.1 with
    kind := .int .int (Int64.ofNat m.number) }, names, ?_, rfl, hFirst⟩
  have hAll : Token.convert (m.operands.map (shownIn s) ++ [e]) = .ok _ :=
    Token.convert_cons.mpr ⟨_, names, hNumeral, hNames, rfl⟩
  unfold Pre.convert
  rw [hAll]
  rfl

theorem modifyShown_run {sh : Shown} (hFile : t.file = f) (hShown : s.shown[f.id]? = some sh)
    (g : Shown → Shown) :
    ∃ s', Directive.modifyShown t g s = .ok () s' ∧ s'.shown[f.id]? = some (g sh) ∧
      s'.macros = s.macros ∧ s'.conds = s.conds := by
  refine ⟨_, rfl, ?_, rfl, rfl⟩
  change (s.shown.modify t.file.id g)[f.id]? = some (g sh)
  rw [hFile, Array.getElem?_modify, if_pos rfl, hShown]
  rfl

/- A directive changes how the lines after it are shown. -/
theorem lineMarker_told (hTold : Told s₀ f v s) (m : Marker) (hFile : m.numeral.1.file = f)
    (hBounds : Bounds e) (more : List Token) (n : Nat) :
    ∃ s', Directive.lineMarker (expandAll (n + 4))
        (m.operands ++ e :: more) s = .ok (Directive.resumeAt (e :: more)) s' ∧
      Told s₀ f (v.after m) s' := by
  -- The line is expanded to itself.
  obtain ⟨k, p, hSteps, hToks, hDone, hRun⟩ :=
    reads_flat (expandAll (n + 3)) m.flat_operands (m.operands_names s.macros) [e.toEof]
      { toks := m.operands ++ [e.toEof] } rfl
  have hShort : m.operands.length ≤ 2 := by
    unfold Marker.operands
    cases m.name? <;> simp
  obtain ⟨j, hCount⟩ : ∃ j, n + 3 = j + 1 + k := by
    rw [List.length_append] at hSteps
    exact ⟨n + 2 - k, by omega⟩
  have hExpand : expandAll (n + 4) (m.operands ++ [e.toEof]) s =
      .ok ⟨p.used.toList, p.done.toList, p.kept?, e.toEof⟩ s := by
    change repeatStep (step (expandAll (n + 3))) (n + 3) _ s = _
    have hAll := hRun (j + 1)
    rw [← hCount] at hAll
    exact hAll.trans (repeatStep_end hToks rfl j)
  obtain ⟨num, names, hConvert, hNumber, hNames⟩ := m.convert_operands (s := s) (e := e.toEof) rfl
  have hOutput : Pre.convert (Expanded.output ⟨p.used.toList, p.done.toList, p.kept?, e.toEof⟩) s =
        .ok (num :: names) s := by
    rw [Expanded.output, hDone]
    exact hConvert
  have hValue : (Int64.ofNat m.number).toInt = m.number :=
    Int64.toInt_ofNat_of_lt (by
      have hSmall := m.small
      omega)
  have hStart : Directive.first (m.operands ++ e :: more) = m.numeral.1 := rfl
  obtain ⟨s₁, hDelta, hShown₁, hMacros₁, hConds₁⟩ :=
    modifyShown_run hFile hTold.shown fun sh => { sh with
      lineDelta := (Int64.ofNat m.number).toInt - (m.numeral.1.line + 1) }
  unfold Directive.lineMarker
  simp only [copyLine_line m.flat_operands hBounds, hStart]
  rw [bind_ok hExpand, bind_ok hOutput]
  simp only [Directive.first, List.headD_cons, hNumber, List.tail_cons]
  rw [bind_ok hDelta]
  unfold Directive.first at hNames
  rw [hNames]
  rw [hValue] at hShown₁
  cases hShown : m.shown? with
  | none =>
    refine ⟨s₁, rfl, ?_, hMacros₁.trans hTold.macros, hConds₁.trans hTold.conds⟩
    rw [hShown₁, View.after, hShown]
    rfl
  | some b =>
    obtain ⟨s₂, hNamed, hShown₂, hMacros₂, hConds₂⟩ :=
      modifyShown_run hFile hShown₁ fun sh => { sh with
        name := (b ++ [0]).dropLast }
    refine ⟨s₂, bind_ok hNamed, ?_, hMacros₂.trans (hMacros₁.trans hTold.macros),
      hConds₂.trans (hConds₁.trans hTold.conds)⟩
    rw [hShown₂, List.dropLast_concat, View.after, hShown]
    rfl

/- A directive is carried out, and adds nothing. -/
theorem advances_marker (hTold : Told s₀ f v s) (m : Marker) (hFile : m.numeral.1.file = f)
    (hBounds : Bounds e) (more : List Token) (n : Nat) :
    ∃ s', Advances (expandAll (n + 4)) (m.toks ++ e :: more)
        (e :: more) [] s s' ∧ Told s₀ f (v.after m) s' := by
  obtain ⟨s', hRun, hAfter⟩ := lineMarker_told hTold m hFile hBounds more n
  refine ⟨s', ?_, hAfter⟩
  have hToks : m.toks ++ e :: more = m.hash :: ((m.word?.map (·.1)).toList ++
        (m.operands ++ e :: more)) := by
    simp [Marker.toks, Marker.operands]
  rw [hToks]
  refine advances_directive m.starts m.punct (by simp only [List.length_append]; omega) ?_
  exact (congrFun (m.run_eq (expandAll (n + 4)) _) s).trans hRun

------------
-- Texts
------------

/- The tokens of a line are shown one after the other. -/
theorem advances_tokens (expand : Expand) (hTold : Told s₀ f v s) (hBounded : Bounded s₀ ts)
    (hMade : ∀ t ∈ ts, Lexer.Made f t) (hOpen : ∀ t ∈ ts, t.isEof = false ∧ isHash t = false)
    (hLow : ∀ t ∈ ts, 0 ≤ v.lineOf t) (hName : Bytes.of '\n' ∉ v.name) (rest : List Token) :
    ∃ us s', List.Forall₂ v.Shows ts us ∧ Told s₀ f v s' ∧
      Advances expand (ts ++ rest) rest us s s' := by
  induction ts generalizing s with
  | nil => exact ⟨[], s, .nil, hTold, advances_refl _ _ _⟩
  | cons t ts ih =>
    rw [List.forall_mem_cons] at hMade hOpen hLow
    obtain ⟨hLine, hFile, hOthers⟩ := hBounded
    rw [List.forall_mem_cons] at hOthers
    obtain ⟨u, s₁, hShows, hTold₁, hFirst⟩ :=
      advances_token expand hTold ⟨hLine, hFile, List.forall_mem_singleton.mpr hOthers.1⟩
        hMade.1 hOpen.1.1 hOpen.1.2 hLow.1 hName (ts ++ rest)
    obtain ⟨us, s₂, hAll, hTold₂, hRest⟩ :=
      ih hTold₁ ⟨hLine, hFile, hOthers.2⟩ hMade.2 hOpen.2 hLow.2
    exact ⟨u :: us, s₂, .cons hShows hAll, hTold₂, hFirst.trans hRest⟩

/- Some token follows each part, and it starts a line. -/
theorem bounds_parts (ps : List Part) (hEof : e.isEof = true) :
    ∃ b more, ps.flatMap Part.toks ++ [e] = b :: more ∧ Bounds b := by
  cases ps with
  | nil => exact ⟨e, [], rfl, .inr hEof⟩
  | cons p ps =>
    cases p with
    | text l => exact ⟨l.first, _, rfl, .inl l.starts⟩
    | marker m =>
      have hStarts := m.starts
      rw [isHash, Bool.and_eq_true] at hStarts
      exact ⟨m.hash, _, rfl, .inl hStarts.1⟩

/-
  The parts of a text are read one after the other, each of
  them in the view that the directives before it leave.
-/
theorem advances_parts (hEof : e.isEof = true) (hTold : Told s₀ f v s)
    (hBounded : Bounded s₀ (texts ps)) (hMade : ∀ t ∈ ps.flatMap Part.toks, Lexer.Made f t)
    (hOrdered : Ordered ps) (hLow : ∀ t ∈ texts ps, 0 ≤ v.lineOf t)
    (hName : Bytes.of '\n' ∉ v.name) (n : Nat) :
    ∃ us s', List.Forall₂ (fun p u => p.1.Shows p.2 u)
        (viewed v ps) us ∧ s'.conds = s₀.conds ∧ Advances (expandAll (n + 4))
        (ps.flatMap Part.toks ++ [e]) [e] us s s' := by
  induction ps generalizing s v with
  | nil => exact ⟨[], s, .nil, hTold.conds, advances_refl _ _ _⟩
  | cons p ps ih =>
    rw [List.flatMap_cons, List.append_assoc]
    simp only [List.flatMap_cons, List.mem_append] at hMade
    obtain ⟨hLine, hFile, hOthers⟩ := hBounded
    cases p with
    | text l =>
      simp only [texts, List.flatMap_cons, List.mem_append] at hOthers hLow
      obtain ⟨us, s₁, hShows, hTold₁, hFirst⟩ :=
        advances_tokens (expandAll (n + 4)) hTold ⟨hLine, hFile, fun t ht => hOthers t (.inl ht)⟩
          (fun t ht => hMade t (.inl ht))
          (List.forall_mem_cons.mpr ⟨⟨l.notEof, by simp [isHash, l.notHash]⟩,
              fun t ht => ⟨(l.rest.2 t ht).isEof, by
                simp [isHash, (l.rest.2 t ht).atLineStart]⟩⟩)
          (fun t ht => hLow t (.inl ht)) hName
          (ps.flatMap Part.toks ++ [e])
      obtain ⟨us', s₂, hAll, hConds, hRest⟩ :=
        ih hTold₁ ⟨hLine, hFile, fun t ht => hOthers t (.inr ht)⟩
          (fun t ht => hMade t (.inr ht)) hOrdered
          (fun t ht => hLow t (.inr ht)) hName
      have hLines : List.Forall₂ (fun (p : View × Token) u => p.1.Shows p.2 u)
          ((l.first :: l.rest.1).map (v, ·)) us :=
        List.forall₂_map_left_iff.mpr hShows
      exact ⟨us ++ us', s₂, List.rel_append hLines hAll, hConds, hFirst.trans hRest⟩
    | marker m =>
      obtain ⟨b, more, hNext, hBounds⟩ := bounds_parts ps hEof
      obtain ⟨s₁, hFirst, hTold₁⟩ :=
        advances_marker hTold m (hMade m.numeral.1 (.inl
          (by simp [Part.toks, Marker.toks]))).1 hBounds
          more n
      obtain ⟨us, s₂, hAll, hConds, hRest⟩ :=
        ih hTold₁ ⟨hLine, hFile, hOthers⟩ (fun t ht => hMade t (.inr ht)) hOrdered.2 (fun t ht => by
            have hAfter := hOrdered.1 t ht
            change 0 ≤ (m.number : Int) + (t.line - m.numeral.1.line - 1)
            omega)
          (by
            unfold View.after
            have hInner := m.inner
            cases hShown : m.shown? with
            | none => exact hName
            | some b => exact hInner b hShown)
      rw [← hNext] at hFirst
      exact ⟨us, s₂, hAll, hConds, hFirst.trans hRest⟩

------------
-- Results
------------

/- More steps do not change what has been expanded. -/
theorem repeatStep_more {next : Progress → Pre (Sum Progress Expanded)} {x : Expanded} {n : Nat}
    (hRun : repeatStep next n p s = .ok x s') (k : Nat) :
    repeatStep next (n + k) p s = .ok x s' := by
  induction n generalizing p s with
  | zero => cases hRun
  | succ n ih =>
    rw [repeatStep] at hRun
    obtain ⟨r, s₁, hFirst, hRest⟩ := bind_split hRun
    rw [Nat.add_right_comm, repeatStep, bind_ok hFirst]
    cases r with
    | inl q => exact ih hRest
    | inr y => exact hRest

/-
  Expanding a text gives its tokens as they are shown, unless
  there are more steps than can be taken.
-/
theorem expandAll_parts (hEof : e.isEof = true) (hTold : Told s f v s)
    (hBounded : Bounded s (texts ps)) (hMade : ∀ t ∈ ps.flatMap Part.toks, Lexer.Made f t)
    (hOrdered : Ordered ps) (hLow : ∀ t ∈ texts ps, 0 ≤ v.lineOf t)
    (hName : Bytes.of '\n' ∉ v.name) (n : Nat) :
    ∃ us s', List.Forall₂ (fun p u => p.1.Shows p.2 u) (viewed v ps) us ∧ s'.conds = s.conds ∧
      (2 * (ps.flatMap Part.toks ++ [e]).length < n + 5 →
        ∃ x, expandAll (n + 5) (ps.flatMap Part.toks ++ [e]) s = .ok x s') ∧
      ∀ x r, expandAll (n + 5) (ps.flatMap Part.toks ++ [e]) s =
        .ok x r → r = s' ∧ x.output = us ++ [e] := by
  obtain ⟨us, s', hShows, hConds, hAdvances⟩ :=
    advances_parts hEof hTold hBounded hMade hOrdered hLow hName n
  obtain ⟨k, p, hSteps, hToks, hDone, hRun⟩ := hAdvances { toks := ps.flatMap Part.toks ++ [e] } rfl
  have hLast := fun j => (repeatStep_end hToks hEof j :
    repeatStep (step (expandAll (n + 4))) (j + 1) p s' = _)
  refine ⟨us, s', hShows, hConds, fun hEnough => ?_, fun x r hOk => ?_⟩
  · obtain ⟨j, hCount⟩ : ∃ j, n + 4 = j + 1 + k :=
      ⟨n + 3 - k, by
        rw [List.length_singleton] at hSteps
        omega⟩
    have hAll := (hRun (j + 1)).trans (hLast j)
    rw [← hCount] at hAll
    exact ⟨_, hAll⟩
  · have hMore := (hRun (n + 4)).symm.trans (repeatStep_more (n := n + 4) hOk k)
    rw [hLast (n + 3)] at hMore
    cases hMore
    exact ⟨rfl, by rw [Expanded.output, hDone]; rfl⟩

/- What is done with the tokens of a text after expanding it. -/
def finish (ts : List Token) : Pre (List Token) := do
  let ts ← StringRun.joinAll (← Pre.convert ts)
  return ts.map Preprocessor.renumbered

/-
  A token of the output stands for some tokens of the text, or
  for the end of it.  It has the line and the name of the
  first of them; if that is the only one, it is spelled as it
  was, or is the line or the name that was asked for.
-/
def Stands : List (Option (View × Token)) → Token → Prop
| [], _ => False
| none :: _, u => u.isEof = true
| some (v, t) :: more, u =>
  u.line = v.lineOf t ∧ u.filename = v.name ∧ (more = [] →
      match asks? t with
      | some .line =>
        u.kind.isNum = true ∧ u.text = Bytes.ofInt (v.lineOf t)
      | some _ => u.kind = .str .char (v.name ++ [0])
      | none => u.text = t.text)

/- A part of the text and a token that it was converted to. -/
def Converted : Option (View × Token) → Token → Prop
| none, c => c.isEof = true
| some (v, t), c => ∃ u, v.Shows t u ∧ u.convert? = some c

variable {us : List Token}

/- The first token of a run is the one that stays. -/
theorem mergeRun_first {run : List Token} (hSome : run ≠ [])
    (hRun : StringRun.mergeRun run s = .ok us s') :
    ∃ t more u, run = t :: more ∧ us = [u] ∧ u = { t with kind := u.kind, joined := u.joined } ∧
      (more = [] → u = t) := by
  rcases run with - | ⟨t, - | ⟨next, more⟩⟩
  · exact absurd rfl hSome
  · cases hRun
    exact ⟨t, [], t, rfl, rfl, rfl, fun _ => rfl⟩
  · obtain ⟨m, s₁, hMerge, hDone⟩ := bind_split hRun
    cases hDone
    obtain ⟨l, s₂, -, hMerge⟩ := bind_split hMerge
    simp only at hMerge
    split at hMerge <;> obtain ⟨ts, s₃, -, hMerge⟩ := bind_split hMerge <;>
      cases hMerge <;> exact ⟨t, _, _, rfl, rfl, rfl, nofun⟩

variable {α β : Type}

variable {xs : List α}

theorem forall₂_of_mapM {g : α → Pre β} {ys : List β} (hRun : xs.mapM g s = .ok ys s') :
    List.Forall₂ (fun x y => ∃ r r', g x r = .ok y r') xs ys := by
  induction xs generalizing s ys with
  | nil =>
    cases hRun
    exact .nil
  | cons x xs ih =>
    rw [List.mapM_cons] at hRun
    obtain ⟨y, s₁, hFirst, hRun⟩ := bind_split hRun
    obtain ⟨zs, s₂, hRest, hDone⟩ := bind_split hRun
    cases hDone
    exact .cons ⟨_, _, hFirst⟩ (ih hRest)

/- What relates to a list relates to its parts. -/
theorem exists_groups {R : α → β → Prop} {rs : List (List β)}
    (hAll : List.Forall₂ R xs rs.flatten) :
    ∃ gs, gs.flatten = xs ∧ List.Forall₂ (List.Forall₂ R) gs rs := by
  induction rs generalizing xs with
  | nil =>
    cases hAll
    exact ⟨[], rfl, .nil⟩
  | cons r rs ih =>
    obtain ⟨gs, hFlat, hRest⟩ := ih (List.forall₂_drop_append _ _ _ hAll)
    exact ⟨_ :: gs, by
      rw [List.flatten_cons, hFlat, List.take_append_drop],
      .cons (List.forall₂_take_append _ _ _ hAll) hRest⟩

variable {c : Token}

/- Conversion changes no more than the kind. -/
theorem convert?_eq (hConvert : t.convert? = some c) :
    c = { t with kind := c.kind } ∧ (t.kind = .ppNum → c.kind.isNum = true) ∧
      (t.kind.isStr = true → c.kind = t.kind) ∧
      (t.isEof = true → c.isEof = true) := by
  unfold Token.convert? at hConvert
  split at hConvert
  · rename_i hKind
    cases hConvert
    split
    · simp [Token.isEof, TokenKind.isStr, hKind]
    · exact ⟨rfl, by simp [hKind], fun _ => rfl, id⟩
  · rename_i hKind
    split at hConvert
    · cases hConvert
      simp [Token.isEof, TokenKind.isStr, TokenKind.isNum, hKind]
    · split at hConvert
      · cases hConvert
        simp [Token.isEof, TokenKind.isStr, TokenKind.isNum, hKind]
      · cases hConvert
  · rename_i hNumber
    cases hConvert
    exact ⟨rfl, fun hKind => absurd hKind hNumber, fun _ => rfl, id⟩

/- A token that was converted by itself is what was asked for. -/
theorem stands_converted {p : Option (View × Token)} {more : List (Option (View × Token))}
    (hConverted : Converted p c) (hFirst : u = { c with kind := u.kind, joined := u.joined })
    (hEnd : c.isEof = true → u = c) (hAlone : more = [] → u = c) :
    Stands (p :: more) (Preprocessor.renumbered u) := by
  cases p with
  | none =>
    rw [hEnd hConverted]
    exact hConverted
  | some p =>
    obtain ⟨v, t⟩ := p
    obtain ⟨w, hShows, hConvert⟩ := hConverted
    obtain ⟨hSame, hNumber, hString, -⟩ := convert?_eq hConvert
    refine ⟨?_, ?_, fun hNone => ?_⟩
    · rw [hFirst, hSame]
      exact hShows.line
    · rw [hFirst, hSame]
      exact hShows.name
    · have hContent := hShows.content
      rw [hAlone hNone]
      cases hAsks : asks? t with
      | none =>
        rw [hAsks] at hContent
        simp only at hContent ⊢
        rw [hSame, hContent]
        rfl
      | some b =>
        rw [hAsks] at hContent
        cases b <;> simp only at hContent ⊢
        case line =>
          refine ⟨hNumber hContent.1, ?_⟩
          rw [hSame]
          exact hContent.2
        all_goals
          exact (hString (by rw [hContent]; rfl)).trans hContent

/- What the parts of a text and its end are converted to. -/
theorem converted_of_shows {ps : List (View × Token)} {cs : List Token} (hEof : e.isEof = true)
    (hShows : List.Forall₂ (fun p u => p.1.Shows p.2 u) ps us)
    (hConvert : Token.convert (us ++ [e]) = .ok cs) :
    List.Forall₂ Converted (ps.map some ++ [none]) cs ∧ ∀ c ∈ cs.getLast?, c.isEof = true := by
  induction hShows generalizing cs with
  | nil =>
    obtain ⟨c, _, hLast, hNone, rfl⟩ := Token.convert_cons.mp hConvert
    cases hNone
    have hEnd := (convert?_eq hLast).2.2.2 hEof
    exact ⟨.cons hEnd .nil, fun _ hMem => by
      cases hMem
      exact hEnd⟩
  | cons hFirst _ ih =>
    obtain ⟨c, cs, hOne, hRest, rfl⟩ := Token.convert_cons.mp hConvert
    obtain ⟨hAll, hEnd⟩ := ih hRest
    refine ⟨.cons ⟨_, hFirst, hOne⟩ hAll, ?_⟩
    cases cs with
    | nil =>
      have hNil := List.forall₂_nil_right_iff.mp hAll
      simp at hNil
    | cons d cs => exact hEnd

/- The tokens of the output are those of the text, in order. -/
theorem finish_stands {ps : List (View × Token)} {out : List Token} (hEof : e.isEof = true)
    (hShows : List.Forall₂ (fun p u => p.1.Shows p.2 u) ps us)
    (hRun : finish (us ++ [e]) s = .ok out s') :
    ∃ gs, gs.flatten = ps.map some ++ [none] ∧ List.Forall₂ Stands gs out := by
  obtain ⟨cs, s₁, hConvert, hRun⟩ := bind_split hRun
  obtain ⟨js, s₂, hJoin, hDone⟩ := bind_split hRun
  cases hDone
  have hTokens : Token.convert (us ++ [e]) = .ok cs := by
    unfold Pre.convert at hConvert
    cases hOk : Token.convert (us ++ [e]) with
    | ok ts =>
      rw [hOk] at hConvert
      cases hConvert
      rfl
    | error t =>
      rw [hOk] at hConvert
      cases hConvert
  obtain ⟨hConverted, hEnds⟩ := converted_of_shows hEof hShows hTokens
  have hLast : ∀ t ∈ (([] : List Token).reverse ++ cs).getLast?,
      t.kind.isStr = false := fun t ht => by
    by_contra hStr
    have hMore := StringRun.isEof_of_isStr (Bool.eq_true_of_not_eq_false hStr)
    rw [hEnds t ht] at hMore
    cases hMore
  rw [StringRun.joinAll, StringRun.joinFrom_runs
    (List.forall_mem_nil _) hLast, List.reverse_nil, List.nil_append] at hJoin
  obtain ⟨mss, s₃, hMerge, hDone⟩ := bind_split hJoin
  cases hDone
  -- Each run becomes one token, which is its first one.
  obtain ⟨ms, hFirsts, hSingles⟩ := StringRun.exists_outs (Q := fun ms m => ms = [m])
    (P := fun run m => ∃ t more, run = t :: more ∧
      m = { t with kind := m.kind, joined := m.joined } ∧
      (more = [] → m = t) ∧ (t.isEof = true → m = t))
    (forall₂_of_mapM hMerge) (fun run hMem ys ⟨r, r', hOne⟩ => by
      obtain ⟨t, more, m, rfl, hSingle, hSame, hAlone⟩ :=
        mergeRun_first (List.ne_nil_of_mem_splitBy hMem) hOne
      refine ⟨m, ⟨t, more, rfl, hSame, hAlone, fun hEnd => ?_⟩, hSingle⟩
      cases more with
      | nil => exact hAlone rfl
      | cons next more =>
        have hChain := List.isChain_of_mem_splitBy hMem
        rw [List.isChain_cons_cons, StringRun.together, Bool.and_eq_true] at hChain
        rw [StringRun.isEof_of_isStr hChain.1.1] at hEnd
        cases hEnd)
  have hFlat : (StringRun.runs cs).flatten = cs := List.flatten_splitBy _ cs
  rw [← hFlat] at hConverted
  obtain ⟨gs, hParts, hGroups⟩ := exists_groups hConverted
  refine ⟨gs, hParts, ?_⟩
  change List.Forall₂ Stands gs (mss.flatten.map Preprocessor.renumbered)
  rw [StringRun.flatten_singles hSingles, List.forall₂_map_right_iff]
  clear hParts hConverted hFlat hSingles hMerge
  generalize StringRun.runs cs = rs at hFirsts hGroups
  induction hGroups generalizing ms with
  | nil =>
    cases hFirsts
    exact .nil
  | cons hGroup _ ih =>
    cases hFirsts with
    | cons hFirst hRest =>
      obtain ⟨t, more, rfl, hSame, hAlone, hEnd⟩ := hFirst
      cases hGroup with
      | cons hHead hTail =>
        refine .cons (stands_converted hHead hSame hEnd fun hNone => hAlone ?_) (ih _ hRest)
        subst hNone
        cases hTail
        rfl

/-
  Preprocessing a text of lines without directives, which have
  no names of macros apart from those of lines and files, and
  of directives that number lines.  Every token is shown on
  its line: the line that it is on in the text, or the number
  of the last directive before it and the lines from there.
  A name that is given stays until the next one, and a token
  that asks for its line or its file becomes exactly that.
  Unless a step cannot be taken any more, only numbers and
  literals that are malformed can make preprocessing fail.
-/
theorem process_renumbers {name src : Bytes} {ps : List Part} {e : Token}
    (hSource : (Lexer.tokenize s.cfg (Include.fileFor s name src)
      name).tokens = .ok (ps.flatMap Part.toks ++ [e])) (hEof : e.isEof = true)
    (hConds : s.conds = []) (hBounded : Bounded s (texts ps)) (hName : Bytes.of '\n' ∉ name) :
    ∃ us r, List.Forall₂ (fun p u => p.1.Shows p.2 u) (viewed ⟨none, name⟩ ps) us ∧
      (2 * (ps.flatMap Part.toks ++ [e]).length < enough →
        Preprocessor.process name (some src) [] s = finish (us ++ [e]) r) ∧
      ∀ out s', Preprocessor.process name (some src) [] s = .ok out s' →
        finish (us ++ [e]) r = .ok out s' ∧ ∃ gs, gs.flatten =
            (viewed ⟨none, name⟩ ps).map some ++ [none] ∧
          List.Forall₂ Stands gs out := by
  obtain ⟨messages, hRead⟩ := Include.tokenizeSource_run name src s
  rw [hSource] at hRead
  let s₁ := Include.withFile s name src messages
  let f := Include.fileFor s name src
  have hTold : Told s₁ f ⟨none, name⟩ s₁ :=
    ⟨by simp [s₁, f, Include.withFile, Include.fileFor, View.shown], rfl, rfl⟩
  obtain ⟨hMade, hPairs⟩ :=
    (Lexer.lexFile_reads s.cfg f name).rising (Lexer.lexFile_of_tokenize hSource)
  have hLow : ∀ t ∈ texts ps, 0 ≤ View.lineOf ⟨none, name⟩ t := by
    intro t ht
    have hPast : 0 < t.line := past_texts (fun u hu hOpen => by
      have hFrom := ((hMade u hu).2 hOpen).1
      exact ⟨by simp at hFrom; omega, fun _ => by simp at hFrom; omega⟩) hPairs t ht
    exact hPast.le
  obtain ⟨us, r, hShows, hAfter, hSome, hOnly⟩ :=
    expandAll_parts (n := 0xFFFFFFFFFFFB) hEof hTold ⟨hBounded.line, hBounded.file, hBounded.others⟩
      (fun t ht => (hMade t (List.mem_append_left _ ht)).1)
      (ordered_of_pairs hPairs) hLow hName
  have hEnough : enough = 0xFFFFFFFFFFFB + 5 := rfl
  rw [← hEnough] at hSome hOnly
  have hEmpty : r.conds = [] := hAfter.trans hConds
  -- What is left to do once the text has been expanded.
  have hProcess : ∀ x, expandAll enough
      (ps.flatMap Part.toks ++ [e]) s₁ = .ok x r → x.output = us ++ [e] →
      Preprocessor.process name (some src) [] s = finish (us ++ [e]) r := by
    intro x hExpand hOutput
    unfold Preprocessor.process Preprocessor.load
    rw [bind_ok hRead]
    change Preprocessor.run (ps.flatMap Part.toks ++ [e]) s₁ = _
    unfold Preprocessor.run
    rw [bind_ok hExpand, bind_ok (show (get : Pre Session) r = .ok r r from rfl), hOutput, hEmpty]
    rfl
  refine ⟨us, r, hShows, fun hShort => ?_, fun out s' hRun => ?_⟩
  · obtain ⟨x, hExpand⟩ := hSome hShort
    exact hProcess x hExpand (hOnly x r hExpand).2
  · obtain ⟨x, r', hExpand⟩ : ∃ x r', expandAll enough
        (ps.flatMap Part.toks ++ [e]) s₁ = .ok x r' := by
      unfold Preprocessor.process Preprocessor.load at hRun
      rw [bind_ok hRead] at hRun
      obtain ⟨x, r', hExpand, -⟩ := bind_split (show Preprocessor.run (ps.flatMap Part.toks ++ [e])
          s₁ = .ok out s' from hRun)
      exact ⟨x, r', hExpand⟩
    obtain ⟨rfl, hOutput⟩ := hOnly x r' hExpand
    rw [hProcess x hExpand hOutput] at hRun
    exact ⟨hRun, finish_stands hEof hShows hRun⟩

/- A directive before a line that asks for its line and file. -/
def renamed : Bytes :=
  ascii "# 7 \"a\"\n__LINE__ __FILE__\n"

/- A session with the macros for lines and files alone. -/
def asking : Session :=
  { macros := [(ascii "__LINE__", .builtin .line),
      (ascii "__FILE__", .builtin .file)] }

/- A token of the text. -/
def piece
    (kind : TokenKind)
    (offset : Nat)
    (line : Int)
    (atLineStart spaced : Bool)
    (text : String) : Token :=
  { kind := kind, text := ascii text, offset := offset
    file := Include.fileFor asking (ascii "m.c") renamed
    filename := ascii "m.c", line := line
    atLineStart := atLineStart, spaced := spaced }

/- The text in its parts. -/
def renamedParts : List Part :=
  [ .marker
      { hash := piece .punct 0 1 true false "#"
        word? := none
        numeral := ⟨piece .ppNum 2 1 false true "7", by decide⟩
        name? := some ⟨piece (.str .char (ascii "a" ++ [0])) 4 1
          false true "\"a\"", by decide⟩
        number := 7
        shown? := some (ascii "a")
        starts := by decide +kernel
        punct := rfl
        named := by simp
        isNumber := rfl
        small := by decide
        read := by decide +kernel
        quoted := rfl
        inner := by decide +kernel }, .text
      { first := piece .ident 8 2 true false "__LINE__"
        rest := ⟨[piece .ident 17 2 false true "__FILE__"],
          by decide⟩
        starts := rfl
        notEof := by decide
        notHash := by decide +kernel } ]

theorem process_renumbers_renamed :
    (viewed ⟨none, ascii "m.c"⟩ renamedParts).map (fun p => (p.1.lineOf p.2, p.1.name)) =
      [(7, ascii "a"), (7, ascii "a")] ∧ ∃ us r,
      List.Forall₂ (fun p u => p.1.Shows p.2 u) (viewed ⟨none, ascii "m.c"⟩ renamedParts) us ∧
      Preprocessor.process (ascii "m.c") (some renamed) [] asking =
        finish (us ++ [piece .eof 26 2 true false ""]) r := by
  have hSource : (Lexer.tokenize asking.cfg (Include.fileFor asking (ascii "m.c") renamed)
      (ascii "m.c")).tokens.toOption = some (renamedParts.flatMap Part.toks ++
          [piece .eof 26 2 true false ""]) := by
    decide +kernel
  have hTokens : (Lexer.tokenize asking.cfg
      (Include.fileFor asking (ascii "m.c") renamed) (ascii "m.c")).tokens =
        .ok (renamedParts.flatMap Part.toks ++ [piece .eof 26 2 true false ""]) := by
    revert hSource
    cases (Lexer.tokenize asking.cfg
      (Include.fileFor asking (ascii "m.c") renamed) (ascii "m.c")).tokens with
    | ok ts => exact fun hSome => congrArg _ (Option.some.inj hSome)
    | error x => exact nofun
  have hOther : (ascii "__FILE__" == ascii "__LINE__") =
      false := by decide +kernel
  obtain ⟨us, r, hShows, hRun, -⟩ := process_renumbers hTokens rfl rfl ⟨List.lookup_cons_self,
      by simp [asking, Macros.find?, List.lookup, hOther],
      fun t ht hNone => absurd hNone (by
        revert t
        decide +kernel)⟩ (by decide +kernel)
  exact ⟨by decide +kernel, us, r, hShows, hRun (by decide +kernel)⟩

end Numbering

end CCompiler
