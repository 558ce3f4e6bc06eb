import Mathlib
import CCompiler.Proofs.Preprocess.Recognition
import CCompiler.Proofs.Preprocess.Selection
import CCompiler.Proofs.Token.Tiling

/-
  Files under an include guard.

  A file under a guard is one section.  It is wrapped by it if
  the section has one group only, so that skipping the group
  ends at the last line of the file.  Wherever the tokens of a
  wrapped file stand, two steps take them away while the guard
  is defined: the first line opens the section and skips its
  group, and the last line closes it.

  Main declarations:
    * `Conditional.wraps`
    * `Conditional.Shell`, `Conditional.exists_shell`
    * `Conditional.Shell.steps`
    * `Expansion.expandAll_shell`
    * `Conditional.Interrupted`, `Conditional.wraps_iff`
    * `Conditional.textGuard?`, `Conditional.soundText`
-/

------------
-- Hashes That Are Read
------------

namespace CCompiler

/- The spelling of a token is one. -/
theorem Token.is_eq {t : Token} {name : String} (hIs : t.is name = true) (text : String) :
    t.is text = (ascii name == ascii text) := by
  unfold Token.is at hIs ⊢
  rw [Bool.and_eq_true, beq_iff_eq] at hIs
  rw [hIs.1, hIs.2, Bool.true_and]

/- A hash that is neither a name nor an end. -/
structure Token.Hash (t : Token) : Prop where
  starts : Conditional.isHash t = true
  notIdent : t.isIdent = false
  isOpen : t.isEof = false

variable {name : Bytes} {cfg : Config} {f : SourceFile}

namespace Lexer

/- A hash at the start of a text is a punctuator. -/
theorem kind_hash {rest : Bytes} {lx : Lexeme} (hLexeme : (lexeme cfg (0x23 :: rest)).2 = .ok lx) :
    lx.kind = .punct := by
  have hNumber : startsNumber (0x23 :: rest) = false := by cases rest <;> rfl
  have hWord : word cfg (0x23 :: rest) = ⟨0, [], none⟩ := by
    unfold word
    rfl
  have hNone : literal? (0x23 :: rest) = none := rfl
  unfold lexeme at hLexeme
  rw [hNumber, hNone, hWord] at hLexeme
  simp only [Bool.false_eq_true, if_false, gt_iff_lt, lt_irrefl] at hLexeme
  split at hLexeme
  · cases hLexeme
    rfl
  · cases hLexeme

variable {gap : Gap} {c : Cursor}

/- A hash that is read is neither a name nor an end. -/
theorem next_hash {c' : Cursor} {t : Token} (hNext : next cfg f name gap c = .ok (t, c'))
    (hHash : t.is "#" = true) : t.kind = .punct := by
  unfold next at hNext
  split at hNext
  · cases hNext
  rename_i gap₁ c₁ _
  split at hNext
  · cases hNext
    cases hHash
  rename_i hSome
  split at hNext
  · cases hNext
  rename_i lx hLexeme
  cases hNext
  cases hText : c₁.text with
  | nil => simp [hText] at hSome
  | cons b rest =>
    have hByte : b = 0x23 := by
      have hSpelled : (b :: rest).take (lx.extra + 1) = [0x23] := by
        have hIs := (Bool.and_eq_true_iff.mp hHash).2
        rw [beq_iff_eq] at hIs
        rw [← hText]
        exact hIs.trans (by decide)
      rw [List.take_succ_cons] at hSpelled
      exact (List.cons_eq_cons.mp hSpelled).1
    rw [hText, hByte] at hLexeme
    exact kind_hash hLexeme

theorem Reads.hash {r : Except LexError (List Token)} (hReads : Reads cfg f name gap c r) :
    ∀ ts, r = .ok ts → ∀ t ∈ ts, t.is "#" = true → t.kind = .punct := by
  induction hReads with
  | fault _ =>
    intro ts hOk
    cases hOk
  | last hNext _ =>
    intro ts hOk t ht
    cases hOk
    rw [List.mem_singleton] at ht
    subst ht
    exact next_hash hNext
  | @more gap c c' u r hNext _ _ ih =>
    intro ts hOk t ht
    cases r with
    | error e => cases hOk
    | ok us =>
      cases hOk
      rcases List.mem_cons.mp ht with rfl | hRest
      · exact next_hash hNext
      · exact ih us rfl t hRest

end Lexer

variable {ts : List Token}

/- The start of a directive in a file. -/
theorem hash_of_read (hRead : (Lexer.tokenize cfg f name).tokens = .ok ts) {t : Token}
    (hMem : t ∈ ts) (hHash : Conditional.isHash t = true) : t.Hash := by
  have hResult : (Lexer.lexFile cfg f name).result = .ok ts := by
    cases hLexed : (Lexer.lexFile cfg f name).result with
    | error e => simp [Lexer.tokenize, hLexed, Except.mapError] at hRead
    | ok us => simpa [Lexer.tokenize, hLexed, Except.mapError] using hRead
  have hPunct : t.kind = .punct :=
    (Lexer.lexFile_reads cfg f name).hash ts hResult t hMem (Bool.and_eq_true_iff.mp hHash).2
  exact ⟨hHash, by simp [Token.isIdent, hPunct], by simp [Token.isEof, hPunct]⟩

/- The tokens of a file and their end. -/
theorem read_split (hRead : (Lexer.tokenize cfg f name).tokens = .ok ts) :
    ∃ front e, ts = front ++ [e] ∧ e.isEof = true ∧ ∀ t ∈ front, t.isEof = false := by
  obtain ⟨⟨xs, e, rfl, hEnds⟩, -⟩ := Expansion.closed_tokenize hRead
  rcases Lexer.tokenize_cases cfg f name with
    ⟨front, e', hTokens, -, hFront⟩ | ⟨cause, place, hFault⟩
  · rw [hTokens] at hRead
    obtain ⟨rfl, -⟩ := List.append_inj' (Except.ok.inj hRead) rfl
    exact ⟨front, e, rfl, hEnds.isEof, hFront⟩
  · rw [hFault] at hRead
    cases hRead

variable {e : Token}

------------
-- Wrapped Files
------------

namespace Conditional

open Expansion Directive

/-
  Whether the section that starts a file has one group, which
  ends with the last line of the file.
-/
def wraps (ts : List Token) : Bool :=
  match skipGroup 0 (ts.drop 3) with
  | [hash, name, _] => isHash hash && name.is "endif"
  | _ => false

/-
  The tokens of a file that is wrapped by a guard, before
  their end: the line that asks for the guard, and a group
  with the line that closes the section.
-/
structure Shell (guard : Bytes) where
  hash : Token
  ifndef : Token
  name : Token
  inner : List Token
  last : Token
  endif : Token
  opens : hash.Hash
  asks : ifndef.is "ifndef" = true
  ident : name.isIdent = true
  named : name.text = guard
  nextLine : ∀ t ∈ inner.head?, t.atLineStart = true
  some : inner ≠ []
  closes : last.Hash
  ends : endif.is "endif" = true
  reaches : ∀ rest,
    skipGroup 0 (inner ++ rest) = last :: endif :: rest

def Shell.toks {guard : Bytes} (c : Shell guard) :
    List Token :=
  c.hash :: c.ifndef :: c.name :: c.inner

/-
  Skipping a group ends where it ends, whatever comes after
  it, if nothing in it is the end of a list.
-/
theorem skipGroup_reaches {xs : List Token} {a b : Token} (level : Nat)
    (hOpen : ∀ t ∈ xs, t.isEof = false) (hSkip : skipGroup level (xs ++ [e]) = [a, b, e])
    (rest : List Token) : skipGroup level (xs ++ rest) = a :: b :: rest := by
  fun_induction skipGroup level xs with
  | case1 level h name xs hEof => simp [hOpen h (by simp)] at hEof
  | case2 level h name xs hNot hOpens ih =>
    simp only [List.cons_append, skipGroup, hNot, hOpens, if_true] at hSkip ⊢
    exact ih (fun t ht => hOpen t (by simp [ht])) hSkip
  | case3 level h name xs hNot hOpens hEnds =>
    simp only [List.cons_append, skipGroup, hNot, hOpens, hEnds, if_true] at hSkip ⊢
    cases xs with
    | nil =>
      cases hSkip
      rfl
    | cons x xs => simp at hSkip
  | case4 level h name xs hNot hOpens hEnds hEndif ih =>
    simp only [List.cons_append, skipGroup, hNot, hOpens, hEnds, hEndif, if_true] at hSkip ⊢
    exact ih (fun t ht => hOpen t (by simp [ht])) hSkip
  | case5 level h name xs hNot hOpens hEnds hEndif ih =>
    simp only [List.cons_append, skipGroup, hNot, hOpens, hEnds, hEndif] at hSkip ⊢
    exact ih (fun t ht => hOpen t (by simp [ht])) hSkip
  | case6 level xs hShort =>
    -- fewer than two tokens are left, and so no end of a group
    have hLength : (skipGroup level (xs ++ [e])).length ≤ 2 := by
      refine (within_skipGroup level _).suffix.length_le.trans ?_
      rcases xs with - | ⟨x, - | ⟨y, more⟩⟩
      · simp
      · simp
      · exact absurd rfl (hShort x y more)
    rw [hSkip] at hLength
    simp at hLength

variable {guard : Bytes}

/- The parts of a file under a guard. -/
theorem guard?_parts (hGuard : guard? ts = some guard) :
    ∃ h ifndef name h' more, ts = h :: ifndef :: name :: h' :: more ∧
        isHash h = true ∧ ifndef.is "ifndef" = true ∧
        name.isIdent = true ∧ name.text = guard ∧
        isHash h' = true := by
  unfold guard? at hGuard
  split at hGuard
  · rename_i h ifndef name h' define again rest
    split at hGuard
    · rename_i hAll
      simp only [Bool.and_eq_true] at hAll
      obtain ⟨⟨⟨⟨⟨⟨hHash, hIf⟩, hIdent⟩, hNext⟩, -⟩, -⟩, -⟩ := hAll
      cases hGuard
      exact ⟨h, ifndef, name, h', _, rfl, hHash, hIf, hIdent, rfl, hNext⟩
    · cases hGuard
  · cases hGuard

/- Where the group of a wrapped file ends. -/
theorem wraps_reaches {h ifndef name e : Token} {inner : List Token}
    (hOpen : ∀ t ∈ inner, t.isEof = false)
    (hWraps : wraps (h :: ifndef :: name :: (inner ++ [e])) = true) :
    ∃ last endif, isHash last = true ∧ endif.is "endif" = true ∧ last ∈ inner ∧
      ∀ rest, skipGroup 0 (inner ++ rest) = last :: endif :: rest := by
  unfold wraps at hWraps
  split at hWraps
  swap
  · cases hWraps
  rename_i last endif e' hSkip
  rw [Bool.and_eq_true] at hWraps
  change skipGroup 0 (inner ++ [e]) = _ at hSkip
  have hSuffix := (within_skipGroup 0 (inner ++ [e])).suffix
  rw [hSkip] at hSuffix
  obtain ⟨front, hFront⟩ := hSuffix
  have hSplit : (front ++ [last, endif]) ++ [e'] = inner ++ [e] := by
    rw [← hFront, List.append_assoc]
    rfl
  obtain ⟨hInner, hLast⟩ := List.append_inj' hSplit rfl
  cases hLast
  refine ⟨last, endif, hWraps.1, hWraps.2, ?_, skipGroup_reaches 0 hOpen hSkip⟩
  rw [← hInner]
  simp

/- A file that is wrapped by its guard is a shell. -/
theorem exists_shell {shown : Bytes} (hRead : (Lexer.tokenize cfg f shown).tokens = .ok ts)
    (hGuard : guard? ts = some guard) (hWraps : wraps ts = true) :
    ∃ (c : Shell guard) (e : Token), ts = c.toks ++ [e] ∧ e.isEof = true ∧
        ∀ t ∈ c.toks, t.isEof = false := by
  obtain ⟨front, e, rfl, hEof, hFront⟩ := read_split hRead
  obtain ⟨h, ifndef, name, h', more, hParts, hHash, hIf,
    hIdent, hName, hNext⟩ := guard?_parts hGuard
  rcases front with
    - | ⟨t₁, - | ⟨t₂, - | ⟨t₃, - | ⟨t₄, front⟩⟩⟩⟩ <;> cases hParts
  · simp [wraps, skipGroup] at hWraps
  obtain ⟨last, endif, hClose, hEndif, hMem, hReaches⟩ :=
    @wraps_reaches _ _ _ _ (h' :: front) (fun t ht => hFront t (by simp_all)) hWraps
  have hHashes : ∀ t ∈ h :: ifndef :: name :: h' :: front, isHash t = true → t.Hash := fun t ht =>
    hash_of_read hRead (List.mem_append_left [e] ht)
  refine ⟨{
    hash := h
    ifndef := ifndef
    name := name
    inner := h' :: front
    last := last
    endif := endif
    opens := hHashes h (by simp) hHash
    asks := hIf
    ident := hIdent
    named := hName
    nextLine := ?_
    some := by simp
    closes := hHashes last ?_ hClose
    ends := hEndif
    reaches := hReaches }, e, rfl, hEof, hFront⟩
  · intro t ht
    cases ht
    exact (Bool.and_eq_true_iff.mp hNext).1
  · exact List.mem_cons_of_mem _ (List.mem_cons_of_mem _ (List.mem_cons_of_mem _ hMem))

end Conditional

variable {rest : List Token}

------------
-- Two Steps
------------

namespace Expansion

open Pre Conditional

/- Tokens put in before others, of which some are left. -/
theorem goOn_goOn (p : Progress) {new mid : List Token} (hLess : mid.length ≤ new.length)
    (rest : List Token) :
    (p.goOn new rest).goOn [] (mid ++ rest) = p.goOn mid rest := by
  unfold Progress.goOn
  by_cases hKept : p.kept?.isSome = true
  · simp [hKept]
  · simp only [hKept, Bool.false_eq_true, if_false,
      List.length_append, List.length_nil, Nat.add_zero, List.nil_append]
    have hGone : new.length + rest.length - (mid.length + rest.length) =
          new.length - mid.length := by omega
    have hNone : new.length - mid.length - (p.fresh - (p.toks.length - rest.length) +
          new.length) = 0 := by omega
    have hFresh : p.fresh - (p.toks.length - rest.length) + new.length - (new.length - mid.length) =
        p.fresh - (p.toks.length - rest.length) +
          mid.length := by omega
    simp [hGone, hNone, hFresh]

/- A warning changes the messages only. -/
theorem warn_ok (t : Token) (group : Warning) (n : Notice) (s : Session) :
    ∃ ms, warn t group n s = .ok () { s with messages := ms } := by
  change ∃ ms, say _ s = _
  unfold say
  split
  · exact ⟨s.messages, rfl⟩
  · exact ⟨_, rfl⟩

/- A line that has come to its end. -/
theorem skipLine_bounds {t : Token} (hBounds : Section.Bounds t) (rest : List Token) (s : Session) :
    ∃ ms, Directive.skipLine (t :: rest) s = .ok (t :: rest) { s with messages := ms } := by
  unfold Directive.skipLine
  simp only
  split
  · exact ⟨s.messages, rfl⟩
  · rename_i hStart
    obtain ⟨ms, hWarn⟩ := warn_ok t .extraTokens .extraToken s
    refine ⟨ms, (bind_ok hWarn).trans ?_⟩
    have hStop : (!t.atLineStart && !t.isEof) = false := by
      rcases hBounds with hLine | hEof
      · simp [hLine]
      · simp [hEof]
    rw [List.dropWhile_cons_of_neg (by simp [hStop])]
    rfl

/- A directive is carried out, whatever is defined. -/
theorem step_directive (expand : Expand) {p : Progress} {h : Token} (hHash : h.Hash)
    (hToks : p.toks = h :: rest) (s : Session) : step expand p s = carryOut expand p h rest s := by
  have hIdle : Idle s.macros h := by
    right
    simp [Macros.ofToken?, hHash.notIdent]
  unfold step
  rw [hToks]
  simp only [hHash.isOpen, Bool.false_eq_true, if_false]
  refine (bind_ok (use?_idle hIdle rest)).trans ?_
  simp only [hHash.starts, if_true]
  rfl

end Expansion

variable {s : Session}

namespace Conditional

open Expansion Directive

variable {guard : Bytes} (c : Shell guard)

/- The section of a wrapped file that is not read. -/
def Shell.unread : Conditional :=
  { start := c.ifndef, taken := false }

/- The first line opens a section and skips its group. -/
theorem Shell.run_hash (expand : Expand) (hDefined : s.macros.contains guard = true)
    (rest : List Token) :
    run expand c.hash (c.ifndef :: c.name :: (c.inner ++ rest)) s =
      .ok (resumeAt (c.last :: c.endif :: rest)) (s.under (c.unread :: s.conds)) := by
  have hRun : run expand c.hash (c.ifndef :: c.name :: (c.inner ++ rest)) =
        ifdefDirective c.ifndef (c.name :: (c.inner ++ rest)) := by
    simp only [run, first, List.headD_cons, Token.is_eq c.asks]
    rfl
  have hFound : (s.macros.ofToken? c.name).isSome = true := by
    unfold Macros.ofToken?
    rw [if_pos c.ident, c.named]
    exact hDefined
  have hNot : c.ifndef.is "ifdef" = false := by
    rw [Token.is_eq c.asks]
    decide
  obtain ⟨t, more, hInner⟩ := List.exists_cons_of_ne_nil c.some
  have hStart : t.atLineStart = true := c.nextLine t (by rw [hInner]; rfl)
  have hLine : ∀ s₁ : Session, skipLine (c.inner ++ rest) s₁ = .ok (c.inner ++ rest) s₁ := by
    intro s₁
    rw [hInner]
    simp only [skipLine, List.cons_append, hStart, if_true]
    rfl
  rw [hRun]
  unfold ifdefDirective openSection
  simp only [first, List.headD_cons, List.tail_cons]
  refine (bind_ok (show _ = EStateM.Result.ok _ s from rfl)).trans ?_
  refine (bind_ok rfl).trans ?_
  refine (bind_ok (hLine _)).trans ?_
  simp only [hFound, hNot, c.reaches]
  rfl

variable {t : Token}

/- The last line closes the section. -/
theorem Shell.run_last (expand : Expand) (hBounds : Section.Bounds t) (rest : List Token)
    (d : Conditional) (s : Session) :
    ∃ ms, run expand c.last (c.endif :: t :: rest)
        (s.under (d :: s.conds)) = .ok (resumeAt (t :: rest))
        { s with messages := ms } := by
  have hRun : run expand c.last (c.endif :: t :: rest) = endifDirective c.last (t :: rest) := by
    simp only [run, first, List.headD_cons, Token.is_eq c.ends]
    rfl
  obtain ⟨ms, hLine⟩ := skipLine_bounds hBounds rest s
  refine ⟨ms, ?_⟩
  rw [hRun]
  unfold endifDirective
  change (skipLine (t :: rest) >>= fun ts => pure (resumeAt ts)) s = _
  exact (bind_ok hLine).trans rfl

/-
  The tokens of a wrapped file are taken away by two steps,
  which change no more than the messages.
-/
theorem Shell.steps (expand : Expand) {p : Progress} (hDefined : s.macros.contains guard = true)
    (hBounds : Section.Bounds t) (hToks : p.toks = c.toks ++ t :: rest) :
    let q := p.goOn [] (c.last :: c.endif :: t :: rest)
    step expand p s = .ok (.inl q) (s.under (c.unread :: s.conds)) ∧
      ∃ ms, step expand q (s.under (c.unread :: s.conds)) = .ok (.inl (q.goOn [] (t :: rest)))
          { s with messages := ms } := by
  obtain ⟨ms, hLast⟩ := c.run_last expand hBounds rest c.unread s
  refine ⟨?_, ms, ?_⟩
  · rw [step_directive expand c.opens hToks]
    exact bind_ok (c.run_hash expand hDefined _)
  · rw [step_directive expand c.closes (goOn_toks _ _ _)]
    exact bind_ok hLast

/- Of tokens put in and taken away again nothing is left. -/
theorem Shell.goOn_eq (p : Progress) (rest : List Token) :
    ((p.goOn c.toks rest).goOn [] (c.last :: c.endif :: rest)).goOn [] rest = p.goOn [] rest := by
  have hLess : [c.last, c.endif].length ≤ c.toks.length := by simp [Shell.toks]
  have hNone : ([] : List Token).length ≤ [c.last, c.endif].length := Nat.zero_le _
  have hSkipped := goOn_goOn p hLess rest
  have hClosed := goOn_goOn p hNone rest
  simp only [List.cons_append, List.nil_append] at hSkipped hClosed
  rw [hSkipped, hClosed]

end Conditional

namespace Expansion

open Conditional

/- Going on changes nothing that is done. -/
theorem goOn_done (p : Progress) (new rest : List Token) : (p.goOn new rest).done = p.done := by
  unfold Progress.goOn
  split <;> rfl

/- A wrapped file gives no tokens while its guard is defined. -/
theorem expandAll_shell {guard : Bytes} (c : Shell guard) (hEof : e.isEof = true)
    (hDefined : s.macros.contains guard = true) (n : Nat) :
    ∃ r ms, expandAll (n + 4) (c.toks ++ [e]) s = .ok r { s with messages := ms } ∧
      r.output = [e] := by
  obtain ⟨hFirst, ms, hNext⟩ := c.steps (expandAll (n + 3))
    hDefined (.inr hEof) (rfl : ({ toks := c.toks ++ [e] } : Progress).toks = c.toks ++ e :: [])
  have hEnd : ∀ (p : Progress) (s₁ : Session), step (expandAll (n + 3)) (p.goOn [] [e]) s₁ = _ :=
    fun p s₁ => step_end _ (goOn_toks p [] [e]) hEof
  have hRun := (repeatStep_go hFirst (n + 2)).trans
    ((repeatStep_go hNext (n + 1)).trans (bind_ok (hEnd _ _)))
  exact ⟨_, ms, hRun, by simp [Expanded.output, goOn_done]⟩

end Expansion

------------
-- Texts Under a Guard
------------

/- A token of another file, shown under another name. -/
def Token.moved
    (f : SourceFile)
    (name : Bytes)
    (t : Token) : Token :=
  { t with file := f, filename := name }

@[simp] theorem Token.moved_is (f : SourceFile) (name : Bytes) (t : Token) (text : String) :
    (t.moved f name).is text = t.is text := rfl

@[simp] theorem Token.moved_isText (f : SourceFile) (name : Bytes) (t : Token) (text : Bytes) :
    (t.moved f name).isText text = t.isText text := rfl

@[simp] theorem Token.moved_isEof (f : SourceFile) (name : Bytes) (t : Token) :
    (t.moved f name).isEof = t.isEof := rfl

@[simp] theorem Token.moved_isIdent (f : SourceFile) (name : Bytes) (t : Token) :
    (t.moved f name).isIdent = t.isIdent := rfl

@[simp] theorem Token.moved_text (f : SourceFile) (name : Bytes) (t : Token) :
    (t.moved f name).text = t.text := rfl

@[simp] theorem Conditional.isHash_moved (f : SourceFile) (name : Bytes) (t : Token) :
    isHash (t.moved f name) = isHash t := rfl

@[simp] theorem Conditional.opens_moved (f : SourceFile) (name : Bytes) (t : Token) :
    opens (t.moved f name) = opens t := rfl

@[simp] theorem Conditional.endsGroup_moved (f : SourceFile) (name : Bytes) (t : Token) :
    endsGroup (t.moved f name) = endsGroup t := rfl

namespace Lexer

/- The tokens of a text do not depend on whose text it is. -/
theorem run_moved (f' : SourceFile) (name' : Bytes) (hSame : f'.contents = f.contents)
    {fuel : Nat} {gap : Gap} {c : Cursor} {dollars : List Nat} {done : List Token}
    (hRun : (run cfg f name fuel gap c dollars done).result = .ok ts) :
    (run cfg f' name' fuel gap c dollars (done.map (Token.moved f' name'))).result =
      .ok (ts.map (Token.moved f' name')) := by
  have hPosition : ∀ offset, f'.position offset = f.position offset := by
    intro offset
    unfold SourceFile.position
    rw [hSame]
  induction fuel generalizing gap c dollars done with
  | zero => cases hRun
  | succ fuel ih =>
    rw [run] at hRun ⊢
    split at hRun
    · cases hRun
    split at hRun
    · rename_i hEmpty
      cases hRun
      rw [if_pos hEmpty, hPosition]
      simp [Token.moved, makeToken]
    rename_i hMore
    rw [if_neg hMore]
    simp only at hRun ⊢
    split at hRun
    · cases hRun
    · exact ih hRun

theorem tokenize_moved (hRead : (tokenize cfg f name).tokens = .ok ts) (f' : SourceFile)
    (hSame : f'.contents = f.contents) (name' : Bytes) :
    (tokenize cfg f' name').tokens = .ok (ts.map (Token.moved f' name')) := by
  unfold tokenize at hRead ⊢
  simp only at hRead ⊢
  cases hResult : (lexFile cfg f name).result with
  | error e =>
    rw [hResult] at hRead
    cases hRead
  | ok us =>
    rw [hResult] at hRead
    cases hRead
    have hMoved := run_moved f' name' hSame hResult
    unfold lexFile
    rw [hSame]
    exact congrArg (Except.mapError _) hMoved

end Lexer

namespace Conditional

theorem skipGroup_moved (f : SourceFile) (name : Bytes) (level : Nat) (ts : List Token) :
    skipGroup level (ts.map (Token.moved f name)) =
      (skipGroup level ts).map (Token.moved f name) := by
  fun_induction skipGroup level ts with
  | case1 level h name rest hEof => simp [skipGroup, hEof]
  | case2 level h name rest hOpen hOpens ih =>
    simp only [List.map_cons, skipGroup, Token.moved_isEof,
      isHash_moved, opens_moved, hOpen, hOpens, if_true, ih,
      Bool.false_eq_true, if_false]
  | case3 level h name rest hOpen hOpens hEnds =>
    simp only [List.map_cons, skipGroup, Token.moved_isEof,
      isHash_moved, opens_moved, endsGroup_moved, hOpen,
      hOpens, hEnds, if_true, Bool.false_eq_true, if_false]
  | case4 level h name rest hOpen hOpens hEnds hEndif ih =>
    simp only [List.map_cons, skipGroup, Token.moved_isEof,
      isHash_moved, opens_moved, endsGroup_moved,
      Token.moved_is, hOpen, hOpens, hEnds, hEndif, if_true,
      Bool.false_eq_true, if_false, ih]
  | case5 level h name rest hOpen hOpens hEnds hEndif ih =>
    simp only [List.map_cons, skipGroup, Token.moved_isEof,
      isHash_moved, opens_moved, endsGroup_moved,
      Token.moved_is, hOpen, hOpens, hEnds, hEndif,
      Bool.false_eq_true, if_false]
    exact ih
  | case6 level ts hShort =>
    rcases ts with - | ⟨h, - | ⟨x, ts⟩⟩
    · rfl
    · rfl
    · exact absurd rfl (hShort h x ts)

theorem closesAtEnd_moved (f : SourceFile) (name : Bytes) (level : Nat) (ts : List Token) :
    closesAtEnd level (ts.map (Token.moved f name)) = closesAtEnd level ts := by
  have hEnd : ∀ rest : List Token, ((rest.map (Token.moved f name)).head?).map (·.isEof) =
        (rest.head?).map (·.isEof) := by
    intro rest
    cases rest <;> rfl
  fun_induction closesAtEnd level ts with
  | case1 level h x rest hEof => simp [closesAtEnd, hEof]
  | case2 level h x rest hOpen hLast =>
    simp only [List.map_cons, closesAtEnd, Token.moved_isEof,
      isHash_moved, Token.moved_is, hEnd, hOpen, hLast,
      if_true, Bool.false_eq_true, if_false]
  | case3 level h x rest hOpen hLast hOpens ih =>
    simp only [List.map_cons, closesAtEnd, Token.moved_isEof,
      isHash_moved, Token.moved_is, opens_moved, hEnd, hOpen,
      hLast, hOpens, if_true, Bool.false_eq_true, if_false, ih]
  | case4 level h x rest hOpen hLast hOpens hEndif ih =>
    simp only [List.map_cons, closesAtEnd, Token.moved_isEof,
      isHash_moved, Token.moved_is, opens_moved, hEnd, hOpen,
      hLast, hOpens, hEndif, if_true, Bool.false_eq_true, if_false, ih]
  | case5 level h x rest hOpen hLast hOpens hEndif ih =>
    simp only [List.map_cons, closesAtEnd, Token.moved_isEof,
      isHash_moved, Token.moved_is, opens_moved, hEnd, hOpen,
      hLast, hOpens, hEndif, Bool.false_eq_true, if_false]
    exact ih
  | case6 level ts hShort =>
    rcases ts with - | ⟨h, - | ⟨x, ts⟩⟩
    · rfl
    · rfl
    · exact absurd rfl (hShort h x ts)

theorem guard?_moved (f : SourceFile) (name : Bytes) (ts : List Token) :
    guard? (ts.map (Token.moved f name)) = guard? ts := by
  rcases ts with
    - | ⟨h, - | ⟨a, - | ⟨b, - | ⟨h', - | ⟨c, - | ⟨d, ts⟩⟩⟩⟩⟩⟩
  all_goals try rfl
  have hCloses := closesAtEnd_moved f name 0 (h' :: c :: d :: ts)
  simp only [List.map_cons] at hCloses
  simp only [List.map_cons, guard?, hCloses, isHash_moved,
    Token.moved_is, Token.moved_isIdent, Token.moved_isText, Token.moved_text]

theorem wraps_moved (f : SourceFile) (name : Bytes) (ts : List Token) :
    wraps (ts.map (Token.moved f name)) = wraps ts := by
  unfold wraps
  rw [← List.map_drop, skipGroup_moved]
  rcases skipGroup 0 (ts.drop 3) with
    - | ⟨a, - | ⟨b, - | ⟨c, - | ⟨d, more⟩⟩⟩⟩ <;> rfl

/- The name of the guard that a text is under. -/
def textGuard? (cfg : Config) (text : Bytes) : Option Bytes :=
  match (Lexer.tokenize cfg ⟨0, [], 0, text⟩ []).tokens with
  | .ok ts => guard? ts
  | .error _ => none

/- Whether a text is wrapped by the guard that it is under, if any. -/
def soundText (cfg : Config) (text : Bytes) : Bool :=
  match (Lexer.tokenize cfg ⟨0, [], 0, text⟩ []).tokens with
  | .ok ts => (guard? ts).isNone || wraps ts
  | .error _ => true

theorem textGuard?_of_read (hRead : (Lexer.tokenize cfg f name).tokens = .ok ts) :
    textGuard? cfg f.contents = guard? ts := by
  unfold textGuard?
  rw [Lexer.tokenize_moved hRead ⟨0, [], 0, f.contents⟩ rfl []]
  exact guard?_moved _ _ ts

variable {guard : Bytes}

/- A text under a guard can be read as the text of any file. -/
theorem exists_of_textGuard? {text : Bytes} (hGuard : textGuard? cfg text = some guard)
    (f : SourceFile) (hText : f.contents = text) (name : Bytes) :
    ∃ ts, (Lexer.tokenize cfg f name).tokens = .ok ts ∧ guard? ts = some guard := by
  unfold textGuard? at hGuard
  split at hGuard
  · rename_i ts hRead
    exact ⟨_, Lexer.tokenize_moved hRead f hText name, (guard?_moved _ _ ts).trans hGuard⟩
  · cases hGuard

/- A file that is read from a sound text is wrapped. -/
theorem wraps_of_soundText (hRead : (Lexer.tokenize cfg f name).tokens = .ok ts)
    (hSound : soundText cfg f.contents = true) (hGuard : guard? ts = some guard) :
    wraps ts = true := by
  have hMoved := Lexer.tokenize_moved hRead ⟨0, [], 0, f.contents⟩ rfl []
  unfold soundText at hSound
  rw [hMoved] at hSound
  simpa [guard?_moved, wraps_moved, hGuard] using hSound

/-
  The group under a guard ends before the last line: another
  group follows, or the section is closed and more follows.
-/
def Interrupted (ts : List Token) : Prop :=
  ∃ h name rest, skipGroup 0 (ts.drop 3) = h :: name :: rest ∧ isHash h = true ∧
      (name.is "elif" = true ∨ name.is "else" = true ∨
        name.is "endif" = true ∧ 2 ≤ rest.length)

/- A section that is closed at the end has a group that ends. -/
theorem skipGroup_closes {level : Nat} (hCloses : closesAtEnd level ts = true) :
    ∃ h name e rest, skipGroup level ts = h :: name :: e :: rest ∧
        isHash h = true ∧ endsGroup name = true := by
  fun_induction closesAtEnd level ts with
  | case1 => cases hCloses
  | case2 level h name rest hOpen hLast =>
    simp only [Bool.and_eq_true, beq_iff_eq] at hLast
    obtain ⟨⟨⟨hHash, hLevel⟩, hEndif⟩, hEof⟩ := hLast
    obtain ⟨e, more, rfl⟩ : ∃ e more, rest = e :: more := by
      cases rest with
      | nil => cases hEof
      | cons e more => exact ⟨e, more, rfl⟩
    have hNotOpens : opens name = false := by
      simp only [opens, Token.is_eq hEndif]
      decide
    have hEnds : endsGroup name = true := by simp [endsGroup, hEndif]
    refine ⟨h, name, e, more, ?_, hHash, hEnds⟩
    simp [skipGroup, hOpen, hNotOpens, hHash, hLevel, hEnds]
  | case3 level h name rest hOpen hLast hOpens ih =>
    simp only [skipGroup, hOpen, hOpens, if_true, Bool.false_eq_true, if_false]
    exact ih hCloses
  | case4 level h name rest hOpen hLast hOpens hEndif ih =>
    have hNot : (isHash h && level == 0 && endsGroup name) =
        false := by
      simp only [Bool.and_eq_true, decide_eq_true_eq] at hEndif
      simp [show level ≠ 0 by omega]
    simp only [skipGroup, hOpen, hOpens, hNot, hEndif, if_true, Bool.false_eq_true, if_false]
    exact ih hCloses
  | case5 level h name rest hOpen hLast hOpens hEndif ih =>
    by_cases hEnds : (isHash h && level == 0 && endsGroup name) = true
    · -- the detector goes on here, and so there is more
      obtain ⟨e, more, rfl⟩ : ∃ e more, rest = e :: more := by
        cases rest with
        | nil => simp [closesAtEnd] at hCloses
        | cons e more => exact ⟨e, more, rfl⟩
      refine ⟨h, name, e, more, ?_, ?_⟩
      · simp only [skipGroup, hOpen, hOpens, hEnds, if_true, Bool.false_eq_true, if_false]
      · simp only [Bool.and_eq_true] at hEnds
        exact ⟨hEnds.1.1, hEnds.2⟩
    · simp only [skipGroup, hOpen, hOpens, hEnds, hEndif, Bool.false_eq_true, if_false]
      exact ih hCloses
  | case6 => cases hCloses

/- A file under a guard is wrapped unless it is interrupted. -/
theorem wraps_iff (hGuard : guard? ts = some guard) : wraps ts = true ↔ ¬ Interrupted ts := by
  have hCloses : closesAtEnd 0 (ts.drop 3) = true := by
    unfold guard? at hGuard
    split at hGuard
    · split at hGuard
      · rename_i hAll
        exact (Bool.and_eq_true_iff.mp hAll).2
      · cases hGuard
    · cases hGuard
  obtain ⟨h, name, e, rest, hSkip, hHash, hEnds⟩ := skipGroup_closes hCloses
  have hWraps : wraps ts = (rest.isEmpty && name.is "endif") := by
    unfold wraps
    rw [hSkip]
    cases rest with
    | nil => simp [hHash]
    | cons x more => rfl
  have hInterrupted : Interrupted ts ↔ (name.is "elif" = true ∨ name.is "else" = true ∨
        name.is "endif" = true ∧ rest ≠ []) := by
    unfold Interrupted
    rw [hSkip]
    constructor
    · rintro ⟨h', name', more, hEq, -, hWhy⟩
      cases hEq
      simpa [Nat.one_le_iff_ne_zero] using hWhy
    · intro hWhy
      refine ⟨h, name, e :: rest, rfl, hHash, ?_⟩
      simpa [Nat.one_le_iff_ne_zero] using hWhy
  rw [hWraps, hInterrupted, Bool.and_eq_true, List.isEmpty_iff]
  by_cases hEndif : name.is "endif" = true
  · have hElif : name.is "elif" = false := by
      rw [Token.is_eq hEndif]
      decide
    have hElse : name.is "else" = false := by
      rw [Token.is_eq hEndif]
      decide
    simp [hEndif, hElif, hElse]
  · simp only [endsGroup, hEndif, Bool.or_false, Bool.or_eq_true] at hEnds
    simp [hEndif, hEnds]

end Conditional

end CCompiler
