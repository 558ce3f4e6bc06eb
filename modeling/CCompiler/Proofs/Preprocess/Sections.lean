import Mathlib
import CCompiler.Proofs.Preprocess.Inline

/-
  Conditional sections as trees.

  A text is a group of lines and sections.  A section has an
  opening line and a group under it, any number of further
  groups under conditions, a last group without one if it has
  any, and an end.  Lines are lists of tokens of which the
  first one starts a line, so a tree is one list of tokens.

  Whole groups are passed over at every level of nesting, and
  whole sections close as many levels as they open.

  Main declarations:
    * `Section.Mark`, `Section.Line`, `Section.Opening`
    * `Section.Group`, `Section.Tail`
    * `Section.Group.toks`, `Section.Tail.toks`
    * `Section.skipGroup_group`
    * `Section.skipGroup_tail_zero`
-/

------------
-- Lines
------------

namespace CCompiler

namespace Section

open Expansion Conditional

/- Tokens that go on with a line. -/
abbrev Remainder := { ts : List Token // Flat ts }

/- A token that goes on with a line. -/
abbrev Word := { t : Token // t.Plain }

/-
  The start of a directive: a hash at the start of a line, and
  the name of the directive on the same line.
-/
structure Mark (name : String) where
  hash : Token
  word : Word
  starts : isHash hash = true
  punct : hash.kind = .punct
  named : word.1.is name = true

/- A line of text. -/
structure TextLine where
  first : Token
  rest : Remainder
  starts : first.atLineStart = true
  notEof : first.isEof = false
  notHash : first.is "#" = false

/- A definition of a macro without parameters. -/
structure ObjectLine where
  mark : Mark "define"
  name : Word
  body : Remainder
  ident : name.1.isIdent = true
  apart : ∀ t ∈ body.1.head?, (!t.spaced && t.is "(") = false

/- A definition of a macro with parameters. -/
structure FunctionLine where
  mark : Mark "define"
  name : Word
  opening : Word
  params : Remainder
  body : Remainder
  read : Arguments.Parameters
  ident : name.1.isIdent = true
  joined : (!opening.1.spaced && opening.1.is "(") = true
  parsed :
    Arguments.parameters (params.1.length + 1) {} params.1 = .ok (read, [])

/- The end of a definition. -/
structure UndefLine where
  mark : Mark "undef"
  name : Word
  extra : Remainder
  ident : name.1.isIdent = true

/- A line that opens or ends no group. -/
inductive Line
| text (l : TextLine)
| object (l : ObjectLine)
| function (l : FunctionLine)
| undef (l : UndefLine)

namespace Mark

variable {name : String}

def toks (m : Mark name) : List Token :=
  [m.hash, m.word.1]

end Mark

/- The tokens of a line. -/
def Line.toks : Line → List Token
| .text l => l.first :: l.rest.1
| .object l => l.mark.toks ++ l.name.1 :: l.body.1
| .function l =>
  l.mark.toks ++ l.name.1 :: l.opening.1 :: (l.params.1 ++ l.body.1)
| .undef l => l.mark.toks ++ l.name.1 :: l.extra.1

/- The line that opens a section. -/
inductive Opening
| value (mark : Mark "if") (cond : Remainder)
| defined (mark : Mark "ifdef") (name : Word)
    (extra : Remainder)
| undefined (mark : Mark "ifndef") (name : Word)
    (extra : Remainder)

def Opening.toks : Opening → List Token
| .value m cond => m.toks ++ cond.1
| .defined m name extra => m.toks ++ name.1 :: extra.1
| .undefined m name extra => m.toks ++ name.1 :: extra.1

------------
-- Trees
------------

mutual

/- Lines and sections one after the other. -/
inductive Group
| done
| line (l : Line) (g : Group)
| sect (o : Opening) (g : Group) (t : Tail) (next : Group)

/- What comes in a section after its first group. -/
inductive Tail
| endif (m : Mark "endif") (extra : Remainder)
| last (m : Mark "else") (extra : Remainder) (g : Group)
    (close : Mark "endif") (extra' : Remainder)
| elif (m : Mark "elif") (cond : Remainder) (g : Group)
    (t : Tail)

end

mutual

/- The tokens of a group. -/
def Group.toks : Group → List Token
| .done => []
| .line l g => l.toks ++ g.toks
| .sect o g t next =>
  o.toks ++ (g.toks ++ (t.toks ++ next.toks))

/- The tokens of the rest of a section. -/
def Tail.toks : Tail → List Token
| .endif m extra => m.toks ++ extra.1
| .last m extra g close extra' =>
  m.toks ++ (extra.1 ++ (g.toks ++ (close.toks ++ extra'.1)))
| .elif m cond g t =>
  m.toks ++ (cond.1 ++ (g.toks ++ t.toks))

end

mutual

/- The lines of a group, also those of its sections. -/
def Group.lines : Group → List Line
| .done => []
| .line l g => l :: g.lines
| .sect _ g t next => g.lines ++ (t.lines ++ next.lines)

/- The lines of the groups of the rest of a section. -/
def Tail.lines : Tail → List Line
| .endif _ _ => []
| .last _ _ g _ _ => g.lines
| .elif _ _ g t => g.lines ++ t.lines

end

/- The hash that ends the first group of a section. -/
def Tail.hash : Tail → Token
| .endif m _ => m.hash
| .last m _ _ _ _ => m.hash
| .elif m _ _ _ => m.hash

theorem Tail.toks_eq (t : Tail) : ∃ rest, t.toks = t.hash :: rest := by
  cases t with
  | endif m extra => exact ⟨_, rfl⟩
  | last m extra g close extra' => exact ⟨_, rfl⟩
  | elif m cond g t => exact ⟨_, rfl⟩

------------
-- Passing Over
------------

namespace Mark

variable {name : String}

theorem hash_open (m : Mark name) : m.hash.isEof = false := by simp [Token.isEof, m.punct]

theorem opens_eq (m : Mark name) (hIf : ascii name ≠ ascii "if")
    (hIfdef : ascii name ≠ ascii "ifdef") (hIfndef : ascii name ≠ ascii "ifndef") :
    opens m.word.1 = false := by
  simp [opens, Token.is_other m.named hIf, Token.is_other m.named hIfdef,
    Token.is_other m.named hIfndef]

theorem endsGroup_eq (m : Mark name) (hElif : ascii name ≠ ascii "elif")
    (hElse : ascii name ≠ ascii "else") (hEndif : ascii name ≠ ascii "endif") :
    endsGroup m.word.1 = false := by
  simp [endsGroup, Token.is_other m.named hElif, Token.is_other m.named hElse,
    Token.is_other m.named hEndif]

end Mark

variable {ts : List Token}

/- Tokens inside of a line are passed over. -/
theorem skipGroup_flat (level : Nat) (hFlat : Flat ts) (x : Token) (rest : List Token) :
    skipGroup level (ts ++ x :: rest) = skipGroup level (x :: rest) := by
  induction ts with
  | nil => rfl
  | cons t ts ih =>
    have hPlain := hFlat t (by simp)
    have hHash : isHash t = false := by simp [isHash, hPlain.atLineStart]
    have hNext := ih fun u hu => hFlat u (by simp [hu])
    rw [← hNext]
    cases hTail : ts ++ x :: rest with
    | nil => simp at hTail
    | cons name more => simp [hTail, skipGroup, hPlain.isEof, hHash]

/- The start of a directive that is none of a section. -/
theorem skipGroup_mark (level : Nat) {name : String} (m : Mark name)
    (hOpens : opens m.word.1 = false) (hEnds : level = 0 → endsGroup m.word.1 = false)
    (hEndif : 0 < level → m.word.1.is "endif" = false) (ts : List Token) :
    skipGroup level (m.toks ++ ts) = skipGroup level (m.word.1 :: ts) := by
  simp only [Mark.toks, List.cons_append, List.nil_append, skipGroup, m.hash_open, m.starts, hOpens,
    Bool.false_eq_true, if_false, Bool.and_false, Bool.true_and]
  rcases Nat.eq_zero_or_pos level with rfl | hPos
  · simp [hEnds rfl]
  · have hZero : (level == 0) = false := by simpa using hPos.ne'
    simp [hZero, hEndif hPos]

/- A definition, or the end of one. -/
theorem skipGroup_directive (level : Nat) {name : String} (m : Mark name)
    (hName : name = "define" ∨ name = "undef") (hFlat : Flat ts) (x : Token) (rest : List Token) :
    skipGroup level (m.toks ++ ts ++ x :: rest) = skipGroup level (x :: rest) := by
  have hOther : ∀ b ∈ ["if", "ifdef", "ifndef", "elif",
      "else", "endif"], ascii name ≠ ascii b := by
    rcases hName with rfl | rfl <;> decide
  have hOpens : opens m.word.1 = false :=
    m.opens_eq (hOther _ (by simp)) (hOther _ (by simp)) (hOther _ (by simp))
  have hEnds : endsGroup m.word.1 = false :=
    m.endsGroup_eq (hOther _ (by simp)) (hOther _ (by simp)) (hOther _ (by simp))
  have hEndif : m.word.1.is "endif" = false := Token.is_other m.named (hOther _ (by simp))
  rw [List.append_assoc, skipGroup_mark level m hOpens (fun _ => hEnds) (fun _ => hEndif)]
  have hLine : Flat (m.word.1 :: ts) := List.forall_mem_cons.mpr ⟨m.word.2, hFlat⟩
  exact skipGroup_flat level hLine x rest

theorem skipGroup_line (level : Nat) (l : Line) (x : Token) (rest : List Token) :
    skipGroup level (l.toks ++ x :: rest) = skipGroup level (x :: rest) := by
  cases l with
  | text l =>
    have hHash : isHash l.first = false := by simp [isHash, l.notHash]
    rw [← skipGroup_flat level l.rest.2 x rest]
    cases hTail : l.rest.1 ++ x :: rest with
    | nil => simp at hTail
    | cons name more => simp [Line.toks, hTail, skipGroup, l.notEof, hHash]
  | object l =>
    exact skipGroup_directive level l.mark (.inl rfl)
      (List.forall_mem_cons.mpr ⟨l.name.2, l.body.2⟩) x rest
  | function l =>
    refine skipGroup_directive level l.mark (.inl rfl) ?_ x rest
    exact List.forall_mem_cons.mpr ⟨l.name.2,
      List.forall_mem_cons.mpr ⟨l.opening.2, flat_append l.params.2 l.body.2⟩⟩
  | undef l =>
    exact skipGroup_directive level l.mark (.inr rfl)
      (List.forall_mem_cons.mpr ⟨l.name.2, l.extra.2⟩) x rest

/- The opening line of a section is one level more. -/
theorem skipGroup_opening (level : Nat) (o : Opening) (x : Token) (rest : List Token) :
    skipGroup level (o.toks ++ x :: rest) = skipGroup (level + 1) (x :: rest) := by
  have hMark : ∀ {name : String} (m : Mark name)
      {ts : List Token}, opens m.word.1 = true → Flat ts →
        skipGroup level (m.toks ++ ts ++ x :: rest) = skipGroup (level + 1) (x :: rest) := by
    intro name m ts hOpens hFlat
    simp only [Mark.toks, List.cons_append, List.nil_append,
      skipGroup, m.hash_open, m.starts, hOpens,
      Bool.false_eq_true, if_false, Bool.and_true, if_true]
    exact skipGroup_flat (level + 1) hFlat x rest
  cases o with
  | value m cond => exact hMark m (by simp [opens, m.named]) cond.2
  | defined m name extra =>
    exact hMark m (by simp [opens, m.named]) (List.forall_mem_cons.mpr ⟨name.2, extra.2⟩)
  | undefined m name extra =>
    exact hMark m (by simp [opens, m.named]) (List.forall_mem_cons.mpr ⟨name.2, extra.2⟩)

/- The end of a section is one level less. -/
theorem skipGroup_endif (level : Nat) (m : Mark "endif") (hFlat : Flat ts) (x : Token)
    (rest : List Token) :
    skipGroup (level + 1) (m.toks ++ ts ++ x :: rest) = skipGroup level (x :: rest) := by
  have hOpens : opens m.word.1 = false := m.opens_eq (by decide) (by decide) (by decide)
  have hZero : (level + 1 == 0) = false := by simp
  simp only [Mark.toks, List.cons_append, List.nil_append,
    skipGroup, m.hash_open, m.starts, hOpens, m.named, hZero,
    Bool.false_eq_true, if_false, Bool.and_false,
    Bool.false_and, Bool.and_true, Nat.succ_pos,
    decide_true, if_true, Nat.add_sub_cancel]
  exact skipGroup_flat level hFlat x rest

/- Another group of a section that is passed over. -/
theorem skipGroup_between (level : Nat) {name : String} (m : Mark name)
    (hName : name = "elif" ∨ name = "else") (hFlat : Flat ts) (x : Token) (rest : List Token) :
    skipGroup (level + 1) (m.toks ++ ts ++ x :: rest) = skipGroup (level + 1) (x :: rest) := by
  have hOther : ∀ b ∈ ["if", "ifdef", "ifndef", "endif"],
      ascii name ≠ ascii b := by
    rcases hName with rfl | rfl <;> decide
  have hOpens : opens m.word.1 = false :=
    m.opens_eq (hOther _ (by simp)) (hOther _ (by simp)) (hOther _ (by simp))
  rw [List.append_assoc, skipGroup_mark (level + 1) m hOpens
    (by simp) fun _ => Token.is_other m.named (hOther _ (by simp))]
  have hLine : Flat (m.word.1 :: ts) := List.forall_mem_cons.mpr ⟨m.word.2, hFlat⟩
  exact skipGroup_flat (level + 1) hLine x rest

/- Some token follows each part of a tree. -/
theorem exists_first (ts : List Token) (x : Token) (rest : List Token) :
    ∃ y more, ts ++ x :: rest = y :: more := by
  cases ts with
  | nil => exact ⟨x, rest, rfl⟩
  | cons t ts => exact ⟨t, ts ++ x :: rest, rfl⟩

mutual

/- A group is passed over at every level. -/
theorem skipGroup_group (g : Group) (level : Nat) (x : Token) (rest : List Token) :
    skipGroup level (g.toks ++ x :: rest) = skipGroup level (x :: rest) := by
  cases g with
  | done => rfl
  | line l g =>
    rw [Group.toks, List.append_assoc]
    rcases exists_first g.toks x rest with ⟨y, more, hNext⟩
    rw [hNext, skipGroup_line, ← hNext]
    exact skipGroup_group g level x rest
  | sect o g t next =>
    rw [Group.toks]
    simp only [List.append_assoc]
    rcases exists_first next.toks x rest with
      ⟨y, more, hNext⟩
    rw [hNext]
    rcases exists_first t.toks y more with
      ⟨y', more', hTail⟩
    rw [hTail]
    rcases exists_first g.toks y' more' with
      ⟨y'', more'', hGroup⟩
    rw [hGroup, skipGroup_opening, ← hGroup, skipGroup_group g, ← hTail, skipGroup_tail t, ← hNext]
    exact skipGroup_group next level x rest

/- The rest of a section closes the level of it. -/
theorem skipGroup_tail (t : Tail) (level : Nat) (x : Token) (rest : List Token) :
    skipGroup (level + 1) (t.toks ++ x :: rest) = skipGroup level (x :: rest) := by
  cases t with
  | endif m extra => exact skipGroup_endif level m extra.2 x rest
  | last m extra g close extra' =>
    rw [Tail.toks]
    simp only [List.append_assoc]
    rcases exists_first (close.toks ++ extra'.1) x rest with
      ⟨y, more, hClose⟩
    rw [List.append_assoc] at hClose
    rw [hClose]
    rcases exists_first g.toks y more with
      ⟨y', more', hGroup⟩
    rw [hGroup, ← List.append_assoc, skipGroup_between level m (.inr rfl) extra.2,
      ← hGroup, skipGroup_group g, ← hClose, ← List.append_assoc]
    exact skipGroup_endif level close extra'.2 x rest
  | elif m cond g t =>
    rw [Tail.toks]
    simp only [List.append_assoc]
    rcases exists_first t.toks x rest with ⟨y, more, hTail⟩
    rw [hTail]
    rcases exists_first g.toks y more with
      ⟨y', more', hGroup⟩
    rw [hGroup, ← List.append_assoc, skipGroup_between level m (.inl rfl) cond.2,
      ← hGroup, skipGroup_group g, ← hTail]
    exact skipGroup_tail t level x rest

end

/- What comes after a group of a section ends it. -/
theorem skipGroup_tail_zero (t : Tail) (rest : List Token) :
    skipGroup 0 (t.toks ++ rest) = t.toks ++ rest := by
  have hMark : ∀ {name : String} (m : Mark name)
      (ts : List Token), opens m.word.1 = false → endsGroup m.word.1 = true →
        skipGroup 0 (m.toks ++ ts) = m.toks ++ ts := by
    intro name m ts hOpens hEnds
    simp [Mark.toks, skipGroup, m.hash_open, m.starts, hOpens, hEnds]
  cases t with
  | endif m extra =>
    rw [Tail.toks, List.append_assoc]
    exact hMark m _ (m.opens_eq (by decide) (by decide) (by decide)) (by simp [endsGroup, m.named])
  | last m extra g close extra' =>
    rw [Tail.toks, List.append_assoc]
    exact hMark m _ (m.opens_eq (by decide) (by decide) (by decide)) (by simp [endsGroup, m.named])
  | elif m cond g t =>
    rw [Tail.toks, List.append_assoc]
    exact hMark m _ (m.opens_eq (by decide) (by decide) (by decide)) (by simp [endsGroup, m.named])

/- From inside of a group to what comes after it. -/
theorem skipGroup_to_tail (g : Group) (t : Tail) (rest : List Token) :
    skipGroup 0 (g.toks ++ (t.toks ++ rest)) = t.toks ++ rest := by
  rcases t.toks_eq with ⟨more, hTail⟩
  have hFirst := skipGroup_tail_zero t rest
  rw [hTail, List.cons_append] at hFirst ⊢
  rw [skipGroup_group g]
  exact hFirst

end Section

end CCompiler
