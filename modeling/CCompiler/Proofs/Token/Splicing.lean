import Mathlib
import CCompiler.Proofs.Text.ScalarValues
import CCompiler.Token.Lexer
import CCompiler.Token.Splice

/-
  Lines that end in a backslash, and universal names.

  A backslash with a newline behind it is taken away, and the
  newline comes back behind the next newline that ends a line.
  So nothing else is lost, every line that is put together
  starts at the line number where its first part stands in the
  file, and a byte of a later part moves up by the pairs that
  stand between.

  The newlines that are held back are the invariant: the
  output is behind by just as many newlines as have been
  taken away since the last line was ended.

  Where universal names are replaced, a text is read piece by
  piece: a code point, a byte behind a backslash, or a name.
  Each piece is read whole, whatever stands behind it.

  Main declarations:
    * `Splice.withoutPairs`, `Splice.pairs`
    * `Splice.EndsLine`, `Splice.Unbroken`, `Splice.heldBack`
    * `Splice.joinLines_append`
    * `Splice.joinLines_cut`
    * `Splice.joinLines_keeps_lines`
    * `Splice.Piece`, `Splice.Nameless`
    * `Splice.replaceNames_exact`
-/

namespace CCompiler

namespace Splice

open Lexer.Cursor (newlines)

------------
-- Pairs and Lines
------------

/- A text without the backslashes before newlines and these newlines. -/
def withoutPairs : Bytes → Bytes
| [] => []
| 0x5C :: 0x0A :: rest => withoutPairs rest
| b :: rest => b :: withoutPairs rest

/- The number of backslashes before newlines. -/
def pairs : Bytes → Nat
| [] => 0
| 0x5C :: 0x0A :: rest => pairs rest + 1
| _ :: rest => pairs rest

/- The bytes of a text other than newlines. -/
def inked (s : Bytes) : Bytes :=
  s.filter (· != 0x0A)

/-
  A text that is empty or ends with a newline that no
  backslash stands before.
-/
def EndsLine (s : Bytes) : Prop :=
  s = [] ∨ ∃ t, s = t ++ [0x0A] ∧ t.getLast? ≠ some 0x5C

/- A text in which a backslash stands before every newline. -/
def Unbroken (s : Bytes) : Prop :=
  ∀ t u, s = t ++ 0x0A :: u → t.getLast? = some 0x5C

/-
  A byte that is no newline, and no backslash with a newline
  right behind it.
-/
def Stays (b : UInt8) (behind : Bytes) : Prop :=
  b ≠ 0x0A ∧ ¬ (b = 0x5C ∧ behind.head? = some 0x0A)

/-
  The number of newlines that are held back behind a text, if
  so many were before it.
-/
def heldBack (pending : Nat) : Bytes → Nat
| [] => pending
| 0x5C :: 0x0A :: rest => heldBack (pending + 1) rest
| 0x0A :: rest => heldBack 0 rest
| _ :: rest => heldBack pending rest

variable {b : UInt8} {s t u v before behind rest : Bytes}
variable {pending : Nat}

/- A byte that starts no pair and ends no line is passed on. -/
theorem joinLines_stays (hStays : Stays b rest) :
    joinLines pending (b :: rest) = b :: joinLines pending rest := by
  obtain ⟨hInk, hNoPair⟩ := hStays
  rw [joinLines]
  · rintro rest' rfl rfl
    exact hNoPair ⟨rfl, rfl⟩
  · rintro rfl
    exact hInk rfl

theorem withoutPairs_stays (hNoPair : ¬ (b = 0x5C ∧ rest.head? = some 0x0A)) :
    withoutPairs (b :: rest) = b :: withoutPairs rest := by
  rw [withoutPairs]
  rintro rest' rfl rfl
  exact hNoPair ⟨rfl, rfl⟩

theorem pairs_stays (hNoPair : ¬ (b = 0x5C ∧ rest.head? = some 0x0A)) :
    pairs (b :: rest) = pairs rest := by
  rw [pairs]
  rintro rest' rfl rfl
  exact hNoPair ⟨rfl, rfl⟩

theorem heldBack_stays (hStays : Stays b rest) :
    heldBack pending (b :: rest) = heldBack pending rest := by
  obtain ⟨hInk, hNoPair⟩ := hStays
  rw [heldBack]
  · rintro rest' rfl rfl
    exact hNoPair ⟨rfl, rfl⟩
  · rintro rfl
    exact hInk rfl

/-
  Every text is empty, starts with a pair, with a newline, or
  with another byte.
-/
theorem cases_start {P : Bytes → Prop} (s : Bytes) (hEmpty : P [])
    (hPair : ∀ rest, P rest → P (0x5C :: 0x0A :: rest))
    (hLine : ∀ rest, P rest → P (0x0A :: rest))
    (hOther : ∀ b rest, Stays b rest → P rest → P (b :: rest)) : P s := by
  induction s using withoutPairs.induct with
  | case1 => exact hEmpty
  | case2 rest ih => exact hPair rest ih
  | case3 b rest hNoPair ih =>
    by_cases hLineEnd : b = 0x0A
    · subst hLineEnd
      exact hLine rest ih
    · refine hOther b rest ⟨hLineEnd, ?_⟩ ih
      rintro ⟨rfl, hHead⟩
      cases rest with
      | nil => cases hHead
      | cons c rest =>
        cases hHead
        exact hNoPair rest rfl rfl

@[simp] theorem newlines_nil : newlines [] = 0 := rfl

@[simp] theorem newlines_cons (b : UInt8) (s : Bytes) :
    newlines (b :: s) = newlines s + if b = 0x0A then 1 else 0 := by
  simp [newlines, List.countP_cons, show Bytes.of '\n' = 0x0A from rfl]

@[simp] theorem newlines_append (s t : Bytes) : newlines (s ++ t) = newlines s + newlines t :=
  List.countP_append

@[simp] theorem newlines_replicate (n : Nat) : newlines (List.replicate n 0x0A) = n := by
  simp [newlines, List.countP_replicate, show Bytes.of '\n' = 0x0A from rfl]

@[simp] theorem inked_append (s t : Bytes) : inked (s ++ t) = inked s ++ inked t :=
  List.filter_append ..

@[simp] theorem inked_replicate (n : Nat) : inked (List.replicate n 0x0A) = [] := by simp [inked]

theorem inked_newline (s : Bytes) : inked (0x0A :: s) = inked s := by simp [inked]

theorem inked_cons (hInk : b ≠ 0x0A) (s : Bytes) : inked (b :: s) = b :: inked s := by
  simp [inked, hInk]

------------
-- Whole Texts
------------

/- No newline is lost, and none comes in. -/
theorem newlines_joinLines (pending : Nat) (s : Bytes) :
    newlines (joinLines pending s) = newlines s + pending := by
  induction s using cases_start generalizing pending with
  | hEmpty => simp [joinLines]
  | hPair rest ih =>
    rw [joinLines, ih]
    simp
    omega
  | hLine rest ih =>
    rw [joinLines, newlines_append, newlines_cons, ih]
    simp
    omega
  | hOther b rest hStays ih =>
    rw [joinLines_stays hStays]
    simp [hStays.1, ih]

/- The other bytes are those outside the pairs. -/
theorem inked_joinLines (pending : Nat) (s : Bytes) :
    inked (joinLines pending s) = inked (withoutPairs s) := by
  induction s using cases_start generalizing pending with
  | hEmpty => simp [joinLines, withoutPairs, inked]
  | hPair rest ih => rw [joinLines, withoutPairs, ih]
  | hLine rest ih =>
    rw [joinLines, withoutPairs_stays (by simp), inked_append,
      inked_newline, inked_newline, inked_replicate, ih]
    rfl
  | hOther b rest hStays ih =>
    rw [joinLines_stays hStays, withoutPairs_stays hStays.2,
      inked_cons hStays.1, inked_cons hStays.1, ih]

/- Without a pair there is nothing to join. -/
theorem joinLines_of_no_pair (hNone : s.containsSeq (ascii "\\\n") = false) :
    joinLines 0 s = s := by
  induction s using cases_start with
  | hEmpty => rfl
  | hPair rest ih =>
    rw [Bytes.containsSeq] at hNone
    simp [Bytes.startsWith, show ascii "\\\n" = [0x5C, 0x0A] from by decide,
      Bytes.dropPrefix?] at hNone
  | hLine rest ih =>
    rw [Bytes.containsSeq, Bool.or_eq_false_iff] at hNone
    rw [joinLines, ih hNone.2]
    rfl
  | hOther b rest hStays ih =>
    rw [Bytes.containsSeq, Bool.or_eq_false_iff] at hNone
    rw [joinLines_stays hStays, ih hNone.2]

------------
-- Cutting a Text
------------

/- Between two texts no pair is cut. -/
def Whole (before behind : Bytes) : Prop :=
  ¬ (before.getLast? = some 0x5C ∧ behind.head? = some 0x0A)

theorem Whole.tail (hWhole : Whole (b :: before) behind) : Whole before behind := by
  rintro ⟨hLast, hHead⟩
  refine hWhole ⟨?_, hHead⟩
  cases before with
  | nil => cases hLast
  | cons c rest => simpa using hLast

/- The last byte of a text may be one that is in front of more. -/
theorem Whole.stays (hWhole : Whole (b :: before) behind) (hStays : Stays b before) :
    Stays b (before ++ behind) := by
  refine ⟨hStays.1, ?_⟩
  rintro ⟨rfl, hHead⟩
  cases before with
  | nil => exact hWhole ⟨rfl, hHead⟩
  | cons c rest => exact hStays.2 ⟨rfl, hHead⟩

/-
  What stands before a cut is printed first, whatever stands
  behind it, and the newlines that it holds back go on there.
-/
theorem joinLines_cut (pending : Nat) (before : Bytes) :
    ∃ printed, (∀ behind, Whole before behind → joinLines pending (before ++ behind) =
          printed ++ joinLines (heldBack pending before) behind) ∧
      inked printed = inked (withoutPairs before) ∧
      newlines printed + heldBack pending before = newlines before + pending := by
  induction before using cases_start generalizing pending with
  | hEmpty => exact ⟨[], fun _ _ => rfl, rfl, by simp [heldBack]⟩
  | hPair rest ih =>
    obtain ⟨printed, hRun, hInk, hLines⟩ := ih (pending + 1)
    refine ⟨printed, fun behind hWhole => ?_, hInk, ?_⟩
    · exact hRun behind hWhole.tail.tail
    · simp [heldBack]
      omega
  | hLine rest ih =>
    obtain ⟨printed, hRun, hInk, hLines⟩ := ih 0
    refine ⟨0x0A :: List.replicate pending 0x0A ++ printed, fun behind hWhole => ?_, ?_, ?_⟩
    · rw [List.cons_append, joinLines, hRun behind hWhole.tail, heldBack, List.append_assoc]
    · rw [List.cons_append, inked_newline, inked_append,
        inked_replicate, hInk, withoutPairs_stays (by simp),
        inked_newline, List.nil_append]
    · simp [heldBack]
      omega
  | hOther b rest hStays ih =>
    obtain ⟨printed, hRun, hInk, hLines⟩ := ih pending
    refine ⟨b :: printed, fun behind hWhole => ?_, ?_, ?_⟩
    · rw [List.cons_append, joinLines_stays (hWhole.stays hStays),
        hRun behind hWhole.tail, heldBack_stays hStays, List.cons_append]
    · rw [inked_cons hStays.1, hInk, withoutPairs_stays hStays.2, inked_cons hStays.1]
    · rw [heldBack_stays hStays]
      simp [hStays.1, hLines]

------------
-- Lines That Are Put Together
------------

/- Nothing is held back where a line has ended. -/
theorem heldBack_line (pending : Nat) (hLast : t.getLast? ≠ some 0x5C) (v : Bytes) :
    heldBack pending (t ++ 0x0A :: v) = heldBack 0 v := by
  induction t using cases_start generalizing pending with
  | hEmpty => rfl
  | hPair rest ih =>
    refine ih (pending + 1) fun hRest => hLast ?_
    cases rest with
    | nil => cases hRest
    | cons c rest => simpa using hRest
  | hLine rest ih =>
    refine ih 0 fun hRest => hLast ?_
    cases rest with
    | nil => cases hRest
    | cons c rest => simpa using hRest
  | hOther b rest hStays ih =>
    have hWhole : Whole (b :: rest) (0x0A :: v) := fun hCut => hLast hCut.1
    rw [List.cons_append, heldBack_stays (hWhole.stays hStays)]
    exact ih pending fun hRest => hWhole.tail ⟨hRest, rfl⟩

theorem EndsLine.heldBack (hEnds : EndsLine u) (v : Bytes) :
    heldBack 0 (u ++ v) = heldBack 0 v := by
  rcases hEnds with rfl | ⟨t, rfl, hLast⟩
  · rfl
  · rw [List.append_assoc]
    exact heldBack_line 0 hLast v

theorem EndsLine.whole (hEnds : EndsLine u) : Whole u behind := by
  rcases hEnds with rfl | ⟨t, rfl, -⟩
  · exact fun hCut => nomatch hCut.1
  · rintro ⟨hLast, -⟩
    simp at hLast

/- Lines that are put together are put together one by one. -/
theorem joinLines_append (hEnds : EndsLine u) (rest : Bytes) :
    joinLines 0 (u ++ rest) = joinLines 0 u ++ joinLines 0 rest := by
  obtain ⟨printed, hRun, -, -⟩ := joinLines_cut 0 u
  have hHeld : Splice.heldBack 0 u = 0 := by simpa [Splice.heldBack] using hEnds.heldBack []
  have hAlone := hRun [] hEnds.whole
  rw [List.append_nil] at hAlone
  rw [hAlone, hRun rest hEnds.whole, hHeld]
  simp [joinLines]

theorem Unbroken.tail (hUnbroken : Unbroken (b :: s)) (hFirst : b = 0x5C → s.head? ≠ some 0x0A) :
    Unbroken s := by
  rintro t u rfl
  have hLast := hUnbroken (b :: t) u rfl
  cases t with
  | nil =>
    rw [List.getLast?_singleton, Option.some.injEq] at hLast
    exact absurd rfl (hFirst hLast)
  | cons c t => simpa using hLast

/- In one line, what is held back are its pairs. -/
theorem Unbroken.heldBack (hUnbroken : Unbroken s) (pending : Nat) :
    heldBack pending s = pairs s + pending := by
  induction s using cases_start generalizing pending with
  | hEmpty => simp [Splice.heldBack, pairs]
  | hPair rest ih =>
    have hRest : Unbroken rest := by
      rintro t u rfl
      have hLast := hUnbroken (0x5C :: 0x0A :: t) u rfl
      cases t with
      | nil => simp at hLast
      | cons c t => simpa using hLast
    rw [Splice.heldBack, ih hRest, pairs]
    omega
  | hLine rest ih => cases hUnbroken [] rest rfl
  | hOther b rest hStays ih =>
    have hRest : Unbroken rest := hUnbroken.tail fun hFirst hHead => hStays.2 ⟨hFirst, hHead⟩
    rw [heldBack_stays hStays, pairs_stays hStays.2, ih hRest]

theorem Unbroken.snoc (hUnbroken : Unbroken v) (hLast : b = 0x0A → v.getLast? = some 0x5C) :
    Unbroken (v ++ [b]) := by
  intro t w hCut
  rcases List.eq_nil_or_concat w with rfl | ⟨w, c, rfl⟩
  · obtain ⟨rfl, hByte⟩ := List.append_inj' hCut rfl
    exact hLast (List.cons.inj hByte).1
  · have hRest : v ++ [b] = (t ++ 0x0A :: w) ++ [c] := by simpa using hCut
    exact hUnbroken t w (List.append_inj' hRest rfl).1

/- A text is lines that have ended, and one that has not. -/
theorem exists_lines (s : Bytes) : ∃ u v, s = u ++ v ∧ EndsLine u ∧ Unbroken v := by
  induction s using List.reverseRecOn with
  | nil => exact ⟨[], [], rfl, .inl rfl, fun t u hCut => by simp at hCut⟩
  | append_singleton s b ih =>
    obtain ⟨u, v, rfl, hEnds, hUnbroken⟩ := ih
    by_cases hLine : b = 0x0A ∧ (u ++ v).getLast? ≠ some 0x5C
    · obtain ⟨rfl, hLast⟩ := hLine
      exact ⟨u ++ v ++ [0x0A], [], (List.append_nil _).symm,
        .inr ⟨u ++ v, rfl, hLast⟩, fun t w hCut => by simp at hCut⟩
    · refine ⟨u, v ++ [b], List.append_assoc .., hEnds, hUnbroken.snoc fun hNewline => ?_⟩
      have hLast : (u ++ v).getLast? = some 0x5C :=
        not_not.mp fun hOther => hLine ⟨hNewline, hOther⟩
      by_cases hSome : v = []
      · subst hSome
        rw [List.append_nil] at hLast
        have hWhole : Whole u [0x0A] := hEnds.whole
        exact absurd ⟨hLast, rfl⟩ hWhole
      · rwa [List.getLast?_append_of_ne_nil _ hSome] at hLast

------------
-- Line Numbers
------------

/-
  Joining lines keeps the number of newlines, and the other
  bytes are those outside the pairs, in their order.  A byte
  that stays moves up by the pairs between the last end of a
  line and it.  So a line starts at the number at which it
  starts in the file, and is put together by itself.  A text
  without pairs stays as it is.
-/
theorem joinLines_keeps_lines (s : Bytes) :
    newlines (joinLines 0 s) = newlines s ∧
    inked (joinLines 0 s) = inked (withoutPairs s) ∧
    (∀ before b behind, s = before ++ b :: behind → Stays b behind → ∃ ended part above below,
        before = ended ++ part ∧ EndsLine ended ∧ Unbroken part ∧
        joinLines 0 s = above ++ b :: below ∧
        inked above = inked (withoutPairs before) ∧
        newlines above + pairs part = newlines before) ∧
    (∀ ended rest, s = ended ++ rest → EndsLine ended →
      joinLines 0 s = joinLines 0 ended ++ joinLines 0 rest ∧
        newlines (joinLines 0 ended) = newlines ended) ∧
    (s.containsSeq (ascii "\\\n") = false → joinLines 0 s = s) := by
  refine ⟨newlines_joinLines 0 s, inked_joinLines 0 s, ?_, ?_, joinLines_of_no_pair⟩
  · rintro before b behind rfl hStays
    obtain ⟨ended, now, rfl, hEnds, hUnbroken⟩ := exists_lines before
    obtain ⟨above, hRun, hInk, hLines⟩ := joinLines_cut 0 (ended ++ now)
    have hWhole : Whole (ended ++ now) (b :: behind) := by
      rintro ⟨-, hHead⟩
      exact hStays.1 (Option.some.inj hHead)
    rw [hEnds.heldBack, hUnbroken.heldBack] at hLines
    have hPrinted := hRun _ hWhole
    rw [joinLines_stays hStays] at hPrinted
    exact ⟨ended, now, above, _, rfl, hEnds, hUnbroken, hPrinted, hInk, hLines⟩
  · rintro ended rest rfl hEnds
    exact ⟨joinLines_append hEnds rest, newlines_joinLines 0 ended⟩

/- The byte in the third part of the second line, and what the parts give. -/
theorem joinLines_keeps_lines_thrice :
    Stays 0x63 [0x0A] ∧ EndsLine (ascii "x\n") ∧ (∃ ended part above below,
        ascii "x\na\\\nb\\\n" = ended ++ part ∧ EndsLine ended ∧ Unbroken part ∧
        joinLines 0 (ascii "x\na\\\nb\\\nc\n") = above ++ 0x63 :: below ∧
        inked above = inked (withoutPairs (ascii "x\na\\\nb\\\n")) ∧
        newlines above + pairs part = newlines (ascii "x\na\\\nb\\\n")) ∧
      joinLines 0 (ascii "x\na\\\nb\\\nc\n") = joinLines 0 (ascii "x\n") ++
          joinLines 0 (ascii "a\\\nb\\\nc\n") := by
  have hStays : Stays 0x63 [0x0A] := ⟨by decide, by decide⟩
  have hEnds : EndsLine (ascii "x\n") := .inr ⟨ascii "x", by decide, by decide⟩
  obtain ⟨-, -, hByte, hLine, -⟩ := joinLines_keeps_lines (ascii "x\na\\\nb\\\nc\n")
  exact ⟨hStays, hEnds, hByte _ _ _ (by decide) hStays, (hLine _ _ (by decide) hEnds).1⟩

------------
-- Universal Names
------------

/- A hexadecimal digit, of either case. -/
structure HexDigit where
  value : Fin 16
  isCapital : Bool

namespace HexDigit

def byte (d : HexDigit) : UInt8 :=
  if d.value < 10 then Bytes.of '0' + UInt8.ofNat d.value
  else (if d.isCapital then Bytes.of 'A' else Bytes.of 'a') +
    UInt8.ofNat (d.value - 10)

/- The number that digits spell, behind one that is read. -/
def number (v : Nat) (ds : List HexDigit) : Nat :=
  ds.foldl (fun v d => 16 * v + d.value) v

theorem hexValue?_byte (d : HexDigit) : Bytes.hexValue? d.byte = some d.value.val := by
  obtain ⟨value, isCapital⟩ := d
  revert value isCapital
  decide

theorem hexDigits?_bytes (v : Nat) (ds : List HexDigit) (rest : Bytes) :
    hexDigits? ds.length v (ds.map byte ++ rest) = some (number v ds) := by
  induction ds generalizing v with
  | nil => rfl
  | cons d ds ih =>
    rw [List.length_cons, List.map_cons, List.cons_append, hexDigits?, hexValue?_byte]
    simp only [number, List.foldl_cons, Nat.mul_comm v 16]
    exact ih (16 * v + d.value)

end HexDigit

/-
  A piece of a text: a code point other than a backslash, a
  backslash with a byte that starts no name, or a universal
  character name with its four or eight digits.
-/
inductive Piece
| plain (c : Nat) (hPlain : c ≤ 0x10FFFF ∧ c ≠ 0x5C)
| escaped (b : UInt8) (hOther : b ≠ Bytes.of 'u' ∧ b ≠ Bytes.of 'U')
| named
    (isLong : Bool)
    (digits : List HexDigit)
    (hLength : digits.length = if isLong then 8 else 4)
    (hNumber : 0 < HexDigit.number 0 digits ∧
      HexDigit.number 0 digits ≤ 0x10FFFF)

namespace Piece

/- A piece as it stands in a text. -/
def spell : Piece → Bytes
| .plain c _ => Utf8.standard c
| .escaped b _ => [0x5C, b]
| .named isLong digits _ _ =>
  0x5C :: Bytes.of (if isLong then 'U' else 'u') ::
    digits.map HexDigit.byte

/- A piece with the code point in place of its name. -/
def result : Piece → Bytes
| .named _ digits _ _ => Utf8.standard (HexDigit.number 0 digits)
| p => p.spell

end Piece

/- A byte other than a backslash stays. -/
theorem replaceNames_cons (hOther : b ≠ 0x5C) (rest : Bytes) :
    replaceNames (b :: rest) = b :: replaceNames rest := by
  rw [replaceNames]
  rintro c rest rfl
  exact absurd rfl hOther

theorem replaceNames_append (hOther : ∀ b ∈ s, b ≠ 0x5C) (rest : Bytes) :
    replaceNames (s ++ rest) = s ++ replaceNames rest := by
  induction s with
  | nil => rfl
  | cons b s ih =>
    rw [List.cons_append, replaceNames_cons (hOther b List.mem_cons_self),
      ih fun b hIn => hOther b (List.mem_cons_of_mem _ hIn), List.cons_append]

/- A backslash protects a byte that starts no name. -/
theorem replaceNames_escaped (hOther : b ≠ Bytes.of 'u' ∧ b ≠ Bytes.of 'U') (rest : Bytes) :
    replaceNames (0x5C :: b :: rest) = 0x5C :: b :: replaceNames rest := by
  rw [replaceNames]
  simp [hOther.1, hOther.2]

/- Only a backslash is encoded with the byte of one. -/
theorem ne_backslash_of_mem_standard {c : Nat} (hPlain : c ≤ 0x10FFFF ∧ c ≠ 0x5C)
    (hIn : b ∈ Utf8.standard c) : b ≠ 0x5C := by
  obtain ⟨hBound, hOther⟩ := hPlain
  have hByte : ∀ n < 256, UInt8.ofNat n = 0x5C → n = 0x5C := by decide +kernel
  rintro rfl
  unfold Utf8.standard at hIn
  obtain ⟨n, hIn, hEqual⟩ := List.mem_map.mp hIn
  have hSmall : n < 256 ∧ n ≠ 0x5C := by
    split_ifs at hIn <;> simp only [List.mem_cons, List.not_mem_nil, or_false] at hIn <;> omega
  exact hSmall.2 (hByte n hSmall.1 hEqual)

/- Digits that spell a code point are taken for it. -/
theorem named?_digits {ds : List HexDigit} {n : Nat} (hLength : ds.length = n)
    (hNumber : 0 < HexDigit.number 0 ds ∧
      HexDigit.number 0 ds ≤ 0x10FFFF) (rest : Bytes) :
    named? n (ds.map HexDigit.byte ++ rest) = some (Utf8.standard (HexDigit.number 0 ds)) := by
  obtain ⟨hSome, hBound⟩ := hNumber
  have hWord : Utf8.encodeWord (Int32.ofNat (HexDigit.number 0 ds)) =
      Utf8.encode (HexDigit.number 0 ds) := by
    have hInt : (Int32.ofNat (HexDigit.number 0 ds)).toInt = (HexDigit.number 0 ds : Int) :=
      Int32.toInt_ofNat_of_lt (by omega)
    rw [Utf8.encodeWord, if_neg, hInt, Int.toNat_natCast]
    rw [Int32.lt_iff_toInt_lt, hInt]
    exact Int.not_lt.mpr (Int.natCast_nonneg _)
  subst hLength
  rw [named?, HexDigit.hexDigits?_bytes]
  have hNonzero : ¬ (HexDigit.number 0 ds % 0x100000000 == 0) = true := by
    simp
    omega
  simp only [if_neg hNonzero, hWord]
  rw [Utf8.encode_eq_standard (by omega)]

/- A name gives way to its code point. -/
theorem replaceNames_named {digits : List HexDigit} (isLong : Bool)
    (hLength : digits.length = if isLong then 8 else 4)
    (hNumber : 0 < HexDigit.number 0 digits ∧
      HexDigit.number 0 digits ≤ 0x10FFFF) (rest : Bytes) :
    replaceNames (0x5C :: Bytes.of (if isLong then 'U' else 'u') ::
        (digits.map HexDigit.byte ++ rest)) =
      Utf8.standard (HexDigit.number 0 digits) ++ replaceNames rest := by
  have hDrop : (digits.map HexDigit.byte ++ rest).drop digits.length = rest :=
    List.drop_left' (List.length_map _)
  have hNamed := named?_digits rfl hNumber rest
  rw [hLength] at hDrop hNamed
  rw [replaceNames]
  cases isLong with
  | true =>
    simp only [if_true] at hDrop hNamed ⊢
    rw [if_pos (by decide), if_neg (by decide), hNamed, hDrop]
  | false =>
    simp only [Bool.false_eq_true, if_false] at hDrop hNamed ⊢
    rw [if_pos (by decide), if_pos (by decide), hNamed, hDrop]

/- One piece is read whole, whatever follows it. -/
theorem replaceNames_piece (p : Piece) (rest : Bytes) :
    replaceNames (p.spell ++ rest) = p.result ++ replaceNames rest := by
  cases p with
  | plain c hPlain =>
    exact replaceNames_append (fun b hIn => ne_backslash_of_mem_standard hPlain hIn) rest
  | escaped b hOther => exact replaceNames_escaped hOther rest
  | named isLong digits hLength hNumber => exact replaceNames_named isLong hLength hNumber rest

theorem replaceNames_pieces (ps : List Piece) (rest : Bytes) :
    replaceNames (ps.flatMap Piece.spell ++ rest) =
      ps.flatMap Piece.result ++ replaceNames rest := by
  induction ps with
  | nil => rfl
  | cons p ps ih =>
    rw [List.flatMap_cons, List.append_assoc, replaceNames_piece, ih,
      List.flatMap_cons, List.append_assoc]

/- A text in which neither start of a name stands. -/
def Nameless (s : Bytes) : Prop :=
  s.containsSeq (ascii "\\u") = false ∧
    s.containsSeq (ascii "\\U") = false

theorem Nameless.tail (hNone : Nameless (b :: s)) : Nameless s := by
  obtain ⟨hShort, hLong⟩ := hNone
  rw [Bytes.containsSeq, Bool.or_eq_false_iff] at hShort hLong
  exact ⟨hShort.2, hLong.2⟩

theorem Nameless.escaped {b : UInt8} {s : Bytes} (hNone : Nameless (0x5C :: b :: s)) :
    b ≠ Bytes.of 'u' ∧ b ≠ Bytes.of 'U' := by
  obtain ⟨hShort, hLong⟩ := hNone
  rw [Bytes.containsSeq, Bool.or_eq_false_iff] at hShort hLong
  constructor
  · rintro rfl
    exact absurd hShort.1 (by simp [Bytes.startsWith, Bytes.dropPrefix?,
      show ascii "\\u" = [0x5C, Bytes.of 'u'] from by decide])
  · rintro rfl
    exact absurd hLong.1 (by simp [Bytes.startsWith, Bytes.dropPrefix?,
      show ascii "\\U" = [0x5C, Bytes.of 'U'] from by decide])

/- Where no name starts, nothing is replaced. -/
theorem Nameless.replaceNames {s : Bytes} (hNone : Nameless s) : replaceNames s = s := by
  induction s using replaceNames.induct with
  | case1 => rw [Splice.replaceNames]
  | case2 c rest digits hName utf8 hRead ih
  | case3 c rest digits hName hRead ih => simp [hNone.escaped.1, hNone.escaped.2] at hName
  | case4 c rest hOther ih => rw [replaceNames_escaped hNone.escaped, ih hNone.tail.tail]
  | case5 b rest hPlain ih =>
    rw [Splice.replaceNames, ih hNone.tail]
    exact hPlain

/-
  Universal character names are replaced and nothing else,
  for every row of pieces.  A backslash that is escaped starts
  no name, whatever follows it, and a text in which no name
  can start stays as it is.
-/
theorem replaceNames_exact :
    (∀ ps : List Piece, replaceNames (ps.flatMap Piece.spell) = ps.flatMap Piece.result) ∧
    (∀ (ps : List Piece) (rest : Bytes),
      replaceNames (ps.flatMap Piece.spell ++ 0x5C :: 0x5C :: rest) =
        ps.flatMap Piece.result ++ 0x5C :: 0x5C :: replaceNames rest) ∧
    ∀ s, Nameless s → replaceNames s = s := by
  refine ⟨fun ps => ?_, fun ps rest => ?_, fun _ hNone => hNone.replaceNames⟩
  · have hRun := replaceNames_pieces ps []
    rwa [List.append_nil, replaceNames, List.append_nil] at hRun
  · rw [replaceNames_pieces, replaceNames_escaped (by decide)]

/- A name of half a pair, behind one that is escaped. -/
theorem replaceNames_exact_half :
    replaceNames (ascii "\\\\u0041\\uD800") = ascii "\\\\u0041" ++ [0xED, 0xA0, 0x80] ∧
      Nameless (ascii "a\\n") ∧ replaceNames (ascii "a\\n") = ascii "a\\n" := by
  obtain ⟨hPieces, -, hStays⟩ := replaceNames_exact
  have hNone : Nameless (ascii "a\\n") := ⟨by decide, by decide⟩
  refine ⟨?_, hNone, hStays _ hNone⟩
  exact hPieces [.escaped 0x5C (by decide), .plain 0x75 (by decide),
    .plain 0x30 (by decide), .plain 0x30 (by decide),
    .plain 0x34 (by decide), .plain 0x31 (by decide),
    .named false [⟨13, true⟩, ⟨8, false⟩, ⟨0, false⟩, ⟨0, false⟩] rfl (by decide)]

end Splice

end CCompiler
