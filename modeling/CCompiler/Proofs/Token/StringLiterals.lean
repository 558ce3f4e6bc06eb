import Mathlib
import CCompiler.Proofs.Text.ScalarValues
import CCompiler.Proofs.Token.Respacing

/-
  What string literals hold.

  The characters between the quotes are scalar values in UTF-8.
  A plain literal keeps their bytes.  The others decode them
  and put each one down in units of their own width, so that
  they hold the UTF-16 or the UTF-32 form of the characters.
  A unit of zero comes last.

  Main declarations:
    * `Literal.quoted`, `Literal.encodings`
    * `Literal.utf16`, `Literal.held`, `Literal.units`
    * `Literal.decodeElements_wide`
    * `Lexer.lexeme_quoted`
    * `Lexer.lexFile_quoted`
-/

namespace CCompiler

namespace Literal

------------
-- Forms of Literals
------------

/- What may stand before a quote, with the type of the elements. -/
def encodings : List (Bytes × LitType) :=
  [([], .char), (ascii "u8", .char), (ascii "u", .ushort),
    (ascii "L", .int), (ascii "U", .uint)]

/- Characters in UTF-8. -/
def utf8 (cs : List Char) : Bytes :=
  cs.flatMap String.utf8EncodeChar

/- A literal with the given characters. -/
def quoted (mark : Bytes) (cs : List Char) : Bytes :=
  mark ++ 0x22 :: (utf8 cs ++ [0x22])

/- A character that can stand in a literal as it is. -/
def Plain (c : Char) : Prop :=
  c ≠ '"' ∧ c ≠ '\\' ∧ c ≠ '\n'

/-
  The 16-bit units of a character: the character itself, or
  the high and the low ten bits of what exceeds the 16 bits.
-/
def utf16 (c : Char) : List Nat :=
  if c.toNat < 0x10000 then [c.toNat]
  else
    [0xD800 + (c.toNat - 0x10000) / 0x400, 0xDC00 + (c.toNat - 0x10000) % 0x400]

/- The bytes of a unit of 16 bits, the lowest one first. -/
def bytes16 (u : Nat) : Bytes :=
  [UInt8.ofNat u, UInt8.ofNat (u / 0x100)]

/- The bytes of a unit of 32 bits, the lowest one first. -/
def bytes32 (u : Nat) : Bytes :=
  [UInt8.ofNat u, UInt8.ofNat (u / 0x100),
    UInt8.ofNat (u / 0x10000), UInt8.ofNat (u / 0x1000000)]

/- The bytes of a literal with the given characters. -/
def held (elem : LitType) (cs : List Char) : Bytes :=
  match elem with
  | .char => utf8 cs ++ [0]
  | .ushort => (cs.flatMap utf16 ++ [0]).flatMap bytes16
  | _ => (cs.map Char.toNat ++ [0]).flatMap bytes32

/- The number of elements of a literal with the given characters. -/
def units (elem : LitType) (cs : List Char) : Nat :=
  match elem with
  | .char => (utf8 cs).length + 1
  | .ushort => (cs.flatMap utf16).length + 1
  | _ => cs.length + 1

variable {c : Char} {cs : List Char} {b : UInt8} {s rest : Bytes}
variable {elem : LitType} {mark : Bytes}

------------
-- Bodies of Literals
------------

/- A byte below the continuation bytes is a character of its own. -/
theorem toNat_of_mem_utf8EncodeChar (hMem : b ∈ String.utf8EncodeChar c) (hLow : b.toNat < 0x80) :
    b.toNat = c.toNat := by
  have hMark : ∀ k m, k + m < 256 → 0x80 ≤ m → ¬ (UInt8.ofNat (k + m)).toNat < 0x80 := by
    intro k m hByte hMarked
    rw [UInt8.toNat_ofNat_of_lt' hByte]
    omega
  unfold String.utf8EncodeChar at hMem
  change b ∈ if c.toNat ≤ 0x7f then _ else if c.toNat ≤ 0x7ff then _
    else if c.toNat ≤ 0xffff then _ else _ at hMem
  split at hMem
  · rw [List.mem_singleton] at hMem
    rw [hMem]
    exact UInt8.toNat_ofNat_of_lt' (show c.toNat < 256 by omega)
  split at hMem
  · simp only [List.mem_cons, List.not_mem_nil, or_false] at hMem
    rcases hMem with rfl | rfl
    all_goals exact absurd hLow (hMark _ _ (by omega) (by decide))
  split at hMem
  · simp only [List.mem_cons, List.not_mem_nil, or_false] at hMem
    rcases hMem with rfl | rfl | rfl
    all_goals exact absurd hLow (hMark _ _ (by omega) (by decide))
  · simp only [List.mem_cons, List.not_mem_nil, or_false] at hMem
    rcases hMem with rfl | rfl | rfl | rfl
    all_goals exact absurd hLow (hMark _ _ (by omega) (by decide))

/- Bytes of a body that neither end nor protect anything. -/
def Inner (s : Bytes) : Prop :=
  ∀ b ∈ s, b ≠ 0x22 ∧ b ≠ 0x5C ∧ b ≠ 0x0A

theorem inner_utf8 (hPlain : ∀ c ∈ cs, Plain c) : Inner (utf8 cs) := by
  intro b hMem
  obtain ⟨c, hChar, hByte⟩ := List.mem_flatMap.mp hMem
  obtain ⟨hQuote, hBackslash, hNewline⟩ := hPlain c hChar
  refine ⟨?_, ?_, ?_⟩
  · rintro rfl
    exact hQuote (Char.toNat_inj.mp (toNat_of_mem_utf8EncodeChar hByte (by decide)).symm)
  · rintro rfl
    exact hBackslash (Char.toNat_inj.mp (toNat_of_mem_utf8EncodeChar hByte (by decide)).symm)
  · rintro rfl
    exact hNewline (Char.toNat_inj.mp (toNat_of_mem_utf8EncodeChar hByte (by decide)).symm)

/- A body ends at the quote. -/
theorem bodyLength?_inner (hInner : Inner s) (rest : Bytes) :
    bodyLength? (s ++ 0x22 :: rest) = some s.length := by
  induction s with
  | nil => rfl
  | cons b s ih =>
    obtain ⟨⟨hQuote, hBackslash, hNewline⟩, hRest⟩ := List.forall_mem_cons.mp hInner
    rw [List.cons_append, bodyLength?, ih hRest]
    · rfl
    · exact hQuote
    · exact hNewline
    · intro _ _ hByte
      exact absurd hByte hBackslash

theorem beq_backslash (hByte : b ≠ 0x5C) : (b == Bytes.of '\\') = false :=
  beq_eq_false_iff_ne.mpr hByte

/- The elements of a plain literal are its bytes. -/
theorem decodeElements_plain (hInner : Inner s) (base : Nat) :
    decodeElements .char base s = .ok s := by
  induction s generalizing base with
  | nil => rw [decodeElements]
  | cons b s ih =>
    obtain ⟨⟨-, hBackslash, -⟩, hRest⟩ := List.forall_mem_cons.mp hInner
    rw [decodeElements, beq_backslash hBackslash, if_neg Bool.false_ne_true,
      if_pos (by decide), ih hRest]
    rfl

/- Those of a wide literal are the units of its characters. -/
theorem decodeElements_wide (hWide : elem.size ≠ 1) (hPlain : ∀ c ∈ cs, Plain c) (base : Nat) :
    decodeElements elem base (utf8 cs) = .ok (cs.flatMap fun c =>
        unitBytes elem (wideUnits elem c.toNat)) := by
  induction cs generalizing base with
  | nil => rw [utf8, List.flatMap_nil, decodeElements]; rfl
  | cons c cs ih =>
    obtain ⟨hFirst, hRest⟩ := List.forall_mem_cons.mp hPlain
    have hDecode := Utf8.decode?_char c (utf8 cs)
    have hInner : Inner (utf8 (c :: cs)) := inner_utf8 hPlain
    rw [show utf8 (c :: cs) = String.utf8EncodeChar c ++ utf8 cs from List.flatMap_cons] at hInner ⊢
    cases hBytes : String.utf8EncodeChar c ++ utf8 cs with
    | nil =>
      rw [hBytes] at hDecode
      cases hDecode
    | cons b tail =>
      rw [hBytes] at hDecode hInner
      have hBackslash := (hInner b List.mem_cons_self).2.1
      rw [decodeElements, beq_backslash hBackslash, if_neg Bool.false_ne_true,
        if_neg (by simpa using hWide)]
      split
      · rename_i hNone
        rw [hDecode] at hNone
        cases hNone
      · rename_i d rest hSome
        rw [hDecode] at hSome
        cases hSome
        rw [ih hRest]
        rfl

variable {u : Nat}

------------
-- Units
------------

/- A byte of a word is what is left of the number at its place. -/
theorem toUInt8_shiftRight (hWord : u < 2 ^ 32) {k : UInt32} (hPlace : k.toNat < 32) :
    (UInt32.ofNat u >>> k).toUInt8 = UInt8.ofNat (u / 2 ^ k.toNat) := by
  apply UInt8.toNat_inj.mp
  rw [UInt32.toNat_toUInt8, UInt32.toNat_shiftRight,
    UInt32.toNat_ofNat_of_lt' hWord, Nat.mod_eq_of_lt hPlace,
    Nat.shiftRight_eq_div_pow]
  rfl

theorem littleEndian_two (hWord : u < 2 ^ 32) : littleEndian 2 (UInt32.ofNat u) = bytes16 u := by
  have hHigh := toUInt8_shiftRight hWord (k := 8) (by decide)
  simpa [littleEndian, bytes16, List.range_succ] using hHigh

theorem littleEndian_four (hWord : u < 2 ^ 32) : littleEndian 4 (UInt32.ofNat u) = bytes32 u := by
  have hSecond := toUInt8_shiftRight hWord (k := 8) (by decide)
  have hThird := toUInt8_shiftRight hWord (k := 16) (by decide)
  have hFourth := toUInt8_shiftRight hWord (k := 24) (by decide)
  simpa [littleEndian, bytes32, List.range_succ] using ⟨hSecond, hThird, hFourth⟩

/- A character in 16-bit units. -/
theorem unitBytes_utf16 (c : Char) :
    unitBytes .ushort (wideUnits .ushort c.toNat) = (utf16 c).flatMap bytes16 := by
  have hBound := Utf8.toNat_lt c
  have hUnits : wideUnits .ushort c.toNat = (utf16 c).map UInt32.ofNat := by
    rw [wideUnits, if_pos (by decide), utf16Units, utf16]
    by_cases hOne : c.toNat < 0x10000
    · rw [if_pos hOne, if_neg (Nat.not_le.mpr hOne)]
      rfl
    · rw [if_neg hOne, if_pos (Nat.not_lt.mp hOne)]
      simp only [List.map_cons, List.map_nil]
      rw [Nat.mod_eq_of_lt (show (c.toNat - 0x10000) / 1024 < 1024 by
        omega)]
  have hWords : ∀ u ∈ utf16 c, u < 2 ^ 32 := by
    unfold utf16
    split <;> simp <;> omega
  rw [unitBytes, hUnits, List.flatMap_map]
  exact List.flatMap_congr fun u hu => littleEndian_two (hWords u hu)

theorem unitBytes_utf32 (hFour : elem.size = 4) (c : Char) :
    unitBytes elem (wideUnits elem c.toNat) = bytes32 c.toNat := by
  have hBound := Utf8.toNat_lt c
  have hWidth : elemWidth elem = 4 := by simp [elemWidth, hFour]
  rw [wideUnits, if_neg (by simp [hFour]), unitBytes, hWidth,
    List.flatMap_singleton, littleEndian_four (by omega)]

/- A body is decoded to what the literal holds. -/
theorem decodeBody_utf8 (hEncoding : (mark, elem) ∈ encodings) (hPlain : ∀ c ∈ cs, Plain c)
    (base : Nat) : decodeBody elem base (utf8 cs) = .ok (held elem cs) := by
  have hElem : elem = .char ∨ elem = .ushort ∨ elem = .int ∨ elem = .uint := by
    simp only [encodings, List.mem_cons, Prod.mk.injEq, List.not_mem_nil, or_false] at hEncoding
    tauto
  rw [decodeBody]
  rcases hElem with rfl | rfl | rfl | rfl
  · rw [decodeElements_plain (inner_utf8 hPlain)]
    rfl
  · rw [decodeElements_wide (by decide) hPlain]
    simp only [unitBytes_utf16, held, List.flatMap_append, List.flatMap_assoc]
    rfl
  · rw [decodeElements_wide (by decide) hPlain]
    simp only [unitBytes_utf32 (show LitType.int.size = 4 from rfl), held,
      List.flatMap_append, List.flatMap_map]
    rfl
  · rw [decodeElements_wide (by decide) hPlain]
    simp only [unitBytes_utf32 (show LitType.uint.size = 4 from rfl), held,
      List.flatMap_append, List.flatMap_map]
    rfl

/- The elements are as many as the units. -/
theorem length_held (hEncoding : (mark, elem) ∈ encodings) (cs : List Char) :
    (held elem cs).length / elem.size = units elem cs := by
  have hTwo : ∀ us : List Nat, (us.flatMap bytes16).length = us.length * 2 := by
    simp [List.length_flatMap, bytes16]
  have hFour : ∀ us : List Nat, (us.flatMap bytes32).length = us.length * 4 := by
    simp [List.length_flatMap, bytes32]
  simp only [encodings, List.mem_cons, Prod.mk.injEq, List.not_mem_nil, or_false] at hEncoding
  rcases hEncoding with h | h | h | h | h <;> rw [h.2] <;>
    simp only [held, units, LitType.size, hTwo, hFour,
      List.length_append, List.length_map, List.length_singleton] <;> omega

end Literal

------------
-- Tokens of Literals
------------

namespace Lexer

open Literal

variable {cs : List Char} {elem : LitType} {mark : Bytes}

/- A literal is one token, whatever follows it. -/
theorem lexeme_quoted (cfg : Config) (hEncoding : (mark, elem) ∈ encodings)
    (hPlain : ∀ c ∈ cs, Plain c) (rest : Bytes) :
    (lexeme cfg (quoted mark cs ++ rest)).2 =
      .ok ⟨.str elem (held elem cs), (quoted mark cs).length - 1⟩ := by
  have hString : stringLexeme elem mark.length (utf8 cs ++ 0x22 :: rest) =
      .ok ⟨.str elem (held elem cs), (quoted mark cs).length - 1⟩ := by
    unfold stringLexeme
    rw [bodyLength?_inner (inner_utf8 hPlain)]
    simp only
    rw [List.take_left, decodeBody_utf8 hEncoding hPlain]
    have hLength : (quoted mark cs).length - 1 = mark.length + (utf8 cs).length + 1 := by
      simp [quoted]
      omega
    rw [hLength]
    rfl
  have hStart : startsNumber (quoted mark cs ++ rest) = false ∧
      literal? (quoted mark cs ++ rest) = some (stringLexeme elem
        mark.length (utf8 cs ++ 0x22 :: rest)) := by
    have hText : quoted mark cs ++ rest = mark ++ 0x22 :: (utf8 cs ++ 0x22 :: rest) := by
      simp [quoted]
    rw [hText]
    generalize utf8 cs ++ 0x22 :: rest = body
    simp only [encodings, List.mem_cons, Prod.mk.injEq, List.not_mem_nil, or_false] at hEncoding
    rcases hEncoding with ⟨rfl, rfl⟩ | ⟨rfl, rfl⟩ | ⟨rfl, rfl⟩ | ⟨rfl, rfl⟩ | ⟨rfl, rfl⟩
    · cases body <;> exact ⟨rfl, rfl⟩
    all_goals exact ⟨rfl, rfl⟩
  unfold lexeme
  rw [hStart.1, hStart.2]
  exact hString

/- A literal starts with neither a blank nor a comment. -/
theorem bare_quoted (hEncoding : (mark, elem) ∈ encodings) (rest : Bytes) :
    Bare (quoted mark cs ++ rest) := by
  have hFirst : ∃ b s, quoted mark cs ++ rest = b :: s ∧ b ∈ ascii "\"uLU" := by
    simp only [encodings, List.mem_cons, Prod.mk.injEq, List.not_mem_nil, or_false] at hEncoding
    rcases hEncoding with h | h | h | h | h <;> rw [h.1]
    all_goals exact ⟨_, _, rfl, by decide⟩
  obtain ⟨b, s, hText, hMark⟩ := hFirst
  have hBlank : ∀ b ∈ ascii "\"uLU", b ≠ 0x2F ∧ Bytes.isSpace b = false := by decide +kernel
  obtain ⟨hSlash, hSpace⟩ := hBlank b hMark
  rw [hText]
  refine ⟨?_, ?_, ?_⟩
  · rintro ⟨tail, hSame⟩
    exact hSlash (List.cons.inj hSame).1.symm
  · rintro ⟨tail, hSame⟩
    exact hSlash (List.cons.inj hSame).1.symm
  · intro c hc
    cases hc
    exact hSpace

/- Nothing alone has no token. -/
theorem reads_nothing (cfg : Config) (f : SourceFile) (shownName : Bytes) (start : Bool)
    {c : Cursor} (hText : c.text = []) :
    ∃ eof, Reads cfg f shownName ⟨start, false⟩ c (.ok [eof]) ∧ eof.isEof = true := by
  have hSkip : skipBlanks ⟨start, false⟩ c = .ok (⟨start, false⟩, c) := by
    apply skipBlanks_of_bare
    rw [hText]
    exact bare_nil
  have hNext : next cfg f shownName ⟨start, false⟩ c =
      .ok (makeToken f shownName ⟨start, false⟩ .eof c.offset
        (f.position c.offset).line [], c) := by
    unfold next
    rw [hSkip]
    exact if_pos (by simp [hText])
  exact ⟨_, .last hNext rfl, rfl⟩

/-
  A file that consists of a literal is read as one string that
  holds the characters in its encoding, with a zero behind.
-/
theorem lexFile_quoted (cfg : Config) (f : SourceFile) (shownName : Bytes)
    (hEncoding : (mark, elem) ∈ encodings) (hPlain : ∀ c ∈ cs, Plain c)
    (hText : f.contents = quoted mark cs ∨
      f.contents = quoted mark cs ++ [0x0A]) :
    ∃ t eof, (lexFile cfg f shownName).result = .ok [t, eof] ∧
      t.kind = .str elem (held elem cs) ∧ t.text = quoted mark cs ∧
      t.stringLength = units elem cs ∧ eof.kind = .eof := by
  obtain ⟨ending, hContents, hEnding⟩ : ∃ ending, f.contents = quoted mark cs ++ ending ∧
        (ending = [] ∨ ending = [0x0A]) := by
    rcases hText with hText | hText
    · exact ⟨[], by rw [hText, List.append_nil], .inl rfl⟩
    · exact ⟨[0x0A], hText, .inr rfl⟩
  -- The token as a text would hold it if it were printed.
  let t : Token := { (default : Token) with
    kind := .str elem (held elem cs), text := quoted mark cs }
  have hStands : Stands cfg t ending :=
    ⟨by simp [t, quoted], bare_quoted hEncoding ending, lexeme_quoted cfg hEncoding hPlain ending⟩
  obtain ⟨u, c', hNext, hMore, hRest, hCore⟩ :=
    next_printed f shownName true hStands (c := ⟨0, 1, f.contents⟩) hContents
  obtain ⟨eof, hLast, hEof⟩ : ∃ eof, Reads cfg f shownName ⟨false, false⟩ c' (.ok [eof]) ∧
        eof.isEof = true := by
    rcases hEnding with rfl | rfl
    · exact reads_nothing cfg f shownName false hRest
    · exact reads_newline cfg f shownName false hRest
  have hReads := (lexFile_reads cfg f shownName).unique (.more hNext hMore hLast)
  have hKind : u.kind = .str elem (held elem cs) := congrArg Prod.fst hCore
  refine ⟨u, eof, hReads, hKind, congrArg (fun core => core.2.1) hCore, ?_, by
      simpa [Token.isEof] using hEof⟩
  rw [Token.stringLength, hKind]
  exact length_held hEncoding cs

/- Characters of two and of three bytes, and a pair of surrogates. -/
theorem lexFile_quoted_pair :
    (ascii "u", .ushort) ∈ encodings ∧ (∀ c ∈ ['é', '€', '😀'], Plain c) ∧
      ∃ t eof, (lexFile {} ⟨1, ascii "a.c", 1,
          quoted (ascii "u") ['é', '€', '😀']⟩ (ascii "a.c")).result =
          .ok [t, eof] ∧ t.kind = .str .ushort
          [0xE9, 0x00, 0xAC, 0x20, 0x3D, 0xD8, 0x00, 0xDE, 0, 0] ∧
        t.text = quoted (ascii "u") ['é', '€', '😀'] ∧
        t.stringLength = 5 ∧ eof.kind = .eof := by
  have hEncoding : (ascii "u", .ushort) ∈ encodings := by decide
  have hPlain : ∀ c ∈ ['é', '€', '😀'], Plain c := by simp [Plain]
  exact ⟨hEncoding, hPlain, lexFile_quoted {} _ (ascii "a.c") hEncoding hPlain (.inl rfl)⟩

end Lexer

end CCompiler
