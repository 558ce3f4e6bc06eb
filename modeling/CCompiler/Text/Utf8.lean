import CCompiler.Text.Bytes

/-
  This file defines the UTF-8 codec.  It is the plain bit
  pattern of one to four bytes: surrogate halves and overlong
  forms are neither produced specially nor refused, since a
  universal character name may spell a surrogate and a source
  file may hold any bytes.

  Key definitions include:
    * `Utf8.encode`, `Utf8.encodeWord`
    * `Utf8.decode?`
    * `Utf8.codePoints`
    * `Utf8.isStrict`
-/

namespace CCompiler

namespace Utf8

------------
-- Encoding
------------

/- The six bits of a code point from a position on, as a continuation byte. -/
def continuation (c shift : Nat) : UInt8 :=
  UInt8.ofNat (0x80 + (c >>> shift) % 64)

/- The marker of a leading byte together with the high bits of a code point. -/
def leading (marker c shift : Nat) : UInt8 :=
  UInt8.ofNat (marker ||| c >>> shift)

/-
  The encoding of a code point.  Values beyond the code space
  are cut to the bits that fit the four-byte pattern.
-/
def encode (c : Nat) : Bytes :=
  if c ≤ 0x7F then [UInt8.ofNat c]
  else if c ≤ 0x7FF then [leading 0xC0 c 6, continuation c 0]
  else if c ≤ 0xFFFF then [leading 0xE0 c 12, continuation c 6, continuation c 0]
  else [leading 0xF0 c 18, continuation c 12, continuation c 6, continuation c 0]

/- The encoding of a signed word; a negative one gives its low byte. -/
def encodeWord (c : Int32) : Bytes :=
  if c < 0 then [c.toUInt32.toUInt8] else encode c.toInt.toNat

------------
-- Decoding
------------

/- The six payload bits of a continuation byte. -/
def payload? (b : UInt8) : Option Nat :=
  if b >>> 6 == 2 then some (b &&& 0x3F).toNat else none

/- Read `n` continuation bytes after the bits read so far. -/
def continuations? : Nat → Nat → Bytes → Option (Nat × Bytes)
| 0, c, rest => some (c, rest)
| _ + 1, _, [] => none
| n + 1, c, b :: rest =>
  match payload? b with
  | some bits => continuations? n (c * 64 + bits) rest
  | none => none

/-
  The first code point of a text and what follows it.  A
  malformed sequence, and the empty text, give `none`.
-/
def decode? : Bytes → Option (Nat × Bytes)
| [] => none
| b :: rest =>
  if b < 0x80 then some (b.toNat, rest)
  else if 0xF0 ≤ b then continuations? 3 (b &&& 0x07).toNat rest
  else if 0xE0 ≤ b then continuations? 2 (b &&& 0x0F).toNat rest
  else if 0xC0 ≤ b then continuations? 1 (b &&& 0x1F).toNat rest
  else none

/- The length of the sequence that a byte starts. -/
def leadLength (b : UInt8) : Nat :=
  if b < 0x80 then 1
  else if 0xF0 ≤ b then 4
  else if 0xE0 ≤ b then 3
  else 2

/- Continuation bytes are taken off the front, one for each that is read. -/
theorem continuations?_length {n c d : Nat} {s rest : Bytes}
    (h : continuations? n c s = some (d, rest)) : rest.length + n = s.length := by
  induction n generalizing c s with
  | zero =>
    simp only [continuations?, Option.some.injEq, Prod.mk.injEq] at h
    simp [h.2]
  | succ n ih =>
    cases s with
    | nil => simp [continuations?] at h
    | cons b s =>
      simp only [continuations?] at h
      split at h
      · have := ih h
        simp only [List.length_cons]
        omega
      · simp at h

/- Decoding uses up the sequence that the first byte starts. -/
theorem decode?_length {b : UInt8} {c : Nat} {tail rest : Bytes}
    (h : decode? (b :: tail) = some (c, rest)) : rest.length + leadLength b = tail.length + 1 := by
  simp only [decode?] at h
  unfold leadLength
  split at h
  · rename_i hb
    simp only [Option.some.injEq, Prod.mk.injEq] at h
    simp [hb, h.2]
  · rename_i hb
    split at h
    · rename_i h4
      have := continuations?_length h
      simp only [hb, h4, if_true, if_false]
      omega
    · rename_i h4
      split at h
      · rename_i h3
        have := continuations?_length h
        simp only [hb, h4, h3, if_true, if_false]
        omega
      · rename_i h3
        split at h
        · have := continuations?_length h
          simp only [hb, h4, h3, if_false]
          omega
        · simp at h

/- Decoding uses up at least one byte. -/
theorem decode?_length_lt {c : Nat} {s rest : Bytes} (h : decode? s = some (c, rest)) :
    rest.length < s.length := by
  cases s with
  | nil => simp [decode?] at h
  | cons b s =>
    have hl := decode?_length h
    have : 1 ≤ leadLength b := by
      unfold leadLength
      repeat' split
      all_goals decide
    simp only [List.length_cons]
    omega

/-
  The code points of a text from left to right.  A byte that
  starts no valid sequence stands for itself as `none`.
-/
def codePoints : Bytes → List (Option Nat × UInt8)
| [] => []
| b :: tail =>
  match hd : decode? (b :: tail) with
  | some (c, rest) =>
    have : rest.length < (b :: tail).length := decode?_length_lt hd
    (some c, b) :: codePoints rest
  | none => (none, b) :: codePoints tail
termination_by s => s.length
decreasing_by
  · assumption
  · exact Nat.lt_succ_self tail.length

------------
-- Strict validity
------------

/- Whether a code point is a scalar value: at most U+10FFFF and no surrogate. -/
def isScalar (c : Nat) : Bool :=
  c ≤ 0x10FFFF && !(0xD800 ≤ c && c ≤ 0xDFFF)

/-
  The first scalar value of a text in the strict sense: no
  surrogates, no overlong forms and at most U+10FFFF.
-/
def scalar? (s : Bytes) : Option (Nat × Bytes) :=
  match decode? s with
  | some (c, rest) =>
    if isScalar c && s.startsWith (encode c) then some (c, rest) else none
  | none => none

/- Strict decoding uses up at least one byte. -/
theorem scalar?_length_lt {c : Nat} {s rest : Bytes} (h : scalar? s = some (c, rest)) :
    rest.length < s.length := by
  unfold scalar? at h
  split at h
  · rename_i d r hd
    split at h
    · simp only [Option.some.injEq, Prod.mk.injEq] at h
      rw [← h.2]
      exact decode?_length_lt hd
    · simp at h
  · simp at h

/-
  The scalar values of a text, with the byte itself wherever
  none starts.
-/
def scalars : Bytes → List (Sum Nat UInt8)
| [] => []
| b :: tail =>
  match hd : scalar? (b :: tail) with
  | some (c, rest) =>
    have : rest.length < (b :: tail).length := scalar?_length_lt hd
    .inl c :: scalars rest
  | none => .inr b :: scalars tail
termination_by s => s.length
decreasing_by
  · assumption
  · exact Nat.lt_succ_self tail.length

/- Whether a text is valid UTF-8 in the strict sense. -/
def isStrict (s : Bytes) : Bool :=
  (scalars s).all fun
    | .inl _ => true
    | .inr _ => false

end Utf8

end CCompiler
