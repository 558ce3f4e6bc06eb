import Mathlib
import CCompiler.Text.Utf8

/-
  The codec and the standard encoding of scalar values.

  What is encoded is decoded again, whatever follows it, for
  every number that the pattern of four bytes has room for.
  For a scalar value the bytes are those of the standard.

  The other way round the bytes that are read are the sequence
  of their length for the code point.  The encoding is the
  sequence of least length, so it gives back what was read
  unless fewer bytes would have done.

  Main declarations:
    * `Utf8.decode?_encode`
    * `Utf8.encode_char`, `Utf8.decode?_char`
    * `Utf8.standard`, `Utf8.encode_eq_standard`
    * `Utf8.sequence`, `Utf8.sequence_of_decode?`
    * `Utf8.encode_prefix_code`
-/

namespace CCompiler

namespace Utf8

------------
-- Bytes of Sequences
------------

/- A continuation byte gives back its six bits. -/
theorem payload?_continuation (c shift : Nat) :
    payload? (continuation c shift) = some ((c >>> shift) % 64) := by
  have hAll : ∀ k < 64, payload? (UInt8.ofNat (0x80 + k)) = some k := by decide +kernel
  exact hAll _ (Nat.mod_lt _ (by decide))

variable {k : Nat}

/- The leading bytes of each length, with the bits that they hold. -/
theorem leading_bits :
    (∀ k < 32, ∀ b, b = UInt8.ofNat (0xC0 ||| k) → ¬ b < 0x80 ∧ ¬ 0xF0 ≤ b ∧ ¬ 0xE0 ≤ b ∧
        0xC0 ≤ b ∧ (b &&& 0x1F).toNat = k) ∧
      (∀ k < 16, ∀ b, b = UInt8.ofNat (0xE0 ||| k) → ¬ b < 0x80 ∧ ¬ 0xF0 ≤ b ∧ 0xE0 ≤ b ∧
        (b &&& 0x0F).toNat = k) ∧
      ∀ k < 8, ∀ b, b = UInt8.ofNat (0xF0 ||| k) →
        ¬ b < 0x80 ∧ 0xF0 ≤ b ∧ (b &&& 0x07).toNat = k := by
  simp only [forall_eq]
  decide +kernel

/- A leading byte is that of its length, and gives back its bits. -/
theorem leading_two (hSmall : k < 32) (rest : Bytes) :
    decode? (UInt8.ofNat (0xC0 ||| k) :: rest) = continuations? 1 k rest := by
  obtain ⟨hPlain, hFour, hThree, hTwo, hBits⟩ := leading_bits.1 k hSmall _ rfl
  simp only [decode?, if_neg hPlain, if_neg hFour, if_neg hThree, if_pos hTwo, hBits]

theorem leading_three (hSmall : k < 16) (rest : Bytes) :
    decode? (UInt8.ofNat (0xE0 ||| k) :: rest) = continuations? 2 k rest := by
  obtain ⟨hPlain, hFour, hThree, hBits⟩ := leading_bits.2.1 k hSmall _ rfl
  simp only [decode?, if_neg hPlain, if_neg hFour, if_pos hThree, hBits]

theorem leading_four (hSmall : k < 8) (rest : Bytes) :
    decode? (UInt8.ofNat (0xF0 ||| k) :: rest) = continuations? 3 k rest := by
  obtain ⟨hPlain, hFour, hBits⟩ := leading_bits.2.2 k hSmall _ rfl
  simp only [decode?, if_neg hPlain, if_pos hFour, hBits]

theorem continuations?_cons (n c d shift : Nat) (rest : Bytes) :
    continuations? (n + 1) c (continuation d shift :: rest) =
      continuations? n (c * 64 + (d >>> shift) % 64) rest := by
  rw [continuations?, payload?_continuation]

------------
-- Encoding and Decoding
------------

/- What is encoded is decoded again. -/
theorem decode?_encode {c : Nat} (hRoom : c < 0x200000) (rest : Bytes) :
    decode? (encode c ++ rest) = some (c, rest) := by
  have hHigh : ∀ n, c >>> n = c / 2 ^ n := Nat.shiftRight_eq_div_pow c
  unfold encode
  split
  · have hSmall : (UInt8.ofNat c).toNat = c := UInt8.toNat_ofNat_of_lt' (show c < 256 by omega)
    have hPlain : UInt8.ofNat c < 0x80 := by
      rw [UInt8.lt_iff_toNat_lt, hSmall]
      exact show c < 128 by omega
    rw [List.singleton_append, decode?, if_pos hPlain, hSmall]
  split
  · have hBits : c / 2 ^ 6 * 64 + c / 2 ^ 0 % 64 = c := by omega
    rw [leading, List.cons_append, leading_two (by rw [hHigh]; omega),
      List.cons_append, List.nil_append, continuations?_cons 0,
      continuations?, hHigh, hHigh, hBits]
  split
  · have hBits : (c / 2 ^ 12 * 64 + c / 2 ^ 6 % 64) * 64 + c / 2 ^ 0 % 64 = c := by omega
    rw [leading, List.cons_append, leading_three (by rw [hHigh]; omega),
      List.cons_append, List.cons_append, List.nil_append,
      continuations?_cons 1, continuations?_cons 0, continuations?,
      hHigh, hHigh, hHigh, hBits]
  · have hBits : ((c / 2 ^ 18 * 64 + c / 2 ^ 12 % 64) * 64 +
        c / 2 ^ 6 % 64) * 64 + c / 2 ^ 0 % 64 = c := by omega
    rw [leading, List.cons_append, leading_four (by rw [hHigh]; omega),
      List.cons_append, List.cons_append, List.cons_append,
      List.nil_append, continuations?_cons 2, continuations?_cons 1,
      continuations?_cons 0, continuations?, hHigh, hHigh, hHigh, hHigh, hBits]

------------
-- Scalar Values
------------

theorem toNat_lt (c : Char) : c.toNat < 0x110000 := by
  rcases c.valid with hLow | ⟨-, hHigh⟩
  · exact Nat.lt_trans hLow (by decide)
  · exact hHigh

variable {marker shift : Nat}

/- The mark of a leading byte is added to its bits. -/
theorem leading_eq {n c : Nat} (hMarker : 2 ^ n ∣ marker) (hSmall : c / 2 ^ shift < 2 ^ n) :
    leading marker c shift = UInt8.ofNat (c / 2 ^ shift % 2 ^ n + marker) := by
  obtain ⟨m, rfl⟩ := hMarker
  rw [leading, Nat.shiftRight_eq_div_pow, Nat.mod_eq_of_lt hSmall,
    ← Nat.two_pow_add_eq_or_of_lt hSmall, Nat.add_comm]

theorem continuation_eq (c shift : Nat) :
    continuation c shift = UInt8.ofNat (c / 2 ^ shift % 64 + 0x80) := by
  rw [continuation, Nat.shiftRight_eq_div_pow, Nat.add_comm]

/- The encoding of a scalar value is that of the standard. -/
theorem encode_char (c : Char) : encode c.toNat = String.utf8EncodeChar c := by
  have hBound := toNat_lt c
  unfold encode String.utf8EncodeChar
  change _ = if c.toNat ≤ 0x7f then _ else if c.toNat ≤ 0x7ff then _
    else if c.toNat ≤ 0xffff then _ else _
  split
  · rfl
  split
  · rw [leading_eq (n := 5) (by decide) (by omega)]
    simp [continuation_eq]
  split
  · rw [leading_eq (n := 4) (by decide) (by omega)]
    simp [continuation_eq]
  · rw [leading_eq (n := 3) (by decide) (by omega)]
    simp [continuation_eq]

/- A scalar value in standard form is decoded. -/
theorem decode?_char (c : Char) (rest : Bytes) :
    decode? (String.utf8EncodeChar c ++ rest) = some (c.toNat, rest) := by
  rw [← encode_char]
  exact decode?_encode (Nat.lt_trans (toNat_lt c) (by decide)) rest

/- The encoding of the standard, in its arithmetic. -/
def standard (c : Nat) : Bytes :=
  List.map UInt8.ofNat <|
    if c < 0x80 then [c]
    else if c < 0x800 then [0xC0 + c / 64, 0x80 + c % 64]
    else if c < 0x10000 then
      [0xE0 + c / 4096, 0x80 + c / 64 % 64, 0x80 + c % 64]
    else
      [0xF0 + c / 262144, 0x80 + c / 4096 % 64,
        0x80 + c / 64 % 64, 0x80 + c % 64]

/- The mark of a leading byte is a sum, and so is a continuation byte. -/
theorem encode_eq_standard {c : Nat} (hRoom : c < 0x200000) : encode c = standard c := by
  rw [encode, standard]
  by_cases hOne : c < 0x80
  · rw [if_pos (show c ≤ 0x7F by omega), if_pos hOne]
    rfl
  rw [if_neg (show ¬ c ≤ 0x7F by omega), if_neg hOne]
  by_cases hTwo : c < 0x800
  · rw [if_pos (show c ≤ 0x7FF by omega), if_pos hTwo,
      leading_eq (n := 5) (by decide) (by omega), Nat.mod_eq_of_lt (by omega)]
    simp [continuation_eq, Nat.add_comm]
  rw [if_neg (show ¬ c ≤ 0x7FF by omega), if_neg hTwo]
  by_cases hThree : c < 0x10000
  · rw [if_pos (show c ≤ 0xFFFF by omega), if_pos hThree,
      leading_eq (n := 4) (by decide) (by omega), Nat.mod_eq_of_lt (by omega)]
    simp [continuation_eq, Nat.add_comm]
  · rw [if_neg (show ¬ c ≤ 0xFFFF by omega), if_neg hThree,
      leading_eq (n := 3) (by decide) (by omega), Nat.mod_eq_of_lt (by omega)]
    simp [continuation_eq, Nat.add_comm]

------------
-- Sequences
------------

/- The continuation bytes for the low bits of a code point. -/
def following (n c : Nat) : Bytes :=
  (List.range n).reverse.map fun i => continuation c (6 * i)

/-
  The sequence of so many bytes for a code point, also where
  fewer bytes would do.
-/
def sequence : Nat → Nat → Bytes
| 1, c => [UInt8.ofNat c]
| 2, c => leading 0xC0 c 6 :: following 1 c
| 3, c => leading 0xE0 c 12 :: following 2 c
| _, c => leading 0xF0 c 18 :: following 3 c

/- The number of bytes that a code point takes up at least. -/
def width (c : Nat) : Nat :=
  if c ≤ 0x7F then 1 else if c ≤ 0x7FF then 2 else if c ≤ 0xFFFF then 3 else 4

variable {c d n : Nat} {b : UInt8} {s t rest : Bytes}

theorem encode_eq_sequence (c : Nat) : encode c = sequence (width c) c := by
  unfold encode width
  split
  · rfl
  split
  · rfl
  split <;> rfl

theorem length_encode (c : Nat) : (encode c).length = width c := by
  unfold encode width
  split
  · rfl
  split
  · rfl
  split <;> rfl

theorem following_succ (n c : Nat) :
    following (n + 1) c = continuation c (6 * n) :: following n c := by
  simp [following, List.range_succ]

/- A byte with payload bits is the continuation byte of these bits. -/
theorem eq_of_payload? (hPayload : payload? b = some k) : k < 64 ∧ b = UInt8.ofNat (0x80 + k) := by
  have hAll : ∀ m < 256, UInt8.ofNat m >>> 6 = 2 → (UInt8.ofNat m &&& 0x3F).toNat < 64 ∧
        UInt8.ofNat m = UInt8.ofNat (0x80 + (UInt8.ofNat m &&& 0x3F).toNat) := by
    decide +kernel
  unfold payload? at hPayload
  split at hPayload
  · rename_i hHigh
    cases hPayload
    simpa using hAll b.toNat b.toNat_lt (by simpa using hHigh)
  · cases hPayload

/- What is read as continuation bytes are those of the code point. -/
theorem following_of_continuations? {hi : Nat} (hRead : continuations? n hi s = some (c, rest)) :
    s = following n c ++ rest ∧ c / 64 ^ n = hi := by
  induction n generalizing hi s with
  | zero =>
    cases hRead
    simp [following]
  | succ n ih =>
    cases s with
    | nil => cases hRead
    | cons b s =>
      simp only [continuations?] at hRead
      split at hRead
      · rename_i k hPayload
        obtain ⟨hSmall, rfl⟩ := eq_of_payload? hPayload
        obtain ⟨rfl, hHigh⟩ := ih hRead
        have hBits : (c >>> (6 * n)) % 64 = k := by
          rw [Nat.shiftRight_eq_div_pow, pow_mul, show 2 ^ 6 = 64 from rfl, hHigh]
          omega
        rw [following_succ, continuation, hBits, List.cons_append, pow_succ,
          ← Nat.div_div_eq_div_mul, hHigh]
        exact ⟨rfl, by omega⟩
      · cases hRead

/- A leading byte is the mark of its length with its bits. -/
theorem leading_of_bits {mask : Nat} (hLead : b = UInt8.ofNat (marker ||| mask))
    (hBits : c / 64 ^ n = mask) (hShift : shift = 6 * n) : b = leading marker c shift := by
  subst hShift
  rw [hLead, leading, Nat.shiftRight_eq_div_pow, pow_mul, show 2 ^ 6 = 64 from rfl, hBits]

/- What a leading byte of a longer sequence holds. -/
theorem bits_of_leading :
    (0xC0 ≤ b → b < 0xE0 → (b &&& 0x1F).toNat < 32 ∧
        b = UInt8.ofNat (0xC0 ||| (b &&& 0x1F).toNat)) ∧
      (0xE0 ≤ b → b < 0xF0 → (b &&& 0x0F).toNat < 16 ∧
        b = UInt8.ofNat (0xE0 ||| (b &&& 0x0F).toNat)) ∧
      (0xF0 ≤ b → b < 0xF8 → (b &&& 0x07).toNat < 8 ∧
        b = UInt8.ofNat (0xF0 ||| (b &&& 0x07).toNat)) := by
  have hAll : ∀ m < 256, ∀ b, b = UInt8.ofNat m → (0xC0 ≤ b → b < 0xE0 → (b &&& 0x1F).toNat < 32 ∧
        b = UInt8.ofNat (0xC0 ||| (b &&& 0x1F).toNat)) ∧
      (0xE0 ≤ b → b < 0xF0 → (b &&& 0x0F).toNat < 16 ∧
        b = UInt8.ofNat (0xE0 ||| (b &&& 0x0F).toNat)) ∧
      (0xF0 ≤ b → b < 0xF8 → (b &&& 0x07).toNat < 8 ∧
        b = UInt8.ofNat (0xF0 ||| (b &&& 0x07).toNat)) := by
    simp only [forall_eq]
    decide +kernel
  exact hAll b.toNat b.toNat_lt b UInt8.ofNat_toNat.symm

/-
  What is decoded has room in as many bytes as the first byte
  says, and those bytes are its sequence of this length.
-/
theorem sequence_of_decode? (hLead : b < 0xF8) (hRead : decode? (b :: s) = some (c, rest)) :
    c < 0x200000 ∧ width c ≤ leadLength b ∧ b :: s = sequence (leadLength b) c ++ rest := by
  obtain ⟨hTwo, hThree, hFour⟩ := bits_of_leading (b := b)
  simp only [decode?] at hRead
  unfold leadLength width
  split at hRead
  · rename_i hPlain
    cases hRead
    have hSmall : b.toNat < 128 := hPlain
    rw [if_pos hPlain, if_pos (by omega)]
    exact ⟨by omega, le_rfl, by simp [sequence]⟩
  rename_i hHigh
  rw [if_neg hHigh]
  split at hRead
  · rename_i hLong
    obtain ⟨rfl, hBits⟩ := following_of_continuations? hRead
    obtain ⟨hSmall, hByte⟩ := hFour hLong hLead
    rw [if_pos hLong]
    refine ⟨by omega, by split_ifs <;> decide, ?_⟩
    rw [leading_of_bits hByte hBits rfl]
    rfl
  rename_i hNotLong
  rw [if_neg hNotLong]
  split at hRead
  · rename_i hLong
    obtain ⟨rfl, hBits⟩ := following_of_continuations? hRead
    obtain ⟨hSmall, hByte⟩ := hThree hLong (UInt8.not_le.mp hNotLong)
    rw [if_pos hLong]
    refine ⟨by omega, by split_ifs <;> omega, ?_⟩
    rw [leading_of_bits hByte hBits rfl]
    rfl
  rename_i hNotThree
  rw [if_neg hNotThree]
  split at hRead
  · rename_i hLong
    obtain ⟨rfl, hBits⟩ := following_of_continuations? hRead
    obtain ⟨hSmall, hByte⟩ := hTwo hLong (UInt8.not_le.mp hNotThree)
    refine ⟨by omega, by split_ifs <;> omega, ?_⟩
    rw [leading_of_bits hByte hBits rfl]
    rfl
  · cases hRead

------------
-- A Prefix Code
------------

/- No sequence with fewer bytes stands for the same code point. -/
def Shortest (c : Nat) (s : Bytes) : Prop :=
  ∀ t, decode? t = some (c, []) → s.length ≤ t.length

/- The code point at a position, with the number of its bytes. -/
def decodeAt? (s : Bytes) (i : Nat) : Option (Nat × Nat) :=
  (decode? (s.drop i)).map fun (c, rest) =>
    (c, (s.drop i).length - rest.length)

/- The encoding of a code point has fewest bytes. -/
theorem shortest_encode (c : Nat) : Shortest c (encode c) := by
  intro t hRead
  cases t with
  | nil => cases hRead
  | cons b t =>
    have hLength := decode?_length hRead
    have hWidth : width c ≤ leadLength b := by
      by_cases hLead : b < 0xF8
      · exact (sequence_of_decode? hLead hRead).2.1
      · have hFour : leadLength b = 4 := by
          have hByte : ¬ b.toNat < 248 := hLead
          have hHigh : ¬ b < 0x80 := fun h => hByte
            (Nat.lt_trans (show b.toNat < 128 from h) (by decide))
          have hLong : 0xF0 ≤ b := show 240 ≤ b.toNat by omega
          rw [leadLength, if_neg hHigh, if_pos hLong]
        rw [hFour]
        unfold width
        split_ifs <;> decide
    rw [length_encode, List.length_cons]
    simp only [List.length_nil] at hLength
    omega

/-
  What is decoded without more bytes than needed is encoded as
  it was.
-/
theorem shortest_iff (hLead : b < 0xF8) (hRead : decode? (b :: s) = some (c, rest)) :
    Shortest c (sequence (leadLength b) c) ↔ encode c = sequence (leadLength b) c := by
  obtain ⟨hRoom, hWidth, hSplit⟩ := sequence_of_decode? hLead hRead
  constructor
  · intro hShortest
    have hLeast := hShortest (encode c) (by simpa using decode?_encode hRoom [])
    have hAll := congrArg List.length hSplit
    have hLength := decode?_length hRead
    rw [List.length_append, List.length_cons] at hAll
    rw [length_encode] at hLeast
    rw [encode_eq_sequence, show width c = leadLength b by omega]
  · intro hSame
    exact hSame ▸ shortest_encode c

/-
  The codec is a prefix code.  An encoded code point is decoded
  in whatever text it stands, so no encoding is the start of
  another one.  What is decoded from a leading byte of up to
  four bytes is encoded by those bytes if and only if no fewer
  bytes stand for it.
-/
theorem encode_prefix_code :
    (∀ c < 0x200000, ∀ before behind, decodeAt? (before ++ encode c ++ behind) before.length =
        some (c, (encode c).length)) ∧
    (∀ c < 0x200000, ∀ d < 0x200000, encode c <+: encode d → c = d) ∧
    ∀ s i b c n, s[i]? = some b → b < 0xF8 → decodeAt? s i = some (c, n) →
      (Shortest c ((s.drop i).take n) ↔ encode c = (s.drop i).take n) := by
  refine ⟨fun c hRoom before behind => ?_, fun c hLeft d hRight hPrefix => ?_,
    fun s i b c n hByte hLead hRead => ?_⟩
  · have hDrop : (before ++ encode c ++ behind).drop before.length = encode c ++ behind := by simp
    rw [decodeAt?, hDrop, decode?_encode hRoom]
    simp
  · obtain ⟨rest, hRest⟩ := hPrefix
    have hSame := decode?_encode hLeft rest
    rw [hRest] at hSame
    have hOther := decode?_encode hRight []
    rw [List.append_nil, hSame] at hOther
    exact congrArg Prod.fst (Option.some.inj hOther)
  · obtain ⟨hBound, rfl⟩ := List.getElem?_eq_some_iff.mp hByte
    rw [decodeAt?, List.drop_eq_getElem_cons hBound] at hRead
    rw [List.drop_eq_getElem_cons hBound]
    obtain ⟨⟨d, rest⟩, hRun, hPair⟩ := Option.map_eq_some_iff.mp hRead
    cases hPair
    have hSplit := (sequence_of_decode? hLead hRun).2.2
    have hTake : (s[i] :: s.drop (i + 1)).take ((s[i] :: s.drop (i + 1)).length - rest.length) =
          sequence (leadLength s[i]) c := by
      rw [hSplit, List.length_append, Nat.add_sub_cancel, List.take_left]
    rw [hTake]
    exact shortest_iff hLead hRun

/- A code point of three bytes in a text, and one with a byte too many. -/
theorem encode_prefix_code_wide :
    decodeAt? (ascii "a" ++ encode 0x3042 ++ ascii "b") 1 = some (0x3042, 3) ∧
      (Shortest 0x41 [0xC1, 0x81] ↔ encode 0x41 = [0xC1, 0x81]) := by
  obtain ⟨hDecoded, -, hShortest⟩ := encode_prefix_code
  exact ⟨hDecoded 0x3042 (by decide) (ascii "a") (ascii "b"),
    hShortest [0xC1, 0x81] 0 0xC1 0x41 2 rfl (by decide) (by decide)⟩

end Utf8

end CCompiler
