import Mathlib
import CCompiler.Preprocess.Expansion

/-
  Tokens that are made up while macros are expanded.

  Whatever is made, the macros stay as they are, the token
  does not start a line, and a failure is a fault or says that
  two joined tokens gave none.  A token made for a macro that
  is worked out is no name and no parenthesis.

  Main declarations:
    * `Expansion.Fine`, `Expansion.Gives`
    * `Lexer.first_inert`
    * `Expansion.gives_paste`, `Expansion.gives_stringize`
    * `Expansion.gives_builtinToken`
-/

------------
-- Outcomes
------------

namespace CCompiler

/- What succeeds in two steps succeeds in each. -/
theorem exists_of_bind_ok {ε α β : Type} {x : Except ε α} {f : α → Except ε β} {b : β}
    (hOk : (x >>= f) = .ok b) : ∃ a, x = .ok a ∧ f a = .ok b := by
  cases x with
  | error _ => cases hOk
  | ok a => exact ⟨a, rfl, hOk⟩

namespace Expansion

/-
  The failures that end an expansion: faults, joined tokens
  that give none, and, if some body allows it, a walk past the
  end of that body.
-/
def Fine (dangling : Prop) : Failure → Prop
| .fault _ _ => True
| .crash .nothingPasted => True
| .crash .pastEnd => dangling
| _ => False

/- What a computation gives in a state, without a new macro. -/
def Gives
    {α : Type}
    (dangling : Prop)
    (s : Session)
    (x : Pre α)
    (Q : α → Prop) : Prop :=
  match x s with
  | .ok a s' => s'.macros = s.macros ∧ Q a
  | .error e _ => Fine dangling e

variable {α β : Type} {dangling : Prop} {s : Session}

variable {Q : α → Prop}

theorem gives_pure {a : α} (hPost : Q a) :
    Gives dangling s (pure a) Q := ⟨rfl, hPost⟩

theorem Gives.bind {x : Pre α} {f : α → Pre β} {Q : α → Prop} {R : β → Prop}
    (hFirst : Gives dangling s x Q)
    (hNext : ∀ a s', s'.macros = s.macros → Q a → Gives dangling s' (f a) R) :
    Gives dangling s (x >>= f) R := by
  change match EStateM.bind x f s with
    | .ok b s' => _ | .error e _ => _
  unfold Gives at hFirst
  unfold EStateM.bind
  cases hRun : x s with
  | error e s' => simpa only [hRun] using hFirst
  | ok a s' =>
    simp only [hRun] at hFirst ⊢
    have hAfter := hNext a s' hFirst.1 hFirst.2
    unfold Gives at hAfter
    rw [hFirst.1] at hAfter
    exact hAfter

theorem Gives.mono {x : Pre α} {R : α → Prop} (hGives : Gives dangling s x Q)
    (hPost : ∀ a, Q a → R a) : Gives dangling s x R := by
  unfold Gives at hGives ⊢
  split at hGives
  · exact ⟨hGives.1, hPost _ hGives.2⟩
  · exact hGives

theorem gives_fail (t : Token) (cause : Fault) (Q : α → Prop) :
    Gives dangling s (Pre.fail t cause) Q := trivial

theorem gives_get {Q : Session → Prop} (hPost : Q s) :
    Gives dangling s get Q := ⟨rfl, hPost⟩

theorem gives_modify {f : Session → Session} (hMacros : (f s).macros = s.macros) :
    Gives dangling s (modify f) (fun _ => True) := ⟨hMacros, trivial⟩

theorem gives_shownOf (t : Token) : Gives dangling s (Pre.shownOf t) (fun _ => True) :=
  ⟨rfl, trivial⟩

theorem gives_say (m : Message) : Gives dangling s (Pre.say m) (fun _ => True) := by
  unfold Pre.say
  split
  · exact gives_pure trivial
  · exact gives_modify rfl

end Expansion

------------
-- Texts That Are Read
------------

/- A token that neither ends a list nor starts a line. -/
structure Token.Plain (t : Token) : Prop where
  isEof : t.isEof = false
  atLineStart : t.atLineStart = false

instance  (t : Token) : Decidable t.Plain :=
  decidable_of_iff (t.isEof = false ∧ t.atLineStart = false)
    ⟨fun h => ⟨h.1, h.2⟩, fun h => ⟨h.isEof, h.atLineStart⟩⟩

/- A token that is no name and closes no argument list. -/
structure Token.Inert (t : Token) : Prop where
  notIdent : t.isIdent = false
  notClose : t.is ")" = false

/- A byte that starts a string, a number or a sign. -/
def Bytes.Leading (b : UInt8) : Prop :=
  b = 0x22 ∨ b = 0x2D ∨ Bytes.isDigit b = true

/- Digits are spelled with one byte each. -/
theorem spelled_digits {cs : List Char} (hDigits : ∀ c ∈ cs, c.isDigit = true) :
    cs.utf8Encode.data.toList.length = cs.length ∧ ∀ b ∈ cs.utf8Encode.data.toList,
        Bytes.isDigit b = true := by
  induction cs with
  | nil => simp
  | cons c cs ih =>
    rw [List.forall_mem_cons] at hDigits
    obtain ⟨hLow, hHigh⟩ := Char.isDigit_iff_toNat.mp hDigits.1
    have hMost : c.val.toNat ≤ 57 := hHigh
    have hSize : c.utf8Size = 1 := by
      rw [Char.utf8Size_eq_one_iff]
      refine UInt32.le_iff_toNat_le.mpr ?_
      change c.val.toNat ≤ 127
      omega
    have hByte : c.val.toUInt8.toNat = c.toNat := by
      change c.val.toNat % 256 = c.val.toNat
      omega
    have hFirst : Bytes.isDigit c.val.toUInt8 = true := by
      unfold Bytes.isDigit
      rw [Bool.and_eq_true, decide_eq_true_iff,
        decide_eq_true_iff, UInt8.le_iff_toNat_le, UInt8.le_iff_toNat_le, hByte]
      exact ⟨hLow, hHigh⟩
    obtain ⟨hLength, hRest⟩ := ih hDigits.2
    have hSpelled : (c :: cs).utf8Encode.data.toList =
        c.val.toUInt8 :: cs.utf8Encode.data.toList := by
      rw [List.utf8Encode_cons, List.utf8Encode_singleton, String.utf8EncodeChar_eq_singleton hSize]
      simp
    rw [hSpelled]
    exact ⟨congrArg (· + 1) hLength, List.forall_mem_cons.mpr ⟨hFirst, hRest⟩⟩

/- A numeral consists of digits. -/
theorem digits_ofNat (n : Nat) :
    Bytes.ofNat n ≠ [] ∧ ∀ b ∈ Bytes.ofNat n, Bytes.isDigit b = true := by
  obtain ⟨hLength, hDigits⟩ := spelled_digits fun c hc =>
    Nat.isDigit_of_mem_toDigits (b := 10) (n := n) (by decide) (by decide) hc
  have hText : Bytes.ofNat n = (Nat.toDigits 10 n).utf8Encode.data.toList := by
    unfold Bytes.ofNat ascii
    rw [show toString n = String.ofList (Nat.toDigits 10 n) from
      rfl, String.toByteArray_ofList]
  rw [hText]
  refine ⟨fun hNil => ?_, hDigits⟩
  rw [hNil] at hLength
  exact Nat.toDigits_ne_nil (List.length_eq_zero_iff.mp hLength.symm)

/- A numeral starts with a digit. -/
theorem ofNat_head (n : Nat) :
    ∃ b rest, Bytes.ofNat n = b :: rest ∧ Bytes.isDigit b = true := by
  obtain ⟨hSome, hDigits⟩ := digits_ofNat n
  obtain ⟨b, rest, hEq⟩ := List.exists_cons_of_ne_nil hSome
  exact ⟨b, rest, hEq, hDigits b (by rw [hEq]; simp)⟩

namespace Lexer

variable {skip : Nat} {body : Bytes} {lx : Lexeme}

theorem kind_stringLexeme {elem : LitType} (hLexeme : stringLexeme elem skip body = .ok lx) :
    ∃ bytes, lx.kind = .str elem bytes := by
  unfold stringLexeme at hLexeme
  split at hLexeme
  · cases hLexeme
  · rename_i n hLength
    cases hBytes : Literal.decodeBody elem (skip + 1) (body.take n) with
    | error e =>
      rw [hBytes] at hLexeme
      cases hLexeme
    | ok bytes =>
      rw [hBytes] at hLexeme
      cases hLexeme
      exact ⟨bytes, rfl⟩

theorem kind_charLexeme {type : LitType} {fix : Int64 → Int64}
    (hLexeme : charLexeme type skip fix body = .ok lx) : ∃ v, lx.kind = .int type v := by
  unfold charLexeme at hLexeme
  split at hLexeme
  · cases hLexeme
  · cases hLexeme
  · split at hLexeme
    · cases hLexeme
    · cases hLexeme
      exact ⟨_, rfl⟩

variable {s : Bytes}

theorem literal?_kind {r : Except LexError Lexeme} (hLiteral : literal? s = some r)
    (hLexeme : r = .ok lx) : lx.kind ≠ .eof := by
  have hString : ∀ {elem : LitType} {skip : Nat} {body : Bytes},
      stringLexeme elem skip body = .ok lx → lx.kind ≠ .eof := by
    intro elem skip body hOk
    obtain ⟨bytes, hKind⟩ := kind_stringLexeme hOk
    simp [hKind]
  have hChar : ∀ {type : LitType} {skip : Nat} {fix : Int64 → Int64} {body : Bytes},
      charLexeme type skip fix body = .ok lx → lx.kind ≠ .eof := by
    intro type skip fix body hOk
    obtain ⟨v, hKind⟩ := kind_charLexeme hOk
    simp [hKind]
  unfold literal? at hLiteral
  split at hLiteral <;> cases hLiteral <;> first
      | exact hString hLexeme
      | exact hChar hLexeme

variable {cfg : Config}

/- No lexeme is an end. -/
theorem lexeme_kind (hLexeme : (lexeme cfg s).2 = .ok lx) : lx.kind ≠ .eof := by
  unfold lexeme at hLexeme
  split at hLexeme
  · cases hLexeme
    simp
  · split at hLexeme
    · rename_i r hLiteral
      exact literal?_kind hLiteral hLexeme
    · simp only at hLexeme
      split at hLexeme
      · cases hLexeme
      · split at hLexeme
        · cases hLexeme
          simp
        · split at hLexeme
          · cases hLexeme
            simp
          · cases hLexeme

/- Reading goes on after the tokens that were read. -/
theorem run_ok (cfg : Config) (f : SourceFile) (shownName : Bytes) (fuel : Nat) (gap : Gap)
    (c : Cursor) (dollars : List Nat) (done ts : List Token)
    (hRun : (run cfg f shownName fuel gap c dollars done).result = .ok ts) :
    ∃ more eof, ts = done.reverse ++ more ++ [eof] ∧ ∀ t ∈ more, t.isEof = false := by
  induction fuel generalizing gap c dollars done with
  | zero => simp [run] at hRun
  | succ fuel ih =>
    rw [run] at hRun
    split at hRun
    · cases hRun
    · split at hRun
      · cases hRun
        exact ⟨[], _, by rw [List.append_nil], by simp⟩
      · simp only at hRun
        split at hRun
        · cases hRun
        · rename_i lx hLexeme
          obtain ⟨more, eof, hTs, hMore⟩ := ih _ _ _ _ hRun
          refine ⟨_ :: more, eof, by simpa using hTs, ?_⟩
          intro t ht
          rcases List.mem_cons.mp ht with rfl | ht
          · simpa [Token.isEof, makeToken] using lexeme_kind hLexeme
          · exact hMore t ht

variable {b : UInt8}

/- A leading byte is none that blanks and comments start with. -/
theorem leading_ne {c : UInt8} (hLeading : Bytes.Leading b) (hQuote : c ≠ 0x22) (hSign : c ≠ 0x2D)
    (hDigit : Bytes.isDigit c = false) : b ≠ c := by
  rintro rfl
  rcases hLeading with rfl | rfl | hIs
  · exact hQuote rfl
  · exact hSign rfl
  · simp [hDigit] at hIs

variable {rest : Bytes}

/- Nothing is skipped before a leading byte. -/
theorem skipBlanks_leading (gap : Gap) (hLeading : Bytes.Leading b) :
    skipBlanks gap ⟨0, 1, b :: rest⟩ = .ok (gap, ⟨0, 1, b :: rest⟩) := by
  have hSlash : b ≠ 0x2F := leading_ne hLeading (by decide) (by decide) (by decide)
  have hLine : b ≠ Bytes.of '\n' := leading_ne hLeading (by decide) (by decide) (by decide)
  have hSpace : Bytes.isSpace b = false := by
    simp only [Bytes.isSpace, Bool.or_eq_false_iff, beq_eq_false_iff_ne]
    refine ⟨⟨⟨⟨⟨?_, ?_⟩, ?_⟩, ?_⟩, ?_⟩, ?_⟩ <;>
      exact leading_ne hLeading (by decide) (by decide) (by decide)
  rw [skipBlanks]
  split
  · rename_i hText
    cases hText
  · rename_i hText
    cases hText
    exact absurd rfl hSlash
  · rename_i hText
    cases hText
    exact absurd rfl hSlash
  · rename_i hText
    cases hText
    simp [hLine, hSpace]

/- What starts with a leading byte is no name. -/
theorem lexeme_leading (cfg : Config) (hLeading : Bytes.Leading b)
    (hLexeme : (lexeme cfg (b :: rest)).2 = .ok lx) : lx.kind ≠ .ident := by
  unfold lexeme at hLexeme
  split at hLexeme
  · cases hLexeme
    simp
  · rename_i hNumber
    rcases hLeading with rfl | rfl | hDigit
    · -- a string literal
      obtain ⟨bytes, hKind⟩ := kind_stringLexeme hLexeme
      simp [hKind]
    · -- a sign, which no word starts with
      have hNone : literal? (0x2D :: rest) = none := rfl
      have hWord : word cfg (0x2D :: rest) = ⟨0, [], none⟩ := by
        unfold word
        rfl
      rw [hNone, hWord] at hLexeme
      simp only [gt_iff_lt, lt_irrefl, if_false] at hLexeme
      split at hLexeme
      · cases hLexeme
        simp
      · cases hLexeme
    · refine absurd ?_ hNumber
      cases rest with
      | nil => exact hDigit
      | cons c rest => simp [startsNumber, hDigit]

/- A text that is read has an end; else it has a fault. -/
theorem tokenize_cases (cfg : Config) (f : SourceFile) (shownName : Bytes) :
    (∃ more eof, (tokenize cfg f shownName).tokens = .ok (more ++ [eof]) ∧
        (lexFile cfg f shownName).result = .ok (more ++ [eof]) ∧
        ∀ t ∈ more, t.isEof = false) ∨ ∃ cause place,
        (tokenize cfg f shownName).tokens = .error (.fault cause place) := by
  unfold tokenize
  cases hResult : (lexFile cfg f shownName).result with
  | error e =>
    refine .inr ⟨e.cause, Place.ofOffset f shownName e.offset, ?_⟩
    simp [hResult, Except.mapError]
  | ok read =>
    obtain ⟨more, eof, hRead, hMore⟩ := run_ok _ _ _ _ _ _ _ _ _ hResult
    simp only [List.reverse_nil, List.nil_append] at hRead
    subst hRead
    exact .inl ⟨more, eof, by simp [hResult, Except.mapError], rfl, hMore⟩

/- The first token of a text that starts with a leading byte. -/
theorem first_inert {f : SourceFile} {shownName : Bytes} (hLeading : Bytes.Leading b)
    (hText : f.contents = b :: rest) {ts : List Token}
    (hRead : (lexFile cfg f shownName).result = .ok ts) :
    ∃ t more eof, ts = t :: more ++ [eof] ∧ t.Inert := by
  unfold lexFile at hRead
  rw [hText, run, skipBlanks_leading _ hLeading] at hRead
  simp only [List.isEmpty_cons, Bool.false_eq_true, if_false] at hRead
  split at hRead
  · cases hRead
  · rename_i lx hLexeme
    obtain ⟨more, eof, hTs, -⟩ := run_ok _ _ _ _ _ _ _ _ _ hRead
    have hKind := lexeme_leading cfg hLeading hLexeme
    have hOther : b ≠ 0x29 := leading_ne hLeading (by decide) (by decide) (by decide)
    refine ⟨_, more, eof, hTs, ?_, ?_⟩
    · simpa [Token.isIdent, makeToken] using hKind
    · have hClose : ascii ")" = [0x29] := by decide
      simp [Token.is, makeToken, hClose, hOther]

end Lexer

------------
-- Made Tokens
------------

namespace Expansion

open Pre

variable {dangling : Prop} {s : Session}

/- Whether the first token of a text has to be inert. -/
def Starts (text : Bytes) : Prop :=
  ∃ b rest, Bytes.Leading b ∧ text = b :: rest

/- Reading a text that was added. -/
theorem gives_tokenize (f : SourceFile) (shownName : Bytes) :
    Gives dangling s (Pre.tokenize f shownName) fun ts =>
      ∃ more eof, ts = more ++ [eof] ∧ (∀ t ∈ more, t.isEof = false) ∧ (Starts f.contents →
          ∃ t rest, more = t :: rest ∧ t.Inert) := by
  unfold Pre.tokenize
  refine (gives_get rfl).bind fun s₁ s' hMacros hSame => ?_
  refine (gives_say _).bind fun _ _ _ _ => ?_
  rcases Lexer.tokenize_cases s₁.cfg f shownName with
    ⟨more, eof, hTokens, hRead, hMore⟩ | ⟨cause, place, hTokens⟩
  · rw [hTokens]
    refine gives_pure ⟨more, eof, rfl, hMore, ?_⟩
    rintro ⟨b, rest, hLeading, hText⟩
    obtain ⟨t, others, eof', hSplit, hInert⟩ := Lexer.first_inert hLeading hText hRead
    obtain ⟨rfl, -⟩ := List.append_inj' hSplit rfl
    exact ⟨t, others, rfl, hInert⟩
  · rw [hTokens]
    exact trivial

theorem gives_addText (name : Bytes) (number : Nat) (contents : Bytes) (shown : Shown) :
    Gives dangling s (addText name number contents shown) fun f => f.contents = contents := by
  unfold addText
  refine (gives_get rfl).bind fun s₁ _ _ _ => ?_
  refine (gives_modify rfl).bind fun _ _ _ _ => ?_
  exact gives_pure rfl

/-
  Made tokens: the first one starts no line, and ends no list
  unless it is alone.
-/
theorem gives_makeTokens (text : Bytes) (file : SourceFile) (line : Int) (spaced : Bool) :
    Gives dangling s (makeTokens text file line spaced)
      fun ts => ∃ t rest, ts = t :: rest ∧ (rest ≠ [] → t.Plain) ∧
        (Starts text → t.Plain ∧ t.Inert) := by
  unfold makeTokens
  refine (gives_get rfl).bind fun s₁ _ _ _ => ?_
  refine (gives_addText _ _ _ _).bind fun f _ _ hText => ?_
  refine (gives_tokenize _ _).bind fun ts _ _ hTokens => ?_
  obtain ⟨more, eof, rfl, hMore, hFirst⟩ := hTokens
  rw [hText] at hFirst
  cases more with
  | nil =>
    refine gives_pure ⟨_, _, rfl, fun hNe => absurd rfl hNe, fun hStarts => ?_⟩
    obtain ⟨t, rest, hNil, -⟩ := hFirst hStarts
    cases hNil
  | cons t more =>
    have hEof : t.isEof = false := hMore t (by simp)
    refine gives_pure ⟨_, _, rfl, fun _ => ⟨hEof, rfl⟩, fun hStarts => ⟨⟨hEof, rfl⟩, ?_⟩⟩
    obtain ⟨u, rest, hCons, hInert⟩ := hFirst hStarts
    cases hCons
    exact ⟨hInert.notIdent, hInert.notClose⟩

/- A made token whose text starts with a leading byte. -/
theorem gives_makeToken {text : Bytes} (hStarts : Starts text) (tmpl : Token) :
    Gives dangling s (makeToken text tmpl) fun t =>
      t.Plain ∧ t.Inert := by
  unfold makeToken
  refine (gives_makeTokens _ _ _ _).bind fun ts _ _ hTs => ?_
  obtain ⟨t, rest, rfl, -, hPost⟩ := hTs
  exact gives_pure (hPost hStarts)

theorem gives_stringize (hash : Token) (arg : List Token) :
    Gives dangling s (Substitution.stringize hash arg)
      Token.Plain := (gives_makeToken ⟨0x22, _, .inl rfl, rfl⟩ hash).mono fun _ hPost => hPost.1

/- Joined tokens: a plain one, or no token at all. -/
theorem gives_paste (l r : Token) : Gives dangling s (Substitution.paste l r) Token.Plain := by
  unfold Substitution.paste
  refine (gives_makeTokens _ _ _ _).bind fun ts _ _ hTs => ?_
  obtain ⟨t, rest, rfl, hPlain, -⟩ := hTs
  rcases rest with - | ⟨u, - | ⟨v, more⟩⟩
  · exact trivial
  · exact gives_pure (hPlain (by simp))
  · exact gives_fail _ _ _

/- The text of a number starts with a digit or a sign. -/
theorem starts_ofInt (n : Int) (tail : Bytes) : Starts (Bytes.ofInt n ++ tail) := by
  unfold Bytes.ofInt
  split
  · exact ⟨_, _, .inr (.inl rfl), rfl⟩
  · obtain ⟨b, rest, hText, hDigit⟩ := ofNat_head n.natAbs
    exact ⟨b, rest ++ tail, .inr (.inr hDigit), by
      rw [hText, List.cons_append]⟩

theorem starts_quote (text : Bytes) : Starts (Substitution.quote text) := ⟨0x22, _, .inl rfl, rfl⟩

/- What takes the place of a macro that is worked out. -/
theorem gives_builtinToken (b : Builtin) (t : Token) :
    Gives dangling s (builtinToken b t) fun u =>
      u.Plain ∧ u.Inert := by
  cases b with
  | file =>
    refine (gives_shownOf _).bind fun _ _ _ _ => ?_
    exact gives_makeToken (starts_quote _) _
  | line =>
    refine (gives_shownOf _).bind fun _ _ _ _ => ?_
    exact gives_makeToken (starts_ofInt _ _) _
  | counter =>
    refine (gives_get rfl).bind fun _ _ _ _ => ?_
    refine (gives_modify rfl).bind fun _ _ _ _ => ?_
    exact gives_makeToken (starts_ofInt _ _) _
  | timestamp => exact gives_makeToken (starts_quote _) _
  | baseFile =>
    refine (gives_get rfl).bind fun _ _ _ _ => ?_
    exact gives_makeToken (starts_quote _) _

end Expansion

end CCompiler
