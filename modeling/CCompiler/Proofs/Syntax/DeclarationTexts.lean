import Mathlib
import CCompiler.Proofs.Syntax.DeclaratorReading
import CCompiler.Proofs.Syntax.LaterStates

/-
  The texts of types, and how they are read.

  A text mentions builtin types, tags and names of types that were
  declared before.  Its declarator is made of pointers, arrays of
  constant lengths and parameter lists, nested in any way, around
  a name or around nothing.  Wherever the text is read later on,
  the type is built after the same pattern.

  Main declarations:
    * `Wording.Specifiers`, `Wording.Declarator`
    * `Wording.Specifiers.reads`
    * `Wording.Declarator.reads`
-/

------------
-- Texts
------------

namespace CCompiler

namespace Wording

/- What no name is. -/
def taken : List String :=
  reserved ++ [";", "asm", "__asm__"]

/- The words of a type, its name, or a tag behind its keyword. -/
inductive Words (s : ParseState) : List Token → CType → Prop
| builtin {ws t}
    (hBuiltin : BuiltinType ws t) :
    Words s ws t
| named {w t}
    (hFree : w.Free taken)
    (hNamed : s.typedef? w = some t) :
    Words s [w] t
| record {w tag t}
    (hWord : w.Spells "struct" ∨ w.Spells "union")
    (hKind : tag.kind = .ident)
    (hFree : tag.Free taken)
    (hKnown : s.tag? tag.text = some t) :
    Words s [w, tag] t
| enum {w tag t id}
    (hWord : w.Spells "enum")
    (hKind : tag.kind = .ident)
    (hFree : tag.Free taken)
    (hKnown : s.tag? tag.text = some t)
    (hEnum : t.plain = .enum id) :
    Words s [w, tag] t

/-
  The specifiers of a declaration that mention a type of a size
  that is known when it is read.
-/
structure Specifiers (s : ParseState) (ws : List Token) (t : CType) :
    Prop where
  words : Words s ws t
  fixed : t.isVla = false
  known : ∀ id, t.plain = .record id → id < s.records.size
  short : ws.length ≤ s.limit

/- What stands before an entry of a list: a comma but at the start. -/
def Leads (isFirst : Bool) (lead : List Token) : Prop :=
  if isFirst then lead = [] else ∃ comma, comma.Punct "," ∧ lead = [comma]

mutual

/- What stands behind a name, with what it makes of a type. -/
inductive Suffix (x : Bytes) (s : ParseState) :
    List Token → (Pattern → Pattern) → Prop
| nothing :
    Suffix x s [] id
| unsized {o c ts f}
    (hOpen : o.Punct "[")
    (hClose : c.Punct "]")
    (hRest : Suffix x s ts f) :
    Suffix x s (o :: c :: ts) fun p => .array (f p) (-1)
| sized {o bs n c ts f}
    (hOpen : o.Punct "[")
    (hBound : Bound x s bs n)
    (hClose : c.Punct "]")
    (hRest : Suffix x s ts f) :
    Suffix x s (o :: (bs ++ c :: ts)) fun p => .array (f p) n
| void {o t c}
    (hOpen : o.Punct "(")
    (hVoid : t.Spells "void")
    (hClose : c.Punct ")") :
    Suffix x s [o, t, c] fun p => .function p [] false
| function {o ts ps dots c}
    (hOpen : o.Punct "(")
    (hEntries : Entries x s true ts ps dots)
    (hClose : c.Punct ")") :
    Suffix x s (o :: (ts ++ [c])) fun p =>
      .function p ps (dots || ps.isEmpty)

/- A declarator of a name, or of none. -/
inductive Declarator (x : Bytes) (s : ParseState) :
    List Token → Option Token → (Pattern → Pattern) → Prop
| pointer {star ts name? f}
    (hStar : star.Punct "*")
    (hInner : Declarator x s ts name? f) :
    Declarator x s (star :: ts) name? fun p => f (.pointer p)
| name {t ts f}
    (hKind : t.kind = .ident)
    (hFree : t.Free taken)
    (hSuffix : Suffix x s ts f) :
    Declarator x s (t :: ts) (some t) f
| nameless {ts f}
    (hSuffix : Suffix x s ts f)
    (hArray : ∀ t ∈ ts.head?, t.Punct "[") :
    Declarator x s ts none f
| paren {o ts name? g c us f}
    (hOpen : o.Punct "(")
    (hInner : Declarator x s ts name? g)
    (hClose : c.Punct ")")
    (hSuffix : Suffix x s us f) :
    Declarator x s (o :: (ts ++ c :: us)) name? fun p => g (f p)

/-
  The parameters of a list from the first one or from a later one,
  and whether dots stand at its end.
-/
inductive Entries (x : Bytes) (s : ParseState) :
    Bool → List Token → List Pattern → Bool → Prop
| done {isFirst} :
    Entries x s isFirst [] [] false
| dots {isFirst lead t}
    (hLead : Leads isFirst lead)
    (hDots : t.Punct "...") :
    Entries x s isFirst (lead ++ [t]) [] true
| more {isFirst lead ws t ts name? f us ps dots}
    (hLead : Leads isFirst lead)
    (hSpecifiers : Specifiers s ws t)
    (hDeclarator : Declarator x s ts name? f)
    (hVoid : ts = [] → ∀ w ∈ ws, w.is "void" = false)
    (hRest : Entries x s false us ps dots) :
    Entries x s isFirst (lead ++ (ws ++ (ts ++ us)))
      ((f (.given t)).parameter :: ps) dots

end

------------
-- First Tokens
------------

open Specifier

variable {s : ParseState} {x : Bytes} {ts ws : List Token}
  {f : Pattern → Pattern} {name? : Option Token} {t : CType}
  {u : Token}

/- A token that stands behind a declarator. -/
def Closing (u : Token) : Prop :=
  ∃ w ∈ [")", ",", ";"], u.Punct w

/- What no declarator starts with. -/
def stops : List String :=
  typeWords ++ attributeWords ++ [")", ",", "...", ";", "\x7b"]

/- What does not stand behind specifiers. -/
def afterStops : List String :=
  typeWords ++ attributeWords ++ ["\x7b"]

theorem free_punct {w : String} {words : List String} (hText : u.Punct w)
    (hOther : ∀ v ∈ words, (ascii w == ascii v) = false) : u.Free words := by
  intro v hWord
  rw [hText.spells.is_eq]
  exact hOther v hWord

/- A closing token starts nothing and continues nothing. -/
theorem Closing.free (hClosing : Closing u) : u.Free (afterStops ++ ["(", "[", "*"]) := by
  rcases hClosing with ⟨w, hWord, hText⟩
  fin_cases hWord <;> exact free_punct hText (by decide)

theorem Closing.isIdent (hClosing : Closing u) : u.isIdent = false := by
  rcases hClosing with ⟨w, -, hKind, -⟩
  unfold Token.isIdent
  rw [hKind]
  rfl

/- A suffix starts with a bracket or a parenthesis. -/
theorem Suffix.cases_first (hSuffix : Suffix x s ts f) :
    ts = [] ∨ ∃ t us, ts = t :: us ∧ (t.Punct "[" ∨ t.Punct "(") := by
  cases hSuffix with
  | nothing => exact .inl rfl
  | unsized hOpen | sized hOpen => exact .inr ⟨_, _, rfl, .inl hOpen⟩
  | void hOpen | function hOpen => exact .inr ⟨_, _, rfl, .inr hOpen⟩

theorem Declarator.cases_first (hDeclarator : Declarator x s ts name? f) :
    ts = [] ∨ ∃ t us, ts = t :: us ∧ t.Free stops := by
  cases hDeclarator with
  | pointer hStar => exact .inr ⟨_, _, rfl, free_punct hStar (by decide)⟩
  | name hKind hFree hSuffix => exact .inr ⟨_, _, rfl, hFree.mono (by decide)⟩
  | nameless hSuffix hArray =>
    rcases hSuffix.cases_first with rfl | ⟨t, us, rfl, -⟩
    · exact .inl rfl
    · exact .inr ⟨t, us, rfl, free_punct (hArray t rfl) (by decide)⟩
  | paren hOpen => exact .inr ⟨_, _, rfl, free_punct hOpen (by decide)⟩

/- That of a name does start with something. -/
theorem Declarator.exists_first (hDeclarator : Declarator x s ts (some u) f) :
    ∃ t us, ts = t :: us ∧ t.Free stops := by
  rcases hDeclarator.cases_first with rfl | hFirst
  · cases hDeclarator
  · exact hFirst

/- What follows specifiers. -/
theorem Declarator.exists_after (hDeclarator : Declarator x s ts name? f) (hClosing : Closing u)
    (rest : List Token) : ∃ t us, ts ++ u :: rest = t :: us ∧ t.Free afterStops := by
  rcases hDeclarator.cases_first with rfl | ⟨t, us, rfl, hFree⟩
  · exact ⟨u, rest, rfl, hClosing.free.mono (by decide)⟩
  · exact ⟨t, _, rfl, hFree.mono (by decide)⟩

/- What no specifier is. -/
def specifierStops : List String :=
  attributeWords ++ [")", "...", "asm", "__asm__"]

/- What the first word of a type is not. -/
theorem Specifiers.exists_first (hSpecifiers : Specifiers s ws t) :
    ∃ w vs, ws = w :: vs ∧ w.Free specifierStops ∧
      (w.is "void" = true → ∀ v ∈ vs, v.is ")" = false) := by
  have hTagged : ∀ {w : Token} {k : String} (vs : List Token),
      k ∈ ["struct", "union", "enum"] → w.Spells k → w.Free specifierStops ∧
        (w.is "void" = true → ∀ v ∈ vs, v.is ")" = false) := by
    intro w k vs hMem hWord
    have hOther : (ascii k == ascii "void") = false := by
      clear hWord
      revert k
      decide
    refine ⟨?_, ?_⟩
    · unfold Token.Free
      simp only [hWord.is_eq]
      clear hWord hOther
      revert k
      decide
    · rw [hWord.is_eq, hOther]
      exact nofun
  cases hSpecifiers.words with
  | builtin hBuiltin =>
    rcases hBuiltin.type with ⟨n, hAdd, -⟩
    rcases exists_word hBuiltin with ⟨w, vs, k, rfl, hMem, hWord⟩
    refine ⟨w, vs, rfl, ?_, ?_⟩
    · unfold Token.Free
      simp only [hWord.is_eq]
      clear hWord
      revert k
      decide
    · intro _ v hLater
      rcases spells_addAll? hAdd v (List.mem_cons_of_mem w hLater) with
        ⟨k', hMem', hWord'⟩
      rw [hWord'.is_eq]
      clear hWord'
      revert k'
      decide
  | named hFree => exact ⟨_, [], rfl, hFree.mono (by decide), fun _ => List.forall_mem_nil _⟩
  | record hWord =>
    rcases hWord with hWord | hWord
    · exact ⟨_, _, rfl, hTagged _ (by decide) hWord⟩
    · exact ⟨_, _, rfl, hTagged _ (by decide) hWord⟩
  | enum hWord => exact ⟨_, _, rfl, hTagged _ (by decide) hWord⟩

end Wording

------------
-- Reading Specifiers
------------

namespace Wording

open Parse Specifier TranslationUnit

variable {s a : ParseState} {x : Bytes} {ws rest : List Token}
  {t : CType} {u w tag : Token} {read : Reader}
  {attr? attr'? : Option VarAttr} {n : Nat}

theorem Words.later (hWords : Words s ws t) (hLater : s.Later x a) (hNew : s.binding? x = none) :
    Words a ws t := by
  cases hWords with
  | builtin hBuiltin => exact .builtin hBuiltin
  | named hFree hNamed => exact .named hFree (hLater.typedef? hNew hNamed)
  | record hWord hKind hFree hKnown => exact .record hWord hKind hFree ((hLater.tag _).trans hKnown)
  | enum hWord hKind hFree hKnown hEnum =>
    exact .enum hWord hKind hFree ((hLater.tag _).trans hKnown) hEnum

theorem Specifiers.later (hSpecifiers : Specifiers s ws t) (hLater : s.Later x a)
    (hNew : s.binding? x = none) : Specifiers a ws t where
  words := hSpecifiers.words.later hLater hNew
  fixed := hSpecifiers.fixed
  known id hRecord := Nat.lt_of_lt_of_le (hSpecifiers.known id hRecord) hLater.records.size_le
  short := by
    rw [hLater.limit]
    exact hSpecifiers.short

theorem lookupTag?_before (name : Bytes) (ts : List Token) :
    lookupTag? name (a.before ts) = .ok (a.tag? name) (a.before ts) := rfl

/- A name behind a keyword or a star. -/
theorem tag?_ident (hKind : tag.kind = .ident) (ts : List Token) :
    tag? (a.before (tag :: (ts ++ u :: rest))) = .ok (some tag) (a.before (ts ++ u :: rest)) := by
  unfold tag?
  rw [run_bind tok_before, if_pos (by simp [Token.isIdent, hKind]), run_bind (advance_append ts)]
  rfl

/- A tag that is known already. -/
theorem recordSpecifier_known (hKind : tag.kind = .ident) (hFree : tag.Free taken)
    (hKnown : a.tag? tag.text = some t) (hNext : u.Free afterStops) (isUnion : Bool) :
    recordSpecifier read isUnion (a.before (tag :: u :: rest)) = .ok t (a.before (u :: rest)) := by
  have hTag : tag? (a.before (tag :: u :: rest)) =
      .ok (some tag) (a.before (u :: rest)) := tag?_ident hKind []
  unfold recordSpecifier
  rw [run_bind (attributes_none (hFree.mono (by decide))),
    run_bind hTag, run_bind check_before, hNext "\x7b" (by decide)]
  simp only
  rw [run_bind (lookupTag?_before _ _), hKnown]
  rfl

theorem goes_enumSpecifier {id : Nat} (hKind : tag.kind = .ident)
    (hKnown : a.tag? tag.text = some t) (hEnum : t.plain = .enum id) (hNext : u.Free afterStops) :
    Goes a (enumSpecifier read) (tag :: u :: rest) (u :: rest) fun r _ => r = t := by
  refine ⟨t, { a with nextType := a.nextType + 1 }, ⟨_, _, Nat.le_succ _, .refl _, rfl⟩, ?_, rfl⟩
  have hFresh : freshType (a.before (tag :: u :: rest)) =
      .ok a.nextType (({ a with nextType := a.nextType + 1 }).before (tag :: u :: rest)) := rfl
  have hTag : tag? (({ a with nextType := a.nextType + 1 }).before
      (tag :: u :: rest)) = .ok (some tag) (({ a with nextType := a.nextType + 1 }).before
          (u :: rest)) := tag?_ident hKind []
  unfold enumSpecifier
  rw [run_bind hFresh, run_bind hTag, run_bind check_before, hNext "\x7b" (by decide)]
  simp only
  rw [run_bind (lookupTag?_before _ _)]
  have hSame : ({ a with nextType := a.nextType + 1 } : ParseState).tag? tag.text = some t := hKnown
  rw [hSame]
  simp only [hEnum]
  rfl

/- A keyword with the tag behind it. -/
theorem goes_tagged {k : String} (hMem : k ∈ ["struct", "union", "enum"]) (hWord : w.Spells k)
    (hUser : ∀ named?, Goes a (userType read w named?) (tag :: u :: rest)
      (u :: rest) fun r _ => r = t) :
    Goes a (specifierStep read ⟨.int, {}, false, attr?⟩)
      (w :: tag :: u :: rest) (u :: rest) fun r _ =>
        ∃ p, r = .inl p ∧ p = ⟨t, { other := 1 }, false, attr?⟩ := by
  have hClass : typeWords.any w.is = true ∧
      storageWords.any w.is = false ∧ qualifierWords.any w.is = false ∧
      w.is "_Atomic" = false ∧ w.is "_Alignas" = false ∧
      ["struct", "union", "enum", "typeof", "__typeof__"].any w.is =
        true := by
    have hIs : w.is = fun v => ascii k == ascii v := funext hWord.is_eq
    rw [hIs]
    clear hIs hWord
    revert k
    decide
  rcases hClass with ⟨hType, hStorage, hQualifier, hAtomic, hAlignas, hTagged⟩
  unfold specifierStep
  apply goes_step tok_before
  apply goes_step (isTypeName_before w)
  simp only [hType, hStorage, hQualifier, hAtomic, hAlignas,
    Bool.true_or, Bool.not_true, Bool.false_eq_true, if_false]
  apply goes_step (typedef?_before w)
  simp only [hTagged, Bool.or_true, if_true]
  rw [if_neg (by decide)]
  apply goes_step advance_before
  apply (hUser _).bind
  rintro r b - rfl
  exact goes_pure ⟨_, rfl, rfl⟩

/- The words are read to the declarator. -/
theorem Words.repeats (hWords : Words a ws t) (hNext : u.Free afterStops)
    (hEnough : ws.length < n) :
    Goes a (repeatN (specifierStep read) n ⟨.int, {}, false, attr?⟩)
      (ws ++ u :: rest) (u :: rest) fun p _ =>
        p.type = t ∧ p.isAtomic = false ∧ p.attr? = attr? := by
  have hNames : NamesType a ws t → Goes a (repeatN (specifierStep read) n ⟨.int, {}, false, attr?⟩)
      (ws ++ u :: rest) (u :: rest) fun p _ =>
        p.type = t ∧ p.isAtomic = false ∧ p.attr? = attr? := by
    intro hNames
    rcases hNames.repeated (hNext.mono (by decide)) hEnough with
      ⟨w, hRun⟩
    exact ⟨_, a, .refl a, hRun, rfl, rfl, rfl⟩
  have hTagged : ∀ {w tag : Token} {k : String}, ws = [w, tag] →
      k ∈ ["struct", "union", "enum"] → w.Spells k →
      (∀ named?, Goes a (userType read w named?) (tag :: u :: rest) (u :: rest) fun r _ => r = t) →
      Goes a (repeatN (specifierStep read) n ⟨.int, {}, false, attr?⟩)
        (ws ++ u :: rest) (u :: rest) fun p _ =>
          p.type = t ∧ p.isAtomic = false ∧ p.attr? = attr? := by
    rintro w tag k rfl hMem hWord hUser
    rcases Nat.exists_eq_add_of_le' (show 2 ≤ n from by
      simp only [List.length_cons, List.length_nil] at hEnough
      omega) with ⟨m, rfl⟩
    apply goes_next (goes_tagged hMem hWord hUser)
    rintro _ b - rfl
    apply goes_last
    have hWords : ({ other := 1 } : TypeWords) ≠ {} := by decide
    exact ⟨_, b, .refl b, specifierStep_end hWords (hNext.mono (by decide)), _, rfl, rfl, rfl, rfl⟩
  cases hWords with
  | builtin hBuiltin => exact hNames (.inl hBuiltin)
  | named hFree hNamed => exact hNames (.inr ⟨_, rfl, hFree.mono (by decide), hNamed⟩)
  | @record w tag t hWord hKind hFree hKnown =>
    have hRecord : ∀ isUnion, recordSpecifier read isUnion (a.before (tag :: u :: rest)) =
          .ok t (a.before (u :: rest)) :=
      recordSpecifier_known hKind hFree hKnown hNext
    rcases hWord with hWord | hWord
    · apply hTagged rfl (by decide) hWord
      intro named?
      unfold userType
      rw [hWord.is_eq, if_pos (by decide)]
      exact ⟨t, a, .refl a, hRecord false, rfl⟩
    · apply hTagged rfl (by decide) hWord
      intro named?
      unfold userType
      rw [hWord.is_eq, if_neg (by decide), hWord.is_eq, if_pos (by decide)]
      exact ⟨t, a, .refl a, hRecord true, rfl⟩
  | enum hWord hKind hFree hKnown hEnum =>
    apply hTagged rfl (by decide) hWord
    intro named?
    unfold userType
    rw [hWord.is_eq, if_neg (by decide), hWord.is_eq,
      if_neg (by decide), hWord.is_eq, if_pos (by decide)]
    exact goes_enumSpecifier hKind hKnown hEnum hNext

/- The words stand between attributes, of which there are none. -/
theorem goes_specifiers (hFirst : w.Free attributeWords) (hNext : u.Free afterStops)
    (hLoop : Goes a (repeatN (specifierStep read) (2 * a.limit + 8)
      ⟨.int, {}, false, attr?⟩) (w :: ws) (u :: rest) fun p _ =>
        p.type = t ∧ p.isAtomic = false ∧ p.attr? = attr'?) :
    Goes a (Specifier.specifiers read attr?) (w :: ws) (u :: rest) fun r _ => r = (t, attr'?) := by
  unfold Specifier.specifiers
  apply goes_step (attributesOn?_none _ hFirst)
  apply goes_iterate
  apply hLoop.bind
  rintro p b - ⟨rfl, hAtomic, rfl⟩
  apply goes_step (attributesOn?_none _ (hNext.mono (by decide)))
  rw [hAtomic]
  exact goes_pure rfl

/- The specifiers of a type give the type. -/
theorem Specifiers.reads (hSpecifiers : Specifiers a ws t) (hNext : u.Free afterStops)
    (hFuel : 1 ≤ n) :
    Goes a (TranslationUnit.read n (.specifiers attr?)) (ws ++ u :: rest)
      (u :: rest) fun r _ => r = (t, attr?) := by
  rcases Nat.exists_eq_add_of_le' hFuel with ⟨m, rfl⟩
  rcases hSpecifiers.exists_first with ⟨w, vs, rfl, hFree, -⟩
  have hShort := hSpecifiers.short
  exact goes_specifiers (hFree.mono (by decide)) hNext (hSpecifiers.words.repeats hNext (by omega))

/- Behind the word `extern` the declaration is noted as such. -/
theorem Specifiers.reads_extern (hWord : w.Spells "extern") (hSpecifiers : Specifiers a ws t)
    (hNext : u.Free afterStops) (hFuel : 1 ≤ n) :
    Goes a (TranslationUnit.read n (.specifiers (some {})))
      (w :: (ws ++ u :: rest)) (u :: rest) fun r _ =>
        r = (t, some { isExtern := true }) := by
  rcases Nat.exists_eq_add_of_le' hFuel with ⟨m, rfl⟩
  have hShort := hSpecifiers.short
  have hIs := hWord.is_eq
  have hStep : specifierStep (TranslationUnit.read m)
      ⟨.int, {}, false, some {}⟩ (a.before (w :: (ws ++ u :: rest))) =
      .ok (.inl ⟨.int, {}, false, some { isExtern := true }⟩) (a.before (ws ++ u :: rest)) := by
    rcases hSpecifiers.exists_first with ⟨v, vs, rfl, hFree, -⟩
    have hType : typeWords.any w.is = true ∧ storageWords.any w.is = true := by
      rw [show w.is = fun v => ascii "extern" == ascii v from funext hIs]
      decide
    have hAttr : addStorage {} w = { isExtern := true } := by
      unfold addStorage
      rw [hIs, if_neg (by decide), hIs, if_neg (by decide), hIs, if_pos (by decide)]
    have hStorage : storageStep (TranslationUnit.read m) ⟨.int, {}, false, some {}⟩ w
        (a.before (w :: (v :: vs ++ u :: rest))) =
        .ok ⟨.int, {}, false, some { isExtern := true }⟩ (a.before (v :: vs ++ u :: rest)) := by
      unfold storageStep
      simp only [hAttr]
      rw [if_neg (by decide)]
      rw [List.cons_append, run_bind advance_before,
        run_bind (attributesOn_none _ (hFree.mono (by decide)))]
      rfl
    unfold specifierStep
    rw [run_bind tok_before, run_bind (isTypeName_before w)]
    simp only [hType, Bool.true_or, Bool.not_true, Bool.false_eq_true, if_false, if_true]
    rw [run_bind hStorage]
    rfl
  have hFirst : w.Free attributeWords := by
    unfold Token.Free
    simp only [hIs]
    decide
  apply goes_specifiers hFirst hNext
  rw [repeatN]
  apply goes_step hStep
  exact hSpecifiers.words.repeats hNext (by omega)

end Wording

------------
-- Reading Suffixes
------------

namespace Wording

open Parse TranslationUnit

variable {s a b : ParseState} {x : Bytes} {ts us rest : List Token}
  {f g : Pattern → Pattern} {o c u star : Token} {lo n m : Nat}
  {p : Pattern} {t base : CType} {name? : Option Token}

/-
  In a later state there is a type of a pattern, whose arrays are
  numbered from `lo` on.
-/
structure Based (x : Bytes) (s a : ParseState) (lo : Nat) (p : Pattern)
    (t : CType) : Prop where
  later : s.Later x a
  low : lo ≤ a.nextType
  usable : p.Usable a.records
  fits : p.Fits a.records lo a.nextType t

theorem Based.grows (hBased : Based x s a lo p t) (hGrows : a.Grows b) : Based x s b lo p t where
  later := hBased.later.trans (hGrows.later x)
  low := Nat.le_trans hBased.low hGrows.nextType_le
  usable := by
    have hUsable := hBased.usable
    cases p with
    | given t =>
      exact ⟨hUsable.1, fun id hRecord => Nat.lt_of_lt_of_le
        (hUsable.2 id hRecord) hGrows.records.size_le⟩
    | copy | pointer | array | function => exact hUsable
  fits := hBased.fits.mono hGrows.records hGrows.nextType_le

theorem Based.isVla (hBased : Based x s a lo p t) : t.isVla = false := by
  have hUsable := hBased.usable
  have hFits := hBased.fits
  cases p with
  | given u =>
    cases hFits
    exact hUsable.1
  | copy => exact hUsable.elim
  | pointer p =>
    rcases hFits with ⟨b, rfl, -⟩
    rfl
  | array p n =>
    rcases hFits with ⟨id, b, k, l, rfl, -⟩
    rfl
  | function r ps v =>
    rcases hFits with ⟨r, us, names, rfl, -⟩
    rfl

theorem Based.pointer (hBased : Based x s a lo p t) : Based x s a lo (.pointer p) (.ptr t) where
  later := hBased.later
  low := hBased.low
  usable := trivial
  fits := ⟨t, rfl, hBased.fits⟩

/- An array of such a type. -/
theorem Based.goes_arrayOf (hBased : Based x s a lo p t) (len : Int) :
    Goes a (Parse.arrayOf t len) ts ts fun u b =>
      Based x s b lo (.array p len) u := by
  have hMade : Goes a (Parse.arrayOf t len) ts ts fun u b =>
      (p.array len).Fits b.records lo b.nextType u :=
    Parse.goes_arrayOf len hBased.low hBased.fits
  rcases hMade with ⟨u, b, hGrows, hRun, hFits⟩
  have hAfter := hBased.grows hGrows
  exact ⟨u, b, hGrows, hRun, hAfter.later, hAfter.low, trivial, hFits⟩

/- How the tokens behind a name are read. -/
def ReadsSuffix (x : Bytes) (s : ParseState) (ts : List Token)
    (f : Pattern → Pattern) : Prop :=
  ∀ a n lo p base u rest, Based x s a lo p base →
    32 * ts.length + 4 ≤ n → Closing u →
    Goes a (read n (.typeSuffix base)) (ts ++ u :: rest) (u :: rest)
      fun t b => Based x s b lo (f p) t

theorem reads_nothing : ReadsSuffix x s [] id := by
  intro a n lo p base u rest hBased hFuel hClosing
  rcases Nat.exists_eq_add_of_le' (show 1 ≤ n by omega) with ⟨m, rfl⟩
  change Goes a (Declarator.typeSuffix (read m) base) _ _ _
  unfold Declarator.typeSuffix
  apply goes_step (accept_miss (hClosing.free "(" (by decide)))
  rw [if_neg Bool.false_ne_true]
  apply goes_step (accept_miss (hClosing.free "[" (by decide)))
  rw [if_neg Bool.false_ne_true]
  exact goes_pure hBased

/- Behind a bracket the length of an array is read. -/
theorem reads_bracket (hOpen : o.Punct "[")
    (hLength : ∀ a n lo p base u rest, Based x s a lo p base →
      32 * us.length + 35 ≤ n → Closing u →
      Goes a (Declarator.arrayLength (read n) base) (us ++ u :: rest)
        (u :: rest) fun t b => Based x s b lo (f p) t) : ReadsSuffix x s (o :: us) f := by
  intro a n lo p base u rest hBased hFuel hClosing
  rw [List.length_cons] at hFuel
  rcases Nat.exists_eq_add_of_le' (show 1 ≤ n by omega) with ⟨m, rfl⟩
  change Goes a (Declarator.typeSuffix (read m) base) _ _ _
  unfold Declarator.typeSuffix
  apply goes_step (accept_miss (by
    rw [hOpen.spells.is_eq]
    decide))
  rw [if_neg Bool.false_ne_true]
  apply goes_step (accept_append us (by
    rw [hOpen.spells.is_eq]
    decide))
  rw [if_pos rfl]
  exact hLength a m lo p base u rest hBased (by omega) hClosing

theorem reads_unsized (hOpen : o.Punct "[") (hClose : c.Punct "]") (hRest : ReadsSuffix x s ts f) :
    ReadsSuffix x s (o :: c :: ts) fun p => .array (f p) (-1) := by
  apply reads_bracket hOpen
  intro a n lo p base u rest hBased hFuel hClosing
  rw [List.length_cons] at hFuel
  unfold Declarator.arrayLength
  apply goes_step (qualifiers_none (free_punct hClose (by decide)) a)
  apply goes_step (accept_append ts (by
    rw [hClose.spells.is_eq]
    decide))
  rw [if_pos rfl]
  apply (hRest a n lo p base u rest hBased (by omega) hClosing).bind
  rintro t b - hBased'
  exact hBased'.goes_arrayOf (-1)

theorem reads_sized {bs : List Token} {k : Int} (hOpen : o.Punct "[") (hBound : Bound x s bs k)
    (hClose : c.Punct "]") (hRest : ReadsSuffix x s ts f) :
    ReadsSuffix x s (o :: (bs ++ c :: ts)) fun p => .array (f p) k := by
  apply reads_bracket hOpen
  intro a n lo p base u rest hBased hFuel hClosing
  simp only [List.length_append, List.length_cons] at hFuel
  rcases hBound.first with ⟨v, vs, rfl, hFree⟩
  have hTree := hBound.reads a hBased.later n c (ts ++ u :: rest) hClose (by omega)
  unfold Declarator.arrayLength
  simp only [List.cons_append, List.append_assoc] at hTree ⊢
  apply goes_step (qualifiers_none (hFree.mono (by decide)) a)
  apply goes_step (accept_miss (hFree "]" (by decide)))
  rw [if_neg Bool.false_ne_true]
  apply hTree.bind
  intro e b hGrows hSettles
  apply goes_step (expect_append ts (by
    rw [hClose.spells.is_eq]
    decide))
  apply (hRest b n lo p base u rest (hBased.grows hGrows) (by omega) hClosing).bind
  intro t b' hGrows' hBased'
  rw [hBased'.isVla, if_neg Bool.false_ne_true]
  apply (hSettles b' (u :: rest) hGrows').bind
  rintro e' b'' hGrows'' ⟨hConstant, v', hEval, rfl⟩
  apply goes_step (Constant.run_ok hConstant _)
  rw [if_pos rfl]
  apply goes_step hEval
  exact (hBased'.grows hGrows'').goes_arrayOf _

end Wording

------------
-- Reading Parameters
------------

namespace Wording

open Parse Specifier TranslationUnit

variable {s a b : ParseState} {x : Bytes} {ts us ws rest lead : List Token}
  {f : Pattern → Pattern} {o c u star : Token} {lo n m : Nat}
  {p : Pattern} {t base : CType} {name? : Option Token}
  {isFirst dots : Bool} {ps : List Pattern}
  {acc : Declarator.Parameters}

/- How a declarator is read. -/
def ReadsDeclarator (x : Bytes) (s : ParseState) (ts : List Token)
    (name? : Option Token) (f : Pattern → Pattern) : Prop :=
  ∀ a n lo p base u rest, Based x s a lo p base →
    32 * ts.length + 8 ≤ n → Closing u →
    Goes a (read n (.declarator base)) (ts ++ u :: rest) (u :: rest)
      fun d b => d.name? = name? ∧ Based x s b lo (f p) d.type

/- How the parameters of a list are read. -/
def ReadsEntries (x : Bytes) (s : ParseState) (isFirst : Bool)
    (ts : List Token) (ps : List Pattern) (dots : Bool) : Prop :=
  ∀ a n m lo acc c rest, s.Later x a → lo ≤ a.nextType →
    32 * (ts.length + 1) ≤ n → ts.length < m →
    (isFirst = true ↔ acc.types.size = 0) → acc.variadic = false → c.Punct ")" →
    Goes a (repeatN (parameterStep (read n)) m acc) (ts ++ c :: rest)
      (c :: rest) fun r b => r.variadic = dots ∧
        ∃ us, r.types.toList = acc.types.toList ++ us ∧
          Pattern.FitsAll b.records lo b.nextType ps us

/- A record is copied, and the copy has its root. -/
theorem goes_copyType (hBased : Based x s a lo (.given t) t) :
    Goes a (copyType t) ts ts fun u b =>
      (Pattern.copied t).Fits b.records lo b.nextType u := by
  have hCopy : ∀ (id : Nat) (wrap : CType → CType),
      (∀ j, (wrap (.record j)).plain = .record j) → t = wrap (.record id) →
      Goes a (do return wrap (.record (← addRecord ((← records).entry id)))) ts ts fun u b =>
          Pattern.Fits b.records lo b.nextType (.copy id) u := by
    rintro id wrap hWrap rfl
    have hKnown := hBased.usable.2 id (hWrap id)
    have hMore := Records.extends_push a.records (a.records.entry id)
    have hSize : id < (a.records.push (a.records.entry id)).size ∧ a.records.size <
          (a.records.push (a.records.entry id)).size := by
      rw [Array.size_push]
      omega
    refine ⟨wrap (.record a.records.size),
      { a with records := a.records.push (a.records.entry id) },
      ⟨_, _, le_rfl, hMore, rfl⟩, rfl, a.records.size, hWrap _, hSize.1,
      hSize.2, ?_⟩
    rw [hMore.entry hKnown]
    exact congrArg Record.root (Records.entry_push _ _)
  cases t with
  | record id => exact hCopy id (fun t => t) (fun _ => rfl) rfl
  | atomic u =>
    cases u with
    | record id => exact hCopy id .atomic (fun _ => rfl) rfl
    | _ => exact goes_pure rfl
  | _ => exact goes_pure rfl

/- What a parameter is declared as. -/
theorem Based.goes_parameterType (hBased : Based x s a lo p t) :
    Goes a (Declarator.parameterType t) ts ts fun u b =>
      p.parameter.Fits b.records lo b.nextType u := by
  have hFits := hBased.fits
  have hUsable := hBased.usable
  unfold Declarator.parameterType
  cases p with
  | given u =>
    cases hFits
    simp only [Pattern.parameter]
    cases t.plain with
    | array | func => exact goes_pure ⟨_, rfl, rfl⟩
    | _ => exact goes_copyType hBased
  | copy => exact hUsable.elim
  | pointer p =>
    rcases hFits with ⟨b, rfl, hInner⟩
    exact goes_pure ⟨b, rfl, hInner⟩
  | array p k =>
    rcases hFits with ⟨id, b, k, l, rfl, -, -, hInner⟩
    exact goes_pure ⟨b, rfl, hInner⟩
  | function r ps v =>
    rcases hFits with ⟨r, us, names, rfl, hInner⟩
    exact goes_pure ⟨_, rfl, r, us, names, rfl, hInner⟩

variable {w : Token}

/- The comma before an entry is left behind. -/
theorem goes_lead {R : Sum Declarator.Parameters Declarator.Parameters → ParseState → Prop}
    (hLead : Leads isFirst lead) (hFirst : isFirst = true ↔ acc.types.size = 0)
    (hOther : w.is ")" = false) (hEntry : Goes a (parameterEntry (read n) acc) (w :: ts) us R) :
    Goes a (parameterStep (read n) acc) (lead ++ w :: ts) us R := by
  unfold parameterStep
  cases isFirst with
  | true =>
    cases (hLead : lead = [])
    apply goes_step check_before
    rw [hOther, if_neg Bool.false_ne_true, if_neg (by have := hFirst.mp rfl; omega)]
    exact hEntry
  | false =>
    rcases (hLead : ∃ comma, comma.Punct "," ∧ lead = [comma]) with
      ⟨comma, hComma, rfl⟩
    have hIs := hComma.spells.is_eq
    have hSome : 0 < acc.types.size := by
      rcases Nat.eq_zero_or_pos acc.types.size with hNone | hSome
      · exact absurd (hFirst.mpr hNone) Bool.false_ne_true
      · exact hSome
    apply goes_step check_before
    rw [hIs, if_neg (by decide), if_pos hSome]
    apply goes_step (expect_hit (by rw [hIs]; decide))
    exact hEntry

theorem entries_done : ReadsEntries x s isFirst [] [] false := by
  intro a n m lo acc c rest hLater hLow hFuel hCount hFirst hPlain hClose
  rcases Nat.exists_eq_add_of_le' (show 1 ≤ m by omega) with ⟨k, rfl⟩
  apply goes_last
  unfold parameterStep
  apply goes_step check_before
  rw [hClose.spells.is_eq, if_pos (by decide)]
  exact goes_pure ⟨_, rfl, hPlain, [], (List.append_nil _).symm, rfl⟩

theorem entries_dots {d : Token} (hLead : Leads isFirst lead) (hDots : d.Punct "...") :
    ReadsEntries x s isFirst (lead ++ [d]) [] true := by
  intro a n m lo acc c rest hLater hLow hFuel hCount hFirst hPlain hClose
  have hIs := hDots.spells.is_eq
  rcases Nat.exists_eq_add_of_le' (show 1 ≤ m by omega) with ⟨k, rfl⟩
  apply goes_last
  rw [List.append_assoc]
  apply goes_lead hLead hFirst (by rw [hIs]; decide)
  unfold parameterEntry
  apply goes_step (accept_hit (by rw [hIs]; decide))
  rw [if_pos rfl]
  exact goes_pure ⟨_, rfl, rfl, [], (List.append_nil _).symm, rfl⟩

/- Behind a parameter stands a comma or the end of the list. -/
theorem Entries.exists_closing (hEntries : Entries x s false us ps dots) (hClose : c.Punct ")")
    (rest : List Token) : ∃ v vs, us ++ c :: rest = v :: vs ∧ Closing v := by
  have hComma : ∀ {lead : List Token} (vs : List Token),
      Leads false lead → ∃ v ws, lead ++ vs = v :: ws ∧ Closing v := by
    intro lead vs hLead
    rcases (hLead : ∃ comma, comma.Punct "," ∧ lead = [comma]) with
      ⟨comma, hComma, rfl⟩
    exact ⟨comma, vs, rfl, ",", by decide, hComma⟩
  cases hEntries with
  | done => exact ⟨c, rest, rfl, ")", by decide, hClose⟩
  | dots hLead =>
    rw [List.append_assoc]
    exact hComma _ hLead
  | more hLead =>
    rw [List.append_assoc]
    exact hComma _ hLead

/- A parameter, and the list behind it. -/
theorem entries_more (hNew : s.binding? x = none) (hLead : Leads isFirst lead)
    (hSpecifiers : Specifiers s ws t) (hDeclarator : Declarator x s ts name? f)
    (hReads : ReadsDeclarator x s ts name? f) (hEntries : Entries x s false us ps dots)
    (hRest : ReadsEntries x s false us ps dots) :
    ReadsEntries x s isFirst (lead ++ (ws ++ (ts ++ us)))
      ((f (.given t)).parameter :: ps) dots := by
  intro a n m lo acc c rest hLater hLow hFuel hCount hFirst hPlain hClose
  simp only [List.length_append] at hFuel hCount
  have hHere := hSpecifiers.later hLater hNew
  rcases hEntries.exists_closing hClose rest with
    ⟨v, vs, hBehind, hClosing⟩
  rcases hDeclarator.exists_after hClosing vs with
    ⟨y, ys, hTokens, hFree⟩
  have hWords : Goes a (read n (.specifiers none)) (ws ++ y :: ys)
      (y :: ys) fun r _ => r = (t, none) := hHere.reads hFree (by omega)
  rcases hHere.exists_first with ⟨w, words, rfl, hWord, -⟩
  rw [List.length_cons] at hFuel hCount
  have hStep : Goes a (parameterStep (read n) acc)
      (lead ++ (w :: words ++ (ts ++ us)) ++ c :: rest) (v :: vs)
      fun r b => ∃ q, r = .inl q ∧ q.variadic = false ∧ ∃ u, q.types = acc.types.push u ∧
          (f (.given t)).parameter.Fits b.records lo b.nextType u := by
    simp only [List.append_assoc, List.cons_append] at hWords ⊢
    rw [hBehind, hTokens]
    apply goes_lead hLead hFirst (hWord ")" (by decide))
    unfold parameterEntry
    apply goes_step (accept_miss (hWord "..." (by decide)))
    rw [if_neg Bool.false_ne_true]
    apply hWords.bind
    rintro _ b hGrows rfl
    have hBased : Based x s b lo (.given t) t :=
      Based.grows ⟨hLater, hLow, ⟨hHere.fixed, hHere.known⟩, rfl⟩ hGrows
    rw [← hTokens]
    apply (hReads b n lo _ t v vs hBased (by omega) hClosing).bind
    rintro d b' - ⟨-, hBased'⟩
    apply hBased'.goes_parameterType.bind
    intro u b'' _ hFits
    exact goes_pure ⟨_, rfl, hPlain, u, rfl, hFits⟩
  rcases Nat.exists_eq_add_of_le' (show 1 ≤ m by omega) with ⟨k, rfl⟩
  apply goes_next hStep
  rintro q b hGrows ⟨hVariadic, u, hTypes, hFits⟩
  rw [← hBehind]
  apply (hRest b n k lo q c rest (hLater.trans (hGrows.later x))
    (Nat.le_trans hLow hGrows.nextType_le) (by omega) (by omega) ?_
    hVariadic hClose).mono
  · rintro r b' hGrows' ⟨hDots, us', hAll, hFitsAll⟩
    refine ⟨hDots, u :: us', ?_, u, us', rfl,
      hFits.mono hGrows'.records hGrows'.nextType_le, hFitsAll⟩
    rw [hAll, hTypes, Array.toList_push, List.append_assoc]
    rfl
  · rw [hTypes, Array.size_push]
    exact ⟨nofun, nofun⟩

------------
-- Reading Functions
------------

/- Behind a parenthesis the parameters of a function are read. -/
theorem reads_open (hOpen : o.Punct "(")
    (hParameters : ∀ a n lo p base u rest, Based x s a lo p base →
      32 * us.length + 35 ≤ n →
      Goes a (Declarator.parameters (read n) base) (us ++ u :: rest)
        (u :: rest) fun t b => Based x s b lo (f p) t) : ReadsSuffix x s (o :: us) f := by
  intro a n lo p base u rest hBased hFuel hClosing
  rw [List.length_cons] at hFuel
  rcases Nat.exists_eq_add_of_le' (show 1 ≤ n by omega) with ⟨m, rfl⟩
  change Goes a (Declarator.typeSuffix (read m) base) _ _ _
  unfold Declarator.typeSuffix
  apply goes_step (accept_append us (by
    rw [hOpen.spells.is_eq]
    decide))
  rw [if_pos rfl]
  exact hParameters a m lo p base u rest hBased (by omega)

/- The word `void` alone says that there are none. -/
theorem reads_void (hOpen : o.Punct "(") (hVoid : w.Spells "void") (hClose : c.Punct ")") :
    ReadsSuffix x s [o, w, c] fun p => .function p [] false := by
  apply reads_open hOpen
  intro a n lo p base u rest hBased hFuel
  unfold Declarator.parameters
  apply goes_step check_before
  apply goes_step peekIs_before
  rw [hVoid.is_eq, hClose.spells.is_eq, if_pos (by decide)]
  apply goes_step advance_before
  apply goes_step advance_before
  exact goes_pure ⟨hBased.later, hBased.low, trivial, base, [], [], rfl, hBased.fits, rfl⟩

/- The first tokens of a list are not the word `void` alone. -/
theorem Entries.exists_two (hEntries : Entries x s true ts ps dots) (hClose : c.Punct ")")
    (u : Token) (rest : List Token) :
    ∃ v w vs, ts ++ c :: u :: rest = v :: w :: vs ∧ (v.is "void" = false ∨ w.is ")" = false) := by
  cases hEntries with
  | done =>
    refine ⟨c, u, rest, rfl, .inl ?_⟩
    rw [hClose.spells.is_eq]
    decide
  | dots hLead hDots =>
    cases (hLead : _ = [])
    refine ⟨_, c, u :: rest, rfl, .inl ?_⟩
    rw [hDots.spells.is_eq]
    decide
  | @more _ _ ws t ts name? f us ps _ hLead hSpecifiers hDeclarator hVoid hRest =>
      cases (hLead : _ = [])
      rcases hSpecifiers.exists_first with ⟨v, vs, rfl, -, hSecond⟩
      cases hIs : v.is "void" with
      | false =>
        rcases List.exists_cons_of_ne_nil
          (show vs ++ (ts ++ us) ++ c :: u :: rest ≠ [] by simp) with
          ⟨w, ws, hBehind⟩
        exact ⟨v, w, ws, congrArg (v :: ·) hBehind, .inl hIs⟩
      | true =>
        cases vs with
        | cons w vs => exact ⟨v, w, _, rfl, .inr (hSecond hIs w (by simp))⟩
        | nil =>
          rcases hDeclarator.cases_first with rfl | ⟨w, ws, rfl, hFree⟩
          · exact absurd hIs (by
              rw [hVoid rfl v List.mem_cons_self]
              exact Bool.false_ne_true)
          · exact ⟨v, w, _, rfl, .inr (hFree ")" (by decide))⟩

/- Any other list is read one by one. -/
theorem reads_function (hOpen : o.Punct "(") (hEntries : Entries x s true ts ps dots)
    (hReads : ReadsEntries x s true ts ps dots) (hShort : ts.length ≤ s.limit)
    (hClose : c.Punct ")") :
    ReadsSuffix x s (o :: (ts ++ [c])) fun p =>
      .function p ps (dots || ps.isEmpty) := by
  apply reads_open hOpen
  intro a n lo p base u rest hBased hFuel
  rw [List.length_append] at hFuel
  rw [← hBased.later.limit] at hShort
  have hLoop := hReads a n (2 * a.limit + 8) lo {} c (u :: rest)
    hBased.later hBased.low (by omega) (by omega) ⟨fun _ => rfl, fun _ => rfl⟩
    rfl hClose
  rcases hEntries.exists_two hClose u rest with ⟨v, w, vs, hTokens, hOther⟩
  rw [List.append_assoc, List.cons_append, List.nil_append]
  rw [hTokens] at hLoop ⊢
  rw [parameters_eq]
  apply goes_step check_before
  apply goes_step peekIs_before
  rw [if_neg (by rcases hOther with hIs | hIs <;> simp [hIs])]
  apply goes_iterate
  apply hLoop.bind
  rintro r b hGrows ⟨hDots, us, hTypes, hFits⟩
  apply goes_step (expect_hit (by
    rw [hClose.spells.is_eq]
    decide))
  apply goes_pure
  have hHere := hBased.grows hGrows
  refine ⟨hHere.later, hHere.low, trivial, base, us, r.names.toList, ?_, hHere.fits, hFits⟩
  have hSame : r.types.toList = us := hTypes
  rw [← Array.isEmpty_toList, hSame, hFits.isEmpty, hDots]

end Wording

------------
-- Reading Declarators
------------

namespace Wording

open Parse Specifier TranslationUnit

variable {s a b : ParseState} {x : Bytes} {ts us rest : List Token}
  {f g : Pattern → Pattern} {o c u v star : Token} {lo n m : Nat}
  {p : Pattern} {t base : CType} {name? : Option Token}
  {isFirst dots : Bool} {ps : List Pattern}

/- How a declarator is read behind some stars. -/
def FollowsStars (x : Bytes) (s : ParseState) (ts : List Token)
    (name? : Option Token) (f : Pattern → Pattern) : Prop :=
  ∀ a n m lo p base u rest, Based x s a lo p base →
    32 * ts.length + 8 ≤ n + 1 → ts.length < m → Closing u →
    Goes a (repeatN (starStep (read n)) m base >>= direct (read n))
      (ts ++ u :: rest) (u :: rest) fun d b =>
        d.name? = name? ∧ Based x s b lo (f p) d.type

theorem FollowsStars.reads (hFollows : FollowsStars x s ts name? f)
    (hDeclarator : Declarator x s ts name? f) (hShort : ts.length ≤ s.limit) :
    ReadsDeclarator x s ts name? f := by
  intro a n lo p base u rest hBased hFuel hClosing
  rcases Nat.exists_eq_add_of_le' (show 1 ≤ n by omega) with ⟨k, rfl⟩
  rw [← hBased.later.limit] at hShort
  have hWhole := hFollows a k (2 * a.limit + 8) lo p base u rest hBased hFuel (by omega) hClosing
  rcases hDeclarator.exists_after hClosing rest with
    ⟨t, us, hTokens, hFree⟩
  change Goes a (Declarator.declarator (read k) base) _ _ _
  rw [declarator_eq]
  rw [hTokens] at hWhole ⊢
  apply goes_step (skipAttributes_none (hFree.mono (by decide)))
  exact goes_iterate hWhole

/- What follows the stars is no star. -/
theorem goes_direct {R : Declared → ParseState → Prop} (hOther : v.is "*" = false)
    (hDirect : Goes a (direct (read n) base) (v :: ts) us R) :
    Goes a (repeatN (starStep (read n)) (m + 1) base >>= direct (read n)) (v :: ts) us R := by
  have hStep : repeatN (starStep (read n)) (m + 1) base
      (a.before (v :: ts)) = .ok base (a.before (v :: ts)) := by
    apply repeatN_one
    unfold starStep
    rw [run_bind (accept_miss hOther)]
    rfl
  exact goes_step hStep hDirect

theorem follows_star (hStar : star.Punct "*") (hDeclarator : Declarator x s ts name? f)
    (hInner : FollowsStars x s ts name? f) :
    FollowsStars x s (star :: ts) name? fun p => f (.pointer p) := by
  intro a n m lo p base u rest hBased hFuel hCount hClosing
  rw [List.length_cons] at hFuel hCount
  rcases Nat.exists_eq_add_of_le' (show 1 ≤ m by omega) with ⟨k, rfl⟩
  have hNext := hInner a n k lo (.pointer p) (.ptr base) u rest
    hBased.pointer (by omega) (by omega) hClosing
  rcases hDeclarator.exists_after hClosing rest with
    ⟨v, vs, hTokens, hFree⟩
  have hQualifiers : v.Free ["const", "volatile", "restrict",
      "__restrict", "__restrict__", "_Atomic"] :=
    hFree.mono (by decide)
  rw [List.cons_append]
  rw [hTokens] at hNext ⊢
  have hStep : starStep (read n) base (a.before (star :: v :: vs)) =
      .ok (.inl (.ptr base)) (a.before (v :: vs)) := by
    unfold starStep
    rw [run_bind (accept_hit (by
      rw [hStar.spells.is_eq]
      decide)), if_pos rfl, run_bind (iterate_one (b := ()) (by
        rw [run_bind (checkAny_before _), hQualifiers.any]
        rfl)),
      run_bind (skipAttributes_none (hFree.mono (by decide)))]
    rfl
  rw [repeatN, bind_assoc]
  exact goes_step hStep hNext

theorem follows_ident (hKind : v.kind = .ident) (hFree : v.Free taken)
    (hSuffix : ReadsSuffix x s ts f) : FollowsStars x s (v :: ts) (some v) f := by
  intro a n m lo p base u rest hBased hFuel hCount hClosing
  rw [List.length_cons] at hFuel hCount
  rcases Nat.exists_eq_add_of_le' (show 1 ≤ m by omega) with ⟨k, rfl⟩
  rw [List.cons_append]
  apply goes_direct (hFree "*" (by decide))
  unfold direct
  apply goes_step check_before
  rw [hFree "(" (by decide), if_neg Bool.false_ne_true]
  apply goes_step tok_before
  apply goes_step (tag?_ident hKind ts)
  apply (hSuffix a n lo p base u rest hBased (by omega) hClosing).bind
  rintro t b - hBased'
  exact goes_pure ⟨rfl, hBased'⟩

/- Without a name only lengths may follow. -/
theorem follows_nameless (hSuffix : ReadsSuffix x s ts f) (hArray : ∀ t ∈ ts.head?, t.Punct "[") :
    FollowsStars x s ts none f := by
  intro a n m lo p base u rest hBased hFuel hCount hClosing
  rcases Nat.exists_eq_add_of_le' (show 1 ≤ m by omega) with ⟨k, rfl⟩
  have hFirst : ∃ v vs, ts ++ u :: rest = v :: vs ∧
      v.is "*" = false ∧ v.is "(" = false ∧ v.isIdent = false := by
    cases ts with
    | nil =>
      exact ⟨u, rest, rfl, hClosing.free "*" (by decide),
        hClosing.free "(" (by decide), hClosing.isIdent⟩
    | cons v vs =>
      have hOpen := hArray v rfl
      have hIs := hOpen.spells.is_eq
      refine ⟨v, _, rfl, ?_, ?_, ?_⟩
      · rw [hIs]
        decide
      · rw [hIs]
        decide
      · rw [Token.isIdent, hOpen.1]
        rfl
  have hRest := hSuffix a n lo p base u rest hBased (by omega) hClosing
  rcases hFirst with ⟨v, vs, hTokens, hStar, hOpen, hIdent⟩
  rw [hTokens] at hRest ⊢
  apply goes_direct hStar
  unfold direct
  apply goes_step check_before
  rw [hOpen, if_neg Bool.false_ne_true]
  apply goes_step tok_before
  have hTag : tag? (a.before (v :: vs)) = .ok none (a.before (v :: vs)) := by
    unfold tag?
    rw [run_bind tok_before, hIdent]
    rfl
  apply goes_step hTag
  apply hRest.bind
  rintro t b - hBased'
  exact goes_pure ⟨rfl, hBased'⟩

/-
  What stands in parentheses is read twice: the first time to get
  past it, and then with the type that the suffix makes.
-/
theorem follows_parens (hOpen : o.Punct "(") (hInner : ReadsDeclarator x s ts name? g)
    (hClose : c.Punct ")") (hSuffix : ReadsSuffix x s us f) :
    FollowsStars x s (o :: (ts ++ c :: us)) name? fun p => g (f p) := by
  intro a n m lo p base u rest hBased hFuel hCount hClosing
  simp only [List.length_cons, List.length_append] at hFuel hCount
  rcases Nat.exists_eq_add_of_le' (show 1 ≤ m by omega) with ⟨k, rfl⟩
  have hIs := hOpen.spells.is_eq
  have hEnd : Closing c := ⟨")", by decide, hClose⟩
  have hVoid : Based x s a lo (.given .void) .void := ⟨hBased.later, hBased.low, ⟨rfl, nofun⟩, rfl⟩
  simp only [List.cons_append, List.append_assoc]
  apply goes_direct (by rw [hIs]; decide)
  unfold direct
  apply goes_step check_before
  rw [hIs, if_pos (by decide)]
  unfold Declarator.nested
  apply goes_step (advance_append ts)
  apply goes_step cursor_before
  apply (hInner a n lo _ .void c (us ++ u :: rest) hVoid (by omega) hEnd).bind
  rintro _ b hGrows -
  apply goes_step (expect_append us (by
    rw [hClose.spells.is_eq]
    decide))
  apply (hSuffix b n lo p base u rest (hBased.grows hGrows) (by omega) hClosing).bind
  rintro t b' - hBased'
  apply goes_step cursor_before
  apply goes_step (rewind_before _)
  apply (hInner b' n lo _ t c (us ++ u :: rest) hBased' (by omega) hEnd).bind
  rintro d b'' - hResult
  apply goes_step (rewind_before _)
  exact goes_pure hResult

mutual

/- Every text is read as it is made up. -/
theorem Suffix.reads (hNew : s.binding? x = none) :
    ∀ {ts f}, Suffix x s ts f → ts.length ≤ s.limit → ReadsSuffix x s ts f
| _, _, .nothing, _ => reads_nothing
| _, _, .unsized hOpen hClose hRest, hShort => by
    simp only [List.length_cons] at hShort
    exact reads_unsized hOpen hClose (hRest.reads hNew (by omega))
| _, _, .sized hOpen hBound hClose hRest, hShort => by
    simp only [List.length_cons, List.length_append] at hShort
    exact reads_sized hOpen hBound hClose (hRest.reads hNew (by omega))
| _, _, .void hOpen hVoid hClose, _ => reads_void hOpen hVoid hClose
| _, _, .function hOpen hEntries hClose, hShort => by
    simp only [List.length_cons, List.length_append] at hShort
    exact reads_function hOpen hEntries (hEntries.reads hNew (by omega)) (by omega) hClose

theorem Declarator.follows (hNew : s.binding? x = none) :
    ∀ {ts name? f}, Declarator x s ts name? f → ts.length ≤ s.limit → FollowsStars x s ts name? f
| _, _, _, .pointer hStar hInner, hShort => by
    rw [List.length_cons] at hShort
    exact follows_star hStar hInner (hInner.follows hNew (by omega))
| _, _, _, .name hKind hFree hSuffix, hShort => by
    rw [List.length_cons] at hShort
    exact follows_ident hKind hFree (hSuffix.reads hNew (by omega))
| _, _, _, .nameless hSuffix hArray, hShort => follows_nameless (hSuffix.reads hNew hShort) hArray
| _, _, _, .paren hOpen hInner hClose hSuffix, hShort => by
    simp only [List.length_cons, List.length_append] at hShort
    have hLess := hInner.follows hNew (by omega)
    exact follows_parens hOpen (hLess.reads hInner (by omega)) hClose
      (hSuffix.reads hNew (by omega))

theorem Entries.reads (hNew : s.binding? x = none) :
    ∀ {isFirst ts ps dots}, Entries x s isFirst ts ps dots →
      ts.length ≤ s.limit → ReadsEntries x s isFirst ts ps dots
| _, _, _, _, .done, _ => entries_done
| _, _, _, _, .dots hLead hDots, _ => entries_dots hLead hDots
| _, _, _, _, .more hLead hSpecifiers hDeclarator hVoid hRest,
    hShort => by
    simp only [List.length_append] at hShort
    have hInner := (hDeclarator.follows hNew (by omega)).reads hDeclarator (by omega)
    exact entries_more hNew hLead hSpecifiers hDeclarator hInner hRest (hRest.reads hNew (by omega))

end

/- A declarator is read to its end, and its type is built after its pattern. -/
theorem Declarator.reads (hDeclarator : Declarator x s ts name? f) (hNew : s.binding? x = none)
    (hShort : ts.length ≤ s.limit) : ReadsDeclarator x s ts name? f :=
  (hDeclarator.follows hNew hShort).reads hDeclarator hShort

end Wording

end CCompiler
