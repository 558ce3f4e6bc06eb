import Mathlib
import CCompiler.Proofs.Syntax.Stepping

/-
  Reading the words that name a type.

  The words of a builtin type may stand in any order.  They end
  at the first token that starts no type, or at the name of a
  type that some of them stand before.

  Main declarations:
    * `BuiltinType`, `NamesType`
    * `NamesType.specifiers`, `NamesType.read_typeName`
-/

------------
-- Names
------------

namespace CCompiler

namespace ParseState

/- What a name stands for. -/
def binding? (s : ParseState) (name : Bytes) : Option Binding :=
  s.scopes.findSome? fun sc => sc.vars.lookup name

/- The type that a token names, if it names one. -/
def typedef? (s : ParseState) (t : Token) : Option CType :=
  if t.isIdent then
    match s.binding? t.text with
    | some (.typedef type) => some type
    | _ => none
  else none

end ParseState

namespace Parse

variable {s : ParseState} {ts : List Token}

theorem lookup?_before (name : Bytes) :
    lookup? name (s.before ts) = .ok (s.binding? name) (s.before ts) := rfl

theorem typedef?_before (t : Token) :
    typedef? t (s.before ts) = .ok (s.typedef? t) (s.before ts) := by
  unfold typedef? ParseState.typedef?
  cases hIdent : t.isIdent
  · rfl
  · simp only [Bool.not_true, Bool.false_eq_true, if_false, if_true]
    rw [run_bind (lookup?_before t.text)]
    split <;> simp_all [pure_apply]

end Parse

------------
-- BuiltinType Types
------------

/- The words of builtin types. -/
def builtinWords : List String :=
  ["void", "_Bool", "char", "short", "int", "long", "float",
    "double", "signed", "unsigned"]

variable {w w' : TypeWords}

namespace TypeWords

/- Words counted one after the other, as long as they name a type. -/
def addAll? : TypeWords → List Token → Option TypeWords
| w, [] => some w
| w, t :: ts => do
  let w ← w.add t
  if w.type?.isSome then w.addAll? ts else none

variable {t : Token}

/- Only the words of builtin types are counted. -/
theorem add_spells (hAdd : w.add t = some w') : ∃ v ∈ builtinWords, t.Spells v := by
  by_contra hNone
  have hFree : t.Free builtinWords := by
    intro v hWord
    by_contra hIs
    apply hNone
    refine ⟨v, hWord, ?_⟩
    simpa [Token.is, Token.Spells] using hIs
  have hIs : ∀ v ∈ builtinWords, ¬ t.is v = true := by
    intro v hWord
    rw [hFree v hWord]
    exact Bool.false_ne_true
  unfold add at hAdd
  rw [if_neg (hIs _ (by decide)), if_neg (hIs _ (by decide)),
    if_neg (hIs _ (by decide)), if_neg (hIs _ (by decide)),
    if_neg (hIs _ (by decide)), if_neg (hIs _ (by decide)),
    if_neg (hIs _ (by decide)), if_neg (hIs _ (by decide)),
    if_neg (hIs _ (by decide)), if_neg (hIs _ (by decide))] at hAdd
  cases hAdd

/- Of a word that was counted, something is left. -/
theorem add_ne (hAdd : w.add t = some w') : w' ≠ {} := by
  rcases add_spells hAdd with ⟨v, hWord, hSpells⟩
  rintro rfl
  fin_cases hWord <;> simp +decide [add, hSpells.is_eq] at hAdd

theorem addAll?_ne {ts : List Token} (hAdd : w.addAll? ts = some w') (hNonempty : ts ≠ []) :
    w' ≠ {} := by
  induction ts generalizing w with
  | nil => exact absurd rfl hNonempty
  | cons t ts ih =>
    simp only [addAll?, Option.bind_eq_bind, Option.bind_eq_some_iff] at hAdd
    rcases hAdd with ⟨w₁, hOne, hRest⟩
    split at hRest
    · cases ts with
      | nil =>
        cases hRest
        exact add_ne hOne
      | cons u us => exact ih hRest (List.cons_ne_nil u us)
    · cases hRest

end TypeWords

/- Keywords that name a builtin type. -/
structure BuiltinType (ws : List Token) (t : CType) : Prop where
  nonempty : ws ≠ []
  keywords : ∀ w ∈ ws, w.kind = .keyword
  type : ∃ w : TypeWords, TypeWords.addAll? {} ws = some w ∧ w.type? = some t

variable {n : Nat}

------------
-- Specifiers
------------

namespace Specifier

open Parse Grammar

variable {s : ParseState} {t u : Token} {ts rest : List Token}
  {read : Reader} {attr? : Option VarAttr}

/- The words that start attributes. -/
def attributeWords : List String := ["__attribute__", "__attribute"]

/- Without attributes nothing is read. -/
theorem attributes_none (hFree : t.Free attributeWords) :
    attributes read (s.before (t :: ts)) = .ok {} (s.before (t :: ts)) := by
  have hAny : ["__attribute__", "__attribute"].any t.is = false := hFree.any
  apply iterate_one
  rw [run_bind (checkAny_before _), hAny]
  rfl

theorem skipAttributes_none (hFree : t.Free attributeWords) :
    skipAttributes read (s.before (t :: ts)) = .ok () (s.before (t :: ts)) :=
  run_bind (attributes_none hFree)

theorem attributesOn_none (attr : VarAttr) (hFree : t.Free attributeWords) :
    attributesOn read attr (s.before (t :: ts)) =
      .ok attr (s.before (t :: ts)) := run_bind (attributes_none hFree)

theorem attributesOn?_none (attr? : Option VarAttr) (hFree : t.Free attributeWords) :
    attributesOn? read attr? (s.before (t :: ts)) = .ok attr? (s.before (t :: ts)) := by
  cases attr? with
  | none => exact run_bind (skipAttributes_none hFree)
  | some attr => exact run_bind (attributesOn_none attr hFree)

theorem isTypeName_before (t : Token) :
    isTypeName t (s.before ts) = .ok (typeWords.any t.is || (s.typedef? t).isSome)
        (s.before ts) := by
  unfold isTypeName
  cases hWord : typeWords.any t.is
  · exact run_bind (typedef?_before t)
  · rfl

/- Whether a type in parentheses follows. -/
theorem atParenType_miss (hIs : t.is "(" = false) :
    atParenType (s.before (t :: ts)) = .ok false (s.before (t :: ts)) := by
  unfold atParenType
  rw [run_bind check_before, hIs]
  rfl

theorem atParenType_open (hIs : t.is "(" = true) :
    atParenType (s.before (t :: u :: ts)) = isTypeName u (s.before (t :: u :: ts)) := by
  unfold atParenType
  rw [run_bind check_before, hIs]
  rfl

/- The words of builtin types among the words that start a type. -/
theorem builtin_classes {v : String} (hWord : v ∈ builtinWords) (hSpells : t.Spells v) :
    t.Free attributeWords ∧ typeWords.any t.is = true ∧ storageWords.any t.is = false ∧
      qualifierWords.any t.is = false ∧ t.is "_Atomic" = false ∧
      t.is "_Alignas" = false ∧
      ["struct", "union", "enum", "typeof", "__typeof__"].any t.is =
        false := by
  have hIs : t.is = fun x => ascii v == ascii x := by
    funext x
    exact hSpells.is_eq x
  unfold Token.Free
  rw [hIs]
  clear hIs hSpells
  revert v
  decide

variable {type : CType} {p : Progress}

/- One word of a builtin type. -/
theorem specifierStep_builtin (hKind : t.kind = .keyword) (hAdd : p.words.add t = some w)
    (hType : w.type? = some type) (hNext : u.Free attributeWords) :
    specifierStep read p (s.before (t :: u :: rest)) =
      .ok (.inl { p with type := type, words := w })
        (s.before (u :: rest)) := by
  rcases TypeWords.add_spells hAdd with ⟨v, hWord, hSpells⟩
  rcases builtin_classes hWord hSpells with
    ⟨-, hStart, hStorage, hQualifier, hAtomic, hAlignas, hUser⟩
  have hNamed : s.typedef? t = none := by simp [ParseState.typedef?, Token.isIdent, hKind]
  have hBuiltin : builtinStep read p t (s.before (t :: u :: rest)) =
      .ok { p with type := type, words := w } (s.before (u :: rest)) := by
    unfold builtinStep
    simp only [hAdd, hType]
    rw [run_bind advance_before, run_bind (attributesOn?_none _ hNext)]
    rfl
  unfold specifierStep
  rw [run_bind tok_before, run_bind (isTypeName_before t)]
  simp only [hStart, hStorage, hQualifier, hAtomic, hAlignas,
    Bool.true_or, Bool.not_true, Bool.false_eq_true, if_false]
  rw [run_bind (typedef?_before t)]
  simp only [hNamed, hUser, Option.isSome_none, Bool.or_self, Bool.false_eq_true, if_false]
  rw [run_bind hBuiltin]
  rfl

/-
  The end of the specifiers: a token that starts no type, or
  the name of a type behind other words.
-/
theorem specifierStep_end (hWords : p.words ≠ {}) (hFree : t.Free typeWords) :
    specifierStep read p (s.before (t :: rest)) = .ok (.inr p) (s.before (t :: rest)) := by
  unfold specifierStep
  rw [run_bind tok_before, run_bind (isTypeName_before t), hFree.any]
  cases hNamed : s.typedef? t with
  | none => rfl
  | some type =>
    have hStorage : storageWords.any t.is = false := (hFree.mono (by decide)).any
    have hQualifier : qualifierWords.any t.is = false := (hFree.mono (by decide)).any
    simp only [hStorage, hQualifier, hFree "_Atomic" (by decide),
      hFree "_Alignas" (by decide), Option.isSome_some,
      Bool.or_true, Bool.not_true, Bool.false_eq_true, if_false]
    rw [run_bind (typedef?_before t)]
    simp only [hNamed, Option.isSome_some, Bool.true_or, if_true, bne_iff_ne.mpr hWords]
    rfl

variable {ws : List Token}

theorem addAll?_cons (hAdd : w.addAll? (t :: ws) = some w') :
    ∃ w₁ type, w.add t = some w₁ ∧ w₁.type? = some type ∧ w₁.addAll? ws = some w' := by
  simp only [TypeWords.addAll?, Option.bind_eq_bind, Option.bind_eq_some_iff] at hAdd
  rcases hAdd with ⟨w₁, hOne, hRest⟩
  split at hRest
  · rename_i hSome
    rcases Option.isSome_iff_exists.mp hSome with ⟨type, hType⟩
    exact ⟨w₁, type, hOne, hType, hRest⟩
  · cases hRest

theorem spells_addAll? (hAdd : w.addAll? ws = some w') :
    ∀ t ∈ ws, ∃ v ∈ builtinWords, t.Spells v := by
  induction ws generalizing w with
  | nil => exact fun t hMem => absurd hMem List.not_mem_nil
  | cons u us ih =>
    rcases addAll?_cons hAdd with ⟨w₁, type, hOne, -, hRest⟩
    intro t hMem
    rcases List.mem_cons.mp hMem with rfl | hMem
    · exact TypeWords.add_spells hOne
    · exact ih hRest t hMem

/- The first word of a builtin type. -/
theorem exists_word (hBuiltin : BuiltinType ws type) :
    ∃ t ts v, ws = t :: ts ∧ v ∈ builtinWords ∧ t.Spells v := by
  rcases hBuiltin.type with ⟨w, hAdd, -⟩
  rcases List.exists_cons_of_ne_nil hBuiltin.nonempty with ⟨t, ts, rfl⟩
  rcases spells_addAll? hAdd t List.mem_cons_self with
    ⟨v, hWord, hSpells⟩
  exact ⟨t, ts, v, rfl, hWord, hSpells⟩

/- The words of a builtin type, from the first to the last. -/
theorem repeatN_builtin {last : CType} (hKeywords : ∀ t ∈ ws, t.kind = .keyword)
    (hType : w.type? = some type) (hAdd : w.addAll? ws = some w') (hLast : w'.type? = some last)
    (hWords : w' ≠ {}) (hNext : u.Free (typeWords ++ attributeWords)) (hEnough : ws.length < n) :
    repeatN (specifierStep read) n ⟨type, w, false, attr?⟩ (s.before (ws ++ u :: rest)) =
      .ok ⟨last, w', false, attr?⟩ (s.before (u :: rest)) := by
  rcases Nat.exists_eq_add_of_lt hEnough with ⟨m, rfl⟩
  induction ws generalizing w type with
  | nil =>
    cases hAdd
    rw [hType] at hLast
    cases hLast
    apply repeatN_one
    exact specifierStep_end hWords (hNext.mono (by decide))
  | cons t ws ih =>
    rcases addAll?_cons hAdd with ⟨w₁, type₁, hOne, hType₁, hRest⟩
    have hHead : ∃ v vs, ws ++ u :: rest = v :: vs ∧ v.Free attributeWords := by
      cases ws with
      | nil => exact ⟨u, rest, rfl, hNext.mono (by decide)⟩
      | cons v vs =>
        rcases spells_addAll? hRest v List.mem_cons_self with
          ⟨x, hWord, hSpells⟩
        exact ⟨v, _, rfl, (builtin_classes hWord hSpells).1⟩
    rcases hHead with ⟨v, vs, hHead, hFree⟩
    have hStep : specifierStep read ⟨type, w, false, attr?⟩ (s.before (t :: (ws ++ u :: rest))) =
        .ok (.inl ⟨type₁, w₁, false, attr?⟩) (s.before (ws ++ u :: rest)) := by
      rw [hHead]
      exact specifierStep_builtin (hKeywords t List.mem_cons_self) hOne hType₁ hFree
    rw [List.cons_append, List.length_cons,
      show ws.length + 1 + m + 1 = (ws.length + m + 1) + 1 by omega,
      repeatN_next _ hStep]
    exact ih (fun x hMem => hKeywords x (List.mem_cons_of_mem t hMem)) hType₁ hRest (by omega)

/- A specifier that is the name of a type. -/
theorem repeatN_typedef (hNamed : s.typedef? t = some type) (hFree : t.Free typeWords)
    (hNext : u.Free typeWords) :
    repeatN (specifierStep read) (n + 2) ⟨.int, {}, false, attr?⟩
        (s.before (t :: u :: rest)) = .ok ⟨type, { other := 1 }, false, attr?⟩
        (s.before (u :: rest)) := by
  have hStorage : storageWords.any t.is = false := (hFree.mono (by decide)).any
  have hQualifier : qualifierWords.any t.is = false := (hFree.mono (by decide)).any
  have hStep : specifierStep read ⟨.int, {}, false, attr?⟩ (s.before (t :: u :: rest)) =
      .ok (.inl ⟨type, { other := 1 }, false, attr?⟩) (s.before (u :: rest)) := by
    have hUser : userType read t (some type) (s.before (u :: rest)) =
        .ok type (s.before (u :: rest)) := by
      unfold userType
      simp only [hFree "struct" (by decide), hFree "union" (by decide),
        hFree "enum" (by decide), hFree "typeof" (by decide),
        hFree "__typeof__" (by decide), Bool.or_self,
        Bool.false_eq_true, if_false]
      rfl
    unfold specifierStep
    rw [run_bind tok_before, run_bind (isTypeName_before t)]
    simp only [hFree.any, hStorage, hQualifier, hNamed,
      hFree "_Atomic" (by decide), hFree "_Alignas" (by decide),
      Option.isSome_some, Bool.or_true, Bool.not_true,
      Bool.false_eq_true, if_false]
    rw [run_bind (typedef?_before t)]
    simp only [hNamed, Option.isSome_some, Bool.true_or, if_true]
    rw [if_neg (by decide)]
    rw [run_bind advance_before, run_bind hUser]
    rfl
  rw [repeatN_next _ hStep]
  apply repeatN_one
  have hWords : ({ other := 1 } : TypeWords) ≠ {} := by decide
  exact specifierStep_end hWords hNext

end Specifier

------------
-- Type Names
------------

open Parse Specifier

/- The words of a type that is builtin or has a name. -/
def NamesType (s : ParseState) (ws : List Token) (type : CType) : Prop :=
  BuiltinType ws type ∨ ∃ t, ws = [t] ∧ t.Free (typeWords ++ attributeWords) ∧
    s.typedef? t = some type

namespace NamesType

variable {s : ParseState} {ws rest : List Token} {type : CType}
  {u : Token} {read : Reader} {attr? : Option VarAttr}

/- The first of the words belongs to no attribute. -/
theorem exists_plain (hNames : NamesType s ws type) :
    ∃ t ts, ws = t :: ts ∧ t.Free attributeWords := by
  rcases hNames with hBuiltin | ⟨t, rfl, hFree, -⟩
  · rcases exists_word hBuiltin with ⟨t, ts, v, rfl, hWord, hSpells⟩
    exact ⟨t, ts, rfl, (builtin_classes hWord hSpells).1⟩
  · exact ⟨t, [], rfl, hFree.mono (by decide)⟩

/- The words are read one after the other. -/
theorem repeated (hNames : NamesType s ws type) (hNext : u.Free (typeWords ++ attributeWords))
    (hEnough : ws.length < n) :
    ∃ w, repeatN (specifierStep read) n ⟨.int, {}, false, attr?⟩ (s.before (ws ++ u :: rest)) =
      .ok ⟨type, w, false, attr?⟩ (s.before (u :: rest)) := by
  rcases hNames with hBuiltin | ⟨t, rfl, hFree, hNamed⟩
  · rcases hBuiltin.type with ⟨w, hAdd, hType⟩
    exact ⟨w, repeatN_builtin hBuiltin.keywords rfl hAdd hType
      (TypeWords.addAll?_ne hAdd hBuiltin.nonempty) hNext hEnough⟩
  · rcases Nat.exists_eq_add_of_le' (show 2 ≤ n from hEnough) with
      ⟨m, rfl⟩
    exact ⟨_, repeatN_typedef hNamed (hFree.mono (by decide)) (hNext.mono (by decide))⟩

theorem specifiers (hNames : NamesType s ws type) (hNext : u.Free (typeWords ++ attributeWords))
    (hLimit : ws.length ≤ s.limit) :
    specifiers read attr? (s.before (ws ++ u :: rest)) =
      .ok (type, attr?) (s.before (u :: rest)) := by
  have hFirst : attributesOn? read attr? (s.before (ws ++ u :: rest)) =
      .ok attr? (s.before (ws ++ u :: rest)) := by
    rcases hNames.exists_plain with ⟨t, ts, rfl, hFree⟩
    exact attributesOn?_none _ hFree
  have hEnough : ws.length < 2 * s.limit + 8 := by omega
  rcases hNames.repeated hNext hEnough with ⟨w, hWords⟩
  have hLoop : iterate (⟨.int, {}, false, attr?⟩ : Progress)
      (specifierStep read) (s.before (ws ++ u :: rest)) =
      .ok ⟨type, w, false, attr?⟩ (s.before (u :: rest)) := by
    rw [iterate_apply]
    exact hWords
  unfold Specifier.specifiers
  rw [run_bind hFirst, run_bind hLoop, run_bind (attributesOn?_none _ (hNext.mono (by decide)))]
  rfl

/- The first of the words starts a type. -/
theorem exists_first (hNames : NamesType s ws type) :
    ∃ t ts, ws = t :: ts ∧ ∀ us, isTypeName t (s.before us) = .ok true (s.before us) := by
  rcases hNames with hBuiltin | ⟨t, rfl, hFree, hNamed⟩
  · rcases exists_word hBuiltin with ⟨t, ts, v, rfl, hWord, hSpells⟩
    refine ⟨t, ts, rfl, ?_⟩
    intro us
    rw [isTypeName_before, (builtin_classes hWord hSpells).2.1]
    rfl
  · refine ⟨t, [], rfl, ?_⟩
    intro us
    rw [isTypeName_before, hNamed, Option.isSome_some, Bool.or_true]

/- A type in parentheses. -/
theorem read_typeName (hNames : NamesType s ws type) (hClose : u.Punct ")")
    (hLimit : ws.length ≤ s.limit) (n : Nat) :
    TranslationUnit.read (n + 3) .typeName (s.before (ws ++ u :: rest)) =
      .ok type (s.before (u :: rest)) := by
  have hIs := hClose.spells.is_eq
  have hFree : u.Free (typeWords ++ attributeWords) := by
    unfold Token.Free
    simp only [hIs]
    decide
  have hPointers : ∀ read, Declarator.pointers read type
      (s.before (u :: rest)) = .ok type (s.before (u :: rest)) := by
    intro read
    apply iterate_one
    rw [run_bind (accept_miss (by rw [hIs]; decide))]
    rfl
  have hSuffix : ∀ read, Declarator.typeSuffix read type
      (s.before (u :: rest)) = .ok type (s.before (u :: rest)) := by
    intro read
    unfold Declarator.typeSuffix
    rw [run_bind (accept_miss (by rw [hIs]; decide)), if_neg Bool.false_ne_true,
      run_bind (accept_miss (by rw [hIs]; decide))]
    rfl
  change Declarator.typeName (TranslationUnit.read (n + 2)) _ = _
  unfold Declarator.typeName
  have hSpecifiers : TranslationUnit.read (n + 2) (.specifiers none)
      (s.before (ws ++ u :: rest)) = .ok (type, none) (s.before (u :: rest)) :=
    hNames.specifiers hFree hLimit
  rw [run_bind hSpecifiers]
  change Declarator.abstractDeclarator (TranslationUnit.read (n + 1)) type _ = _
  unfold Declarator.abstractDeclarator
  have hParen : atParenType (s.before (u :: rest)) = .ok false (s.before (u :: rest)) :=
    atParenType_miss (by rw [hIs]; decide)
  have hPeek : peekIs ")" (s.before (u :: rest)) = .ok ((rest.head?.map (·.is ")")).getD false)
        (s.before (u :: rest)) := rfl
  have hNested : ¬ (ascii ")" == ascii "(" && !false &&
      !(rest.head?.map (·.is ")")).getD false) = true := by
    rw [show (ascii ")" == ascii "(") = false by decide]
    exact Bool.false_ne_true
  rw [run_bind (hPointers _), run_bind check_before, hIs,
    run_bind hParen, run_bind hPeek, if_neg hNested]
  exact hSuffix _

end NamesType

end CCompiler
