import Mathlib
import CCompiler.Proofs.Syntax.DeclarationTexts
import CCompiler.Proofs.Syntax.ObjectSteps
import CCompiler.Preprocess.Preprocessor

/-
  A variable that is declared twice with one text.

  The first declaration, behind the word `extern`, gives a name a
  type; the second one is held against it.  The arrays that a text
  writes are other ones each time, so that the declarations agree
  only if no array of a known length stands below the outermost
  one.

  Main declarations:
    * `Wording.Variable`
    * `TranslationUnit.declared_again`
-/

------------
-- Declared Variables
------------

namespace CCompiler

namespace Wording

variable {s : ParseState} {x : Bytes} {ts : List Token}
  {f : Pattern → Pattern} {name? : Option Token}

/- A suffix leaves a type or decides whether it is a function. -/
theorem Suffix.isFunction (hSuffix : Suffix x s ts f) :
    f = id ∨ ∃ k, ∀ p, (f p).isFunction = k := by
  cases hSuffix with
  | nothing => exact .inl rfl
  | unsized | sized => exact .inr ⟨false, fun _ => rfl⟩
  | void | function => exact .inr ⟨true, fun _ => rfl⟩

/- So does a declarator, whatever type it starts from. -/
theorem Declarator.isFunction :
    ∀ {ts name? f}, Declarator x s ts name? f → f = id ∨ ∃ k, ∀ p, (f p).isFunction = k
| _, _, _, .pointer (f := f) hStar hInner => by
    rcases hInner.isFunction with rfl | ⟨k, hAll⟩
    · exact .inr ⟨false, fun _ => rfl⟩
    · exact .inr ⟨k, fun p => hAll _⟩
| _, _, _, .name hKind hFree hSuffix => hSuffix.isFunction
| _, _, _, .nameless hSuffix hArray => hSuffix.isFunction
| _, _, _, .paren hOpen hInner hClose hSuffix => by
    rcases hInner.isFunction with rfl | ⟨k, hAll⟩
    · exact hSuffix.isFunction
    · exact .inr ⟨k, fun p => hAll _⟩

/-
  The text of a declaration of a variable: the specifiers mention a
  type, and the declarator makes of it one for an object.
-/
structure Variable (x : Bytes) (s : ParseState) (ws ts : List Token)
    (name : Token) (t : CType) (f : Pattern → Pattern) : Prop where
  specifiers : Specifiers s ws t
  declarator : Declarator x s ts (some name) f
  declares : name.text = x
  object : (f (.given t)).isObject = true
  short : ts.length ≤ s.limit

end Wording

------------
-- Reading a Declaration
------------

namespace TranslationUnit

open Parse Specifier Declaration
open Wording (Variable Based Closing afterStops)

variable {s a b : ParseState} {x : Bytes} {ws ts us rest : List Token}
  {f : Pattern → Pattern} {t : CType} {name c u w : Token} {lo n : Nat}
  {attr : VarAttr}

/-
  A state after one of its names was declared as a variable of the
  unit, which has become the last object.
-/
structure Adds (x : Bytes) (t : CType) (a b : ParseState) :
    Prop where
  cfg : b.cfg = a.cfg
  limit : b.limit = a.limit
  scope : ∃ sc : Scope, a.scopes = [sc] ∧
    b.scopes = [{ sc with vars := (x, .object a.objects.size) :: sc.vars }]
  records : b.records = a.records
  nextType : b.nextType = a.nextType
  object : ∃ o : Obj, b.objects = a.objects.push o ∧ o.type = t ∧
    o.isFunction = false ∧ o.isStatic = false

/- What is done once the name and the type of a variable are known. -/
def namedVariable (read : Reader) (d : Declared) (name : Token)
    (attr : VarAttr) : Parse VarAttr := do
  if d.type.isVoid then fail name .variableVoid
  if d.type.isVla then fail name .vlaAtFileScope
  let attr ← attributesOn read attr
  let inherited ← checkRedeclared name d.type attr
  let v ← newGlobal name.text d.type
  modifyObject v fun o => { o with
    isDefinition := !attr.isExtern
    isStatic := attr.isStatic || inherited
    isThreadLocal := attr.isThreadLocal
    align := alignOr attr.align o.align }
  if ← accept "=" then
    if (← get).initialized.contains name.text then
      fail name (.redefinition name.text)
    modify fun s => { s with initialized := name.text :: s.initialized }
    InitialValue.globalInit read v
  else if !attr.isExtern && !attr.isThreadLocal then
    modifyObject v fun o => { o with isTentative := true }
  skipAttributes read
  return attr

theorem unitVariable_eq (read : Reader) (base : CType) (attr : VarAttr) :
    unitVariable read base attr = (do
      let d ← read (.declarator base)
      match d.name? with
      | none => fail d.pos .globalNameOmitted
      | some name => namedVariable read d name attr) := rfl

variable {sc : Scope}

theorem newGlobal_before (hScopes : a.scopes = [sc]) (y : Bytes) (t : CType) :
    newGlobal y t (a.before us) = .ok a.objects.size ({ a with
        objects := a.objects.push { name := y
                                    type := t
                                    align := t.align a.records
                                    isStatic := true
                                    isDefinition := true }
        scopes := [{ sc with vars := (y, .object a.objects.size) :: sc.vars }]
        globals := a.globals.push (.object a.objects.size)
        }.before us) := by
  have hPush := @Objects.modify_push_size a.objects
    { name := y, type := t, align := t.align a.records }
    fun o => { o with isStatic := true, isDefinition := true }
  rw [← hPush]
  clear hPush
  obtain ⟨cfg, toks, limit, scopes, objects⟩ := a
  cases hScopes
  rfl

theorem modifyObject_before (v : ObjId) (f : Obj → Obj) :
    modifyObject v f (a.before us) =
      .ok () ({ a with objects := a.objects.modify v f }.before us) := rfl

variable {d : Declared}

/- Without an initializer the variable is only declared. -/
theorem namedVariable_run (read : Reader) (hScopes : a.scopes = [sc])
    (hVoid : d.type.isVoid = false) (hVla : d.type.isVla = false)
    (hAttr : attr = { isExtern := true } ∨ attr = {}) (hEnd : c.Punct ";")
    (hCheck : checkRedeclared name d.type attr (a.before (c :: us)) =
      .ok false (a.before (c :: us))) :
    ∃ b, namedVariable read d name attr (a.before (c :: us)) =
        .ok attr (b.before (c :: us)) ∧ Adds name.text d.type a b := by
  have hIs := hEnd.spells.is_eq
  have hPlain : c.Free attributeWords := by
    unfold Token.Free
    simp only [hIs]
    decide
  unfold namedVariable
  simp only [hVoid, hVla, Bool.false_eq_true, if_false]
  rw [run_bind (attributesOn_none attr hPlain), run_bind hCheck, run_bind (newGlobal_before hScopes _ _),
    run_bind (modifyObject_before _ _), Objects.modify_push_size,
    run_bind (accept_miss (by rw [hIs]; decide)), if_neg Bool.false_ne_true]
  rcases hAttr with rfl | rfl
  · rw [if_neg (by decide), run_bind (skipAttributes_none hPlain)]
    exact ⟨_, rfl, rfl, rfl, ⟨sc, hScopes, rfl⟩, rfl, rfl, _, rfl, rfl, rfl, rfl⟩
  · rw [if_pos (by decide), run_bind (modifyObject_before _ _),
      Objects.modify_push_size, run_bind (skipAttributes_none hPlain)]
    exact ⟨_, rfl, rfl, rfl, ⟨sc, hScopes, rfl⟩, rfl, rfl, _, rfl, rfl, rfl, rfl⟩

/- One variable of a declaration, or its end. -/
def variableStep (read : Reader) (base : CType) :
    Bool × VarAttr → Parse (Sum (Bool × VarAttr) Unit)
| (isFirst, attr) => do
  if ← accept ";" then return .inr ()
  if !isFirst then expect ","
  return .inl (false, ← unitVariable read base attr)

theorem unitVariables_eq (read : Reader) (base : CType) (attr : VarAttr) :
    unitVariables read base attr = iterate (true, attr) (variableStep read base) := rfl

/- The semicolon behind the only variable. -/
theorem variableStep_end {read : Reader} {base : CType} (k : Nat) (hEnd : c.Punct ";") :
    repeatN (variableStep read base) (k + 1) (false, attr)
        (b.before (c :: u :: rest)) = .ok () (b.before (u :: rest)) := by
  apply repeatN_one
  rw [variableStep, run_bind (accept_hit (by
    rw [hEnd.spells.is_eq]
    decide)), if_pos rfl]
  rfl

/- A type is read, and its declarator is not that of a function. -/
theorem goes_atFunction (hVariable : Variable x s ws ts name t f) (hNew : s.binding? x = none)
    (hLater : s.Later x a) (hEnd : c.Punct ";") (hFuel : 32 * ts.length + 8 ≤ n) :
    Goes a (Declaration.atFunction (read n)) (ts ++ c :: us)
      (ts ++ c :: us) fun r _ => r = false := by
  rcases hVariable.declarator.exists_first with ⟨v, vs, rfl, hFree⟩
  have hBased : Based x s a a.nextType (.given .void) .void := ⟨hLater, le_rfl, ⟨rfl, nofun⟩, rfl⟩
  have hRead := hVariable.declarator.reads hNew hVariable.short a n _ _ _
    c us hBased hFuel ⟨";", by decide, hEnd⟩
  unfold Declaration.atFunction
  apply goes_step check_before
  rw [hFree ";" (by decide), if_neg Bool.false_ne_true]
  apply goes_step cursor_before
  apply goes_step (skipAttributes_none (hFree.mono (by decide)))
  apply hRead.bind
  rintro d b - ⟨-, hOut⟩
  apply goes_step (rewind_before _)
  apply goes_pure
  rw [hOut.fits.isFunction]
  rcases hVariable.declarator.isFunction with rfl | ⟨k, hAll⟩
  · rfl
  · rw [hAll, ← hAll (.given t)]
    exact Pattern.isFunction_of_isObject hVariable.object

/-
  A declaration is read to its semicolon, where its variable has a
  type of the pattern that the text describes.
-/
theorem topLevel_variable {front : List Token} (hVariable : Variable x s ws ts name t f)
    (hNew : s.binding? x = none) (hLater : s.Later x a)
    (hSpecifiers : Goes a (read n (.specifiers (some {})))
      (front ++ (ws ++ (ts ++ c :: us))) (ts ++ c :: us) fun r _ =>
        r = (t, some attr)) (hPlain : attr.isTypedef = false)
    (hFirst : ∃ v vs, front ++ (ws ++ (ts ++ c :: us)) = v :: vs ∧
      v.Free ["asm", "__asm__"]) (hEnd : c.Punct ";") (hFuel : 32 * ts.length + 8 ≤ n) :
    ∃ b d, a.Grows b ∧ (f (.given t)).Fits b.records a.nextType b.nextType d.type ∧
      TranslationUnit.topLevel (read n) (a.before (front ++ (ws ++ (ts ++ c :: us)))) = (do
          let attr ← namedVariable (read n) d name attr
          repeatN (variableStep (read n) t) (2 * b.limit + 7)
            (false, attr)) (b.before (c :: us)) := by
  rcases hSpecifiers with ⟨_, a₁, hGrows₁, hRun₁, rfl⟩
  have hLater₁ := hLater.trans (hGrows₁.later x)
  have hObject : Goes a₁ (Declaration.atFunction (read n))
      (ts ++ c :: us) (ts ++ c :: us) fun r _ => r = false :=
    goes_atFunction hVariable hNew hLater₁ hEnd hFuel
  rcases hObject with ⟨_, a₂, hGrows₂, hRun₂, rfl⟩
  have hHere := hVariable.specifiers.later hLater hNew
  have hBased : Based x s a₂ a.nextType (.given t) t :=
    Based.grows (Based.grows ⟨hLater, le_rfl, ⟨hHere.fixed, hHere.known⟩, rfl⟩ hGrows₁) hGrows₂
  rcases hVariable.declarator.reads hNew hVariable.short a₂ n _ _ _ c us
    hBased hFuel ⟨";", by decide, hEnd⟩ with
    ⟨d, b, hGrows₃, hRun₃, hName, hOut⟩
  refine ⟨b, d, (hGrows₁.trans hGrows₂).trans hGrows₃, hOut.fits, ?_⟩
  have hSemicolon : accept ";" (a₂.before (ts ++ c :: us)) =
      .ok false (a₂.before (ts ++ c :: us)) := by
    rcases hVariable.declarator.exists_first with ⟨v, vs, rfl, hFree⟩
    exact accept_miss (hFree ";" (by decide))
  have hLimit : a₂.limit = b.limit := by
    rcases hGrows₃ with ⟨k, rs, -, -, rfl⟩
    rfl
  rcases hFirst with ⟨v, vs, hTokens, hFree⟩
  unfold TranslationUnit.topLevel
  rw [hTokens] at hRun₁ ⊢
  rw [run_bind tok_before, hFree "asm" (by decide),
    hFree "__asm__" (by decide), if_neg (by decide), run_bind hRun₁]
  simp only [Option.getD_some, hPlain, Bool.false_eq_true, if_false]
  rw [run_bind hRun₂, if_neg Bool.false_ne_true, unitVariables_eq, iterate_apply]
  change repeatN _ (2 * a₂.limit + 7 + 1) _ _ = _
  rw [repeatN, variableStep, bind_assoc, run_bind hSemicolon, if_neg Bool.false_ne_true]
  simp only [Bool.not_true, Bool.false_eq_true, if_false, bind_assoc, pure_bind, unitVariable_eq]
  rw [run_bind hRun₃, hName, hLimit]

------------
-- Two Declarations
------------

/- The name alone has another meaning. -/
theorem Adds.later (hAdds : Adds x t a b) : a.Later x b := by
  rcases hAdds.scope with ⟨sc, hScopes, hScopes'⟩
  rcases hAdds.object with ⟨o, hObjects, -⟩
  refine ⟨hAdds.cfg, hAdds.limit, ?_, ?_, ?_, ⟨#[o], ?_⟩, hAdds.nextType.ge⟩
  · intro y hOther
    have hKey : (y == x) = false := beq_eq_false_iff_ne.mpr hOther
    simp [ParseState.binding?, hScopes, hScopes', List.lookup, hKey]
  · intro y
    simp [ParseState.tag?, hScopes, hScopes']
  · rw [hAdds.records]
    exact .refl _
  · rw [hObjects]
    rfl

/- A name that means nothing yet. -/
theorem checkRedeclared_new (hScopes : a.scopes = [sc]) (hNew : sc.vars.lookup name.text = none)
    (t : CType) (attr : VarAttr) (us : List Token) :
    checkRedeclared name t attr (a.before us) = .ok false (a.before us) := by
  have hLookup : lookupGlobal? name.text (a.before us) = .ok none (a.before us) := by
    change EStateM.Result.ok (a.scopes.getLast?.bind fun sc => sc.vars.lookup name.text) _ = _
    rw [hScopes]
    exact congrArg (EStateM.Result.ok · (a.before us)) hNew
  unfold checkRedeclared
  rw [run_bind hLookup]
  rfl

/- A name that stands for a variable of a type. -/
structure Known (x : Bytes) (a : ParseState) (t : CType) : Prop where
  object : ∃ sc v, a.scopes = [sc] ∧ sc.vars.lookup x = some (.object v) ∧
    (a.objects.entry v).type = t ∧ (a.objects.entry v).isFunction = false ∧
    (a.objects.entry v).isStatic = false

theorem Adds.known (hAdds : Adds x t a b) : Known x b t := by
  rcases hAdds.scope with ⟨sc, -, hScopes⟩
  rcases hAdds.object with ⟨o, hObjects, hType, hFunction, hStatic⟩
  refine ⟨_, a.objects.size, hScopes, List.lookup_cons_self, ?_⟩
  rw [hObjects, Objects.entry_push_size]
  exact ⟨hType, hFunction, hStatic⟩

theorem Known.grows (hKnown : Known x a t) (hGrows : a.Grows b) : Known x b t := by
  rcases hGrows with ⟨k, rs, -, -, rfl⟩
  exact ⟨hKnown.object⟩

/- A second declaration is held against the first one. -/
theorem checkRedeclared_known (hKnown : Known name.text a t) (v : CType) (us : List Token) :
    checkRedeclared name v {} (a.before us) =
      if t.sameObject a.records v then .ok false (a.before us)
      else .error (.fault (.conflictingTypes name.text) name.place)
        (a.before us) := by
  rcases hKnown.object with
    ⟨sc, id, hScopes, hName, rfl, hFunction, hStatic⟩
  have hLookup : lookupGlobal? name.text (a.before us) = .ok (some (.object id)) (a.before us) := by
    change EStateM.Result.ok (a.scopes.getLast?.bind fun sc => sc.vars.lookup name.text) _ = _
    rw [hScopes]
    exact congrArg (EStateM.Result.ok · (a.before us)) hName
  have hObject : object id (a.before us) = .ok (a.objects.entry id) (a.before us) := rfl
  unfold checkRedeclared
  rw [run_bind hLookup]
  simp only
  rw [run_bind hObject]
  simp only [hFunction, hStatic, Bool.false_eq_true, if_false, Bool.false_and, Bool.and_false]
  rw [run_bind records_before]
  cases hSame : (a.objects.entry id).type.sameObject a.records v <;> rfl

/- If the types conflict, nothing is declared. -/
theorem namedVariable_conflict (hVoid : d.type.isVoid = false) (hVla : d.type.isVla = false)
    (hEnd : c.Punct ";") (hKnown : Known name.text a t)
    (hSame : t.sameObject a.records d.type = false) (read : Reader) (us : List Token) :
    namedVariable read d name {} (a.before (c :: us)) =
      .error (.fault (.conflictingTypes name.text) name.place) (a.before (c :: us)) := by
  have hPlain : c.Free attributeWords := by
    unfold Token.Free
    simp only [hEnd.spells.is_eq]
    decide
  have hCheck := checkRedeclared_known hKnown d.type (c :: us)
  rw [hSame, if_neg Bool.false_ne_true] at hCheck
  unfold namedVariable
  simp only [hVoid, hVla, Bool.false_eq_true, if_false]
  rw [run_bind (attributesOn_none {} hPlain), bind_apply, hCheck]

/- The first declaration gives the name its type. -/
theorem topLevel_extern {e : Token} (hFile : s.scopes = [sc]) (hNew : s.binding? x = none)
    (hVariable : Variable x s ws ts name t f) (hExtern : e.Spells "extern") (hEnd : c.Punct ";")
    (hFuel : 32 * ts.length + 8 ≤ n) (u : Token) (rest : List Token) :
    ∃ (b : ParseState) (v : CType), s.Later x b ∧ Known x b v ∧
      (f (.given t)).Fits b.records s.nextType b.nextType v ∧
      topLevel (read n) (s.before (e :: (ws ++ (ts ++ c :: u :: rest)))) =
        .ok () (b.before (u :: rest)) := by
  have hClosing : Closing c := ⟨";", by decide, hEnd⟩
  have hWords : Goes s (read n (.specifiers (some {})))
      ([e] ++ (ws ++ (ts ++ c :: u :: rest))) (ts ++ c :: u :: rest)
      fun r _ => r = (t, some { isExtern := true }) := by
    rcases hVariable.declarator.exists_after hClosing (u :: rest) with
      ⟨v, vs, hTokens, hFree⟩
    rw [hTokens]
    exact hVariable.specifiers.reads_extern hExtern hFree (by omega)
  have hOther : e.Free ["asm", "__asm__"] := by
    unfold Token.Free
    simp only [hExtern.is_eq]
    decide
  rcases topLevel_variable hVariable hNew (.refl x s) hWords rfl
    ⟨e, _, rfl, hOther⟩ hEnd hFuel with ⟨a, d, hGrows, hFits, hRun⟩
  have hScopes : a.scopes = [sc] := by
    rcases hGrows with ⟨k, rs, -, -, rfl⟩
    exact hFile
  have hLookup : sc.vars.lookup name.text = none := by
    rw [hVariable.declares]
    simpa [ParseState.binding?, hFile] using hNew
  rcases hFits.not_of_isObject hVariable.object with ⟨hVoid, hVla⟩
  rcases namedVariable_run (read n) hScopes hVoid hVla (.inl rfl) hEnd
    (checkRedeclared_new hScopes hLookup d.type _ (c :: u :: rest)) with
    ⟨b, hNamed, hAdds⟩
  rw [hVariable.declares] at hAdds
  refine ⟨b, d.type, (hGrows.later x).trans hAdds.later, hAdds.known, ?_, ?_⟩
  · rw [hAdds.records, hAdds.nextType]
    exact hFits
  · exact hRun.trans ((run_bind hNamed).trans (variableStep_end _ hEnd))

/-
  The second one is accepted if its type agrees with the one that
  the name has.
-/
theorem topLevel_again {v : CType} (hNew : s.binding? x = none)
    (hVariable : Variable x s ws ts name t f) (hLater : s.Later x a) (hKnown : Known x a v)
    (hFits : (f (.given t)).Fits a.records lo a.nextType v) (hEnd : c.Punct ";")
    (hFuel : 32 * ts.length + 8 ≤ n) (u : Token) (rest : List Token) :
    ∃ b : ParseState, topLevel (read n) (a.before (ws ++ (ts ++ c :: u :: rest))) =
      if (f (.given t)).repeats then .ok () (b.before (u :: rest))
      else .error (.fault (.conflictingTypes x) name.place)
        (b.before (c :: u :: rest)) := by
  have hHere := hVariable.specifiers.later hLater hNew
  have hWords : Goes a (read n (.specifiers (some {})))
      ([] ++ (ws ++ (ts ++ c :: u :: rest))) (ts ++ c :: u :: rest)
      fun r _ => r = (t, some {}) := by
    rcases hVariable.declarator.exists_after ⟨";", by decide, hEnd⟩
      (u :: rest) with ⟨v, vs, hTokens, hFree⟩
    rw [hTokens]
    exact hHere.reads hFree (by omega)
  have hFirst : ∃ w vs, [] ++ (ws ++ (ts ++ c :: u :: rest)) = w :: vs ∧
      w.Free ["asm", "__asm__"] := by
    rcases hHere.exists_first with ⟨w, vs, rfl, hFree, -⟩
    exact ⟨w, _, rfl, hFree.mono (by decide)⟩
  rcases topLevel_variable hVariable hNew hLater hWords rfl hFirst hEnd
    hFuel with ⟨b, d, hGrows, hFits', hRun⟩
  rcases hFits'.not_of_isObject hVariable.object with ⟨hVoid, hVla⟩
  have hSame := Pattern.sameObject_fits le_rfl (hFits.mono hGrows.records le_rfl) hFits'
  have hHeld := hKnown.grows hGrows
  rw [← hVariable.declares] at hHeld ⊢
  have hCheck := checkRedeclared_known hHeld d.type (c :: u :: rest)
  rw [hSame] at hCheck
  rw [List.nil_append] at hRun
  cases hRepeats : (f (.given t)).repeats with
  | true =>
    rw [hRepeats, if_pos rfl] at hCheck
    rcases hHeld.object with ⟨sc, id, hScopes, -⟩
    rcases namedVariable_run (read n) hScopes hVoid hVla (.inr rfl) hEnd hCheck with ⟨b', hNamed, -⟩
    exact ⟨b', hRun.trans ((run_bind hNamed).trans (variableStep_end _ hEnd))⟩
  | false =>
    refine ⟨b, hRun.trans ?_⟩
    rw [bind_apply, namedVariable_conflict hVoid hVla hEnd hHeld (hSame.trans hRepeats)]
    rfl

/-
  A variable is declared behind the word `extern` and then again,
  with types that are built after one pattern.  The second
  declaration is accepted if no array of a known length is written
  below the outermost one; otherwise the types conflict.
-/
theorem declared_again {sc : Scope} {ws' ts' : List Token} {name' c' e : Token}
    (hFile : s.scopes = [sc]) (hNew : s.binding? x = none) (hFirst : Variable x s ws ts name t f)
    (hSecond : Variable x s ws' ts' name' t f) (hExtern : e.Spells "extern") (hEnd : c.Punct ";")
    (hEnd' : c'.Punct ";") (hFuel : 32 * ts.length + 8 ≤ n) (hFuel' : 32 * ts'.length + 8 ≤ n)
    (u : Token) (rest : List Token) :
    ∃ b : ParseState, (do topLevel (read n); topLevel (read n))
        (s.before (e :: (ws ++ (ts ++ c :: (ws' ++ (ts' ++ c' :: u :: rest)))))) =
      if (f (.given t)).repeats then .ok () (b.before (u :: rest))
      else .error (.fault (.conflictingTypes x) name'.place)
        (b.before (c' :: u :: rest)) := by
  rcases hSecond.specifiers.exists_first with ⟨w, words, rfl, -⟩
  rcases topLevel_extern hFile hNew hFirst hExtern hEnd hFuel w
    (words ++ (ts' ++ c' :: u :: rest)) with
    ⟨a, v, hLater, hKnown, hFits, hRun⟩
  rcases topLevel_again hNew hSecond hLater hKnown hFits hEnd' hFuel' u rest with ⟨b, hAgain⟩
  exact ⟨b, (run_bind hRun).trans hAgain⟩

open Formula (sample sign sampleState sampleNumber)

/- The declarator (*v[2])(int a[], ...). -/
def tableText : List Token :=
  [sign "(", sign "*", sample .ident "v", sign "[",
    sample (.int .int 2) "2", sign "]", sign ")", sign "(",
    sample .keyword "int", sample .ident "a", sign "[", sign "]",
    sign ",", sign "...", sign ")"]

/- An array of pointers to functions of pointers. -/
def tablePattern (p : Pattern) : Pattern :=
  .array (.pointer (.function p [.pointer (.given .int)] true)) 2

theorem table_variable :
    Variable (ascii "v") sampleState [sample .keyword "int"] tableText
      (sample .ident "v") .int tablePattern where
  specifiers := {
    words := .builtin ⟨by decide, by decide, { int := 1 }, by decide, rfl⟩
    fixed := rfl
    known := nofun
    short := by decide }
  declarator := by
    have hTwo : (sampleNumber 2 "2").Bounds sampleState 2 :=
      ⟨by decide, by decide, trivial, ⟨.int, 2, rfl, rfl⟩, trivial, rfl, by decide⟩
    have hInt : Wording.Specifiers sampleState [sample .keyword "int"] .int :=
      ⟨.builtin ⟨by decide, by decide, { int := 1 }, by decide, rfl⟩, rfl, nofun, by decide⟩
    have hInner : Wording.Declarator (ascii "v") sampleState [sign "*", sample .ident "v", sign "[",
          sample (.int .int 2) "2", sign "]"]
        (some (sample .ident "v")) fun p => .array (.pointer p) 2 :=
      .pointer (by decide) (.name rfl (by decide)
        (.sized (by decide) (hTwo.bound rfl (by decide)) (by decide) .nothing))
    have hArray : Wording.Declarator (ascii "v") sampleState [sample .ident "a", sign "[", sign "]"]
        (some (sample .ident "a")) fun p => .array p (-1) :=
      .name rfl (by decide) (.unsized (by decide) (by decide) .nothing)
    have hDots : Wording.Entries (ascii "v") sampleState false
        ([sign ","] ++ [sign "..."]) [] true :=
      .dots ⟨sign ",", by decide, rfl⟩ (by decide)
    have hEntries : Wording.Entries (ascii "v") sampleState true ([] ++ ([sample .keyword "int"] ++
          ([sample .ident "a", sign "[", sign "]"] ++ [sign ",", sign "..."])))
        [.pointer (.given .int)] true :=
      .more (show Wording.Leads true [] from rfl) hInt hArray nofun hDots
    exact .paren (by decide) hInner (by decide) (.function (by decide) hEntries (by decide))
  declares := rfl
  object := rfl
  short := by decide

/- This table may be declared twice. -/
theorem table_declared_again :
    ∃ b : ParseState, (do topLevel (read 1024); topLevel (read 1024))
        (sampleState.before (sample .keyword "extern" ::
          ([sample .keyword "int"] ++ (tableText ++ sign ";" ::
            ([sample .keyword "int"] ++ (tableText ++ [sign ";", sample .eof ""])))))) =
      .ok () (b.before [sample .eof ""]) :=
  declared_again rfl rfl table_variable table_variable ⟨rfl, rfl⟩
    (by decide) (by decide) (by decide) (by decide) (sample .eof "") []

/- The fault at which reading a text as a unit ends. -/
def faultOf? (text : String) : Option Fault :=
  match (Preprocessor.process (ascii "m.c") (some (ascii text)) []).run {} with
  | .ok ts _ =>
    match (parse {} ts).result with
    | .error (.fault cause _) => some cause
    | _ => none
  | .error _ _ => none

/- Two declarations of a matrix with one text conflict. -/
theorem matrix_conflicts :
    faultOf? "extern int m[2][3]; int m[2][3];" =
      some (.conflictingTypes (ascii "m")) := by decide +kernel

end TranslationUnit

end CCompiler
