import Mathlib
import CCompiler.Proofs.Syntax.QuietSteps

/-
  Reading types keeps an account.  Specifiers and declarators
  make types and names; whatever else they do is done by the
  expressions in them.

  Main declarations:
    * `Account.Safe`, `Account.Reads`, `Account.Rules`
    * `Specifier.safe_specifiers`
    * `Declarator.safe_declarator`, `Declarator.safe_typeName`
-/

------------
-- Readers
------------

namespace CCompiler

set_option synthInstance.maxSize 20000

namespace Account

open Parse

variable {A : Account} {α β σ : Type} {s t : ParseState}
  {p q : Parse α} {f : α → Parse β} {R : ParseState → β → Prop}

/- A computation that keeps the account wherever it starts. -/
class Safe (A : Account) (p : Parse α) : Prop where
  runs : ∀ s, A.Runs s p

instance (priority := low) safe_still [hStill : Still p] : A.Safe p :=
  ⟨fun _ => hStill.quiet.keeps.runs⟩

/- A step about whose result nothing is used. -/
theorem keeps_after [hFirst : A.Safe p] (hNext : ∀ a, A.Keeps s (f a) R) : A.Keeps s (p >>= f) R :=
  (hFirst.runs s).step hNext

theorem ends_after {E : ParseState → Prop} [hFirst : A.Safe p] (hNext : ∀ a, A.Ends s (f a) E) :
    A.Ends s (p >>= f) E := ends_step (hFirst.runs s) hNext

/- A quiet step with a known result first. -/
theorem keeps_known {Q : α → Prop} (hFirst : Parse.Quiet p Q)
    (hNext : ∀ a, Q a → A.Keeps s (f a) R) : A.Keeps s (p >>= f) R :=
  hFirst.keeps.bind fun _ a hGrows hResult => (hNext a hResult).later hGrows

instance safe_bind [A.Safe p] [hNext : ∀ a, A.Safe (f a)] : A.Safe (p >>= f) :=
  ⟨fun s => keeps_after fun a => (hNext a).runs s⟩

theorem safe_step [A.Safe p] (hNext : ∀ a, A.Safe (f a)) : A.Safe (p >>= f) := safe_bind

instance safe_fail_bind (t : Token) (cause : Fault) (f : α → Parse β) :
    A.Safe (fail t cause >>= f) := ⟨fun _ => keeps_fail_bind t cause f⟩

instance safe_ite {c : Prop} [Decidable c] [hThen : A.Safe p] [hElse : A.Safe q] :
    A.Safe (if c then p else q) := by
  split <;> infer_instance

instance safe_iterate (x : σ) {step : σ → Parse (Sum σ β)} [hStep : ∀ x, A.Safe (step x)] :
    A.Safe (iterate x step) := ⟨fun s => runs_iterate fun x => (hStep x).runs s⟩

theorem safe_choice {c : Prop} [Decidable c] (hThen : A.Safe p) (hElse : A.Safe q) :
    A.Safe (if c then p else q) := safe_ite

theorem safe_loop {x : σ} {step : σ → Parse (Sum σ β)} (hStep : ∀ x, A.Safe (step x)) :
    A.Safe (iterate x step) := safe_iterate x

/- A separator before all but the first of a list. -/
theorem keeps_separated {c : Prop} [Decidable c] {w : String} {q : Parse β}
    (hItem : A.Keeps s q R) : A.Keeps s (if c then expect w >>= fun _ => q else q) R :=
  keeps_ite (fun _ => keeps_after fun _ => hItem) fun _ => hItem

/- What a phrase is about before it is read. -/
def given (A : Account) (s : ParseState) :
    {α : Type} → Phrase α → Prop
| _, .initializer i | _, .designation i => A.init s i
| _, _ => True

/- What reading a phrase gives. -/
def gives (A : Account) :
    {α : Type} → Phrase α → ParseState → α → Prop
| _, .expr, s, e | _, .assign, s, e | _, .conditional, s, e
| _, .binary _, s, e | _, .cast, s, e | _, .unary, s, e =>
  A.expr s e
| _, .stmt, s, b | _, .compound, s, b => A.stmt s b
| _, .initializer _, s, i | _, .designation _, s, i => A.init s i
| _, _, _, _ => True

/- A reader keeps an account with every phrase. -/
class Reads (A : Account) (r : Reader) : Prop where
  phrase : ∀ {α : Type} (p : Phrase α) (s : ParseState), A.given s p → A.Keeps s (r p) (A.gives p)

/- The data of a string fill its type. -/
def Spelt (data : Bytes) (t : CType) : Prop :=
  ∀ rs, t.size rs ≤ data.length

/-
  The rules of an account: how it is kept by the steps that
  are about objects.  In a function the only variables of the
  unit that are declared by name are external ones.
-/
class Rules (A : Account) : Prop where
  bound : ∀ {s v}, A.sound s → s.Binds v → v < s.objects.size
  alloca : ∀ {s}, A.sound s → A.ok s s.alloca
  vla : ∀ {s} {i : Nat} {a : Vla}, A.sound s → s.vlas[i]? = some a →
    A.expr s a.len ∧ ∀ v, a.size? = some v → A.ok s v
  newLocal : ∀ s name t,
    A.Keeps s (newLocal name t) fun u v => A.ok u v ∧ u.Local v
  newAnonymous : ∀ s t,
    A.Keeps s (newAnonymous t) fun u v => A.ok u v ∧ u.Anonymous v
  newString : ∀ s data t, Spelt data t →
    A.Keeps s (newString data t) fun u v => A.ok u v ∧ v < u.objects.size
  setAlign : ∀ s v n, s.Local v ∨ s.Anonymous v →
    A.Runs s (modifyObject v fun o => { o with align := n })
  setType : ∀ s v t, s.Local v →
    A.Runs s (modifyObject v fun o => { o with type := t })
  bindName : ∀ s name v, v < s.objects.size → A.Runs s (bindName name (.object v))
  noteReference : ∀ s v, v < s.objects.size →
    A.Keeps s (Expression.noteReference v) fun u _ => A.ok u v
  vlaOf : ∀ s base len, A.expr s len → A.Runs s (vlaOf base len)
  setSize : ∀ s i v, A.ok s v → s.Local v → A.Runs s (Vla.setSize i v)
  globalInit : ∀ s r v [A.Reads r], s.Anonymous v → A.Runs s (InitialValue.globalInit r v)
  unitVariable : ∀ s r base attr [A.Reads r], attr.isExtern = true ∨ A.outer s →
    A.Runs s (Declaration.unitVariable r base attr)
  asm : ∀ t text, A.Safe (modify fun s =>
    { s with globals := s.globals.push (.asm t text) } : Parse Unit)

/- A way to read declarations of functions that keeps the account. -/
def Declares
    (A : Account)
    (function : Reader → CType → VarAttr → Parse Unit) : Prop :=
  ∀ r base attr [A.Reads r], A.Safe (function r base attr)

end Account

------------
-- Specifiers
------------

open Parse Account

variable {A : Account} {s : ParseState} {r : Reader} [hReads : A.Reads r]

namespace Account.Reads

instance safe_specifiers (attr? : Option VarAttr) : A.Safe (r (.specifiers attr?)) :=
  ⟨fun s => hReads.phrase _ s trivial⟩

instance safe_declarator (base : CType) : A.Safe (r (.declarator base)) :=
  ⟨fun s => hReads.phrase _ s trivial⟩

instance safe_abstractDeclarator (base : CType) : A.Safe (r (.abstractDeclarator base)) :=
  ⟨fun s => hReads.phrase _ s trivial⟩

instance safe_typeSuffix (base : CType) : A.Safe (r (.typeSuffix base)) :=
  ⟨fun s => hReads.phrase _ s trivial⟩

instance safe_typeName : A.Safe (r .typeName) := ⟨fun s => hReads.phrase _ s trivial⟩

instance safe_skipExcess : A.Safe (r .skipExcess) := ⟨fun s => hReads.phrase _ s trivial⟩

omit hReads in
theorem expr (hReads : A.Reads r) : A.Keeps s (r .expr) A.expr := hReads.phrase .expr s trivial

omit hReads in
theorem assign (hReads : A.Reads r) : A.Keeps s (r .assign) A.expr :=
  hReads.phrase .assign s trivial

omit hReads in
theorem conditional (hReads : A.Reads r) : A.Keeps s (r .conditional) A.expr :=
  hReads.phrase .conditional s trivial

omit hReads in
theorem cast (hReads : A.Reads r) : A.Keeps s (r .cast) A.expr := hReads.phrase .cast s trivial

omit hReads in
theorem unary (hReads : A.Reads r) : A.Keeps s (r .unary) A.expr := hReads.phrase .unary s trivial

omit hReads in
theorem binary (hReads : A.Reads r) (least : Nat) : A.Keeps s (r (.binary least)) A.expr :=
  hReads.phrase (.binary least) s trivial

omit hReads in
theorem stmt (hReads : A.Reads r) : A.Keeps s (r .stmt) A.stmt := hReads.phrase .stmt s trivial

omit hReads in
theorem compound (hReads : A.Reads r) : A.Keeps s (r .compound) A.stmt :=
  hReads.phrase .compound s trivial

omit hReads in
theorem initializer (hReads : A.Reads r) {i : Init} (hInit : A.init s i) :
    A.Keeps s (r (.initializer i)) A.init := hReads.phrase (.initializer i) s hInit

omit hReads in
theorem designation (hReads : A.Reads r) {i : Init} (hInit : A.init s i) :
    A.Keeps s (r (.designation i)) A.init := hReads.phrase (.designation i) s hInit

instance safe_expr : A.Safe (r .expr) := ⟨fun _ => hReads.expr.runs⟩

instance safe_assign : A.Safe (r .assign) := ⟨fun _ => hReads.assign.runs⟩

instance safe_conditional : A.Safe (r .conditional) := ⟨fun _ => hReads.conditional.runs⟩

instance safe_unary : A.Safe (r .unary) := ⟨fun _ => hReads.unary.runs⟩

end Account.Reads

instance Grammar.safe_constExpr : A.Safe (constExpr r) := by
  dsimp only [constExpr]
  infer_instance

namespace Specifier

open Grammar

instance still_isTypeName (t : Token) : Still (isTypeName t) := by
  dsimp only [isTypeName]
  infer_instance

instance still_atParenType : Still atParenType := by
  have hFound : ∀ t? : Option Token, Still (match t? with
      | some t => isTypeName t
      | none => pure false) := by
    intro t?
    split <;> infer_instance
  dsimp only [atParenType]
  infer_instance

instance still_skipParens : Still skipParens := by
  dsimp only [skipParens]
  infer_instance

instance safe_oneAttribute (a : Attributes) : A.Safe (oneAttribute r a) := by
  dsimp only [oneAttribute]
  infer_instance

instance safe_attributeGroup (a : Attributes) : A.Safe (attributeGroup r a) := by
  dsimp only [attributeGroup]
  infer_instance

instance safe_attributes : A.Safe (attributes r) := by
  dsimp only [attributes]
  infer_instance

instance safe_skipAttributes : A.Safe (skipAttributes r) := by
  dsimp only [skipAttributes]
  infer_instance

instance safe_attributesOn (attr : VarAttr) : A.Safe (attributesOn r attr) := by
  dsimp only [attributesOn]
  infer_instance

instance safe_attributesOn? (attr? : Option VarAttr) : A.Safe (attributesOn? r attr?) := by
  cases attr? <;> unfold attributesOn? <;> infer_instance

instance safe_enumerators (type : CType) : A.Safe (enumerators r type) := by
  dsimp only [enumerators]
  infer_instance

instance still_tag : Still tag? := by
  dsimp only [tag?]
  infer_instance

instance safe_enumSpecifier : A.Safe (enumSpecifier r) := by
  dsimp only [enumSpecifier]
  refine safe_step fun n => safe_step fun t? => safe_step fun b => ?_
  split
  · refine safe_step fun known? => ?_
    split
    · infer_instance
    · split <;> infer_instance
  · split <;> infer_instance

instance safe_memberDeclarator (base : CType) (attr : VarAttr) (index : Nat) :
    A.Safe (memberDeclarator r base attr index) := by
  dsimp only [memberDeclarator]
  infer_instance

instance safe_memberDeclaration (ms : Array Member) : A.Safe (memberDeclaration r ms) := by
  dsimp only [memberDeclaration]
  infer_instance

instance safe_members : A.Safe (members r) := by
  dsimp only [members]
  infer_instance

instance still_closeFlexible (ms : Array Member) : Still (closeFlexible ms) := by
  unfold closeFlexible
  split
  · split <;> infer_instance
  · infer_instance

instance still_recordEntry (tag : Option Token) (record : Record) :
    Still (recordEntry tag record) := by
  dsimp only [recordEntry]
  split
  · infer_instance
  · refine still_step fun known? => ?_
    split <;> infer_instance

instance safe_recordSpecifier (isUnion : Bool) : A.Safe (recordSpecifier r isUnion) := by
  dsimp only [recordSpecifier]
  refine safe_step fun first => safe_step fun t? => safe_step fun b => ?_
  split
  · refine safe_step fun known? => ?_
    split <;> infer_instance
  · infer_instance

------------
-- Specifiers of a Declaration
------------

instance safe_typeofSpecifier : A.Safe (typeofSpecifier r) := by
  dsimp only [typeofSpecifier]
  infer_instance

instance safe_storageStep (p : Progress) (t : Token) : A.Safe (storageStep r p t) := by
  dsimp only [storageStep]
  split <;> infer_instance

instance safe_atomicStep (p : Progress) : A.Safe (atomicStep r p) := by
  dsimp only [atomicStep]
  infer_instance

instance safe_alignasStep (p : Progress) (t : Token) : A.Safe (alignasStep r p t) := by
  dsimp only [alignasStep]
  split <;> infer_instance

instance safe_userType (t : Token) (named? : Option CType) : A.Safe (userType r t named?) := by
  dsimp only [userType]
  infer_instance

instance safe_builtinStep (p : Progress) (t : Token) : A.Safe (builtinStep r p t) := by
  dsimp only [builtinStep]
  split
  · infer_instance
  · split <;> infer_instance

instance safe_specifierStep (p : Progress) : A.Safe (specifierStep r p) := by
  dsimp only [specifierStep]
  infer_instance

/- Reading the specifiers of a declaration keeps the account. -/
instance safe_specifiers (attr? : Option VarAttr) : A.Safe (specifiers r attr?) := by
  dsimp only [specifiers]
  infer_instance

end Specifier

------------
-- Declarators
------------

namespace Declarator

open Specifier

instance still_parameterType (t : CType) : Still (parameterType t) := by
  unfold parameterType
  split <;> infer_instance

instance safe_parameters (ret : CType) : A.Safe (parameters r ret) := by
  dsimp only [parameters]
  infer_instance

instance safe_arrayLength [hRules : A.Rules] (base : CType) : A.Safe (arrayLength r base) := by
  refine ⟨fun s => keeps_after fun _ => keeps_after fun _ => keeps_ite
    (fun _ => keeps_after fun _ => Safe.runs s) fun _ => ?_⟩
  refine hReads.conditional.bind fun t len _ hLen => keeps_after fun _ =>
    keeps_after fun base => keeps_ite (fun _ => hRules.vlaOf t base len hLen) fun _ => ?_
  refine keeps_known (Typing.quiet_addType len) fun len' hSame => keeps_after fun _ =>
    keeps_ite (fun _ => Safe.runs t) fun _ => hRules.vlaOf t base len' ?_
  rw [Account.expr, hSame]
  exact hLen

instance safe_typeSuffix [A.Rules] (base : CType) : A.Safe (typeSuffix r base) := by
  dsimp only [typeSuffix]
  infer_instance

instance safe_pointers (base : CType) : A.Safe (pointers r base) := by
  dsimp only [pointers]
  infer_instance

instance safe_nested {α : Type} (base : CType) (inner : CType → Phrase α)
    [hInner : ∀ t, A.Safe (r (inner t))] : A.Safe (nested r base inner) := by
  dsimp only [nested]
  infer_instance

instance safe_declarator (base : CType) : A.Safe (declarator r base) := by
  dsimp only [declarator]
  infer_instance

instance safe_abstractDeclarator (base : CType) : A.Safe (abstractDeclarator r base) := by
  dsimp only [abstractDeclarator]
  infer_instance

instance safe_typeName : A.Safe (typeName r) := by
  dsimp only [typeName]
  infer_instance

end Declarator

end CCompiler
