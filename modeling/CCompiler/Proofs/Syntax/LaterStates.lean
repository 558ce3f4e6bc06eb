import Mathlib
import CCompiler.Proofs.Syntax.ConstantBounds
import CCompiler.Syntax.CType

/-
  States in which one text means the same, and types as the
  text of a declaration builds them.

  A text mentions types that were there before and builds
  pointers, arrays and functions around them.  Each time that it
  is read the types that were there are the same ones, but the
  arrays that it writes are other ones, and so are the records of
  its parameters.  What two readings have in common is a pattern.

  Reading a type adds types and records to a state, and declaring
  a name adds an object and one meaning of this name.  A text that
  does not mention the name means in all later states what it
  meant before, and so does the length of an array.

  Main declarations:
    * `Pattern`, `Pattern.Fits`
    * `Pattern.even`, `Pattern.repeats`
    * `Pattern.compatible_fits`, `Pattern.sameObject_fits`
    * `ParseState.Grows`, `ParseState.Later`
    * `Parse.Goes`
    * `Bound`, `Formula.Bounds.bound`
-/

------------
-- Tables that Grow
------------

namespace CCompiler

namespace Records

/- A table with more records behind the ones of another. -/
def Extends (rs rs' : Records) : Prop :=
  ∃ more : Array Record, rs' = rs ++ more

theorem Extends.refl (rs : Records) : rs.Extends rs := ⟨#[], by simp⟩

variable {rs rs' : Records}

theorem Extends.trans {rs'' : Records} (hFirst : rs.Extends rs') (hSecond : rs'.Extends rs'') :
    rs.Extends rs'' := by
  rcases hFirst with ⟨more, rfl⟩
  rcases hSecond with ⟨most, rfl⟩
  exact ⟨more ++ most, by simp⟩

theorem Extends.size_le (hMore : rs.Extends rs') : rs.size ≤ rs'.size := by
  rcases hMore with ⟨more, rfl⟩
  simp

/- The records that were there stay as they are. -/
theorem Extends.entry {rs rs' : Records} {id : Nat} (hMore : rs.Extends rs')
    (hKnown : id < rs.size) : rs'.entry id = rs.entry id := by
  rcases hMore with ⟨more, rfl⟩
  simp [Records.entry, Array.getD, hKnown, Nat.lt_of_lt_of_le hKnown (Nat.le_add_right _ _)]

theorem extends_push (rs : Records) (r : Record) : rs.Extends (rs.push r) := ⟨#[r], by simp⟩

theorem entry_push (rs : Records) (r : Record) : Records.entry (rs.push r) rs.size = r := by
  simp [Records.entry, Array.getD]

end Records

------------
-- Compatibility of Types
------------

namespace CType

/- Atomic types are compared as the types they are made of. -/
theorem compatible_plain (rs : Records) :
    ∀ t u : CType, compatible rs t u = compatible rs t.plain u
| .atomic t, u => by
    rw [compatible, plain]
    exact compatible_plain rs t u
| .void, _ | .bool, _ | .integer _ _, _ | .floating _, _ | .enum _, _
| .ptr _, _ | .func _ _ _ _, _ | .array _ _ _ _ _, _ | .vla _ _, _
| .record _, _ => rfl

mutual

/- A type is compatible with every type that is atomically the same. -/
theorem compatible_of_plain_eq (rs : Records) :
    ∀ t u : CType, u.plain = t.plain → compatible rs t u = true
| .void, u, hSame => by simp [compatible, isVoid, hSame, plain]
| .bool, u, hSame => by simp [compatible, isBool, hSame, plain]
| .integer k s, u, hSame => by simp [compatible, hSame, plain]
| .floating k, u, hSame => by simp [compatible, isFloatKind, hSame, plain]
| .enum i, u, hSame => by simp [compatible, hSame, plain]
| .ptr b, u, hSame => by simpa [compatible, hSame, plain] using compatible_of_plain_eq rs b b rfl
| .func r ps names v, u, hSame => by
    simpa [compatible, hSame, plain] using
      ⟨compatible_of_plain_eq rs r r rfl, compatibleList_self rs ps⟩
| .array i b n s a, u, hSame => by simp [compatible, hSame, plain]
| .vla i b, u, hSame => by simp [compatible, hSame, plain]
| .record i, u, hSame => by simp [compatible, hSame, plain]
| .atomic t, u, hSame => by
    rw [compatible]
    exact compatible_of_plain_eq rs t u hSame

theorem compatibleList_self (rs : Records) :
    ∀ ts : List CType, compatibleList rs ts ts = true
| [] => rfl
| t :: ts => by
    rw [compatibleList, compatible_of_plain_eq rs t t rfl, compatibleList_self rs ts]
    rfl

end

/- Two declarations with one type agree. -/
theorem sameObject_self (rs : Records) (t : CType) : sameObject rs t t = true := by
  unfold sameObject
  split
  · rename_i b n _ _ _ c m _ _ hLeft hRight
    rw [hLeft] at hRight
    cases hRight
    rw [if_neg (by simp), compatible_of_plain_eq rs b b rfl]
  · exact compatible_of_plain_eq rs _ _ rfl

end CType

------------
-- Patterns
------------

/-
  How a declaration builds a type: from a type that was there
  before, from a copy of a record, or as a pointer, an array or
  a function that is written in it.
-/
inductive Pattern
| given (t : CType)
| copy (id : Nat)
| pointer (p : Pattern)
| array (p : Pattern) (len : Int)
| function (ret : Pattern) (ps : List Pattern) (variadic : Bool)

namespace Pattern

mutual

/- Whether no array of a known length is written. -/
def even : Pattern → Bool
| .given _ | .copy _ => true
| .pointer p => p.even
| .array p n => decide (n < 0) && p.even
| .function r ps _ => r.even && evenAll ps

def evenAll : List Pattern → Bool
| [] => true
| p :: ps => p.even && evenAll ps

end

/- Whether none is written but for the declared object itself. -/
def repeats : Pattern → Bool
| .array p _ => p.even
| p => p.even

/- A type that is taken over: of a record there will be a copy. -/
def copied : CType → Pattern
| .record id | .atomic (.record id) => .copy id
| t => .given t

/- What a parameter is declared as: arrays and functions become pointers. -/
def parameter : Pattern → Pattern
| .given t =>
  match t.plain with
  | .array _ b _ _ _ => .pointer (.given b)
  | .func _ _ _ _ => .pointer (.given t)
  | _ => copied t
| .array p _ => .pointer p
| .function r ps v => .pointer (.function r ps v)
| p => p

/-
  Whether a declarator may start from the type: its size does not
  depend on values, and a record that it is has an entry.
-/
def Usable (rs : Records) : Pattern → Prop
| .given t =>
  t.isVla = false ∧ ∀ id, t.plain = .record id → id < rs.size
| .copy _ => False
| _ => True

/- Whether the type is that of a function. -/
def isFunction : Pattern → Bool
| .given t => t.isFunction
| .function _ _ _ => true
| _ => false

/- Whether the type is that of an object of a fixed size. -/
def isObject (p : Pattern) : Bool :=
  match p with
  | .given t => !(t.isVoid || t.isVla || t.isFunction)
  | p => !p.isFunction

mutual

/-
  A type is built after a pattern, with numbers for its arrays
  from a range.
-/
def Fits (rs : Records) (lo hi : Nat) : Pattern → CType → Prop
| .given t, u => u = t
| .copy id, u =>
  ∃ j, u.plain = .record j ∧ id < rs.size ∧ j < rs.size ∧
    (rs.entry j).root = (rs.entry id).root
| .pointer p, u => ∃ b, u = .ptr b ∧ Fits rs lo hi p b
| .array p n, u =>
  ∃ id b s a, u = .array id b n s a ∧ lo ≤ id ∧ id < hi ∧ Fits rs lo hi p b
| .function r ps v, u =>
  ∃ t us names, u = .func t us names v ∧ Fits rs lo hi r t ∧
    FitsAll rs lo hi ps us

def FitsAll (rs : Records) (lo hi : Nat) :
    List Pattern → List CType → Prop
| [], us => us = []
| p :: ps, us =>
  ∃ u vs, us = u :: vs ∧ Fits rs lo hi p u ∧ FitsAll rs lo hi ps vs

end

variable {rs rs' : Records} {lo hi hi' : Nat}

mutual

/- Types stay as they are when there are more. -/
theorem Fits.mono (hMore : rs.Extends rs') (hHigh : hi ≤ hi') :
    ∀ {p : Pattern} {u : CType}, p.Fits rs lo hi u → p.Fits rs' lo hi' u
| .given _, _, hFits => hFits
| .copy id, u, hFits => by
    rcases hFits with ⟨j, hType, hId, hJ, hRoot⟩
    have hSize := hMore.size_le
    refine ⟨j, hType, by omega, by omega, ?_⟩
    rw [hMore.entry hJ, hMore.entry hId]
    exact hRoot
| .pointer p, u, hFits => by
    rcases hFits with ⟨b, hType, hInner⟩
    exact ⟨b, hType, hInner.mono hMore hHigh⟩
| .array p n, u, hFits => by
    rcases hFits with ⟨id, b, s, a, hType, hLow, hId, hInner⟩
    exact ⟨id, b, s, a, hType, hLow, by omega, hInner.mono hMore hHigh⟩
| .function r ps v, u, hFits => by
    rcases hFits with ⟨t, us, names, hType, hInner, hAll⟩
    exact ⟨t, us, names, hType, hInner.mono hMore hHigh, hAll.mono hMore hHigh⟩

theorem FitsAll.mono (hMore : rs.Extends rs') (hHigh : hi ≤ hi') :
    ∀ {ps : List Pattern} {us : List CType}, FitsAll rs lo hi ps us → FitsAll rs' lo hi' ps us
| [], _, hFits => hFits
| p :: ps, us, hFits => by
    rcases hFits with ⟨u, vs, hTypes, hInner, hAll⟩
    exact ⟨u, vs, hTypes, hInner.mono hMore hHigh, hAll.mono hMore hHigh⟩

end

theorem Fits.isFunction {p : Pattern} {t : CType} (hFits : p.Fits rs lo hi t) :
    t.isFunction = p.isFunction := by
  cases p with
  | given u =>
    cases hFits
    rfl
  | copy id =>
    rcases hFits with ⟨j, hType, -⟩
    simp [CType.isFunction, hType, Pattern.isFunction]
  | pointer p =>
    rcases hFits with ⟨b, rfl, -⟩
    rfl
  | array p n =>
    rcases hFits with ⟨id, b, s, a, rfl, -⟩
    rfl
  | function r ps v =>
    rcases hFits with ⟨r, us, names, rfl, -⟩
    rfl

variable {p : Pattern}

theorem isFunction_of_isObject (hObject : p.isObject = true) : p.isFunction = false := by
  cases p with
  | given t =>
    simp only [isObject, Bool.not_eq_true', Bool.or_eq_false_iff] at hObject
    exact hObject.2
  | copy | pointer | array => rfl
  | function => cases hObject

variable {t : CType}

/- An object of such a type may be declared. -/
theorem Fits.not_of_isObject (hFits : p.Fits rs lo hi t) (hObject : p.isObject = true) :
    t.isVoid = false ∧ t.isVla = false := by
  cases p with
  | given u =>
    cases hFits
    simp only [isObject, Bool.not_eq_true', Bool.or_eq_false_iff] at hObject
    exact hObject.1
  | copy id =>
    rcases hFits with ⟨j, hType, -⟩
    simp [CType.isVoid, CType.isVla, hType]
  | pointer p =>
    rcases hFits with ⟨b, rfl, -⟩
    exact ⟨rfl, rfl⟩
  | array p n =>
    rcases hFits with ⟨id, b, s, a, rfl, -⟩
    exact ⟨rfl, rfl⟩
  | function => cases hObject

theorem FitsAll.isEmpty {ps : List Pattern} {us : List CType} (hAll : FitsAll rs lo hi ps us) :
    us.isEmpty = ps.isEmpty := by
  cases ps with
  | nil =>
    cases hAll
    rfl
  | cons p ps =>
    rcases hAll with ⟨u, vs, rfl, -⟩
    rfl

mutual

/-
  Two types that were built apart after one pattern are compatible
  unless an array of a known length is written in it.
-/
theorem compatible_fits {lo' hi' : Nat} (hApart : hi ≤ lo') :
    ∀ (p : Pattern) {t u : CType}, p.Fits rs lo hi t →
      p.Fits rs lo' hi' u → t.compatible rs u = p.even
| .given t, _, _, rfl, rfl => CType.compatible_of_plain_eq rs _ _ rfl
| .copy id, t, u, hFirst, hSecond => by
    rcases hFirst with ⟨i, hType, -, -, hRoot⟩
    rcases hSecond with ⟨j, hType', -, -, hRoot'⟩
    rw [CType.compatible_plain, hType, CType.compatible, hType', even]
    simp [hRoot, hRoot']
| .pointer p, t, u, hFirst, hSecond => by
    rcases hFirst with ⟨b, rfl, hInner⟩
    rcases hSecond with ⟨c, rfl, hInner'⟩
    rw [CType.compatible, even]
    exact compatible_fits hApart p hInner hInner'
| .array p n, t, u, hFirst, hSecond => by
    rcases hFirst with ⟨i, b, s, a, rfl, -, hHigh, hInner⟩
    rcases hSecond with ⟨j, c, s', a', rfl, hLow, -, hInner'⟩
    have hOther : (i == j) = false := by
      rw [beq_eq_false_iff_ne]
      omega
    have hBase := compatible_fits hApart p hInner hInner'
    simp only [CType.compatible, CType.plain, hOther, hBase, even]
    cases p.even <;> simp
| .function r ps v, t, u, hFirst, hSecond => by
    rcases hFirst with ⟨t, us, names, rfl, hInner, hAll⟩
    rcases hSecond with ⟨t', us', names', rfl, hInner', hAll'⟩
    have hRet := compatible_fits hApart r hInner hInner'
    have hParams := compatibleList_fits hApart ps hAll hAll'
    simp [CType.compatible, CType.plain, hRet, hParams, even]

theorem compatibleList_fits {lo' hi' : Nat} (hApart : hi ≤ lo') :
    ∀ (ps : List Pattern) {ts us : List CType}, FitsAll rs lo hi ps ts →
      FitsAll rs lo' hi' ps us → CType.compatibleList rs ts us = evenAll ps
| [], _, _, rfl, rfl => rfl
| p :: ps, ts, us, hFirst, hSecond => by
    rcases hFirst with ⟨t, ts, rfl, hInner, hAll⟩
    rcases hSecond with ⟨u, us, rfl, hInner', hAll'⟩
    rw [CType.compatibleList, evenAll, compatible_fits hApart p hInner hInner',
      compatibleList_fits hApart ps hAll hAll']

end

/-
  As the types of two declarations they agree unless an array of
  a known length is written below the outermost one.
-/
theorem sameObject_fits {u : CType} {lo' : Nat} (hApart : hi ≤ lo') (hFirst : p.Fits rs lo hi t)
    (hSecond : p.Fits rs lo' hi' u) : t.sameObject rs u = p.repeats := by
  cases p with
  | given v =>
    cases hFirst
    cases hSecond
    exact CType.sameObject_self rs _
  | array p n =>
    rcases hFirst with ⟨i, b, s, a, rfl, -, -, hInner⟩
    rcases hSecond with ⟨j, c, s', a', rfl, -, -, hInner'⟩
    simp only [CType.sameObject, CType.plain, bne_self_eq_false,
      Bool.and_false, Bool.false_eq_true, if_false]
    exact compatible_fits hApart p hInner hInner'
  | copy id =>
    rcases hFirst with ⟨i, hType, -, -, hRoot⟩
    rcases hSecond with ⟨j, hType', -, -, hRoot'⟩
    simp [CType.sameObject, hType, hType', CType.compatible,
      CType.plain, hRoot, hRoot', repeats, even]
  | pointer p =>
    have hCompatible := compatible_fits hApart _ hFirst hSecond
    rcases hFirst with ⟨b, rfl, -⟩
    rcases hSecond with ⟨c, rfl, -⟩
    exact hCompatible
  | function r ps v =>
    have hCompatible := compatible_fits hApart _ hFirst hSecond
    rcases hFirst with ⟨r, us, names, rfl, -, -⟩
    rcases hSecond with ⟨r', us', names', rfl, -, -⟩
    exact hCompatible

end Pattern

end CCompiler

------------
-- Later States
------------

namespace CCompiler

namespace ParseState

variable {s a b c : ParseState} {x : Bytes}

/- The type of a tag. -/
def tag? (s : ParseState) (name : Bytes) : Option CType :=
  s.scopes.findSome? fun sc => sc.tags.lookup name

/- A state with more types and records. -/
def Grows (a b : ParseState) : Prop :=
  ∃ k rs, a.nextType ≤ k ∧ a.records.Extends rs ∧
    b = { a with nextType := k, records := rs }

theorem Grows.refl (a : ParseState) : a.Grows a := ⟨a.nextType, a.records, le_rfl, .refl _, rfl⟩

theorem Grows.trans (hFirst : a.Grows b) (hSecond : b.Grows c) : a.Grows c := by
  rcases hFirst with ⟨k, rs, hTypes, hRecords, rfl⟩
  rcases hSecond with ⟨l, rs', hTypes', hRecords', rfl⟩
  exact ⟨l, rs', Nat.le_trans hTypes hTypes', hRecords.trans hRecords', rfl⟩

theorem Grows.nextType_le (hGrows : a.Grows b) : a.nextType ≤ b.nextType := by
  rcases hGrows with ⟨k, rs, hTypes, -, rfl⟩
  exact hTypes

theorem Grows.records (hGrows : a.Grows b) : a.records.Extends b.records := by
  rcases hGrows with ⟨k, rs, -, hRecords, rfl⟩
  exact hRecords

/-
  A later state: all names but one mean what they did, and what
  there was is still there.
-/
structure Later (x : Bytes) (s a : ParseState) : Prop where
  cfg : a.cfg = s.cfg
  limit : a.limit = s.limit
  binding : ∀ y, y ≠ x → a.binding? y = s.binding? y
  tag : ∀ y, a.tag? y = s.tag? y
  records : s.records.Extends a.records
  objects : ∃ os, a.objects = s.objects ++ os
  nextType : s.nextType ≤ a.nextType

theorem Later.refl (x : Bytes) (s : ParseState) : Later x s s where
  cfg := rfl
  limit := rfl
  binding _ _ := rfl
  tag _ := rfl
  records := .refl _
  objects := ⟨#[], by simp⟩
  nextType := le_rfl

theorem Later.trans (hFirst : Later x s a) (hSecond : Later x a b) : Later x s b where
  cfg := hSecond.cfg.trans hFirst.cfg
  limit := hSecond.limit.trans hFirst.limit
  binding y hOther := (hSecond.binding y hOther).trans (hFirst.binding y hOther)
  tag y := (hSecond.tag y).trans (hFirst.tag y)
  records := hFirst.records.trans hSecond.records
  objects := by
    rcases hFirst.objects with ⟨os, hObjects⟩
    rcases hSecond.objects with ⟨os', hObjects'⟩
    exact ⟨os ++ os', by rw [hObjects', hObjects, Array.append_assoc]⟩
  nextType := Nat.le_trans hFirst.nextType hSecond.nextType

theorem Grows.later (x : Bytes) (hGrows : a.Grows b) : Later x a b := by
  rcases hGrows with ⟨k, rs, hTypes, hRecords, rfl⟩
  exact { Later.refl x a with records := hRecords, nextType := hTypes }

/- The names of types are still there. -/
theorem Later.typedef? {t : Token} {type : CType} (hLater : Later x s a)
    (hNew : s.binding? x = none) (hNamed : s.typedef? t = some type) :
    a.typedef? t = some type := by
  have hOther : t.text ≠ x := by
    intro hSame
    rw [ParseState.typedef?, hSame, hNew] at hNamed
    split at hNamed <;> cases hNamed
  rw [ParseState.typedef?, hLater.binding _ hOther]
  exact hNamed

end ParseState

theorem NamesType.later {s a : ParseState} {x : Bytes} {ws : List Token} {type : CType}
    (hNames : NamesType s ws type) (hLater : s.Later x a) (hNew : s.binding? x = none) :
    NamesType a ws type := by
  rcases hNames with hBuiltin | ⟨t, rfl, hFree, hNamed⟩
  · exact .inl hBuiltin
  · exact .inr ⟨t, rfl, hFree, hLater.typedef? hNew hNamed⟩

------------
-- Steps that make Types and Records
------------

namespace Parse

open ParseState (Grows)

variable {α β σ : Type} {a : ParseState} {ts us vs : List Token}
  {n : Nat}

/-
  A step comes from some tokens to others; it makes types and
  records only, and has a result as described.
-/
def Goes (a : ParseState) (p : Parse α) (ts us : List Token)
    (Q : α → ParseState → Prop) : Prop :=
  ∃ r b, a.Grows b ∧ p (a.before ts) = .ok r (b.before us) ∧ Q r b

variable {Q : α → ParseState → Prop} {r : α}

theorem goes_pure (hResult : Q r a) : Goes a (pure r) ts ts Q := ⟨r, a, .refl a, rfl, hResult⟩

variable {p : Parse α} {f : α → Parse β} {R : β → ParseState → Prop}

theorem Goes.bind (hFirst : Goes a p ts us Q)
    (hNext : ∀ r b, a.Grows b → Q r b → Goes b (f r) us vs R) : Goes a (p >>= f) ts vs R := by
  rcases hFirst with ⟨r, b, hGrows, hRun, hResult⟩
  rcases hNext r b hGrows hResult with ⟨q, c, hGrows', hRun', hOut⟩
  exact ⟨q, c, hGrows.trans hGrows', (run_bind hRun).trans hRun', hOut⟩

/- A step that makes nothing comes first. -/
theorem goes_step (hRun : p (a.before ts) = .ok r (a.before us)) (hNext : Goes a (f r) us vs R) :
    Goes a (p >>= f) ts vs R := by
  rcases hNext with ⟨q, b, hGrows, hRun', hOut⟩
  exact ⟨q, b, hGrows, (run_bind hRun).trans hRun', hOut⟩

theorem Goes.mono {R : α → ParseState → Prop} (hGoes : Goes a p ts us Q)
    (hWeaker : ∀ r b, a.Grows b → Q r b → R r b) : Goes a p ts us R := by
  rcases hGoes with ⟨r, b, hGrows, hRun, hResult⟩
  exact ⟨r, b, hGrows, hRun, hWeaker r b hGrows hResult⟩

variable {x : σ} {step : σ → Parse (Sum σ β)}

/- A loop that is run as often as there are tokens. -/
theorem goes_iterate {f : β → Parse α} {R : α → ParseState → Prop}
    (hLoop : Goes a (repeatN step (2 * a.limit + 8) x >>= f) ts us R) :
    Goes a (iterate x step >>= f) ts us R := by
  rcases hLoop with ⟨r, b, hGrows, hRun, hResult⟩
  refine ⟨r, b, hGrows, ?_, hResult⟩
  rw [bind_apply] at hRun ⊢
  rw [iterate_apply]
  exact hRun

/- One round of a loop. -/
theorem goes_next {Q : σ → ParseState → Prop}
    (hStep : Goes a (step x) ts us fun r b => ∃ y, r = .inl y ∧ Q y b)
    (hNext : ∀ y b, a.Grows b → Q y b → Goes b (repeatN step n y) us vs R) :
    Goes a (repeatN step (n + 1) x) ts vs R := by
  rw [repeatN]
  apply hStep.bind
  rintro r b hGrows ⟨y, rfl, hY⟩
  exact hNext y b hGrows hY

theorem goes_last (hStep : Goes a (step x) ts us fun r b => ∃ q, r = .inr q ∧ R q b) :
    Goes a (repeatN step (n + 1) x) ts us R := by
  rw [repeatN]
  apply hStep.bind
  rintro r b hGrows ⟨q, rfl, hResult⟩
  exact goes_pure hResult

/- A new array type has a number of its own. -/
theorem goes_arrayOf {lo : Nat} {p : Pattern} {t : CType} (len : Int) (hLow : lo ≤ a.nextType)
    (hFits : p.Fits a.records lo a.nextType t) :
    Goes a (arrayOf t len) ts ts fun u b =>
      (p.array len).Fits b.records lo b.nextType u := by
  refine ⟨CType.arrayOf a.records a.nextType t len, { a with nextType := a.nextType + 1 },
    ⟨a.nextType + 1, a.records, Nat.le_succ _, .refl _, rfl⟩, rfl, ?_⟩
  exact ⟨a.nextType, t, _, _, rfl, hLow, Nat.lt_succ_self _, hFits.mono (.refl _) (Nat.le_succ _)⟩

end Parse

------------
-- Lengths
------------

open Parse TranslationUnit
open ParseState (Grows Later)

variable {s a b : ParseState} {x : Bytes} {n : Int}

/- An expression is a constant of a value, whatever types are made. -/
def Settles (a : ParseState) (e : Expr) (n : Int) : Prop :=
  ∀ b us, a.Grows b → Goes b (Typing.addType e) us us fun e' c =>
    (∀ env, Constant.isConstant env e' = .ok true) ∧
    ∃ v, Constant.evalInt e' (c.before us) = .ok v (c.before us) ∧ v.toInt = n

/- The words that may stand before the length of an array. -/
def lengthWords : List String := ["static", "restrict", "const"]

/-
  A text that is the constant length of an array wherever it
  stands in later declarations.
-/
structure Bound (x : Bytes) (s : ParseState) (ts : List Token)
    (n : Int) : Prop where
  first : ∃ t us, ts = t :: us ∧ t.Free ("]" :: lengthWords)
  reads : ∀ a, s.Later x a → ∀ m c rest, c.Punct "]" → 32 * ts.length ≤ m →
    Goes a (read m .conditional) (ts ++ c :: rest) (c :: rest)
      fun e b => Settles b e n

namespace Formula

variable {f : Formula}

/- The types in a constant expression are still there. -/
theorem Means.later (hMeans : f.Means s) (hConstant : f.Constant) (hLater : s.Later x a)
    (hNew : s.binding? x = none) : f.Means a := by
  induction f with
  | number t => trivial
  | name | assign => cases hConstant
  | paren o c f ih | unary op t f ih => exact ih hMeans hConstant
  | cast o ws c τ f ih =>
    rcases hMeans with ⟨⟨type, hNames, hArith⟩, hInner⟩
    exact ⟨⟨type, hNames.later hLater hNew, hArith⟩, ih hInner hConstant.2⟩
  | binary op t l r ihl ihr | comma t l r ihl ihr =>
    exact ⟨ihl hMeans.1 hConstant.1, ihr hMeans.2 hConstant.2⟩
  | cond q c b t e ihb iht ihe =>
    exact ⟨ihb hMeans.1 hConstant.1, iht hMeans.2.1 hConstant.2.1, ihe hMeans.2.2 hConstant.2.2⟩

theorem Bounds.later (hBounds : Bounds s f n) (hLater : s.Later x a) (hNew : s.binding? x = none) :
    Bounds a f n :=
  { hBounds with
    means := hBounds.means.later hBounds.constant hLater hNew }

/- A constant expression that is recognised as one is a length. -/
theorem Bounds.bound (hBounds : Bounds s f n) (hNew : s.binding? x = none)
    (hLimit : f.tokens.length ≤ s.limit) : Bound x s f.tokens n where
  first := by
    rcases exists_first hBounds.written hBounds.means with
      ⟨t, us, hTokens, hStarts⟩
    exact ⟨t, us, hTokens, hStarts.1.mono (by decide)⟩
  reads := by
    intro a hLater m c rest hClose hFuel
    have hHere := hBounds.later hLater hNew
    rw [← hLater.limit] at hLimit
    rcases (readable hHere.written hHere.means hLimit).2 2 hHere.rank m c
      rest (by omega) ((stops_closing hClose (by decide)).mono (by omega)) with
      ⟨e, hTypable, hRead⟩
    rcases hHere.evaluates hTypable with ⟨e', hAdd, hConstant, hEval⟩
    refine ⟨e, a, .refl a, hRead, ?_⟩
    intro b us hGrows
    exact ⟨e', b, .refl b, hAdd _, hConstant, _, hEval _, hHere.toInt_word⟩

end Formula

end CCompiler
