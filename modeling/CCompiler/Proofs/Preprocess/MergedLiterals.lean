import Mathlib
import CCompiler.Proofs.Preprocess.Reprinting
import CCompiler.Proofs.Token.LiteralTokens

/-
  String literals that are put together.

  Literals that stand side by side become one.  Its elements
  have the type that a literal with letters says, and are those
  of all bodies in that type, with one terminator behind them.
  Literals with different letters do not go together, nor do
  bytes that are no UTF-8 become wide elements.

  Main declarations:
    * `Literal.Garbled`, `Literal.decodeElements_error_iff`
    * `StringRun.runs`, `StringRun.Merged`
    * `StringRun.Mixed`, `StringRun.Unfit`
    * `StringRun.joinAll_merges`
-/

------------
-- Bodies That Cannot Be Widened
------------

namespace CCompiler

variable {α β : Type}

namespace Literal

open StringRun (exists_of_map_ok)

variable {elem : LitType} {b : UInt8} {n k : Nat}
  {s p out : Bytes} {v : Int32}

/-
  Bytes between escapes that encode no character where one has
  to start.
-/
inductive Garbled : Bytes → Prop
| here {b rest}
    (hByte : b ≠ 0x5C)
    (hNone : Utf8.decode? (b :: rest) = none) :
    Garbled (b :: rest)
| behind {b rest c more}
    (hByte : b ≠ 0x5C)
    (hChar : Utf8.decode? (b :: rest) = some (c, more))
    (hMore : Garbled more) :
    Garbled (b :: rest)
| escape {rest v k}
    (hEscape : readEscape rest = .ok (v, k))
    (hMore : Garbled (rest.drop k)) :
    Garbled (0x5C :: rest)

theorem decodeElements_escape (hEscape : readEscape s = .ok (v, k)) :
    decodeElements elem n (0x5C :: s) = (decodeElements elem (n + 1 + k) (s.drop k)).map fun out =>
        unitBytes elem [v.toUInt32] ++ out := by
  have hByte : ((0x5C : UInt8) == Bytes.of '\\') = true := by decide
  rw [decodeElements, if_pos hByte, hEscape]

theorem decodeElements_narrow (hByte : b ≠ 0x5C) :
    decodeElements .char n (b :: s) = (decodeElements .char (n + 1) s).map fun out => b :: out := by
  have hOne : (LitType.char.size == 1) = true := rfl
  rw [decodeElements, if_neg (ne_true_of_eq_false (beq_backslash hByte)), if_pos hOne]

/- A narrow body can be read from behind some of its bytes on. -/
theorem exists_narrow_rest (hPlain : ∀ x ∈ p, x ≠ 0x5C)
    (hOk : decodeElements .char n (p ++ s) = .ok out) :
    ∃ k more, decodeElements .char k s = .ok more := by
  induction p generalizing n out with
  | nil => exact ⟨n, out, hOk⟩
  | cons b p ih =>
    rw [List.forall_mem_cons] at hPlain
    rw [List.cons_append, decodeElements_narrow hPlain.1] at hOk
    rcases exists_of_map_ok hOk with ⟨more, hRest, -⟩
    exact ih hPlain.2 hRest

theorem map_error_iff {ε : Type} {x : Except ε α} {f : α → β} :
    (∃ e, x.map f = .error e) ↔ ∃ e, x = .error e := by cases x <;> simp [Except.map]

/-
  A narrow body can be read as a wide one unless its bytes are
  garbled: its escapes have been read already.
-/
theorem decodeElements_error_iff (hWide : elem.size ≠ 1)
    (hOk : decodeElements .char k s = .ok out) :
    (∃ e, decodeElements elem n s = .error e) ↔ Garbled s := by
  induction hSize : s.length using Nat.strong_induction_on generalizing n k s out with
  | _ size ih =>
  subst hSize
  cases s with
  | nil =>
    rw [decodeElements]
    constructor
    · rintro ⟨e, hRun⟩
      cases hRun
    · intro hGarbled
      cases hGarbled
  | cons b s =>
  by_cases hByte : b = 0x5C
  · subst hByte
    cases hEscape : readEscape s with
    | error e =>
      have hSlash : ((0x5C : UInt8) == Bytes.of '\\') = true := by decide
      rw [decodeElements, if_pos hSlash, hEscape] at hOk
      cases hOk
    | ok r =>
      rcases r with ⟨v, j⟩
      rw [decodeElements_escape hEscape] at hOk ⊢
      rcases exists_of_map_ok hOk with ⟨more, hRest, -⟩
      rw [map_error_iff, ih _ (by simp) hRest rfl]
      constructor
      · exact .escape hEscape
      · intro hGarbled
        cases hGarbled with
        | here hByte _ => exact absurd rfl hByte
        | behind hByte _ _ => exact absurd rfl hByte
        | escape hAgain hMore =>
          rw [hEscape] at hAgain
          cases hAgain
          exact hMore
  · have hSlash := ne_true_of_eq_false (beq_backslash hByte)
    have hSize : ¬ (elem.size == 1) = true := by simpa using hWide
    cases hChar : Utf8.decode? (b :: s) with
    | none =>
      refine ⟨fun _ => .here hByte hChar, fun _ => ⟨⟨.invalidUtf8, n⟩, ?_⟩⟩
      rw [decodeElements, if_neg hSlash, if_neg hSize]
      split
      · rfl
      · rename_i hSome
        rw [hChar] at hSome
        cases hSome
    | some r =>
      rcases r with ⟨c, more⟩
      have hStep : decodeElements elem n (b :: s) =
          (decodeElements elem (n + Utf8.leadLength b) more).map
            fun out => unitBytes elem (wideUnits elem c) ++ out := by
        rw [decodeElements, if_neg hSlash, if_neg hSize]
        split
        · rename_i hNone
          rw [hChar] at hNone
          cases hNone
        · rename_i hSome
          rw [hChar] at hSome
          cases hSome
          rfl
      rcases Utf8.decode?_bytes hChar with ⟨p, rfl, hHigh⟩
      have hPlain : ∀ x ∈ b :: p, x ≠ 0x5C :=
        List.forall_mem_cons.mpr ⟨hByte, fun x hx hSame => hHigh x hx (hSame ▸ by decide)⟩
      rcases exists_narrow_rest hPlain hOk with ⟨j, rest, hRest⟩
      rw [hStep, map_error_iff, ih _ (by simp) hRest rfl]
      constructor
      · exact .behind hByte hChar
      · intro hGarbled
        cases hGarbled with
        | here _ hNone =>
          rw [hChar] at hNone
          cases hNone
        | behind _ hAgain hMore =>
          rw [hChar] at hAgain
          cases hAgain
          exact hMore
        | escape _ _ => exact absurd rfl hByte

end Literal

------------
-- Literals of a Run
------------

namespace StringRun

open Lexer (Alone IsLiteral spelled)
open Literal (encodings decodeElements decodeBody unitBytes Garbled)
open Expansion (bind_split bind_ok bind_error)
open Pre (ofScan)

variable {t u m first : Token} {ts us run others : List Token}
  {l elem : LitType} {mark body : Bytes} {s s' : Session}
  {cfg : Config}

/- The letters before the quote of a literal. -/
def markOf (t : Token) : Bytes :=
  t.text.takeWhile (· != Bytes.of '"')

/- The letters of literals, with the type and the encoding they say. -/
def forms : List (Bytes × LitType × Encoding) :=
  [([], .char, .plain), (ascii "u8", .char, .utf8),
    (ascii "u", .ushort, .utf16), (ascii "L", .int, .wide),
    (ascii "U", .uint, .utf32)]

/- A literal that holds its body in the type that its letters say. -/
structure Genuine (t : Token) : Prop where
  known : (markOf t, elementOf t, encoding t) ∈ forms
  decoded : ∃ base bytes, t.kind = .str (elementOf t) bytes ∧
    decodeBody (elementOf t) base (bodyOf t).2 = .ok bytes

/- A string that was read by itself is such a literal. -/
theorem Genuine.of_alone (hAlone : Alone cfg t) (hStr : t.kind.isStr = true) : Genuine t := by
  rcases Lexer.exists_literal hAlone hStr with
    ⟨mark, elem, body, hKnown, hText, -, base, bytes, hKind, hBytes⟩
  have hElement : elementOf t = elem := by rw [elementOf, hKind]
  have hMark : markOf t = mark ∧ (mark, elem, encoding t) ∈ forms := by
    rw [markOf, encoding, hText]
    simp only [encodings, List.mem_cons, Prod.mk.injEq, List.not_mem_nil, or_false] at hKnown
    rcases hKnown with ⟨rfl, rfl⟩ | ⟨rfl, rfl⟩ | ⟨rfl, rfl⟩ | ⟨rfl, rfl⟩ | ⟨rfl, rfl⟩
    · exact ⟨rfl, .head _⟩
    · exact ⟨rfl, .tail _ (.head _)⟩
    · exact ⟨rfl, .tail _ (.tail _ (.head _))⟩
    · exact ⟨rfl, .tail _ (.tail _ (.tail _ (.head _)))⟩
    · exact ⟨rfl, .tail _ (.tail _ (.tail _ (.tail _ (.head _))))⟩
  have hBody : (bodyOf t).2 = body := by
    change (t.text.drop ((markOf t).length + 1)).dropLast = body
    rw [hMark.1, hText, ← List.drop_drop, List.drop_left,
      List.drop_one, List.tail_cons, List.dropLast_concat]
  refine ⟨?_, base, bytes, ?_, ?_⟩
  · rw [hMark.1, hElement]
    exact hMark.2
  · rw [hElement, hKind]
  · rw [hElement, hBody, hBytes]

/- What the letters say. -/
theorem forms_agree :
    ∀ a ∈ forms, ∀ b ∈ forms, (a.1 = b.1 ↔ a.2.2 = b.2.2) ∧ (a.1 = b.1 → a.2.1 = b.2.1) := by decide

theorem forms_plain :
    ∀ a ∈ forms, (a.1 = [] ↔ a.2.2 = .plain) ∧ (a.1 = [] → a.2.1 = .char) ∧
      (a.2.1.size = 1 ↔ a.2.1 = .char) ∧ 0 < a.2.1.size := by decide

theorem Genuine.encoding_eq_iff (hFirst : Genuine t) (hSecond : Genuine u) :
    encoding t = encoding u ↔ markOf t = markOf u :=
  (forms_agree _ hFirst.known _ hSecond.known).1.symm

theorem Genuine.elementOf_eq (hFirst : Genuine t) (hSecond : Genuine u)
    (hSame : markOf t = markOf u) : elementOf t = elementOf u :=
  (forms_agree _ hFirst.known _ hSecond.known).2 hSame

theorem Genuine.plain_iff (hGenuine : Genuine t) : encoding t = .plain ↔ markOf t = [] :=
  (forms_plain _ hGenuine.known).1.symm

/- Two literals of a run say different things. -/
def Mixed (run : List Token) : Prop :=
  ∃ t ∈ run, ∃ u ∈ run, markOf t ≠ [] ∧ markOf u ≠ [] ∧ markOf t ≠ markOf u

/- The type that the literals of a run say. -/
def Says (run : List Token) (elem : LitType) : Prop :=
  (∀ t ∈ run, markOf t ≠ [] → elementOf t = elem) ∧
    ((∀ t ∈ run, markOf t = []) → elem = .char)

theorem mixed_plain (hPlain : markOf first = []) : Mixed (first :: ts) ↔ Mixed ts := by
  simp [Mixed, hPlain]

theorem says_plain (hPlain : markOf first = []) : Says (first :: ts) elem ↔ Says ts elem := by
  simp [Says, hPlain]

/-
  A literal counts for nothing behind one that says the same,
  or behind a marked one when it is plain.
-/
theorem mixed_skip (hMarked : markOf first ≠ []) (hSame : markOf t = [] ∨ markOf t = markOf first) :
    Mixed (first :: t :: ts) ↔ Mixed (first :: ts) := by
  have hOther : ∀ a ∈ first :: t :: ts, markOf a ≠ [] → ∃ b ∈ first :: ts, markOf b = markOf a := by
    intro a hMem hSome
    rw [List.mem_cons, List.mem_cons] at hMem
    rcases hMem with rfl | rfl | hMem
    · exact ⟨a, List.mem_cons_self, rfl⟩
    · exact ⟨first, List.mem_cons_self, (hSame.resolve_left hSome).symm⟩
    · exact ⟨a, List.mem_cons_of_mem _ hMem, rfl⟩
  constructor
  · rintro ⟨a, hA, b, hB, hSomeA, hSomeB, hDiffer⟩
    rcases hOther a hA hSomeA with ⟨a', hA', hMarkA⟩
    rcases hOther b hB hSomeB with ⟨b', hB', hMarkB⟩
    rw [← hMarkA] at hSomeA hDiffer
    rw [← hMarkB] at hSomeB hDiffer
    exact ⟨a', hA', b', hB', hSomeA, hSomeB, hDiffer⟩
  · rintro ⟨a, hA, b, hB, hDiffer⟩
    have hMore : ∀ a ∈ first :: ts, a ∈ first :: t :: ts := by simp +contextual
    exact ⟨a, hMore a hA, b, hMore b hB, hDiffer⟩

theorem says_skip (hFirst : Genuine first) (hGenuine : Genuine t) (hMarked : markOf first ≠ [])
    (hSame : markOf t = [] ∨ markOf t = markOf first) :
    Says (first :: t :: ts) elem ↔ Says (first :: ts) elem := by
  constructor
  · rintro ⟨hAll, -⟩
    simp only [List.forall_mem_cons] at hAll
    exact ⟨List.forall_mem_cons.mpr ⟨hAll.1, hAll.2.2⟩,
      fun hNone => absurd (hNone first List.mem_cons_self) hMarked⟩
  · rintro ⟨hAll, -⟩
    rw [List.forall_mem_cons] at hAll
    refine ⟨?_, fun hNone => absurd (hNone first List.mem_cons_self) hMarked⟩
    simp only [List.forall_mem_cons]
    refine ⟨hAll.1, fun hSome => ?_, hAll.2⟩
    rw [hGenuine.elementOf_eq hFirst (hSame.resolve_left hSome)]
    exact hAll.1 hMarked

/- The type of a run is found unless its literals say different ones. -/
theorem elementType_spec (hGenuine : ∀ t ∈ first :: ts, Genuine t) :
    (∃ cause t, Mixed (first :: ts) ∧
      elementType (encoding first) (elementOf first) ts = .error (cause, t)) ∨
    ∃ elem, ¬ Mixed (first :: ts) ∧ Says (first :: ts) elem ∧
      elementType (encoding first) (elementOf first) ts = .ok elem := by
  induction ts generalizing first with
  | nil =>
    rw [List.forall_mem_singleton] at hGenuine
    refine .inr ⟨elementOf first, ?_, ?_, rfl⟩
    · simp [Mixed]
    · simpa [Says] using (forms_plain _ hGenuine.known).2.1
  | cons t ts ih =>
    simp only [List.forall_mem_cons] at hGenuine
    rcases hGenuine with ⟨hFirst, hNext, hRest⟩
    unfold elementType
    by_cases hPlain : markOf first = []
    · have hEncoding := hFirst.plain_iff.mpr hPlain
      rw [mixed_plain hPlain]
      simp only [says_plain hPlain, hEncoding]
      exact ih (List.forall_mem_cons.mpr ⟨hNext, hRest⟩)
    · have hEncoding : ¬ (encoding first == .plain) = true := by
        simpa [hFirst.plain_iff] using hPlain
      simp only [if_neg hEncoding]
      by_cases hSame : markOf t = [] ∨ markOf t = markOf first
      · rw [mixed_skip hPlain hSame]
        simp only [says_skip hFirst hNext hPlain hSame]
        rw [if_neg ?_]
        · exact ih (List.forall_mem_cons.mpr ⟨hFirst, hRest⟩)
        · rcases hSame with hNone | hSame
          · simp [hNext.plain_iff.mpr hNone]
          · simp [(hNext.encoding_eq_iff hFirst).mpr hSame]
      · rw [not_or] at hSame
        rw [if_pos ?_]
        · exact .inl ⟨_, t, ⟨first, by simp, t, by simp, hPlain, hSame.1, Ne.symm hSame.2⟩, rfl⟩
        · have hMarked : encoding t ≠ .plain := mt hNext.plain_iff.mp hSame.1
          have hOther : encoding first ≠ encoding t := fun hEq =>
            hSame.2 ((hFirst.encoding_eq_iff hNext).mp hEq).symm
          simp [hMarked, hOther]

/- The type that a run says is the one of a literal in it. -/
theorem Says.exists_mem (hSays : Says (first :: ts) elem)
    (hGenuine : ∀ t ∈ first :: ts, Genuine t) : ∃ t ∈ first :: ts, elementOf t = elem := by
  by_cases hPlain : ∀ t ∈ first :: ts, markOf t = []
  · have hFirst := hGenuine first List.mem_cons_self
    exact ⟨first, List.mem_cons_self, ((forms_plain _ hFirst.known).2.1
        (hPlain first List.mem_cons_self)).trans (hSays.2 hPlain).symm⟩
  · rw [not_forall] at hPlain
    rcases hPlain with ⟨t, hPlain⟩
    rw [Classical.not_imp] at hPlain
    exact ⟨t, hPlain.1, hSays.1 t hPlain.1 hPlain.2⟩

------------
-- Reading a Run for a Type
------------

/- The zero behind the elements of a type. -/
def terminator (elem : LitType) : Bytes :=
  List.replicate elem.size 0

/- A literal whose body has been read in a type. -/
def Holds (elem : LitType) (t : Token) (out : Bytes) : Prop :=
  t.kind = .str elem (out ++ terminator elem)

/- What the body of a literal comes to in a type. -/
def ReadsAs (elem : LitType) (t : Token) (out : Bytes) : Prop :=
  decodeElements elem 0 (bodyOf t).2 = .ok out

theorem forms_terminator : ∀ a ∈ forms, unitBytes a.2.1 [0] = terminator a.2.1 := by decide

theorem exists_readsAs {base : Nat} {bytes : Bytes} (hEnd : unitBytes elem [0] = terminator elem)
    (hBody : decodeBody elem base (bodyOf t).2 = .ok bytes) :
    ∃ out, ReadsAs elem t out ∧ bytes = out ++ terminator elem := by
  rw [decodeBody, hEnd] at hBody
  rcases exists_of_map_ok hBody with ⟨out, hOut, rfl⟩
  exact ⟨out, decodeElements_moved hOut, rfl⟩

/- A literal of a run that cannot take on the type of the run. -/
def Unfit (run : List Token) : Prop :=
  ∃ t ∈ run, ∃ u ∈ run, 1 < (elementOf t).size ∧
    markOf u = [] ∧ Garbled (bodyOf u).2

theorem widen_error_iff (hNarrow : (elementOf t).size = 1) :
    (∃ e s', widen l t s = .error e s') ↔ ∃ e, decodeBody l (t.offset + (bodyOf t).1) (bodyOf t).2 =
        .error e := by
  rcases hParts : bodyOf t with ⟨start, body⟩
  unfold widen
  rw [if_neg (by simp [hNarrow])]
  simp only [hParts]
  cases decodeBody l (t.offset + start) body with
  | ok bytes =>
    constructor
    · rintro ⟨e, s', ⟨⟩⟩
    · rintro ⟨e, ⟨⟩⟩
  | error e => exact ⟨fun _ => ⟨e, rfl⟩, fun _ => ⟨_, _, rfl⟩⟩

/- A literal of a run is read in the type of the run. -/
theorem widen_reads (hGenuine : Genuine t) (hSays : markOf t ≠ [] → elementOf t = elem)
    (hWide : 1 < elem.size) (hEnd : unitBytes elem [0] = terminator elem) :
    (∀ u s', widen elem t s = .ok u s' → s' = s ∧ ∃ out, ReadsAs elem t out ∧ Holds elem u out) ∧
    ((∃ e s', widen elem t s = .error e s') ↔ markOf t = [] ∧ Garbled (bodyOf t).2) := by
  rcases hGenuine.decoded with ⟨base, held, hKind, hHeld⟩
  by_cases hPlain : markOf t = []
  · have hChar : elementOf t = .char := (forms_plain _ hGenuine.known).2.1 hPlain
    have hNarrow : (elementOf t).size = 1 := by rw [hChar]; rfl
    rw [widen_error_iff hNarrow]
    refine ⟨fun u s' hRun => ?_, ?_⟩
    · rcases (widen_ok hNarrow).mp hRun with
        ⟨rfl, bytes, hBody, rfl⟩
      rcases exists_readsAs hEnd hBody with ⟨out, hOut, rfl⟩
      exact ⟨rfl, out, hOut, rfl⟩
    · rw [hChar, decodeBody] at hHeld
      rcases exists_of_map_ok hHeld with ⟨out, hOut, -⟩
      rw [decodeBody, Literal.map_error_iff,
        Literal.decodeElements_error_iff (Nat.ne_of_gt hWide) hOut]
      exact ⟨fun hGarbled => ⟨hPlain, hGarbled⟩, And.right⟩
  · have hType := hSays hPlain
    have hStays : widen elem t s = .ok t s := widen_wide (by rw [hType]; exact Nat.ne_of_gt hWide)
    rw [hType] at hKind hHeld
    rw [hStays]
    refine ⟨fun u s' hRun => ?_, ?_, fun h => absurd h.1 hPlain⟩
    · cases hRun
      rcases exists_readsAs hEnd hHeld with ⟨out, hOut, rfl⟩
      exact ⟨rfl, out, hOut, hKind⟩
    · rintro ⟨e, s', hRun⟩
      cases hRun

variable {xs : List α}

/- Steps that leave the state as it is, one after the other. -/
theorem mapM_steps {f : α → Pre β} (hKept : ∀ x ∈ xs, ∀ y s', f x s = .ok y s' → s' = s) :
    (∀ ys s', xs.mapM f s = .ok ys s' → s' = s ∧ List.Forall₂ (fun x y => f x s = .ok y s) xs ys) ∧
    ((∃ e s', xs.mapM f s = .error e s') ↔ ∃ x ∈ xs, ∃ e s', f x s = .error e s') := by
  induction xs with
  | nil =>
    refine ⟨fun ys s' hRun => ?_, ?_, nofun⟩
    · cases hRun
      exact ⟨rfl, .nil⟩
    · rintro ⟨e, s', hRun⟩
      cases hRun
  | cons x xs ih =>
    rw [List.forall_mem_cons] at hKept
    rcases ih hKept.2 with ⟨hOk, hError⟩
    rw [List.mapM_cons]
    cases hFirst : f x s with
    | error e s₁ =>
      rw [bind_error hFirst]
      refine ⟨fun ys s' hRun => ?_, fun _ => ?_, fun _ => ⟨e, s₁, rfl⟩⟩
      · cases hRun
      · exact ⟨x, List.mem_cons_self, e, s₁, hFirst⟩
    | ok y s₁ =>
      have hSame := hKept.1 y s₁ hFirst
      subst hSame
      rw [bind_ok hFirst]
      refine ⟨fun ys s' hRun => ?_, ?_⟩
      · rcases bind_split hRun with ⟨zs, s₂, hRest, hDone⟩
        cases hDone
        rcases hOk zs _ hRest with ⟨rfl, hAll⟩
        exact ⟨rfl, .cons hFirst hAll⟩
      · constructor
        · rintro ⟨e, s₂, hRun⟩
          cases hRest : xs.mapM f s₁ with
          | error e s₃ =>
            rcases hError.mp ⟨e, s₃, hRest⟩ with
              ⟨z, hMem, hFails⟩
            exact ⟨z, List.mem_cons_of_mem _ hMem, hFails⟩
          | ok zs s₃ =>
            rw [bind_ok hRest] at hRun
            cases hRun
        · rintro ⟨z, hMem, e, s₂, hFails⟩
          rcases List.mem_cons.mp hMem with rfl | hMem
          · rw [hFirst] at hFails
            cases hFails
          · rcases hError.mpr ⟨z, hMem, e, s₂, hFails⟩ with
              ⟨e, s₃, hRest⟩
            exact ⟨e, s₃, bind_error hRest⟩

theorem exists_outs {γ : Type} {R : α → β → Prop} {P : α → γ → Prop} {Q : β → γ → Prop}
    {ys : List β} (hAll : List.Forall₂ R xs ys)
    (hStep : ∀ x ∈ xs, ∀ y, R x y → ∃ z, P x z ∧ Q y z) :
    ∃ zs, List.Forall₂ P xs zs ∧ List.Forall₂ Q ys zs := by
  induction hAll with
  | nil => exact ⟨[], .nil, .nil⟩
  | cons hFirst _ ih =>
    rw [List.forall_mem_cons] at hStep
    rcases hStep.1 _ hFirst with ⟨z, hP, hQ⟩
    rcases ih hStep.2 with ⟨zs, hPs, hQs⟩
    exact ⟨z :: zs, .cons hP hPs, .cons hQ hQs⟩

/- The literals of a run are read in the type that the run says. -/
theorem readFor_reads (hGenuine : ∀ t ∈ first :: others, Genuine t)
    (hSays : Says (first :: others) elem) :
    (∀ us s', readFor elem (first :: others) s = .ok us s' → s' = s ∧ ∃ outs,
        List.Forall₂ (ReadsAs elem) (first :: others) outs ∧
        List.Forall₂ (Holds elem) us outs) ∧
    ((∃ e s', readFor elem (first :: others) s = .error e s') ↔ Unfit (first :: others)) := by
  rcases hSays.exists_mem hGenuine with ⟨t, hMem, hType⟩
  have hKnown := (hGenuine t hMem).known
  have hEnd : unitBytes elem [0] = terminator elem := by
    rw [← hType]
    exact forms_terminator _ hKnown
  have hSize : (elem.size = 1 ↔ elem = .char) ∧ 0 < elem.size := by
    rw [← hType]
    exact (forms_plain _ hKnown).2.2
  by_cases hWide : 1 < elem.size
  · have hEq : readFor elem (first :: others) = (first :: others).mapM (widen elem) := if_pos hWide
    have hWiden : ∀ u ∈ first :: others, _ := fun u hu =>
      widen_reads (s := s) (hGenuine u hu) (hSays.1 u hu) hWide hEnd
    rcases mapM_steps (s := s) (f := widen elem) fun u hu v s' hRun =>
      ((hWiden u hu).1 v s' hRun).1 with ⟨hOk, hError⟩
    rw [hEq]
    refine ⟨fun us s' hRun => ?_, hError.trans ?_⟩
    · rcases hOk us s' hRun with ⟨rfl, hAll⟩
      exact ⟨rfl, exists_outs hAll fun u hu v hRead => ((hWiden u hu).1 v _ hRead).2⟩
    · constructor
      · rintro ⟨u, hu, hFails⟩
        rcases (hWiden u hu).2.mp hFails with ⟨hPlain, hGarbled⟩
        exact ⟨t, hMem, u, hu, by rwa [hType], hPlain, hGarbled⟩
      · rintro ⟨v, hv, u, hu, hSize, hPlain, hGarbled⟩
        exact ⟨u, hu, (hWiden u hu).2.mpr ⟨hPlain, hGarbled⟩⟩
  · -- Elements of one byte are those of the literals as they are.
    have hEq : readFor elem (first :: others) = pure (first :: others) := if_neg hWide
    have hChar : elem = .char := hSize.1.mp (by omega)
    have hNarrow : ∀ u ∈ first :: others, elementOf u = elem := by
      intro u hu
      by_cases hPlain : markOf u = []
      · rw [hChar]
        exact (forms_plain _ (hGenuine u hu).known).2.1 hPlain
      · exact hSays.1 u hu hPlain
    rw [hEq]
    refine ⟨fun us s' hRun => ?_, ?_, ?_⟩
    · cases hRun
      refine ⟨rfl, exists_outs (R := Eq) (List.forall₂_same.mpr fun _ _ => rfl) ?_⟩
      rintro u hu _ rfl
      rcases (hGenuine u hu).decoded with ⟨base, held, hKind, hHeld⟩
      rw [hNarrow u hu] at hKind hHeld
      rcases exists_readsAs hEnd hHeld with ⟨out, hOut, rfl⟩
      exact ⟨out, hOut, hKind⟩
    · rintro ⟨e, s', hRun⟩
      cases hRun
    · rintro ⟨v, hv, -, -, hSome, -, -⟩
      rw [hNarrow v hv] at hSome
      exact absurd hSome hWide

------------
-- Runs
------------

/- Whether two tokens side by side are literals. -/
def together (t u : Token) : Bool :=
  t.kind.isStr && u.kind.isStr

/- The literals that stand side by side, and what is between them. -/
def runs (ts : List Token) : List (List Token) :=
  ts.splitBy together

/- A run as one token: a token by itself stays as it is. -/
inductive Merged : List Token → Token → Prop
| one (t : Token) :
    Merged [t] t
| several {first next : Token} {more : List Token}
    {elem : LitType} {outs : List Bytes}
    (hSays : Says (first :: next :: more) elem)
    (hOuts : List.Forall₂ (ReadsAs elem) (first :: next :: more) outs) :
    Merged (first :: next :: more) { first with
      kind := .str elem (outs.flatten ++ terminator elem)
      joined := (first :: next :: more).map spelled }

theorem contents_holds {outs : List Bytes} (hHolds : List.Forall₂ (Holds elem) ts outs) :
    contents elem.size ts = outs.flatten := by
  induction hHolds with
  | nil => rfl
  | @cons t out _ _ hFirst _ ih =>
    have hSize : (out ++ terminator elem).length - elem.size =
        out.length := by
      simp [terminator]
    rw [List.flatten_cons, ← ih]
    unfold contents
    rw [List.flatMap_cons, hFirst]
    simp only [hSize, List.take_left]

variable {more : List Token}

/- A run of literals is merged unless it is mixed or unfit. -/
theorem merge_merged {next : Token} (hGenuine : ∀ t ∈ first :: next :: more, Genuine t)
    (hMore : ∀ t ∈ first :: next :: more, t.isEof = false) :
    (∀ m s', merge first (next :: more) s = .ok m s' → s' = s ∧ Merged (first :: next :: more) m) ∧
    ((∃ e s', merge first (next :: more) s = .error e s') ↔ Mixed (first :: next :: more) ∨
        Unfit (first :: next :: more)) := by
  rw [merge_eq]
  rcases elementType_spec hGenuine with
    ⟨cause, t, hMixed, hType⟩ | ⟨elem, hMixed, hSays, hType⟩
  · -- A scan that fails ends the merge.
    have hFails : ∃ e s', (ofScan (.error (cause, t)) : Pre LitType) s = .error e s' := ⟨_, _, rfl⟩
    rcases hFails with ⟨e, s', hFails⟩
    rw [hType, bind_error hFails]
    refine ⟨fun m s' hRun => ?_, fun _ => .inl hMixed, fun _ => ⟨e, s', rfl⟩⟩
    cases hRun
  · have hFound : (ofScan (.ok elem) : Pre LitType) s = .ok elem s := rfl
    rcases readFor_reads (s := s) hGenuine hSays with
      ⟨hOk, hError⟩
    rw [hType, bind_ok hFound]
    refine ⟨fun m s' hRun => ?_, ?_⟩
    · rcases bind_split hRun with ⟨us, s₁, hRead, hDone⟩
      cases hDone
      rcases hOk us _ hRead with ⟨rfl, outs, hOuts, hHolds⟩
      have hSpelled := (readFor_spec hRead hMore).2.1
      have hElement : elementOf (us.headD first) = elem := by
        cases hOuts with
        | cons _ _ =>
          cases hHolds with
          | cons hFirst _ => rw [List.headD_cons, elementOf, hFirst]
      refine ⟨rfl, ?_⟩
      have hMerged := Merged.several hSays hOuts
      rw [← contents_holds hHolds] at hMerged
      rw [mergedInto, hElement, hSpelled]
      exact hMerged
    · rw [or_iff_right hMixed, ← hError]
      constructor
      · rintro ⟨e, s', hRun⟩
        cases hRead : readFor elem (first :: next :: more) s with
        | error e s₁ => exact ⟨e, s₁, rfl⟩
        | ok us s₁ =>
          rw [bind_ok hRead] at hRun
          cases hRun
      · rintro ⟨e, s', hRead⟩
        exact ⟨e, s', bind_error hRead⟩

/- Of tokens that stand side by side in a run each is a literal. -/
theorem isStr_of_isChain {next : Token}
    (hChain : (first :: next :: more).IsChain fun t u => together t u) :
    ∀ t ∈ first :: next :: more, t.kind.isStr = true := by
  induction more generalizing first next with
  | nil => simpa [together] using hChain
  | cons last more ih =>
    rw [List.isChain_cons_cons, together, Bool.and_eq_true] at hChain
    exact List.forall_mem_cons.mpr ⟨hChain.1.1, ih hChain.2⟩

theorem plain_narrow (hPlain : markOf t = []) (hGenuine : t.kind.isStr = true → Genuine t) :
    (elementOf t).size ≤ 1 := by
  cases hStr : t.kind.isStr with
  | true =>
    have hKnown := forms_plain _ (hGenuine hStr).known
    exact Nat.le_of_eq (hKnown.2.2.1.mpr (hKnown.2.1 hPlain))
  | false =>
    unfold elementOf
    cases hKind : t.kind with
    | str elem bytes =>
      rw [hKind] at hStr
      cases hStr
    | _ => exact Nat.zero_le 1

/- A run by itself is merged. -/
theorem mergeRun_merged (hSome : run ≠ []) (hChain : run.IsChain fun t u => together t u)
    (hLiterals : ∀ t ∈ run, t.kind.isStr = true → Genuine t) :
    (∀ us s', mergeRun run s = .ok us s' → s' = s ∧ ∃ m, us = [m] ∧ Merged run m) ∧
    ((∃ e s', mergeRun run s = .error e s') ↔ Mixed run ∨ Unfit run) := by
  rcases run with - | ⟨first, - | ⟨next, more⟩⟩
  · exact absurd rfl hSome
  · refine ⟨fun us s' hRun => ?_, ?_, ?_⟩
    · cases hRun
      exact ⟨rfl, first, rfl, .one first⟩
    · rintro ⟨e, s', hRun⟩
      cases hRun
    · rintro (⟨t, ht, u, hu, -, -, hDiffer⟩ | ⟨t, ht, u, hu, hWide, hPlain, -⟩)
      · rw [List.mem_singleton] at ht hu
        rw [ht, hu] at hDiffer
        exact absurd rfl hDiffer
      · rw [List.mem_singleton] at ht hu
        rw [ht] at hWide
        rw [hu] at hPlain
        exact absurd hWide (Nat.not_lt.mpr (plain_narrow hPlain (hLiterals first (by simp))))
  · have hAll := isStr_of_isChain hChain
    rcases merge_merged (s := s) (fun t ht => hLiterals t ht (hAll t ht))
      (fun t ht => isEof_of_isStr (hAll t ht)) with ⟨hOk, hError⟩
    rw [← hError]
    change (∀ us s', (merge first (next :: more) >>= fun m => pure [m]) s = .ok us s' → _) ∧
      ((∃ e s', (merge first (next :: more) >>= fun m => pure [m]) s =
        .error e s') ↔ _)
    refine ⟨fun us s' hRun => ?_, ?_, ?_⟩
    · rcases bind_split hRun with ⟨m, s₁, hMerge, hDone⟩
      cases hDone
      rcases hOk m _ hMerge with ⟨rfl, hMerged⟩
      exact ⟨rfl, m, rfl, hMerged⟩
    · rintro ⟨e, s', hRun⟩
      cases hMerge : merge first (next :: more) s with
      | error e s₁ => exact ⟨e, s₁, rfl⟩
      | ok m s₁ =>
        rw [bind_ok hMerge] at hRun
        cases hRun
    · rintro ⟨e, s', hMerge⟩
      exact ⟨e, s', bind_error hMerge⟩

------------
-- Lists
------------

/- What is no literal stands by itself and ends a run. -/
theorem runs_other (hRun : ∀ u ∈ run, u.kind.isStr = true) (hOther : t.kind.isStr = false) :
    runs (run ++ t :: ts) = (if run = [] then [] else [run]) ++ [t] :: runs ts := by
  have hTail : runs (t :: ts) = [t] :: runs ts := by
    change runs ([t] ++ ts) = _
    rw [runs, List.splitBy_append]
    · rfl
    · intro x hx y _
      cases hx
      change together t y = false
      rw [together, hOther, Bool.false_and]
  by_cases hNone : run = []
  · rw [if_pos hNone, hNone]
    exact hTail
  · rw [if_neg hNone, ← hTail, runs, List.splitBy_append, List.splitBy_of_isChain hNone]
    · rfl
    · exact List.Pairwise.isChain (List.pairwise_of_forall_mem_list
        fun a ha b hb => by rw [together, hRun a ha, hRun b hb]; rfl)
    · intro x _ y hy
      cases hy
      rw [together, hOther, Bool.and_false]

/- Each run is merged, in order. -/
theorem joinFrom_runs {done : Array Token} (hRun : ∀ u ∈ run, u.kind.isStr = true)
    (hEnds : ∀ t ∈ (run.reverse ++ ts).getLast?, t.kind.isStr = false) :
    joinFrom run done ts = (do
        let ms ← (runs (run.reverse ++ ts)).mapM mergeRun
        return done.toList ++ ms.flatten) := by
  induction ts generalizing run done with
  | nil =>
    cases run with
    | nil => simp [joinFrom, runs]
    | cons t run =>
      have hStr := hRun t List.mem_cons_self
      rw [hEnds t (by simp)] at hStr
      cases hStr
  | cons t ts ih =>
    cases hKind : t.kind.isStr with
    | true =>
      have hStrs : ∀ u ∈ t :: run, u.kind.isStr = true := List.forall_mem_cons.mpr ⟨hKind, hRun⟩
      have hTurned : (t :: run).reverse ++ ts = run.reverse ++ t :: ts := by
        rw [List.reverse_cons, List.append_assoc]
        rfl
      rw [joinFrom_str hKind, ih hStrs (by rwa [hTurned]), hTurned]
    | false =>
      have hRest : ∀ u ∈ (([] : List Token).reverse ++ ts).getLast?, u.kind.isStr = false := by
        intro u hu
        have hSome : ts ≠ [] := by
          rintro rfl
          cases hu
        refine hEnds u ?_
        rw [List.append_cons, List.getLast?_append_of_ne_nil _ hSome]
        exact hu
      rw [joinFrom_other hKind, runs_other (by simpa using hRun) hKind]
      simp only [ih (List.forall_mem_nil _) hRest]
      by_cases hNone : run = []
      · subst hNone
        simp [mergeRun]
      · have hSome : ¬ run.reverse = [] := by simpa using hNone
        rw [if_neg hSome]
        simp [mergeRun]

/- A merged run is a literal only if all of its tokens are. -/
theorem Merged.isStr (hMerged : Merged run m) (hChain : run.IsChain fun t u => together t u)
    (hStr : m.kind.isStr = true) : ∀ t ∈ run, t.kind.isStr = true := by
  cases hMerged with
  | one t => exact List.forall_mem_singleton.mpr hStr
  | several _ _ => exact isStr_of_isChain hChain

/- Merged runs do not stand side by side as literals. -/
theorem isChain_merged {rs : List (List Token)} (hMerged : List.Forall₂ Merged rs us)
    (hRuns : ∀ run ∈ rs, run.IsChain fun t u => together t u)
    (hApart : rs.IsChain fun a b => ∃ ha hb,
      together (a.getLast ha) (b.head hb) = false) :
    us.IsChain fun t u => together t u = false := by
  induction hMerged with
  | nil => exact .nil
  | cons hFirst hRest ih =>
    rw [List.forall_mem_cons] at hRuns
    cases hRest with
    | nil => exact .singleton _
    | cons hNext hRest =>
      rw [List.isChain_cons_cons] at hApart
      refine List.isChain_cons_cons.mpr ⟨?_, ih hRuns.2 hApart.2⟩
      refine Bool.eq_false_of_not_eq_true fun hBoth => ?_
      rw [together, Bool.and_eq_true] at hBoth
      rcases hApart.1 with ⟨ha, hb, hDiffer⟩
      rw [together, hFirst.isStr hRuns.1 hBoth.1 _ (List.getLast_mem ha),
        hNext.isStr (hRuns.2 _ List.mem_cons_self) hBoth.2 _ (List.head_mem hb)] at hDiffer
      cases hDiffer

theorem flatten_singles {mss : List (List Token)}
    (hSingle : List.Forall₂ (fun ms m => ms = [m]) mss us) : mss.flatten = us := by
  induction hSingle with
  | nil => rfl
  | cons hFirst _ ih => rw [List.flatten_cons, hFirst, ih]; rfl

/-
  Every run of literals becomes one token that holds the
  elements of all of them, in the type that those with letters
  say.  Two literals with different letters, and bytes that
  cannot be widened, are the only failures.
-/
theorem joinAll_merges (cfg : Config) (ts : List Token) (s : Session)
    (hLexed : ∀ t ∈ ts, t.kind.isStr = true → Alone cfg t)
    (hEnds : ∀ t ∈ ts.getLast?, t.isEof = true) :
    (∀ us s', joinAll ts s = .ok us s' → s' = s ∧ List.Forall₂ Merged (runs ts) us ∧
        us.IsChain fun t u => together t u = false) ∧
    ((∃ e s', joinAll ts s = .error e s') ↔ ∃ run ∈ runs ts, Mixed run ∨ Unfit run) := by
  have hLast : ∀ t ∈ (([] : List Token).reverse ++ ts).getLast?, t.kind.isStr = false := by
    intro t ht
    by_contra hStr
    have hMore := isEof_of_isStr (Bool.eq_true_of_not_eq_false hStr)
    rw [hEnds t ht] at hMore
    cases hMore
  have hEq : joinAll ts = (do
      let ms ← (runs ts).mapM mergeRun
      return ms.flatten) :=
    joinFrom_runs (List.forall_mem_nil _) hLast
  have hChains : ∀ run ∈ runs ts, run.IsChain fun t u => together t u :=
    fun run hMem => List.isChain_of_mem_splitBy hMem
  have hMerge : ∀ run ∈ runs ts, _ := fun run hMem =>
    mergeRun_merged (s := s) (List.ne_nil_of_mem_splitBy hMem)
      (hChains run hMem) fun t ht hStr => .of_alone (hLexed t (by
          rw [← List.flatten_splitBy _ ts]
          exact List.mem_flatten.mpr ⟨run, hMem, ht⟩) hStr) hStr
  rcases mapM_steps (s := s) (f := mergeRun) fun run hMem us s' hRun =>
    ((hMerge run hMem).1 us s' hRun).1 with ⟨hOk, hError⟩
  rw [hEq]
  refine ⟨fun us s' hRun => ?_, ?_⟩
  · rcases bind_split hRun with ⟨mss, s₁, hAll, hDone⟩
    cases hDone
    rcases hOk mss _ hAll with ⟨rfl, hAll⟩
    rcases exists_outs (P := Merged) (Q := fun ms m => ms = [m]) hAll (fun run hMem ms hRun => by
        rcases ((hMerge run hMem).1 ms _ hRun).2 with
          ⟨m, hSingle, hMerged⟩
        exact ⟨m, hMerged, hSingle⟩) with ⟨us, hMerged, hSingles⟩
    rw [flatten_singles hSingles]
    exact ⟨rfl, hMerged, isChain_merged hMerged hChains (List.isChain_getLast_head_splitBy _ ts)⟩
  · have hStep : (∃ e s', ((runs ts).mapM mergeRun >>= fun ms => pure ms.flatten) s = .error e s') ↔
        ∃ e s', (runs ts).mapM mergeRun s = .error e s' := by
      constructor
      · rintro ⟨e, s', hRun⟩
        cases hAll : (runs ts).mapM mergeRun s with
        | error e s₁ => exact ⟨e, s₁, rfl⟩
        | ok mss s₁ =>
          rw [bind_ok hAll] at hRun
          cases hRun
      · rintro ⟨e, s', hAll⟩
        exact ⟨e, s', bind_error hAll⟩
    rw [hStep, hError]
    constructor
    · rintro ⟨run, hMem, hFails⟩
      exact ⟨run, hMem, (hMerge run hMem).2.mp hFails⟩
    · rintro ⟨run, hMem, hFails⟩
      exact ⟨run, hMem, (hMerge run hMem).2.mpr hFails⟩

/- Plain literals on both sides of one of 16-bit elements. -/
def adjacent : SourceFile :=
  ⟨0, ascii "m.c", 1, ascii "\"a\" u\"\\n\" \"b\";\n"⟩

/- The tokens of a text after its literals have been merged. -/
def joinedFrom? (f : SourceFile) : Option (List Token × List Token) :=
  (Lexer.tokenize {} f (ascii "m.c")).tokens.toOption.bind fun ts =>
    match joinAll ts {} with
    | .ok us _ => some (ts, us)
    | .error _ _ => none

theorem joinAll_merges_adjacent :
    ∃ ts us s', (Lexer.tokenize {} adjacent (ascii "m.c")).tokens = .ok ts ∧
      (∀ t ∈ ts, t.kind.isStr = true → Alone {} t) ∧
      (∀ t ∈ ts.getLast?, t.isEof = true) ∧ joinAll ts {} = .ok us s' ∧
      us.map Token.kind = [.str .ushort [0x61, 0, 0x0A, 0, 0x62, 0, 0, 0], .punct, .eof] ∧
      List.Forall₂ Merged (runs ts) us := by
  have hCheck : ((joinedFrom? adjacent).map fun r =>
      (r.1.getLast?.map Token.isEof, r.2.map Token.kind)) =
      some (some true, [.str .ushort [0x61, 0, 0x0A, 0, 0x62, 0, 0, 0], .punct, .eof]) := by
    decide +kernel
  rcases Option.map_eq_some_iff.mp hCheck with
    ⟨⟨ts, us⟩, hSome, hBoth⟩
  rcases Prod.mk.inj hBoth with ⟨hLast, hKinds⟩
  rcases Option.bind_eq_some_iff.mp hSome with ⟨read, hRead, hJoin⟩
  cases hTokens : (Lexer.tokenize {} adjacent (ascii "m.c")).tokens with
  | error e =>
    rw [hTokens] at hRead
    cases hRead
  | ok _ =>
  rw [hTokens] at hRead
  cases hRead
  split at hJoin
  on_goal 2 => cases hJoin
  rename_i s' hRun
  cases hJoin
  have hLexed : ∀ t ∈ ts, t.kind.isStr = true → Alone {} t :=
    fun t hMem hStr => Lexer.alone_of_tokenize hTokens hMem (isEof_of_isStr hStr)
  have hEnds : ∀ t ∈ ts.getLast?, t.isEof = true := by
    intro t hMem
    rw [Option.mem_def.mp hMem] at hLast
    exact Option.some.inj hLast
  exact ⟨ts, us, s', rfl, hLexed, hEnds, hRun, hKinds,
    ((joinAll_merges {} ts {} hLexed hEnds).1 us s' hRun).2.1⟩

end StringRun

end CCompiler
