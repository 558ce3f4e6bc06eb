import Mathlib
import CCompiler.Proofs.ProbeTable.Invariant

/-
  Tables with open addressing are finite maps, whatever the
  hash function.

  A run of operations on a table is compared with the same
  updates of a mathematical finite map: every operation has a
  result, and every answer is the one that the map gives.

  Main declarations:
    * `ProbeTable.grow_spec`
    * `ProbeTable.rebuild?_spec`
    * `ProbeTable.insert?_spec`
    * `ProbeTable.Op`, `ProbeTable.run?`
    * `ProbeTable.run?_refines_finmap`
-/

------------
-- Growing
------------

namespace CCompiler

namespace ProbeTable

variable {α : Type}

/- The test for growth, without division. -/
theorem half_full_iff (live : Nat) {c : Nat} (hc : 0 < c) : live * 100 / c ≥ 50 ↔ c ≤ 2 * live := by
  rw [ge_iff_le, Nat.le_div_iff_mul_le hc]
  omega

/-
  Growing stops at a power of two of which less than half is
  needed, and never goes past four times what is needed.
-/
theorem grow_spec (live fuel k : Nat) (hFuel : 2 * live < 2 ^ (k + fuel)) :
    ∃ k', k ≤ k' ∧ grow live fuel (2 ^ k) = 2 ^ k' ∧ 2 * live < 2 ^ k' ∧
      (k' = k ∨ 2 ^ k' ≤ 4 * live) := by
  induction fuel generalizing k with
  | zero => exact ⟨k, le_rfl, rfl, hFuel, Or.inl rfl⟩
  | succ fuel ih =>
    rw [grow]
    split
    · rename_i hHalf
      rw [half_full_iff live (Nat.two_pow_pos k)] at hHalf
      have hFuel' : 2 * live < 2 ^ (k + 1 + fuel) := by
        rwa [show k + 1 + fuel = k + (fuel + 1) by omega]
      obtain ⟨k', hk, hGrow, hLess, hMore⟩ := ih (k + 1) hFuel'
      refine ⟨k', by omega, ?_, hLess, Or.inr ?_⟩
      · rw [← hGrow, Nat.pow_succ]
      · rcases hMore with rfl | hMore
        · rw [Nat.pow_succ]
          omega
        · exact hMore
    · rename_i hHalf
      rw [half_full_iff live (Nat.two_pow_pos k)] at hHalf
      exact ⟨k, le_rfl, rfl, by omega, Or.inl rfl⟩

theorem crowded_iff (t : ProbeTable α) (hSize : 0 < t.slots.size) :
    t.crowded = true ↔ 70 * t.slots.size ≤ 100 * t.used := by
  rw [crowded, decide_eq_true_iff, ge_iff_le, Nat.le_div_iff_mul_le hSize]
  omega

theorem insertWith_of_not_crowded (rebuild : ProbeTable α → Option (ProbeTable α))
    {t : ProbeTable α} (hSize : 0 < t.slots.size) (hLoad : 100 * t.used < 70 * t.slots.size)
    (key : Bytes) (value : α) :
    insertWith rebuild t key value = t.writeSlot? key value := by
  have hCrowded : t.crowded = false := by
    rw [← Bool.not_eq_true, t.crowded_iff hSize]
    omega
  simp [insertWith, hCrowded, show t.slots.size ≠ 0 by omega]

end ProbeTable

------------
-- Contents as a List
------------

namespace ProbeTable

variable {α : Type}

theorem mem_toList_iff (t : ProbeTable α) (key : Bytes) (value : α) :
    (key, value) ∈ t.toList ↔ t.Holds key value := by
  unfold toList Holds
  simp only [List.mem_filterMap, Array.mem_toList_iff]
  constructor
  · rintro ⟨s, hs, hEntry⟩
    obtain ⟨p, hp, rfl⟩ := Array.mem_iff_getElem.mp hs
    refine ⟨p, ?_⟩
    cases hSlot : t.slots[p] with
    | empty => simp [hSlot, Slot.entry?] at hEntry
    | tombstone => simp [hSlot, Slot.entry?] at hEntry
    | live k v =>
      simp only [hSlot, Slot.entry?, Option.some.injEq, Prod.mk.injEq] at hEntry
      obtain ⟨rfl, rfl⟩ := hEntry
      simp [hp, hSlot]
  · rintro ⟨p, hSlot⟩
    exact ⟨.live key value, Array.mem_of_getElem? hSlot, rfl⟩

variable {t : ProbeTable α}

/- The number of live slots is the number of entries. -/
theorem Inv.length_toList (hInv : t.Inv) : t.toList.length = t.size := by
  rw [hInv.size_eq, ← Array.countP_toList, toList]
  induction t.slots.toList with
  | nil => rfl
  | cons s rest ih =>
    cases s <;> simp [List.filterMap_cons, List.countP_cons, Slot.entry?, Slot.isLive, ih]

/- Only a live slot has an entry. -/
theorem Slot.eq_live {s : Slot α} {k : Bytes} {v : α} (hEntry : s.entry? = some (k, v)) :
    s = .live k v := by
  cases s <;> cases hEntry
  rfl

/- Entries of slots that no two of which share a key. -/
theorem nodup_keys_filterMap (slots : List (Slot α))
    (hUnique : ∀ (p q : Nat) (k : Bytes) (v w : α),
      slots[p]? = some (.live k v) → slots[q]? = some (.live k w) → p = q) :
    ((slots.filterMap Slot.entry?).map Prod.fst).Nodup := by
  induction slots with
  | nil => simp
  | cons s rest ih =>
    have hRest := ih fun p q k v w hp hq => by
      have hEq := hUnique (p + 1) (q + 1) k v w (by simpa using hp) (by simpa using hq)
      omega
    cases s with
    | empty => simpa [List.filterMap_cons, Slot.entry?] using hRest
    | tombstone => simpa [List.filterMap_cons, Slot.entry?] using hRest
    | live k v =>
      simp only [List.filterMap_cons, Slot.entry?, List.map_cons, List.nodup_cons]
      refine ⟨?_, hRest⟩
      intro hMem
      obtain ⟨⟨k', w⟩, hEntry, rfl⟩ := List.mem_map.mp hMem
      obtain ⟨s, hs, hSlot⟩ := List.mem_filterMap.mp hEntry
      obtain ⟨q, hq, rfl⟩ := List.mem_iff_getElem.mp hs
      have hEq := hUnique 0 (q + 1) k' v w rfl (by
        rw [List.getElem?_cons_succ, List.getElem?_eq_getElem hq, Slot.eq_live hSlot])
      omega

theorem Inv.nodup_keys (hInv : t.Inv) : (t.toList.map Prod.fst).Nodup := by
  refine nodup_keys_filterMap _ fun p q k v w hp hq => ?_
  exact hInv.slot_unique (by simpa using hp) (by simpa using hq)

end ProbeTable

------------
-- Rebuilding
------------

namespace ProbeTable

variable {α : Type}

theorem inv_blank (hash : Bytes → UInt64) {k : Nat} (hLow : 4 ≤ k) (hHigh : k ≤ 63) :
    Inv (⟨hash, Array.replicate (2 ^ k) .empty, 0, 0⟩ : ProbeTable α) where
  capacity := Or.inr ⟨k, hLow, hHigh, by simp⟩
  used_eq := by simp [Array.countP_replicate, Slot.isTaken]
  size_eq := by simp [Array.countP_replicate, Slot.isLive]
  room := Or.inr (by simp)
  reach := by
    intro p key value hSlot
    simp [Array.getElem?_replicate] at hSlot

theorem not_holds_blank (hash : Bytes → UInt64) (c : Nat) (key : Bytes) (value : α) :
    ¬ Holds ⟨hash, Array.replicate c .empty, 0, 0⟩ key value := by
  rintro ⟨p, hSlot⟩
  simp [Array.getElem?_replicate] at hSlot

variable {t : ProbeTable α}

/-
  Entries with different keys can be put one by one into a
  table that has room for twice as many, and no rebuilding
  is asked for on the way.
-/
theorem foldlM_insertWith_spec (rebuild : ProbeTable α → Option (ProbeTable α))
    (entries : List (Bytes × α)) (hInv : t.Inv) (hSize : 16 ≤ t.slots.size)
    (hRoom : 2 * (t.used + entries.length) < t.slots.size) (hNodup : (entries.map Prod.fst).Nodup)
    (hNew : ∀ k v, t.Holds k v → k ∉ entries.map Prod.fst) :
    ∃ t', entries.foldlM (fun acc (k, v) => insertWith rebuild acc k v) t = some t' ∧
      t'.Inv ∧ t'.slots.size = t.slots.size ∧
      t'.used ≤ t.used + entries.length ∧ ∀ k v, t'.Holds k v ↔ t.Holds k v ∨ (k, v) ∈ entries := by
  induction entries generalizing t with
  | nil => exact ⟨t, rfl, hInv, rfl, le_rfl, by simp⟩
  | cons entry rest ih =>
    obtain ⟨key, value⟩ := entry
    simp only [List.length_cons] at hRoom
    simp only [List.map_cons, List.nodup_cons] at hNodup
    simp only [List.map_cons] at hNew
    obtain ⟨t₁, hWrite, hInv₁, -, hSize₁, hUsed₁, hHolds₁⟩ :=
      writeSlot?_spec hInv (by omega) key value
    have hNew₁ : ∀ k v, t₁.Holds k v → k ∉ rest.map Prod.fst := by
      intro k v hHolds
      rw [hHolds₁ k v] at hHolds
      split at hHolds
      · rename_i hk
        exact hk ▸ hNodup.1
      · exact fun hMem => hNew k v hHolds (by simp [hMem])
    obtain ⟨t', hFold, hInv', hSize', hUsed', hHolds'⟩ :=
      ih hInv₁ (by omega) (by omega) hNodup.2 hNew₁
    have hInsert : insertWith rebuild t key value = some t₁ := by
      rw [insertWith_of_not_crowded rebuild (by omega) (by omega), hWrite]
    refine ⟨t', ?_, hInv', by omega, by simp only [List.length_cons]; omega, ?_⟩
    · rw [List.foldlM_cons]
      simp only [hInsert]
      exact hFold
    · intro k v
      rw [hHolds' k v, hHolds₁ k v]
      by_cases hk : k = key
      · subst hk
        have hGone : ∀ w, ¬ t.Holds k w := fun w hHolds => hNew k w hHolds (by simp)
        have hOnce : (k, v) ∉ rest := fun hMem =>
          hNodup.1 (List.mem_map_of_mem (f := Prod.fst) hMem)
        simp [hGone, hOnce]
      · simp [hk]

/- A rebuilt table has the same entries, and room. -/
theorem rebuild?_spec (hInv : t.Inv) (hSize : 0 < t.slots.size) (hSmall : 100 * t.used < 2 ^ 63)
    (n : Nat) :
    ∃ t', rebuild? (n + 1) t = some t' ∧ t'.Inv ∧ t'.used + 1 < t'.slots.size ∧
      ∀ k v, t'.Holds k v ↔ t.Holds k v := by
  obtain ⟨k, hLow, hHigh, hPow⟩ := hInv.capacity.resolve_left (by omega)
  have hLive : t.size ≤ t.used := by
    rw [hInv.size_eq, hInv.used_eq]
    exact Array.countP_mono_left fun s _ hs => by cases s <;> simp_all [Slot.isLive, Slot.isTaken]
  have hFuel : 2 * t.size < 2 ^ (k + (t.size + 1)) := by
    have hBelow : t.size < 2 ^ t.size := Nat.lt_two_pow_self
    have hMono : 2 ^ (t.size + 1) ≤ 2 ^ (k + (t.size + 1)) :=
      Nat.pow_le_pow_right (by omega) (by omega)
    rw [Nat.pow_succ] at hMono
    omega
  obtain ⟨k', hk, hGrow, hHalf, hBound⟩ := grow_spec t.size (t.size + 1) k hFuel
  have hHigh' : k' ≤ 63 := by
    rcases hBound with rfl | hBound
    · exact hHigh
    · by_contra hBig
      have hMono : 2 ^ 64 ≤ 2 ^ k' := Nat.pow_le_pow_right (by omega) (by omega)
      omega
  have hBlank : t.blankFor = ⟨t.hash, Array.replicate (2 ^ k') .empty, 0, 0⟩ := by
    rw [blankFor, hPow, hGrow]
  have hSixteen : 2 ^ 4 ≤ 2 ^ k' := Nat.pow_le_pow_right (by omega) (by omega)
  obtain ⟨t', hFold, hInv', hSize', hUsed', hHolds'⟩ :=
    foldlM_insertWith_spec (rebuild? n) t.toList (inv_blank t.hash (by omega) hHigh')
      (by simpa using hSixteen)
      (by simpa [hInv.length_toList] using hHalf)
      hInv.nodup_keys
      (fun k v hHolds => absurd hHolds (not_holds_blank t.hash _ k v))
  refine ⟨t', ?_, hInv', ?_, ?_⟩
  · rw [rebuild?, hBlank]
    exact hFold
  · simp only [Array.size_replicate, Nat.zero_add, hInv.length_toList] at hSize' hUsed'
    omega
  · intro k v
    rw [hHolds' k v, mem_toList_iff]
    exact or_iff_right (not_holds_blank t.hash _ k v)

/- Putting a value under a key always has a result. -/
theorem insert?_spec (hInv : t.Inv) (hSmall : 100 * t.used < 2 ^ 63) (key : Bytes) (value : α) :
    ∃ t', t.insert? key value = some t' ∧ t'.Inv ∧ ∀ k v, t'.Holds k v ↔
        if k = key then v = value else t.Holds k v := by
  rw [insert?]
  by_cases hZero : t.slots.size = 0
  · -- The first entry: nothing is counted yet.
    have hUsed : t.used = 0 := by
      have hLe : t.slots.countP Slot.isTaken ≤ t.slots.size := Array.countP_le_size
      rw [← hInv.used_eq] at hLe
      omega
    have hLive : t.size = 0 := by
      have hLe : t.slots.countP Slot.isLive ≤ t.slots.size := Array.countP_le_size
      rw [← hInv.size_eq] at hLe
      omega
    obtain ⟨t', hWrite, hInv', -, -, -, hHolds'⟩ :=
      writeSlot?_spec (inv_blank (α := α) (k := 4) t.hash (by omega) (by omega)) (by simp) key value
    refine ⟨t', ?_, hInv', fun k v => ?_⟩
    · simp only [insertWith, hZero, beq_self_eq_true, if_true, hUsed, hLive]
      exact hWrite
    · have hNone : ¬ t.Holds k v := by
        rintro ⟨p, hSlot⟩
        obtain ⟨hp, -⟩ := Array.getElem?_eq_some_iff.mp hSlot
        omega
      rw [hHolds' k v]
      simp [hNone, not_holds_blank]
  · have hPos : 0 < t.slots.size := by omega
    obtain ⟨_, hLow, -, hPow⟩ := hInv.capacity.resolve_left hZero
    have hSixteen : 2 ^ 4 ≤ t.slots.size := by
      rw [hPow]
      exact Nat.pow_le_pow_right (by omega) hLow
    by_cases hLoad : 100 * t.used < 70 * t.slots.size
    · obtain ⟨t', hWrite, hInv', -, -, -, hHolds'⟩ := writeSlot?_spec hInv (by omega) key value
      refine ⟨t', ?_, hInv', hHolds'⟩
      rw [insertWith_of_not_crowded _ hPos hLoad, hWrite]
    · have hCrowded : t.crowded = true := (t.crowded_iff hPos).mpr (by omega)
      obtain ⟨t₁, hRebuild, hInv₁, hRoom₁, hHolds₁⟩ := rebuild?_spec hInv hPos hSmall 0
      obtain ⟨t', hWrite, hInv', -, -, -, hHolds'⟩ := writeSlot?_spec hInv₁ hRoom₁ key value
      refine ⟨t', ?_, hInv', fun k v => ?_⟩
      · simp only [insertWith, beq_iff_eq, hZero, if_false, hCrowded, if_true, hRebuild]
        exact hWrite
      · rw [hHolds' k v]
        simp only [hHolds₁]

end ProbeTable

------------
-- Operations and Answers
------------

namespace ProbeTable

variable {α : Type}

/- What can be asked of a table. -/
inductive Op (α : Type)
| put (key : Bytes) (value : α)
| delete (key : Bytes)
| get (key : Bytes)
| lookup (key : Bytes)
| has (key : Bytes)
| len
| range

/- What a table says to an operation. -/
inductive Answer (α : Type)
| done
| found (value? : Option α)
| value (v : α)
| truth (b : Bool)
| count (n : Nat)
| entries (es : List (Bytes × α))

/-
  The table after an operation, and its answer.  Looking up a
  missing key gives the default value.
-/
def step?
    [Inhabited α]
    (t : ProbeTable α) :
    Op α → Option (ProbeTable α × Answer α)
| .put key value =>
  (t.insert? key value).map fun t' => (t', .done)
| .delete key => some (t.erase key, .done)
| .get key => some (t, .found (t.get? key))
| .lookup key =>
  some (t, .value ((t.get? key).getD default))
| .has key => some (t, .truth (t.contains key))
| .len => some (t, .count t.size)
| .range => some (t, .entries t.toList)

/- The table after a list of operations, and the answers. -/
def run?
    [Inhabited α] :
    ProbeTable α → List (Op α) → Option (ProbeTable α × List (Answer α))
| t, [] => some (t, [])
| t, op :: ops => do
  let (t', answer) ← t.step? op
  let (t'', answers) ← t'.run? ops
  return (t'', answer :: answers)

/- The finite maps from keys to values. -/
abbrev FiniteMap (α : Type) :=
  Finmap fun _ : Bytes => α

namespace Op

/- What an operation does to a finite map. -/
def update (m : FiniteMap α) : Op α → FiniteMap α
| .put key value => m.insert key value
| .delete key => m.erase key
| _ => m

/-
  Which answers to an operation are right for a finite map.
  The entries may come in any order, each key once.
-/
def Answered
    [Inhabited α]
    (m : FiniteMap α) : Op α → Answer α → Prop
| .put _ _, .done => True
| .delete _, .done => True
| .get key, .found value? => value? = m.lookup key
| .lookup key, .value v =>
  v = (m.lookup key).getD default
| .has key, .truth b => b = true ↔ key ∈ m
| .len, .count n => n = m.keys.card
| .range, .entries es =>
  (es.map Prod.fst).Nodup ∧ ∀ key v, (key, v) ∈ es ↔ m.lookup key = some v
| _, _ => False

/- Which answers to a list of operations are right. -/
def AllAnswered
    [Inhabited α] :
    FiniteMap α → List (Op α) → List (Answer α) → Prop
| _, [], [] => True
| m, op :: ops, answer :: answers =>
  op.Answered m answer ∧ AllAnswered (op.update m) ops answers
| _, _, _ => False

end Op

/- A table in good order that holds the entries of a map. -/
structure Represents
    (t : ProbeTable α)
    (m : FiniteMap α) : Prop where
  inv : t.Inv
  holds_iff : ∀ key v,
    t.Holds key v ↔ m.lookup key = some v

theorem represents_empty (hash : Bytes → UInt64) : Represents (empty hash : ProbeTable α) ∅ where
  inv :=
    { capacity := Or.inl rfl
      used_eq := rfl
      size_eq := rfl
      room := Or.inl rfl
      reach := by simp [empty] }
  holds_iff := by simp [Holds, empty]

namespace Represents

variable {t : ProbeTable α} {m : FiniteMap α}

theorem get?_eq (hRep : t.Represents m) (key : Bytes) : t.get? key = m.lookup key := by
  ext v
  rw [hRep.inv.get?_eq_some_iff, hRep.holds_iff]

/- The number of live slots is the number of keys. -/
theorem size_eq (hRep : t.Represents m) : t.size = m.keys.card := by
  have hKeys : m.keys = (t.toList.map Prod.fst).toFinset := by
    ext key
    simp only [Finmap.mem_keys, List.mem_toFinset, List.mem_map, Prod.exists, exists_and_right,
      exists_eq_right, mem_toList_iff, hRep.holds_iff, Finmap.mem_iff]
  rw [hKeys, List.toFinset_card_of_nodup hRep.inv.nodup_keys,
    List.length_map, hRep.inv.length_toList]

/- One operation has a result, and the right answer. -/
theorem step [Inhabited α] (hRep : t.Represents m) (hSmall : 100 * t.used < 2 ^ 63) (op : Op α) :
    ∃ t' answer, t.step? op = some (t', answer) ∧ t'.Represents (op.update m) ∧
      op.Answered m answer := by
  cases op with
  | put key value =>
    obtain ⟨t', hInsert, hInv', hHolds'⟩ := insert?_spec hRep.inv hSmall key value
    refine ⟨t', .done, by simp [step?, hInsert], ⟨hInv', fun k v => ?_⟩, trivial⟩
    rw [hHolds' k v, Op.update]
    by_cases hk : k = key
    · subst hk
      simp [Finmap.lookup_insert, eq_comm]
    · simp [hk, Finmap.lookup_insert_of_ne, hRep.holds_iff]
  | delete key =>
    obtain ⟨hInv', -, hHolds'⟩ := erase_spec hRep.inv key
    refine ⟨t.erase key, .done, rfl, ⟨hInv', fun k v => ?_⟩, trivial⟩
    rw [hHolds' k v, Op.update]
    by_cases hk : k = key
    · subst hk
      simp [Finmap.lookup_erase]
    · simp [hk, Finmap.lookup_erase_ne, hRep.holds_iff]
  | get key => exact ⟨t, _, rfl, hRep, hRep.get?_eq key⟩
  | lookup key =>
    refine ⟨t, _, rfl, hRep, ?_⟩
    simp only [Op.Answered, hRep.get?_eq]
  | has key =>
    refine ⟨t, _, rfl, hRep, ?_⟩
    simp only [Op.Answered, hRep.inv.contains_iff, hRep.holds_iff, Finmap.mem_iff]
  | len => exact ⟨t, _, rfl, hRep, hRep.size_eq⟩
  | range =>
    refine ⟨t, _, rfl, hRep, hRep.inv.nodup_keys, ?_⟩
    intro key v
    rw [mem_toList_iff, hRep.holds_iff]

/-
  A run has a result and the right answers, if the load of
  the table can be worked out in 64 bits all the way.
-/
theorem run [Inhabited α] (ops : List (Op α)) (hRep : t.Represents m)
    (hSmall : ∀ before, before <+: ops →
      ∀ t' answers, t.run? before = some (t', answers) →
        100 * t'.used < 2 ^ 63) :
    ∃ t' answers, t.run? ops = some (t', answers) ∧ Op.AllAnswered m ops answers := by
  induction ops generalizing t m with
  | nil => exact ⟨t, [], rfl, trivial⟩
  | cons op ops ih =>
    have hNow : 100 * t.used < 2 ^ 63 := hSmall [] (List.nil_prefix) t [] rfl
    obtain ⟨t₁, answer, hStep, hRep₁, hAnswer⟩ := hRep.step hNow op
    obtain ⟨t', answers, hRun, hAnswers⟩ :=
      ih hRep₁ fun before hPrefix t' answers hBefore =>
        hSmall (op :: before) (List.cons_prefix_cons.mpr ⟨rfl, hPrefix⟩) t' (answer :: answers)
          (by simp [run?, hStep, hBefore])
    exact ⟨t', answer :: answers, by simp [run?, hStep, hRun], hAnswer, hAnswers⟩

end Represents

/-
  A run from the empty table, for any hash function: no
  operation is without a result, so that no table fills up
  and rebuilding is never nested, and all answers are those
  of the finite map with the same updates.
-/
theorem run?_refines_finmap [Inhabited α] (hash : Bytes → UInt64) (ops : List (Op α))
    (hSmall : ∀ before, before <+: ops → ∀ t answers,
        (empty hash : ProbeTable α).run? before = some (t, answers) →
          100 * t.used < 2 ^ 63) :
    ∃ t answers, (empty hash : ProbeTable α).run? ops = some (t, answers) ∧
        Op.AllAnswered ∅ ops answers := (represents_empty hash).run ops hSmall

/-
  Three keys that all hash to the last slot but one, in 64
  bits as well: the probe sequence wraps, and a tombstone is
  used again.
-/
theorem run?_refines_finmap_colliding :
    ∃ t answers, (empty fun _ => 0xFFFFFFFFFFFFFFFE : ProbeTable Nat).run?
        [.put [1] 10, .put [2] 20, .delete [1], .put [3] 30, .put [2] 21, .get [2], .has [1],
          .len, .range] = some (t, answers) ∧ Op.AllAnswered ∅
          [.put [1] 10, .put [2] 20, .delete [1], .put [3] 30, .put [2] 21, .get [2], .has [1],
            .len, .range] answers := by
  refine run?_refines_finmap _ _ ?_
  intro before hPrefix t answers hRun
  have hAll : (List.inits [.put [1] 10, .put [2] 20, .delete [1],
          .put [3] 30, .put [2] 21, .get [2], .has [1],
          .len, .range]).all (fun ops =>
        ((empty fun _ => 0xFFFFFFFFFFFFFFFE : ProbeTable Nat).run? ops).all
            fun r => decide (100 * r.1.used < 2 ^ 63)) =
        true := by
    decide +kernel
  have hOne := List.all_eq_true.mp hAll before ((List.mem_inits _ _).mpr hPrefix)
  rw [hRun] at hOne
  simpa using hOne

end ProbeTable

end CCompiler
