import Mathlib
import CCompiler.ProbeTable

/-
  The invariant of tables with open addressing, and what each
  operation on slots does to it.

  The capacity is a power of two, so that a probe sequence in
  wrapping 64-bit arithmetic meets every slot.  Every live
  slot is the one that a search for its key ends in, so each
  key sits in one slot only.

  Main declarations:
    * `ProbeTable.mem_probes`
    * `ProbeTable.Holds`, `ProbeTable.Inv`
    * `ProbeTable.get?_eq_some_iff`
    * `ProbeTable.writeSlot?_spec`
    * `ProbeTable.erase_spec`
-/

------------
-- Probe Sequences
------------

namespace CCompiler

namespace ProbeTable

variable {α : Type}

variable {k : Nat}

/- Wrapping at 64 bits does not show in a power of two. -/
theorem place_eq (t : ProbeTable α) (key : Bytes) (i : Nat) (hSize : t.slots.size = 2 ^ k)
    (hk : k ≤ 63) : t.place key i = ((t.hash key).toNat + i) % 2 ^ k := by
  have hDvd : 2 ^ k ∣ 2 ^ 64 := Nat.pow_dvd_pow 2 (by omega)
  have hLt : 2 ^ k < 2 ^ 64 := Nat.pow_lt_pow_right (by omega) (by omega)
  simp only [place, hSize, UInt64.toNat_mod, UInt64.toNat_add, UInt64.toNat_ofNat']
  rw [Nat.mod_eq_of_lt hLt, Nat.mod_mod_of_dvd _ hDvd,
    Nat.add_mod, Nat.mod_mod_of_dvd _ hDvd, ← Nat.add_mod]

variable {p : Nat}

theorem lt_of_mem_probes (t : ProbeTable α) (key : Bytes) (hSize : t.slots.size = 2 ^ k)
    (hk : k ≤ 63) (hp : p ∈ t.probes key) : p < t.slots.size := by
  obtain ⟨i, -, rfl⟩ := List.mem_map.mp hp
  rw [t.place_eq key i hSize hk, hSize]
  exact Nat.mod_lt _ (Nat.two_pow_pos k)

/- A probe sequence meets every slot. -/
theorem mem_probes (t : ProbeTable α) (key : Bytes) (hSize : t.slots.size = 2 ^ k) (hk : k ≤ 63)
    (hp : p < t.slots.size) : p ∈ t.probes key := by
  set h := (t.hash key).toNat with hHash
  have hPos : 0 < 2 ^ k := Nat.two_pow_pos k
  rw [hSize] at hp
  -- The distance from the slot that the hash names, going round.
  have hRest : h % 2 ^ k < 2 ^ k := Nat.mod_lt _ hPos
  refine List.mem_map.mpr ⟨(p + (2 ^ k - h % 2 ^ k)) % 2 ^ k, ?_, ?_⟩
  · rw [List.mem_range, hSize]
    exact Nat.mod_lt _ hPos
  · rw [t.place_eq key _ hSize hk, ← hHash, Nat.add_mod, Nat.mod_mod, ← Nat.add_mod]
    have hDiv := Nat.div_add_mod h (2 ^ k)
    have hSum : h + (p + (2 ^ k - h % 2 ^ k)) = p + 2 ^ k * (h / 2 ^ k + 1) := by
      rw [Nat.mul_add, Nat.mul_one]
      omega
    rw [hSum, Nat.add_mul_mod_self_left, Nat.mod_eq_of_lt hp]

end ProbeTable

variable {ps : List Nat}

------------
-- Searches
------------

namespace ProbeTable

variable {α : Type}

/- What a search for a key makes of a slot. -/
inductive Look
| hit
| pass
| stop
deriving DecidableEq

/- What a search for a key makes of the slot at a place. -/
def look
    (slots : Array (Slot α))
    (key : Bytes)
    (p : Nat) : Look :=
  match slots[p]? with
  | some (.live k _) => if k == key then .hit else .pass
  | some .tombstone => .pass
  | _ => .stop

variable {p : Nat} {slots : Array (Slot α)} {key : Bytes}

theorem look_eq_hit_iff :
    look slots key p = .hit ↔ ∃ v, slots[p]? = some (Slot.live key v) := by
  unfold look
  split
  · rename_i k v hSlot
    simp [hSlot]
  · rename_i hSlot
    simp [hSlot]
  · rename_i hNotLive hNotTombstone
    simp only [reduceCtorEq, false_iff, not_exists]
    exact fun v hLive => hNotLive key v hLive

/- A search by what it makes of each slot. -/
theorem findIn_cons (slots : Array (Slot α)) (key : Bytes) (p : Nat) (rest : List Nat) :
    findIn slots key (p :: rest) = match look slots key p with
      | .hit => some p
      | .pass => findIn slots key rest
      | .stop => none := by
  unfold look
  rw [findIn]
  split
  · rename_i k v hSlot
    by_cases hKey : k = key <;> simp [hSlot, hKey]
  · rename_i hSlot
    simp [hSlot]
  · rename_i hNotLive hNotTombstone
    split <;> simp_all

/- A search that starts on a list of places gets to one of them. -/
def Leads
    (slots : Array (Slot α))
    (key : Bytes)
    (ps : List Nat)
    (p : Nat) : Prop :=
  ∃ before after, ps = before ++ p :: after ∧
    ∀ q ∈ before, look slots key q = .pass

theorem Leads.head (slots : Array (Slot α)) (key : Bytes) (p : Nat) (rest : List Nat) :
    Leads slots key (p :: rest) p := ⟨[], rest, rfl, by simp⟩

theorem Leads.cons {slots : Array (Slot α)} {key : Bytes} {q p : Nat} {rest : List Nat}
    (hPass : look slots key q = .pass) (hRest : Leads slots key rest p) :
    Leads slots key (q :: rest) p := by
  obtain ⟨before, after, rfl, hBefore⟩ := hRest
  exact ⟨q :: before, after, rfl, by simpa [hPass] using hBefore⟩

theorem Leads.mem (hLeads : Leads slots key ps p) : p ∈ ps := by
  obtain ⟨before, after, rfl, -⟩ := hLeads
  simp

/- A search ends in the slot with the key that it gets to. -/
theorem findIn_eq_some_iff :
    findIn slots key ps = some p ↔ Leads slots key ps p ∧ look slots key p = .hit := by
  induction ps with
  | nil => simp [findIn, Leads]
  | cons q rest ih =>
    rw [findIn_cons]
    constructor
    · intro hFind
      cases hLook : look slots key q with
      | hit =>
        simp only [hLook, Option.some.injEq] at hFind
        subst hFind
        exact ⟨Leads.head slots key q rest, hLook⟩
      | pass =>
        simp only [hLook] at hFind
        obtain ⟨hLeads, hHit⟩ := ih.mp hFind
        exact ⟨hLeads.cons hLook, hHit⟩
      | stop => simp [hLook] at hFind
    · rintro ⟨⟨before, after, hSplit, hPass⟩, hHit⟩
      cases before with
      | nil =>
        simp only [List.nil_append, List.cons.injEq] at hSplit
        simp [hSplit.1, hHit]
      | cons b before =>
        simp only [List.cons_append, List.cons.injEq] at hSplit
        obtain ⟨rfl, rfl⟩ := hSplit
        simp only [hPass q (by simp)]
        exact ih.mpr ⟨⟨before, after, rfl, fun r hr => hPass r (by simp [hr])⟩, hHit⟩

theorem look_setIfInBounds (slots : Array (Slot α)) (s : Slot α) (key : Bytes)
    (hp : p < slots.size) (q : Nat) :
    look (slots.setIfInBounds p s) key q = if q = p then look #[s] key 0
      else look slots key q := by
  by_cases hq : q = p
  · subst hq
    simp [look, hp]
  · have hNe : p ≠ q := fun h => hq h.symm
    simp [look, hq, Array.getElem?_setIfInBounds_ne hNe]

/-
  What a search for a place to write to finds.  A tombstone
  or an empty slot is given out only if the key sits nowhere
  on the way.
-/
def Target.Fits
    (slots : Array (Slot α))
    (key : Bytes)
    (grave : Option Nat)
    (ps : List Nat) : Target → Prop
| .replace p => findIn slots key ps = some p
| .reuse p =>
  findIn slots key ps = none ∧ (grave = some p ∨ Leads slots key ps p ∧
        slots[p]? = some .tombstone)
| .fresh p =>
  findIn slots key ps = none ∧ grave = none ∧
    Leads slots key ps p ∧ look slots key p = .stop
| .full => ∀ q ∈ ps, look slots key q = .pass

theorem targetIn_cons (slots : Array (Slot α)) (key : Bytes) (grave : Option Nat) (p : Nat)
    (rest : List Nat) :
    targetIn slots key grave (p :: rest) = match slots[p]? with
      | some (.live k _) =>
        if k == key then .replace p
        else targetIn slots key grave rest
      | some .tombstone =>
        targetIn slots key (some (grave.getD p)) rest
      | _ =>
        match grave with
        | some g => .reuse g
        | none => .fresh p := by cases grave <;> rfl

theorem targetIn_fits (slots : Array (Slot α)) (key : Bytes) (grave : Option Nat) (ps : List Nat) :
    (targetIn slots key grave ps).Fits slots key grave
      ps := by
  induction ps generalizing grave with
  | nil =>
    cases grave with
    | none => simp [targetIn, Target.Fits]
    | some g => simp [targetIn, Target.Fits, findIn]
  | cons q rest ih =>
    rw [targetIn_cons]
    split
    · rename_i k v hSlot
      by_cases hKey : k = key
      · have hHit : look slots key q = .hit := look_eq_hit_iff.mpr ⟨v, by rw [hSlot, hKey]⟩
        simp [hKey, Target.Fits, findIn_cons, hHit]
      · have hPass : look slots key q = .pass := by simp [look, hSlot, hKey]
        simp only [beq_iff_eq, hKey, if_false]
        have hRest := ih grave
        cases hTarget : targetIn slots key grave rest with
        | replace p =>
          rw [hTarget] at hRest
          simpa [Target.Fits, findIn_cons, hPass] using hRest
        | reuse p =>
          rw [hTarget] at hRest
          refine ⟨by simpa [findIn_cons, hPass] using hRest.1, ?_⟩
          exact hRest.2.imp_right fun hLater => ⟨hLater.1.cons hPass, hLater.2⟩
        | fresh p =>
          rw [hTarget] at hRest
          refine ⟨by simpa [findIn_cons, hPass] using hRest.1, hRest.2.1, ?_⟩
          exact ⟨hRest.2.2.1.cons hPass, hRest.2.2.2⟩
        | full =>
          rw [hTarget] at hRest
          simpa [Target.Fits, hPass] using hRest
    · rename_i hSlot
      have hPass : look slots key q = .pass := by simp [look, hSlot]
      have hRest := ih (some (grave.getD q))
      cases hTarget : targetIn slots key (some (grave.getD q)) rest with
      | replace p =>
        rw [hTarget] at hRest
        simpa [Target.Fits, findIn_cons, hPass] using hRest
      | reuse p =>
        rw [hTarget] at hRest
        refine ⟨by simpa [findIn_cons, hPass] using hRest.1, ?_⟩
        rcases hRest.2 with hGrave | hLater
        · cases grave with
          | none =>
            have hq : q = p := by simpa using hGrave
            subst hq
            exact Or.inr ⟨Leads.head slots key q rest, hSlot⟩
          | some g => exact Or.inl (by simpa using hGrave)
        · exact Or.inr ⟨hLater.1.cons hPass, hLater.2⟩
      | fresh p =>
        rw [hTarget] at hRest
        exact absurd hRest.2.1 (by simp)
      | full =>
        rw [hTarget] at hRest
        simpa [Target.Fits, hPass] using hRest
    · rename_i hNotLive hNotTombstone
      have hStop : look slots key q = .stop := by
        unfold look
        split <;> simp_all
      cases grave with
      | none => exact ⟨by simp [findIn_cons, hStop], rfl, Leads.head slots key q rest, hStop⟩
      | some g => exact ⟨by simp [findIn_cons, hStop], Or.inl rfl⟩

end ProbeTable

------------
-- The Invariant
------------

namespace Slot

variable {α : Type}

/- Whether a slot holds an entry. -/
def isLive : Slot α → Bool
| .live _ _ => true
| _ => false

/- Whether a slot holds an entry or a tombstone. -/
def isTaken : Slot α → Bool
| .empty => false
| _ => true

@[simp] theorem isLive_live (key : Bytes) (value : α) :
    (Slot.live key value).isLive = true := rfl

@[simp] theorem isTaken_live (key : Bytes) (value : α) :
    (Slot.live key value).isTaken = true := rfl

end Slot

namespace ProbeTable

variable {α : Type}

/- Some slot holds a value under a key. -/
def Holds
    (t : ProbeTable α)
    (key : Bytes)
    (value : α) : Prop :=
  ∃ p : Nat, t.slots[p]? = some (.live key value)

/-
  The invariant of tables: the capacity is zero or a power of
  two, the counters count, a slot is left empty, and every
  live slot is the one that a search for its key finds.
-/
structure Inv (t : ProbeTable α) : Prop where
  capacity : t.slots.size = 0 ∨ ∃ k, 4 ≤ k ∧ k ≤ 63 ∧ t.slots.size = 2 ^ k
  used_eq : t.used = t.slots.countP Slot.isTaken
  size_eq : t.size = t.slots.countP Slot.isLive
  room : t.slots.size = 0 ∨ t.used < t.slots.size
  reach : ∀ (p : Nat) (key : Bytes) (value : α),
    t.slots[p]? = some (Slot.live key value) → t.find? key = some p

variable {p q : Nat} {key : Bytes}

namespace Inv

variable {t : ProbeTable α}

/- A search finds exactly the slot that holds the key. -/
theorem find?_eq_some_iff (hInv : t.Inv) :
    t.find? key = some p ↔ ∃ v, t.slots[p]? = some (Slot.live key v) := by
  constructor
  · intro hFind
    exact look_eq_hit_iff.mp (findIn_eq_some_iff.mp hFind).2
  · rintro ⟨v, hSlot⟩
    exact hInv.reach p key v hSlot

variable {v : α}

/- Each key has one slot. -/
theorem slot_unique (hInv : t.Inv) {w : α} (hp : t.slots[p]? = some (Slot.live key v))
    (hq : t.slots[q]? = some (Slot.live key w)) : p = q := by
  have hFind := hInv.reach p key v hp
  rw [hInv.reach q key w hq] at hFind
  exact (Option.some.inj hFind).symm

theorem get?_eq_some_iff (hInv : t.Inv) : t.get? key = some v ↔ t.Holds key v := by
  unfold get?
  constructor
  · intro hGet
    obtain ⟨p, hFind, hEntry⟩ := Option.bind_eq_some_iff.mp hGet
    obtain ⟨w, hSlot⟩ := hInv.find?_eq_some_iff.mp hFind
    have hValue : w = v := by simpa [hSlot, Slot.entry?] using hEntry
    exact ⟨p, hValue ▸ hSlot⟩
  · rintro ⟨p, hSlot⟩
    simp [hInv.reach p key v hSlot, hSlot, Slot.entry?]

theorem contains_iff (hInv : t.Inv) : t.contains key = true ↔ ∃ v, t.Holds key v := by
  unfold contains
  rw [Option.isSome_iff_exists]
  constructor
  · rintro ⟨p, hFind⟩
    obtain ⟨v, hSlot⟩ := hInv.find?_eq_some_iff.mp hFind
    exact ⟨v, p, hSlot⟩
  · rintro ⟨v, p, hSlot⟩
    exact ⟨p, hInv.reach p key v hSlot⟩

end Inv

variable {slots : Array (Slot α)}

/- A slot written with an entry keeps searches that pass it. -/
theorem Leads.set {s : Slot α} (hp : p < slots.size) (hPass : look #[s] key 0 = .pass)
    (hLeads : Leads slots key ps q) : Leads (slots.setIfInBounds p s) key ps q := by
  obtain ⟨before, after, hSplit, hBefore⟩ := hLeads
  refine ⟨before, after, hSplit, fun r hr => ?_⟩
  rw [look_setIfInBounds slots s key hp]
  split
  · exact hPass
  · exact hBefore r hr

/- A search finds the entry that was written where it leads. -/
theorem findIn_set_self (value : α) (hp : p < slots.size) (hLeads : Leads slots key ps p) :
    findIn (slots.setIfInBounds p (.live key value)) key ps = some p := by
  obtain ⟨before, after, rfl, hBefore⟩ := hLeads
  induction before with
  | nil =>
    rw [List.nil_append, findIn_cons, look_setIfInBounds _ _ _ hp]
    simp [look]
  | cons q before ih =>
    rw [List.cons_append, findIn_cons, look_setIfInBounds _ _ _ hp]
    by_cases hq : q = p
    · simp [hq, look]
    · simp only [hq, if_false, hBefore q (by simp)]
      exact ih fun r hr => hBefore r (by simp [hr])

variable {old : Slot α}

/- Counting slots after one of them is written. -/
theorem countP_setIfInBounds (f : Slot α → Bool) (slots : Array (Slot α)) (new : Slot α)
    (hOld : slots[p]? = some old) :
    (slots.setIfInBounds p new).countP f + (f old).toNat = slots.countP f + (f new).toNat := by
  obtain ⟨hp, hGet⟩ := Array.getElem?_eq_some_iff.mp hOld
  have hCount : (f old).toNat ≤ slots.countP f := by
    cases hf : f old with
    | false => simp
    | true =>
      have hMem : old ∈ slots := Array.mem_of_getElem? hOld
      exact Array.countP_pos_iff.mpr ⟨old, hMem, hf⟩
  have hList : p < slots.toList.length := by simpa using hp
  have hElem : slots.toList[p] = old := by simpa using hGet
  have hSet := List.countP_set (p := f) (a := new) hList
  rw [hElem] at hSet
  simp only [← Array.countP_toList, Array.toList_setIfInBounds] at hCount ⊢
  cases hf : f old <;> cases hg : f new <;> simp_all

/- Probe sequences depend on the number of slots only. -/
theorem probes_set (t : ProbeTable α) (p used size : Nat) (s : Slot α) :
    ProbeTable.probes { t with
        slots := t.slots.setIfInBounds p s
        used := used
        size := size } = t.probes := by
  funext key
  simp [probes, place, Array.size_setIfInBounds]

variable {value : α} {used size : Nat}

/-
  Writing an entry where a search for its key leads.  The slot
  must not hold another key, and no other slot this one.
-/
theorem Inv.write {t : ProbeTable α} (hInv : t.Inv) (hOld : t.slots[p]? = some old)
    (hLeads : Leads t.slots key (t.probes key) p)
    (hElse : ∀ (q : Nat) (w : α), t.slots[q]? = some (.live key w) → q = p)
    (hUsed : used + old.isTaken.toNat = t.used + 1) (hSize : size + old.isLive.toNat = t.size + 1)
    (hRoom : used < t.slots.size) :
    Inv { t with
      slots := t.slots.setIfInBounds p (.live key value)
      used := used
      size := size } := by
  obtain ⟨hp, -⟩ := Array.getElem?_eq_some_iff.mp hOld
  have hTaken := countP_setIfInBounds Slot.isTaken t.slots (.live key value) hOld
  have hLive := countP_setIfInBounds Slot.isLive t.slots (.live key value) hOld
  simp only [Slot.isTaken_live, Slot.isLive_live, Bool.toNat_true, ← hInv.used_eq, ← hInv.size_eq]
    at hTaken hLive
  constructor
  · simpa using hInv.capacity
  · show used = Array.countP Slot.isTaken (t.slots.setIfInBounds p (.live key value))
    omega
  · show size = Array.countP Slot.isLive (t.slots.setIfInBounds p (.live key value))
    omega
  · exact Or.inr (by simpa using hRoom)
  · intro q k v hSlot
    rw [find?, probes_set]
    by_cases hk : k = key
    · subst hk
      have hq : q = p := by
        by_contra hNe
        have hSame : t.slots[q]? = some (.live k v) := by
          rwa [Array.getElem?_setIfInBounds_ne (fun h => hNe h.symm)] at hSlot
        exact hNe (hElse q v hSame)
      subst hq
      exact findIn_set_self value hp hLeads
    · have hNe : p ≠ q := by
        rintro rfl
        simp [hp, Ne.symm hk] at hSlot
      rw [Array.getElem?_setIfInBounds_ne hNe] at hSlot
      obtain ⟨hFound, hHit⟩ := findIn_eq_some_iff.mp (hInv.reach q k v hSlot)
      refine findIn_eq_some_iff.mpr ⟨hFound.set hp ?_, ?_⟩
      · simp [look, Ne.symm hk]
      · rw [look_setIfInBounds _ _ _ hp, if_neg hNe.symm]
        exact hHit

/- What a written slot adds to the contents of a table. -/
theorem holds_write_iff {t : ProbeTable α} (hOld : t.slots[p]? = some old)
    (hKey : ∀ k w, old = .live k w → k = key)
    (hElse : ∀ (q : Nat) (w : α), t.slots[q]? = some (.live key w) → q = p) (k : Bytes) (v : α) :
    Holds { t with
      slots := t.slots.setIfInBounds p (.live key value)
      used := used
      size := size } k v ↔
      if k = key then v = value else t.Holds k v := by
  obtain ⟨hp, -⟩ := Array.getElem?_eq_some_iff.mp hOld
  have hSelf : (t.slots.setIfInBounds p (.live key value))[p]? = some (.live key value) := by
    simp [hp]
  constructor
  · rintro ⟨q, hSlot⟩
    by_cases hq : q = p
    · subst hq
      have hEq : (Slot.live key value : Slot α) = .live k v := by simpa [hSelf] using hSlot
      cases hEq
      simp
    · rw [Array.getElem?_setIfInBounds_ne (fun h => hq h.symm)] at hSlot
      have hk : k ≠ key := by
        rintro rfl
        exact hq (hElse q v hSlot)
      rw [if_neg hk]
      exact ⟨q, hSlot⟩
  · split
    · rename_i hk
      rintro rfl
      exact ⟨p, hk ▸ hSelf⟩
    · rename_i hk
      rintro ⟨q, hSlot⟩
      have hNe : p ≠ q := by
        rintro rfl
        rw [hOld] at hSlot
        exact hk (hKey k v (Option.some.inj hSlot))
      refine ⟨q, ?_⟩
      rwa [Array.getElem?_setIfInBounds_ne hNe]

/-
  Writing a key in a table with room succeeds: a search for a
  place meets an empty slot at the latest.
-/
theorem writeSlot?_spec {t : ProbeTable α} (hInv : t.Inv) (hRoom : t.used + 1 < t.slots.size)
    (key : Bytes) (value : α) :
    ∃ t', t.writeSlot? key value = some t' ∧ t'.Inv ∧ t'.hash = t.hash ∧
      t'.slots.size = t.slots.size ∧ t'.used ≤ t.used + 1 ∧
      ∀ k v, t'.Holds k v ↔ if k = key then v = value else t.Holds k v := by
  obtain ⟨k, -, hk, hSize⟩ := hInv.capacity.resolve_left (by omega)
  have hFits := targetIn_fits t.slots key none (t.probes key)
  unfold writeSlot?
  cases hTarget : targetIn t.slots key none (t.probes key) with
  | replace p =>
    rw [hTarget] at hFits
    obtain ⟨v, hOld⟩ := hInv.find?_eq_some_iff.mp hFits
    obtain ⟨hLeads, -⟩ := findIn_eq_some_iff.mp hFits
    have hElse : ∀ (q : Nat) (w : α), t.slots[q]? = some (.live key w) → q = p :=
      fun q w hq => hInv.slot_unique hq hOld
    refine ⟨_, rfl, hInv.write hOld hLeads hElse (by simp) (by simp) (by omega),
      rfl, by simp, by simp,
      holds_write_iff hOld (by simp_all) hElse⟩
  | reuse p =>
    rw [hTarget] at hFits
    obtain ⟨hAbsent, hGrave | ⟨hLeads, hOld⟩⟩ := hFits
    · simp at hGrave
    · have hElse : ∀ (q : Nat) (w : α), t.slots[q]? = some (.live key w) → q = p := by
        intro q w hq
        have hFound := hInv.reach q key w hq
        rw [find?, hAbsent] at hFound
        simp at hFound
      refine ⟨_, rfl, hInv.write hOld hLeads hElse rfl rfl (by omega), rfl, by simp, by simp,
        holds_write_iff hOld (by simp) hElse⟩
  | fresh p =>
    rw [hTarget] at hFits
    obtain ⟨hAbsent, -, hLeads, hStop⟩ := hFits
    have hp := t.lt_of_mem_probes key hSize hk hLeads.mem
    have hOld : t.slots[p]? = some .empty := by
      have hGet : t.slots[p]? = some t.slots[p] := by simp [hp]
      cases hSlot : t.slots[p] with
      | empty => rw [hGet, hSlot]
      | live k v =>
        rw [hSlot] at hGet
        simp only [look, hGet] at hStop
        split at hStop <;> simp at hStop
      | tombstone =>
        rw [hSlot] at hGet
        simp [look, hGet] at hStop
    have hElse : ∀ (q : Nat) (w : α), t.slots[q]? = some (.live key w) → q = p := by
      intro q w hq
      have hFound := hInv.reach q key w hq
      rw [find?, hAbsent] at hFound
      simp at hFound
    refine ⟨_, rfl, hInv.write hOld hLeads hElse rfl rfl (by omega), rfl, by simp, by simp,
      holds_write_iff hOld (by simp) hElse⟩
  | full =>
    rw [hTarget] at hFits
    exfalso
    -- Every slot is passed, so every slot is taken.
    have hAll : t.slots.countP Slot.isTaken = t.slots.size := by
      refine Array.countP_eq_size.mpr fun s hs => ?_
      obtain ⟨p, hp, rfl⟩ := Array.mem_iff_getElem.mp hs
      have hPass := hFits p (t.mem_probes key hSize hk hp)
      cases hSlot : t.slots[p] with
      | empty => simp [look, hp, hSlot] at hPass
      | live k v => rfl
      | tombstone => rfl
    have hUsed := hInv.used_eq
    omega

/- Removing a key keeps the invariant. -/
theorem erase_spec {t : ProbeTable α} (hInv : t.Inv) (key : Bytes) :
    (t.erase key).Inv ∧ (t.erase key).used = t.used ∧ ∀ k v, (t.erase key).Holds k v ↔
        k ≠ key ∧ t.Holds k v := by
  unfold erase
  cases hFind : t.find? key with
  | none =>
    refine ⟨hInv, rfl, fun k v => ⟨fun hHolds => ?_, fun hHolds => hHolds.2⟩⟩
    refine ⟨?_, hHolds⟩
    rintro rfl
    obtain ⟨p, hSlot⟩ := hHolds
    rw [hInv.reach p k v hSlot] at hFind
    simp at hFind
  | some p =>
    obtain ⟨w, hOld⟩ := hInv.find?_eq_some_iff.mp hFind
    obtain ⟨hp, -⟩ := Array.getElem?_eq_some_iff.mp hOld
    have hTaken := countP_setIfInBounds Slot.isTaken t.slots .tombstone hOld
    have hLive := countP_setIfInBounds Slot.isLive t.slots .tombstone hOld
    rw [← hInv.used_eq] at hTaken
    rw [← hInv.size_eq] at hLive
    have hGone : ∀ (q : Nat) (k : Bytes) (v : α),
        (t.slots.setIfInBounds p .tombstone)[q]? = some (.live k v) ↔
          k ≠ key ∧ t.slots[q]? = some (.live k v) := by
      intro q k v
      by_cases hq : q = p
      · subst hq
        simp only [hOld]
        simp [hp, Ne.symm, eq_comm]
        tauto
      · rw [Array.getElem?_setIfInBounds_ne (fun h => hq h.symm)]
        refine ⟨fun hSlot => ⟨?_, hSlot⟩, And.right⟩
        rintro rfl
        exact hq (hInv.slot_unique hSlot hOld)
    refine ⟨⟨?_, ?_, ?_, ?_, ?_⟩, rfl, ?_⟩
    · simpa using hInv.capacity
    · show t.used = Array.countP Slot.isTaken (t.slots.setIfInBounds p .tombstone)
      exact Nat.add_right_cancel hTaken.symm
    · show t.size - 1 = Array.countP Slot.isLive (t.slots.setIfInBounds p .tombstone)
      exact (Nat.sub_eq_of_eq_add hLive.symm)
    · simpa using hInv.room
    · intro q k v hAfter
      obtain ⟨hk, hSlot⟩ := (hGone q k v).mp hAfter
      obtain ⟨hLeads, hHit⟩ := findIn_eq_some_iff.mp (hInv.reach q k v hSlot)
      have hNe : q ≠ p := by
        rintro rfl
        rw [hOld] at hSlot
        simp [Ne.symm hk] at hSlot
      rw [find?, probes_set]
      refine findIn_eq_some_iff.mpr ⟨hLeads.set hp rfl, ?_⟩
      rw [look_setIfInBounds _ _ _ hp, if_neg hNe]
      exact hHit
    · intro k v
      unfold Holds
      simp only [hGone]
      exact ⟨fun ⟨q, hk, hSlot⟩ => ⟨hk, q, hSlot⟩, fun ⟨hk, q, hSlot⟩ => ⟨q, hk, hSlot⟩⟩

end ProbeTable

end CCompiler
