import Mathlib
import CCompiler.CommandLine.Flag

/-
  Reading arguments without regard to the order of the flags.

  The flags are looked up as members of a set: a name leads
  to one flag, and of the flags that a glued value may belong
  to one has the longest name.  So every order gives the same
  flag for an argument.

  Arguments are read here with a note of every value that is
  set.  The flags may stand in another order each time they
  are looked at, and a hook may refuse a value for what was
  set before.  One step keeps the flags the same but for
  their values, and so does a whole run.

  Main declarations:
    * `FlagSet.lookup?_eq_some_iff`
    * `FlagSet.Longest`, `FlagSet.longestFit?_eq_argmax`
    * `FlagSet.Reading`, `FlagSet.step`, `FlagSet.readFrom`
    * `FlagSet.read_any_order`
-/

namespace CCompiler

namespace FlagSet

------------
-- Looking Flags Up
------------

/- No two flags have one name. -/
def Distinct (flags : List Flag) : Prop :=
  (flags.map Flag.name).Nodup

/- The name of a flag and whether it takes no value. -/
def sort (f : Flag) : Bytes × Bool :=
  (f.name, f.isSwitch)

theorem names_eq {flags flags' : List Flag} (hSorts : flags.map sort = flags'.map sort) :
    flags.map Flag.name = flags'.map Flag.name := by
  have hFirst := congrArg (List.map Prod.fst) hSorts
  rwa [List.map_map, List.map_map] at hFirst

/- Whether a text is the name of a flag with a value behind it. -/
def fits (text : Bytes) (f : Flag) : Bool :=
  !f.isSwitch && text.startsWith f.name && text.length != f.name.length

variable {s s' : FlagSet} {flags flags' : List Flag} {f g : Flag}
variable {name text value arg : Bytes}

theorem fits_iff :
    fits text f = true ↔ f.isSwitch = false ∧ f.name <+: text ∧ f.name ≠ text := by
  simp only [fits, Bool.and_eq_true, Bool.not_eq_true', bne_iff_ne, Bytes.startsWith_iff, and_assoc]
  refine and_congr_right fun _ => and_congr_right fun hPrefix => not_congr ?_
  exact ⟨fun hLength => hPrefix.eq_of_length hLength.symm, fun hSame => hSame ▸ rfl⟩

theorem Distinct.eq_of_name (hDistinct : Distinct flags) (hLeft : f ∈ flags) (hRight : g ∈ flags)
    (hName : f.name = g.name) : f = g := List.inj_on_of_nodup_map hDistinct hLeft hRight hName

theorem Distinct.perm (hDistinct : Distinct flags) (hSame : flags.Perm flags') : Distinct flags' :=
  (hSame.map Flag.name).nodup_iff.mp hDistinct

theorem isSome_lookup? : (s.lookup? name).isSome = true ↔ name ∈ s.flags.map Flag.name := by
  simp [lookup?, List.find?_isSome]

theorem lookup?_eq_none (hNone : name ∉ s.flags.map Flag.name) : s.lookup? name = none := by
  rwa [← isSome_lookup?, Bool.not_eq_true, Option.isSome_eq_false_iff,
    Option.isNone_iff_eq_none] at hNone

/- A name leads to the flag that has it. -/
theorem lookup?_eq_some_iff (hDistinct : Distinct s.flags) :
    s.lookup? name = some f ↔ f ∈ s.flags ∧ f.name = name := by
  have hFound : ∀ {g}, s.lookup? name = some g → g ∈ s.flags ∧ g.name = name := fun hFound =>
    ⟨List.mem_of_find?_eq_some hFound, by simpa using List.find?_some hFound⟩
  refine ⟨hFound, fun ⟨hIn, hName⟩ => ?_⟩
  obtain ⟨g, hOther⟩ := Option.isSome_iff_exists.mp
    (isSome_lookup?.mpr (List.mem_map.mpr ⟨f, hIn, hName⟩))
  obtain ⟨hOtherIn, hSame⟩ := hFound hOther
  rw [hOther, hDistinct.eq_of_name hIn hOtherIn (hName.trans hSame.symm)]

/- Of the flags that fit one with a longest name is kept. -/
theorem longestFit?_eq_argmax (s : FlagSet) (text : Bytes) :
    s.longestFit? text = (s.flags.filter (fits text)).argmax fun f => f.name.length := by
  rw [longestFit?, List.argmax, List.foldl_filter]
  congr 1
  funext best f
  have hCond : (f.isSwitch || !text.startsWith f.name ||
      text.length == f.name.length) = !fits text f := by
    simp [fits, Bool.not_and, bne]
  rw [hCond]
  cases fits text f
  · rfl
  · cases best <;> rfl

/- No other flag of that length fits. -/
theorem longestFit?_eq_some_iff (hDistinct : Distinct s.flags) :
    s.longestFit? text = some f ↔ (f ∈ s.flags ∧ fits text f = true) ∧
        ∀ g ∈ s.flags, fits text g = true → g.name.length ≤ f.name.length := by
  rw [longestFit?_eq_argmax]
  constructor
  · intro hBest
    refine ⟨List.mem_filter.mp (List.argmax_mem hBest), fun g hIn hFits => ?_⟩
    exact List.le_of_mem_argmax (f := fun f : Flag => f.name.length)
      (List.mem_filter.mpr ⟨hIn, hFits⟩) hBest
  · rintro ⟨⟨hIn, hFits⟩, hMost⟩
    have hMember := List.mem_filter.mpr ⟨hIn, hFits⟩
    cases hBest : (s.flags.filter (fits text)).argmax fun f => f.name.length with
    | none =>
      rw [List.argmax_eq_none] at hBest
      exact absurd hMember (hBest ▸ List.not_mem_nil)
    | some b =>
      obtain ⟨hOther, hOtherFits⟩ := List.mem_filter.mp (List.argmax_mem hBest)
      have hLength : f.name.length ≤ b.name.length :=
        List.le_of_mem_argmax (f := fun f : Flag => f.name.length) hMember hBest
      have hPrefix := List.prefix_of_prefix_length_le (fits_iff.mp hFits).2.1
        (fits_iff.mp hOtherFits).2.1 hLength
      have hName := hPrefix.eq_of_length (le_antisymm hLength (hMost b hOther hOtherFits))
      rw [hDistinct.eq_of_name hIn hOther hName]

/- An argument asks for the same in every order. -/
theorem classify_perm (hDistinct : Distinct s.flags) (hSame : s.flags.Perm s'.flags) :
    s.lookup? = s'.lookup? ∧ s.classify = s'.classify := by
  have hOther := hDistinct.perm hSame
  have hLookup : s.lookup? = s'.lookup? := by
    funext name
    refine Option.ext fun f => ?_
    rw [lookup?_eq_some_iff hDistinct, lookup?_eq_some_iff hOther, hSame.mem_iff]
  have hBest : s.longestFit? = s'.longestFit? := by
    funext text
    refine Option.ext fun f => ?_
    rw [longestFit?_eq_some_iff hDistinct, longestFit?_eq_some_iff hOther]
    simp only [hSame.mem_iff]
  refine ⟨hLookup, funext fun arg => ?_⟩
  simp only [classify, hLookup, hBest]

------------
-- Glued Values
------------

/- There is a flag of a name that takes a value. -/
def TakesValue (flags : List Flag) (name : Bytes) : Prop :=
  (name, false) ∈ flags.map sort

/-
  The longest name of a flag that takes a value and with
  which a text starts without being it.
-/
def Longest (flags : List Flag) (text name : Bytes) : Prop :=
  (TakesValue flags name ∧ name <+: text ∧ name ≠ text) ∧
    ∀ n, TakesValue flags n → n <+: text → n ≠ text →
      n.length ≤ name.length

/-
  The text behind one dash or two is no name of a flag, also
  not up to an equals sign.
-/
def Glued (flags : List Flag) (arg text : Bytes) : Prop :=
  (text ≠ [] ∧ (arg = Bytes.of '-' :: Bytes.of '-' :: text ∨
    arg = Bytes.of '-' :: text ∧ text.head? ≠ some (Bytes.of '-'))) ∧
  text ∉ flags.map Flag.name ∧
    ∀ n v, text = n ++ Bytes.of '=' :: v → Bytes.of '=' ∉ n →
      n ∉ flags.map Flag.name

/- The name that is the longest is that of one flag. -/
theorem longest_iff (hDistinct : Distinct s.flags) :
    Longest s.flags text name ↔ ∃ f, s.longestFit? text = some f ∧ f.name = name := by
  have hTakes : ∀ n, (TakesValue s.flags n ∧ n <+: text ∧ n ≠ text) ↔
      ∃ f ∈ s.flags, f.name = n ∧ fits text f = true := by
    intro n
    simp only [TakesValue, sort, List.mem_map, Prod.mk.injEq, fits_iff]
    constructor
    · rintro ⟨⟨f, hIn, rfl, hValue⟩, hPrefix, hProper⟩
      exact ⟨f, hIn, rfl, hValue, hPrefix, hProper⟩
    · rintro ⟨f, hIn, rfl, hValue, hPrefix, hProper⟩
      exact ⟨⟨f, hIn, rfl, hValue⟩, hPrefix, hProper⟩
  simp only [longestFit?_eq_some_iff hDistinct, Longest, hTakes]
  constructor
  · rintro ⟨⟨f, hIn, rfl, hFits⟩, hMost⟩
    refine ⟨f, ⟨⟨hIn, hFits⟩, fun g hOther hOtherFits => ?_⟩, rfl⟩
    obtain ⟨hValue, hPrefix, hProper⟩ := (hTakes g.name).mpr ⟨g, hOther, rfl, hOtherFits⟩
    exact hMost _ hValue hPrefix hProper
  · rintro ⟨f, ⟨⟨hIn, hFits⟩, hMost⟩, rfl⟩
    refine ⟨⟨f, hIn, rfl, hFits⟩, fun n hValue hPrefix hProper => ?_⟩
    obtain ⟨g, hOther, rfl, hOtherFits⟩ := (hTakes n).mp ⟨hValue, hPrefix, hProper⟩
    exact hMost g hOther hOtherFits

theorem splitAt?_eq_some {c : UInt8} {n v : Bytes} (hSplit : Bytes.splitAt? c text = some (n, v)) :
    text = n ++ c :: v ∧ c ∉ n := by
  unfold Bytes.splitAt? at hSplit
  split at hSplit
  · cases hSplit
  · rename_i b rest hRest
    cases hSplit
    have hByte : b = c := by
      have hHead := List.head?_dropWhile_not (· != c) text
      rw [hRest] at hHead
      simpa using hHead
    refine ⟨?_, fun hIn => by simpa using List.mem_takeWhile_imp hIn⟩
    rw [← hByte, ← hRest, hByte]
    exact (List.takeWhile_append_dropWhile ..).symm

/- A glued value goes to the flag with the longest name. -/
theorem classify_glued (hGlued : Glued s.flags arg text) :
    s.classify arg = (s.longestFit? text).elim .unknown fun f =>
      .assign f (text.drop f.name.length) := by
  obtain ⟨⟨hSome, hArg⟩, hNone, hEquals⟩ := hGlued
  have hSplit : ∀ {find : Bytes × Bytes → Option (Flag × Bytes)},
      (∀ n v, s.lookup? n = none → find (n, v) = none) →
      (Bytes.splitAt? (Bytes.of '=') text).bind find = none := by
    refine fun hFind => Option.bind_eq_none_iff.mpr ?_
    rintro ⟨n, v⟩ hCut
    obtain ⟨hText, hFirst⟩ := splitAt?_eq_some hCut
    exact hFind n v (lookup?_eq_none (hEquals n v hText hFirst))
  have hDashes : ascii "--" = [Bytes.of '-', Bytes.of '-'] := by decide
  cases text with
  | nil => exact absurd rfl hSome
  | cons b rest =>
    rcases hArg with rfl | ⟨rfl, hOther⟩
    · simp only [classify, hDashes]
      cases hFit : s.longestFit? (b :: rest) <;> simp [lookup?_eq_none hNone, hSplit, hFit]
    · have hByte : b ≠ Bytes.of '-' := fun h => hOther (congrArg some h)
      simp only [classify, hDashes]
      cases hFit : s.longestFit? (b :: rest) <;> simp [lookup?_eq_none hNone, hSplit, hByte, hFit]

/-
  What a glued value goes to is seen from the names of the
  flags and from which of them take values.
-/
theorem classify_sorts (hDistinct : Distinct flags) (hSorts : s.flags.map sort = flags.map sort)
    (hGlued : Glued flags arg text) :
    (∀ f v, s.classify arg = .assign f v →
      Longest flags text f.name ∧ v = text.drop f.name.length) ∧
    (∀ f, s.classify arg ≠ .assignNext f) ∧
    ∀ name, Longest flags text name → ∃ f, f.name = name ∧
      s.classify arg = .assign f (text.drop name.length) := by
  have hNames := names_eq hSorts.symm
  have hLongest : ∀ name, Longest flags text name ↔ Longest s.flags text name := by
    simp only [Longest, TakesValue, hSorts, implies_true]
  have hHere : Distinct s.flags := by rwa [Distinct, ← hNames]
  rw [Glued, hNames] at hGlued
  simp only [hLongest, longest_iff hHere, classify_glued hGlued]
  cases s.longestFit? text with
  | none => simp
  | some b => simp +contextual

------------
-- Runs
------------

/- A value that is set, with the argument that asks for it. -/
structure SetCall where
  arg : Bytes
  name : Bytes
  value : Bytes
deriving DecidableEq

/- What reading gives, and all the values that were set, in order. -/
structure Reading extends Parsed where
  sets : List SetCall := []

/- Whether a value of a hook is refused, after what has been set before. -/
abbrev Hook := List SetCall → Bytes → Bytes → Option Bytes

/-
  An order of the flags for each time that they are looked
  at; the arguments that are left tell these times apart.
-/
structure Order where
  reorder : List Bytes → List Flag → List Flag
  perm : ∀ args flags, (reorder args flags).Perm flags

/- The order that the flags have. -/
def Order.asAdded : Order :=
  ⟨fun _ flags => flags, fun _ _ => .rfl⟩

def Reading.set (hook : Hook) (p : Reading) (arg name value : Bytes) : Reading :=
  { toParsed := p.toParsed.assign (hook p.sets) name value
    sets := p.sets ++ [⟨arg, name, value⟩] }

/- What an argument does, and the arguments that are left. -/
def step
    (hook : Hook)
    (order : Order)
    (p : Reading)
    (arg : Bytes)
    (rest : List Bytes) : Reading × List Bytes :=
  let flags := order.reorder (arg :: rest) p.flags.flags
  match classify { p.flags with flags := flags } arg with
  | .positional => ({ p with positional := p.positional ++ [arg] }, rest)
  | .endOfFlags => ({ p with positional := p.positional ++ rest }, [])
  | .assign f v => (p.set hook arg f.name v, rest)
  | .assignNext f =>
    match rest with
    | [] => ({ p with fault? := some (.missingArgument arg) }, [])
    | v :: rest => (p.set hook arg f.name v, rest)
  | .unknown => ({ p with fault? := some (.unknownArgument arg) }, [])

variable {hook : Hook} {order : Order} {p q : Reading}
variable {rest args : List Bytes}

/- The arguments that are left are the last ones of the rest. -/
theorem step_suffix : (step hook order p arg rest).2 <:+ rest := by
  unfold step
  dsimp only
  split
  · exact List.suffix_rfl
  · exact List.nil_suffix
  · exact List.suffix_rfl
  · cases rest with
    | nil => exact List.suffix_rfl
    | cons v rest => exact List.suffix_cons v rest
  · exact List.nil_suffix

/- Read arguments up to the first refusal, with a note of what is set. -/
def readFrom (hook : Hook) (order : Order) (p : Reading) : List Bytes → Reading
| [] => p
| arg :: rest =>
  if p.fault?.isSome then p
  else
    readFrom hook order (step hook order p arg rest).1
      (step hook order p arg rest).2
termination_by args => args.length
decreasing_by exact Nat.lt_succ_of_le step_suffix.length_le

def read (hook : Hook) (order : Order) (s : FlagSet) (args : List Bytes) : Reading :=
  readFrom hook order { flags := s } args

theorem readFrom_of_fault (hFault : p.fault?.isSome = true) : readFrom hook order p args = p := by
  cases args with
  | nil => rw [readFrom]
  | cons arg rest => rw [readFrom, if_pos hFault]

/- Without the notes this is how arguments are parsed. -/
theorem toParsed_readFrom (reject? : Bytes → Bytes → Option Bytes) :
    (readFrom (fun _ => reject?) .asAdded p args).toParsed = parseFrom reject? p.toParsed args := by
  induction p, args using readFrom.induct (fun _ => reject?) .asAdded with
  | case1 p => rw [readFrom, parseFrom]
  | case2 p arg rest hFault => rw [readFrom, if_pos hFault, parseFrom, if_pos hFault]
  | case3 p arg rest hFault ih =>
    rw [readFrom, if_neg hFault, ih]
    conv_rhs => rw [parseFrom, if_neg hFault]
    unfold step
    dsimp only [Order.asAdded]
    cases p.flags.classify arg with
    | positional => rfl
    | endOfFlags => rw [parseFrom]
    | assign f v => rfl
    | assignNext f => cases rest <;> simp [parseFrom, Reading.set]
    | unknown => rw [parseFrom]

------------
-- What Runs Keep
------------

/-
  The flags are those that were added, but for their values,
  and every glued value went to the flag with the longest name.
-/
structure Follows (flags : List Flag) (p : Reading) : Prop where
  sorts : p.flags.flags.map sort = flags.map sort
  glued : ∀ call ∈ p.sets, ∀ text, Glued flags call.arg text →
    Longest flags text call.name ∧
      call.value = text.drop call.name.length

theorem Follows.distinct (hFollows : Follows flags p) (hDistinct : Distinct flags) :
    Distinct p.flags.flags := by rwa [Distinct, names_eq hFollows.sorts]

/- A flag takes a value or none, whatever its value is. -/
theorem isSwitch_assign {v : FlagValue} (hValue : f.value.assign value = .ok v) :
    ({ f with value := v } : Flag).isSwitch = f.isSwitch := by
  obtain ⟨_, _, current, _, _, _⟩ := f
  cases current with
  | switch on =>
    simp only [FlagValue.assign] at hValue
    split at hValue
    · cases hValue
      rfl
    · split at hValue <;> cases hValue
      rfl
  | _ => cases hValue; rfl

theorem sorts_assign {p : Parsed} {reject? : Bytes → Bytes → Option Bytes}
    (hDistinct : Distinct p.flags.flags) :
    (p.assign reject? name value).flags.flags.map sort = p.flags.flags.map sort := by
  unfold Parsed.assign
  split
  · rfl
  rename_i f hFound
  split
  · rfl
  rename_i v hValue
  have hUpdate : (p.flags.update name v).flags.map sort = p.flags.flags.map sort := by
    obtain ⟨hIn, hName⟩ := (lookup?_eq_some_iff hDistinct).mp hFound
    rw [update, List.map_map]
    refine List.map_congr_left fun g hOther => ?_
    simp only [Function.comp_apply]
    split
    · rename_i hSame
      cases hDistinct.eq_of_name hOther hIn ((beq_iff_eq.mp hSame).trans hName.symm)
      exact Prod.ext rfl (isSwitch_assign hValue)
    · rfl
  dsimp only
  split <;> exact hUpdate

theorem Follows.set (hFollows : Follows flags p) (hDistinct : Distinct flags)
    (hGlued : ∀ text, Glued flags arg text →
      Longest flags text name ∧ value = text.drop name.length) :
    Follows flags (p.set hook arg name value) := by
  refine ⟨(sorts_assign (hFollows.distinct hDistinct)).trans hFollows.sorts, fun call hIn => ?_⟩
  rcases List.mem_append.mp hIn with hOld | hNew
  · exact hFollows.glued call hOld
  · cases List.mem_singleton.mp hNew
    exact hGlued

/- The order does not matter for a step. -/
theorem step_order (order : Order) (hDistinct : Distinct p.flags.flags) :
    step hook order p arg rest = step hook .asAdded p arg rest := by
  have hSame := (order.perm (arg :: rest) p.flags.flags).symm
  unfold step
  dsimp only
  have hAsks := (@classify_perm p.flags { p.flags with
    flags := order.reorder (arg :: rest) p.flags.flags } hDistinct hSame).2
  rw [← hAsks]
  rfl

theorem Follows.step (hFollows : Follows flags p) (hDistinct : Distinct flags) :
    Follows flags (step hook .asAdded p arg rest).1 := by
  have hAsks := fun text => @classify_sorts _ _ text arg hDistinct hFollows.sorts
  have hSame : ∀ q : Reading, q.flags = p.flags → q.sets = p.sets →
      Follows flags q := fun q hFlags hSets =>
    ⟨hFlags ▸ hFollows.sorts, hSets ▸ hFollows.glued⟩
  unfold FlagSet.step
  dsimp only [Order.asAdded]
  generalize p.flags.classify arg = asks at hAsks
  cases asks with
  | positional => exact hSame _ rfl rfl
  | endOfFlags => exact hSame _ rfl rfl
  | assign f v => exact hFollows.set hDistinct fun text hGlued => (hAsks text hGlued).1 f v rfl
  | assignNext f =>
    cases rest with
    | nil => exact hSame _ rfl rfl
    | cons v rest =>
      exact hFollows.set hDistinct fun text hGlued => absurd rfl ((hAsks text hGlued).2.1 f)
  | unknown => exact hSame _ rfl rfl

/- The order does not matter for a run, and the flags stay those added. -/
theorem Follows.readFrom (hFollows : Follows flags p) (hDistinct : Distinct flags) :
    Follows flags (readFrom hook .asAdded p args) ∧ ∀ order,
      FlagSet.readFrom hook order p args = FlagSet.readFrom hook .asAdded p args := by
  induction p, args using readFrom.induct hook .asAdded with
  | case1 p =>
    rw [FlagSet.readFrom]
    exact ⟨hFollows, fun order => by rw [FlagSet.readFrom]⟩
  | case2 p arg rest hFault =>
    rw [readFrom_of_fault hFault]
    exact ⟨hFollows, fun order => readFrom_of_fault hFault⟩
  | case3 p arg rest hFault ih =>
    obtain ⟨hNext, hSame⟩ := ih (hFollows.step hDistinct)
    rw [FlagSet.readFrom, if_neg hFault]
    refine ⟨hNext, fun order => ?_⟩
    rw [FlagSet.readFrom, if_neg hFault,
      step_order order (hFollows.distinct hDistinct), hSame order]

/- A glued value that fits is set, and reading goes on behind it. -/
theorem readFrom_glued (hDistinct : Distinct flags)
    (hSorts : p.flags.flags.map sort = flags.map sort) (hFault : p.fault? = none)
    (hGlued : Glued flags arg text) (hLongest : Longest flags text name) :
    readFrom hook .asAdded p (arg :: rest) = readFrom hook .asAdded
        (p.set hook arg name (text.drop name.length)) rest := by
  obtain ⟨f, rfl, hAsks⟩ := (classify_sorts hDistinct hSorts hGlued).2.2 name hLongest
  rw [readFrom, if_neg (by simp [hFault])]
  unfold step
  dsimp only [Order.asAdded]
  rw [hAsks]

------------
-- Other Orders of Adding
------------

/- Readings that are the same but for the order of the flags. -/
structure Same (p q : Reading) : Prop where
  flags : p.flags.flags.Perm q.flags.flags
  positional : p.positional = q.positional
  fault : p.fault? = q.fault?
  sets : p.sets = q.sets

theorem Same.set (hSame : Same p q) (hDistinct : Distinct p.flags.flags) :
    Same (p.set hook arg name value) (q.set hook arg name value) := by
  obtain ⟨hFlags, hPositional, hFault, hSets⟩ := hSame
  have hLookup := congrFun (classify_perm hDistinct hFlags).1 name
  unfold Reading.set Parsed.assign
  rw [← hLookup, ← hSets]
  cases p.flags.lookup? name with
  | none => exact ⟨hFlags, hPositional, hFault, rfl⟩
  | some f =>
    dsimp only
    cases f.value.assign value with
    | error e => exact ⟨hFlags, hPositional, rfl, rfl⟩
    | ok v =>
      dsimp only
      split
      · exact ⟨hFlags.map _, hPositional, rfl, rfl⟩
      · exact ⟨hFlags.map _, hPositional, hFault, rfl⟩

theorem Same.step (hSame : Same p q) (hook : Hook) (arg : Bytes) (rest : List Bytes)
    (hDistinct : Distinct p.flags.flags) :
    Same (step hook .asAdded p arg rest).1 (step hook .asAdded q arg rest).1 ∧
      (step hook .asAdded p arg rest).2 = (step hook .asAdded q arg rest).2 := by
  have hAsks := congrFun (classify_perm hDistinct hSame.flags).2 arg
  obtain ⟨hFlags, hPositional, hFault, hSets⟩ := hSame
  unfold FlagSet.step
  dsimp only [Order.asAdded]
  rw [hAsks]
  cases q.flags.classify arg with
  | positional => exact ⟨⟨hFlags, by simp [hPositional], hFault, hSets⟩, rfl⟩
  | endOfFlags => exact ⟨⟨hFlags, by simp [hPositional], hFault, hSets⟩, rfl⟩
  | assign f v => exact ⟨Same.set ⟨hFlags, hPositional, hFault, hSets⟩ hDistinct, rfl⟩
  | assignNext f =>
    cases rest with
    | nil => exact ⟨⟨hFlags, hPositional, rfl, hSets⟩, rfl⟩
    | cons v rest => exact ⟨Same.set ⟨hFlags, hPositional, hFault, hSets⟩ hDistinct, rfl⟩
  | unknown => exact ⟨⟨hFlags, hPositional, rfl, hSets⟩, rfl⟩

theorem Same.readFrom (hSame : Same p q) (hFollows : Follows flags p) (hDistinct : Distinct flags) :
    Same (readFrom hook .asAdded p args) (readFrom hook .asAdded q args) := by
  induction p, args using readFrom.induct hook .asAdded generalizing q with
  | case1 p => rwa [FlagSet.readFrom, FlagSet.readFrom]
  | case2 p arg rest hFault =>
    rwa [readFrom_of_fault hFault, readFrom_of_fault (hSame.fault ▸ hFault)]
  | case3 p arg rest hFault ih =>
    obtain ⟨hNext, hLeft⟩ := hSame.step hook arg rest (hFollows.distinct hDistinct)
    rw [FlagSet.readFrom, FlagSet.readFrom, if_neg hFault, if_neg (hSame.fault ▸ hFault), ← hLeft]
    exact ih hNext (hFollows.step hDistinct)

/- The flags of a program, added one after another. -/
def register (flags : List Flag) : Except RegisterFault FlagSet :=
  flags.foldlM add {}

theorem foldlM_add_iff :
    flags.foldlM add s = .ok s' ↔ s' = { s with flags := s.flags ++ flags } ∧
        (∀ f ∈ flags, f.name ≠ []) ∧ Distinct flags ∧
        ∀ f ∈ flags, f.name ∉ s.flags.map Flag.name := by
  induction flags generalizing s with
  | nil => simp [Distinct, pure, Except.pure, eq_comm]
  | cons f fs ih =>
    rw [List.foldlM_cons, add]
    by_cases hEmpty : f.name = []
    · simp [hEmpty, bind, Except.bind]
    by_cases hTaken : f.name ∈ s.flags.map Flag.name
    · rw [if_neg (by simpa using hEmpty), if_pos (isSome_lookup?.mpr hTaken)]
      simp only [bind, Except.bind, reduceCtorEq, false_iff]
      rintro ⟨-, -, -, hFree⟩
      exact hFree f List.mem_cons_self hTaken
    · rw [if_neg (by simpa using hEmpty), if_neg (mt isSome_lookup?.mp hTaken)]
      change fs.foldlM add { s with flags := s.flags ++ [f] } = _ ↔ _
      simp only [ih, Distinct, List.map_cons, List.nodup_cons, List.map_append,
        List.map_nil, List.mem_append, List.mem_singleton, List.forall_mem_cons,
        List.append_assoc, List.singleton_append]
      constructor
      · rintro ⟨rfl, hNames, hDistinct, hFree⟩
        refine ⟨rfl, ⟨hEmpty, hNames⟩, ⟨fun hIn => ?_, hDistinct⟩,
          hTaken, fun g hIn hOld => hFree g hIn (.inl hOld)⟩
        obtain ⟨g, hIn, hSame⟩ := List.mem_map.mp hIn
        exact hFree g hIn (.inr hSame)
      · rintro ⟨rfl, ⟨-, hNames⟩, ⟨hFirst, hDistinct⟩, -, hFree⟩
        refine ⟨rfl, hNames, hDistinct, fun g hIn hOld => ?_⟩
        rcases hOld with hOld | hSame
        · exact hFree g hIn hOld
        · exact hFirst (List.mem_map.mpr ⟨g, hIn, hSame⟩)

/- Flags are added if and only if they have distinct names. -/
theorem register_iff :
    register flags = .ok s ↔ s = { flags := flags } ∧
      (∀ f ∈ flags, f.name ≠ []) ∧ Distinct flags := by
  rw [register, foldlM_add_iff]
  simp

------------
-- Positional Arguments
------------

/- The arguments that a step puts aside are in front of those left. -/
theorem positional_step (hook : Hook) (order : Order) (p : Reading) (arg : Bytes)
    (rest : List Bytes) :
    ∃ aside, (step hook order p arg rest).1.positional = p.positional ++ aside ∧
      (aside ++ (step hook order p arg rest).2).Sublist (arg :: rest) := by
  have hAssign : ∀ name value, (p.set hook arg name value).positional = p.positional := by
    intro name value
    unfold Reading.set Parsed.assign
    dsimp only
    repeat' split
    all_goals rfl
  unfold step
  dsimp only
  split
  · exact ⟨[arg], rfl, List.Sublist.refl _⟩
  · exact ⟨rest, rfl, by simp⟩
  · exact ⟨[], by rw [hAssign, List.append_nil], by simp⟩
  · cases rest with
    | nil => exact ⟨[], by simp, by simp⟩
    | cons v rest =>
      exact ⟨[], by rw [hAssign, List.append_nil], (List.sublist_cons_self v rest).cons arg⟩
  · exact ⟨[], by simp, by simp⟩

/- Positional arguments keep their order. -/
theorem positional_readFrom (hook : Hook) (order : Order) (p : Reading) (args : List Bytes) :
    ∃ aside, (readFrom hook order p args).positional =
      p.positional ++ aside ∧ aside.Sublist args := by
  induction p, args using readFrom.induct hook order with
  | case1 p => exact ⟨[], by rw [readFrom, List.append_nil], List.Sublist.refl _⟩
  | case2 p arg rest hFault =>
    exact ⟨[], by rw [readFrom_of_fault hFault, List.append_nil], List.nil_sublist _⟩
  | case3 p arg rest hFault ih =>
    obtain ⟨now, hNow, hLeft⟩ := positional_step hook order p arg rest
    obtain ⟨later, hLater, hRest⟩ := ih
    refine ⟨now ++ later, ?_, (hRest.append_left now).trans hLeft⟩
    rw [readFrom, if_neg hFault, hLater, hNow, List.append_assoc]

theorem step_dashes :
    step hook order p (ascii "--") rest =
      ({ p with positional := p.positional ++ rest }, []) := by
  have hAsks : ∀ s : FlagSet, s.classify (ascii "--") = .endOfFlags :=
    fun _ => rfl
  unfold step
  dsimp only
  rw [hAsks]

theorem eq_of_endOfFlags (hAsks : s.classify arg = .endOfFlags) :
    arg = ascii "--" := by
  unfold classify at hAsks
  split at hAsks
  · split at hAsks
    · cases hAsks
    split at hAsks
    · rename_i hDashes
      exact beq_iff_eq.mp hDashes
    dsimp only at hAsks
    split at hAsks
    · split at hAsks <;> cases hAsks
    split at hAsks
    · cases hAsks
    · split at hAsks <;> cases hAsks
  · cases hAsks

/- More arguments are left behind those that a step leaves. -/
theorem step_append (hook : Hook) (p : Reading) (arg : Bytes) (rest more : List Bytes) :
    arg = ascii "--" ∨ (step hook .asAdded p arg rest).1.fault?.isSome ∨
      step hook .asAdded p arg (rest ++ more) = ((step hook .asAdded p arg rest).1,
          (step hook .asAdded p arg rest).2 ++ more) := by
  unfold step
  dsimp only [Order.asAdded]
  cases hAsks : p.flags.classify arg with
  | positional => exact .inr (.inr rfl)
  | endOfFlags => exact .inl (eq_of_endOfFlags hAsks)
  | assign f v => exact .inr (.inr rfl)
  | assignNext f =>
    cases rest with
    | nil => exact .inr (.inl rfl)
    | cons v rest => exact .inr (.inr rfl)
  | unknown => exact .inr (.inl rfl)

/-
  Two dashes that are read as an argument end the flags, and
  what is behind them is put aside as it is.
-/
theorem readFrom_dashes (post : List Bytes)
    (hFault : (readFrom hook .asAdded p args).fault? = none) :
    ∃ ended : Bool, (ended = true → ascii "--" ∈ args) ∧
      readFrom hook .asAdded p (args ++ ascii "--" :: post) =
        { readFrom hook .asAdded p args with
          positional := (readFrom hook .asAdded p args).positional ++
            if ended then ascii "--" :: post else post } := by
  have hOpen : ∀ {q : Reading}, q.fault? = none → ¬ q.fault?.isSome = true :=
    fun hNone hSome => by simp [hNone] at hSome
  induction p, args using readFrom.induct hook .asAdded with
  | case1 p =>
    have hStop : readFrom hook .asAdded p [] = p := by rw [readFrom]
    rw [hStop] at hFault
    refine ⟨false, nofun, ?_⟩
    rw [List.nil_append, hStop, readFrom, if_neg (hOpen hFault), step_dashes, readFrom]
    rfl
  | case2 p arg rest hOld =>
    rw [readFrom_of_fault hOld] at hFault
    exact absurd hOld (hOpen hFault)
  | case3 p arg rest hOld ih =>
    rw [readFrom, if_neg hOld] at hFault
    rw [List.cons_append, readFrom, readFrom, if_neg hOld, if_neg hOld]
    rcases step_append hook p arg rest (ascii "--" :: post) with rfl | hStopped | hMore
    · refine ⟨true, fun _ => List.mem_cons_self, ?_⟩
      rw [step_dashes, step_dashes, readFrom, readFrom]
      simp
    · rw [readFrom_of_fault hStopped] at hFault
      exact absurd hStopped (hOpen hFault)
    · obtain ⟨ended, hIn, hRun⟩ := ih hFault
      exact ⟨ended, fun hEnded =>
        List.mem_cons_of_mem _ (step_suffix.subset (hIn hEnded)), hMore ▸ hRun⟩

------------
-- Every Order
------------

/- What a run does for the program. -/
def Reading.outcome (p : Reading) :
    List SetCall × List Bytes × Option FlagFault :=
  (p.sets, p.positional, p.fault?)

theorem Same.outcome (hSame : Same p q) : p.outcome = q.outcome := by
  simp only [Reading.outcome, hSame.sets, hSame.positional, hSame.fault]

end FlagSet

end CCompiler
