import Mathlib
import CCompiler.Proofs.Preprocess.Likeness

/-
  Sessions that differ in what they leave behind.

  What was printed, and which paths were looked up, is never
  read again: from two sessions that differ only there, a
  computation gives the same value, and again two such
  sessions.  The same holds of what works on lists of tokens
  with two ways to expand them, if it holds of these.

  Main declarations:
    * `Session.textAt?`, `Session.Covered`, `Session.Alike`
    * `Expansion.Follows`, `Expansion.following`
    * `Include.follows_includeFile`
    * `Directive.follows_run`
-/

------------
-- Texts of Paths
------------

namespace CCompiler

/- The text that a path stands for, if it can be read. -/
def Session.textAt? (s : Session) (path : Bytes) :
    Option Bytes :=
  match Include.builtinName? path with
  | some name => Header.find? name
  | none =>
    if path == ascii "-" then some s.stdin
    else (s.store.read path).toOption

/-
  A guard is that of the text of a path, or nothing is left of
  the text.  The standard input is used up when it is read.
-/
def Session.Guards
    (s : Session)
    (path guard : Bytes) : Prop :=
  ∃ text, s.textAt? path = some text ∧ (text = [] ∨ path ≠ ascii "-" ∧
      Conditional.textGuard? s.cfg (Splice.normalize text) = some guard)

/-
  No text that can be read is interrupted in the section of
  its guard, and the guards that were noted are those of the
  texts.
-/
structure Session.Covered (s : Session) : Prop where
  sound : ∀ path text, s.textAt? path = some text →
    Conditional.soundText s.cfg (Splice.normalize text) = true
  known : ∀ path guard, s.guards.lookup path = some guard → s.Guards path guard

variable {s t : Session}

theorem Session.Covered.of_sources (hCovered : s.Covered) (hSame : t.sources = s.sources) :
    t.Covered := by
  obtain ⟨hCfg, hStore, hStdin, hGuards⟩ : t.cfg = s.cfg ∧ t.store = s.store ∧
        t.stdin = s.stdin ∧ t.guards = s.guards := by
    simpa [Session.sources] using hSame
  have hText : t.textAt? = s.textAt? := by
    funext path
    unfold Session.textAt?
    rw [hStore, hStdin]
  constructor
  · rw [hText, hCfg]
    exact hCovered.sound
  · unfold Session.Guards
    rw [hText, hCfg, hGuards]
    exact hCovered.known

/- An empty line has no tokens but its end. -/
theorem Lexer.tokenize_line (cfg : Config) (f : SourceFile) (hLine : f.contents = [0x0A])
    (name : Bytes) :
    ∃ e, (tokenize cfg f name).tokens = .ok [e] ∧ e.isEof = true := by
  have hBlanks : ∀ gap, skipBlanks gap ⟨0, 1, [0x0A]⟩ = .ok (⟨true, false⟩, ⟨1, 2, []⟩) := by
    intro gap
    rw [skipBlanks.eq_def]
    simp only
    rw [skipBlanks.eq_def]
    rfl
  unfold tokenize lexFile run
  rw [hLine, hBlanks]
  exact ⟨_, rfl, rfl⟩

theorem Splice.normalize_nil : normalize [] = [0x0A] := by decide +kernel

/- The empty text is sound. -/
theorem Conditional.soundText_empty (cfg : Config) :
    soundText cfg (Splice.normalize []) = true := by
  obtain ⟨e, hTokens, -⟩ := Lexer.tokenize_line cfg
    ⟨0, [], 0, Splice.normalize []⟩ Splice.normalize_nil []
  unfold soundText
  rw [hTokens]
  rfl

/- What is left of a session's input when a path has been read. -/
def Session.spent (s : Session) (path : Bytes) : Session :=
  if path = ascii "-" then { s with stdin := [] } else s

@[simp] theorem Session.spent_cfg (s : Session) (path : Bytes) : (s.spent path).cfg = s.cfg := by
  unfold spent
  split <;> rfl

@[simp] theorem Session.spent_guards (s : Session) (path : Bytes) :
    (s.spent path).guards = s.guards := by
  unfold spent
  split <;> rfl

/- The text of a path that has been read, unless it is used up. -/
theorem Session.textAt?_spent (s : Session) (path other : Bytes) :
    (s.spent path).textAt? other = if path = ascii "-" ∧ other = ascii "-" then some []
      else s.textAt? other := by
  unfold spent
  by_cases hPath : path = ascii "-"
  · rw [if_pos hPath]
    by_cases hOther : other = ascii "-"
    · have hNot : Include.builtinName? (ascii "-") = none := by decide
      simp [hPath, hOther, textAt?, hNot]
    · simp [hPath, hOther, textAt?]
  · simp [hPath]

theorem Session.Covered.spent {s : Session} (hCovered : s.Covered) (path : Bytes) :
    (s.spent path).Covered := by
  constructor
  · intro other text hText
    rw [s.textAt?_spent] at hText
    rw [s.spent_cfg]
    split at hText
    · cases hText
      exact Conditional.soundText_empty _
    · exact hCovered.sound other text hText
  · intro other guard hKnown
    rw [s.spent_guards] at hKnown
    unfold Session.Guards
    rw [s.spent_cfg, s.textAt?_spent]
    split
    · exact ⟨[], rfl, .inl rfl⟩
    · exact hCovered.known other guard hKnown

/- The guard of a text that has been read is noted. -/
theorem Session.Covered.note (hCovered : s.Covered) {path text guard : Bytes}
    (hText : s.textAt? path = some text)
    (hGuard : Conditional.textGuard? s.cfg
      (Splice.normalize text) = some guard) :
    ({ s.spent path with
      guards := (path, guard) :: s.guards } : Session).Covered := by
  have hAfter := hCovered.spent path
  refine ⟨hAfter.sound, fun other g hKnown => ?_⟩
  change (s.spent path).Guards other g
  rw [List.lookup_cons] at hKnown
  split at hKnown
  · rename_i hSame
    rw [beq_iff_eq] at hSame
    cases hKnown
    unfold Session.Guards
    rw [hSame, s.spent_cfg, s.textAt?_spent]
    split
    · exact ⟨[], rfl, .inl rfl⟩
    · rename_i hNot
      exact ⟨text, hText, .inr ⟨fun hPath => hNot ⟨hPath, hPath⟩, hGuard⟩⟩
  · exact hAfter.known other g (s.spent_guards path ▸ hKnown)

/- Sessions that differ in messages and looked-up paths only. -/
def Session.Alike (s s' : Session) : Prop :=
  ∃ asked messages,
    s' = { s with asked := asked, messages := messages }

theorem Session.Alike.refl (s : Session) : s.Alike s := ⟨s.asked, s.messages, rfl⟩

variable {s' : Session}

theorem Session.Alike.symm (hAlike : s.Alike s') : s'.Alike s := by
  obtain ⟨asked, messages, rfl⟩ := hAlike
  exact ⟨s.asked, s.messages, rfl⟩

theorem Session.Alike.trans {s'' : Session} (hFirst : s.Alike s') (hNext : s'.Alike s'') :
    s.Alike s'' := by
  obtain ⟨asked, messages, rfl⟩ := hFirst
  obtain ⟨asked', messages', rfl⟩ := hNext
  exact ⟨asked', messages', rfl⟩

theorem Session.Alike.covered (hAlike : s.Alike s') (hCovered : s.Covered) : s'.Covered := by
  obtain ⟨asked, messages, rfl⟩ := hAlike
  exact hCovered.of_sources rfl

------------
-- Following
------------

namespace Expansion

variable {α β : Type}

/-
  A computation that follows another one: whatever the other
  one gives, this one gives from an alike session, and the
  sessions are alike again.
-/
def Follows (x y : Pre α) : Prop :=
  ∀ s s' a t, s.Alike s' → s.Covered → x s = .ok a t →
    ∃ t', y s' = .ok a t' ∧ t.Alike t' ∧ t.Covered

theorem follows_pure (a : α) : Follows (pure a) (pure a) := by
  intro s s' b t hAlike hCovered hRun
  cases hRun
  exact ⟨s', rfl, hAlike, hCovered⟩

theorem follows_throw (e : Failure) (y : Pre α) : Follows (throw e) y := by
  intro s s' a t _ _ hRun
  cases hRun

variable {x y : Pre α}

theorem Follows.bind {f g : α → Pre β} (hFirst : Follows x y) (hNext : ∀ a, Follows (f a) (g a)) :
    Follows (x >>= f) (y >>= g) := by
  intro s s' b t hAlike hCovered hRun
  obtain ⟨a, s₁, hX, hF⟩ := bind_split hRun
  obtain ⟨s₁', hY, hAlike₁, hCovered₁⟩ := hFirst s s' a s₁ hAlike hCovered hX
  obtain ⟨t', hG, hAfter⟩ := hNext a s₁ s₁' b t hAlike₁ hCovered₁ hF
  exact ⟨t', (bind_ok hY).trans hG, hAfter⟩

theorem follows_get {f g : Session → Pre β}
    (hNext : ∀ s asked messages, Follows (f s)
      (g { s with asked := asked, messages := messages })) : Follows (get >>= f) (get >>= g) := by
  rintro s - b t ⟨asked, messages, rfl⟩ hCovered hRun
  exact hNext s asked messages s _ b t ⟨asked, messages, rfl⟩ hCovered hRun

variable {f : Session → Session}

/- Changes that leave alone what is read from. -/
theorem follows_modify
    (hAlike : ∀ s asked messages, (f s).Alike
        (f { s with asked := asked, messages := messages }))
    (hSources : ∀ s, (f s).sources = s.sources) : Follows (modify f : Pre PUnit) (modify f) := by
  rintro s - b t ⟨asked, messages, rfl⟩ hBefore hRun
  cases hRun
  exact ⟨_, rfl, hAlike s asked messages, hBefore.of_sources (hSources s)⟩

/- Changes that have no regard for what was printed. -/
theorem follows_set
    (hSame : ∀ s asked messages,
      f { s with asked := asked, messages := messages } =
        { f s with asked := asked, messages := messages })
    (hSources : ∀ s, (f s).sources = s.sources) : Follows (modify f : Pre PUnit) (modify f) :=
  follows_modify (fun s asked messages => ⟨asked, messages, hSame s asked messages⟩) hSources

/- Such changes before some more. -/
theorem follows_change {g h : PUnit → Pre β} (hNext : ∀ u, Follows (g u) (h u))
    (hSame : ∀ s asked messages,
      f { s with asked := asked, messages := messages } =
        { f s with asked := asked, messages := messages })
    (hSources : ∀ s, (f s).sources = s.sources) : Follows (modify f >>= g) (modify f >>= h) :=
  (follows_set hSame hSources).bind hNext

theorem follows_ite {c : Prop} [Decidable c] {x' y' : Pre α} (hThen : Follows x x')
    (hElse : Follows y y') : Follows (if c then x else y) (if c then x' else y') := by
  split
  · exact hThen
  · exact hElse

/-
  Whatever has no regard for what was printed and looked up
  follows itself.
-/
def following : Likeness where
  rel := Follows
  given := follows_pure
  failed e := follows_throw e _
  andThen := Follows.bind
  read hNext := follows_get fun s asked messages => hNext s asked messages s.found s.nextDir
  change {f} hBlind hSources := by
    refine follows_modify (fun s asked messages => ⟨asked, messages, ?_⟩) hSources
    have hOwn : f s = (f s).retold s.asked s.messages s.found s.nextDir := hBlind s _ _ _ _
    exact (hBlind s asked messages s.found s.nextDir).trans
      (congrArg (fun t => t.retold asked messages t.found t.nextDir) hOwn).symm
  said m := by
    refine follows_ite (follows_pure _) (follows_modify ?_ fun _ => rfl)
    exact fun s asked messages => ⟨asked, messages.push m, rfl⟩

theorem Follows.like (hFollows : Follows x y) : Like following x y := ⟨hFollows⟩

theorem follows_of_like [hLike : Like following x y] : Follows x y := hLike.rel

theorem follows_self (x : Pre α) [Like following x x] : Follows x x := follows_of_like

variable {expand expand' : Expand} (hExpand : ∀ ts, Follows (expand ts) (expand' ts))

include hExpand

theorem follows_tokens (t : Token) (u : Use) :
    Follows (u.tokens expand t) (u.tokens expand' t) :=
  have := fun ts => (hExpand ts).like
  follows_of_like

end Expansion

variable {ts : List Token}

------------
-- Files
------------

namespace Include

open Pre Expansion

theorem follows_consult (path : Bytes) : Follows (consult path) (consult path) := by
  refine Follows.bind (follows_modify ?_ fun _ => rfl) fun _ => follows_get fun _ _ _ => ?_
  · exact fun s asked messages => ⟨asked.push path, messages, rfl⟩
  · exact follows_pure _

theorem follows_fileExists (path : Bytes) : Follows (fileExists path) (fileExists path) := by
  unfold fileExists
  split
  · exact follows_pure _
  · exact (follows_consult _).bind fun _ => follows_pure _

theorem follows_firstWith (name : Bytes) (i : Nat) (dirs : List Bytes) :
    Follows (firstWith name i dirs) (firstWith name i dirs) := by
  induction dirs generalizing i with
  | nil => exact follows_pure _
  | cons dir dirs ih =>
    refine (follows_fileExists _).bind fun found => ?_
    exact follows_ite (follows_pure _) (ih _)

theorem follows_search (name : Bytes) : Follows (search name) (search name) := by
  refine follows_ite (follows_pure _) ?_
  refine follows_get fun s _ _ => ?_
  simp only
  split
  · exact follows_pure _
  · refine follows_get fun s' _ _ => ?_
    refine (follows_firstWith _ _ _).bind fun found? => ?_
    split
    · exact follows_change (fun _ => follows_pure _) (fun _ _ _ => rfl) fun _ => rfl
    · exact follows_pure _

theorem follows_searchNext (name : Bytes) : Follows (searchNext name) (searchNext name) := by
  refine follows_get fun s _ _ => ?_
  refine follows_get fun s' _ _ => ?_
  refine (follows_firstWith _ _ _).bind fun found? => ?_
  split
  all_goals
    exact follows_change (fun _ => follows_pure _) (fun _ _ _ => rfl) fun _ => rfl

theorem follows_searchBeside (asking name : Bytes) :
    Follows (searchBeside asking name) (searchBeside asking name) := by
  refine (follows_fileExists _).bind fun found => ?_
  exact follows_ite (follows_pure _) (follows_pure _)

/- The text of a path is read, and the standard input used up. -/
theorem read_run (path : Bytes) (s : Session) :
    ∃ r asked, read path s = .ok r { s.spent path with asked := asked } ∧
      r.toOption = s.textAt? path := by
  unfold read Session.textAt?
  cases hName : builtinName? path with
  | some name =>
    have hPath : path ≠ ascii "-" := by
      rintro rfl
      have hNone : builtinName? (ascii "-") = none := by decide
      rw [hNone] at hName
      cases hName
    have hSpent : s.spent path = s := if_neg hPath
    rw [hSpent]
    simp only
    cases Header.find? name with
    | some text => exact ⟨.ok text, s.asked, rfl, rfl⟩
    | none => exact ⟨.error _, s.asked, rfl, rfl⟩
  | none =>
    by_cases hPath : path = ascii "-"
    · have hSpent : s.spent path = { s with stdin := [] } := if_pos hPath
      rw [hSpent]
      simp only [hPath, beq_self_eq_true, if_true]
      exact ⟨.ok s.stdin, s.asked.push (ascii "-"), rfl, rfl⟩
    · have hSpent : s.spent path = s := if_neg hPath
      rw [hSpent]
      simp only [beq_eq_false_iff_ne.mpr hPath, Bool.false_eq_true, if_false]
      exact ⟨s.store.read path, s.asked.push path, rfl, rfl⟩

theorem follows_read (path : Bytes) : Follows (read path) (read path) := by
  unfold read
  split
  · split <;> exact follows_pure _
  · refine (follows_consult _).bind fun store => ?_
    refine follows_ite ?_ (follows_pure _)
    refine Follows.bind ?_ fun _ => follows_pure _
    -- the standard input is used up
    rintro s - a t ⟨asked, messages, rfl⟩ hCovered hRun
    cases hRun
    exact ⟨_, rfl, ⟨asked, messages, rfl⟩, (hCovered.spent (ascii "-")).of_sources rfl⟩

/- The file that is read next under a name. -/
def fileFor
    (s : Session)
    (name src : Bytes) : SourceFile :=
  ⟨s.shown.size, name, s.files.size + 1, Splice.normalize src⟩

/- A session in which a file has been read. -/
def withFile
    (s : Session)
    (name src : Bytes)
    (messages : Array Message) : Session :=
  { s with
    shown := s.shown.push ⟨name, 0⟩
    files := s.files.push (fileFor s name src)
    messages := messages }

theorem say_run (m : Message) (s : Session) :
    ∃ messages, say m s = .ok () { s with messages := messages } := by
  unfold say
  split
  · exact ⟨s.messages, rfl⟩
  · exact ⟨s.messages.push m, rfl⟩

theorem info_run (text : Bytes) (s : Session) :
    ∃ messages, info text s = .ok () { s with messages := messages } := by
  have hInfo : info text s = (if s.cfg.verbose then
        say (.info (Config.infoLine text)) else pure ()) s := rfl
  rw [hInfo]
  split
  · exact say_run _ _
  · exact ⟨s.messages, rfl⟩

/- Reading the tokens of a file under its name. -/
theorem tokenizeSource_run (name src : Bytes) (s : Session) :
    ∃ messages, tokenizeSource name src s =
      match (Lexer.tokenize s.cfg (fileFor s name src) name).tokens with
      | .ok ts => .ok ts (withFile s name src messages)
      | .error e => .error e (withFile s name src messages) := by
  let f := fileFor s name src
  let added : Session := { s with
    shown := s.shown.push ⟨name, 0⟩
    files := s.files.push f }
  have hAdd : addFile name (Splice.normalize src) s = .ok f added := rfl
  obtain ⟨told, hInfo⟩ := info_run (ascii "reading " ++ name) added
  obtain ⟨messages, hNotices⟩ := say_run (.warning (Lexer.tokenize s.cfg f name).notices)
    { added with messages := told }
  refine ⟨messages, ?_⟩
  refine (bind_ok hAdd).trans ((bind_ok hInfo).trans ?_)
  change (say (.warning (Lexer.tokenize s.cfg f name).notices) >>= _) _ = _
  refine (bind_ok hNotices).trans ?_
  simp only [f]
  cases (Lexer.tokenize s.cfg (fileFor s name src) name).tokens <;> rfl

/- The tokens of a file that has been read have its guard. -/
theorem tokenizeSource_ok {name src : Bytes} (hRun : tokenizeSource name src s = .ok ts t) :
    t.sources = s.sources ∧ Conditional.textGuard? s.cfg (Splice.normalize src) =
        Conditional.guard? ts := by
  obtain ⟨messages, hSource⟩ := tokenizeSource_run name src s
  rw [hSource] at hRun
  cases hTokens : (Lexer.tokenize s.cfg (fileFor s name src) name).tokens with
  | error e =>
    rw [hTokens] at hRun
    cases hRun
  | ok us =>
    rw [hTokens] at hRun
    cases hRun
    have hGuard := Conditional.textGuard?_of_read hTokens
    exact ⟨rfl, hGuard⟩

/- A file is read, and its guard noted. -/
def load (path : Bytes) (nameTok : Token) :
    Pre (List Token) := do
  match ← read path with
  | .error f => fail nameTok (.cannotOpen path f.reason.message)
  | .ok text =>
    let ts ← tokenizeSource path text
    if let some g := Conditional.guard? ts then
      modify fun s => { s with guards := (path, g) :: s.guards }
    return beforeEof ts

theorem follows_load (path : Bytes) (nameTok : Token) :
    Follows (load path nameTok) (load path nameTok) := by
  intro s s' us t hAlike hCovered hRun
  obtain ⟨r, s₁, hRead, hRun⟩ := bind_split hRun
  obtain ⟨s₁', hRead', hAlike₁, hCovered₁⟩ := follows_read path s s' r s₁ hAlike hCovered hRead
  obtain ⟨read, asked, hReads, hText⟩ := read_run path s
  rw [hRead] at hReads
  cases hReads
  cases r with
  | error f => cases hRun
  | ok text =>
    obtain ⟨ts, s₂, hTokens, hRun⟩ := bind_split hRun
    obtain ⟨s₂', hTokens', hAlike₂, hCovered₂⟩ :=
      follows_self (tokenizeSource path text) _ s₁' ts s₂ hAlike₁ hCovered₁ hTokens
    obtain ⟨hSources, hGuard⟩ := tokenizeSource_ok hTokens
    have hFront : load path nameTok s' = _ := (bind_ok hRead').trans (bind_ok hTokens')
    rw [hFront]
    cases hNoted : Conditional.guard? ts with
    | none =>
      rw [hNoted] at hRun
      cases hRun
      exact ⟨s₂', rfl, hAlike₂, hCovered₂⟩
    | some g =>
      rw [hNoted] at hRun
      cases hRun
      obtain ⟨asked', messages, rfl⟩ := hAlike₂
      refine ⟨_, rfl, ⟨asked', messages, rfl⟩, ?_⟩
      obtain ⟨hCfg, hStore, hStdin, hGuards⟩ :
          s₂.cfg = (s.spent path).cfg ∧ s₂.store = (s.spent path).store ∧
            s₂.stdin = (s.spent path).stdin ∧
            s₂.guards = (s.spent path).guards := by
        simpa [Session.sources] using hSources
      have hNamed : Conditional.textGuard? s.cfg (Splice.normalize text) = some g := by
        rw [← s.spent_cfg path]
        exact hGuard.trans hNoted
      refine (hCovered.note hText.symm hNamed).of_sources ?_
      simp [Session.sources, hCfg, hStore, hStdin, hGuards]

theorem follows_includeFile (path : Bytes) (nameTok : Token) :
    Follows (includeFile path nameTok) (includeFile path nameTok) := by
  refine follows_get fun s _ _ => ?_
  refine follows_ite (follows_pure _) ?_
  exact follows_ite (follows_pure _) (follows_load _ _)

end Include

------------
-- Directives
------------

namespace Directive

open Pre Expansion

variable {expand expand' : Expand} (hExpand : ∀ ts, Follows (expand ts) (expand' ts))

include hExpand

theorem follows_fileName (fuel : Nat) (ts : List Token) :
    Follows (fileName expand fuel ts) (fileName expand' fuel ts) :=
  have := fun ts => (hExpand ts).like
  follows_of_like

/- Whether a directive asks for a file. -/
def asksFile (ts : List Token) : Bool :=
  (first ts).is "include" || (first ts).is "include_next"

/- The directives that ask for no file. -/
theorem follows_run (hash : Token) (hOther : asksFile ts = false) :
    Follows (run expand hash ts) (run expand' hash ts) := by
  have hLike := fun ts => (hExpand ts).like
  obtain ⟨hInclude, hNext⟩ := Bool.or_eq_false_iff.mp hOther
  refine (like_run (L := following) hash ts (fun hAsks => ?_) fun hAsks => ?_).rel
  · exact absurd hAsks (by simp [hInclude])
  · exact absurd hAsks (by simp [hNext])

end Directive

end CCompiler
