import Mathlib
import CCompiler.Proofs.Preprocess.Guarded

/-
  Likenesses of computations on sessions.

  What was printed, and where headers were found, is not read
  again except by lookups of headers.  A relation between
  computations that goes through single steps without regard
  for it goes through all that is put together from them:
  making tokens, replacing macros, and all directives but
  those that ask for files.

  Main declarations:
    * `Session.sources`, `Session.retold`
    * `Likeness`, `Like`
    * `Substitution.like_subst`, `Expansion.like_tokens`
    * `Directive.like_condition`, `Directive.like_run`
-/

------------
-- Likenesses
------------

namespace CCompiler

/- What the texts of a session depend on. -/
def Session.sources (s : Session) :
    Config × FileStore × Bytes × List (Bytes × Bytes) :=
  (s.cfg, s.store, s.stdin, s.guards)

/- A session in which something else was printed and looked up. -/
@[reducible]
def Session.retold
    (s : Session)
    (asked : Array Bytes)
    (messages : Array Message)
    (found : List (Bytes × Bytes))
    (nextDir : Nat) : Session :=
  { s with
    asked := asked
    messages := messages
    found := found
    nextDir := nextDir }

/-
  A relation between computations that goes through steps
  without regard for what was printed and looked up.
-/
structure Likeness where
  rel {α : Type} : Pre α → Pre α → Prop
  given {α : Type} (a : α) : rel (pure a) (pure a)
  failed {α : Type} (e : Failure) : rel (throw e : Pre α) (throw e)
  andThen {α β : Type} {x y : Pre α} {f g : α → Pre β} :
    rel x y → (∀ a, rel (f a) (g a)) → rel (x >>= f) (y >>= g)
  read {β : Type} {f g : Session → Pre β} :
    (∀ s asked messages found nextDir,
      rel (f s) (g (s.retold asked messages found nextDir))) →
    rel (get >>= f) (get >>= g)
  change {f : Session → Session} :
    (∀ s asked messages found nextDir,
      f (s.retold asked messages found nextDir) =
        (f s).retold asked messages found nextDir) →
    (∀ s, (f s).sources = s.sources) →
    rel (modify f : Pre PUnit) (modify f)
  said (m : Message) : rel (Pre.say m) (Pre.say m)

/- Two computations that are alike. -/
class Like (L : Likeness) {α : Type} (x y : Pre α) : Prop where
  rel : L.rel x y

/- A computation that is like itself. -/
abbrev Selfsame (L : Likeness) {α : Type} (x : Pre α) : Prop :=
  Like L x x

variable {L : Likeness} {α β : Type}

namespace Likeness

instance like_pure (a : α) : Selfsame L (pure a) := ⟨L.given a⟩

instance like_throw (e : Failure) : Selfsame L (throw e : Pre α) := ⟨L.failed e⟩

variable {x y : Pre α} {f g : α → Pre β}

theorem like_seq (hFirst : Like L x y) (hNext : ∀ a, Like L (f a) (g a)) :
    Like L (x >>= f) (y >>= g) := ⟨L.andThen hFirst.rel fun a => (hNext a).rel⟩

instance like_bind [hFirst : Like L x y] [hNext : ∀ a, Like L (f a) (g a)] :
    Like L (x >>= f) (y >>= g) := like_seq hFirst hNext

theorem like_step [hFirst : Like L x y] (hNext : ∀ a, Like L (f a) (g a)) :
    Like L (x >>= f) (y >>= g) := like_seq hFirst hNext

theorem like_look {f g : Session → Pre β}
    (hNext : ∀ s asked messages found nextDir,
      Like L (f s) (g (s.retold asked messages found nextDir))) :
    Like L (get >>= f) (get >>= g) := ⟨L.read fun s a m n d => (hNext s a m n d).rel⟩

instance like_get {f g : Session → Pre β}
    [hNext : ∀ s asked messages found nextDir,
      Like L (f s) (g (s.retold asked messages found nextDir))] :
    Like L (get >>= f) (get >>= g) := like_look hNext

theorem like_modify {f : Session → Session}
    (hBlind : ∀ s asked messages found nextDir,
      f (s.retold asked messages found nextDir) =
        (f s).retold asked messages found nextDir)
    (hSources : ∀ s, (f s).sources = s.sources) :
    Selfsame L (modify f : Pre PUnit) := ⟨L.change hBlind hSources⟩

theorem like_when {c : Prop} [Decidable c] {x' y' : Pre α} (hThen : c → Like L x y)
    (hElse : Like L x' y') : Like L (if c then x else x') (if c then y else y') := by
  split
  · exact hThen ‹_›
  · exact hElse

theorem like_choice {c : Prop} [Decidable c] {x' y' : Pre α} (hThen : Like L x y)
    (hElse : Like L x' y') : Like L (if c then x else x') (if c then y else y') :=
  like_when (fun _ => hThen) hElse

instance like_ite {c : Prop} [Decidable c] {x' y' : Pre α} [hThen : Like L x y]
    [hElse : Like L x' y'] : Like L (if c then x else x') (if c then y else y') :=
  like_choice hThen hElse

end Likeness

open Likeness

------------
-- Made Tokens
------------

namespace Pre

instance like_shownOf (t : Token) : Selfsame L (shownOf t) := by
  dsimp only [shownOf]
  infer_instance

instance like_placeOf (t : Token) : Selfsame L (placeOf t) := by
  dsimp only [placeOf]
  infer_instance

instance like_fail (t : Token) (cause : Fault) :
    Selfsame L (fail t cause : Pre α) := by
  dsimp only [fail]
  infer_instance

/- Nothing follows a failure. -/
instance like_failed (t : Token) (cause : Fault) (f g : α → Pre β) :
    Like L (fail t cause >>= f) (fail t cause >>= g) := like_fail (α := β) t cause

instance like_ofScan (scan : TokenScan α) : Selfsame L (ofScan scan) := by
  cases scan <;> dsimp only [ofScan] <;> infer_instance

instance like_say (m : Message) : Selfsame L (say m) := ⟨L.said m⟩

instance like_warn (t : Token) (group : Warning) (n : Notice) :
    Selfsame L (warn t group n) := by
  dsimp only [warn]
  infer_instance

instance like_info (text : Bytes) : Selfsame L (info text) := by
  dsimp only [info]
  infer_instance

instance like_tokenize (f : SourceFile) (shownName : Bytes) :
    Selfsame L (tokenize f shownName) := by
  refine like_look fun s _ _ _ _ => like_step fun _ => ?_
  dsimp only
  split <;> infer_instance

instance like_addShown (shown : Shown) :
    Selfsame L (modify fun s => { s with shown := s.shown.push shown } : Pre PUnit) :=
  like_modify (fun _ _ _ _ _ => rfl) fun _ => rfl

instance like_addText (name : Bytes) (number : Nat) (contents : Bytes) (shown : Shown) :
    Selfsame L (addText name number contents shown) := by
  dsimp only [addText]
  infer_instance

instance like_pushFile (f : SourceFile) :
    Selfsame L (modify fun s => { s with files := s.files.push f } : Pre PUnit) :=
  like_modify (fun _ _ _ _ _ => rfl) fun _ => rfl

instance like_addFile (name contents : Bytes) :
    Selfsame L (addFile name contents) := by
  dsimp only [addFile]
  infer_instance

instance like_tokenizeSource (name src : Bytes) :
    Selfsame L (tokenizeSource name src) := by
  dsimp only [tokenizeSource]
  infer_instance

instance like_makeTokens (text : Bytes) (file : SourceFile) (line : Int) (spaced : Bool) :
    Selfsame L (makeTokens text file line spaced) := by
  refine like_look fun s _ _ _ _ => like_step fun f => like_step fun ts => ?_
  split <;> infer_instance

instance like_makeToken (text : Bytes) (tmpl : Token) :
    Selfsame L (makeToken text tmpl) := by
  refine like_step fun ts => ?_
  split <;> infer_instance

instance like_numberToken (n : Int) (tmpl : Token) :
    Selfsame L (numberToken n tmpl) := like_makeToken _ _

instance like_convert (ts : List Token) : Selfsame L (convert ts) := by
  unfold convert
  split <;> infer_instance

instance like_settle (ts : List Token) : Selfsame L (settle ts) := by
  dsimp only [settle]
  infer_instance

end Pre

open Pre

------------
-- Substitution
------------

namespace Substitution

instance like_paste (l r : Token) : Selfsame L (paste l r) := by
  refine like_step fun ts => ?_
  split <;> infer_instance

instance like_pasteLast (p : Progress) (t : Token) : Selfsame L (p.pasteLast t) := by
  unfold Progress.pasteLast
  split <;> infer_instance

instance like_checkPaste (p : Progress) (hash next : Token) :
    Selfsame L (checkPaste p hash next) := by
  dsimp only [checkPaste]
  infer_instance

instance like_pasteNext (p : Progress) (next : Token) :
    Selfsame L (pasteNext p next) := by
  unfold pasteNext
  repeat' split
  all_goals infer_instance

instance like_pasteBody (done : Array Token) (ts : List Token) :
    Selfsame L (pasteBody done ts) := by
  fun_induction pasteBody done ts with
  | case1 | case2 | case3 | case4 => infer_instance
  | case5 => assumption
  | case6 =>
    refine like_step fun _ => ?_
    split <;> infer_instance

variable {expand expand' : Expand} [∀ ts, Like L (expand ts) (expand' ts)]

instance like_expandArg (p : Progress) (t : Token) (a : MacroArg) :
    Like L (expandArg expand p t a) (expandArg expand' p t a) := by
  dsimp only [expandArg]
  infer_instance

instance like_subst (fuel : Nat) (p : Progress) (ts : List Token) :
    Like L (subst expand fuel p ts) (subst expand' fuel p ts) := by
  induction fuel generalizing p ts with
  | zero => exact like_throw _
  | succ fuel ih =>
    cases ts with
    | nil => exact like_throw _
    | cons t rest =>
      rw [subst, subst]
      dsimp only [stringize]
      refine like_choice (like_pure _) (like_choice ?_ ?_)
      · split <;> infer_instance
      · split
        · infer_instance
        · refine like_choice inferInstance ?_
          split
          · infer_instance
          · refine like_choice inferInstance ?_
            split <;> infer_instance

end Substitution

------------
-- Uses of Macros
------------

namespace Expansion

instance like_setCounter (n : Nat) :
    Selfsame L (modify fun s => { s with counter := n } : Pre PUnit) :=
  like_modify (fun _ _ _ _ _ => rfl) fun _ => rfl

instance like_builtinToken (b : Builtin) (t : Token) :
    Selfsame L (builtinToken b t) := by
  cases b <;> dsimp only [builtinToken] <;> infer_instance

instance like_use? (t : Token) (rest : List Token) : Selfsame L (use? t rest) := by
  refine like_choice inferInstance (like_look fun s _ _ _ _ => ?_)
  dsimp only
  split <;> infer_instance

instance like_tokens {expand expand' : Expand} [∀ ts, Like L (expand ts) (expand' ts)]
    (t : Token) (u : Use) : Like L (u.tokens expand t) (u.tokens expand' t) := by
  unfold Use.tokens
  split <;> infer_instance

end Expansion

------------
-- Directives
------------

namespace Directive

instance like_skipLine (ts : List Token) : Selfsame L (skipLine ts) := by
  unfold skipLine
  split <;> infer_instance

instance like_answerDefined (fuel : Nat) (done : Array Token) (ts : List Token) :
    Selfsame L (answerDefined fuel done ts) := by
  induction fuel generalizing done ts with
  | zero => exact like_throw _
  | succ fuel ih =>
    cases ts with
    | nil => exact like_throw _
    | cons t ts =>
      dsimp only [answerDefined]
      infer_instance

instance like_zeroNames (ts : List Token) : Selfsame L (zeroNames ts) := by
  induction ts with
  | nil => exact like_pure _
  | cons t ts ih =>
    dsimp only [zeroNames]
    infer_instance

instance like_openSection (start : Token) (taken : Bool) :
    Selfsame L (openSection start taken) :=
  like_modify (fun _ _ _ _ _ => rfl) fun _ => rfl

instance like_modifySection (f : Conditional → Conditional) :
    Selfsame L (modifySection f) := by
  refine like_modify (fun s _ _ _ _ => ?_) fun s => ?_
  · cases s.conds <;> rfl
  · split <;> rfl

instance like_openGroup (hash : Token) (cause : Fault) :
    Selfsame L (openGroup hash cause) := by
  refine like_look fun s _ _ _ _ => ?_
  dsimp only
  split <;> infer_instance

instance like_closeSection :
    Selfsame L (modify fun s => { s with conds := s.conds.tail } : Pre PUnit) :=
  like_modify (fun _ _ _ _ _ => rfl) fun _ => rfl

instance like_endif (hash : Token) (ts : List Token) :
    Selfsame L (endifDirective hash ts) := by
  dsimp only [endifDirective]
  infer_instance

instance like_else (hash : Token) (ts : List Token) :
    Selfsame L (elseDirective hash ts) := by
  dsimp only [elseDirective]
  infer_instance

instance like_ifdef (name : Token) (ts : List Token) :
    Selfsame L (ifdefDirective name ts) := by
  dsimp only [ifdefDirective]
  infer_instance

instance like_setMacros (f : Macros → Macros) :
    Selfsame L (modify fun s => { s with macros := f s.macros } : Pre PUnit) :=
  like_modify (fun _ _ _ _ _ => rfl) fun _ => rfl

instance like_insert (name : Bytes) (m : Macro) :
    Selfsame L (modify fun s => { s with macros := s.macros.insert name m } : Pre PUnit) :=
  like_setMacros fun ms => ms.insert name m

instance like_erase (name : Bytes) :
    Selfsame L (modify fun s => { s with macros := s.macros.erase name } : Pre PUnit) :=
  like_setMacros fun ms => ms.erase name

instance like_define (ts : List Token) : Selfsame L (define ts) := by
  have hEnter : ∀ m : Macro × List Token, Selfsame L (do
      if let some old := (← get).macros.find? (first ts).text then
        if !old.sameAs m.1 then
          warn (first ts) .macroRedefined (.macroRedefined (first ts).text)
      modify fun s => { s with macros := s.macros.insert (first ts).text m.1 }
      return resumeAt m.2) := fun m => like_look fun s _ _ _ _ => by
    dsimp only
    split <;> infer_instance
  dsimp only [define]
  infer_instance

instance like_undef (ts : List Token) : Selfsame L (undef ts) := by
  dsimp only [undef]
  infer_instance

instance like_noteOnce (name : Bytes) :
    Selfsame L (modify fun s => { s with once := name :: s.once } : Pre PUnit) :=
  like_modify (fun _ _ _ _ _ => rfl) fun _ => rfl

instance like_pragma (name : Token) (ts : List Token) :
    Selfsame L (pragma name ts) := by
  dsimp only [pragma]
  infer_instance

instance like_modifyShown (t : Token) (f : Shown → Shown) :
    Selfsame L (modifyShown t f) :=
  like_modify (fun _ _ _ _ _ => rfl) fun _ => rfl

variable {expand expand' : Expand} [∀ ts, Like L (expand ts) (expand' ts)]

instance like_condition (start : Token) (ts : List Token) :
    Like L (condition expand start ts) (condition expand' start ts) := by
  dsimp only [condition]
  refine like_step fun line => like_step fun e => like_choice inferInstance ?_
  refine like_step fun us => like_step fun vs => like_step fun ws => ?_
  split <;> infer_instance

instance like_if (hash name : Token) (ts : List Token) :
    Like L (ifDirective expand hash name ts) (ifDirective expand' hash name ts) := by
  dsimp only [ifDirective]
  infer_instance

instance like_elif (hash name : Token) (ts : List Token) :
    Like L (elifDirective expand hash name ts) (elifDirective expand' hash name ts) := by
  dsimp only [elifDirective]
  infer_instance

instance like_fileName (fuel : Nat) (ts : List Token) :
    Like L (fileName expand fuel ts) (fileName expand' fuel ts) := by
  induction fuel generalizing ts with
  | zero => exact like_throw _
  | succ fuel ih =>
    dsimp only [fileName]
    infer_instance

instance like_lineMarker (ts : List Token) :
    Like L (lineMarker expand ts) (lineMarker expand' ts) := by
  dsimp only [lineMarker]
  refine like_step fun e => like_step fun line => ?_
  split
  · refine like_step fun _ => ?_
    split <;> infer_instance
  · infer_instance

/- All directives are alike if those that ask for files are. -/
theorem like_run (hash : Token) (ts : List Token)
    (hInclude : (first ts).is "include" = true →
      Like L (includeDirective expand hash ts.tail) (includeDirective expand' hash ts.tail))
    (hNext : (first ts).is "include_next" = true →
      Like L (includeNext expand ts.tail) (includeNext expand' ts.tail)) :
    Like L (run expand hash ts) (run expand' hash ts) :=
  like_when hInclude (like_when hNext inferInstance)

end Directive

end CCompiler
