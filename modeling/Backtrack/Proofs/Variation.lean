import Backtrack.Grammar.Interpret
import Backtrack.Proofs.Combinators

/-!
# Variations of a Grammar

A grammar is varied by changes in some places, at any number of nodes, in its rules and in what
its continuations choose as well. Whether a variation can be told from the grammar depends on who
looks. An `Outlook` says what is seen of a run apart from its store and its value: how much of a
failure, and which lines of the log.

Every combinator gives runs that look alike for parts that do. So if each change taken for itself
makes no difference to an outlook, wherever it is made, then no number of them does, in whatever
grammar they are made.

## Main definitions

* `Outlook`, `Outlook.see`: what is seen of a run.
* `Outlook.Runs`, `Outlook.Parsers`: runs and parsers that look alike.
* `Grammar.Varies`, `Rules.Varies`, `Scope.Varies`: the closure of a kind of change under all
  constructors.

## Main results

* `Outlook.Runs.bind`: runs that look alike can be gone on with.
* `Outlook.Parsers.sequel`, `Outlook.Parsers.orElse`, `Outlook.Parsers.attempts` and the like: every
  combinator keeps the look of its parts.
* `Grammar.Varies.look_alike`: changes that make no difference by themselves make none together.
-/

namespace Backtrack

variable {σ : Signature} {τ α β γ : Type}

/-! ### What is seen of a run -/

/-- An **outlook** on runs: what is seen of a failure, and which line of the log is seen of an
event. That parsers begin and end and that functions are called is not seen. -/
structure Outlook (τ : Type) [Quote τ] where
  /-- What is seen of a failure. -/
  failure : Failure τ → Failure τ
  /-- What is seen of an event. -/
  record : Event τ → Option Record
  entered : ∀ s, record (.entered s) = none
  returned : ∀ outcome, record (.returned outcome) = none
  called : ∀ callee, record (.called callee) = none
  /-- Failures that look alike do so under a new name, -/
  relabel : ∀ {f f' : Failure τ} (name : String), failure f = failure f' →
    failure (f.relabel name) = failure (f'.relabel name)
  /-- and when they are made fatal. -/
  committed : ∀ {f f' : Failure τ}, failure f = failure f' →
    record (.committed f) = record (.committed f')

namespace Outlook

variable [Quote τ] {view : Outlook τ}

/-- What is seen of an outcome. -/
def outcome (view : Outlook τ) : Outcome τ α → Outcome τ α
  | .ok value rest => .ok value rest
  | .fail failure => .fail (view.failure failure)
  | .error failure => .error (view.failure failure)

/-- What is **seen of a run**: the outcome, the store, and the log. -/
def see (view : Outlook τ) (step : Step τ (Outcome τ α)) :
    Outcome τ α × Sources τ × List Record :=
  (view.outcome step.value, step.sources, step.events.filterMap view.record)

/-- Outcomes that **look alike**: equal successes, or failures of one kind that do. -/
inductive Alike (view : Outlook τ) : Outcome τ α → Outcome τ α → Prop where
  | ok (value : α) (rest : Stream) : Alike view (.ok value rest) (.ok value rest)
  | fail {f f' : Failure τ} (h : view.failure f = view.failure f') : Alike view (.fail f) (.fail f')
  | error {f f' : Failure τ} (h : view.failure f = view.failure f') :
      Alike view (.error f) (.error f')

theorem alike_iff {first second : Outcome τ α} :
    view.Alike first second ↔ view.outcome first = view.outcome second := by
  constructor
  · rintro (⟨value, rest⟩ | h | h)
    · rfl
    · exact congrArg Outcome.fail h
    · exact congrArg Outcome.error h
  · intro h
    cases first with
    | ok value rest =>
        cases second with
        | ok _ _ =>
            cases h
            exact .ok value rest
        | fail _ => cases h
        | error _ => cases h
    | fail f =>
        cases second with
        | ok _ _ => cases h
        | fail f' => exact .fail (Outcome.fail.inj h)
        | error _ => cases h
    | error f =>
        cases second with
        | ok _ _ => cases h
        | fail _ => cases h
        | error f' => exact .error (Outcome.error.inj h)

/-! ### Runs that look alike -/

/-- **Runs that look alike**, on every store: neither ends, or both do with the same to be seen. -/
def Runs (view : Outlook τ) (r q : Run τ (Outcome τ α)) : Prop :=
  ∀ sources, (r.run sources).map view.see = (q.run sources).map view.see

/-- Events before a run are seen before what is seen of it. -/
theorem see_after (view : Outlook τ) (events : List (Event τ)) (step : Step τ (Outcome τ α)) :
    view.see (step.after events) =
      ((view.see step).1, (view.see step).2.1,
        events.filterMap view.record ++ (view.see step).2.2) := by
  simp [see, Step.after]

/-- Steps of which the same is seen have outcomes that look alike, equal stores and equal logs. -/
theorem see_eq_iff {first second : Step τ (Outcome τ α)} :
    view.see first = view.see second ↔
      view.Alike first.value second.value ∧ first.sources = second.sources ∧
        first.events.filterMap view.record = second.events.filterMap view.record := by
  rw [alike_iff, see, see, Prod.mk.injEq, Prod.mk.injEq]

/-- Runs that look alike do so behind events that do. -/
theorem map_see_after {r q : Option (Step τ (Outcome τ α))} (h : r.map view.see = q.map view.see)
    {events others : List (Event τ)}
    (hlog : events.filterMap view.record = others.filterMap view.record) :
    (r.map (Step.after events)).map view.see = (q.map (Step.after others)).map view.see := by
  cases r with
  | none =>
      cases q with
      | none => rfl
      | some second => cases h
  | some first =>
      cases q with
      | none => cases h
      | some second =>
          have hsee : view.see first = view.see second := Option.some.inj h
          simp only [Option.map_some, see_after, hsee, hlog]

namespace Runs

variable {r q : Run τ (Outcome τ α)}

theorem refl (r : Run τ (Outcome τ α)) : view.Runs r r := fun _ => rfl

theorem trans {u : Run τ (Outcome τ α)} (h : view.Runs r q) (h' : view.Runs q u) :
    view.Runs r u :=
  fun sources => (h sources).trans (h' sources)

theorem pure {first second : Outcome τ α} (h : view.Alike first second) :
    view.Runs (pure first) (pure second) :=
  fun _ => congrArg some (see_eq_iff.mpr ⟨h, rfl, rfl⟩)

/-- **Runs that look alike can be gone on with**, if outcomes that look alike are met alike. -/
theorem bind {f g : Outcome τ α → Run τ (Outcome τ β)} (h : view.Runs r q)
    (hnext : ∀ {first second}, view.Alike first second → view.Runs (f first) (g second)) :
    view.Runs (r >>= f) (q >>= g) := by
  intro sources
  have hsee := h sources
  rw [Run.run_bind, Run.run_bind]
  generalize r.run sources = one at hsee ⊢
  generalize q.run sources = two at hsee ⊢
  cases one with
  | none =>
      cases two with
      | none => rfl
      | some second => cases hsee
  | some first =>
      cases two with
      | none => cases hsee
      | some second =>
          obtain ⟨hvalue, hsources, hlog⟩ := see_eq_iff.mp (Option.some.inj hsee)
          rw [Option.bind_some, Option.bind_some, hsources]
          exact map_see_after (hnext hvalue second.sources) hlog

/-- The same is done before both. -/
theorem act {before : Act τ γ} {f g : γ → Run τ (Outcome τ α)}
    (h : ∀ answer, view.Runs (f answer) (g answer)) :
    view.Runs (before.toRun >>= f) (before.toRun >>= g) := by
  intro sources
  rw [Run.run_toRun_bind, Run.run_toRun_bind]
  exact map_see_after (h _ _) rfl

/-- Events that look alike come before. -/
theorem emit {event other : Event τ} (hevent : view.record event = view.record other)
    {f g : Unit → Run τ (Outcome τ α)} (h : view.Runs (f ()) (g ())) :
    view.Runs (Run.emit event >>= f) (Run.emit other >>= g) := by
  intro sources
  rw [Run.run_emit_bind, Run.run_emit_bind]
  exact map_see_after (h sources) (by simp [List.filterMap_cons, hevent])

/-- An event of which nothing is seen comes before the second. -/
theorem emit_right {event : Event τ} (hevent : view.record event = none)
    {g : Unit → Run τ (Outcome τ α)} (h : view.Runs r (g ())) :
    view.Runs r (Run.emit event >>= g) := by
  intro sources
  have hlog : [].filterMap view.record = [event].filterMap view.record := by simp [hevent]
  have hsee := map_see_after (h sources) hlog
  rw [Step.map_after_nil] at hsee
  rw [Run.run_emit_bind]
  exact hsee

end Runs

/-! ### Parsers that look alike -/

/-- **Parsers that look alike**, at every stream. -/
def Parsers (view : Outlook τ) (p q : Parser τ α) : Prop := ∀ s, view.Runs (p s) (q s)

namespace Parsers

variable {p q : Parser τ α} {p' q' : Parser τ β}

theorem refl (p : Parser τ α) : view.Parsers p p := fun _ => .refl _

theorem symm (h : view.Parsers p q) : view.Parsers q p := fun s sources => (h s sources).symm

theorem trans {r : Parser τ α} (h : view.Parsers p q) (h' : view.Parsers q r) :
    view.Parsers p r :=
  fun s => (h s).trans (h' s)

/-- What is called makes no difference, -/
theorem calling (callee other : Callee) (h : view.Parsers p q) :
    view.Parsers (Parser.calling callee p) (Parser.calling other q) :=
  fun s => .emit (by rw [view.called, view.called]) (h s)

/-- nor does a call that the first parser does not make. -/
theorem calling_right (callee : Callee) (h : view.Parsers p q) :
    view.Parsers p (Parser.calling callee q) :=
  fun s => .emit_right (view.called callee) (h s)

/-- A node that the first parser does not have makes no difference. -/
theorem observed_right (h : view.Parsers p q) : view.Parsers p q.observed := by
  intro s sources
  rw [Parser.run_observed, h s sources, Option.map_map]
  refine congrArg (Option.map · _) (funext fun step => ?_)
  simp [see, view.entered, view.returned]

theorem observed_left (h : view.Parsers p q) : view.Parsers p.observed q :=
  h.symm.observed_right.symm

theorem observed (h : view.Parsers p q) : view.Parsers p.observed q.observed :=
  h.observed_left.observed_right

theorem sequel (h : view.Parsers p q) {next next' : α → Parser τ β}
    (hnext : ∀ a, view.Parsers (next a) (next' a)) :
    view.Parsers (Parser.sequel p next) (Parser.sequel q next') := by
  intro s
  refine (h s).bind fun halike => ?_
  cases halike with
  | ok a rest => exact hnext a rest
  | fail hf => exact .pure (.fail hf)
  | error hf => exact .pure (.error hf)

theorem orElse {p' q' : Parser τ α} (h : view.Parsers p q) (h' : view.Parsers p' q') :
    view.Parsers (Parser.orElse p p') (Parser.orElse q q') := by
  intro s
  refine (h s).bind fun halike => ?_
  cases halike with
  | ok a rest => exact .refl _
  | fail hf => exact h' s
  | error hf => exact .pure (.error hf)

theorem label (name : String) (h : view.Parsers p q) :
    view.Parsers (Parser.label name p) (Parser.label name q) := by
  intro s
  refine (h s).bind fun halike => ?_
  cases halike with
  | ok a rest => exact .refl _
  | fail hf => exact .pure (.fail (view.relabel name hf))
  | error hf => exact .pure (.error hf)

theorem commit (h : view.Parsers p q) : view.Parsers (Parser.commit p) (Parser.commit q) := by
  intro s
  refine (h s).bind fun halike => ?_
  cases halike with
  | ok a rest => exact .refl _
  | fail hf => exact .emit (view.committed hf) (.pure (.error hf))
  | error hf => exact .pure (.error hf)

theorem nested (h : view.Parsers p q) : view.Parsers (Parser.nested p) (Parser.nested q) := by
  refine fun s => .act fun room => ?_
  cases room with
  | error limit => exact .refl _
  | ok _ => exact (h s).bind fun halike => .act fun _ => .pure halike

/-- **A loop** with as many turns. -/
theorem attempts (h : view.Parsers p q) (turns : Nat) (cursor : Stream) (items : List α) :
    view.Runs (Parser.attempts p turns cursor items) (Parser.attempts q turns cursor items) := by
  induction turns generalizing cursor items with
  | zero => exact .refl _
  | succ turns ih =>
      refine (h cursor).bind fun halike => ?_
      cases halike with
      | ok item rest =>
          by_cases hstuck : rest.position = cursor.position
          · simp only [hstuck, if_true]
            exact .refl _
          · simp only [hstuck, if_false]
            exact ih rest (item :: items)
      | fail hf => exact .refl _
      | error hf => exact .pure (.error hf)

theorem many (h : view.Parsers p q) (turns : Nat) :
    view.Parsers (Parser.many turns p) (Parser.many turns q) :=
  fun s => h.attempts turns s []

theorem bind (h : view.Parsers p q) {next next' : α → Parser τ β}
    (hnext : ∀ a, view.Parsers (next a) (next' a)) :
    view.Parsers (Parser.bind p next) (Parser.bind q next') :=
  sequel h fun a => calling .continuation .continuation (hnext a)

theorem map (h : view.Parsers p q) (f : α → β) :
    view.Parsers (Parser.map f p) (Parser.map f q) :=
  sequel h fun _ => .refl _

theorem keepRight (h : view.Parsers p q) (h' : view.Parsers p' q') :
    view.Parsers (Parser.keepRight p p') (Parser.keepRight q q') :=
  sequel h fun _ => h'

theorem pair (h : view.Parsers p q) (h' : view.Parsers p' q') :
    view.Parsers (Parser.pair p p') (Parser.pair q q') := by
  rw [Parser.pair_eq_sequel, Parser.pair_eq_sequel]
  exact sequel h fun _ => sequel h' fun _ => .refl _

theorem keepLeft (h : view.Parsers p q) (h' : view.Parsers p' q') :
    view.Parsers (Parser.keepLeft p p') (Parser.keepLeft q q') := by
  rw [Parser.keepLeft_eq_sequel, Parser.keepLeft_eq_sequel]
  exact sequel h fun _ => sequel h' fun _ => .refl _

theorem optional (h : view.Parsers p q) :
    view.Parsers (Parser.optional p) (Parser.optional q) := by
  rw [Parser.optional_eq_orElse, Parser.optional_eq_orElse]
  exact orElse (sequel h fun _ => .refl _) (.refl _)

theorem deferred (h : view.Parsers p q) :
    view.Parsers (Parser.deferred p) (Parser.deferred q) :=
  nested (calling .thunk .thunk h)

theorem handle (h : view.Parsers p q) (phase : Phase) :
    view.Parsers (Parser.handle phase p) (Parser.handle phase q) := by
  cases phase with
  | undefined => exact .refl _
  | defined => exact nested h
  | dropped => exact .refl _

end Parsers

end Outlook

/-! ### Grammars with changes in some places -/

/-- A grammar and **one of its variations**: the second is the first with changes at any number of
nodes. What a node has become by changes within may be changed at its top. -/
inductive Grammar.Varies (change : ∀ ⦃α : Type⦄, Grammar σ τ α → Grammar σ τ α → Prop) :
    {α : Type} → Grammar σ τ α → Grammar σ τ α → Prop where
  | changed {α : Type} {g h k : Grammar σ τ α} : Varies change g h → change h k → Varies change g k
  | succeed {α : Type} (value : α) : Varies change (.succeed value) (.succeed value)
  | fail {α : Type} (message : String) :
      Varies change (.fail message : Grammar σ τ α) (.fail message)
  | satisfy (expected : String) (test : Test τ) :
      Varies change (.satisfy expected test) (.satisfy expected test)
  | eof : Varies change .eof .eof
  | bind {α β : Type} {g g' : Grammar σ τ α} {next next' : α → Grammar σ τ β} :
      Varies change g g' → (∀ a, Varies change (next a) (next' a)) →
        Varies change (.bind g next) (.bind g' next')
  | map {α β : Type} (f : α → β) {g g' : Grammar σ τ α} :
      Varies change g g' → Varies change (.map f g) (.map f g')
  | pair {α β : Type} {g g' : Grammar σ τ α} {h h' : Grammar σ τ β} :
      Varies change g g' → Varies change h h' → Varies change (.pair g h) (.pair g' h')
  | keepRight {α β : Type} {g g' : Grammar σ τ α} {h h' : Grammar σ τ β} :
      Varies change g g' → Varies change h h' → Varies change (.keepRight g h) (.keepRight g' h')
  | keepLeft {α β : Type} {g g' : Grammar σ τ α} {h h' : Grammar σ τ β} :
      Varies change g g' → Varies change h h' → Varies change (.keepLeft g h) (.keepLeft g' h')
  | orElse {α : Type} {g g' h h' : Grammar σ τ α} :
      Varies change g g' → Varies change h h' → Varies change (.orElse g h) (.orElse g' h')
  | optional {α : Type} {g g' : Grammar σ τ α} :
      Varies change g g' → Varies change (.optional g) (.optional g')
  | many {α : Type} {g g' : Grammar σ τ α} :
      Varies change g g' → Varies change (.many g) (.many g')
  | label {α : Type} (name : String) {g g' : Grammar σ τ α} :
      Varies change g g' → Varies change (.label name g) (.label name g')
  | commit {α : Type} {g g' : Grammar σ τ α} :
      Varies change g g' → Varies change (.commit g) (.commit g')
  | deferred (name : σ.Name) : Varies change (.deferred name) (.deferred name)
  | recursive (name : σ.Name) {body body' : Grammar σ τ (σ.Value name)} :
      Varies change body body' → Varies change (.recursive name body) (.recursive name body')
  | handle (name : σ.Name) : Varies change (.handle name) (.handle name)
  | withRule {α : Type} (name : σ.Name) (phase : Phase)
      {body body' : Grammar σ τ (σ.Value name)} {g g' : Grammar σ τ α} :
      Varies change body body' → Varies change g g' →
        Varies change (.withRule name phase body g) (.withRule name phase body' g')

section

variable {change : ∀ ⦃α : Type⦄, Grammar σ τ α → Grammar σ τ α → Prop}

/-- The same for the rules of two tables. -/
def Rules.Varies (change : ∀ ⦃α : Type⦄, Grammar σ τ α → Grammar σ τ α → Prop)
    (rules others : Rules σ τ) : Prop :=
  ∀ name, (rules name).Varies change (others name)

/-- The same for the rules of two scopes. -/
inductive Scope.Varies (change : ∀ ⦃α : Type⦄, Grammar σ τ α → Grammar σ τ α → Prop) :
    Scope σ τ → Scope σ τ → Prop where
  | empty : Varies change .empty .empty
  | rule {outer outer' : Scope σ τ} (name : σ.Name) (phase : Phase)
      {body body' : Grammar σ τ (σ.Value name)} :
      Varies change outer outer' → body.Varies change body' →
        Varies change (.rule outer name phase body) (.rule outer' name phase body')

/-- A plain grammar is **a variation of itself**, without any change. -/
theorem Grammar.Plain.varies {g : Grammar σ τ α} (hg : g.Plain) : g.Varies change g := by
  induction g with
  | succeed value => exact .succeed value
  | fail message => exact .fail message
  | satisfy expected test => exact .satisfy expected test
  | eof => exact .eof
  | bind g next ihg ihnext => exact .bind (ihg hg.1) fun a => ihnext a (hg.2 a)
  | map f g ihg => exact .map f (ihg hg)
  | pair g h ihg ihh => exact .pair (ihg hg.1) (ihh hg.2)
  | keepRight g h ihg ihh => exact .keepRight (ihg hg.1) (ihh hg.2)
  | keepLeft g h ihg ihh => exact .keepLeft (ihg hg.1) (ihh hg.2)
  | orElse g h ihg ihh => exact .orElse (ihg hg.1) (ihh hg.2)
  | optional g ihg => exact .optional (ihg hg)
  | many g ihg => exact .many (ihg hg)
  | label name g ihg => exact .label name (ihg hg)
  | commit g ihg => exact .commit (ihg hg)
  | deferred name => exact .deferred name
  | recursive name body ih => exact .recursive name (ih hg)
  | handle name => exact .handle name
  | withRule name phase body g ihbody ihg => exact .withRule name phase (ihbody hg.1) (ihg hg.2)
  | around before after g => exact hg.elim

/-- A handle stands for nothing in both scopes, or for rules in the same phase, of which the second
is a variation. -/
theorem Scope.Varies.find? {scope scope' : Scope σ τ} (h : scope.Varies change scope')
    (name : σ.Name) :
    (scope.find? name = none ∧ scope'.find? name = none) ∨
      ∃ rule rule', scope.find? name = some rule ∧ scope'.find? name = some rule' ∧
        rule.phase = rule'.phase ∧ rule.body.Varies change rule'.body ∧
        rule.home.Varies change rule'.home := by
  induction h with
  | empty => exact .inl ⟨rfl, rfl⟩
  | rule other phase houter hbody ih =>
      by_cases ho : other = name
      · subst ho
        rw [find?_rule_self, find?_rule_self]
        exact .inr ⟨_, _, rfl, rfl, rfl, hbody, .rule other phase houter hbody⟩
      · rw [find?_rule_of_ne ho, find?_rule_of_ne ho]
        exact ih

namespace Grammar

variable [Quote τ]

/-- A kind of change that **makes no difference** to an outlook, wherever it is made. -/
def Unseen (view : Outlook τ) (change : ∀ ⦃α : Type⦄, Grammar σ τ α → Grammar σ τ α → Prop) :
    Prop :=
  ∀ {α : Type} {g g' : Grammar σ τ α}, change g g' →
    ∀ (rules : Rules σ τ) (call : Interpreter σ τ) (turns : Nat) (scope : Scope σ τ),
      view.Parsers (g.interpret rules call turns scope) (g'.interpret rules call turns scope)

variable {view : Outlook τ} {rules rules' : Rules σ τ}

/-- One level of references. -/
theorem Varies.alike_interpret (hchange : Unseen view change) (hrules : rules.Varies change rules')
    {call call' : Interpreter σ τ}
    (hcall : ∀ {α : Type} {scope scope' : Scope σ τ} {g g' : Grammar σ τ α},
      scope.Varies change scope' → g.Varies change g' →
        view.Parsers (call scope g) (call' scope' g'))
    (turns : Nat) {g g' : Grammar σ τ α} (h : g.Varies change g') {scope scope' : Scope σ τ}
    (hscope : scope.Varies change scope') :
    view.Parsers (g.interpret rules call turns scope) (g'.interpret rules' call' turns scope') := by
  induction h generalizing scope scope' with
  | changed _ hk ih => exact (ih hscope).trans (hchange hk rules' call' turns scope')
  | succeed value => exact .refl _
  | fail message => exact .refl _
  | satisfy expected test => exact .refl _
  | eof => exact .refl _
  | bind _ _ ihg ihnext => exact .observed (.bind (ihg hscope) fun a => ihnext a hscope)
  | map f _ ih => exact .observed (.map (ih hscope) f)
  | pair _ _ ihg ihh => exact .observed (.pair (ihg hscope) (ihh hscope))
  | keepRight _ _ ihg ihh => exact .observed (.keepRight (ihg hscope) (ihh hscope))
  | keepLeft _ _ ihg ihh => exact .observed (.keepLeft (ihg hscope) (ihh hscope))
  | orElse _ _ ihg ihh => exact .observed (.orElse (ihg hscope) (ihh hscope))
  | optional _ ih => exact .observed (.optional (ih hscope))
  | many _ ih => exact .observed (.many (ih hscope) turns)
  | label name _ ih => exact .observed (.label name (ih hscope))
  | commit _ ih => exact .observed (.commit (ih hscope))
  | deferred name => exact .observed (.deferred (hcall hscope (hrules name)))
  | recursive name hbody ih => exact .observed (ih (.rule name .defined hscope hbody))
  | handle name =>
      rw [interpret_handle, interpret_handle]
      rcases hscope.find? name with ⟨hfirst, hsecond⟩ | ⟨⟨phase, body, home⟩,
        ⟨_, body', home'⟩, hfirst, hsecond, rfl, hbody, hhome⟩
      · rw [hfirst, hsecond]
        exact .refl _
      · rw [hfirst, hsecond]
        exact .observed (.handle (hcall hhome hbody) phase)
  | withRule name phase hbody _ _ ihg => exact .observed (ihg (.rule name phase hscope hbody))

/-- **Variations look alike**: changes that make no difference by themselves make none together. -/
theorem Varies.look_alike (hchange : Unseen view change) (hrules : rules.Varies change rules')
    (fuel : Nat) {scope scope' : Scope σ τ} (hscope : scope.Varies change scope')
    {g g' : Grammar σ τ α} (h : g.Varies change g') :
    view.Parsers (parser rules fuel scope g) (parser rules' fuel scope' g') := by
  induction fuel generalizing α scope scope' g g' with
  | zero => exact .refl _
  | succ fuel ih =>
      exact h.alike_interpret hchange hrules (fun hscope h => ih hscope h) (fuel + 1) hscope

end Grammar

end

end Backtrack
