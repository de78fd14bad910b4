import Backtrack.Event
import Backtrack.Source.Basic

/-!
# Runs

A computation reads and changes the store of sources and leaves events behind. An `Act`
always gives its result. A `Run` may also run out of the fuel that bounds the nesting of
references and the turns of repetitions, and then gives nothing at all, which is not an
outcome of the parse.

A run is carried out behind a past: the events so far, newest first, to which it adds its
own, so that events are never copied on the way out of nested computations. What it does
and adds must be the same behind every past, and the type keeps the proof. Seen from
outside, a run therefore has a result, a store and events of its own, and sequencing
concatenates the events.

## Main definitions

* `Step`: a result, the store after it, and the events on the way.
* `Progress`: where a computation is, with all that happened before it, newest first.
* `Act`, `Run`: total and fuelled computations, both monads.
* `Run.run`: a run seen from outside; it determines the run (`Run.ext_run`).

## Main results

* `Run.run_bind_eq_some_iff`, `Run.run_bind`: sequencing, for computations that may run out
  of fuel.
-/

namespace Backtrack

/-- The **end of a computation**: its result, the store, and what happened. -/
structure Step (τ α : Type) where
  /-- The result. -/
  value : α
  /-- The store afterwards. -/
  sources : Sources τ
  /-- What happened on the way, in order. -/
  events : List (Event τ)

/-- The same end with other events before those on the way. -/
def Step.after {τ α : Type} (events : List (Event τ)) (step : Step τ α) : Step τ α :=
  { step with events := events ++ step.events }

/-- No events before change nothing. -/
@[simp]
theorem Step.after_nil {τ α : Type} (step : Step τ α) : step.after [] = step := rfl

@[simp]
theorem Step.after_after {τ α : Type} (xs ys : List (Event τ)) (step : Step τ α) :
    (step.after ys).after xs = step.after (xs ++ ys) := by
  simp [after]

/-- A computation that always ends. -/
def Act (τ α : Type) : Type := Sources τ → Step τ α

/-- Where a computation is: its result, the store, and all that happened so far. -/
structure Progress (τ α : Type) where
  /-- The result. -/
  value : α
  /-- The store. -/
  sources : Sources τ
  /-- What happened so far, newest first. -/
  past : List (Event τ)

/-- The same place with more events before all others. -/
def Progress.behind {τ α : Type} (past : List (Event τ)) (p : Progress τ α) : Progress τ α :=
  { p with past := p.past ++ past }

/-- A computation that may **run out of fuel**. -/
structure Run (τ α : Type) where
  /-- Carries the computation out behind a past. -/
  advance : Sources τ → List (Event τ) → Option (Progress τ α)
  /-- The computation does and adds the same behind every past. -/
  uniform : ∀ sources past,
    advance sources past = (advance sources []).map (Progress.behind past)

variable {τ α β : Type}

namespace Act

/-- Runs a computation on a store. -/
@[inline]
def run (act : Act τ α) (sources : Sources τ) : Step τ α := act sources

@[always_inline]
instance : Monad (Act τ) where
  pure a := fun sources => ⟨a, sources, []⟩
  bind act f := fun sources =>
    let first := act sources
    let second := f first.value first.sources
    ⟨second.value, second.sources, first.events ++ second.events⟩

@[simp]
theorem run_pure (a : α) (sources : Sources τ) :
    (pure a : Act τ α).run sources = ⟨a, sources, []⟩ := rfl

@[simp]
theorem run_bind (act : Act τ α) (f : α → Act τ β) (sources : Sources τ) :
    (act >>= f).run sources =
      ⟨((f (act.run sources).value).run (act.run sources).sources).value,
        ((f (act.run sources).value).run (act.run sources).sources).sources,
        (act.run sources).events ++
          ((f (act.run sources).value).run (act.run sources).sources).events⟩ := rfl

/-- A computation that always ends is one that may run out of fuel and does not. -/
@[inline]
def toRun (act : Act τ α) : Run τ α where
  advance sources past :=
    let step := act.run sources
    some ⟨step.value, step.sources, step.events.reverseAux past⟩
  uniform sources past := by
    simp [Progress.behind, List.reverseAux_eq]

/-- Leaves one event and changes nothing. -/
@[inline]
def emit (event : Event τ) : Act τ Unit :=
  fun sources => ⟨(), sources, [event]⟩

/-- Leaves notes in order. -/
def note (texts : List String) : Act τ Unit :=
  fun sources => ⟨(), sources, texts.map .noted⟩

@[simp]
theorem run_emit (event : Event τ) (sources : Sources τ) :
    (emit event).run sources = ⟨(), sources, [event]⟩ := rfl

@[simp]
theorem run_note (texts : List String) (sources : Sources τ) :
    (note texts).run sources = ⟨(), sources, texts.map .noted⟩ := rfl

/-- Adds a source to the store and gives the position at its start. -/
def openSource (source : Source τ) : Act τ Stream :=
  fun sources => ⟨{ source := sources.next }, sources.add source, []⟩

end Act

namespace Run

/-- A run **seen from outside**: what it gives on a store, with its own events in order. -/
def run (r : Run τ α) (sources : Sources τ) : Option (Step τ α) :=
  (r.advance sources []).map fun p => ⟨p.value, p.sources, p.past.reverse⟩

theorem advance_eq (r : Run τ α) (sources : Sources τ) (past : List (Event τ)) :
    r.advance sources past =
      (r.run sources).map fun s => ⟨s.value, s.sources, s.events.reverse ++ past⟩ := by
  rw [r.uniform, run, Option.map_map]
  congr 1
  funext p
  simp [Progress.behind]

/-- Two runs that look the same from outside are equal. -/
theorem ext_run {r q : Run τ α} (h : ∀ sources, r.run sources = q.run sources) : r = q := by
  have : r.advance = q.advance := by
    funext sources past
    rw [advance_eq, advance_eq, h]
  cases r
  cases q
  cases this
  rfl

@[always_inline]
instance : Monad (Run τ) where
  pure a :=
    { advance := fun sources past => some ⟨a, sources, past⟩
      uniform := fun sources past => by simp [Progress.behind] }
  bind r f :=
    { advance := fun sources past =>
        match r.advance sources past with
        | none => none
        | some p => (f p.value).advance p.sources p.past
      uniform := fun sources past => by
        rw [r.uniform sources past]
        cases r.advance sources [] with
        | none => rfl
        | some p =>
          change (f p.value).advance p.sources (p.past ++ past) =
            ((f p.value).advance p.sources p.past).map (Progress.behind past)
          rw [(f p.value).uniform _ (p.past ++ past), (f p.value).uniform _ p.past,
            Option.map_map]
          congr 1
          funext q
          simp [Progress.behind] }

/-- The computation that has run out of fuel. -/
def exhausted : Run τ α where
  advance _ _ := none
  uniform _ _ := rfl

/-- Leaves one event and changes nothing. -/
@[inline]
def emit (event : Event τ) : Run τ Unit where
  advance sources past := some ⟨(), sources, event :: past⟩
  uniform sources past := by simp [Progress.behind]

/-- Leaves notes in order. -/
@[inline]
def note (texts : List String) : Run τ Unit := (Act.note texts).toRun

@[simp]
theorem run_pure (a : α) (sources : Sources τ) :
    (pure a : Run τ α).run sources = some ⟨a, sources, []⟩ := rfl

@[simp]
theorem run_exhausted (sources : Sources τ) : (exhausted : Run τ α).run sources = none := rfl

@[simp]
theorem run_emit (event : Event τ) (sources : Sources τ) :
    (emit event).run sources = some ⟨(), sources, [event]⟩ := rfl

@[simp]
theorem run_toRun (act : Act τ α) (sources : Sources τ) :
    act.toRun.run sources = some (act.run sources) := by
  simp [run, Act.toRun, List.reverseAux_eq]

/-- **Sequencing**: both parts end, the second where the first left the store, and their
events follow each other. -/
theorem run_bind_eq_some_iff {r : Run τ α} {f : α → Run τ β} {sources : Sources τ}
    {last : Step τ β} :
    (r >>= f).run sources = some last ↔
      ∃ first second, r.run sources = some first ∧
        (f first.value).run first.sources = some second ∧
        last = ⟨second.value, second.sources, first.events ++ second.events⟩ := by
  have unfolded : (r >>= f).advance sources [] =
      match r.advance sources [] with
      | none => none
      | some p => (f p.value).advance p.sources p.past := rfl
  rw [run, unfolded, advance_eq]
  cases r.run sources with
  | none => simp
  | some first =>
    simp only [Option.map_some, List.append_nil, advance_eq, Option.map_map,
      Option.map_eq_some_iff, Function.comp_apply, List.reverse_append, List.reverse_reverse,
      Option.some.injEq]
    constructor
    · rintro ⟨second, h, rfl⟩
      exact ⟨first, second, rfl, h, rfl⟩
    · rintro ⟨_, second, rfl, h, rfl⟩
      exact ⟨second, h, rfl⟩

/-- Sequencing as an equation, which also says when there is no result. -/
theorem run_bind (r : Run τ α) (f : α → Run τ β) (sources : Sources τ) :
    (r >>= f).run sources =
      (r.run sources).bind fun first =>
        ((f first.value).run first.sources).map (Step.after first.events) := by
  refine Option.ext fun last => ?_
  rw [run_bind_eq_some_iff, Option.bind_eq_some_iff]
  constructor
  · rintro ⟨first, second, h₁, h₂, rfl⟩
    exact ⟨first, h₁, Option.map_eq_some_iff.mpr ⟨second, h₂, rfl⟩⟩
  · rintro ⟨first, h₁, h⟩
    obtain ⟨second, h₂, rfl⟩ := Option.map_eq_some_iff.mp h
    exact ⟨first, second, h₁, h₂, rfl⟩

@[simp]
theorem run_toRun_bind (act : Act τ α) (f : α → Run τ β) (sources : Sources τ) :
    (act.toRun >>= f).run sources =
      ((f (act.run sources).value).run (act.run sources).sources).map
        (Step.after (act.run sources).events) := by
  rw [run_bind, run_toRun]
  rfl

@[simp]
theorem run_emit_bind (event : Event τ) (f : Unit → Run τ β) (sources : Sources τ) :
    (emit event >>= f).run sources = ((f ()).run sources).map (Step.after [event]) := by
  rw [run_bind, run_emit]
  rfl

/-- Runs are sequenced as the laws of monads say. -/
instance : LawfulMonad (Run τ) := by
  refine LawfulMonad.mk' _ (fun r => ?_) (fun a f => rfl) (fun r f g => ?_)
  · refine ext_run fun sources => ?_
    change (r >>= fun a => pure a).run sources = r.run sources
    rw [run_bind]
    cases r.run sources <;> simp [Step.after]
  · refine ext_run fun sources => ?_
    simp only [run_bind]
    cases r.run sources with
    | none => rfl
    | some first =>
        simp only [Option.bind_some]
        cases (f first.value).run first.sources with
        | none => rfl
        | some second =>
            simp only [Option.bind_some, Option.map_some, Option.map_map, Function.comp_def,
              Step.after_after]
            rfl

@[simp]
theorem run_map (f : α → β) (r : Run τ α) (sources : Sources τ) :
    (f <$> r).run sources =
      (r.run sources).map fun step => ⟨f step.value, step.sources, step.events⟩ := by
  rw [← bind_pure_comp, run_bind]
  cases r.run sources <;> simp [Step.after]

end Run

end Backtrack
