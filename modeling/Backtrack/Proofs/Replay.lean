import Backtrack.Proofs.Course

/-!
# Replaying the Events of a Parse

The events of a parse tell all that it did to the store: a look at a stream, a reference
that began, a reference that ended. To replay a list of events is to do these things again,
one after another, and the store in which a parse ends is the replay of its events. The
state at any moment of a parse is therefore the replay of what has happened so far.

## Main definitions

* `Sources.effect`, `Sources.replay`: what an event, and what a list of events, does to a
  store.

## Main results

* `Course.sources_eq_replay`: a parse leaves the replay of its events.
* `Sources.config_replay`, `Sources.token_replay`, `Sources.next_replay`: no event changes
  settings, tokens, or which sources there are.
* `Course.source_rest`: a parse goes on in the source in which it began.
-/

namespace Backtrack

variable {τ α : Type}

namespace Sources

/-- What an event does to the store. -/
def effect (sources : Sources τ) : Event τ → Sources τ
  | .inspected place => sources.look place
  | .descended place _ => sources.modify place.source .enter
  | .ascended place _ => sources.modify place.source .leave
  | _ => sources

/-- **The store after events**, from the first to the last. -/
def replay (sources : Sources τ) (events : List (Event τ)) : Sources τ :=
  events.foldl effect sources

@[simp]
theorem replay_nil (sources : Sources τ) : sources.replay [] = sources := rfl

@[simp]
theorem replay_cons (sources : Sources τ) (event : Event τ) (events : List (Event τ)) :
    sources.replay (event :: events) = (sources.effect event).replay events := rfl

@[simp]
theorem replay_append (sources : Sources τ) (xs ys : List (Event τ)) :
    sources.replay (xs ++ ys) = (sources.replay xs).replay ys :=
  List.foldl_append

/-- Notes leave the store alone. -/
@[simp]
theorem replay_noted (sources : Sources τ) (texts : List String) :
    sources.replay (texts.map .noted) = sources := by
  induction texts with
  | nil => rfl
  | cons text texts ih => exact ih

/-- What holds of every source and of its images under looking, entering and leaving holds
of each source of the store after an event. -/
theorem rel_get_effect {P : Source τ → Source τ → Prop} (same : ∀ source, P source source)
    (look : ∀ source i, P (source.look i) source) (enter : ∀ source, P source.enter source)
    (leave : ∀ source, P source.leave source) (sources : Sources τ) (event : Event τ)
    (id : Nat) : P ((sources.effect event).get id) (sources.get id) := by
  cases event with
  | inspected place => exact rel_get_modify same (fun source => look source _) sources _ id
  | descended place depth => exact rel_get_modify same enter sources _ id
  | ascended place depth => exact rel_get_modify same leave sources _ id
  | _ => exact same _

@[simp]
theorem next_effect (sources : Sources τ) (event : Event τ) :
    (sources.effect event).next = sources.next := by
  cases event <;> simp [effect, look]

@[simp]
theorem config_effect (sources : Sources τ) (event : Event τ) (id : Nat) :
    ((sources.effect event).get id).config = (sources.get id).config :=
  rel_get_effect (P := fun new old => new.config = old.config) (fun _ => rfl)
    (fun _ _ => rfl) (fun _ => rfl) (fun _ => rfl) sources event id

@[simp]
theorem token_effect (sources : Sources τ) (event : Event τ) (id : Nat) :
    ((sources.effect event).get id).token = (sources.get id).token :=
  rel_get_effect (P := fun new old => new.token = old.token) (fun _ => rfl)
    Source.token_look Source.token_enter Source.token_leave sources event id

/-- Events open no source. -/
@[simp]
theorem next_replay (sources : Sources τ) (events : List (Event τ)) :
    (sources.replay events).next = sources.next := by
  induction events generalizing sources with
  | nil => rfl
  | cons event events ih => rw [replay_cons, ih, next_effect]

/-- Events change no settings. -/
@[simp]
theorem config_replay (sources : Sources τ) (events : List (Event τ)) (id : Nat) :
    ((sources.replay events).get id).config = (sources.get id).config := by
  induction events generalizing sources with
  | nil => rfl
  | cons event events ih => rw [replay_cons, ih, config_effect]

/-- Events change no token. -/
@[simp]
theorem token_replay (sources : Sources τ) (events : List (Event τ)) (id : Nat) :
    ((sources.replay events).get id).token = (sources.get id).token := by
  induction events generalizing sources with
  | nil => rfl
  | cons event events ih => rw [replay_cons, ih, token_effect]

end Sources

namespace Course

variable [Quote τ]

/-- **A parse leaves the replay of its events.** -/
theorem sources_eq_replay {s : Stream} {sources : Sources τ} {step : Step τ (Outcome τ α)}
    (h : Course s sources step) : step.sources = sources.replay step.events := by
  induction h with
  | succeed value => rfl
  | fail message => rfl
  | satisfyEnd expected h => rfl
  | satisfyAccept h accepted =>
      rw [List.cons_append, List.cons_append, Sources.replay_cons, Sources.replay_cons,
        Sources.replay_append, Sources.replay_noted]
      rfl
  | satisfyReject expected h rejected =>
      rw [Sources.replay_cons, Sources.replay_cons, Sources.replay_noted]
      rfl
  | eofEnd h => rfl
  | eofReject h => rfl
  | unusable phase message => rfl
  | calling callee h ih => exact ih
  | sequel first second ih₁ ih₂ =>
      rw [Step.after, Sources.replay_append, ← ih₁]
      exact ih₂
  | passFail h ih => exact ih
  | passError h ih => exact ih
  | retry first second ih₁ ih₂ =>
      rw [Step.after, Sources.replay_append, ← ih₁]
      exact ih₂
  | label name h ih => exact ih
  | commit h ih =>
      rw [Sources.replay_append, ← ih]
      rfl
  | refuse h => rfl
  | nested h inner ih =>
      rw [List.cons_append, Sources.replay_cons, Sources.replay_append]
      exact congrArg (Sources.modify · _ Source.leave) ih
  | stallStop items first stuck h ih =>
      rw [Sources.replay_append, ← ih]
      rfl
  | stallError items first stuck h ih =>
      rw [Sources.replay_append, ← ih]
      rfl
  | observed h ih =>
      rw [List.cons_append, Sources.replay_cons, Sources.replay_append]
      exact ih

/-- A parse opens no source. -/
theorem next_eq {s : Stream} {sources : Sources τ} {step : Step τ (Outcome τ α)}
    (h : Course s sources step) : step.sources.next = sources.next := by
  rw [h.sources_eq_replay, Sources.next_replay]

/-- A parse changes no settings. -/
theorem config_eq {s : Stream} {sources : Sources τ} {step : Step τ (Outcome τ α)}
    (h : Course s sources step) (id : Nat) :
    (step.sources.get id).config = (sources.get id).config := by
  rw [h.sources_eq_replay, Sources.config_replay]

/-- A parse changes no token. -/
theorem token_eq {s : Stream} {sources : Sources τ} {step : Step τ (Outcome τ α)}
    (h : Course s sources step) (id : Nat) :
    (step.sources.get id).token = (sources.get id).token := by
  rw [h.sources_eq_replay, Sources.token_replay]

/-- **A parse goes on in the source in which it began.** -/
theorem source_rest {s : Stream} {sources : Sources τ} {step : Step τ (Outcome τ α)}
    (h : Course s sources step) {value : α} {rest : Stream}
    (hok : step.value = .ok value rest) : rest.source = s.source := by
  induction h generalizing rest with
  | succeed value => cases hok; rfl
  | satisfyAccept h accepted => cases hok; rfl
  | eofEnd h => cases hok; rfl
  | calling callee h ih => exact ih hok
  | sequel first second ih₁ ih₂ => exact (ih₂ hok).trans (ih₁ rfl)
  | retry first second ih₁ ih₂ => exact ih₂ hok
  | nested h inner ih => exact ih hok
  | stallStop items first stuck h ih => cases hok; rfl
  | observed h ih => exact ih hok
  | fail | satisfyEnd | satisfyReject | eofReject | unusable | passFail | passError | label
    | commit | refuse | stallError => cases hok

end Course

end Backtrack
