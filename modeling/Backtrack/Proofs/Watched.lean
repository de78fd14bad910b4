import Backtrack.Proofs.Correspondence

/-!
# Watched Runs

A run tells in the end what happened. What it does not tell is in how many references a thing
happened, and a run that has no end tells nothing at all. A watched run is the same run, seen
while it goes on: of each event it is recorded in which store it happened and inside how many
references, the number of deferred rules and handles of the grammar that have been begun and not
ended. It goes up where the grammar says that a reference leads somewhere, and not where a counter
is moved.

Watching is a carrier of runs, so the watched run of a grammar is made of the same combinators as
its parser, and what is seen does not depend on the fuel: less fuel shows the beginning of what
more fuel shows.

## Main definitions

* `Moment`: an event, the store in which it happened, and the references in which it happened.
* `Sight`: the moments of a run and, if it ended, how.
* `Watched`: the carrier of watched runs.
* `Grammar.watched`: the watched run of a grammar.

## Main results

* `Grammar.watched_end`: a watched run ends as the run does, with its events.
* `Grammar.watched_begins`: less fuel shows the beginning of what more fuel shows.
-/

namespace Backtrack

variable {τ α β : Type}

/-- A **moment of a run**: an event, with where it happened. -/
structure Moment (τ : Type) where
  /-- What happened. -/
  event : Event τ
  /-- In how many references it happened. -/
  references : Nat
  /-- The store in which it happened, before it changed anything. -/
  sources : Sources τ

/-- What is **seen of a run**. -/
structure Sight (τ α : Type) where
  /-- The moments, from the first to the last. -/
  moments : List (Moment τ)
  /-- The result and the store, if there is an end. -/
  last : Option (α × Sources τ)

namespace Sight

/-- What is seen of a run from its end only, inside a number of references. -/
def ofEnd (references : Nat) (sources : Sources τ) : Option (Step τ α) → Sight τ α
  | none => ⟨[], none⟩
  | some step =>
    ⟨step.events.map fun event => ⟨event, references, sources⟩, some (step.value, step.sources)⟩

/-- The end, with the events on the way. -/
def step? (sight : Sight τ α) : Option (Step τ α) :=
  sight.last.map fun last => ⟨last.1, last.2, sight.moments.map Moment.event⟩

/-- What is seen when one run follows another. -/
def followed (first : Sight τ α) (next : α → Sources τ → Sight τ β) : Sight τ β :=
  match first.last with
  | none => ⟨first.moments, none⟩
  | some (a, sources) => ⟨first.moments ++ (next a sources).moments, (next a sources).last⟩

@[simp]
theorem followed_none (moments : List (Moment τ)) (next : α → Sources τ → Sight τ β) :
    followed ⟨moments, none⟩ next = ⟨moments, none⟩ := rfl

@[simp]
theorem followed_some (moments : List (Moment τ)) (a : α) (sources : Sources τ)
    (next : α → Sources τ → Sight τ β) :
    followed ⟨moments, some (a, sources)⟩ next =
      ⟨moments ++ (next a sources).moments, (next a sources).last⟩ := rfl

/-- One sight **shows the beginning** of another: all of it, if it shows an end. -/
def Begins (first second : Sight τ α) : Prop :=
  first = second ∨ first.last = none ∧ first.moments <+: second.moments

/-- What comes first is seen, whatever follows. -/
theorem moments_prefix_followed (first : Sight τ α) (next : α → Sources τ → Sight τ β) :
    first.moments <+: (first.followed next).moments := by
  rcases first with ⟨moments, _ | ⟨a, sources⟩⟩
  · exact List.prefix_rfl
  · exact List.prefix_append _ _

theorem Begins.followed {first second : Sight τ α} (h : first.Begins second)
    {next other : α → Sources τ → Sight τ β}
    (hnext : ∀ a sources, (next a sources).Begins (other a sources)) :
    (first.followed next).Begins (second.followed other) := by
  rcases first with ⟨moments, _ | ⟨a, sources⟩⟩
  · obtain rfl | ⟨-, hprefix⟩ := h
    · exact .inl rfl
    · exact .inr ⟨rfl, hprefix.trans (moments_prefix_followed second other)⟩
  · obtain rfl | ⟨hnone, -⟩ := h
    · obtain heq | ⟨hlast, hprefix⟩ := hnext a sources
      · exact .inl (by rw [followed_some, followed_some, heq])
      · exact .inr ⟨hlast, (List.prefix_append_right_inj moments).mpr hprefix⟩
    · cases hnone

end Sight

/-- A **watched run**, by the number of references in which it is made and the store. -/
def Watched (τ α : Type) : Type := Nat → Sources τ → Sight τ α

namespace Watched

instance : Monad (Watched τ) where
  pure a := fun _ sources => ⟨[], some (a, sources)⟩
  bind r f := fun references sources =>
    (r references sources).followed fun a => f a references

/-- A run is watched event by event. Inside a reference, the references are one more. -/
instance : Carrier τ (Watched τ) where
  carry r := fun references sources => .ofEnd references sources (r.run sources)
  inside r := fun references => r (references + 1)

instance : LawfulMonad (Watched τ) := by
  refine LawfulMonad.mk' _ (fun r => ?_) (fun a f => rfl) (fun r f g => ?_)
  · funext references sources
    change (r references sources).followed (fun a sources => ⟨[], some (a, sources)⟩) = _
    rcases r references sources with ⟨moments, _ | ⟨a, last⟩⟩
    · rfl
    · simp
  · funext references sources
    change ((r references sources).followed fun a => f a references).followed _ =
      (r references sources).followed fun a sources => (f a references sources).followed _
    rcases r references sources with ⟨moments, _ | ⟨a, last⟩⟩
    · rfl
    · rcases hf : f a references last with ⟨more, _ | ⟨b, last⟩⟩ <;> simp [hf]

theorem bind_apply (r : Watched τ α) (f : α → Watched τ β) (references : Nat)
    (sources : Sources τ) :
    (r >>= f) references sources = (r references sources).followed fun a => f a references := rfl

theorem carry_apply (r : Run τ α) (references : Nat) (sources : Sources τ) :
    (Carrier.carry r : Watched τ α) references sources =
      .ofEnd references sources (r.run sources) := rfl

/-- What is carried is watched to its end. -/
theorem step?_carry (r : Run τ α) (references : Nat) (sources : Sources τ) :
    ((Carrier.carry r : Watched τ α) references sources).step? = r.run sources := by
  rw [carry_apply]
  cases r.run sources with
  | none => rfl
  | some step => simp [Sight.ofEnd, Sight.step?, Function.comp_def]

/-- A watched run **ends as the run does**, whatever it is inside of. -/
def ending : Correspondence τ (Watched τ) (Run τ) where
  Rel r q := ∀ references sources, (r references sources).step? = q.run sources
  pure _ _ _ := rfl
  bind {_ _ r q f g} h hnext references sources := by
    change ((r references sources).followed _).step? = _
    rw [Run.run_bind, ← h references sources]
    rcases r references sources with ⟨moments, _ | ⟨a, last⟩⟩
    · rfl
    · simp only [Sight.step?, Sight.followed_some, Option.map_some, Option.bind_some,
        ← hnext a references last, Option.map_map, List.map_append]
      rfl
  carry _ := step?_carry _
  inside h references := h (references + 1)

/-- A watched run **shows the beginning** of another. -/
def beginning : Correspondence τ (Watched τ) (Watched τ) where
  Rel r q := ∀ references sources, (r references sources).Begins (q references sources)
  pure _ _ _ := .inl rfl
  bind h hnext references sources :=
    (h references sources).followed fun a => hnext a references
  carry _ _ _ := .inl rfl
  inside h references := h (references + 1)

end Watched

namespace Grammar

variable [Quote τ] {σ : Signature} (rules : Rules σ τ) (scope : Scope σ τ) (g : Grammar σ τ α)
  (s : Stream) (sources : Sources τ)

/-- The **watched run of a grammar** with the given fuel, begun outside all references. -/
def watched (fuel : Nat) : Sight τ (Outcome τ α) :=
  (carried rules fuel scope g : Parser τ α (Watched τ)) s 0 sources

/-- **A watched run ends as the run does**, with the same events, or neither ends. -/
theorem watched_end (fuel : Nat) :
    (watched rules scope g s sources fuel).step? = (parser rules fuel scope g s).run sources := by
  have h : Watched.ending.Parsers (carried rules fuel scope g) (parser rules fuel scope g) :=
    Watched.ending.carried Watched.step?_carry (Nat.le_refl fuel)
      (fun hlt => absurd hlt (Nat.lt_irrefl fuel)) scope g
  exact h s 0 sources

/-- **Less fuel shows the beginning** of what more fuel shows. -/
theorem watched_begins {fuel more : Nat} (hfuel : fuel ≤ more) :
    (watched rules scope g s sources fuel).Begins (watched rules scope g s sources more) := by
  have h : Watched.beginning.Parsers (carried rules fuel scope g) (carried rules more scope g) :=
    Watched.beginning.carried (fun _ _ _ => .inl rfl) hfuel
      (fun _ _ _ _ _ => .inr ⟨rfl, List.nil_prefix⟩) scope g
  exact h s 0 sources

end Grammar

end Backtrack
