import Backtrack.Proofs.Combinators
import Backtrack.Proofs.Fuel

/-!
# What a Grammar Yields

Seen from outside, a parse takes a position and a store to an outcome and another store. How
much fuel it was given and what happened on the way are left out. `Grammar.Yields` is this
relation, and what a grammar yields is told by what its parts yield, one equivalence for each
way to put grammars together.

The relation is a partial function, for runs that end agree whatever their fuel. That it leads
to the same store says also that the same was asked of every supply.

## Main definitions

* `Run.Gives`: a run gives a result and leaves a store.
* `Grammar.Yields`: the parser of a grammar does, with some fuel.

## Main results

* `Grammar.Yields.unique`: a grammar yields at most one outcome.
* `Grammar.yields_map_iff`, `Grammar.yields_bind_iff`, `Grammar.yields_pair_iff`,
  `Grammar.yields_orElse_iff`, `Grammar.yields_commit_iff`: what a grammar yields, by its parts.
* `Grammar.yields_satisfy_accepted`, `Grammar.yields_eof_end`: what it yields by the next token.
* `Grammar.yields_recursive_iff`, `Grammar.yields_handle_iff`: what a rule and its handle yield.
-/

namespace Backtrack

variable {τ α β γ : Type}

/-! ### Runs without their events -/

/-- A run **gives** a result and leaves a store, whatever happens on the way. -/
def Run.Gives (r : Run τ α) (sources : Sources τ) (value : α) (last : Sources τ) : Prop :=
  ∃ events, r.run sources = some ⟨value, last, events⟩

namespace Run

variable {sources last : Sources τ}

theorem Gives.unique {r : Run τ α} {value other : α} {last' : Sources τ}
    (h : r.Gives sources value last) (h' : r.Gives sources other last') :
    value = other ∧ last = last' := by
  obtain ⟨events, hrun⟩ := h
  obtain ⟨events', hrun'⟩ := h'
  obtain ⟨rfl, rfl, -⟩ := Step.mk.inj (Option.some.inj (hrun.symm.trans hrun'))
  exact ⟨rfl, rfl⟩

theorem Gives.mono {r q : Run τ α} {value : α} (h : r.Gives sources value last) (hle : r.Le q) :
    q.Gives sources value last := by
  obtain ⟨events, hrun⟩ := h
  exact ⟨events, hle _ _ hrun⟩

theorem gives_pure_iff {a value : α} :
    (pure a : Run τ α).Gives sources value last ↔ value = a ∧ last = sources := by
  constructor
  · rintro ⟨events, hrun⟩
    obtain ⟨rfl, rfl, -⟩ := Step.mk.inj (Option.some.inj hrun)
    exact ⟨rfl, rfl⟩
  · rintro ⟨rfl, rfl⟩
    exact ⟨[], rfl⟩

theorem gives_toRun_iff {act : Act τ α} {value : α} :
    act.toRun.Gives sources value last ↔
      value = (act.run sources).value ∧ last = (act.run sources).sources := by
  constructor
  · rintro ⟨events, hrun⟩
    rw [run_toRun] at hrun
    rw [Option.some.inj hrun]
    exact ⟨rfl, rfl⟩
  · rintro ⟨rfl, rfl⟩
    exact ⟨_, run_toRun act sources⟩

/-- **Sequencing**: the second run begins on the store that the first one leaves. -/
theorem gives_bind_iff {r : Run τ α} {f : α → Run τ β} {value : β} :
    (r >>= f).Gives sources value last ↔
      ∃ a middle, r.Gives sources a middle ∧ (f a).Gives middle value last := by
  constructor
  · rintro ⟨events, hrun⟩
    obtain ⟨⟨a, middle, before⟩, ⟨_, _, after⟩, hfirst, hsecond, hstep⟩ :=
      run_bind_eq_some_iff.mp hrun
    obtain ⟨rfl, rfl, -⟩ := Step.mk.inj hstep
    exact ⟨a, middle, ⟨before, hfirst⟩, ⟨after, hsecond⟩⟩
  · rintro ⟨a, middle, ⟨before, hfirst⟩, ⟨after, hsecond⟩⟩
    exact ⟨before ++ after, run_bind_eq_some_iff.mpr ⟨_, _, hfirst, hsecond, rfl⟩⟩

/-- An event makes no difference. -/
theorem gives_emit_bind_iff {event : Event τ} {f : Unit → Run τ β} {value : β} :
    (emit event >>= f).Gives sources value last ↔ (f ()).Gives sources value last := by
  constructor
  · intro h
    obtain ⟨_, middle, ⟨events, hrun⟩, hrest⟩ := gives_bind_iff.mp h
    obtain ⟨-, rfl, -⟩ := Step.mk.inj (Option.some.inj hrun)
    exact hrest
  · intro h
    exact gives_bind_iff.mpr ⟨(), sources, ⟨[event], rfl⟩, h⟩

end Run

/-- The outcome with **its failure made fatal**. -/
def Outcome.commit : Outcome τ α → Outcome τ α
  | .fail failure => .error failure
  | outcome => outcome

namespace Parser

variable {sources last : Sources τ} {s : Stream}

theorem gives_observed_iff {p : Parser τ α} {value : Outcome τ α} :
    (p.observed s).Gives sources value last ↔ (p s).Gives sources value last := by
  rw [observed, Run.carry_eq, Run.gives_emit_bind_iff, Run.gives_bind_iff]
  constructor
  · rintro ⟨outcome, middle, hp, hrest⟩
    rw [Run.carry_eq, Run.gives_emit_bind_iff, Run.gives_pure_iff] at hrest
    obtain ⟨rfl, rfl⟩ := hrest
    exact hp
  · intro hp
    exact ⟨value, last, hp, Run.gives_emit_bind_iff.mpr (Run.gives_pure_iff.mpr ⟨rfl, rfl⟩)⟩

theorem gives_map_iff {p : Parser τ α} {f : α → β} {value : Outcome τ β} :
    (Parser.map f p s).Gives sources value last ↔
      ∃ outcome, (p s).Gives sources outcome last ∧ value = outcome.map f := by
  rw [Parser.map, Run.gives_bind_iff]
  constructor
  · rintro ⟨outcome, middle, hp, hrest⟩
    have hlast : value = outcome.map f ∧ last = middle := by
      cases outcome with
      | ok a rest => exact Run.gives_pure_iff.mp (Run.gives_emit_bind_iff.mp hrest)
      | fail failure => exact Run.gives_pure_iff.mp hrest
      | error failure => exact Run.gives_pure_iff.mp hrest
    obtain ⟨rfl, rfl⟩ := hlast
    exact ⟨outcome, hp, rfl⟩
  · rintro ⟨outcome, hp, rfl⟩
    refine ⟨outcome, last, hp, ?_⟩
    cases outcome with
    | ok a rest => exact Run.gives_emit_bind_iff.mpr (Run.gives_pure_iff.mpr ⟨rfl, rfl⟩)
    | fail failure => exact Run.gives_pure_iff.mpr ⟨rfl, rfl⟩
    | error failure => exact Run.gives_pure_iff.mpr ⟨rfl, rfl⟩

/-- To keep the second value is to combine the two by forgetting the first. -/
theorem keepRight_eq_sequel (p : Parser τ α) (q : Parser τ β) :
    keepRight p q = sequel p fun _ rest => do return (← q rest).map id := by
  have hq : q = fun rest => do return (← q rest).map id := by
    funext rest
    refine Run.ext_run fun sources => ?_
    rw [Run.run_bind]
    cases (q rest).run sources with
    | none => rfl
    | some step => simp [Step.after]
  exact congrArg (fun q' => sequel p fun _ => q') hq

/-- A choice: the second parser is run where the first fails, from the same position. -/
theorem gives_orElse_iff {p q : Parser τ α} {value : Outcome τ α} :
    (orElse p q s).Gives sources value last ↔
      ∃ first middle, (p s).Gives sources first middle ∧
        match first with
        | .fail _ => (q s).Gives middle value last
        | outcome => value = outcome ∧ last = middle := by
  rw [orElse, Run.gives_bind_iff]
  refine exists_congr fun first => exists_congr fun middle => and_congr_right fun _ => ?_
  cases first with
  | ok a rest => exact Run.gives_pure_iff
  | fail failure => exact Iff.rfl
  | error failure => exact Run.gives_pure_iff

/-- A commitment makes the failures of its parser fatal. -/
theorem gives_commit_iff {p : Parser τ α} {value : Outcome τ α} :
    (commit p s).Gives sources value last ↔
      ∃ outcome, (p s).Gives sources outcome last ∧ value = outcome.commit := by
  rw [commit, Run.gives_bind_iff]
  constructor
  · rintro ⟨outcome, middle, hp, hrest⟩
    have hlast : value = outcome.commit ∧ last = middle := by
      cases outcome with
      | fail failure => exact Run.gives_pure_iff.mp (Run.gives_emit_bind_iff.mp hrest)
      | ok a rest => exact Run.gives_pure_iff.mp hrest
      | error failure => exact Run.gives_pure_iff.mp hrest
    obtain ⟨rfl, rfl⟩ := hlast
    exact ⟨outcome, hp, rfl⟩
  · rintro ⟨outcome, hp, rfl⟩
    refine ⟨outcome, last, hp, ?_⟩
    cases outcome with
    | fail failure => exact Run.gives_emit_bind_iff.mpr (Run.gives_pure_iff.mpr ⟨rfl, rfl⟩)
    | ok a rest => exact Run.gives_pure_iff.mpr ⟨rfl, rfl⟩
    | error failure => exact Run.gives_pure_iff.mpr ⟨rfl, rfl⟩

/-- A reference that is admitted: its parser is run one level deeper. -/
theorem gives_nested_iff {p : Parser τ α} {value : Outcome τ α}
    (hroom : (sources.get s.source).config.admits (sources.get s.source).depth = .ok ()) :
    (nested p s).Gives sources value last ↔
      ∃ inner, (p s).Gives (sources.modify s.source .enter) value inner ∧
        last = inner.modify s.source .leave := by
  constructor
  · rintro ⟨events, hrun⟩
    rw [run_nested, hroom] at hrun
    obtain ⟨⟨_, inner, events⟩, hp, hstep⟩ := Option.map_eq_some_iff.mp hrun
    obtain ⟨rfl, rfl, -⟩ := Step.mk.inj hstep
    exact ⟨inner, ⟨events, hp⟩, rfl⟩
  · rintro ⟨inner, ⟨events, hp⟩, rfl⟩
    have hrun := run_nested p s sources
    simp only [hroom, hp, Option.map_some] at hrun
    exact ⟨_, hrun⟩

end Parser

/-! ### Grammars -/

namespace Grammar

variable [Quote τ] {σ : Signature}

/-- What a grammar **yields** from a position on a store: its parser, with some fuel, gives the
outcome and leaves the store `last`. -/
def Yields (rules : Rules σ τ) (scope : Scope σ τ) (g : Grammar σ τ α) (s : Stream)
    (sources : Sources τ) (value : Outcome τ α) (last : Sources τ) : Prop :=
  ∃ fuel, (parser rules fuel scope g s).Gives sources value last

section

variable {rules : Rules σ τ} {scope : Scope σ τ} {g : Grammar σ τ α} {s : Stream}
  {sources last : Sources τ}

/-- What a grammar yields, its parser gives with **every fuel from some on**. -/
theorem Yields.eventually {value : Outcome τ α} (h : Yields rules scope g s sources value last) :
    ∃ fuel, ∀ more, fuel ≤ more → (parser rules more scope g s).Gives sources value last := by
  obtain ⟨fuel, hfuel⟩ := h
  exact ⟨fuel, fun more hmore => hfuel.mono (parser_le rules hmore scope g s)⟩

/-- **A grammar yields at most one outcome**, and leaves one store. -/
theorem Yields.unique {value other : Outcome τ α} {last' : Sources τ}
    (h : Yields rules scope g s sources value last)
    (h' : Yields rules scope g s sources other last') : value = other ∧ last = last' := by
  obtain ⟨fuel, hfuel⟩ := h.eventually
  obtain ⟨fuel', hfuel'⟩ := h'.eventually
  exact (hfuel (max fuel fuel') (Nat.le_max_left _ _)).unique
    (hfuel' (max fuel fuel') (Nat.le_max_right _ _))

/-- No outcome comes without fuel. -/
theorem yields_iff_succ {value : Outcome τ α} :
    Yields rules scope g s sources value last ↔
      ∃ fuel, (parser rules (fuel + 1) scope g s).Gives sources value last := by
  constructor
  · rintro ⟨fuel, hfuel⟩
    exact ⟨fuel, hfuel.mono (parser_le rules (Nat.le_succ fuel) scope g s)⟩
  · rintro ⟨fuel, hfuel⟩
    exact ⟨fuel + 1, hfuel⟩

theorem yields_succeed_iff {value : Outcome τ α} {a : α} :
    Yields rules scope (.succeed a) s sources value last ↔
      value = .ok a s ∧ last = sources := by
  rw [yields_iff_succ]
  constructor
  · rintro ⟨fuel, hfuel⟩
    exact Run.gives_pure_iff.mp (Parser.gives_observed_iff.mp hfuel)
  · intro h
    exact ⟨0, Parser.gives_observed_iff.mpr (Run.gives_pure_iff.mpr h)⟩

theorem yields_map_iff {f : α → β} {value : Outcome τ β} :
    Yields rules scope (.map f g) s sources value last ↔
      ∃ outcome, Yields rules scope g s sources outcome last ∧ value = outcome.map f := by
  rw [yields_iff_succ]
  constructor
  · rintro ⟨fuel, hfuel⟩
    obtain ⟨outcome, hg, hvalue⟩ := Parser.gives_map_iff.mp (Parser.gives_observed_iff.mp hfuel)
    exact ⟨outcome, ⟨fuel + 1, hg⟩, hvalue⟩
  · rintro ⟨outcome, hg, hvalue⟩
    obtain ⟨fuel, hfuel⟩ := yields_iff_succ.mp hg
    exact ⟨fuel, Parser.gives_observed_iff.mpr (Parser.gives_map_iff.mpr ⟨outcome, hfuel, hvalue⟩)⟩

/-- A grammar in two stages: what its first part yields is gone on with, and **fuel enough for both
stages** is fuel enough for the whole. -/
private theorem yields_staged_iff {k : Grammar σ τ β} {value : Outcome τ β}
    (goOn : Nat → Outcome τ α → Run τ (Outcome τ β))
    (hle : ∀ {fuel more}, fuel ≤ more → ∀ first, (goOn fuel first).Le (goOn more first))
    (hk : ∀ fuel, (parser rules (fuel + 1) scope k s).Gives sources value last ↔
      ∃ first middle, (parser rules (fuel + 1) scope g s).Gives sources first middle ∧
        (goOn fuel first).Gives middle value last) :
    Yields rules scope k s sources value last ↔
      ∃ first middle, Yields rules scope g s sources first middle ∧
        ∃ fuel, (goOn fuel first).Gives middle value last := by
  rw [yields_iff_succ]
  constructor
  · rintro ⟨fuel, hfuel⟩
    obtain ⟨first, middle, hg, hrest⟩ := (hk fuel).mp hfuel
    exact ⟨first, middle, ⟨fuel + 1, hg⟩, fuel, hrest⟩
  · rintro ⟨first, middle, hg, fuel', hrest⟩
    obtain ⟨fuel, hfuel⟩ := hg.eventually
    have hfirst := hfuel (max fuel fuel' + 1) (by omega)
    have hsecond := hrest.mono (hle (Nat.le_max_right fuel fuel') first)
    exact ⟨max fuel fuel', (hk _).mpr ⟨first, middle, hfirst, hsecond⟩⟩

theorem yields_bind_iff {next : α → Grammar σ τ β} {value : Outcome τ β} :
    Yields rules scope (.bind g next) s sources value last ↔
      ∃ first middle, Yields rules scope g s sources first middle ∧
        match first with
        | .ok a rest => Yields rules scope (next a) rest middle value last
        | .fail failure => value = .fail failure ∧ last = middle
        | .error failure => value = .error failure ∧ last = middle := by
  refine (yields_staged_iff (g := g)
    (fun fuel first => first.andThen fun a rest => do
      Run.emit (.called .continuation)
      parser rules (fuel + 1) scope (next a) rest)
    (fun hle first => .andThen first fun a rest => (Run.Le.refl _).bind fun _ =>
      parser_le rules (Nat.succ_le_succ hle) scope (next a) rest)
    fun fuel => ?_).trans ?_
  · exact Parser.gives_observed_iff.trans Run.gives_bind_iff
  refine exists_congr fun first => exists_congr fun middle => and_congr_right fun _ => ?_
  cases first with
  | ok a rest => exact (exists_congr fun _ => Run.gives_emit_bind_iff).trans yields_iff_succ.symm
  | fail failure => exact (exists_const Nat).trans Run.gives_pure_iff
  | error failure => exact (exists_const Nat).trans Run.gives_pure_iff

/-- One grammar after another, with their values combined. -/
private theorem yields_combined_iff {h : Grammar σ τ β} {k : Grammar σ τ γ} {f : α → β → γ}
    (hk : ∀ fuel, parser rules (fuel + 1) scope k =
      (Parser.sequel (parser rules (fuel + 1) scope g) fun a rest => do
        return (← parser rules (fuel + 1) scope h rest).map (f a)).observed)
    {value : Outcome τ γ} :
    Yields rules scope k s sources value last ↔
      ∃ first middle, Yields rules scope g s sources first middle ∧
        match first with
        | .ok a rest =>
          ∃ second, Yields rules scope h rest middle second last ∧ value = second.map (f a)
        | .fail failure => value = .fail failure ∧ last = middle
        | .error failure => value = .error failure ∧ last = middle := by
  refine (yields_staged_iff (g := g)
    (fun fuel first => first.andThen fun a rest => do
      return (← parser rules (fuel + 1) scope h rest).map (f a))
    (fun hle first => .andThen first fun a rest =>
      (parser_le rules (Nat.succ_le_succ hle) scope h rest).bind fun _ => .refl _)
    fun fuel => ?_).trans ?_
  · rw [hk]
    exact Parser.gives_observed_iff.trans Run.gives_bind_iff
  refine exists_congr fun first => exists_congr fun middle => and_congr_right fun _ => ?_
  cases first with
  | ok a rest =>
      simp only [Outcome.andThen, Run.gives_bind_iff, Run.gives_pure_iff]
      constructor
      · rintro ⟨fuel, second, store, hh, rfl, rfl⟩
        exact ⟨second, ⟨fuel + 1, hh⟩, rfl⟩
      · rintro ⟨second, hh, rfl⟩
        obtain ⟨fuel, hfuel⟩ := yields_iff_succ.mp hh
        exact ⟨fuel, second, last, hfuel, rfl, rfl⟩
  | fail failure => exact (exists_const Nat).trans Run.gives_pure_iff
  | error failure => exact (exists_const Nat).trans Run.gives_pure_iff

theorem yields_pair_iff {h : Grammar σ τ β} {value : Outcome τ (α × β)} :
    Yields rules scope (.pair g h) s sources value last ↔
      ∃ first middle, Yields rules scope g s sources first middle ∧
        match first with
        | .ok a rest => ∃ second, Yields rules scope h rest middle second last ∧
            value = second.map fun b => (a, b)
        | .fail failure => value = .fail failure ∧ last = middle
        | .error failure => value = .error failure ∧ last = middle :=
  yields_combined_iff fun _ => rfl

theorem yields_keepLeft_iff {h : Grammar σ τ β} {value : Outcome τ α} :
    Yields rules scope (.keepLeft g h) s sources value last ↔
      ∃ first middle, Yields rules scope g s sources first middle ∧
        match first with
        | .ok a rest => ∃ second, Yields rules scope h rest middle second last ∧
            value = second.map fun _ => a
        | .fail failure => value = .fail failure ∧ last = middle
        | .error failure => value = .error failure ∧ last = middle :=
  yields_combined_iff fun _ => rfl

theorem yields_keepRight_iff {h : Grammar σ τ β} {value : Outcome τ β} :
    Yields rules scope (.keepRight g h) s sources value last ↔
      ∃ first middle, Yields rules scope g s sources first middle ∧
        match first with
        | .ok _ rest => Yields rules scope h rest middle value last
        | .fail failure => value = .fail failure ∧ last = middle
        | .error failure => value = .error failure ∧ last = middle := by
  have hk : ∀ fuel, parser rules (fuel + 1) scope (.keepRight g h) =
      (Parser.sequel (parser rules (fuel + 1) scope g) fun _ rest => do
        return (← parser rules (fuel + 1) scope h rest).map id).observed :=
    fun fuel => congrArg Parser.observed (Parser.keepRight_eq_sequel _ _)
  rw [yields_combined_iff (f := fun _ b => b) hk]
  refine exists_congr fun first => exists_congr fun middle => and_congr_right fun _ => ?_
  cases first with
  | ok a rest =>
      constructor
      · rintro ⟨second, hh, rfl⟩
        rwa [show second.map (fun b => b) = second from second.map_id]
      · intro hh
        exact ⟨value, hh, value.map_id.symm⟩
  | fail failure => exact Iff.rfl
  | error failure => exact Iff.rfl

theorem yields_orElse_iff {h : Grammar σ τ α} {value : Outcome τ α} :
    Yields rules scope (.orElse g h) s sources value last ↔
      ∃ first middle, Yields rules scope g s sources first middle ∧
        match first with
        | .fail _ => Yields rules scope h s middle value last
        | outcome => value = outcome ∧ last = middle := by
  have hle : ∀ {fuel more}, fuel ≤ more → ∀ first : Outcome τ α,
      (match first with
        | .fail _ => parser rules (fuel + 1) scope h s
        | outcome => pure outcome : Run τ (Outcome τ α)).Le
      (match first with
        | .fail _ => parser rules (more + 1) scope h s
        | outcome => pure outcome) := by
    intro fuel more hle first
    cases first with
    | fail failure => exact parser_le rules (Nat.succ_le_succ hle) scope h s
    | ok a rest => exact .refl _
    | error failure => exact .refl _
  refine (yields_staged_iff (g := g) _ hle fun fuel => ?_).trans ?_
  · exact Parser.gives_observed_iff.trans Run.gives_bind_iff
  refine exists_congr fun first => exists_congr fun middle => and_congr_right fun _ => ?_
  cases first with
  | ok a rest => exact (exists_const Nat).trans Run.gives_pure_iff
  | fail failure => exact yields_iff_succ.symm
  | error failure => exact (exists_const Nat).trans Run.gives_pure_iff

theorem yields_commit_iff {value : Outcome τ α} :
    Yields rules scope (.commit g) s sources value last ↔
      ∃ outcome, Yields rules scope g s sources outcome last ∧ value = outcome.commit := by
  rw [yields_iff_succ]
  constructor
  · rintro ⟨fuel, hfuel⟩
    obtain ⟨outcome, hg, hvalue⟩ :=
      Parser.gives_commit_iff.mp (Parser.gives_observed_iff.mp hfuel)
    exact ⟨outcome, ⟨fuel + 1, hg⟩, hvalue⟩
  · rintro ⟨outcome, hg, hvalue⟩
    obtain ⟨fuel, hfuel⟩ := yields_iff_succ.mp hg
    exact ⟨fuel,
      Parser.gives_observed_iff.mpr (Parser.gives_commit_iff.mpr ⟨outcome, hfuel, hvalue⟩)⟩

/-! ### Tokens -/

/-- What a primitive gives, it yields. -/
private theorem yields_of_run {value : Outcome τ α} {events : List (Event τ)} {p : Parser τ α}
    (hp : parser rules 1 scope g = p.observed)
    (h : (p s).run sources = some ⟨value, last, events⟩) :
    Yields rules scope g s sources value last :=
  ⟨1, hp ▸ Parser.gives_observed_iff.mpr ⟨events, h⟩⟩

section

variable {expected : String} {test : Test τ} {token : τ}

theorem yields_satisfy_accepted (h : sources.token s = some token)
    (haccepts : test.accepts token = true) :
    Yields rules scope (.satisfy expected test) s sources (.ok token s.advance)
      ((sources.look s).look s) := by
  have hrun := Parser.run_satisfy expected test s sources
  simp only [h, haccepts, if_true] at hrun
  exact yields_of_run rfl hrun

theorem yields_satisfy_rejected (h : sources.token s = some token)
    (hrejects : test.accepts token = false) :
    Yields rules scope (.satisfy expected test) s sources
      (.fail ⟨Message.mismatch expected token, some token, s.position⟩) (sources.look s) := by
  have hrun := Parser.run_satisfy expected test s sources
  simp only [h, hrejects, Bool.false_eq_true, if_false] at hrun
  exact yields_of_run rfl hrun

theorem yields_satisfy_end (h : sources.token s = none) :
    Yields rules scope (.satisfy expected test) s sources
      (.fail ⟨Message.unexpectedEnd expected, none, s.position⟩) (sources.look s) := by
  have hrun := Parser.run_satisfy expected test s sources
  rw [h] at hrun
  exact yields_of_run rfl hrun

theorem yields_eof_end (h : sources.token s = none) :
    Yields rules scope .eof s sources (.ok () s) (sources.look s) := by
  have hrun := Parser.run_eof s sources
  rw [h] at hrun
  exact yields_of_run rfl hrun

theorem yields_eof_token (h : sources.token s = some token) :
    Yields rules scope .eof s sources
      (.fail ⟨Message.mismatch Message.endOfInput token, some token, s.position⟩)
      (sources.look s) := by
  have hrun := Parser.run_eof s sources
  rw [h] at hrun
  exact yields_of_run rfl hrun

end

/-! ### Rules -/

section

variable {name : σ.Name} {value : Outcome τ (σ.Value name)}

/-- A rule is what its body is in the scope of the rule. -/
theorem yields_recursive_iff {body : Grammar σ τ (σ.Value name)} :
    Yields rules scope (.recursive name body) s sources value last ↔
      Yields rules (scope.rule name .defined body) body s sources value last := by
  rw [yields_iff_succ, yields_iff_succ]
  exact exists_congr fun _ => Parser.gives_observed_iff

/-- With fuel, the handle of a rule runs the body one level deeper. -/
theorem parser_handle {body : Grammar σ τ (σ.Value name)} {home : Scope σ τ}
    (hrule : scope.find? name = some ⟨.defined, body, home⟩) (fuel : Nat) :
    parser rules (fuel + 1) scope (.handle name) =
      (Parser.nested (parser rules fuel home body)).observed := by
  rw [parser_succ, interpret_handle, hrule]
  rfl

/-- The handle of a rule, where one more reference is admitted. -/
theorem yields_handle_iff {body : Grammar σ τ (σ.Value name)} {home : Scope σ τ}
    (hrule : scope.find? name = some ⟨.defined, body, home⟩)
    (hroom : (sources.get s.source).config.admits (sources.get s.source).depth = .ok ()) :
    Yields rules scope (.handle name) s sources value last ↔
      ∃ inner, Yields rules home body s (sources.modify s.source .enter) value inner ∧
        last = inner.modify s.source .leave := by
  rw [yields_iff_succ]
  simp only [parser_handle hrule, Parser.gives_observed_iff, Parser.gives_nested_iff hroom]
  constructor
  · rintro ⟨fuel, inner, hbody, hlast⟩
    exact ⟨inner, ⟨fuel, hbody⟩, hlast⟩
  · rintro ⟨inner, ⟨fuel, hbody⟩, hlast⟩
    exact ⟨fuel, inner, hbody, hlast⟩

/-- The handle of a rule, where one more reference is refused. -/
theorem yields_handle_refused {body : Grammar σ τ (σ.Value name)} {home : Scope σ τ} {limit : Nat}
    (hrule : scope.find? name = some ⟨.defined, body, home⟩)
    (hfull : (sources.get s.source).config.admits (sources.get s.source).depth = .error limit) :
    Yields rules scope (.handle name) s sources
      (.error ⟨Message.recursionLimit limit, sources.token s, s.position⟩) (sources.look s) := by
  have hrun := Parser.run_nested (parser rules 0 home body) s sources
  rw [hfull] at hrun
  exact yields_of_run (parser_handle hrule 0) hrun

end

end

end Grammar

end Backtrack
