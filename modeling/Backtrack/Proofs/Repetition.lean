import Backtrack.Proofs.Position
import Backtrack.Proofs.Yields

/-!
# Repetition as Recursion

A repetition is run by a loop that carries its items backwards and leaves in four ways. What
it is meant to be is a recursion: an item and then the repetition of the rest, or nothing.
The two agree for repetitions of any length, whichever way the loop is left.

The recursion is `Repeats`, and the loop is proved equal to it: `attempts` with the items so
far is the recursion with these items in front. Unrolled, the recursion is a chain of
successes that advance, followed by one attempt that does not go on.

## Main definitions

* `Grammar.Halts`: a repetition ends with the attempt made here.
* `Grammar.Repeats`: the recursion.
* `Grammar.Successes`: a chain of successes that advance.
* `Grammar.RepetitionLaws`: what a repetition does at a position.

## Main results

* `Grammar.yields_many_iff`: the loop does what the recursion says.
* `Grammar.repeats_iff`: the recursion is a chain of successes and a last attempt.
* `Grammar.repetition_laws`: the laws hold of all plain grammars.
-/

namespace Backtrack

variable {τ α : Type}

/-! ### Items so far -/

/-- No items of its own, and the items before it. -/
private theorem map_append_nil (items : List α) (s : Stream) :
    (Outcome.ok [] s : Outcome τ (List α)).map (items ++ ·) = .ok items s := by
  simp [Outcome.map]

/-- The newest item so far comes behind the others and before all later ones. -/
private theorem map_cons_append (item : α) (items : List α) (o : Outcome τ (List α)) :
    (o.map (item :: ·)).map (items.reverse ++ ·) = o.map ((item :: items).reverse ++ ·) := by
  cases o <;> simp [Outcome.map]

/-! ### One turn of the loop -/

namespace Parser

variable {p : Parser τ α} {s : Stream} {sources last : Sources τ} {items : List α}
  {value : Outcome τ (List α)}

theorem gives_stall_iff :
    (stall items s).toRun.Gives sources value last ↔
      match (sources.get s.source).config.repetition with
      | .stop => value = .ok items s ∧ last = sources
      | .error =>
        value = .error ⟨Message.noProgress, sources.token s, s.position⟩ ∧
          last = sources.look s := by
  rw [Run.gives_toRun_iff, run_stall]
  cases (sources.get s.source).config.repetition <;> exact Iff.rfl

/-- A turn makes an attempt, and the loop goes on behind a success that advances. -/
theorem gives_attempts_succ_iff {turns : Nat} :
    (attempts p (turns + 1) s items).Gives sources value last ↔
      ∃ first middle, (p s).Gives sources first middle ∧
        match first with
        | .ok item rest =>
          if rest.position = s.position then
            (stall items.reverse s).toRun.Gives middle value last
          else (attempts p turns rest (item :: items)).Gives middle value last
        | .fail _ => value = .ok items.reverse s ∧ last = middle
        | .error failure => value = .error failure ∧ last = middle := by
  rw [attempts, Run.gives_bind_iff]
  refine exists_congr fun first => exists_congr fun middle => and_congr_right fun _ => ?_
  cases first with
  | ok item rest =>
      by_cases h : rest.position = s.position <;>
        simp only [h, if_true, if_false, Run.carry_eq]
  | fail failure => exact Run.gives_pure_iff
  | error failure => exact Run.gives_pure_iff

end Parser

namespace Grammar

variable [Quote τ] {σ : Signature}

/-! ### The recursion -/

/-- A repetition of `g` **ends with the attempt made at `s`**: the attempt fails or is aborted,
or it succeeds without advancing, which the settings take for an end or for an error. -/
inductive Halts (rules : Rules σ τ) (scope : Scope σ τ) (g : Grammar σ τ α) :
    Stream → Sources τ → Outcome τ (List α) → Sources τ → Prop
  | failed {s : Stream} {sources last : Sources τ} {failure : Failure τ} :
      Yields rules scope g s sources (.fail failure) last →
      Halts rules scope g s sources (.ok [] s) last
  | aborted {s : Stream} {sources last : Sources τ} {failure : Failure τ} :
      Yields rules scope g s sources (.error failure) last →
      Halts rules scope g s sources (.error failure) last
  | stopped {s rest : Stream} {sources last : Sources τ} {item : α} :
      Yields rules scope g s sources (.ok item rest) last → rest.position = s.position →
      (last.get s.source).config.repetition = .stop →
      Halts rules scope g s sources (.ok [] s) last
  | stalled {s rest : Stream} {sources last : Sources τ} {item : α} :
      Yields rules scope g s sources (.ok item rest) last → rest.position = s.position →
      (last.get s.source).config.repetition = .error →
      Halts rules scope g s sources
        (.error ⟨Message.noProgress, last.token s, s.position⟩) (last.look s)

/-- **A repetition as a recursion**: it ends here, or an item is followed by the repetition
behind it. -/
inductive Repeats (rules : Rules σ τ) (scope : Scope σ τ) (g : Grammar σ τ α) :
    Stream → Sources τ → Outcome τ (List α) → Sources τ → Prop
  | halted {s : Stream} {sources last : Sources τ} {value : Outcome τ (List α)} :
      Halts rules scope g s sources value last → Repeats rules scope g s sources value last
  | moved {s rest : Stream} {sources middle last : Sources τ} {item : α}
      {value : Outcome τ (List α)} :
      Yields rules scope g s sources (.ok item rest) middle → rest.position ≠ s.position →
      Repeats rules scope g rest middle value last →
      Repeats rules scope g s sources (value.map (item :: ·)) last

/-- A **chain of successes** of `g` that advance, each where the one before it ended, with their
items in order. -/
inductive Successes (rules : Rules σ τ) (scope : Scope σ τ) (g : Grammar σ τ α) :
    Stream → Sources τ → List α → Stream → Sources τ → Prop
  | nil {s : Stream} {sources : Sources τ} : Successes rules scope g s sources [] s sources
  | cons {s rest stop : Stream} {sources middle last : Sources τ} {item : α} {items : List α} :
      Yields rules scope g s sources (.ok item rest) middle → rest.position ≠ s.position →
      Successes rules scope g rest middle items stop last →
      Successes rules scope g s sources (item :: items) stop last

variable {rules : Rules σ τ} {scope : Scope σ τ} {g : Grammar σ τ α} {s : Stream}
  {sources last : Sources τ} {value : Outcome τ (List α)}

/-! ### The loop and the recursion -/

/-- The loop with items so far does what the recursion does, **with these items in front**. -/
theorem repeats_of_gives {fuel turns : Nat} {items : List α}
    (h : (Parser.attempts (parser rules fuel scope g) turns s items).Gives sources value last) :
    ∃ behind, Repeats rules scope g s sources behind last ∧
      value = behind.map (items.reverse ++ ·) := by
  -- Each turn takes one step of the recursion, and hands its item on to the items so far.
  induction turns generalizing s items sources with
  | zero =>
      obtain ⟨events, hrun⟩ := h
      cases hrun
  | succ turns ih =>
      obtain ⟨first, middle, hp, hrest⟩ := Parser.gives_attempts_succ_iff.mp h
      have hg : Yields rules scope g s sources first middle := ⟨fuel, hp⟩
      cases first with
      | ok item rest =>
          by_cases hstuck : rest.position = s.position
          · simp only [hstuck, if_true] at hrest
            rw [Parser.gives_stall_iff] at hrest
            cases hpolicy : (middle.get s.source).config.repetition with
            | stop =>
                rw [hpolicy] at hrest
                obtain ⟨rfl, rfl⟩ := hrest
                exact ⟨_, .halted (.stopped hg hstuck hpolicy), (map_append_nil _ _).symm⟩
            | error =>
                rw [hpolicy] at hrest
                obtain ⟨rfl, rfl⟩ := hrest
                exact ⟨_, .halted (.stalled hg hstuck hpolicy), rfl⟩
          · simp only [hstuck, if_false] at hrest
            obtain ⟨behind, hbehind, rfl⟩ := ih hrest
            exact ⟨_, .moved hg hstuck hbehind, (map_cons_append _ _ _).symm⟩
      | fail failure =>
          obtain ⟨rfl, rfl⟩ := hrest
          exact ⟨_, .halted (.failed hg), (map_append_nil _ _).symm⟩
      | error failure =>
          obtain ⟨rfl, rfl⟩ := hrest
          exact ⟨_, .halted (.aborted hg), rfl⟩

/-- The attempt that ends the recursion **ends every loop that makes it**, and the items so far are
kept if the repetition succeeds. -/
theorem Halts.attempt (h : Halts rules scope g s sources value last) :
    ∃ first middle, Yields rules scope g s sources first middle ∧
      ∀ {p : Parser τ α}, (p s).Gives sources first middle → ∀ turns items,
        (Parser.attempts p (turns + 1) s items).Gives sources
          (value.map (items.reverse ++ ·)) last := by
  cases h with
  | failed hg =>
      refine ⟨_, _, hg, fun hp turns items => Parser.gives_attempts_succ_iff.mpr ?_⟩
      exact ⟨_, _, hp, map_append_nil _ _, rfl⟩
  | aborted hg =>
      refine ⟨_, _, hg, fun hp turns items => Parser.gives_attempts_succ_iff.mpr ?_⟩
      exact ⟨_, _, hp, rfl, rfl⟩
  | stopped hg hstuck hpolicy =>
      refine ⟨_, _, hg, fun hp turns items => Parser.gives_attempts_succ_iff.mpr ⟨_, _, hp, ?_⟩⟩
      simp only [hstuck, if_true]
      rw [Parser.gives_stall_iff, hpolicy]
      exact ⟨map_append_nil _ _, rfl⟩
  | stalled hg hstuck hpolicy =>
      refine ⟨_, _, hg, fun hp turns items => Parser.gives_attempts_succ_iff.mpr ⟨_, _, hp, ?_⟩⟩
      simp only [hstuck, if_true]
      rw [Parser.gives_stall_iff, hpolicy]
      exact ⟨rfl, rfl⟩

/-- The recursion is found by the loop, **with every fuel from some on** and whatever items are
there so far. -/
theorem Repeats.gives (h : Repeats rules scope g s sources value last) :
    ∃ fuel, ∀ more turns, fuel ≤ more → fuel ≤ turns → ∀ items,
      (Parser.attempts (parser rules more scope g) turns s items).Gives sources
        (value.map (items.reverse ++ ·)) last := by
  induction h with
  | halted h =>
      obtain ⟨first, middle, hg, hloop⟩ := h.attempt
      obtain ⟨fuel, hfuel⟩ := hg.eventually
      refine ⟨fuel + 1, fun more turns hmore hturns items => ?_⟩
      obtain ⟨turns, rfl⟩ : ∃ n, turns = n + 1 := ⟨turns - 1, by omega⟩
      exact hloop (hfuel more (by omega)) turns items
  | @moved s rest sources middle last item value hg hadvance htail ih =>
      obtain ⟨fuel, hfuel⟩ := hg.eventually
      obtain ⟨fuel', hfuel'⟩ := ih
      refine ⟨max fuel fuel' + 1, fun more turns hmore hturns items => ?_⟩
      obtain ⟨turns, rfl⟩ : ∃ n, turns = n + 1 := ⟨turns - 1, by omega⟩
      have hfirst := hfuel more (by omega)
      have hbehind := hfuel' more turns (by omega) (by omega) (item :: items)
      refine Parser.gives_attempts_succ_iff.mpr ⟨_, _, hfirst, ?_⟩
      simp only [hadvance, if_false]
      rw [map_cons_append]
      exact hbehind

/-- **The loop does what the recursion says.** -/
theorem yields_many_iff :
    Yields rules scope g.many s sources value last ↔
      Repeats rules scope g s sources value last := by
  have hid : ∀ o : Outcome τ (List α), o.map (([] : List α).reverse ++ ·) = o := fun o =>
    Outcome.map_id o
  rw [yields_iff_succ]
  constructor
  · rintro ⟨fuel, hfuel⟩
    have hloop : (Parser.attempts (parser rules (fuel + 1) scope g) (fuel + 1) s []).Gives sources
        value last := Parser.gives_observed_iff.mp hfuel
    obtain ⟨behind, hbehind, rfl⟩ := repeats_of_gives hloop
    rw [hid]
    exact hbehind
  · intro h
    obtain ⟨fuel, hfuel⟩ := h.gives
    have hloop := hfuel (fuel + 1) (fuel + 1) (Nat.le_succ _) (Nat.le_succ _) []
    rw [hid] at hloop
    exact ⟨fuel, Parser.gives_observed_iff.mpr hloop⟩

/-! ### The recursion unrolled -/

/-- A chain of successes comes before the items of what follows it. -/
theorem Successes.repeats {stop : Stream} {middle : Sources τ} {items : List α}
    (h : Successes rules scope g s sources items stop middle)
    (hstop : Repeats rules scope g stop middle value last) :
    Repeats rules scope g s sources (value.map (items ++ ·)) last := by
  induction h with
  | nil =>
      have hid : value.map (([] : List α) ++ ·) = value := Outcome.map_id value
      rw [hid]
      exact hstop
  | @cons s rest stop sources middle last item items hg hadvance _ ih =>
      have hmap : value.map (item :: items ++ ·) =
          (value.map (items ++ ·)).map (item :: ·) := by
        rw [Outcome.map_map]
        rfl
      rw [hmap]
      exact .moved hg hadvance (ih hstop)

/-- **The recursion is a chain of successes and a last attempt.** -/
theorem repeats_iff :
    Repeats rules scope g s sources value last ↔
      ∃ items stop middle final, Successes rules scope g s sources items stop middle ∧
        Halts rules scope g stop middle final last ∧ value = final.map (items ++ ·) := by
  constructor
  · intro h
    induction h with
    | @halted s sources last value h =>
        exact ⟨[], s, sources, value, .nil, h, (Outcome.map_id value).symm⟩
    | @moved s rest sources middle last item value hg hadvance _ ih =>
        obtain ⟨items, stop, before, final, hchain, hhalts, rfl⟩ := ih
        refine ⟨item :: items, stop, before, final, .cons hg hadvance hchain, hhalts, ?_⟩
        rw [Outcome.map_map]
        rfl
  · rintro ⟨items, stop, middle, final, hchain, hhalts, rfl⟩
    exact hchain.repeats (.halted hhalts)

/-- A repetition never fails. -/
theorem Repeats.not_fail (h : Repeats rules scope g s sources value last) :
    value.isFail = false := by
  induction h with
  | halted h => cases h <;> rfl
  | @moved _ _ _ _ _ _ value _ _ _ ih => cases value <;> first | rfl | exact ih

/-! ### The recursion and the choice -/

/-- Behind a success that advances, the repetition goes on **exactly as it does there**. -/
theorem repeats_advance_iff {item : α} {rest : Stream} {middle : Sources τ}
    (hg : Yields rules scope g s sources (.ok item rest) middle)
    (hadvance : rest.position ≠ s.position) :
    Repeats rules scope g s sources value last ↔
      ∃ tail, Repeats rules scope g rest middle tail last ∧ value = tail.map (item :: ·) := by
  constructor
  · intro h
    cases h with
    | halted h =>
        exfalso
        cases h with
        | failed hother => cases (hg.unique hother).1
        | aborted hother => cases (hg.unique hother).1
        | stopped hother hstuck =>
            obtain ⟨hvalue, -⟩ := hg.unique hother
            obtain ⟨-, rfl⟩ := Outcome.ok.inj hvalue
            exact hadvance hstuck
        | stalled hother hstuck =>
            obtain ⟨hvalue, -⟩ := hg.unique hother
            obtain ⟨-, rfl⟩ := Outcome.ok.inj hvalue
            exact hadvance hstuck
    | moved hother _ htail =>
        obtain ⟨hvalue, rfl⟩ := hg.unique hother
        obtain ⟨rfl, rfl⟩ := Outcome.ok.inj hvalue
        exact ⟨_, htail, rfl⟩
  · rintro ⟨tail, htail, rfl⟩
    exact .moved hg hadvance htail

/-- The choice between an item with a repetition behind it and nothing, told by the first
attempt. -/
theorem yields_choice_iff :
    Yields rules scope (.orElse (.map (fun p => p.1 :: p.2) (.pair g g.many)) (.succeed []))
        s sources value last ↔
      ∃ first middle, Yields rules scope g s sources first middle ∧
        match first with
        | .ok item rest =>
          ∃ tail, Repeats rules scope g rest middle tail last ∧ value = tail.map (item :: ·)
        | .fail _ => value = .ok [] s ∧ last = middle
        | .error failure => value = .error failure ∧ last = middle := by
  simp only [yields_orElse_iff, yields_map_iff, yields_pair_iff, yields_many_iff,
    yields_succeed_iff]
  constructor
  · rintro ⟨chosen, store, ⟨both, ⟨first, middle, hg, hboth⟩, rfl⟩, hchosen⟩
    refine ⟨first, middle, hg, ?_⟩
    cases first with
    | ok item rest =>
        obtain ⟨tail, htail, rfl⟩ := hboth
        cases tail with
        | ok items stop =>
            obtain ⟨rfl, rfl⟩ := hchosen
            exact ⟨_, htail, rfl⟩
        | fail failure => cases htail.not_fail
        | error failure =>
            obtain ⟨rfl, rfl⟩ := hchosen
            exact ⟨_, htail, rfl⟩
    | fail failure =>
        obtain ⟨rfl, rfl⟩ := hboth
        exact hchosen
    | error failure =>
        obtain ⟨rfl, rfl⟩ := hboth
        exact hchosen
  · rintro ⟨first, middle, hg, hrest⟩
    cases first with
    | ok item rest =>
        obtain ⟨tail, htail, rfl⟩ := hrest
        refine ⟨_, last, ⟨_, ⟨_, middle, hg, tail, htail, rfl⟩, rfl⟩, ?_⟩
        cases tail with
        | ok items stop => exact ⟨rfl, rfl⟩
        | fail failure => cases htail.not_fail
        | error failure => exact ⟨rfl, rfl⟩
    | fail failure => exact ⟨_, middle, ⟨_, ⟨_, middle, hg, rfl, rfl⟩, rfl⟩, hrest⟩
    | error failure => exact ⟨_, middle, ⟨_, ⟨_, middle, hg, rfl, rfl⟩, rfl⟩, hrest⟩

/-- Where no success of `g` stands still, **the repetition is the choice**. -/
theorem repeats_iff_choice
    (hadvance : ∀ {item rest middle}, Yields rules scope g s sources (.ok item rest) middle →
      rest.position ≠ s.position) :
    Repeats rules scope g s sources value last ↔
      Yields rules scope (.orElse (.map (fun p => p.1 :: p.2) (.pair g g.many)) (.succeed []))
        s sources value last := by
  rw [yields_choice_iff]
  constructor
  · intro h
    cases h with
    | halted h =>
        cases h with
        | failed hg => exact ⟨_, _, hg, rfl, rfl⟩
        | aborted hg => exact ⟨_, _, hg, rfl, rfl⟩
        | stopped hg hstuck => exact absurd hstuck (hadvance hg)
        | stalled hg hstuck => exact absurd hstuck (hadvance hg)
    | moved hg _ htail => exact ⟨_, _, hg, _, htail, rfl⟩
  · rintro ⟨first, middle, hg, hrest⟩
    cases first with
    | ok item rest =>
        obtain ⟨tail, htail, rfl⟩ := hrest
        exact .moved hg (hadvance hg) htail
    | fail failure =>
        obtain ⟨rfl, rfl⟩ := hrest
        exact .halted (.failed hg)
    | error failure =>
        obtain ⟨rfl, rfl⟩ := hrest
        exact .halted (.aborted hg)

/-! ### Plain grammars -/

section

variable (hrules : rules.Plain) (hscope : scope.Plain) (hg : g.Plain)

include hrules hscope hg

/-- A plain grammar changes neither tokens nor settings, and its successes stay in the source. -/
theorem Plain.keeps_of_yields {outcome : Outcome τ α}
    (h : Yields rules scope g s sources outcome last) :
    last.token = sources.token ∧ (∀ id, (last.get id).config = (sources.get id).config) ∧
      ∀ item rest, outcome = .ok item rest → rest.source = s.source := by
  obtain ⟨fuel, events, hrun⟩ := h
  have hcourse := (hg.composed hrules fuel hscope).course hrun
  exact ⟨hcourse.token_stream, hcourse.config_eq, fun _ _ hvalue => hcourse.source_rest hvalue⟩

/-- So does a chain of successes. -/
theorem Successes.keeps {stop : Stream} {items : List α}
    (h : Successes rules scope g s sources items stop last) :
    last.token = sources.token ∧ (∀ id, (last.get id).config = (sources.get id).config) ∧
      stop.source = s.source := by
  induction h with
  | nil => exact ⟨rfl, fun _ => rfl, rfl⟩
  | cons hfirst _ _ ih =>
      obtain ⟨htoken, hconfig, hsource⟩ := ih
      obtain ⟨htoken', hconfig', hrest⟩ := hg.keeps_of_yields hrules hscope hfirst
      exact ⟨htoken.trans htoken', fun id => (hconfig id).trans (hconfig' id),
        hsource.trans (hrest _ _ rfl)⟩

/-- A plain repetition succeeds with the items of a chain of successes, and where the next attempt
fails or stalls. -/
theorem yields_many_ok_iff {items : List α} {stop : Stream} :
    Yields rules scope g.many s sources (.ok items stop) last ↔
      ∃ middle, Successes rules scope g s sources items stop middle ∧
        ((∃ failure, Yields rules scope g stop middle (.fail failure) last) ∨
          ∃ item rest, Yields rules scope g stop middle (.ok item rest) last ∧
            rest.position = stop.position ∧
            (sources.get s.source).config.repetition = .stop) := by
  rw [yields_many_iff, repeats_iff]
  constructor
  · rintro ⟨items', stop', middle, final, hchain, hhalts, hvalue⟩
    obtain ⟨-, hconfig, hsource⟩ := hchain.keeps hrules hscope hg
    cases hhalts with
    | failed h =>
        rw [map_append_nil] at hvalue
        obtain ⟨rfl, rfl⟩ := Outcome.ok.inj hvalue
        exact ⟨middle, hchain, .inl ⟨_, h⟩⟩
    | aborted h => cases hvalue
    | stopped h hstuck hpolicy =>
        rw [map_append_nil] at hvalue
        obtain ⟨rfl, rfl⟩ := Outcome.ok.inj hvalue
        obtain ⟨-, hconfig', -⟩ := hg.keeps_of_yields hrules hscope h
        rw [hconfig', hconfig, hsource] at hpolicy
        exact ⟨middle, hchain, .inr ⟨_, _, h, hstuck, hpolicy⟩⟩
    | stalled h hstuck hpolicy => cases hvalue
  · rintro ⟨middle, hchain, hlast⟩
    obtain ⟨-, hconfig, hsource⟩ := hchain.keeps hrules hscope hg
    refine ⟨items, stop, middle, .ok [] stop, hchain, ?_, (map_append_nil _ _).symm⟩
    rcases hlast with ⟨failure, h⟩ | ⟨item, rest, h, hstuck, hpolicy⟩
    · exact .failed h
    · obtain ⟨-, hconfig', -⟩ := hg.keeps_of_yields hrules hscope h
      refine .stopped h hstuck ?_
      rw [hconfig', hconfig, hsource]
      exact hpolicy

/-- A plain repetition is aborted by an attempt behind a chain of successes, or by its stall. -/
theorem yields_many_error_iff {failure : Failure τ} :
    Yields rules scope g.many s sources (.error failure) last ↔
      ∃ items stop middle, Successes rules scope g s sources items stop middle ∧
        (Yields rules scope g stop middle (.error failure) last ∨
          ∃ item rest after, Yields rules scope g stop middle (.ok item rest) after ∧
            rest.position = stop.position ∧
            (sources.get s.source).config.repetition = .error ∧
            failure = ⟨Message.noProgress, sources.token stop, stop.position⟩ ∧
            last = after.look stop) := by
  rw [yields_many_iff, repeats_iff]
  constructor
  · rintro ⟨items, stop, middle, final, hchain, hhalts, hvalue⟩
    obtain ⟨htoken, hconfig, hsource⟩ := hchain.keeps hrules hscope hg
    refine ⟨items, stop, middle, hchain, ?_⟩
    cases hhalts with
    | failed h => cases hvalue
    | aborted h =>
        obtain rfl := Outcome.error.inj hvalue
        exact .inl h
    | stopped h hstuck hpolicy => cases hvalue
    | stalled h hstuck hpolicy =>
        have hfailure := Outcome.error.inj hvalue
        obtain ⟨htoken', hconfig', -⟩ := hg.keeps_of_yields hrules hscope h
        rw [htoken', htoken] at hfailure
        rw [hconfig', hconfig, hsource] at hpolicy
        exact .inr ⟨_, _, _, h, hstuck, hpolicy, hfailure, rfl⟩
  · rintro ⟨items, stop, middle, hchain, hlast⟩
    obtain ⟨htoken, hconfig, hsource⟩ := hchain.keeps hrules hscope hg
    refine ⟨items, stop, middle, .error failure, hchain, ?_, rfl⟩
    rcases hlast with h | ⟨item, rest, after, h, hstuck, hpolicy, rfl, rfl⟩
    · exact .aborted h
    · obtain ⟨htoken', hconfig', -⟩ := hg.keeps_of_yields hrules hscope h
      rw [← htoken, ← htoken']
      refine .stalled h hstuck ?_
      rw [hconfig', hconfig, hsource]
      exact hpolicy

end

/-- **What a repetition of `g` does at `s`**, told by what `g` does there, and what follows for
repetitions as a whole. -/
structure RepetitionLaws (rules : Rules σ τ) (scope : Scope σ τ) (g : Grammar σ τ α)
    (s : Stream) (sources : Sources τ) : Prop where
  /-- Where an attempt fails, there are no items, and nothing is consumed. -/
  fail : ∀ {failure last}, Yields rules scope g s sources (.fail failure) last →
    Yields rules scope g.many s sources (.ok [] s) last
  /-- An error of an attempt is the error of the repetition. -/
  error : ∀ {failure last}, Yields rules scope g s sources (.error failure) last →
    Yields rules scope g.many s sources (.error failure) last
  /-- Behind a success that advances, the repetition there, with one more item in front. -/
  advance : ∀ {item rest middle}, Yields rules scope g s sources (.ok item rest) middle →
    rest.position ≠ s.position → ∀ {value last},
      Yields rules scope g.many s sources value last ↔
        ∃ tail, Yields rules scope g.many rest middle tail last ∧ value = tail.map (item :: ·)
  /-- A success that does not advance is no item. -/
  stop : ∀ {item rest last}, Yields rules scope g s sources (.ok item rest) last →
    rest.position = s.position → (sources.get s.source).config.repetition = .stop →
      Yields rules scope g.many s sources (.ok [] s) last
  /-- A success that does not advance is an error, where the settings say so. -/
  stall : ∀ {item rest middle}, Yields rules scope g s sources (.ok item rest) middle →
    rest.position = s.position → (sources.get s.source).config.repetition = .error →
      Yields rules scope g.many s sources
        (.error ⟨Message.noProgress, sources.token s, s.position⟩) (middle.look s)
  /-- A repetition never fails. -/
  not_fail : ∀ failure last, ¬ Yields rules scope g.many s sources (.fail failure) last
  /-- The items are those of the successes that advance, in order, and the rest of the input is
  that of the attempt that failed or stalled. -/
  items_iff : ∀ items stop last, Yields rules scope g.many s sources (.ok items stop) last ↔
    ∃ middle, Successes rules scope g s sources items stop middle ∧
      ((∃ failure, Yields rules scope g stop middle (.fail failure) last) ∨
        ∃ item rest, Yields rules scope g stop middle (.ok item rest) last ∧
          rest.position = stop.position ∧ (sources.get s.source).config.repetition = .stop)
  /-- An error is that of the attempt behind the successes that advance, or of its stall. -/
  error_iff : ∀ failure last, Yields rules scope g.many s sources (.error failure) last ↔
    ∃ items stop middle, Successes rules scope g s sources items stop middle ∧
      (Yields rules scope g stop middle (.error failure) last ∨
        ∃ item rest after, Yields rules scope g stop middle (.ok item rest) after ∧
          rest.position = stop.position ∧ (sources.get s.source).config.repetition = .error ∧
          failure = ⟨Message.noProgress, sources.token stop, stop.position⟩ ∧
          last = after.look stop)
  /-- Where every success advances, the repetition is the choice between an item with a
  repetition behind it and nothing, and leaves the same memory of every source. -/
  choice : (∀ {item rest middle}, Yields rules scope g s sources (.ok item rest) middle →
      rest.position ≠ s.position) → ∀ value last,
    Yields rules scope g.many s sources value last ↔
      Yields rules scope (.orElse (.map (fun p => p.1 :: p.2) (.pair g g.many)) (.succeed []))
        s sources value last

/-- **A repetition is its recursive definition**, at every position and on every store. -/
theorem repetition_laws (hrules : rules.Plain) (hscope : scope.Plain) (hg : g.Plain)
    (s : Stream) (sources : Sources τ) : RepetitionLaws rules scope g s sources where
  fail h := yields_many_iff.mpr (.halted (.failed h))
  error h := yields_many_iff.mpr (.halted (.aborted h))
  advance h hadvance := by
    simp only [yields_many_iff]
    exact repeats_advance_iff h hadvance
  stop h hstuck hpolicy := by
    obtain ⟨-, hconfig, -⟩ := hg.keeps_of_yields hrules hscope h
    refine yields_many_iff.mpr (.halted (.stopped h hstuck ?_))
    rw [hconfig]
    exact hpolicy
  stall h hstuck hpolicy := by
    obtain ⟨htoken, hconfig, -⟩ := hg.keeps_of_yields hrules hscope h
    rw [← htoken]
    refine yields_many_iff.mpr (.halted (.stalled h hstuck ?_))
    rw [hconfig]
    exact hpolicy
  not_fail failure last h := by cases (yields_many_iff.mp h).not_fail
  items_iff items stop last := yields_many_ok_iff hrules hscope hg
  error_iff failure last := yields_many_error_iff hrules hscope hg
  choice hadvance value last := by
    rw [yields_many_iff]
    exact repeats_iff_choice hadvance

end Grammar

/-- Behind a pair of brackets the next attempt stands still, which ends the repetition with one
item or, where the settings say so, aborts it at the end of input. At the pair it is the choice. -/
theorem Brackets.repetition_laws_pair :
    (∃ last,
      Grammar.Yields rules .empty grammar.many .start (store none [true, false])
        (.ok [1] ⟨0, 2⟩) last ∧
      Grammar.Yields rules .empty
        (.orElse (.map (fun p => p.1 :: p.2) (.pair grammar grammar.many)) (.succeed []))
        .start (store none [true, false]) (.ok [1] ⟨0, 2⟩) last) ∧
    ∃ last,
      Grammar.Yields rules .empty grammar.many .start
        (.single (.buffered [true, false] { repetition := .error }))
        (.error ⟨Message.noProgress, none, 2⟩) last := by
  -- A pair, and then nothing at the end of input, under all settings here.
  have hattempts : ∀ config ∈ [{ maxDepth := none }, ({ repetition := .error } : Config)],
      ∃ middle last,
        Grammar.Yields rules .empty grammar .start (.single (.buffered [true, false] config))
          (.ok 1 ⟨0, 2⟩) middle ∧
        Grammar.Yields rules .empty grammar ⟨0, 2⟩ middle (.ok 0 ⟨0, 2⟩) last := by
    intro config hconfig
    have hrun : ((Grammar.parser rules 5 .empty grammar .start).run
        (.single (.buffered [true, false] config))).bind (fun first =>
          ((Grammar.parser rules 5 .empty grammar ⟨0, 2⟩).run first.sources).map fun second =>
            (first.value, second.value)) = some (.ok 1 ⟨0, 2⟩, .ok 0 ⟨0, 2⟩) := by
      revert config
      decide +kernel
    obtain ⟨⟨_, middle, _⟩, hfirst, hrest⟩ := Option.bind_eq_some_iff.mp hrun
    obtain ⟨⟨_, last, _⟩, hsecond, hvalues⟩ := Option.map_eq_some_iff.mp hrest
    obtain ⟨rfl, rfl⟩ := Prod.mk.inj hvalues
    exact ⟨middle, last, ⟨5, _, hfirst⟩, 5, _, hsecond⟩
  constructor
  · obtain ⟨middle, last, hpair, hnothing⟩ := hattempts { maxDepth := none } (by simp)
    obtain ⟨-, hconfig, -⟩ := plain_grammar.keeps_of_yields plain_rules plain_scope hpair
    have hstop := (Grammar.repetition_laws plain_rules plain_scope plain_grammar
      ⟨0, 2⟩ middle).stop hnothing rfl (by rw [hconfig]; rfl)
    have hlaws := Grammar.repetition_laws plain_rules plain_scope plain_grammar
      .start (store none [true, false])
    have hmany := (hlaws.advance hpair (by decide)).mpr ⟨_, hstop, rfl⟩
    refine ⟨last, hmany, (hlaws.choice (fun h => ?_) _ _).mp hmany⟩
    obtain ⟨-, rfl⟩ := Outcome.ok.inj (hpair.unique h).1
    decide
  · obtain ⟨middle, last, hpair, hnothing⟩ := hattempts { repetition := .error } (by simp)
    obtain ⟨htoken, hconfig, -⟩ := plain_grammar.keeps_of_yields plain_rules plain_scope hpair
    have hstall := (Grammar.repetition_laws plain_rules plain_scope plain_grammar
      ⟨0, 2⟩ middle).stall hnothing rfl (by rw [hconfig]; rfl)
    rw [htoken] at hstall
    exact ⟨_, ((Grammar.repetition_laws plain_rules plain_scope plain_grammar .start _).advance
      hpair (by decide)).mpr ⟨_, hstall, rfl⟩⟩

end Backtrack
