import Backtrack.Grammar.Derived
import Backtrack.Proofs.Repetition

/-!
# Repetitions and Detours

A repetition asks of each success whether it advanced, by comparing the position that the attempt
was given with the one that it gave back. The two are numbers. A parser put together from
combinators stays in its source, and there equal positions are equal streams. But a parser may go
on in another source, as a parser with computations of its own does, and come out at the position
with the number that it began with. It consumed what it liked and returned a stream unlike the one
it was given, and the repetition takes it for one that stood still: the value is dropped and
the input that the attempt consumed is offered again, or the parse is aborted.

The loop is described for arbitrary parsers, with the test of progress as a parameter. It does what
the description says for the comparison of positions. It does what the description says for
the equality of streams as long as no attempt makes such a detour, and where one does, it ends.

## Main definitions

* `Stream.SamePosition`: the comparison that the loop makes.
* `Parser.Repeats`: a repetition of an arbitrary parser, for any test of progress.
* `Parser.Detours`: an attempt comes out at the position that it began with, in another source.

## Main results

* `Parser.gives_many_iff`: the loop compares positions.
* `Parser.many_up_to_detours`: where it compares streams, and what it does where it does not.
* `Parser.Composed.not_detours`: parsers made of combinators make no detours.
-/

namespace Backtrack

variable {τ α : Type}

/-- Two streams at **the same position**, of whatever sources. -/
def Stream.SamePosition (s rest : Stream) : Prop := rest.position = s.position

/-- Equal streams are at the same position. -/
theorem Stream.SamePosition.of_eq {s rest : Stream} (h : s = rest) : s.SamePosition rest :=
  congrArg Stream.position h.symm

namespace Parser

/-! ### Repetitions of arbitrary parsers -/

section

variable (still : Stream → Stream → Prop) (p : Parser τ α)

/-- **Attempts that succeed and do not stand still**, each run where the one before it ended, with
their values in order. -/
inductive Attempts : Stream → Sources τ → List α → Stream → Sources τ → Prop where
  | nil {s : Stream} {sources : Sources τ} : Attempts s sources [] s sources
  | cons {s rest stop : Stream} {sources middle last : Sources τ} {item : α} {items : List α} :
      (p s).Gives sources (.ok item rest) middle → ¬ still s rest →
      Attempts rest middle items stop last → Attempts s sources (item :: items) stop last

/-- What becomes of a repetition with `items` so far by **the attempt that ends it** at `stop`,
which has this outcome and leaves the store `after`. -/
inductive Concludes (items : List α) (stop : Stream) :
    Outcome τ α → Sources τ → Outcome τ (List α) → Sources τ → Prop where
  | failed (failure : Failure τ) (after : Sources τ) :
      Concludes items stop (.fail failure) after (.ok items stop) after
  | aborted (failure : Failure τ) (after : Sources τ) :
      Concludes items stop (.error failure) after (.error failure) after
  | stopped {item : α} {rest : Stream} {after : Sources τ} :
      still stop rest → (after.get stop.source).config.repetition = .stop →
      Concludes items stop (.ok item rest) after (.ok items stop) after
  | stalled {item : α} {rest : Stream} {after : Sources τ} :
      still stop rest → (after.get stop.source).config.repetition = .error →
      Concludes items stop (.ok item rest) after
        (.error ⟨Message.noProgress, after.token stop, stop.position⟩) (after.look stop)

/-- **A repetition of an arbitrary parser**: attempts that do not stand still, and one that ends
it. -/
def Repeats (s : Stream) (sources : Sources τ) (value : Outcome τ (List α))
    (last : Sources τ) : Prop :=
  ∃ items stop middle first after, Attempts still p s sources items stop middle ∧
    (p stop).Gives middle first after ∧ Concludes still items stop first after value last

end

variable {still : Stream → Stream → Prop} {p : Parser τ α} {s : Stream}
  {sources last : Sources τ} {value : Outcome τ (List α)}

/-! ### The loop -/

/-- A loop that ends made attempts, behind the items that it had, and one that ended it. -/
theorem attempts_of_gives {turns : Nat} {before : List α}
    (h : (attempts p turns s before).Gives sources value last) :
    ∃ items stop middle first after, Attempts Stream.SamePosition p s sources items stop middle ∧
      (p stop).Gives middle first after ∧
      Concludes Stream.SamePosition (before.reverse ++ items) stop first after value last := by
  induction turns generalizing s before sources with
  | zero =>
      obtain ⟨events, hrun⟩ := h
      cases hrun
  | succ turns ih =>
      obtain ⟨first, middle, hfirst, hrest⟩ := gives_attempts_succ_iff.mp h
      cases first with
      | ok item rest =>
          by_cases hstuck : rest.position = s.position
          · simp only [hstuck, if_true] at hrest
            rw [gives_stall_iff] at hrest
            refine ⟨[], s, sources, _, middle, .nil, hfirst, ?_⟩
            rw [List.append_nil]
            cases hpolicy : (middle.get s.source).config.repetition with
            | stop =>
                rw [hpolicy] at hrest
                obtain ⟨rfl, rfl⟩ := hrest
                exact .stopped hstuck hpolicy
            | error =>
                rw [hpolicy] at hrest
                obtain ⟨rfl, rfl⟩ := hrest
                exact .stalled hstuck hpolicy
          · simp only [hstuck, if_false] at hrest
            obtain ⟨items, stop, store, final, after, hchain, hfinal, hend⟩ := ih hrest
            rw [List.reverse_cons, List.append_assoc] at hend
            exact ⟨item :: items, stop, store, final, after, .cons hfirst hstuck hchain, hfinal,
              hend⟩
      | fail failure =>
          obtain ⟨rfl, rfl⟩ := hrest
          refine ⟨[], s, sources, _, _, .nil, hfirst, ?_⟩
          rw [List.append_nil]
          exact .failed failure _
      | error failure =>
          obtain ⟨rfl, rfl⟩ := hrest
          exact ⟨[], s, sources, _, _, .nil, hfirst, .aborted failure _⟩

/-- The attempt that ends the repetition ends a loop that has a turn for it. -/
theorem Concludes.gives {items : List α} {first : Outcome τ α} {middle : Sources τ}
    (h : Concludes Stream.SamePosition items.reverse s first middle value last)
    (hfirst : (p s).Gives sources first middle) :
    (attempts p 1 s items).Gives sources value last := by
  refine gives_attempts_succ_iff.mpr ⟨first, middle, hfirst, ?_⟩
  cases h with
  | failed failure => exact ⟨rfl, rfl⟩
  | aborted failure => exact ⟨rfl, rfl⟩
  | @stopped item rest _ hstuck hpolicy =>
      have hposition : rest.position = s.position := hstuck
      simp only [hposition, if_true]
      rw [gives_stall_iff, hpolicy]
      exact ⟨rfl, rfl⟩
  | @stalled item rest _ hstuck hpolicy =>
      have hposition : rest.position = s.position := hstuck
      simp only [hposition, if_true]
      rw [gives_stall_iff, hpolicy]
      exact ⟨rfl, rfl⟩

/-- Attempts and one that ends the repetition are made by **a loop with enough turns**. -/
theorem Attempts.gives {items : List α} {stop : Stream} {middle after : Sources τ}
    {first : Outcome τ α} (h : Attempts Stream.SamePosition p s sources items stop middle)
    (hfirst : (p stop).Gives middle first after) {before : List α}
    (hend : Concludes Stream.SamePosition (before.reverse ++ items) stop first after value last) :
    ∃ turns, (attempts p turns s before).Gives sources value last := by
  induction h generalizing before with
  | nil =>
      rw [List.append_nil] at hend
      exact ⟨1, hend.gives hfirst⟩
  | @cons s rest stop _ _ _ item items hitem hadvance _ ih =>
      have hposition : rest.position ≠ s.position := hadvance
      have hlater : Concludes Stream.SamePosition ((item :: before).reverse ++ items) stop first
          after value last := by
        rw [List.reverse_cons, List.append_assoc]
        exact hend
      obtain ⟨turns, hloop⟩ := ih hfirst hlater
      refine ⟨turns + 1, gives_attempts_succ_iff.mpr ⟨_, _, hitem, ?_⟩⟩
      simp only [hposition, if_false]
      exact hloop

/-- **The loop compares positions.** -/
theorem gives_many_iff :
    (∃ turns, (many turns p s).Gives sources value last) ↔
      Repeats Stream.SamePosition p s sources value last := by
  constructor
  · rintro ⟨turns, h⟩
    exact attempts_of_gives h
  · rintro ⟨items, stop, middle, first, after, hchain, hfirst, hend⟩
    exact hchain.gives hfirst hend

/-! ### Detours -/

/-- An attempt that makes **a detour**: it succeeds at the position with the number that it began
with, on a stream unlike the one it was given. -/
structure Detour (p : Parser τ α) (stop : Stream) (middle : Sources τ) (item : α) (rest : Stream)
    (after : Sources τ) : Prop where
  gives : (p stop).Gives middle (.ok item rest) after
  position_eq : rest.position = stop.position
  ne : rest ≠ stop

/-- A repetition that **comes to a detour**. -/
def Detours (p : Parser τ α) (s : Stream) (sources : Sources τ) : Prop :=
  ∃ items stop middle item rest after,
    Attempts Stream.SamePosition p s sources items stop middle ∧
      Detour p stop middle item rest after

/-- A detour behind a success that advances. -/
theorem Detours.cons {item : α} {rest : Stream} {middle : Sources τ}
    (hitem : (p s).Gives sources (.ok item rest) middle) (hadvance : rest.position ≠ s.position)
    (h : Detours p rest middle) : Detours p s sources := by
  obtain ⟨items, stop, store, last, final, after, hchain, hdetour⟩ := h
  exact ⟨item :: items, stop, store, last, final, after, .cons hitem hadvance hchain, hdetour⟩

/-- Attempts that do not stand still by one test do not by a stricter one. -/
theorem Attempts.mono {strict : Stream → Stream → Prop}
    (hstrict : ∀ {s rest}, strict s rest → still s rest) {items : List α} {stop : Stream}
    {middle : Sources τ} (h : Attempts still p s sources items stop middle) :
    Attempts strict p s sources items stop middle := by
  induction h with
  | nil => exact .nil
  | cons hitem hmoved _ ih => exact .cons hitem (fun hsame => hmoved (hstrict hsame)) ih

/-- Without a detour, attempts that come out at another stream come out at another position. -/
theorem Attempts.advance {items : List α} {stop : Stream} {middle : Sources τ}
    (h : Attempts Eq p s sources items stop middle) (hnone : ¬ Detours p s sources) :
    Attempts Stream.SamePosition p s sources items stop middle ∧ ¬ Detours p stop middle := by
  induction h with
  | nil => exact ⟨.nil, hnone⟩
  | @cons s rest stop sources middle _ item items hitem hmoved _ ih =>
      have hadvance : rest.position ≠ s.position := fun hposition =>
        hnone ⟨[], s, sources, item, rest, middle, .nil, hitem, hposition, Ne.symm hmoved⟩
      obtain ⟨hchain, hlast⟩ := ih fun hdetour => hnone (hdetour.cons hitem hadvance)
      exact ⟨.cons hitem hadvance hchain, hlast⟩

/-- What ends a repetition by one test ends it by another that agrees about this attempt. -/
theorem Concludes.congr {test : Stream → Stream → Prop} {items : List α} {stop : Stream}
    {first : Outcome τ α} {after : Sources τ}
    (htest : ∀ item rest, first = .ok item rest → still stop rest → test stop rest)
    (h : Concludes still items stop first after value last) :
    Concludes test items stop first after value last := by
  cases h with
  | failed failure => exact .failed failure _
  | aborted failure => exact .aborted failure _
  | stopped hstill hpolicy => exact .stopped (htest _ _ rfl hstill) hpolicy
  | stalled hstill hpolicy => exact .stalled (htest _ _ rfl hstill) hpolicy

/-- **Without a detour, positions tell what streams tell.** -/
theorem repeats_iff_of_not_detours (hnone : ¬ Detours p s sources) :
    Repeats Stream.SamePosition p s sources value last ↔ Repeats Eq p s sources value last := by
  constructor
  · rintro ⟨items, stop, middle, first, after, hchain, hfirst, hend⟩
    have hchain' : Attempts Eq p s sources items stop middle :=
      hchain.mono Stream.SamePosition.of_eq
    refine ⟨items, stop, middle, first, after, hchain', hfirst,
      hend.congr fun item rest hok hposition => ?_⟩
    -- The attempt that ends the repetition makes no detour either.
    refine Classical.byContradiction fun hne => ?_
    subst hok
    exact hnone ⟨items, stop, middle, item, rest, after, hchain, hfirst, hposition, Ne.symm hne⟩
  · rintro ⟨items, stop, middle, first, after, hchain, hfirst, hend⟩
    obtain ⟨hchain', -⟩ := hchain.advance hnone
    exact ⟨items, stop, middle, first, after, hchain', hfirst,
      hend.congr fun item rest _ hsame => .of_eq hsame⟩

/-- **Repetitions of arbitrary parsers.** The loop ends with what comes out if an attempt that
comes back to its position counts as one that stands still. As long as no attempt makes a detour
this is what comes out if only an attempt that returns its stream counts so. At a detour the
repetition ends, or is aborted, though the attempt returned another stream. -/
theorem many_up_to_detours (p : Parser τ α) (s : Stream) (sources : Sources τ) :
    (∀ value last, (∃ turns, (many turns p s).Gives sources value last) ↔
      Repeats Stream.SamePosition p s sources value last) ∧
    (¬ Detours p s sources → ∀ value last,
      (∃ turns, (many turns p s).Gives sources value last) ↔ Repeats Eq p s sources value last) ∧
    ∀ {items stop middle item rest after},
      Attempts Stream.SamePosition p s sources items stop middle →
      Detour p stop middle item rest after →
        ((after.get stop.source).config.repetition = .stop →
          ∃ turns, (many turns p s).Gives sources (.ok items stop) after) ∧
        ((after.get stop.source).config.repetition = .error →
          ∃ turns, (many turns p s).Gives sources
            (.error ⟨Message.noProgress, after.token stop, stop.position⟩) (after.look stop)) := by
  refine ⟨fun value last => gives_many_iff, fun hnone value last => ?_, ?_⟩
  · rw [gives_many_iff, repeats_iff_of_not_detours hnone]
  · intro items stop middle item rest after hchain hdetour
    constructor
    · intro hpolicy
      exact gives_many_iff.mpr
        ⟨items, stop, middle, _, after, hchain, hdetour.gives,
          .stopped hdetour.position_eq hpolicy⟩
    · intro hpolicy
      exact gives_many_iff.mpr
        ⟨items, stop, middle, _, after, hchain, hdetour.gives,
          .stalled hdetour.position_eq hpolicy⟩

/-- **A parser made of combinators makes no detours**: it stays in its source. -/
theorem Composed.not_detours [Quote τ] {p : Parser τ α} (hp : Composed p) (s : Stream)
    (sources : Sources τ) : ¬ Detours p s sources := by
  rintro ⟨items, stop, middle, item, rest, after, -, ⟨events, hrun⟩, hposition, hne⟩
  have hsource : rest.source = stop.source := (hp.course hrun).source_rest rfl
  obtain ⟨source, position⟩ := rest
  obtain rfl : source = stop.source := hsource
  obtain rfl : position = stop.position := hposition
  exact hne rfl

end Parser

namespace Brackets

/-- Consumes a bracket and goes on in a source without any. -/
def detour : Grammar names Bool Unit := .keepRight (.anyToken "a bracket") (.splice [])

/-- Consumes a bracket. -/
def bracket : Grammar names Bool Bool := .anyToken "a bracket"

/-- The attempt at a bracket makes a detour: it comes back to position zero, of another source. -/
theorem detour_bracket : ∃ after,
    Parser.Detour (Grammar.parser rules 1 .empty detour) .start (store none [true]) () ⟨1, 0⟩
      after ∧ (after.get 0).config.repetition = .stop := by
  have hrun : ((Grammar.parser rules 1 .empty detour .start).run (store none [true])).map
      (fun step => (step.value, (step.sources.get 0).config.repetition)) =
        some (.ok () ⟨1, 0⟩, .stop) := by decide +kernel
  obtain ⟨⟨_, after, events⟩, hstep, hseen⟩ := Option.map_eq_some_iff.mp hrun
  obtain ⟨rfl, hpolicy⟩ := Prod.mk.inj hseen
  exact ⟨after, ⟨⟨events, hstep⟩, rfl, by decide⟩, hpolicy⟩

/-- At the detour the repetition ends without an item, and where brackets are just consumed there
is one item. -/
theorem many_up_to_detours_bracket :
    (∃ turns last, (Parser.many turns (Grammar.parser rules 1 .empty detour) .start).Gives
      (store none [true]) (.ok [] .start) last) ∧
    ∃ last, Parser.Repeats Eq (Grammar.parser rules 1 .empty bracket) .start (store none [true])
      (.ok [true] ⟨0, 1⟩) last := by
  constructor
  · obtain ⟨after, hdetour, hpolicy⟩ := detour_bracket
    obtain ⟨-, -, hends⟩ :=
      Parser.many_up_to_detours (Grammar.parser rules 1 .empty detour) .start (store none [true])
    obtain ⟨turns, hmany⟩ := (hends .nil hdetour).1 hpolicy
    exact ⟨turns, after, hmany⟩
  · have hbracket : bracket.Plain := trivial
    have hnone := (hbracket.composed plain_rules 1 plain_scope).not_detours .start
      (store none [true])
    obtain ⟨-, hstreams, -⟩ :=
      Parser.many_up_to_detours (Grammar.parser rules 1 .empty bracket) .start (store none [true])
    have hrun : ((Parser.many 2 (Grammar.parser rules 1 .empty bracket) .start).run
        (store none [true])).map Step.value = some (.ok [true] ⟨0, 1⟩) := by decide +kernel
    obtain ⟨⟨_, last, events⟩, hstep, rfl⟩ := Option.map_eq_some_iff.mp hrun
    exact ⟨last, (hstreams hnone _ _).mp ⟨2, events, hstep⟩⟩

/-- **A consumed bracket is lost at a detour.** Compared by streams, the attempt did not stand
still: its value is an item, and the repetition goes on in the other source. The loop ends without
the item and offers the bracket again. -/
theorem bracket_lost :
    (∃ last, Parser.Repeats Eq (Grammar.parser rules 1 .empty detour) .start (store none [true])
      (.ok [()] ⟨1, 0⟩) last) ∧
    (∃ last, (Parser.many 2 (Grammar.parser rules 1 .empty detour) .start).Gives
      (store none [true]) (.ok [] .start) last) ∧
    ∀ last, ¬ Parser.Repeats Eq (Grammar.parser rules 1 .empty detour) .start (store none [true])
      (.ok [] .start) last := by
  obtain ⟨after, hdetour, -⟩ := detour_bracket
  refine ⟨?_, ?_, ?_⟩
  · have hrun : ((Grammar.parser rules 1 .empty detour .start).run (store none [true])).bind
        (fun first => ((Grammar.parser rules 1 .empty detour ⟨1, 0⟩).run first.sources).map
          fun second => (first.value, second.value)) =
        some (.ok () ⟨1, 0⟩,
          .fail ⟨"unexpected end of input; expected a bracket", none, 0⟩) := by decide +kernel
    obtain ⟨⟨_, middle, before⟩, hfirst, hrest⟩ := Option.bind_eq_some_iff.mp hrun
    obtain ⟨⟨_, last, events⟩, hsecond, hvalues⟩ := Option.map_eq_some_iff.mp hrest
    obtain ⟨rfl, rfl⟩ := Prod.mk.inj hvalues
    exact ⟨last, [()], ⟨1, 0⟩, middle, _, last, .cons ⟨before, hfirst⟩ (by decide) .nil,
      ⟨events, hsecond⟩, .failed _ _⟩
  · have hrun : ((Parser.many 2 (Grammar.parser rules 1 .empty detour) .start).run
        (store none [true])).map Step.value = some (.ok [] .start) := by decide +kernel
    obtain ⟨⟨_, last, events⟩, hstep, rfl⟩ := Option.map_eq_some_iff.mp hrun
    exact ⟨last, events, hstep⟩
  · rintro last ⟨items, stop, middle, first, store, hchain, hfirst, hend⟩
    -- Without an item the first attempt is the last one, and it is the detour.
    cases hend with
    | failed =>
        cases hchain with
        | nil => cases (hfirst.unique hdetour.gives).1
    | stopped hsame =>
        cases hchain with
        | nil =>
            obtain ⟨-, rfl⟩ := Outcome.ok.inj (hfirst.unique hdetour.gives).1
            exact hdetour.ne hsame.symm

end Brackets

end Backtrack
