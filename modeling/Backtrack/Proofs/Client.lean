import Backtrack.Proofs.Lockstep

/-!
# Clients of a Source

A client uses one source: it holds streams over it, inspects them, moves them, copies them
and runs parsers on them, in any order and as often as it likes, and may let every answer
decide what to do next. What a client learns depends on the source only through its tokens,
its settings and its counter. How the tokens are kept, and what was done to the source
before, makes no difference.

## Main definitions

* `Client`: the clients, by what they do first.
* `Client.serve`: the computation that answers a client.
* `Step.report`: what is seen of a computation from outside the store.

## Main results

* `Sources.Agree.parse`: equal outcomes and events of a parse on stores that agree.
* `Client.report_serve`: equal answers on stores that agree.
-/

namespace Backtrack

/-- A **client** of a source, who holds streams under numbers and in the end says something of
type `β`. -/
inductive Client (σ : Signature) (τ β : Type) : Type 1 where
  /-- Ends with a final word. -/
  | done (word : β)
  /-- Asks for the token of a stream. -/
  | head (held : Nat) (next : Option τ → Client σ τ β)
  /-- Asks whether the input is over at a stream. -/
  | isEnd (held : Nat) (next : Bool → Client σ τ β)
  /-- Asks for the position of a stream. -/
  | position (held : Nat) (next : Nat → Client σ τ β)
  /-- Asks for the text of a stream. -/
  | display (held : Nat) (next : String → Client σ τ β)
  /-- Holds the tail of a stream. -/
  | tail (held goal : Nat) (next : Client σ τ β)
  /-- Holds a copy of a stream. -/
  | clone (held goal : Nat) (next : Client σ τ β)
  /-- Runs a grammar on a stream, and after a success holds the rest. -/
  | parse {α : Type} (held goal : Nat) (scope : Scope σ τ) (g : Grammar σ τ α)
      (next : Outcome τ α → Client σ τ β)

/-- What is seen of a computation **from outside the store**: its result and what happened. -/
def Step.report {τ α : Type} (step : Step τ α) : α × List (Event τ) :=
  (step.value, step.events)

namespace Client

variable {σ : Signature} {τ β : Type}

/-- The streams held after `s` has been put under the number `goal`. -/
def hold (streams : Nat → Stream) (goal : Nat) (s : Stream) : Nat → Stream :=
  fun number => if number = goal then s else streams number

/-- A client who runs **plain grammars** only. -/
def Plain : Client σ τ β → Prop
  | .done _ => True
  | .head _ next => ∀ answer, (next answer).Plain
  | .isEnd _ next => ∀ answer, (next answer).Plain
  | .position _ next => ∀ answer, (next answer).Plain
  | .display _ next => ∀ answer, (next answer).Plain
  | .tail _ _ next => next.Plain
  | .clone _ _ next => next.Plain
  | .parse _ _ scope g next => scope.Plain ∧ g.Plain ∧ ∀ answer, (next answer).Plain

/-- **Answers a client** who holds the given streams. -/
def serve [Quote τ] [ToString τ] (rules : Rules σ τ) (fuel : Nat) :
    Client σ τ β → (Nat → Stream) → Run τ β
  | .done word, _ => return word
  | .head held next, streams => do
    let token ← (streams held).head.toRun
    (next token).serve rules fuel streams
  | .isEnd held next, streams => do
    let ended ← (streams held).isEnd.toRun
    (next ended).serve rules fuel streams
  | .position held next, streams => (next (streams held).position).serve rules fuel streams
  | .display held next, streams => do
    let text ← (streams held).display.toRun
    (next text).serve rules fuel streams
  | .tail held goal next, streams => do
    let rest ← (streams held).tail.toRun
    next.serve rules fuel (hold streams goal rest)
  | .clone held goal next, streams => next.serve rules fuel (hold streams goal (streams held))
  | .parse held goal scope g next, streams => do
    let outcome ← Grammar.parser rules fuel scope g (streams held)
    (next outcome).serve rules fuel
      (match outcome.remaining? with
        | some rest => hold streams goal rest
        | none => streams)

end Client

/-! ### Stores that agree -/

/-- Stores whose source `id` has the same tokens, the same counter, which is within the limit, and
the same settings. -/
structure Sources.Agree {τ : Type} (id : Nat) (first second : Sources τ) : Prop where
  tolerates : Sources.Tolerates id first second
  config_eq : (first.get id).config = (second.get id).config

namespace Sources.Agree

variable {τ : Type} {id : Nat} {first second : Sources τ}

/-- A stream over the source has the same token in both. -/
theorem token (h : Sources.Agree id first second) {s : Stream} (hs : s.source = id) :
    first.token s = second.token s := by
  subst hs
  exact h.tolerates.token

/-- A look at the source leaves stores that agree. -/
theorem look (h : Sources.Agree id first second) {s : Stream} (hs : s.source = id) :
    Sources.Agree id (first.look s) (second.look s) := by
  subst hs
  obtain ⟨⟨hfirst, hsecond, htoken, hdepth, hle, htolerates⟩, hconfig⟩ := h
  have hgetFirst : (first.look s).get s.source = (first.get s.source).look s.position :=
    get_modify_self hfirst
  have hgetSecond : (second.look s).get s.source = (second.get s.source).look s.position :=
    get_modify_self hsecond
  refine ⟨⟨?_, ?_, ?_, ?_, ?_, ?_⟩, ?_⟩
  · rw [Sources.look, next_modify]
    exact hfirst
  · rw [Sources.look, next_modify]
    exact hsecond
  · rw [hgetFirst, hgetSecond, Source.token_look, Source.token_look, htoken]
  · rw [hgetFirst, hgetSecond]
    exact hdepth
  · rw [hgetSecond]
    exact hle
  · rw [hgetFirst, hgetSecond]
    exact htolerates
  · rw [hgetFirst, hgetSecond]
    exact hconfig

/-- **Stores that agree give equal parses**: none, or the same outcome and the same events, and
then stores that agree again. -/
theorem parse [Quote τ] {α : Type} {p : Parser τ α} (hp : Parser.Composed p) {s : Stream}
    (h : Sources.Agree s.source first second) :
    ((p s).run first = none ∧ (p s).run second = none) ∨
      ∃ value events last other, (p s).run first = some ⟨value, last, events⟩ ∧
        (p s).run second = some ⟨value, other, events⟩ ∧
        Sources.Agree s.source last other := by
  have hlock := hp.lockstep h.tolerates
  generalize hfirst : (p s).run first = one at hlock
  generalize hsecond : (p s).run second = two at hlock
  cases hlock with
  | exhausted => exact .inl ⟨rfl, rfl⟩
  | together value last other events =>
      have hcourse := hp.course hfirst
      have hcourse' := hp.course hsecond
      refine .inr ⟨value, events, last, other, rfl, rfl, h.tolerates.course hcourse hcourse', ?_⟩
      rw [hcourse.config_eq, hcourse'.config_eq, h.config_eq]
  | parted strict before unwinding hparts =>
      -- Settings that are the same forbid nothing that they allow.
      cases hparts with
      | refused hplace hstrict hlenient => exact absurd (h.config_eq ▸ hstrict) hlenient
      | stalled hplace hstrict hlenient =>
          rw [h.config_eq] at hlenient
          cases hstrict.symm.trans hlenient

end Sources.Agree

/-- The same events may come before what is seen. -/
theorem Step.map_report_after {τ β : Type} {first second : Option (Step τ β)}
    (h : first.map Step.report = second.map Step.report) (events : List (Event τ)) :
    (first.map (Step.after events)).map Step.report =
      (second.map (Step.after events)).map Step.report := by
  have hreport : (Step.report ∘ Step.after events : Step τ β → β × List (Event τ)) =
      (fun seen => (seen.1, events ++ seen.2)) ∘ Step.report := rfl
  rw [Option.map_map, Option.map_map, hreport, ← Option.map_map, ← Option.map_map, h]

namespace Client

variable {σ : Signature} {τ β : Type}

/-- Holding one more stream over a source, all streams are over this source. -/
theorem source_hold {streams : Nat → Stream} {id : Nat} (h : ∀ number, (streams number).source = id)
    {s : Stream} (hs : s.source = id) (goal number : Nat) :
    (hold streams goal s number).source = id := by
  unfold hold
  split
  · exact hs
  · exact h number

/-- **Stores that agree give a client the same answers**, if any, and the same happens on the
way. -/
theorem report_serve [Quote τ] [ToString τ] {rules : Rules σ τ} (hrules : rules.Plain)
    (fuel : Nat) {client : Client σ τ β} (hclient : client.Plain) {streams : Nat → Stream}
    {id : Nat} (hstreams : ∀ number, (streams number).source = id) {first second : Sources τ}
    (h : Sources.Agree id first second) :
    ((client.serve rules fuel streams).run first).map Step.report =
      ((client.serve rules fuel streams).run second).map Step.report := by
  induction client generalizing streams first second with
  | done word => rfl
  | head held next ih =>
      rw [serve, Run.run_toRun_bind, Run.run_toRun_bind, Stream.run_head, Stream.run_head,
        h.token (hstreams held)]
      exact Step.map_report_after (ih _ (hclient _) hstreams (h.look (hstreams held))) _
  | isEnd held next ih =>
      rw [serve, Run.run_toRun_bind, Run.run_toRun_bind, Stream.run_isEnd, Stream.run_isEnd,
        h.token (hstreams held)]
      exact Step.map_report_after (ih _ (hclient _) hstreams (h.look (hstreams held))) _
  | position held next ih => exact ih _ (hclient _) hstreams h
  | display held next ih =>
      rw [serve, Run.run_toRun_bind, Run.run_toRun_bind, Stream.run_display,
        Stream.run_display, h.token (hstreams held)]
      exact Step.map_report_after (ih _ (hclient _) hstreams (h.look (hstreams held))) _
  | tail held goal next ih =>
      rw [serve, Run.run_toRun_bind, Run.run_toRun_bind, Stream.run_tail, Stream.run_tail,
        h.token (hstreams held)]
      have hrest : ∀ ended : Bool,
          (if ended then streams held else (streams held).advance).source = id := by
        intro ended
        cases ended <;> exact hstreams held
      have hheld := source_hold hstreams (hrest (second.token (streams held)).isNone) goal
      exact Step.map_report_after (ih hclient hheld (h.look (hstreams held))) _
  | clone held goal next ih =>
      exact ih hclient (source_hold hstreams (hstreams held) goal) h
  | parse held goal scope g next ih =>
      obtain ⟨hscope, hg, hnext⟩ := hclient
      have hp := hg.composed hrules fuel hscope
      have hs := hstreams held
      rw [← hs] at h
      rw [serve, Run.run_bind, Run.run_bind]
      obtain ⟨hfirst, hsecond⟩ | ⟨value, events, last, other, hfirst, hsecond, hlast⟩ := h.parse hp
      · rw [hfirst, hsecond]
      · rw [hfirst, hsecond]
        rw [hs] at hlast
        refine Step.map_report_after (ih value (hnext value) ?_ hlast) events
        cases value with
        | ok value rest =>
            have hrest : rest.source = id := ((hp.course hfirst).source_rest rfl).trans hs
            exact source_hold hstreams hrest goal
        | fail failure => exact hstreams
        | error failure => exact hstreams

end Client

end Backtrack
