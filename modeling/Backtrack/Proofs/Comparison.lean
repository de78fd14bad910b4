import Backtrack.Proofs.Combinators
import Backtrack.Proofs.Fuel

/-!
# Two Parsers Compared

Two grammars that are built alike, up to a change in some places, are run by parsers that are
built alike, up to what the change does in these places. A `Comparison` says what two such runs
have in common: in which stores they may be at the same time, whether the first may run out of
fuel before the second, and whether it may be aborted where the second goes on. For the rest
they end alike: the same outcome, and the same lines in the log.

Every combinator keeps a comparison, so that only the places have to be looked at where the
grammars differ.

## Main definitions

* `Comparison`: what two runs have in common.
* `Comparison.Runs`, `Comparison.Parsers`: two runs, and two parsers, that compare.

## Main results

* `Comparison.Runs.bind`: runs that compare can be gone on with.
* `Comparison.Parsers.bind`, `Comparison.Parsers.orElse`, `Comparison.Parsers.many`,
  `Comparison.Parsers.nested` and the like: every combinator keeps a comparison.
-/

namespace Backtrack

variable {τ α β γ : Type}

/-- Events around others that leave no line in the log. -/
theorem Event.log_between {before after : Event τ} (hbefore : before.record? = none)
    (hafter : after.record? = none) (events : List (Event τ)) :
    log (before :: events ++ [after]) = log events := by
  simp [log, hbefore, hafter]

/-- A continuation that **passes errors on**, whatever else it may leave behind. -/
def Run.Passes (f : Outcome τ α → Run τ (Outcome τ β)) : Prop :=
  ∀ failure sources, ∃ last events,
    (f (.error failure)).run sources = some ⟨.error failure, last, events⟩

/-- **What two runs have in common.** -/
structure Comparison (τ : Type) where
  /-- The streams at which both may be. -/
  home : Stream → Prop
  /-- The stores in which they may be at the same time. -/
  store : Sources τ → Sources τ → Prop
  /-- Whether the first may have less fuel. -/
  lags : Prop
  /-- Whether the first may be aborted where the second is not. -/
  aborts : Prop
  home_advance : ∀ {s}, home s → home s.advance
  token_eq : ∀ {first second s}, store first second → home s → second.token s = first.token s
  config_eq : ∀ {first second s}, store first second → home s →
    (second.get s.source).config = (first.get s.source).config
  /-- A reference is refused by both, at the same limit, or by neither. -/
  admits_eq : ∀ {first second s}, store first second → home s →
    (second.get s.source).config.admits (second.get s.source).depth =
      (first.get s.source).config.admits (first.get s.source).depth
  look : ∀ {first second s}, store first second → home s → store (first.look s) (second.look s)
  enter : ∀ {first second s}, store first second → home s →
    store (first.modify s.source .enter) (second.modify s.source .enter)
  leave : ∀ {first second s}, store first second → home s →
    store (first.modify s.source .leave) (second.modify s.source .leave)

namespace Comparison

variable {C : Comparison τ}

/-! ### Runs that compare -/

/-- How two runs **end** that compare. -/
inductive Ends (C : Comparison τ) :
    Option (Step τ (Outcome τ α)) → Option (Step τ (Outcome τ α)) → Prop where
  /-- Neither ends. -/
  | exhausted : Ends C none none
  /-- The first has run out of fuel. -/
  | lagging (hlags : C.lags) (second : Option (Step τ (Outcome τ α))) : Ends C none second
  /-- Both end alike. -/
  | together {value : Outcome τ α} {first second : Sources τ} {events others : List (Event τ)}
      (hvalue : value.Within C.home) (hstore : C.store first second)
      (hlog : Event.log others = Event.log events) :
      Ends C (some ⟨value, first, events⟩) (some ⟨value, second, others⟩)
  /-- The first was aborted. -/
  | aborted (haborts : C.aborts) (failure : Failure τ) (last : Sources τ)
      (events : List (Event τ)) (second : Option (Step τ (Outcome τ α))) :
      Ends C (some ⟨.error failure, last, events⟩) second

/-- **Runs that compare**: they end so on all stores in which they may be at the same time. -/
def Runs (C : Comparison τ) (r q : Run τ (Outcome τ α)) : Prop :=
  ∀ ⦃first second : Sources τ⦄, C.store first second → C.Ends (r.run first) (q.run second)

/-- What changes neither results nor the log, and leaves stores in which both may be, may be **done
in addition** where two runs end. -/
theorem Ends.map {r q : Option (Step τ (Outcome τ α))} (h : C.Ends r q)
    {f g : Step τ (Outcome τ α) → Step τ (Outcome τ α)}
    (hf : ∀ step, (f step).value = step.value) (hg : ∀ step, (g step).value = step.value)
    (hstore : ∀ {first second}, C.store first.sources second.sources →
      C.store (f first).sources (g second).sources)
    (hlog : ∀ {first second}, Event.log second.events = Event.log first.events →
      Event.log (g second).events = Event.log (f first).events) :
    C.Ends (r.map f) (q.map g) := by
  cases h with
  | exhausted => exact .exhausted
  | lagging hlags second => exact .lagging hlags _
  | @together value first second events others hvalue hends hown =>
      have hfirst := hf ⟨value, first, events⟩
      have hsecond := hg ⟨value, second, others⟩
      have hlast : C.store (f ⟨value, first, events⟩).sources (g ⟨value, second, others⟩).sources :=
        hstore hends
      have hsame : Event.log (g ⟨value, second, others⟩).events =
          Event.log (f ⟨value, first, events⟩).events := hlog hown
      rw [Option.map_some, Option.map_some]
      generalize f ⟨value, first, events⟩ = one at *
      generalize g ⟨value, second, others⟩ = two at *
      obtain ⟨_, _, _⟩ := one
      obtain ⟨_, _, _⟩ := two
      obtain rfl := hfirst
      obtain rfl := hsecond
      exact .together hvalue hlast hsame
  | aborted haborts failure last events second =>
      have hfirst := hf ⟨.error failure, last, events⟩
      rw [Option.map_some]
      generalize f ⟨.error failure, last, events⟩ = one at *
      obtain ⟨_, _, _⟩ := one
      obtain rfl := hfirst
      exact .aborted haborts failure _ _ _

/-- The same in the first run only, -/
theorem Ends.map_left {r q : Option (Step τ (Outcome τ α))} (h : C.Ends r q)
    {f : Step τ (Outcome τ α) → Step τ (Outcome τ α)} (hf : ∀ step, (f step).value = step.value)
    (hstore : ∀ {first second}, C.store first.sources second → C.store (f first).sources second)
    (hlog : ∀ step, Event.log (f step).events = Event.log step.events) : C.Ends (r.map f) q := by
  have hmap := h.map (g := id) hf (fun _ => rfl) hstore fun hown => hown.trans (hlog _).symm
  rwa [Option.map_id] at hmap

/-- and in the second only. -/
theorem Ends.map_right {r q : Option (Step τ (Outcome τ α))} (h : C.Ends r q)
    {g : Step τ (Outcome τ α) → Step τ (Outcome τ α)} (hg : ∀ step, (g step).value = step.value)
    (hstore : ∀ {first second}, C.store first second.sources → C.store first (g second).sources)
    (hlog : ∀ step, Event.log (g step).events = Event.log step.events) : C.Ends r (q.map g) := by
  have hmap := h.map (f := id) (fun _ => rfl) hg hstore fun hown => (hlog _).trans hown
  rwa [Option.map_id] at hmap

/-- Events with the same lines in the log may come before. -/
theorem Ends.after {r q : Option (Step τ (Outcome τ α))} (h : C.Ends r q)
    {events others : List (Event τ)} (hlog : Event.log others = Event.log events) :
    C.Ends (r.map (Step.after events)) (q.map (Step.after others)) := by
  refine h.map (fun _ => rfl) (fun _ => rfl) (fun hstore => hstore) fun hown => ?_
  rw [Step.after, Step.after, Event.log_append, Event.log_append, hlog, hown]

namespace Runs

variable {r q : Run τ (Outcome τ α)} {s : Stream}

theorem exhausted : C.Runs (Run.exhausted : Run τ (Outcome τ α)) Run.exhausted :=
  fun _ _ _ => .exhausted

theorem pure {outcome : Outcome τ α} (h : outcome.Within C.home) :
    C.Runs (pure outcome) (pure outcome) :=
  fun _ _ hstore => .together h hstore rfl

/-- **Runs that compare can be gone on with**, as long as errors are passed on. -/
theorem bind {f g : Outcome τ α → Run τ (Outcome τ β)} (h : C.Runs r q) (hpass : Run.Passes f)
    (hnext : ∀ outcome, outcome.Within C.home → C.Runs (f outcome) (g outcome)) :
    C.Runs (r >>= f) (q >>= g) := by
  intro first second hstore
  rw [Run.run_bind, Run.run_bind]
  have hends := h hstore
  generalize r.run first = one at hends ⊢
  generalize q.run second = two at hends ⊢
  cases hends with
  | exhausted => exact .exhausted
  | lagging hlags _ => exact .lagging hlags _
  | together hvalue hmiddle hlog => exact (hnext _ hvalue hmiddle).after hlog
  | aborted haborts failure middle events _ =>
      obtain ⟨last, more, hlast⟩ := hpass failure middle
      rw [Option.bind_some, hlast]
      exact .aborted haborts failure last _ _

/-- The same is done before both, and its answer is the same in both. -/
theorem act {before : Act τ γ}
    (hbefore : ∀ {first second}, C.store first second →
      (before.run second).value = (before.run first).value ∧
        C.store (before.run first).sources (before.run second).sources ∧
        Event.log (before.run second).events = Event.log (before.run first).events)
    {f g : γ → Run τ (Outcome τ α)} (h : ∀ answer, C.Runs (f answer) (g answer)) :
    C.Runs (before.toRun >>= f) (before.toRun >>= g) := by
  intro first second hstore
  obtain ⟨hvalue, hlater, hlog⟩ := hbefore hstore
  rw [Run.run_toRun_bind, Run.run_toRun_bind, hvalue]
  exact (h _ hlater).after hlog

/-- A look at a stream comes before, with an answer told by the token. -/
theorem look {before : Act τ γ} (answer : Option τ → γ) (hs : C.home s)
    (hbefore : ∀ sources : Sources τ,
      before.run sources = ⟨answer (sources.token s), sources.look s, [.inspected s]⟩)
    {f g : γ → Run τ (Outcome τ α)}
    (h : ∀ token, C.Runs (f (answer token)) (g (answer token))) :
    C.Runs (before.toRun >>= f) (before.toRun >>= g) := by
  intro first second hstore
  rw [Run.run_toRun_bind, Run.run_toRun_bind, hbefore, hbefore, C.token_eq hstore hs]
  exact (h _ (C.look hstore hs)).after rfl

/-- The same event comes before both. -/
theorem emit (event : Event τ) {f g : Unit → Run τ (Outcome τ α)} (h : C.Runs (f ()) (g ())) :
    C.Runs (Run.emit event >>= f) (Run.emit event >>= g) := by
  intro first second hstore
  rw [Run.run_emit_bind, Run.run_emit_bind]
  exact (h hstore).after rfl

end Runs

/-! ### Parsers that compare -/

/-- **Parsers that compare**, wherever both may be. -/
def Parsers (C : Comparison τ) (p q : Parser τ α) : Prop :=
  ∀ ⦃s : Stream⦄, C.home s → C.Runs (p s) (q s)

/-- The second run has the turns of the first, or more where the first may lag. -/
def Turns (C : Comparison τ) (turns more : Nat) : Prop := turns = more ∨ C.lags ∧ turns ≤ more

/-- To go on after a success passes errors on. -/
theorem passes_andThen (next : α → Stream → Run τ (Outcome τ β)) :
    Run.Passes fun outcome => outcome.andThen next :=
  fun _ sources => ⟨sources, [], rfl⟩

namespace Parsers

/-! ### Primitives -/

theorem exhausted :
    C.Parsers (fun _ => (Run.exhausted : Run τ (Outcome τ α))) fun _ => Run.exhausted :=
  fun _ _ => .exhausted

theorem succeed (value : α) : C.Parsers (Parser.succeed value) (Parser.succeed value) :=
  fun _ hs => .pure hs

theorem fail (message : String) :
    C.Parsers (Parser.fail message : Parser τ α) (Parser.fail message) := fun s hs =>
  .look (fun token => ⟨message, token, s.position⟩) hs (Failure.run_here message s) fun _ =>
    .pure trivial

theorem unusable (phase : Phase) (message : String) :
    C.Parsers (Parser.unusable phase message : Parser τ α) (Parser.unusable phase message) :=
  fun s hs => .emit _ (.look (fun token => ⟨message, token, s.position⟩) hs
    (Failure.run_here message s) fun _ => .pure trivial)

theorem satisfy [Quote τ] (expected : String) (test : Test τ) :
    C.Parsers (Parser.satisfy expected test) (Parser.satisfy expected test) := by
  intro s hs
  refine .look (fun token => token) hs (Stream.run_head s) fun token => ?_
  cases token with
  | none => exact .pure trivial
  | some token =>
      refine .emit _ (.act (fun hstore => ⟨rfl, hstore, rfl⟩) fun _ => ?_)
      by_cases ha : test.accepts token = true
      · simp only [ha, if_true]
        refine .look (fun token => if token.isNone then s else s.advance) hs (Stream.run_tail s) ?_
        intro token
        refine .pure ?_
        cases token with
        | none => exact hs
        | some _ => exact C.home_advance hs
      · simp only [ha]
        exact .pure trivial

theorem eof [Quote τ] : C.Parsers (Parser.eof : Parser τ Unit) Parser.eof := by
  intro s hs
  refine .look (fun token => token) hs (Stream.run_head s) fun token => ?_
  cases token with
  | none => exact .pure hs
  | some token => exact .pure trivial

/-! ### Combinators -/

variable {p q : Parser τ α} {p' q' : Parser τ β}

/-- A call before the first parser leaves no line in the log. -/
theorem calling_left (callee : Callee) (h : C.Parsers p q) :
    C.Parsers (Parser.calling callee p) q := by
  intro s hs first second hstore
  rw [Parser.run_calling]
  exact (h hs hstore).map_left (fun _ => rfl) (fun hstore => hstore) fun _ => rfl

/-- A call before the second parser leaves no line in the log. -/
theorem calling_right (callee : Callee) (h : C.Parsers p q) :
    C.Parsers p (Parser.calling callee q) := by
  intro s hs first second hstore
  rw [Parser.run_calling]
  exact (h hs hstore).map_right (fun _ => rfl) (fun hstore => hstore) fun _ => rfl

theorem calling (callee : Callee) (h : C.Parsers p q) :
    C.Parsers (Parser.calling callee p) (Parser.calling callee q) :=
  fun _ hs => .emit _ (h hs)

theorem observed (h : C.Parsers p q) : C.Parsers p.observed q.observed := by
  intro s hs
  refine .emit _ ((h hs).bind ?_ ?_)
  · intro failure sources
    exact ⟨sources, _, rfl⟩
  · intro outcome hrest
    exact .emit _ (.pure hrest)

/-- A node of the first grammar that the second does not have. -/
theorem observed_left (h : C.Parsers p q) : C.Parsers p.observed q := by
  intro s hs first second hstore
  rw [Parser.run_observed]
  exact (h hs hstore).map_left (fun _ => rfl) (fun hstore => hstore) fun _ =>
    Event.log_between rfl rfl _

/-- A node of the second grammar that the first does not have. -/
theorem observed_right (h : C.Parsers p q) : C.Parsers p q.observed := by
  intro s hs first second hstore
  rw [Parser.run_observed]
  exact (h hs hstore).map_right (fun _ => rfl) (fun hstore => hstore) fun _ =>
    Event.log_between rfl rfl _

/-- The second may have more fuel where the first may lag behind. -/
theorem le_right {more : Parser τ α} (h : C.Parsers p q) (hlags : C.lags) (hle : q.Le more) :
    C.Parsers p more := by
  intro s hs first second hstore
  have hends := h hs hstore
  generalize (p s).run first = one at hends ⊢
  generalize hsecond : (q s).run second = two at hends
  cases hends with
  | exhausted => exact .lagging hlags _
  | lagging _ _ => exact .lagging hlags _
  | together hvalue hlast hlog =>
      rw [hle s _ _ hsecond]
      exact .together hvalue hlast hlog
  | aborted haborts failure last events _ => exact .aborted haborts failure last events _

theorem sequel (h : C.Parsers p q) {next next' : α → Parser τ β}
    (hnext : ∀ a, C.Parsers (next a) (next' a)) :
    C.Parsers (Parser.sequel p next) (Parser.sequel q next') := by
  intro s hs
  refine (h hs).bind (passes_andThen _) fun outcome hrest => ?_
  cases outcome with
  | ok a rest => exact hnext a hrest
  | fail failure => exact .pure trivial
  | error failure => exact .pure trivial

theorem orElse {p' q' : Parser τ α} (h : C.Parsers p q) (h' : C.Parsers p' q') :
    C.Parsers (Parser.orElse p p') (Parser.orElse q q') := by
  intro s hs
  refine (h hs).bind (fun _ sources => ⟨sources, [], rfl⟩) fun outcome hrest => ?_
  cases outcome with
  | ok a rest => exact .pure hrest
  | fail failure => exact h' hs
  | error failure => exact .pure trivial

theorem label [Quote τ] (name : String) (h : C.Parsers p q) :
    C.Parsers (Parser.label name p) (Parser.label name q) := by
  intro s hs
  refine (h hs).bind (fun _ sources => ⟨sources, [], rfl⟩) fun outcome hrest => ?_
  cases outcome <;> exact .pure hrest

theorem commit (h : C.Parsers p q) : C.Parsers (Parser.commit p) (Parser.commit q) := by
  intro s hs
  refine (h hs).bind (fun _ sources => ⟨sources, [], rfl⟩) fun outcome hrest => ?_
  cases outcome with
  | ok a rest => exact .pure hrest
  | fail failure => exact .emit _ (.pure trivial)
  | error failure => exact .pure trivial

/-- A commitment of the first grammar that the second does not have: it aborts the first run, or it
makes no difference. -/
theorem commit_left (haborts : C.aborts) (h : C.Parsers p q) : C.Parsers (Parser.commit p) q := by
  intro s hs first second hstore
  have hends := h hs hstore
  rw [Parser.run_commit]
  generalize (p s).run first = one at hends ⊢
  generalize (q s).run second = two at hends ⊢
  cases hends with
  | exhausted => exact .exhausted
  | lagging hlags _ => exact .lagging hlags _
  | @together value _ _ _ _ hvalue hlast hlog =>
      cases value with
      | ok a rest => exact .together hvalue hlast hlog
      | fail failure => exact .aborted haborts failure _ _ _
      | error failure => exact .together hvalue hlast hlog
  | aborted haborts failure last events _ => exact .aborted haborts failure last _ _

/-- **A reference** is entered in both or refused in both. -/
theorem nested (h : C.Parsers p q) : C.Parsers (Parser.nested p) (Parser.nested q) := by
  intro s hs first second hstore
  rw [Parser.run_nested, Parser.run_nested, C.admits_eq hstore hs]
  cases (first.get s.source).config.admits (first.get s.source).depth with
  | error limit =>
      rw [C.token_eq hstore hs]
      exact .together trivial (C.look hstore hs) rfl
  | ok _ =>
      refine (h hs (C.enter hstore hs)).map (fun _ => rfl) (fun _ => rfl)
        (fun hlast => C.leave hlast hs) fun hown => ?_
      rw [Event.log_between rfl rfl, Event.log_between rfl rfl, hown]

/-- What becomes of a stalled repetition is the same in both. -/
theorem stall (items : List α) :
    C.Parsers (fun s => (Parser.stall items s).toRun) fun s => (Parser.stall items s).toRun := by
  intro s hs first second hstore
  rw [Run.run_toRun, Run.run_toRun, Parser.run_stall, Parser.run_stall, C.config_eq hstore hs]
  cases (first.get s.source).config.repetition with
  | stop => exact .together hs hstore rfl
  | error =>
      rw [C.token_eq hstore hs]
      exact .together trivial (C.look hstore hs) rfl

theorem attempt (h : C.Parsers p q) (items : List α) {next next' : α → Parser τ (List α)}
    (hnext : ∀ a, C.Parsers (next a) (next' a)) :
    C.Parsers (Parser.attempt p items next) (Parser.attempt q items next') := by
  intro s hs
  refine (h hs).bind (fun _ sources => ⟨sources, [], rfl⟩) fun outcome hrest => ?_
  cases outcome with
  | ok item rest =>
      by_cases hstuck : rest.position = s.position
      · simp only [hstuck, if_true]
        exact stall items hs
      · simp only [hstuck, if_false]
        exact hnext item hrest
  | fail failure => exact .pure hs
  | error failure => exact .pure trivial

/-- **A loop** in both, with the turns of the first in the second as well. -/
theorem attempts (h : C.Parsers p q) {turns more : Nat} (hturns : C.Turns turns more)
    (items : List α) :
    C.Parsers (fun cursor => Parser.attempts p turns cursor items)
      fun cursor => Parser.attempts q more cursor items := by
  induction turns generalizing more items with
  | zero =>
      intro s hs first second hstore
      obtain rfl | ⟨hlags, -⟩ := hturns
      · exact .exhausted
      · exact .lagging hlags _
  | succ turns ih =>
      obtain ⟨more, rfl, hrest⟩ : ∃ n, more = n + 1 ∧ C.Turns turns n := by
        obtain rfl | ⟨hlags, hle⟩ := hturns
        · exact ⟨turns, rfl, .inl rfl⟩
        · exact ⟨more - 1, by omega, .inr ⟨hlags, by omega⟩⟩
      exact attempt h items.reverse fun item => ih hrest (item :: items)

theorem many (h : C.Parsers p q) {turns more : Nat} (hturns : C.Turns turns more) :
    C.Parsers (Parser.many turns p) (Parser.many more q) :=
  attempts h hturns []

theorem bind (h : C.Parsers p q) {next next' : α → Parser τ β}
    (hnext : ∀ a, C.Parsers (next a) (next' a)) :
    C.Parsers (Parser.bind p next) (Parser.bind q next') :=
  sequel h fun a => calling .continuation (hnext a)

theorem map (h : C.Parsers p q) (f : α → β) : C.Parsers (Parser.map f p) (Parser.map f q) :=
  sequel h fun a => calling .function (succeed (f a))

theorem keepRight (h : C.Parsers p q) (h' : C.Parsers p' q') :
    C.Parsers (Parser.keepRight p p') (Parser.keepRight q q') :=
  sequel h fun _ => h'

theorem pair (h : C.Parsers p q) (h' : C.Parsers p' q') :
    C.Parsers (Parser.pair p p') (Parser.pair q q') := by
  rw [Parser.pair_eq_sequel, Parser.pair_eq_sequel]
  exact sequel h fun a => sequel h' fun b => succeed (a, b)

theorem keepLeft (h : C.Parsers p q) (h' : C.Parsers p' q') :
    C.Parsers (Parser.keepLeft p p') (Parser.keepLeft q q') := by
  rw [Parser.keepLeft_eq_sequel, Parser.keepLeft_eq_sequel]
  exact sequel h fun a => sequel h' fun _ => succeed a

theorem optional (h : C.Parsers p q) : C.Parsers (Parser.optional p) (Parser.optional q) := by
  rw [Parser.optional_eq_orElse, Parser.optional_eq_orElse]
  exact orElse (sequel h fun a => succeed (some a)) (succeed none)

theorem deferred (h : C.Parsers p q) : C.Parsers (Parser.deferred p) (Parser.deferred q) :=
  nested (calling .thunk h)

theorem handle (h : C.Parsers p q) (phase : Phase) :
    C.Parsers (Parser.handle phase p) (Parser.handle phase q) := by
  cases phase with
  | undefined => exact nested (unusable _ _)
  | defined => exact nested h
  | dropped => exact unusable _ _

end Parsers

/-- Runs on the **same store**, all the time. -/
def same (τ : Type) (aborts : Prop) : Comparison τ where
  home _ := True
  store first second := first = second
  lags := False
  aborts := aborts
  home_advance := id
  token_eq h _ := h ▸ rfl
  config_eq h _ := h ▸ rfl
  admits_eq h _ := h ▸ rfl
  look h _ := h ▸ rfl
  enter h _ := h ▸ rfl
  leave h _ := h ▸ rfl

end Comparison

/-- What is seen of a run **without its single steps**: the result, the store, and the log. -/
def Step.seen (step : Step τ α) : α × Sources τ × List Record :=
  (step.value, step.sources, Event.log step.events)

/-- The result is among what is seen. -/
theorem Step.map_value_eq (run : Option (Step τ α)) :
    run.map Step.value = (run.map Step.seen).map Prod.fst := by
  rw [Option.map_map]
  rfl

/-- Runs that compare on the same store, without lagging or aborting, look the same. -/
theorem Comparison.Runs.seen_eq {r q : Run τ (Outcome τ α)} (h : (Comparison.same τ False).Runs r q)
    (sources : Sources τ) : (r.run sources).map Step.seen = (q.run sources).map Step.seen := by
  have hends : (Comparison.same τ False).Ends (r.run sources) (q.run sources) := h rfl
  generalize r.run sources = one at hends ⊢
  generalize q.run sources = two at hends ⊢
  cases hends with
  | exhausted => rfl
  | lagging hlags _ => exact hlags.elim
  | together hvalue hstore hlog =>
      obtain rfl := hstore
      simp only [Option.map_some, Step.seen, hlog]
  | aborted haborts _ _ _ _ => exact haborts.elim

/-- **A composed parser compares with itself.** -/
theorem Parser.Composed.compares [Quote τ] {p : Parser τ α} (hp : Composed p) (C : Comparison τ) :
    C.Parsers p p := by
  induction hp with
  | exhausted => exact .exhausted
  | succeed value => exact .succeed value
  | fail message => exact .fail message
  | satisfy expected test => exact .satisfy expected test
  | eof => exact .eof
  | unusable phase message => exact .unusable phase message
  | calling callee _ ih => exact .calling callee ih
  | sequel _ _ ihp ihnext => exact .sequel ihp ihnext
  | orElse _ _ ihp ihq => exact .orElse ihp ihq
  | label name _ ih => exact .label name ih
  | commit _ ih => exact .commit ih
  | nested _ ih => exact .nested ih
  | attempt items _ _ ihp ihnext => exact .attempt ihp items ihnext
  | observed _ ih => exact .observed ih

end Backtrack
