import Backtrack.Proofs.Policies
import Backtrack.Proofs.Relays

/-!
# The Log of One Parse

A whole parse announces where it begins and where it stopped. What it logs in between has a
fixed shape: lines of repetitions that ended because they stalled, any number of them, and then at
most one line more, of a commitment or of a refused reference. That line is the last before
the end and tells of the outcome of the whole parse, however deep in the grammar it was
written, because an error is raised once and nothing but its unwinding comes after.

Most events are routine: they raise no error, and the only line that one of them can leave is that
of a stall. A parse has one exceptional event if it ends with an error and none otherwise, which is
an induction on its course. Which event it is, and that it tells of the error with which the parse
ends, follows the error from the part that raised it to the whole.

## Main definitions

* `Record.began`, `Record.ended`, `Record.paused`, `Record.committed`, `Record.refused`: the lines.
* `Event.isExceptional`: the events that are out of the routine of a parse.
* `Event.Raises`, `RaisedAmong`: an error is raised by an event, and among events.
* `Closing`, `Chronicle`: the line before the last, and the log of one parse.

## Main results

* `Course.countP_isExceptional`: an error is raised once.
* `Grammar.Plain.raises`: every error is raised by an event that tells of it.
* `Grammar.parse_log`: the log of one parse, for all plain grammars.
-/

namespace Backtrack

variable {τ α β : Type}

/-! ### Lines -/

namespace Record

/-- A parse begins. -/
def began (position : Nat) : Record :=
  ⟨.trace, "parsing from token " ++ toString position⟩

/-- A parse is over. -/
def ended (position : Nat) : Record :=
  ⟨.trace, "parse stopped at token " ++ toString position⟩

/-- A repetition of `items` items stalled and ended. -/
def paused (position items : Nat) : Record :=
  ⟨.debug, "repetition stopped without progress at token " ++ toString position ++ " after " ++
    toString items ++ " items"⟩

/-- A commitment made a failure fatal. -/
def committed (position : Nat) (message : String) : Record :=
  ⟨.debug, "committed parse failed at token " ++ toString position ++ ": " ++ message⟩

/-- A reference was refused because `limit` of them were under way. -/
def refused (position limit : Nat) : Record :=
  ⟨.warn, Message.recursionLimit limit ++ " at token " ++ toString position⟩

end Record

/-! ### The routine of a parse -/

/-- Whether an event is **out of the routine of a parse**: it raises an error, or it is the
beginning or the end of a whole parse. -/
def Event.isExceptional : Event τ → Bool
  | .refused _ _ => true
  | .stalled _ _ .error => true
  | .committed _ => true
  | .unusable _ _ => true
  | .started _ => true
  | .finished _ => true
  | _ => false

/-- The only line that the routine of a parse leaves is that of **a repetition that ended because it
stalled**. -/
theorem Event.record?_of_routine {event : Event τ} (h : event.isExceptional = false)
    {line : Record} (hline : event.record? = some line) :
    ∃ place items, event = .stalled place items .stop ∧ line = .paused place.position items := by
  cases event with
  | stalled place items policy =>
      cases policy with
      | stop => exact ⟨place, items, rfl, (Option.some.inj hline).symm⟩
      | error => cases hline
  | refused | committed | unusable | started | finished => cases h
  | entered | returned | called | inspected | descended | ascended | noted => cases hline

/-- Events of the routine around others. -/
private theorem countP_between {before after : Event τ} (hbefore : before.isExceptional = false)
    (hafter : after.isExceptional = false) (events : List (Event τ)) :
    (before :: events ++ [after]).countP Event.isExceptional =
      events.countP Event.isExceptional := by
  simp [hbefore, hafter]

/-- **An error is raised once**: of the events of a parse one is exceptional if the parse ends with
an error, and none otherwise. -/
theorem Course.countP_isExceptional [Quote τ] {s : Stream} {sources : Sources τ}
    {step : Step τ (Outcome τ α)} (h : Course s sources step) :
    step.events.countP Event.isExceptional = if step.value.isError then 1 else 0 := by
  induction h with
  | succeed | fail | satisfyEnd | eofEnd | eofReject | unusable | refuse => rfl
  | satisfyAccept h accepted => simp [Event.isExceptional, Outcome.isError]
  | satisfyReject expected h rejected => simp [Event.isExceptional, Outcome.isError]
  | calling callee h ih =>
      rw [Step.after, List.countP_append, ih]
      exact Nat.zero_add _
  | sequel first second ih₁ ih₂ =>
      rw [Step.after, List.countP_append, ih₂, ih₁]
      exact Nat.zero_add _
  | retry first second ih₁ ih₂ =>
      rw [Step.after, List.countP_append, ih₂, ih₁]
      exact Nat.zero_add _
  | passFail h ih => exact ih
  | passError h ih => exact ih
  | label name h ih => exact ih
  | commit h ih =>
      rw [List.countP_append, ih]
      rfl
  | nested h inner ih => exact (countP_between rfl rfl _).trans ih
  | stallStop items first stuck h ih =>
      rw [List.countP_append, ih]
      rfl
  | stallError items first stuck h ih =>
      rw [List.countP_append, ih]
      rfl
  | observed h ih => exact (countP_between rfl rfl _).trans ih

/-! ### What raises an error -/

/-- The event **raises the error**: what it tells is what the error tells. -/
inductive Event.Raises : Failure τ → Event τ → Prop where
  | committed (failure : Failure τ) : Raises failure (.committed failure)
  | refused (place : Stream) (limit : Nat) (found : Option τ) :
      Raises ⟨Message.recursionLimit limit, found, place.position⟩ (.refused place limit)
  | stalled (place : Stream) (items : Nat) (found : Option τ) :
      Raises ⟨Message.noProgress, found, place.position⟩ (.stalled place items .error)
  | undefined (place : Stream) (found : Option τ) :
      Raises ⟨Message.undefinedRule, found, place.position⟩ (.unusable place .undefined)
  | dropped (place : Stream) (found : Option τ) :
      Raises ⟨Message.droppedRule, found, place.position⟩ (.unusable place .dropped)

theorem Event.Raises.isExceptional {failure : Failure τ} {event : Event τ}
    (h : event.Raises failure) : event.isExceptional = true := by
  cases h <;> rfl

/-- Events that leave **no line** in the log. -/
def Silent (events : List (Event τ)) : Prop :=
  ∀ event ∈ events, event.record? = none

theorem Silent.append {xs ys : List (Event τ)} (hx : Silent xs) (hy : Silent ys) :
    Silent (xs ++ ys) := by
  intro event hevent
  rcases List.mem_append.mp hevent with hevent | hevent
  · exact hx event hevent
  · exact hy event hevent

theorem Silent.singleton {event : Event τ} (h : event.record? = none) : Silent [event] :=
  List.forall_mem_singleton.mpr h

theorem Silent.log_eq {events : List (Event τ)} (h : Silent events) : Event.log events = [] :=
  List.filterMap_eq_nil_iff.mpr h

/-- Errors are unwound without a line. -/
theorem Unwinding.silent {failure : Failure τ} {events : List (Event τ)}
    (h : Unwinding failure events) : Silent events := by
  intro event hevent
  cases h event hevent <;> rfl

/-- The error is **raised among the events**, and no line comes after. -/
def RaisedAmong (failure : Failure τ) (events : List (Event τ)) : Prop :=
  ∃ before event after, events = before ++ event :: after ∧ event.Raises failure ∧ Silent after

namespace RaisedAmong

variable {failure : Failure τ} {events : List (Event τ)}

/-- Whatever comes before. -/
theorem behind (h : RaisedAmong failure events) (earlier : List (Event τ)) :
    RaisedAmong failure (earlier ++ events) := by
  obtain ⟨before, event, after, rfl, hraises, hafter⟩ := h
  exact ⟨earlier ++ before, event, after, (List.append_assoc _ _ _).symm, hraises, hafter⟩

/-- Whatever comes after without a line. -/
theorem ahead (h : RaisedAmong failure events) {later : List (Event τ)} (hlater : Silent later) :
    RaisedAmong failure (events ++ later) := by
  obtain ⟨before, event, after, rfl, hraises, hafter⟩ := h
  exact ⟨before, event, after ++ later, List.append_assoc _ _ _, hraises, hafter.append hlater⟩

end RaisedAmong

namespace Parser

variable {p : Parser τ α}

/-- A parser whose errors are **raised among its events**. -/
def RaisesErrors (α : Type) (p : Parser τ α) : Prop :=
  ∀ (s : Stream) (sources : Sources τ) (failure : Failure τ) (last : Sources τ)
    (events : List (Event τ)), (p s).run sources = some ⟨.error failure, last, events⟩ →
      RaisedAmong failure events

/-- What relays errors of parts that are raised raises them. -/
theorem raisesErrors_of_relays [Quote τ] (h : p.Relays RaisesErrors) : RaisesErrors α p := by
  intro s sources failure last events hrun
  obtain ⟨β, q, t, store, before, hq, hinvoked, inner, during, hpart⟩ :=
    h.aborts ⟨last, events, hrun⟩
  obtain ⟨_, after, hwhole, hunwinding⟩ := hinvoked.error hpart
  obtain ⟨-, -, rfl⟩ := Step.mk.inj (Option.some.inj (hrun.symm.trans hwhole))
  exact ((hq t store failure inner during hpart).behind before).ahead hunwinding.silent

theorem raisesErrors_observed (hp : RaisesErrors α p) : RaisesErrors α p.observed := by
  intro s sources failure last events hrun
  rw [run_observed] at hrun
  obtain ⟨⟨value, middle, inner⟩, hinner, hend⟩ := Option.map_eq_some_iff.mp hrun
  obtain ⟨rfl, -, rfl⟩ := Step.mk.inj hend
  exact ((hp _ _ _ _ _ hinner).behind [.entered s]).ahead (.singleton rfl)

theorem raisesErrors_calling (hp : RaisesErrors α p) (callee : Callee) :
    RaisesErrors α (calling callee p) := by
  intro s sources failure last events hrun
  rw [run_calling] at hrun
  obtain ⟨⟨value, middle, inner⟩, hinner, hend⟩ := Option.map_eq_some_iff.mp hrun
  obtain ⟨rfl, -, rfl⟩ := Step.mk.inj hend
  exact (hp _ _ _ _ _ hinner).behind [.called callee]

/-- A commitment raises the failure of its parser. -/
theorem raisesErrors_commit (hp : RaisesErrors α p) : RaisesErrors α (commit p) := by
  intro s sources failure last events hrun
  rw [run_commit] at hrun
  obtain ⟨⟨value, middle, inner⟩, hinner, hend⟩ := Option.map_eq_some_iff.mp hrun
  cases value with
  | ok value rest => cases hend
  | fail other =>
      obtain ⟨hvalue, -, rfl⟩ := Step.mk.inj hend
      obtain rfl := Outcome.error.inj hvalue
      exact ⟨inner, .committed other, [], rfl, .committed other, List.forall_mem_nil _⟩
  | error other =>
      obtain ⟨hvalue, -, rfl⟩ := Step.mk.inj hend
      obtain rfl := Outcome.error.inj hvalue
      exact hp _ _ _ _ _ hinner

/-- A reference raises the refusal. -/
theorem raisesErrors_nested (hp : RaisesErrors α p) : RaisesErrors α (nested p) := by
  intro s sources failure last events hrun
  rw [run_nested] at hrun
  cases hroom : (sources.get s.source).config.admits (sources.get s.source).depth with
  | error limit =>
      rw [hroom] at hrun
      obtain ⟨hvalue, -, rfl⟩ := Step.mk.inj (Option.some.inj hrun)
      obtain rfl := Outcome.error.inj hvalue
      exact ⟨[], _, [.inspected s], rfl, .refused s limit _, .singleton rfl⟩
  | ok room =>
      rw [hroom] at hrun
      obtain ⟨⟨value, middle, inner⟩, hinner, hend⟩ := Option.map_eq_some_iff.mp hrun
      obtain ⟨rfl, -, rfl⟩ := Step.mk.inj hend
      exact ((hp _ _ _ _ _ hinner).behind [_]).ahead (.singleton rfl)

/-- A repetition raises the stall that is forbidden. -/
theorem raisesErrors_attempts (hp : RaisesErrors α p) (turns : Nat) (items : List α) :
    RaisesErrors (List α) fun cursor => attempts p turns cursor items := by
  induction turns generalizing items with
  | zero =>
      intro s sources failure last events hrun
      cases hrun
  | succ turns ih =>
      intro s sources failure last events hrun
      rw [run_attempts_succ] at hrun
      obtain ⟨⟨value, middle, inner⟩, hinner, hend⟩ := Option.bind_eq_some_iff.mp hrun
      cases value with
      | ok item rest =>
          by_cases hstuck : rest.position = s.position
          · simp only [hstuck, if_true, run_stall] at hend
            cases hpolicy : (middle.get s.source).config.repetition with
            | stop =>
                rw [hpolicy] at hend
                cases hend
            | error =>
                rw [hpolicy] at hend
                obtain ⟨hvalue, -, rfl⟩ := Step.mk.inj (Option.some.inj hend)
                obtain rfl := Outcome.error.inj hvalue
                exact ⟨inner, _, [.inspected s], rfl, .stalled s _ _, .singleton rfl⟩
          · simp only [hstuck, if_false] at hend
            obtain ⟨⟨value, final, later⟩, hlater, hend⟩ := Option.map_eq_some_iff.mp hend
            obtain ⟨rfl, -, rfl⟩ := Step.mk.inj hend
            exact (ih (item :: items) _ _ _ _ _ hlater).behind inner
      | fail other => cases hend
      | error other =>
          obtain ⟨hvalue, -, rfl⟩ := Step.mk.inj (Option.some.inj hend)
          obtain rfl := Outcome.error.inj hvalue
          exact hp _ _ _ _ _ hinner

/-- The use of a rule without a body raises the error that says so. -/
theorem raisesErrors_unusable {phase : Phase} {message : String}
    (h : ∀ (place : Stream) (found : Option τ),
      Event.Raises ⟨message, found, place.position⟩ (.unusable place phase)) :
    RaisesErrors α (unusable phase message : Parser τ α) := by
  intro s sources failure last events hrun
  rw [run_unusable] at hrun
  obtain ⟨hvalue, -, rfl⟩ := Step.mk.inj (Option.some.inj hrun)
  obtain rfl := Outcome.error.inj hvalue
  exact ⟨[], _, [.inspected s], rfl, h s _, .singleton rfl⟩

end Parser

namespace Grammar

variable [Quote τ] {σ : Signature} {rules : Rules σ τ}

theorem raisesErrors_handle {name : σ.Name} {fuel : Nat} {scope : Scope σ τ}
    (hrule : ∀ rule, scope.find? name = some rule →
      Parser.RaisesErrors _ (parser rules fuel rule.home rule.body)) :
    Parser.RaisesErrors _ (parser rules (fuel + 1) scope (.handle name)) := by
  have hparser : parser rules (fuel + 1) scope (.handle name) = _ :=
    interpret_handle rules (parser rules fuel) (fuel + 1) name scope
  rw [hparser]
  cases hfind : scope.find? name with
  | none => exact Parser.raisesErrors_observed (Parser.raisesErrors_unusable .dropped)
  | some rule =>
      obtain ⟨phase, body, home⟩ := rule
      refine Parser.raisesErrors_observed ?_
      cases phase with
      | undefined => exact Parser.raisesErrors_nested (Parser.raisesErrors_unusable .undefined)
      | defined => exact Parser.raisesErrors_nested (hrule _ hfind)
      | dropped => exact Parser.raisesErrors_unusable .dropped

/-- **Every error of a plain grammar is raised by an event** that tells of it, and no line is
logged after. -/
theorem Plain.raises (hrules : rules.Plain) (fuel : Nat) {scope : Scope σ τ}
    (hscope : scope.Plain) {g : Grammar σ τ α} (hg : g.Plain) :
    Parser.RaisesErrors α (parser rules fuel scope g) :=
  hg.part_parser hrules Parser.raisesErrors_of_relays
    (fun hg => Parser.raisesErrors_observed (Parser.raisesErrors_commit hg))
    (fun _ hg => Parser.raisesErrors_observed (Parser.raisesErrors_attempts hg _ []))
    (fun hrule => Parser.raisesErrors_observed
      (Parser.raisesErrors_nested (Parser.raisesErrors_calling hrule .thunk)))
    raisesErrors_handle fuel hscope

end Grammar

/-! ### The log -/

/-- The routine of a parse leaves lines of **repetitions that stalled and ended**, and no others. -/
theorem Event.mem_log_of_routine {events : List (Event τ)}
    (h : events.countP isExceptional = 0) {line : Record} (hline : line ∈ log events) :
    ∃ place items, .stalled place items .stop ∈ events ∧ line = .paused place.position items := by
  obtain ⟨event, hevent, hrecord⟩ := List.mem_filterMap.mp hline
  have hroutine := Bool.eq_false_iff.mpr (List.countP_eq_zero.mp h event hevent)
  obtain ⟨place, items, rfl, hpaused⟩ := record?_of_routine hroutine hrecord
  exact ⟨place, items, hevent, hpaused⟩

/-- **What the log says of the outcome** before the end: nothing of a success or a recoverable
failure; of an error, the line of the commitment or of the refused reference that raised it,
or nothing if it is that of a forbidden stall or of a handle without a rule. -/
inductive Closing (policy : RepeatPolicy) (events : List (Event τ)) :
    Outcome τ α → List Record → Prop where
  | ok (value : α) (rest : Stream) : Closing policy events (.ok value rest) []
  | fail (failure : Failure τ) : Closing policy events (.fail failure) []
  | committed (failure : Failure τ) :
      Closing policy events (.error failure) [.committed failure.position failure.message]
  | refused {failure : Failure τ} {limit : Nat}
      (message : failure.message = Message.recursionLimit limit) :
      Closing policy events (.error failure) [.refused failure.position limit]
  | stalled {failure : Failure τ} {place : Stream} {items : Nat} (forbidden : policy = .error)
      (event : .stalled place items .error ∈ events)
      (message : failure.message = Message.noProgress)
      (position : failure.position = place.position) : Closing policy events (.error failure) []
  | undefined {failure : Failure τ} {place : Stream} (event : .unusable place .undefined ∈ events)
      (message : failure.message = Message.undefinedRule)
      (position : failure.position = place.position) : Closing policy events (.error failure) []
  | dropped {failure : Failure τ} {place : Stream} (event : .unusable place .dropped ∈ events)
      (message : failure.message = Message.droppedRule)
      (position : failure.position = place.position) : Closing policy events (.error failure) []

/-- The event that raises an error leaves the line that tells of it. -/
theorem Event.Raises.closing {failure : Failure τ} {event : Event τ} (h : event.Raises failure)
    {policy : RepeatPolicy} {events : List (Event τ)} (hevent : event ∈ events)
    (hpolicy : ∀ {place items stall}, .stalled place items stall ∈ events → stall = policy) :
    Closing policy events (.error failure : Outcome τ α) (Event.log [event]) := by
  cases h with
  | committed => exact .committed failure
  | refused place limit found => exact .refused rfl
  | stalled place items found => exact .stalled (hpolicy hevent).symm hevent rfl rfl
  | undefined place found => exact .undefined hevent rfl rfl
  | dropped place found => exact .dropped hevent rfl rfl

/-- **The log of one parse** from `start` that had these events and this outcome: it begins,
repetitions stall and end, which happens under one policy only, at most one line tells of an error,
and it ends. -/
def Chronicle (policy : RepeatPolicy) (start : Nat) (outcome : Outcome τ α)
    (events : List (Event τ)) (log : List Record) : Prop :=
  ∃ pauses closing,
    log = .began start :: (pauses ++ closing) ++ [.ended outcome.position] ∧
    (∀ line ∈ pauses, policy = .stop ∧ ∃ position items, line = .paused position items) ∧
    Closing policy events outcome closing

namespace Parser

/-- The run behind a parse that may leave input over, and the lines around it. -/
theorem run_parseFrom [Quote τ] (p : Parser τ α) (s : Stream) (sources : Sources τ) :
    (p.parseFrom s).run sources = ((p s).run sources).map fun inner =>
      ⟨inner.value.toExcept, inner.sources,
        .started s.position :: inner.events ++ [.finished inner.value.position]⟩ := by
  rw [parseFrom, Run.run_emit_bind, Run.run_bind]
  cases (p s).run sources <;> simp [Step.after]

/-- A parse to the end **logs no more** than one that may leave input over, and has its errors. -/
theorem parseFrom_of_parseToEnd [Quote τ] {p : Parser τ α} {s : Stream} {sources : Sources τ}
    {step : Step τ (Except ParseError α)} (h : (p.parseToEnd s).run sources = some step) :
    ∃ first, (p.parseFrom s).run sources = some first ∧
      Event.log step.events = Event.log first.events ∧
      ∀ error, first.value = .error error → step.value = .error error := by
  obtain ⟨first, second, hfirst, hrest, rfl⟩ := Run.run_bind_eq_some_iff.mp h
  suffices hsecond : Event.log second.events = [] ∧
      ∀ error, first.value = .error error → second.value = .error error by
    refine ⟨first, hfirst, ?_, hsecond.2⟩
    rw [Event.log_append, hsecond.1, List.append_nil]
  cases hvalue : first.value with
  | error error =>
      rw [hvalue] at hrest
      obtain rfl := Option.some.inj hrest
      exact ⟨rfl, fun _ herror => congrArg _ (Except.error.inj herror)⟩
  | ok result =>
      rw [hvalue] at hrest
      obtain ⟨head, last, hhead, hlast, rfl⟩ := Run.run_bind_eq_some_iff.mp hrest
      rw [Run.run_toRun, Stream.run_head] at hhead
      obtain rfl := Option.some.inj hhead
      refine ⟨?_, fun _ herror => by cases herror⟩
      cases htoken : first.sources.token result.2 with
      | none =>
          rw [htoken] at hlast
          obtain rfl := Option.some.inj hlast
          rfl
      | some token =>
          rw [htoken] at hlast
          obtain rfl := Option.some.inj hlast
          rfl

end Parser

namespace Grammar

variable [Quote τ] {σ : Signature} {rules : Rules σ τ}

/-- What a run of a plain grammar logs: stalls, and then what tells of its outcome. -/
theorem Plain.closing (hrules : rules.Plain) {fuel : Nat} {scope : Scope σ τ}
    (hscope : scope.Plain) {g : Grammar σ τ α} (hg : g.Plain) {s : Stream} {sources : Sources τ}
    {step : Step τ (Outcome τ α)} (h : (parser rules fuel scope g s).run sources = some step) :
    ∃ pauses closing, Event.log step.events = pauses ++ closing ∧
      (∀ line ∈ pauses, (sources.get s.source).config.repetition = .stop ∧
        ∃ position items, line = .paused position items) ∧
      Closing (sources.get s.source).config.repetition step.events step.value closing := by
  obtain ⟨value, last, events⟩ := step
  have hcourse := (hg.composed hrules fuel hscope).course h
  have hcount := hcourse.countP_isExceptional
  have hpauses : ∀ before, (∀ event ∈ before, event ∈ events) →
      before.countP Event.isExceptional = 0 → ∀ line ∈ Event.log before,
        (sources.get s.source).config.repetition = .stop ∧
          ∃ position items, line = .paused position items := by
    intro before hbefore hroutine line hline
    obtain ⟨place, items, hstall, hpaused⟩ := Event.mem_log_of_routine hroutine hline
    exact ⟨(hcourse.stalled_policy (hbefore _ hstall)).symm, _, _, hpaused⟩
  cases value with
  | ok value rest =>
      exact ⟨_, [], (List.append_nil _).symm, hpauses events (fun _ hevent => hevent) hcount,
        .ok value rest⟩
  | fail failure =>
      exact ⟨_, [], (List.append_nil _).symm, hpauses events (fun _ hevent => hevent) hcount,
        .fail failure⟩
  | error failure =>
      -- The event that raises the error is the only one out of the routine.
      obtain ⟨before, event, after, rfl, hraises, hafter⟩ :=
        hg.raises hrules fuel hscope s sources failure last events h
      have hroutine : before.countP Event.isExceptional = 0 := by
        simp only [List.countP_append, List.countP_cons, hraises.isExceptional, if_true,
          Outcome.isError] at hcount
        omega
      refine ⟨Event.log before, Event.log [event], ?_,
        hpauses before (fun _ hevent => List.mem_append_left _ hevent) hroutine,
        hraises.closing (by simp) hcourse.stalled_policy⟩
      have hlast : Event.log (event :: after) = Event.log [event] ++ Event.log after :=
        Event.log_append [event] after
      rw [Event.log_append, hlast, hafter.log_eq, List.append_nil]

/-- A parse that may leave input over is chronicled. -/
theorem Plain.chronicle_parseFrom (hrules : rules.Plain) {fuel : Nat} {scope : Scope σ τ}
    (hscope : scope.Plain) {g : Grammar σ τ α} (hg : g.Plain) {s : Stream} {sources : Sources τ}
    {step : Step τ (Except ParseError (α × Stream))}
    (h : ((parser rules fuel scope g).parseFrom s).run sources = some step) :
    ∃ inner, (parser rules fuel scope g s).run sources = some inner ∧
      step.value = inner.value.toExcept ∧
      Chronicle (sources.get s.source).config.repetition s.position inner.value inner.events
        (Event.log step.events) := by
  rw [Parser.run_parseFrom] at h
  obtain ⟨inner, hinner, rfl⟩ := Option.map_eq_some_iff.mp h
  obtain ⟨pauses, closing, hlog, hpauses, hclosing⟩ := hg.closing hrules hscope hinner
  refine ⟨inner, hinner, rfl, pauses, closing, ?_, hpauses, hclosing⟩
  rw [← hlog, Event.log_append]
  rfl

/-- **The log of one parse.** A whole parse of a plain grammar logs where it begins; then
repetitions that stalled and ended, none if stalls are forbidden; then at most one line of a
commitment or of a refused reference; and last where it stopped, which is the position of the
outcome. If there is a line of a commitment or of a refusal the outcome is the error of which
it tells the position and, for a commitment, the message. An error without such a line is that of
a forbidden stall or of a handle whose rule is not defined yet or gone. -/
theorem parse_log (hrules : rules.Plain) {fuel : Nat} {scope : Scope σ τ} (hscope : scope.Plain)
    {g : Grammar σ τ α} (hg : g.Plain) {s : Stream} {sources : Sources τ} :
    (∀ {step}, ((parser rules fuel scope g).parseFrom s).run sources = some step →
      ∃ inner, (parser rules fuel scope g s).run sources = some inner ∧
        step.value = inner.value.toExcept ∧
        Chronicle (sources.get s.source).config.repetition s.position inner.value inner.events
          (Event.log step.events)) ∧
    ∀ {step}, ((parser rules fuel scope g).parseToEnd s).run sources = some step →
      ∃ inner, (parser rules fuel scope g s).run sources = some inner ∧
        (∀ error, inner.value.toExcept = .error error → step.value = .error error) ∧
        Chronicle (sources.get s.source).config.repetition s.position inner.value inner.events
          (Event.log step.events) := by
  refine ⟨hg.chronicle_parseFrom hrules hscope, fun {step} h => ?_⟩
  obtain ⟨first, hfirst, hlog, herror⟩ := Parser.parseFrom_of_parseToEnd h
  obtain ⟨inner, hinner, hvalue, hchronicle⟩ := hg.chronicle_parseFrom hrules hscope hfirst
  rw [hvalue] at herror
  rw [hlog]
  exact ⟨inner, hinner, herror, hchronicle⟩

end Grammar

/-- A repetition that stalls, and behind it a commitment that fails. -/
def Brackets.relapse : Grammar names Bool Nat := .keepRight (.many (.succeed (0 : Nat))) choice

/-- The log of the commitment behind the stall. -/
theorem Brackets.parse_log_relapse : ∃ step inner,
    ((Grammar.parser rules 1 .empty relapse).parseFrom .start).run (store none [true]) =
      some step ∧
    Chronicle .stop 0 (.error ⟨"no", some true, 0⟩ : Outcome Bool Nat) inner
      (Event.log step.events) ∧
    Event.log step.events =
      [.began 0, .paused 0 0, .committed 0 "no", .ended 0] := by
  have hplain : relapse.Plain := ⟨trivial, trivial, trivial⟩
  have hrun : (((Grammar.parser rules 1 .empty relapse).parseFrom .start).run
      (store none [true])).map (fun step => Event.log step.events) =
        some [.began 0, .paused 0 0, .committed 0 "no", .ended 0] := by decide +kernel
  have hvalue : ((Grammar.parser rules 1 .empty relapse .start).run (store none [true])).map
      Step.value = some (.error ⟨"no", some true, 0⟩) := by decide +kernel
  obtain ⟨step, hstep, hlog⟩ := Option.map_eq_some_iff.mp hrun
  obtain ⟨inner, hinner, -, hchronicle⟩ :=
    (Grammar.parse_log plain_rules plain_scope hplain).1 hstep
  rw [hinner] at hvalue
  rw [Option.some.inj hvalue] at hchronicle
  exact ⟨step, inner.events, hstep, hchronicle, hlog⟩

end Backtrack
