import Backtrack.Proofs.Invocation

/-!
# Fatal Errors

A fatal error is never caught: once a parser has returned one, the parsers around it return
the same error, innermost first, and nothing else happens than that the references under
way end. Two views of a run make this precise. Seen from inside, a run invokes parts of the
parser on the way, and a part that gives an error decides the run, which ends at all and
ends with that error. Seen from outside, the first return of an error among the events is
followed by nothing but the unwinding of what is under way.

## Main definitions

* `Event.Unwinds`: the events that an error may still be followed by.
* `Uncaught`: an outcome and the events that led to it, when errors are not caught.

## Main results

* `Parser.Invoked.error`: the error of an invoked parser is the error of the whole.
* `Course.uncaught`: errors are not caught in a parse.
* `Orderly.length_parsers`: each return ends one of the parsers under way.
* `Grammar.error_uncaught`: both views, for all plain grammars.
-/

namespace Backtrack

variable {τ : Type}

/-- The events that **unwind** an error: a return of the same error and the end of a
reference. -/
inductive Event.Unwinds (failure : Failure τ) : Event τ → Prop where
  | returned : Unwinds failure (.returned (.error failure))
  | ascended (place : Stream) (depth : Nat) : Unwinds failure (.ascended place depth)

/-- Events that do nothing but unwind an error. -/
def Unwinding (failure : Failure τ) (events : List (Event τ)) : Prop :=
  ∀ event ∈ events, event.Unwinds failure

/-- An error goes on being unwound. -/
theorem Unwinding.append {failure : Failure τ} {xs ys : List (Event τ)}
    (hx : Unwinding failure xs) (hy : Unwinding failure ys) :
    Unwinding failure (xs ++ ys) := by
  intro event hevent
  rcases List.mem_append.mp hevent with hevent | hevent
  · exact hx event hevent
  · exact hy event hevent

theorem Unwinding.nil (failure : Failure τ) : Unwinding failure [] :=
  fun _ h => absurd h List.not_mem_nil

theorem Unwinding.returned (failure : Failure τ) :
    Unwinding failure [.returned (.error failure)] :=
  List.forall_mem_singleton.mpr .returned

theorem Unwinding.ascended (failure : Failure τ) (place : Stream) (depth : Nat) :
    Unwinding failure [.ascended place depth] :=
  List.forall_mem_singleton.mpr (.ascended place depth)

/-- Whether an event is the entry into a parser. -/
def Event.isEntry : Event τ → Bool
  | .entered _ => true
  | _ => false

/-- Whether an event is the return of a parser. -/
def Event.isReturn : Event τ → Bool
  | .returned _ => true
  | _ => false

/-! ### Errors of invoked parsers -/

namespace Parser

variable [Quote τ] {α β : Type}

/-- **The error of an invoked parser is the error of the whole**: the run ends with it, and
after the events of the invoked parser there are only such as unwind the error. -/
theorem Invoked.error {q : Parser τ β} {t : Stream} {store : Sources τ} {p : Parser τ α}
    {s : Stream} {sources : Sources τ} {before : List (Event τ)}
    (h : Invoked q t store p s sources before) {failure : Failure τ} {inner : Sources τ}
    {events : List (Event τ)} (hq : (q t).run store = some ⟨.error failure, inner, events⟩) :
    ∃ last after, (p s).run sources =
        some ⟨.error failure, last, before ++ events ++ after⟩ ∧
      Unwinding failure after := by
  induction h with
  | itself =>
      refine ⟨inner, [], ?_, .nil failure⟩
      rw [hq, List.nil_append, List.append_nil]
  | calling callee _ ih =>
      obtain ⟨last, after, hp, hafter⟩ := ih
      refine ⟨last, after, ?_, hafter⟩
      rw [run_calling, hp]
      rfl
  | sequelFirst _ ih =>
      obtain ⟨last, after, hp, hafter⟩ := ih
      refine ⟨last, after, ?_, hafter⟩
      rw [run_sequel, hp]
      rfl
  | sequelSecond _ hfirst _ ih =>
      obtain ⟨last, after, hp, hafter⟩ := ih
      refine ⟨last, after, ?_, hafter⟩
      rw [run_sequel, hfirst, Option.bind_some]
      simp only [hp, Option.map_some, Step.after, List.append_assoc]
  | orElseFirst _ ih =>
      obtain ⟨last, after, hp, hafter⟩ := ih
      refine ⟨last, after, ?_, hafter⟩
      rw [run_orElse, hp]
      rfl
  | orElseSecond _ hfirst _ ih =>
      obtain ⟨last, after, hp, hafter⟩ := ih
      refine ⟨last, after, ?_, hafter⟩
      rw [run_orElse, hfirst, Option.bind_some]
      simp only [hp, Option.map_some, Step.after, List.append_assoc]
  | label name _ ih =>
      obtain ⟨last, after, hp, hafter⟩ := ih
      refine ⟨last, after, ?_, hafter⟩
      rw [run_label, hp]
      rfl
  | commit _ ih =>
      obtain ⟨last, after, hp, hafter⟩ := ih
      refine ⟨last, after, ?_, hafter⟩
      rw [run_commit, hp]
      rfl
  | @nested _ _ s _ _ hroom _ ih =>
      obtain ⟨last, after, hp, hafter⟩ := ih
      let left := last.modify s.source .leave
      refine ⟨left, after ++ [.ascended s (left.get s.source).depth], ?_,
        hafter.append (.ascended _ _ _)⟩
      rw [run_nested, hroom]
      simp only [hp, Option.map_some, List.cons_append, List.append_assoc, left]
  | attemptFirst _ ih =>
      obtain ⟨last, after, hp, hafter⟩ := ih
      refine ⟨last, after, ?_, hafter⟩
      rw [run_attempt, hp]
      rfl
  | attemptSecond _ hfirst hmoved _ ih =>
      obtain ⟨last, after, hp, hafter⟩ := ih
      refine ⟨last, after, ?_, hafter⟩
      rw [run_attempt, hfirst, Option.bind_some]
      simp only [hmoved, if_false, hp, Option.map_some, Step.after, List.append_assoc]
  | observed _ ih =>
      obtain ⟨last, after, hp, hafter⟩ := ih
      refine ⟨last, after ++ [.returned (.error failure)], ?_, hafter.append (.returned _)⟩
      rw [run_observed, hp, Option.map_some]
      simp only [List.cons_append, List.append_assoc]
      rfl

end Parser

/-! ### Errors among the events -/

/-- Events among which no parser returns an error. -/
def Quiet (events : List (Event τ)) : Prop :=
  ∀ failure, Event.returned (.error failure) ∉ events

/-- What an outcome tells of the events that led to it, when **errors are not caught**: an
error was returned by nobody and then only unwound; otherwise there was none. -/
def Uncaught {α : Type} : Outcome τ α → List (Event τ) → Prop
  | .error failure, events =>
    ∃ quiet rest, events = quiet ++ rest ∧ Quiet quiet ∧ Unwinding failure rest
  | _, events => Quiet events

@[simp]
theorem quiet_nil : Quiet ([] : List (Event τ)) :=
  fun _ h => absurd h List.not_mem_nil

@[simp]
theorem quiet_cons {event : Event τ} {events : List (Event τ)} :
    Quiet (event :: events) ↔
      (∀ failure, event ≠ .returned (.error failure)) ∧ Quiet events := by
  simp only [Quiet, List.mem_cons, not_or, forall_and, ne_eq, eq_comm (b := event)]

@[simp]
theorem quiet_append {xs ys : List (Event τ)} : Quiet (xs ++ ys) ↔ Quiet xs ∧ Quiet ys := by
  simp only [Quiet, List.mem_append, not_or, forall_and]

@[simp]
theorem quiet_noted (texts : List String) :
    Quiet (texts.map (Event.noted : String → Event τ)) := by
  intro failure h
  obtain ⟨text, -, htext⟩ := List.mem_map.mp h
  cases htext

namespace Uncaught

variable {α : Type} {outcome : Outcome τ α} {xs ys : List (Event τ)}

/-- Where no error was returned, none was caught. -/
theorem of_quiet (h : Quiet xs) : Uncaught outcome xs := by
  cases outcome with
  | error failure =>
      exact ⟨xs, [], (List.append_nil xs).symm, h, .nil failure⟩
  | _ => exact h

/-- Events without an error can come before. -/
theorem after (hx : Quiet xs) (hy : Uncaught outcome ys) : Uncaught outcome (xs ++ ys) := by
  cases outcome with
  | error failure =>
      obtain ⟨quiet, rest, rfl, hquiet, hrest⟩ := hy
      exact ⟨xs ++ quiet, rest, (List.append_assoc _ _ _).symm,
        quiet_append.mpr ⟨hx, hquiet⟩, hrest⟩
  | _ => exact quiet_append.mpr ⟨hx, hy⟩

/-- The end of a reference can come after. -/
theorem ascended (h : Uncaught outcome xs) (place : Stream) (depth : Nat) :
    Uncaught outcome (xs ++ [.ascended place depth]) := by
  cases outcome with
  | error failure =>
      obtain ⟨quiet, rest, rfl, hquiet, hrest⟩ := h
      exact ⟨quiet, rest ++ [_], List.append_assoc _ _ _, hquiet, hrest.append (.ascended _ _ _)⟩
  | _ => exact quiet_append.mpr ⟨h, by simp⟩

/-- The return of the outcome can come after. -/
theorem returned (h : Uncaught outcome xs) :
    Uncaught outcome (xs ++ [.returned outcome.forget]) := by
  cases outcome with
  | error failure =>
      obtain ⟨quiet, rest, rfl, hquiet, hrest⟩ := h
      exact ⟨quiet, rest ++ [_], List.append_assoc _ _ _, hquiet, hrest.append (.returned _)⟩
  | ok value rest => exact quiet_append.mpr ⟨h, by simp [Outcome.forget, Outcome.map]⟩
  | fail failure => exact quiet_append.mpr ⟨h, by simp [Outcome.forget, Outcome.map]⟩

/-- The first return of an error tells the outcome, and only unwinding follows it. -/
theorem of_split (h : Uncaught outcome xs) {before after : List (Event τ)}
    {failure : Failure τ} (hsplit : xs = before ++ .returned (.error failure) :: after) :
    outcome = .error failure ∧ Unwinding failure after := by
  have hmem : Event.returned (.error failure) ∈ xs := by
    rw [hsplit]
    exact List.mem_append_right _ List.mem_cons_self
  cases outcome with
  | error other =>
      obtain ⟨quiet, rest, hxs, hquiet, hrest⟩ := h
      -- The return is not among the quiet events, so these are a part of `before`.
      obtain ⟨last, hbefore, hrest'⟩ | ⟨last, hquiet', hlast⟩ :=
        List.append_eq_append_iff.mp (hsplit.symm.trans hxs).symm
      · have hreturned := hrest (.returned (.error failure)) (by rw [hrest']; simp)
        cases hreturned
        refine ⟨rfl, fun event hevent => hrest event ?_⟩
        rw [hrest']
        exact List.mem_append_right _ (List.mem_cons_of_mem _ hevent)
      · cases last with
        | nil =>
            obtain rfl : rest = _ := hlast.symm
            have hreturned := hrest (.returned (.error failure)) List.mem_cons_self
            cases hreturned
            exact ⟨rfl, fun event hevent => hrest event (List.mem_cons_of_mem _ hevent)⟩
        | cons event last =>
            obtain ⟨rfl, -⟩ := List.cons.inj hlast
            exact absurd (by rw [hquiet']; simp) (hquiet failure)
  | _ => exact absurd hmem (h failure)

end Uncaught

/-- **Errors are not caught in a parse.** -/
theorem Course.uncaught [Quote τ] {α : Type} {s : Stream} {sources : Sources τ}
    {step : Step τ (Outcome τ α)} (h : Course s sources step) :
    Uncaught step.value step.events := by
  induction h with
  | satisfyAccept h accepted =>
      exact Uncaught.of_quiet (by simp)
  | succeed | fail | satisfyEnd | satisfyReject | eofEnd | eofReject | unusable | refuse =>
      exact Uncaught.of_quiet (by simp)
  | calling callee h ih => exact ih.after (by simp)
  | sequel first second ih₁ ih₂ => exact ih₂.after ih₁
  | retry first second ih₁ ih₂ => exact ih₂.after ih₁
  | passFail h ih => exact ih
  | passError h ih => exact ih
  | label name h ih => exact ih
  | commit h ih => exact Uncaught.of_quiet (quiet_append.mpr ⟨ih, by simp⟩)
  | @nested _ s sources last value events h inner ih =>
      have hquiet : Quiet [(.descended s ((sources.get s.source).depth + 1) : Event τ)] := by simp
      exact (ih.after hquiet).ascended _ _
  | stallStop items first stuck h ih => exact quiet_append.mpr ⟨ih, by simp⟩
  | stallError items first stuck h ih =>
      exact Uncaught.of_quiet (quiet_append.mpr ⟨ih, by simp⟩)
  | @observed _ s sources last value events h ih =>
      have hquiet : Quiet [(.entered s : Event τ)] := by simp
      exact (ih.after hquiet).returned

/-- What one event does to the number of parsers under way. -/
theorem Activity.Admits.length_next {id : Nat} {limit : Option Nat} {base : Nat}
    {a : Activity} {event : Event τ} (h : a.Admits id limit base event) :
    (a.next event).parsers.length + (if event.isReturn then 1 else 0) =
      a.parsers.length + (if event.isEntry then 1 else 0) := by
  cases event with
  | returned outcome =>
      have hpos : 0 < a.parsers.length := List.length_pos_iff.mpr h
      rw [next, List.length_tail]
      simp only [Event.isReturn, Event.isEntry, if_true, Bool.false_eq_true, if_false]
      omega
  | _ => rfl

/-- Each entry adds a parser to those under way and **each return ends one**. -/
theorem Orderly.length_parsers {id : Nat} {limit : Option Nat} {base : Nat} {a : Activity}
    {events : List (Event τ)} (h : Orderly id limit base a events) :
    (a.after events).parsers.length + events.countP Event.isReturn =
      a.parsers.length + events.countP Event.isEntry := by
  induction events generalizing a with
  | nil => rfl
  | cons event events ih =>
      obtain ⟨hadmits, hrest⟩ := h
      have hnext := hadmits.length_next
      have hlength := ih hrest
      rw [Activity.after_cons, List.countP_cons, List.countP_cons]
      omega

/-- Unwinding enters no parser. -/
theorem Unwinding.countP_isEntry {failure : Failure τ} {events : List (Event τ)}
    (h : Unwinding failure events) : events.countP Event.isEntry = 0 := by
  refine List.countP_eq_zero.mpr fun event hevent => ?_
  cases h event hevent <;> exact Bool.false_ne_true

/-! ### Plain grammars -/

/-- **A fatal error is never caught** in a parse of a plain grammar. If a parser invoked on the
way gives an error, the parse ends with that error, and only its unwinding comes after. And
when an error is returned at any moment, every parser then under way returns the same
error, the parse itself ends with it, and nothing is invoked any more. -/
theorem Grammar.error_uncaught [Quote τ] {σ : Signature} {rules : Rules σ τ}
    (hrules : rules.Plain) {scope : Scope σ τ} (hscope : scope.Plain) {α : Type}
    {g : Grammar σ τ α} (hg : g.Plain) {fuel : Nat} {s : Stream} {sources : Sources τ}
    (hs : s.source < sources.next) :
    (∀ {β : Type} {q : Parser τ β} {t : Stream} {store inner : Sources τ}
        {before events : List (Event τ)} {failure : Failure τ},
      q.Invoked t store (parser rules fuel scope g) s sources before →
      (q t).run store = some ⟨.error failure, inner, events⟩ →
      ∃ last after, (parser rules fuel scope g s).run sources =
          some ⟨.error failure, last, before ++ events ++ after⟩ ∧
        Unwinding failure after) ∧
    ∀ {step : Step τ (Outcome τ α)} {before after : List (Event τ)} {failure : Failure τ},
      (parser rules fuel scope g s).run sources = some step →
      step.events = before ++ .returned (.error failure) :: after →
      step.value = .error failure ∧ Unwinding failure after ∧
        after.countP Event.isReturn + 1 = (Activity.after {} before).parsers.length := by
  refine ⟨fun hinvoked hq => hinvoked.error hq, fun {step before after failure} h hsplit => ?_⟩
  have hcourse := (hg.composed hrules fuel hscope).course h
  obtain ⟨hvalue, hafter⟩ := hcourse.uncaught.of_split hsplit
  refine ⟨hvalue, hafter, ?_⟩
  obtain ⟨horderly, hend⟩ := hcourse.settled (a := {}) hs rfl
  rw [hsplit] at horderly hend
  obtain ⟨-, hadmits, hrest⟩ := orderly_append.mp horderly
  have hnow := hadmits.length_next
  have hlater := hrest.length_parsers
  rw [hafter.countP_isEntry] at hlater
  rw [Activity.after_append, Activity.after_cons] at hend
  rw [hend] at hlater
  simp only [Event.isReturn, Event.isEntry, if_true, Bool.false_eq_true, if_false] at hnow
  simp only [List.length_nil] at hlater
  omega

/-- The choice between a commitment that fails and a success. -/
def Brackets.choice : Grammar names Bool Nat := .orElse (.commit (.fail "no")) (.succeed (0 : Nat))

/-- The commitment is invoked on the way and its return is among the events: either way, the
choice ends with its error. -/
theorem Brackets.error_uncaught_choice :
    (∃ last events after,
      (Grammar.parser rules 1 .empty choice .start).run (store none [true]) =
        some ⟨.error ⟨"no", some true, 0⟩, last, [.entered .start] ++ events ++ after⟩ ∧
      Unwinding ⟨"no", some true, 0⟩ after) ∧
    ∃ step before after, (Grammar.parser rules 1 .empty choice .start).run (store none [true]) =
        some step ∧
      step.events = before ++ .returned (.error ⟨"no", some true, 0⟩) :: after ∧
      Unwinding ⟨"no", some true, 0⟩ after ∧
      after.countP Event.isReturn + 1 = (Activity.after {} before).parsers.length := by
  have hplain : choice.Plain := ⟨trivial, trivial⟩
  have hs : Stream.start.source < (store none [true]).next := by decide
  constructor
  · let q : Parser Bool Nat := (Parser.commit (Parser.fail "no").observed).observed
    have hinvoked : q.Invoked .start (store none [true])
        (Grammar.parser rules 1 .empty choice) .start (store none [true])
          [.entered .start] :=
      .observed (.orElseFirst .itself)
    have hrun : ((q .start).run (store none [true])).map Step.value =
        some (.error ⟨"no", some true, 0⟩) := by decide +kernel
    obtain ⟨⟨value, inner, events⟩, hstep, rfl⟩ := Option.map_eq_some_iff.mp hrun
    obtain ⟨last, after, hlast, hafter⟩ :=
      (Grammar.error_uncaught plain_rules plain_scope hplain hs).1 hinvoked hstep
    exact ⟨last, events, after, hlast, hafter⟩
  · have hrun : ((Grammar.parser rules 1 .empty choice .start).run (store none [true])).map
        (fun step => decide (.returned (.error ⟨"no", some true, 0⟩) ∈ step.events)) =
          some true := by decide +kernel
    obtain ⟨step, hstep, hmem⟩ := Option.map_eq_some_iff.mp hrun
    obtain ⟨before, after, hsplit⟩ := List.append_of_mem (of_decide_eq_true hmem)
    obtain ⟨-, hafter, hcount⟩ :=
      (Grammar.error_uncaught plain_rules plain_scope hplain hs).2 hstep hsplit
    exact ⟨step, before, after, hstep, hsplit, hafter, hcount⟩

end Backtrack
