import Backtrack.Proofs.Variation

/-!
# Messages Steer Nothing

The message of a failure travels with the token that was found and the place where. Labels rewrite
it, commitments make it fatal, choices and repetitions throw it away. But nothing reads it: which
way a parse goes is told by the kind of an outcome, by its value and by its rest. So two grammars
that differ in their texts and labels only take the same way, and end alike but for the message.

## Main definitions

* `Step.wordless`: what is seen of a run when messages are left out, in the log as well.
* `Grammar.Rewording`: one change of a text, one label more, or one label fewer.

## Main results

* `Grammar.unseen_rewording`: one rewording is seen in messages only.
* `Grammar.wordless_eq_of_rewording`: so are rewordings at any number of nodes.
-/

namespace Backtrack

variable {σ : Signature} {τ α : Type}

/-! ### Leaving messages out -/

/-- A failure **without its message**. -/
def Failure.wordless (failure : Failure τ) : Failure τ :=
  { failure with message := "" }

/-- An outcome without the message of its failure. -/
def Outcome.wordless : Outcome τ α → Outcome τ α
  | .ok value rest => .ok value rest
  | .fail failure => .fail failure.wordless
  | .error failure => .error failure.wordless

/-- An event without the message that the log would repeat. -/
def Event.wordless : Event τ → Event τ
  | .committed failure => .committed failure.wordless
  | event => event

/-- What is seen of a run **when messages are left out**: the outcome, the store, and the log. -/
def Step.wordless (step : Step τ (Outcome τ α)) : Outcome τ α × Sources τ × List Record :=
  (step.value.wordless, step.sources, Event.log (step.events.map Event.wordless))

theorem Failure.wordless_eq_iff {first second : Failure τ} :
    first.wordless = second.wordless ↔
      first.found = second.found ∧ first.position = second.position := by
  simp [wordless]

/-! ### Rewordings -/

/-- A **rewording** of a grammar at one node: another text, one label more, or one label fewer. -/
inductive Grammar.Rewording : ⦃α : Type⦄ → Grammar σ τ α → Grammar σ τ α → Prop where
  | fail {α : Type} (message other : String) :
      Rewording (.fail message : Grammar σ τ α) (.fail other)
  | satisfy (expected other : String) (test : Test τ) :
      Rewording (.satisfy expected test) (.satisfy other test)
  | labelled {α : Type} (name : String) (g : Grammar σ τ α) : Rewording g (.label name g)
  | unlabelled {α : Type} (name : String) (g : Grammar σ τ α) : Rewording (.label name g) g

variable [Quote τ]

/-- The outlook from which **messages are left out**. -/
def Outlook.wordless : Outlook τ where
  failure := Failure.wordless
  record event := event.wordless.record?
  entered _ := rfl
  returned _ := rfl
  called _ := rfl
  relabel _ h := Failure.wordless_eq_iff.mpr (Failure.wordless_eq_iff.mp h)
  committed h := congrArg (fun failure : Failure τ => Event.record? (.committed failure)) h

theorem Outlook.see_wordless (step : Step τ (Outcome τ α)) :
    Outlook.wordless.see step = step.wordless := by
  obtain ⟨value, sources, events⟩ := step
  have hlog : events.filterMap (Outlook.wordless : Outlook τ).record =
      Event.log (events.map Event.wordless) := by
    rw [Event.log, List.filterMap_map]
    rfl
  cases value <;> exact congrArg (fun log => (_, sources, log)) hlog

namespace Grammar

/-- **One rewording is seen in messages only.** -/
theorem unseen_rewording : Unseen Outlook.wordless (Rewording (σ := σ) (τ := τ)) := by
  -- A label is added to the second parser; where it was removed the two are taken the other way.
  have hlabel : ∀ {β : Type} (name : String) (p : Parser τ β),
      Outlook.wordless.Parsers p (Parser.label name p).observed := by
    intro β name p
    refine .observed_right fun s sources => ?_
    rw [Parser.run_label, Option.map_map]
    refine congrArg (Option.map · _) (funext fun step => ?_)
    obtain ⟨value, last, events⟩ := step
    cases value <;> rfl
  intro α g g' h rules call turns scope
  cases h with
  | fail message other =>
      refine .observed fun s sources => ?_
      rw [Parser.run_fail, Parser.run_fail]
      rfl
  | satisfy expected other test =>
      refine .observed fun s sources => ?_
      rw [Parser.run_satisfy, Parser.run_satisfy]
      cases sources.token s with
      | none => rfl
      | some token => cases h : test.accepts token <;> simp only [h] <;> rfl
  | labelled name g => exact hlabel name _
  | unlabelled name g => exact (hlabel name _).symm

/-- **Messages steer nothing.** Of two grammars that differ in texts and labels only, in their rules
and in the rules around them as well, one ends where the other does: with the same value and rest,
or with a failure of the same kind at the same place, about the same token. The sources are left
alike, with the same tokens asked for and at the same depth, and so is the log but for messages. -/
theorem wordless_eq_of_rewording {rules rules' : Rules σ τ} (hrules : rules.Varies Rewording rules')
    {scope scope' : Scope σ τ} (hscope : scope.Varies Rewording scope') {g g' : Grammar σ τ α}
    (h : g.Varies Rewording g') (fuel : Nat) (s : Stream) (sources : Sources τ) :
    ((parser rules fuel scope g s).run sources).map Step.wordless =
      ((parser rules' fuel scope' g' s).run sources).map Step.wordless := by
  have hseen : (Outlook.wordless : Outlook τ).see (α := α) = Step.wordless :=
    funext Outlook.see_wordless
  rw [← hseen]
  exact h.look_alike unseen_rewording hrules fuel hscope s sources

end Grammar

/-! ### Nested brackets reworded -/

namespace Brackets

/-- The brackets in other words: another text for the closing one, and labels on both sides of the
choice. -/
def reworded : Grammar names Bool Nat :=
  .recursive () (.orElse
    (.label "a pair" (.map (fun n : Nat => n + 1)
      (.keepRight (.satisfy "an opening bracket" ⟨fun t => t, fun _ => []⟩)
        (.keepLeft (.handle ())
          (.commit (.satisfy "the end of the pair" ⟨fun t => !t, fun _ => []⟩))))))
    (.label "nothing" (.deferred ())))

theorem varies_reworded : grammar.Varies Grammar.Rewording reworded := by
  refine Grammar.Varies.recursive (σ := names) () ?_
  refine .orElse ?_ ?_
  · refine .changed (.map _ ?_) (Grammar.Rewording.labelled _ _)
    refine .keepRight (.satisfy _ _) (.keepLeft (Grammar.Varies.handle (σ := names) ()) ?_)
    exact .commit (.changed (.satisfy _ _) (Grammar.Rewording.satisfy _ _ _))
  · refine .changed (Grammar.Varies.deferred (σ := names) ()) ?_
    exact Grammar.Rewording.labelled _ _

/-- A bracket that is not closed is an error in other words too, found at the same place. -/
theorem wordless_eq_of_rewording_open :
    ∃ message, ((Grammar.parser rules 5 .empty reworded .start).run (store none [true])).map
      Step.value = some (.error ⟨message, none, 1⟩) := by
  have hrun : ((Grammar.parser rules 5 .empty grammar .start).run (store none [true])).map
      (fun step => step.value.wordless) = some (.error ⟨"", none, 1⟩) := by
    decide +kernel
  have hrules : rules.Varies Grammar.Rewording rules := fun _ => (plain_rules.rule _).varies
  have hseen := congrArg (Option.map Prod.fst) (Grammar.wordless_eq_of_rewording hrules .empty
    varies_reworded 5 .start (store none [true]))
  rw [Option.map_map, Option.map_map] at hseen
  obtain ⟨⟨value, last, events⟩, hstep, hvalue⟩ := Option.map_eq_some_iff.mp (hseen.symm.trans hrun)
  rw [hstep]
  cases value with
  | ok value rest => cases hvalue
  | fail failure => cases hvalue
  | error failure =>
      obtain ⟨message, found, position⟩ := failure
      obtain ⟨-, rfl, rfl⟩ := Failure.mk.inj (Outcome.error.inj hvalue)
      exact ⟨message, rfl⟩

end Brackets

end Backtrack
