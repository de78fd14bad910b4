import Backtrack.Proofs.Composed
import Backtrack.Proofs.Reading

/-!
# What the Combinators Do

One equation for each primitive and each elementary combinator: what it gives on a store, in
terms of what its parts give. The equations also tell when there is no result, because a
part ran out of fuel. What a parse does is read off these equations and not off the
computations themselves.

## Main results

* `Parser.run_fail`, `Parser.run_satisfy`, `Parser.run_eof`, `Parser.run_unusable`: the
  primitives.
* `Parser.run_sequel`, `Parser.run_orElse`, `Parser.run_label`, `Parser.run_commit`,
  `Parser.run_nested`, `Parser.run_attempt`, `Parser.run_attempts_succ`, `Parser.run_calling`,
  `Parser.run_observed`: the combinators.
-/

namespace Backtrack

/-- An outcome with which a parse goes on, if at all, **at home**. -/
def Outcome.Within {τ α : Type} (home : Stream → Prop) : Outcome τ α → Prop
  | .ok _ rest => home rest
  | _ => True

/-- No events before change nothing. -/
@[simp]
theorem Step.map_after_nil {τ α : Type} (step : Option (Step τ α)) :
    step.map (Step.after []) = step := by
  cases step <;> rfl

namespace Parser

variable {τ α β : Type}

/-! ### Primitives -/

theorem run_fail (message : String) (s : Stream) (sources : Sources τ) :
    (fail message s : Run τ (Outcome τ α)).run sources =
      some ⟨.fail ⟨message, sources.token s, s.position⟩, sources.look s, [.inspected s]⟩ := by
  simp [fail]

theorem run_satisfy [Quote τ] (expected : String) (test : Test τ) (s : Stream)
    (sources : Sources τ) :
    (satisfy expected test s : Run τ (Outcome τ τ)).run sources = some (match sources.token s with
      | none => ⟨.fail ⟨Message.unexpectedEnd expected, none, s.position⟩, sources.look s,
          [.inspected s]⟩
      | some token =>
        if test.accepts token then
          ⟨.ok token s.advance, (sources.look s).look s,
            .inspected s :: .called .predicate :: (test.notes token).map .noted ++
              [.inspected s]⟩
        else
          ⟨.fail ⟨Message.mismatch expected token, some token, s.position⟩, sources.look s,
            .inspected s :: .called .predicate :: (test.notes token).map .noted⟩) := by
  cases h : sources.token s with
  | none => simp [satisfy, Step.after, h]
  | some token =>
      by_cases ha : test.accepts token = true <;> simp [satisfy, Run.note, Step.after, h, ha]

theorem run_eof [Quote τ] (s : Stream) (sources : Sources τ) :
    (eof s : Run τ (Outcome τ Unit)).run sources = some (match sources.token s with
      | none => ⟨.ok () s, sources.look s, [.inspected s]⟩
      | some token =>
        ⟨.fail ⟨Message.mismatch Message.endOfInput token, some token, s.position⟩,
          sources.look s, [.inspected s]⟩) := by
  cases h : sources.token s <;> simp [eof, Step.after, h]

theorem run_unusable (phase : Phase) (message : String) (s : Stream) (sources : Sources τ) :
    (unusable phase message s : Run τ (Outcome τ α)).run sources =
      some ⟨.error ⟨message, sources.token s, s.position⟩, sources.look s,
        [.unusable s phase, .inspected s]⟩ := by
  simp [unusable, Step.after]

/-! ### Combinators that change what one part gives -/

theorem run_calling (callee : Callee) (p : Parser τ α) (s : Stream) (sources : Sources τ) :
    (calling callee p s).run sources =
      ((p s).run sources).map (Step.after [.called callee]) := by
  simp [calling]

theorem run_observed (p : Parser τ α) (s : Stream) (sources : Sources τ) :
    (p.observed s).run sources =
      ((p s).run sources).map fun step =>
        ⟨step.value, step.sources,
          .entered s :: step.events ++ [.returned step.value.forget]⟩ := by
  rw [observed, Run.carry_eq, Run.run_emit_bind, Run.run_bind]
  cases (p s).run sources <;> simp [Step.after]

theorem run_label [Quote τ] (name : String) (p : Parser τ α) (s : Stream)
    (sources : Sources τ) :
    (label name p s).run sources =
      ((p s).run sources).map fun step =>
        match step.value with
        | .fail failure => { step with value := .fail (failure.relabel name) }
        | _ => step := by
  rw [label, Run.run_bind]
  cases h : (p s).run sources with
  | none => rfl
  | some step =>
      obtain ⟨value, last, events⟩ := step
      cases value <;> simp [Step.after]

theorem run_commit (p : Parser τ α) (s : Stream) (sources : Sources τ) :
    (commit p s).run sources =
      ((p s).run sources).map fun step =>
        match step.value with
        | .fail failure =>
          ⟨.error failure, step.sources, step.events ++ [.committed failure]⟩
        | _ => step := by
  rw [commit, Run.run_bind]
  cases h : (p s).run sources with
  | none => rfl
  | some step =>
      obtain ⟨value, last, events⟩ := step
      cases value <;> simp [Step.after]

/-- **A reference** is refused, or its rule is run one level deeper. -/
theorem run_nested (p : Parser τ α) (s : Stream) (sources : Sources τ) :
    (nested p s).run sources =
      match (sources.get s.source).config.admits (sources.get s.source).depth with
      | .error limit =>
        some ⟨.error ⟨Message.recursionLimit limit, sources.token s, s.position⟩,
          sources.look s, [.refused s limit, .inspected s]⟩
      | .ok () =>
        ((p s).run (sources.modify s.source .enter)).map fun step =>
          ⟨step.value, step.sources.modify s.source .leave,
            .descended s ((sources.get s.source).depth + 1) :: step.events ++
              [.ascended s ((step.sources.modify s.source .leave).get s.source).depth]⟩ := by
  rw [nested, Run.carry_eq, Run.run_toRun_bind, Stream.run_descend]
  cases h : (sources.get s.source).config.admits (sources.get s.source).depth with
  | error limit => simp [refuse, Step.after]
  | ok _ =>
      simp only [Run.run_bind]
      cases (p s).run (sources.modify s.source .enter) <;> simp [Step.after]

/-! ### Combinators that go on after a part -/

theorem run_sequel (p : Parser τ α) (next : α → Parser τ β) (s : Stream)
    (sources : Sources τ) :
    (sequel p next s).run sources =
      ((p s).run sources).bind fun first =>
        match first.value with
        | .ok value rest =>
          ((next value rest).run first.sources).map (Step.after first.events)
        | .fail failure => some ⟨.fail failure, first.sources, first.events⟩
        | .error failure => some ⟨.error failure, first.sources, first.events⟩ := by
  rw [sequel, Run.run_bind]
  cases h : (p s).run sources with
  | none => rfl
  | some step =>
      obtain ⟨value, last, events⟩ := step
      cases value <;> simp [Outcome.andThen, Step.after]

theorem run_orElse (p q : Parser τ α) (s : Stream) (sources : Sources τ) :
    (orElse p q s).run sources =
      ((p s).run sources).bind fun first =>
        match first.value with
        | .fail _ => ((q s).run first.sources).map (Step.after first.events)
        | _ => some first := by
  rw [orElse, Run.run_bind]
  cases h : (p s).run sources with
  | none => rfl
  | some step =>
      obtain ⟨value, last, events⟩ := step
      cases value <;> simp [Step.after]

/-- What a stalled repetition becomes. -/
theorem run_stall (items : List α) (s : Stream) (sources : Sources τ) :
    (stall items s).run sources =
      match (sources.get s.source).config.repetition with
      | .stop => ⟨.ok items s, sources, [.stalled s items.length .stop]⟩
      | .error =>
        ⟨.error ⟨Message.noProgress, sources.token s, s.position⟩, sources.look s,
          [.stalled s items.length .error, .inspected s]⟩ := by
  cases h : (sources.get s.source).config.repetition <;>
    simp [stall, h]

theorem run_attempt (p : Parser τ α) (items : List α) (next : α → Parser τ (List α))
    (s : Stream) (sources : Sources τ) :
    (attempt p items next s).run sources =
      ((p s).run sources).bind fun first =>
        match first.value with
        | .ok item rest =>
          if rest.position = s.position then
            some (((stall items s).run first.sources).after first.events)
          else ((next item rest).run first.sources).map (Step.after first.events)
        | .fail _ => some ⟨.ok items s, first.sources, first.events⟩
        | .error failure => some ⟨.error failure, first.sources, first.events⟩ := by
  rw [attempt, Run.run_bind]
  cases h : (p s).run sources with
  | none => rfl
  | some step =>
      obtain ⟨value, last, events⟩ := step
      cases value with
      | ok item rest =>
          by_cases hr : rest.position = s.position <;> simp [hr]
      | fail failure => simp [Step.after]
      | error failure => simp [Step.after]

/-- A repetition with a turn left makes an attempt and goes on with one turn less. -/
theorem run_attempts_succ (p : Parser τ α) (turns : Nat) (cursor : Stream) (items : List α)
    (sources : Sources τ) :
    (attempts p (turns + 1) cursor items).run sources =
      ((p cursor).run sources).bind fun first =>
        match first.value with
        | .ok item rest =>
          if rest.position = cursor.position then
            some (((stall items.reverse cursor).run first.sources).after first.events)
          else
            ((attempts p turns rest (item :: items)).run first.sources).map
              (Step.after first.events)
        | .fail _ => some ⟨.ok items.reverse cursor, first.sources, first.events⟩
        | .error failure => some ⟨.error failure, first.sources, first.events⟩ :=
  run_attempt p items.reverse (fun item rest => attempts p turns rest (item :: items)) cursor
    sources

end Parser

end Backtrack
