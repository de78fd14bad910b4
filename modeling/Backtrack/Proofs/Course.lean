import Backtrack.Proofs.Combinators

/-!
# Courses of Parses

A composed parser that gives an outcome took one of a few courses: a primitive looked at a
token, a success was followed by another parse, a failure was answered by another parse
from the same position, a reference was entered or refused, a repetition stalled. The
relation `Course` has one rule for each. It says what happened and leaves out how the
computation was written, so what every parse does is proved by induction on its course.

## Main definitions

* `Course s sources step`: a parse from `s` on the store `sources` can end with `step`.

## Main results

* `Parser.Composed.course`: what a composed parser gives is the end of a course.
-/

namespace Backtrack

variable {τ : Type} [Quote τ]

/-- The **courses** of a parse from a position on a store, by the step in which they end. -/
inductive Course : {α : Type} → Stream → Sources τ → Step τ (Outcome τ α) → Prop where
  /-- Success without a look. -/
  | succeed {α : Type} {s : Stream} {sources : Sources τ} (value : α) :
      Course s sources ⟨.ok value s, sources, []⟩
  /-- Failure in the words of the grammar. -/
  | fail {α : Type} {s : Stream} {sources : Sources τ} (message : String) :
      Course (α := α) s sources
        ⟨.fail ⟨message, sources.token s, s.position⟩, sources.look s, [.inspected s]⟩
  /-- A token was wanted at the end of input. -/
  | satisfyEnd {s : Stream} {sources : Sources τ} (expected : String)
      (h : sources.token s = none) :
      Course (α := τ) s sources
        ⟨.fail ⟨Message.unexpectedEnd expected, none, s.position⟩, sources.look s,
          [.inspected s]⟩
  /-- A token passed its test. -/
  | satisfyAccept {s : Stream} {sources : Sources τ} {test : Test τ} {token : τ}
      (h : sources.token s = some token) (accepted : test.accepts token = true) :
      Course s sources
        ⟨.ok token s.advance, (sources.look s).look s,
          .inspected s :: .called .predicate :: (test.notes token).map .noted ++
            [.inspected s]⟩
  /-- A token did not pass its test. -/
  | satisfyReject {s : Stream} {sources : Sources τ} {test : Test τ} {token : τ}
      (expected : String) (h : sources.token s = some token)
      (rejected : test.accepts token = false) :
      Course (α := τ) s sources
        ⟨.fail ⟨Message.mismatch expected token, some token, s.position⟩, sources.look s,
          .inspected s :: .called .predicate :: (test.notes token).map .noted⟩
  /-- The end of input was wanted and found. -/
  | eofEnd {s : Stream} {sources : Sources τ} (h : sources.token s = none) :
      Course s sources ⟨.ok () s, sources.look s, [.inspected s]⟩
  /-- The end of input was wanted and a token found. -/
  | eofReject {s : Stream} {sources : Sources τ} {token : τ}
      (h : sources.token s = some token) :
      Course (α := Unit) s sources
        ⟨.fail ⟨Message.mismatch Message.endOfInput token, some token, s.position⟩,
          sources.look s, [.inspected s]⟩
  /-- A rule without a body was used. -/
  | unusable {α : Type} {s : Stream} {sources : Sources τ} (phase : Phase)
      (message : String) :
      Course (α := α) s sources
        ⟨.error ⟨message, sources.token s, s.position⟩, sources.look s,
          [.unusable s phase, .inspected s]⟩
  /-- Something that the grammar brought along was called first. -/
  | calling {α : Type} {s : Stream} {sources : Sources τ} {step : Step τ (Outcome τ α)}
      (callee : Callee) (h : Course s sources step) :
      Course s sources (step.after [.called callee])
  /-- After a success, the parse went on behind it. -/
  | sequel {α β : Type} {s rest : Stream} {sources middle : Sources τ} {value : α}
      {events : List (Event τ)} {last : Step τ (Outcome τ β)}
      (first : Course s sources ⟨.ok value rest, middle, events⟩)
      (second : Course rest middle last) :
      Course s sources (last.after events)
  /-- A recoverable failure was passed on. -/
  | passFail {α β : Type} {s : Stream} {sources last : Sources τ} {failure : Failure τ}
      {events : List (Event τ)}
      (h : Course (α := α) s sources ⟨.fail failure, last, events⟩) :
      Course (α := β) s sources ⟨.fail failure, last, events⟩
  /-- A fatal error was passed on. -/
  | passError {α β : Type} {s : Stream} {sources last : Sources τ} {failure : Failure τ}
      {events : List (Event τ)}
      (h : Course (α := α) s sources ⟨.error failure, last, events⟩) :
      Course (α := β) s sources ⟨.error failure, last, events⟩
  /-- After a recoverable failure, another parse was made from the same position. -/
  | retry {α β : Type} {s : Stream} {sources middle : Sources τ} {failure : Failure τ}
      {events : List (Event τ)} {last : Step τ (Outcome τ β)}
      (first : Course (α := α) s sources ⟨.fail failure, middle, events⟩)
      (second : Course s middle last) :
      Course s sources (last.after events)
  /-- A recoverable failure was renamed. -/
  | label {α : Type} {s : Stream} {sources last : Sources τ} {failure : Failure τ}
      {events : List (Event τ)} (name : String)
      (h : Course (α := α) s sources ⟨.fail failure, last, events⟩) :
      Course (α := α) s sources ⟨.fail (failure.relabel name), last, events⟩
  /-- A recoverable failure became fatal. -/
  | commit {α : Type} {s : Stream} {sources last : Sources τ} {failure : Failure τ}
      {events : List (Event τ)}
      (h : Course (α := α) s sources ⟨.fail failure, last, events⟩) :
      Course (α := α) s sources ⟨.error failure, last, events ++ [.committed failure]⟩
  /-- A reference was refused. -/
  | refuse {α : Type} {s : Stream} {sources : Sources τ} {limit : Nat}
      (h : (sources.get s.source).config.admits (sources.get s.source).depth = .error limit) :
      Course (α := α) s sources
        ⟨.error ⟨Message.recursionLimit limit, sources.token s, s.position⟩, sources.look s,
          [.refused s limit, .inspected s]⟩
  /-- A reference was entered and left. -/
  | nested {α : Type} {s : Stream} {sources last : Sources τ} {value : Outcome τ α}
      {events : List (Event τ)}
      (h : (sources.get s.source).config.admits (sources.get s.source).depth = .ok ())
      (inner : Course s (sources.modify s.source .enter) ⟨value, last, events⟩) :
      Course s sources
        ⟨value, last.modify s.source .leave,
          .descended s ((sources.get s.source).depth + 1) :: events ++
            [.ascended s ((last.modify s.source .leave).get s.source).depth]⟩
  /-- A repetition stalled and ended. -/
  | stallStop {α : Type} {s rest : Stream} {sources middle : Sources τ} {value : α}
      {events : List (Event τ)} (items : List α)
      (first : Course s sources ⟨.ok value rest, middle, events⟩)
      (stuck : rest.position = s.position)
      (h : (middle.get s.source).config.repetition = .stop) :
      Course s sources ⟨.ok items s, middle, events ++ [.stalled s items.length .stop]⟩
  /-- A repetition stalled and the parse was aborted. -/
  | stallError {α : Type} {s rest : Stream} {sources middle : Sources τ} {value : α}
      {events : List (Event τ)} (items : List α)
      (first : Course s sources ⟨.ok value rest, middle, events⟩)
      (stuck : rest.position = s.position)
      (h : (middle.get s.source).config.repetition = .error) :
      Course (α := List α) s sources
        ⟨.error ⟨Message.noProgress, middle.token s, s.position⟩, middle.look s,
          events ++ [.stalled s items.length .error, .inspected s]⟩
  /-- The beginning and the end were recorded. -/
  | observed {α : Type} {s : Stream} {sources last : Sources τ} {value : Outcome τ α}
      {events : List (Event τ)} (h : Course s sources ⟨value, last, events⟩) :
      Course s sources
        ⟨value, last, .entered s :: events ++ [.returned value.forget]⟩

/-! ### Composed parsers take courses -/

/-- **A composed parser takes a course** whenever it gives an outcome. -/
theorem Parser.Composed.course {α : Type} {p : Parser τ α} (hp : Composed p) {s : Stream}
    {sources : Sources τ} {step : Step τ (Outcome τ α)} (h : (p s).run sources = some step) :
    Course s sources step := by
  induction hp generalizing s sources with
  | exhausted => cases h
  | succeed value =>
      obtain rfl := Option.some.inj h
      exact .succeed value
  | fail message =>
      rw [run_fail] at h
      obtain rfl := Option.some.inj h
      exact .fail message
  | satisfy expected test =>
      rw [run_satisfy] at h
      obtain rfl := Option.some.inj h
      cases ht : sources.token s with
      | none => exact .satisfyEnd expected ht
      | some token =>
          by_cases ha : test.accepts token = true
          · simp only [ha, if_true]
            exact .satisfyAccept ht ha
          · simp only [ha]
            exact .satisfyReject expected ht (by simpa using ha)
  | eof =>
      rw [run_eof] at h
      obtain rfl := Option.some.inj h
      cases ht : sources.token s with
      | none => exact .eofEnd ht
      | some token => exact .eofReject ht
  | unusable phase message =>
      rw [run_unusable] at h
      obtain rfl := Option.some.inj h
      exact .unusable phase message
  | calling callee _ ih =>
      rw [run_calling] at h
      obtain ⟨inner, hi, rfl⟩ := Option.map_eq_some_iff.mp h
      exact .calling callee (ih hi)
  | sequel _ _ ihp ihnext =>
      rw [run_sequel] at h
      obtain ⟨⟨value, middle, events⟩, h₁, h₂⟩ := Option.bind_eq_some_iff.mp h
      cases value with
      | ok value rest =>
          obtain ⟨last, h₃, rfl⟩ := Option.map_eq_some_iff.mp h₂
          exact .sequel (ihp h₁) (ihnext value h₃)
      | fail failure =>
          obtain rfl := Option.some.inj h₂
          exact .passFail (ihp h₁)
      | error failure =>
          obtain rfl := Option.some.inj h₂
          exact .passError (ihp h₁)
  | orElse _ _ ihp ihq =>
      rw [run_orElse] at h
      obtain ⟨⟨value, middle, events⟩, h₁, h₂⟩ := Option.bind_eq_some_iff.mp h
      cases value with
      | ok value rest =>
          obtain rfl := Option.some.inj h₂
          exact ihp h₁
      | fail failure =>
          obtain ⟨last, h₃, rfl⟩ := Option.map_eq_some_iff.mp h₂
          exact .retry (ihp h₁) (ihq h₃)
      | error failure =>
          obtain rfl := Option.some.inj h₂
          exact ihp h₁
  | label name _ ih =>
      rw [run_label] at h
      obtain ⟨⟨value, last, events⟩, hi, rfl⟩ := Option.map_eq_some_iff.mp h
      cases value with
      | ok value rest => exact ih hi
      | fail failure => exact .label name (ih hi)
      | error failure => exact ih hi
  | commit _ ih =>
      rw [run_commit] at h
      obtain ⟨⟨value, last, events⟩, hi, rfl⟩ := Option.map_eq_some_iff.mp h
      cases value with
      | ok value rest => exact ih hi
      | fail failure => exact .commit (ih hi)
      | error failure => exact ih hi
  | nested _ ih =>
      rw [run_nested] at h
      cases ha : (sources.get s.source).config.admits (sources.get s.source).depth with
      | error limit =>
          rw [ha] at h
          obtain rfl := Option.some.inj h
          exact .refuse ha
      | ok _ =>
          rw [ha] at h
          obtain ⟨⟨value, last, events⟩, hi, rfl⟩ := Option.map_eq_some_iff.mp h
          exact .nested ha (ih hi)
  | attempt items _ _ ihp ihnext =>
      rw [run_attempt] at h
      obtain ⟨⟨value, middle, events⟩, h₁, h₂⟩ := Option.bind_eq_some_iff.mp h
      cases value with
      | ok item rest =>
          by_cases hr : rest.position = s.position
          · simp only [hr, if_true] at h₂
            obtain rfl := Option.some.inj h₂
            rw [run_stall]
            cases hpol : (middle.get s.source).config.repetition with
            | stop => exact .stallStop items (ihp h₁) hr hpol
            | error => exact .stallError items (ihp h₁) hr hpol
          · simp only [hr, if_false] at h₂
            obtain ⟨last, h₃, rfl⟩ := Option.map_eq_some_iff.mp h₂
            exact .sequel (ihp h₁) (ihnext item h₃)
      | fail failure =>
          obtain rfl := Option.some.inj h₂
          have hcourse := Course.retry (ihp h₁) (Course.succeed items)
          simpa [Step.after] using hcourse
      | error failure =>
          obtain rfl := Option.some.inj h₂
          exact .passError (ihp h₁)
  | observed _ ih =>
      rw [run_observed] at h
      obtain ⟨⟨value, last, events⟩, hi, rfl⟩ := Option.map_eq_some_iff.mp h
      exact .observed (ih hi)

end Backtrack
