import Backtrack.Proofs.Comparison
import Backtrack.Proofs.Separation

/-!
# Ordered Choice

A choice is between two grammars, each of which may be a choice again, so alternatives in a given
order can be grouped in many ways. The groups make no difference. The alternatives are tried where
the choice is made, one after another, until one does not fail, and those behind it are not tried.

A trial may leave more tokens in the memory of its source than there were before, and the next one
begins on what it left. What an alternative answers does not depend on this, so the answer of a
choice is told by what its alternatives answer each on its own. What happens does depend on it, so a
run of a choice is told by runs of its alternatives that follow each other. Either way a list of
alternatives is gone through in the same manner, which is `Grammar.Trials`, and two lists that are
gone through one behind the other are their concatenation.

## Main definitions

* `Grammar.Grouping`: alternatives in groups.
* `Grammar.Trials`: alternatives tried in order until one does not fail.
* `Grammar.Grouping.record`: what happens in a choice, told by the runs of its alternatives.
* `Grammar.OrderedChoiceLaws`: the answer, the runs and the regrouping of a choice.

## Main results

* `Grammar.Trials.append_iff`: trials of two lists in a row.
* `Grammar.run_grouping_iff`: a choice is run by trying its alternatives in order.
* `Grammar.ordered_choice_laws`: the laws hold of all groupings of plain alternatives.
-/

namespace Backtrack

variable {σ : Signature} {τ α κ ω : Type}

/-- **A run of a choice** is one of its first parser that does not fail, or one of the second behind
a failure of the first. -/
theorem Parser.run_orElse_eq_some_iff {p q : Parser τ α} {s : Stream} {sources : Sources τ}
    {step : Step τ (Outcome τ α)} :
    (orElse p q s).run sources = some step ↔
      ((p s).run sources = some step ∧ step.value.isFail = false) ∨
      ∃ first second, (p s).run sources = some first ∧ first.value.isFail = true ∧
        (q s).run first.sources = some second ∧ step = second.after first.events := by
  rw [run_orElse, Option.bind_eq_some_iff]
  constructor
  · rintro ⟨⟨value, middle, events⟩, hfirst, hrest⟩
    cases value with
    | fail failure =>
        obtain ⟨second, hsecond, rfl⟩ := Option.map_eq_some_iff.mp hrest
        exact .inr ⟨_, second, hfirst, rfl, hsecond, rfl⟩
    | ok value rest =>
        obtain rfl := Option.some.inj hrest
        exact .inl ⟨hfirst, rfl⟩
    | error failure =>
        obtain rfl := Option.some.inj hrest
        exact .inl ⟨hfirst, rfl⟩
  · rintro (⟨hfirst, hdecided⟩ | ⟨⟨value, middle, events⟩, second, hfirst, hfails, hsecond, rfl⟩)
    · refine ⟨step, hfirst, ?_⟩
      obtain ⟨value, last, events⟩ := step
      cases value with
      | fail failure => cases hdecided
      | ok value rest => rfl
      | error failure => rfl
    · refine ⟨_, hfirst, ?_⟩
      cases value with
      | fail failure => exact Option.map_eq_some_iff.mpr ⟨second, hsecond, rfl⟩
      | ok value rest => cases hfails
      | error failure => cases hfails

namespace Grammar

/-! ### Alternatives in groups -/

/-- **Alternatives in groups**: one alone, or a choice between two groups. -/
inductive Grouping (σ : Signature) (τ α : Type) : Type 1 where
  /-- One alternative. -/
  | alone (g : Grammar σ τ α)
  /-- The first group or, where it fails, the second. -/
  | choice (first second : Grouping σ τ α)

namespace Grouping

/-- The alternatives, in order. -/
def alternatives : Grouping σ τ α → List (Grammar σ τ α)
  | .alone g => [g]
  | .choice first second => first.alternatives ++ second.alternatives

/-- The grammar that makes the choices. -/
def grammar : Grouping σ τ α → Grammar σ τ α
  | .alone g => g
  | .choice first second => .orElse first.grammar second.grammar

theorem alternatives_ne_nil (t : Grouping σ τ α) : t.alternatives ≠ [] := by
  induction t with
  | alone g => exact List.cons_ne_nil g []
  | choice first second ih _ => exact List.append_ne_nil_of_left_ne_nil ih _

/-- A choice in groups of plain alternatives is plain. -/
theorem plain_grammar {t : Grouping σ τ α} (ht : ∀ g ∈ t.alternatives, g.Plain) :
    t.grammar.Plain := by
  induction t with
  | alone g => exact ht g List.mem_cons_self
  | choice first second ih ih' =>
      obtain ⟨hfirst, hsecond⟩ := List.forall_mem_append.mp ht
      exact ⟨ih hfirst, ih' hsecond⟩

/-- **What happens in a choice** at `s` when the runs of its alternatives are those in `steps`, from
the first alternative on: each choice that is made begins before its first run, ends behind its last
one, and adds nothing else. -/
def record (s : Stream) : Grouping σ τ α → List (Step τ (Outcome τ α)) → List (Event τ)
  | .alone _, steps => steps.flatMap Step.events
  | .choice first second, steps =>
    match steps.getLast? with
    | none => []
    | some decisive =>
      .entered s :: (first.record s (steps.take first.alternatives.length) ++
        second.record s (steps.drop first.alternatives.length)) ++
          [.returned decisive.value.forget]

/-- Of a choice that is not made, nothing happens. -/
@[simp]
theorem record_nil (s : Stream) (t : Grouping σ τ α) : t.record s [] = [] := by
  cases t <;> rfl

/-- A choice that is decided among its first alternatives. -/
theorem record_of_lt (s : Stream) (first second : Grouping σ τ α)
    {failed : List (Step τ (Outcome τ α))} {decisive : Step τ (Outcome τ α)}
    (h : failed.length < first.alternatives.length) :
    (choice first second).record s (failed ++ [decisive]) =
      .entered s :: first.record s (failed ++ [decisive]) ++
        [.returned decisive.value.forget] := by
  have hlength : (failed ++ [decisive]).length ≤ first.alternatives.length := by
    rw [List.length_append]
    exact h
  rw [record, List.getLast?_concat]
  simp only
  rw [List.take_of_length_le hlength, List.drop_of_length_le hlength, record_nil, List.append_nil]

/-- A choice whose first alternatives have all been tried. -/
theorem record_of_eq (s : Stream) (first second : Grouping σ τ α)
    {before later : List (Step τ (Outcome τ α))} {middle decisive : Step τ (Outcome τ α)}
    (h : before.length + 1 = first.alternatives.length) :
    (choice first second).record s (before ++ middle :: later ++ [decisive]) =
      .entered s :: (first.record s (before ++ [middle]) ++
        second.record s (later ++ [decisive])) ++ [.returned decisive.value.forget] := by
  have hlength : (before ++ [middle]).length = first.alternatives.length := by
    rw [List.length_append]
    exact h
  have hsteps : before ++ middle :: later ++ [decisive] =
      (before ++ [middle]) ++ (later ++ [decisive]) := by
    simp
  rw [record, List.getLast?_concat]
  simp only
  rw [hsteps, List.take_left' hlength, List.drop_left' hlength]

/-- The log is that of the runs, one after another. -/
theorem log_record (s : Stream) (t : Grouping σ τ α) (steps : List (Step τ (Outcome τ α))) :
    Event.log (t.record s steps) = Event.log (steps.flatMap Step.events) := by
  induction t generalizing steps with
  | alone g => rfl
  | choice first second ih ih' =>
      cases hlast : steps.getLast? with
      | none =>
          obtain rfl := List.getLast?_eq_none_iff.mp hlast
          rfl
      | some decisive =>
          have hmarks : ∀ events : List (Event τ), Event.log
              (.entered s :: events ++ [.returned decisive.value.forget]) = Event.log events := by
            intro events
            rw [← List.singleton_append, Event.log_append, Event.log_append]
            exact List.append_nil _
          rw [record, hlast]
          simp only
          rw [hmarks, Event.log_append, ih, ih', ← Event.log_append, ← List.flatMap_append,
            List.take_append_drop]

end Grouping

/-! ### Trials -/

/-- **Alternatives tried in order**, until one does not fail or there are no more. A trial made on
`k` has a result that `ask` says, and the next one is made on what is `left` by that result. The
results before the decisive one are in `failed`. -/
inductive Trials (ask : Grammar σ τ α → κ → ω → Prop) (left : ω → κ) (fails : ω → Bool) :
    List (Grammar σ τ α) → κ → List ω → ω → Prop where
  /-- An alternative that does not fail is decisive, whatever stands behind it. -/
  | decided {g : Grammar σ τ α} {behind : List (Grammar σ τ α)} {k : κ} {result : ω} :
      ask g k result → fails result = false → Trials ask left fails (g :: behind) k [] result
  /-- The last alternative is decisive in any case. -/
  | last {g : Grammar σ τ α} {k : κ} {result : ω} :
      ask g k result → Trials ask left fails [g] k [] result
  /-- After a failure, the alternatives behind it are tried. -/
  | next {g : Grammar σ τ α} {behind : List (Grammar σ τ α)} {k : κ} {result decisive : ω}
      {failed : List ω} :
      ask g k result → fails result = true →
        Trials ask left fails behind (left result) failed decisive →
          Trials ask left fails (g :: behind) k (result :: failed) decisive

namespace Trials

variable {ask : Grammar σ τ α → κ → ω → Prop} {left : ω → κ} {fails : ω → Bool}
  {gs hs : List (Grammar σ τ α)} {k : κ} {failed later : List ω} {middle decisive : ω}

/-- No alternatives are never tried. -/
theorem ne_nil (h : Trials ask left fails gs k failed decisive) : gs ≠ [] := by
  cases h <;> exact List.cons_ne_nil _ _

/-- Each run is that of an alternative. -/
theorem length_lt (h : Trials ask left fails gs k failed decisive) :
    failed.length < gs.length := by
  induction h with
  | decided => exact Nat.succ_pos _
  | last => exact Nat.succ_pos _
  | next _ _ _ ih => exact Nat.succ_lt_succ ih

/-- If all fail, **all have been tried**. -/
theorem length_eq (h : Trials ask left fails gs k failed decisive)
    (hfails : fails decisive = true) : failed.length + 1 = gs.length := by
  induction h with
  | decided _ hdecided => cases hdecided.symm.trans hfails
  | last => rfl
  | next _ _ _ ih => exact congrArg (· + 1) (ih hfails)

/-- Alternatives behind a decision make no difference. -/
theorem append_of_decided (h : Trials ask left fails gs k failed decisive)
    (hdecided : fails decisive = false) : Trials ask left fails (gs ++ hs) k failed decisive := by
  induction h with
  | decided hask hfails => exact .decided hask hfails
  | last hask => exact .decided hask hdecided
  | next hask hfails _ ih => exact .next hask hfails (ih hdecided)

/-- Alternatives behind others that all fail are tried on what is left. -/
theorem append_of_failed (h : Trials ask left fails gs k failed middle)
    (hfails : fails middle = true) (h' : Trials ask left fails hs (left middle) later decisive) :
    Trials ask left fails (gs ++ hs) k (failed ++ middle :: later) decisive := by
  induction h with
  | decided _ hdecided => cases hdecided.symm.trans hfails
  | last hask => exact .next hask hfails h'
  | next hask hfail _ ih => exact .next hask hfail (ih hfails h')

/-- **Trials of two lists in a row**: the first list is decided, or all of it fails and the second
is tried on what it leaves. -/
theorem append_iff (hgs : gs ≠ []) (hhs : hs ≠ []) :
    Trials ask left fails (gs ++ hs) k failed decisive ↔
      (Trials ask left fails gs k failed decisive ∧ fails decisive = false) ∨
      ∃ before middle later, Trials ask left fails gs k before middle ∧ fails middle = true ∧
        Trials ask left fails hs (left middle) later decisive ∧
          failed = before ++ middle :: later := by
  constructor
  · intro h
    induction gs generalizing k failed with
    | nil => exact absurd rfl hgs
    | cons g gs ih =>
        rw [List.cons_append] at h
        generalize hall : gs ++ hs = behind at h
        cases h with
        | decided hask hdecided => exact .inl ⟨.decided hask hdecided, hdecided⟩
        | last hask => exact absurd (List.append_eq_nil_iff.mp hall).2 hhs
        | next hask hfails hbehind =>
            subst hall
            by_cases hnil : gs = []
            · subst hnil
              exact .inr ⟨[], _, _, .last hask, hfails, hbehind, rfl⟩
            · rcases ih hnil hbehind with
                ⟨htried, hdecided⟩ | ⟨before, middle, later, htried, hmiddle, hlater, rfl⟩
              · exact .inl ⟨.next hask hfails htried, hdecided⟩
              · exact .inr ⟨_ :: before, middle, later, .next hask hfails htried, hmiddle, hlater,
                  rfl⟩
  · rintro (⟨h, hdecided⟩ | ⟨before, middle, later, h, hfails, hlater, rfl⟩)
    · exact h.append_of_decided hdecided
    · exact h.append_of_failed hfails hlater

end Trials

/-- Trials that leave nothing behind lead to **the first alternative that does not fail**, or to the
last. -/
theorem exists_trials_iff {asks : Grammar σ τ α → Outcome τ α → Prop} {gs : List (Grammar σ τ α)}
    {outcome : Outcome τ α} :
    (∃ failed, Trials (fun g (_ : Unit) => asks g) (fun _ => ()) Outcome.isFail gs () failed
        outcome) ↔
      ∃ before g behind, gs = before ++ g :: behind ∧
        (∀ h ∈ before, ∃ failure, asks h (.fail failure)) ∧ asks g outcome ∧
          (outcome.isFail = true → behind = []) := by
  constructor
  · rintro ⟨failed, h⟩
    generalize () = here at h
    induction h with
    | decided hask hdecided =>
        refine ⟨[], _, _, rfl, fun h hnone => absurd hnone List.not_mem_nil, hask, fun hfails => ?_⟩
        cases hdecided.symm.trans hfails
    | last hask =>
        exact ⟨[], _, [], rfl, fun h hnone => absurd hnone List.not_mem_nil, hask, fun _ => rfl⟩
    | @next g _ _ result _ _ hask hfails _ ih =>
        obtain ⟨before, decisive, behind, rfl, hbefore, hdecisive, hlast⟩ := ih
        cases result with
        | fail failure =>
            exact ⟨g :: before, decisive, behind, rfl,
              List.forall_mem_cons.mpr ⟨⟨failure, hask⟩, hbefore⟩, hdecisive, hlast⟩
        | ok value rest => cases hfails
        | error failure => cases hfails
  · rintro ⟨before, g, behind, rfl, hbefore, hask, hlast⟩
    induction before with
    | nil =>
        cases hfails : outcome.isFail with
        | false => exact ⟨[], .decided hask hfails⟩
        | true =>
            rw [hlast hfails]
            exact ⟨[], .last hask⟩
    | cons h before ih =>
        obtain ⟨⟨failure, hfail⟩, hrest⟩ := List.forall_mem_cons.mp hbefore
        obtain ⟨failed, htried⟩ := ih hrest
        exact ⟨.fail failure :: failed, .next hfail rfl htried⟩

/-! ### Runs -/

variable [Quote τ]

/-- The **runs of alternatives** at `s`, in order, each on the store that the one before it left,
until one does not fail. -/
def Tried (rules : Rules σ τ) (fuel : Nat) (scope : Scope σ τ) (s : Stream) :
    List (Grammar σ τ α) → Sources τ → List (Step τ (Outcome τ α)) → Step τ (Outcome τ α) → Prop :=
  Trials (fun g store step => (parser rules fuel scope g s).run store = some step) Step.sources
    fun step => step.value.isFail

section

variable {rules : Rules σ τ} {fuel : Nat} {scope : Scope σ τ} {sources : Sources τ} {s : Stream}

/-- The node of a choice adds its beginning and its end. -/
theorem run_orElse_eq_some_iff {g h : Grammar σ τ α} {step : Step τ (Outcome τ α)} :
    (parser rules fuel scope (.orElse g h) s).run sources = some step ↔
      ∃ last : Step τ (Outcome τ α),
        (Parser.orElse (parser rules fuel scope g) (parser rules fuel scope h) s).run sources =
            some last ∧
          step = { last with
            events := .entered s :: last.events ++ [.returned last.value.forget] } := by
  cases fuel with
  | zero =>
      have hnone : (Parser.orElse (parser rules 0 scope g) (parser rules 0 scope h) s).run sources =
          none := Parser.run_orElse _ _ s sources
      rw [hnone]
      simp
  | succ fuel =>
      have hnode : parser rules (fuel + 1) scope (.orElse g h) =
          (Parser.orElse (parser rules (fuel + 1) scope g)
            (parser rules (fuel + 1) scope h)).observed := rfl
      rw [hnode, Parser.run_observed, Option.map_eq_some_iff]
      exact exists_congr fun last => and_congr_right fun _ => eq_comm

/-- **A choice in groups is run by trying its alternatives in order.** -/
theorem run_grouping_iff {t : Grouping σ τ α} {step : Step τ (Outcome τ α)} :
    (parser rules fuel scope t.grammar s).run sources = some step ↔
      ∃ failed decisive, Tried rules fuel scope s t.alternatives sources failed decisive ∧
        step = { decisive with events := t.record s (failed ++ [decisive]) } := by
  induction t generalizing sources step with
  | alone g =>
      have halone : ∀ decisive : Step τ (Outcome τ α),
          ({ decisive with events := (Grouping.alone g).record s [decisive] } : Step τ _) =
            decisive := by
        intro decisive
        simp [Grouping.record]
      constructor
      · intro hrun
        exact ⟨[], step, .last hrun, (halone step).symm⟩
      · rintro ⟨failed, decisive, htried, rfl⟩
        cases htried with
        | decided hrun _ => exact (halone decisive).symm ▸ hrun
        | last hrun => exact (halone decisive).symm ▸ hrun
        | next _ _ hnone => exact absurd rfl hnone.ne_nil
  | choice first second ih ih' =>
      have hfirst := first.alternatives_ne_nil
      have hsecond := second.alternatives_ne_nil
      have hchoice : (Grouping.choice first second).grammar =
          .orElse first.grammar second.grammar := rfl
      rw [hchoice, run_orElse_eq_some_iff]
      simp only [Parser.run_orElse_eq_some_iff]
      constructor
      · rintro ⟨_, ⟨hrun, hdecided⟩ | ⟨_, _, hrun, hfails, hrest, rfl⟩, rfl⟩
        · obtain ⟨failed, decisive, htried, rfl⟩ := ih.mp hrun
          refine ⟨failed, decisive, htried.append_of_decided hdecided, ?_⟩
          rw [Grouping.record_of_lt s first second htried.length_lt]
        · obtain ⟨before, middle, htried, rfl⟩ := ih.mp hrun
          obtain ⟨later, decisive, hlater, rfl⟩ := ih'.mp hrest
          refine ⟨before ++ middle :: later, decisive, htried.append_of_failed hfails hlater, ?_⟩
          rw [Grouping.record_of_eq s first second (htried.length_eq hfails)]
          rfl
      · rintro ⟨failed, decisive, htried, rfl⟩
        rcases (Trials.append_iff hfirst hsecond).mp htried with
          ⟨hone, hdecided⟩ | ⟨before, middle, later, hone, hfails, hlater, rfl⟩
        · refine ⟨_, .inl ⟨ih.mpr ⟨failed, decisive, hone, rfl⟩, hdecided⟩, ?_⟩
          rw [Grouping.record_of_lt s first second hone.length_lt]
        · refine ⟨_, .inr ⟨_, _, ih.mpr ⟨before, middle, hone, rfl⟩, hfails,
            ih'.mpr ⟨later, decisive, hlater, rfl⟩, rfl⟩, ?_⟩
          rw [Grouping.record_of_eq s first second (hone.length_eq hfails)]
          rfl

/-- What is seen of a choice is told by the runs alone, **whatever the groups**. -/
theorem map_seen_grouping_iff {t : Grouping σ τ α} {seen : Outcome τ α × Sources τ × List Record} :
    ((parser rules fuel scope t.grammar s).run sources).map Step.seen = some seen ↔
      ∃ failed decisive, Tried rules fuel scope s t.alternatives sources failed decisive ∧
        seen = (decisive.value, decisive.sources,
          Event.log ((failed ++ [decisive]).flatMap Step.events)) := by
  simp only [Option.map_eq_some_iff, run_grouping_iff]
  constructor
  · rintro ⟨_, ⟨failed, decisive, htried, rfl⟩, rfl⟩
    exact ⟨failed, decisive, htried, by rw [Step.seen, t.log_record]⟩
  · rintro ⟨failed, decisive, htried, rfl⟩
    exact ⟨_, ⟨failed, decisive, htried, rfl⟩, by rw [Step.seen, t.log_record]⟩

/-! ### Answers -/

section

variable (hrules : rules.Plain) (hscope : scope.Plain)

include hrules hscope

/-- **A choice answers what its first grammar does**, unless this fails; then it answers what the
second does at the same position. -/
theorem Plain.answers_orElse_iff {g h : Grammar σ τ α} (hg : g.Plain) (hh : h.Plain)
    (hs : s.source < sources.next) {outcome : Outcome τ α} :
    Answers rules scope (.orElse g h) sources s outcome ↔
      (Answers rules scope g sources s outcome ∧ outcome.isFail = false) ∨
      ∃ failure, Answers rules scope g sources s (.fail failure) ∧
        Answers rules scope h sources s outcome := by
  constructor
  · rintro ⟨last, hlast⟩
    obtain ⟨first, middle, hfirst, hrest⟩ := yields_orElse_iff.mp hlast
    cases first with
    | fail failure =>
        obtain ⟨halike, -⟩ := hg.alike_of_yields hrules hscope hs hfirst
        have hsecond := (hh.answers_congr hrules hscope halike).mpr ⟨last, hrest⟩
        exact .inr ⟨failure, ⟨middle, hfirst⟩, hsecond⟩
    | ok value rest =>
        obtain ⟨rfl, rfl⟩ := hrest
        exact .inl ⟨⟨last, hfirst⟩, rfl⟩
    | error failure =>
        obtain ⟨rfl, rfl⟩ := hrest
        exact .inl ⟨⟨last, hfirst⟩, rfl⟩
  · rintro (⟨⟨last, hfirst⟩, hdecided⟩ | ⟨failure, ⟨middle, hfirst⟩, hsecond⟩)
    · refine ⟨last, yields_orElse_iff.mpr ⟨outcome, last, hfirst, ?_⟩⟩
      cases outcome with
      | fail failure => cases hdecided
      | ok value rest => exact ⟨rfl, rfl⟩
      | error failure => exact ⟨rfl, rfl⟩
    · obtain ⟨halike, -⟩ := hg.alike_of_yields hrules hscope hs hfirst
      obtain ⟨last, hlast⟩ := (hh.answers_congr hrules hscope halike).mp hsecond
      exact ⟨last, yields_orElse_iff.mpr ⟨_, middle, hfirst, hlast⟩⟩

/-- **A choice in groups answers what its alternatives do, tried in order**, each on its own. -/
theorem answers_grouping_iff {t : Grouping σ τ α} (ht : ∀ g ∈ t.alternatives, g.Plain)
    (hs : s.source < sources.next) {outcome : Outcome τ α} :
    Answers rules scope t.grammar sources s outcome ↔
      ∃ failed, Trials (fun g (_ : Unit) => Answers rules scope g sources s) (fun _ => ())
        Outcome.isFail t.alternatives () failed outcome := by
  induction t generalizing outcome with
  | alone g =>
      constructor
      · intro h
        exact ⟨[], .last h⟩
      · rintro ⟨failed, htried⟩
        cases htried with
        | decided h _ => exact h
        | last h => exact h
        | next _ _ hnone => exact absurd rfl hnone.ne_nil
  | choice first second ih ih' =>
      obtain ⟨hfirst, hsecond⟩ := List.forall_mem_append.mp ht
      have hchoice :
          Answers rules scope (.orElse first.grammar second.grammar) sources s outcome ↔ _ :=
        (Grouping.plain_grammar hfirst).answers_orElse_iff hrules hscope
          (Grouping.plain_grammar hsecond) hs
      refine hchoice.trans ?_
      constructor
      · rintro (⟨h, hdecided⟩ | ⟨failure, h, h'⟩)
        · obtain ⟨failed, htried⟩ := (ih hfirst).mp h
          exact ⟨failed, htried.append_of_decided hdecided⟩
        · obtain ⟨before, htried⟩ := (ih hfirst).mp h
          obtain ⟨later, hlater⟩ := (ih' hsecond).mp h'
          exact ⟨_, htried.append_of_failed rfl hlater⟩
      · rintro ⟨failed, htried⟩
        rcases (Trials.append_iff first.alternatives_ne_nil second.alternatives_ne_nil).mp htried
          with ⟨hone, hdecided⟩ | ⟨before, middle, later, hone, hfails, hlater, rfl⟩
        · exact .inl ⟨(ih hfirst).mpr ⟨failed, hone⟩, hdecided⟩
        · cases middle with
          | fail failure =>
              have hsecond' := (ih' hsecond).mpr ⟨later, hlater⟩
              exact .inr ⟨failure, (ih hfirst).mpr ⟨before, hone⟩, hsecond'⟩
          | ok value rest => cases hfails
          | error failure => cases hfails

end

end

/-! ### The laws -/

/-- **The choice between alternatives in groups**, made at `s`. -/
structure OrderedChoiceLaws (rules : Rules σ τ) (scope : Scope σ τ) (t : Grouping σ τ α)
    (sources : Sources τ) (s : Stream) : Prop where
  /-- The choice answers what the first alternative does that does not fail, or what the last one
  does if all fail. Each alternative is asked at `s`, as if there were no others. -/
  answers : ∀ outcome, Answers rules scope t.grammar sources s outcome ↔
    ∃ before g behind, t.alternatives = before ++ g :: behind ∧
      (∀ h ∈ before, ∃ failure, Answers rules scope h sources s (.fail failure)) ∧
        Answers rules scope g sources s outcome ∧ (outcome.isFail = true → behind = [])
  /-- The alternatives up to that one are run once each, in order, and nothing else is. -/
  runs : ∀ fuel step, (parser rules fuel scope t.grammar s).run sources = some step ↔
    ∃ failed decisive, Tried rules fuel scope s t.alternatives sources failed decisive ∧
      step = { decisive with events := t.record s (failed ++ [decisive]) }
  /-- So other groups of the same alternatives end alike, leave the same store with the same tokens
  asked for, and leave the same log. -/
  regroup : ∀ other : Grouping σ τ α, other.alternatives = t.alternatives → ∀ fuel,
    ((parser rules fuel scope other.grammar s).run sources).map Step.seen =
      ((parser rules fuel scope t.grammar s).run sources).map Step.seen

/-- **The groups of a choice make no difference**: its alternatives are tried in order, and the
first that does not fail gives the outcome. -/
theorem ordered_choice_laws {rules : Rules σ τ} (hrules : rules.Plain) {scope : Scope σ τ}
    (hscope : scope.Plain) {t : Grouping σ τ α} (ht : ∀ g ∈ t.alternatives, g.Plain)
    {sources : Sources τ} {s : Stream} (hs : s.source < sources.next) :
    OrderedChoiceLaws rules scope t sources s where
  answers _ := (answers_grouping_iff hrules hscope ht hs).trans exists_trials_iff
  runs _ _ := run_grouping_iff
  regroup other hsame fuel := by
    refine Option.ext fun seen => ?_
    rw [map_seen_grouping_iff, map_seen_grouping_iff, hsame]

end Grammar

namespace Brackets

/-- Two alternatives that fail at an opening bracket, and two that do not. -/
def grouped : Grammar.Grouping names Bool Bool :=
  .choice (.choice (.alone closing) (.alone (.fail "no")))
    (.choice (.alone opening) (.alone (.succeed false)))

/-- The third alternative gives the outcome, and so it does when each choice is made only behind the
alternatives before it. One token is asked for. -/
theorem ordered_choice_laws_third :
    Grammar.Answers rules .empty grouped.grammar (.single (.lazy supply .standard)) .start
      (.ok true ⟨0, 1⟩) ∧
    ∃ last log, ((Grammar.parser rules 1 .empty
        (.orElse closing (.orElse (.fail "no") (.orElse opening (.succeed false)))) .start).run
          (.single (.lazy supply .standard))).map Step.seen = some (.ok true ⟨0, 1⟩, last, log) ∧
      (last.get 0).tape.requests = 1 := by
  let sources : Sources Bool := .single (.lazy supply .standard)
  have hplain : ∀ g ∈ grouped.alternatives, g.Plain := by
    simp [grouped, Grammar.Grouping.alternatives, Grammar.Plain, Grammar.Obeys, Discipline.plain,
      opening, closing]
  have laws : Grammar.OrderedChoiceLaws rules .empty grouped sources .start :=
    Grammar.ordered_choice_laws plain_rules plain_scope hplain (by decide)
  constructor
  · refine (laws.answers _).mpr ⟨[closing, .fail "no"], opening, [.succeed false], rfl, ?_, ?_, ?_⟩
    · refine List.forall_mem_cons.mpr ⟨?_, ?_⟩
      · refine ⟨⟨"expected a closing bracket, got true", some true, 0⟩, ?_⟩
        exact Grammar.answers_of_run 1 (by decide +kernel)
      · refine List.forall_mem_singleton.mpr ⟨⟨"no", some true, 0⟩, ?_⟩
        exact Grammar.answers_of_run 1 (by decide +kernel)
    · exact Grammar.answers_of_run 1 (by decide +kernel)
    · exact fun hfails => absurd hfails (by decide)
  · let nested : Grammar.Grouping names Bool Bool :=
      .choice (.alone closing)
        (.choice (.alone (.fail "no")) (.choice (.alone opening) (.alone (.succeed false))))
    have hrun : ((Grammar.parser rules 1 .empty grouped.grammar .start).run sources).map
        (fun step => (step.value, (step.sources.get 0).tape.requests)) =
        some (.ok true ⟨0, 1⟩, 1) := by decide +kernel
    obtain ⟨step, hstep, hlast⟩ := Option.map_eq_some_iff.mp hrun
    obtain ⟨hvalue, hrequests⟩ := Prod.mk.inj hlast
    refine ⟨step.sources, Event.log step.events, ?_, hrequests⟩
    have hregroup := laws.regroup nested rfl 1
    rw [hstep] at hregroup
    rw [← hvalue]
    exact hregroup

end Brackets

end Backtrack
