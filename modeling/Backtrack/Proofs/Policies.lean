import Backtrack.Proofs.Limit

/-!
# The Two Policies of Repetition

A repetition whose parser succeeds without advancing has stalled. Under one policy it ends
there, under the other the parse is aborted. The two policies are compared on one parse: as
long as nothing stalls they cannot be told apart, and the first stall, wherever it lies and
whatever the lenient parse makes of it later, decides the strict parse.

Which stall is the first is read off the events of the lenient parse. The comparison rests
on the lockstep of lenient and strict runs, where only a stall can part the two, and on
the policy that each stall carries: no event before the parting can be a stall, since it
would carry both policies.

## Main definitions

* `Sources.repeating`: a store with another policy for one of its sources.
* `FirstStall`: a strict parse is aborted by the first stall of the lenient one.

## Main results

* `Course.stalled_policy`: a stall carries the policy of the source.
* `Grammar.policies_compared`: the exact relation of the policies, for all plain grammars.
-/

namespace Backtrack

variable {τ : Type}

/-! ### Stalls among the events -/

/-- Whether an event is the stall of a repetition. -/
def Event.isStall : Event τ → Bool
  | .stalled _ _ _ => true
  | _ => false

/-- **A stall carries the policy** of the source that is parsed. -/
theorem Course.stalled_policy [Quote τ] {α : Type} {s : Stream} {sources : Sources τ}
    {step : Step τ (Outcome τ α)} (h : Course s sources step) {place : Stream} {items : Nat}
    {policy : RepeatPolicy} (hmem : .stalled place items policy ∈ step.events) :
    policy = (sources.get s.source).config.repetition := by
  induction h with
  | succeed | fail | satisfyEnd | eofEnd | eofReject | unusable | refuse => simp at hmem
  | satisfyAccept h accepted => simp at hmem
  | satisfyReject expected h rejected => simp at hmem
  | calling callee h ih => exact ih (by simpa [Step.after] using hmem)
  | sequel first second ih₁ ih₂ =>
      rcases List.mem_append.mp hmem with hmem | hmem
      · exact ih₁ hmem
      · rw [ih₂ hmem, first.source_rest rfl, first.config_eq]
  | passFail h ih => exact ih hmem
  | passError h ih => exact ih hmem
  | retry first second ih₁ ih₂ =>
      rcases List.mem_append.mp hmem with hmem | hmem
      · exact ih₁ hmem
      · rw [ih₂ hmem, first.config_eq]
  | label name h ih => exact ih hmem
  | commit h ih => exact ih (by simpa using hmem)
  | @nested _ s sources last value events h inner ih =>
      have hpolicy := ih (by simpa using hmem)
      have hconfig : ((sources.modify s.source .enter).get s.source).config =
          (sources.get s.source).config :=
        Sources.config_effect sources (.descended s 0) s.source
      rw [hpolicy, hconfig]
  | stallStop items first stuck h ih =>
      rcases List.mem_append.mp hmem with hmem | hmem
      · exact ih hmem
      · obtain ⟨-, -, rfl⟩ := by simpa using hmem
        rw [← h, first.config_eq]
  | stallError items first stuck h ih =>
      rcases List.mem_append.mp hmem with hmem | hmem
      · exact ih hmem
      · obtain ⟨-, -, rfl⟩ := by simpa using hmem
        rw [← h, first.config_eq]
  | observed h ih => exact ih (by simpa using hmem)

/-! ### Other policies -/

/-- The same store with another policy of repetition for the source `id`. -/
def Sources.repeating (sources : Sources τ) (id : Nat) (policy : RepeatPolicy) : Sources τ :=
  sources.modify id fun source => { source with config := source.config.withRepeatPolicy policy }

namespace Sources

variable {sources : Sources τ} {id : Nat}

@[simp]
theorem next_repeating (policy : RepeatPolicy) :
    (sources.repeating id policy).next = sources.next :=
  next_modify sources id _

theorem get_repeating (h : id < sources.next) (policy : RepeatPolicy) :
    (sources.repeating id policy).get id =
      { sources.get id with config := (sources.get id).config.withRepeatPolicy policy } :=
  get_modify_self h

/-- A policy changes no token. -/
@[simp]
theorem token_repeating (policy : RepeatPolicy) (place : Stream) :
    (sources.repeating id policy).token place = sources.token place := by
  have h := rel_get_modify (P := fun new old => new.token = old.token)
    (f := fun source => { source with config := source.config.withRepeatPolicy policy })
    (fun _ => rfl) (fun _ => rfl) sources id place.source
  exact congrFun h place.position

/-- A store that lets repetitions stall tolerates what it does when stalls are forbidden. -/
theorem tolerates_repeating (h : id < sources.next)
    (hdepth : ∀ n, (sources.get id).config.maxDepth = some n → (sources.get id).depth ≤ n) :
    Sources.Tolerates id (sources.repeating id .stop) (sources.repeating id .error) := by
  constructor
  · rw [next_repeating]
    exact h
  · rw [next_repeating]
    exact h
  · rw [get_repeating h, get_repeating h]
    rfl
  · rw [get_repeating h, get_repeating h]
  · rw [get_repeating h]
    exact hdepth
  · rw [get_repeating h, get_repeating h]
    exact ⟨fun m hm => ⟨m, hm, Nat.le_refl m⟩, fun _ => rfl⟩

end Sources

/-! ### The first stall -/

/-- **The first stall** of a parse is the one at `place`: where stalls are allowed, a repetition
of `items` items ends there, the first of all to stall, and the parse goes on; where they
are forbidden the parse is aborted there, runs nothing more and fails with the error of the
stall. -/
structure FirstStall {α : Type} (sources : Sources τ) (lenient strict : Step τ (Outcome τ α))
    (place : Stream) (items : Nat) (before after unwinding : List (Event τ)) : Prop where
  lenient_events : lenient.events = before ++ .stalled place items .stop :: after
  first : ∀ event ∈ before, event.isStall = false
  strict_events : strict.events =
    before ++ [.stalled place items .error, .inspected place] ++ unwinding
  unwinding : Unwinding ⟨Message.noProgress, sources.token place, place.position⟩ unwinding
  value : strict.value = .error ⟨Message.noProgress, sources.token place, place.position⟩

variable [Quote τ]

/-- An event of two parses, the one under the policy `stop` and the other under `error`, is no
stall. -/
private theorem Course.isStall_eq_false {α : Type} {s : Stream} {lenient strict : Sources τ}
    {first second : Step τ (Outcome τ α)} (hfirst : Course s lenient first)
    (hsecond : Course s strict second)
    (hlenient : (lenient.get s.source).config.repetition = .stop)
    (hstrict : (strict.get s.source).config.repetition = .error) {event : Event τ}
    (hmem₁ : event ∈ first.events) (hmem₂ : event ∈ second.events) : event.isStall = false := by
  cases event with
  | stalled place items policy =>
      have hstop := (hfirst.stalled_policy hmem₁).trans hlenient
      have herror := (hsecond.stalled_policy hmem₂).trans hstrict
      cases hstop.symm.trans herror
  | _ => rfl

/-- A parse that ends where stalls are allowed ends where they are forbidden: as it did, if
nothing stalled, and else with the error of the first stall. -/
theorem Parser.Composed.first_stall {α : Type} {p : Parser τ α} (hp : Composed p)
    {s : Stream} {sources : Sources τ} (hs : s.source < sources.next)
    (hdepth : ∀ n, (sources.get s.source).config.maxDepth = some n →
      (sources.get s.source).depth ≤ n) {lenient : Step τ (Outcome τ α)}
    (hlenient : (p s).run (sources.repeating s.source .stop) = some lenient) :
    ∃ strict, (p s).run (sources.repeating s.source .error) = some strict ∧
      ((∀ event ∈ lenient.events, event.isStall = false) →
        strict.value = lenient.value ∧ strict.events = lenient.events) ∧
      ((∃ event ∈ lenient.events, event.isStall = true) →
        ∃ place items before after unwinding,
          FirstStall sources lenient strict place items before after unwinding) := by
  have hlock := hp.lockstep (Sources.tolerates_repeating hs hdepth)
  have hstop : ((sources.repeating s.source .stop).get s.source).config.repetition = .stop := by
    rw [Sources.get_repeating hs]
    rfl
  have herror : ((sources.repeating s.source .error).get s.source).config.repetition =
      .error := by
    rw [Sources.get_repeating hs]
    rfl
  have hcommon : ∀ {strict}, (p s).run (sources.repeating s.source .error) = some strict →
      ∀ event ∈ lenient.events, event ∈ strict.events → event.isStall = false :=
    fun hstrict _ hmem₁ hmem₂ =>
      (hp.course hlenient).isStall_eq_false (hp.course hstrict) hstop herror hmem₁ hmem₂
  rw [hlenient] at hlock
  generalize (p s).run (sources.repeating s.source .error) = run at hlock hcommon
  cases hlock with
  | together value _ _ events =>
      have hnone : ∀ event ∈ events, event.isStall = false :=
        fun event hmem => hcommon rfl event hmem hmem
      refine ⟨_, rfl, fun _ => ⟨rfl, rfl⟩, fun ⟨event, hmem, hstall⟩ => ?_⟩
      rw [hnone event hmem] at hstall
      cases hstall
  | parted strict before unwinding hparts hunwinding hbefore =>
      cases hparts with
      | refused hplace hstrict hlenient =>
          -- The limits are the same, so none refuses what the other admits.
          rw [Sources.get_repeating hs] at hstrict hlenient
          exact absurd hstrict hlenient
      | @stalled place items hplace hstrict hlenient =>
          rw [Sources.token_repeating] at hunwinding hcommon ⊢
          obtain ⟨after, hafter⟩ := hbefore lenient rfl
          have hevents : lenient.events = before ++ .stalled place items .stop :: after := by
            rw [← hafter, List.append_assoc]
            rfl
          have hfirst : ∀ event ∈ before, event.isStall = false := by
            intro event hmem
            refine hcommon rfl event ?_ ?_
            · rw [hevents]
              exact List.mem_append_left _ hmem
            · exact List.mem_append_left _ (List.mem_append_left _ hmem)
          refine ⟨_, rfl, fun hnone => ?_, fun _ => ⟨place, items, before, after, unwinding, ?_⟩⟩
          · have hmem : Event.stalled place items .stop ∈ lenient.events := by
              rw [hevents]
              exact List.mem_append_right _ List.mem_cons_self
            cases hnone _ hmem
          · exact ⟨hevents, hfirst, rfl, hunwinding, rfl⟩

/-! ### Plain grammars -/

/-- **The exact relation of the two policies**, for parses of plain grammars over the same
tokens, from the same position and under the same limit. -/
theorem Grammar.policies_compared {σ : Signature} {rules : Rules σ τ} (hrules : rules.Plain)
    {scope : Scope σ τ} (hscope : scope.Plain) {α : Type} {g : Grammar σ τ α} (hg : g.Plain)
    {fuel : Nat} {s : Stream} {sources : Sources τ} (hs : s.source < sources.next)
    (hdepth : ∀ n, (sources.get s.source).config.maxDepth = some n →
      (sources.get s.source).depth ≤ n) {lenient : Step τ (Outcome τ α)}
    (hlenient : (parser rules fuel scope g s).run (sources.repeating s.source .stop) =
      some lenient) :
    ∃ strict, (parser rules fuel scope g s).run (sources.repeating s.source .error) =
        some strict ∧
      ((∀ event ∈ lenient.events, event.isStall = false) →
        strict.value = lenient.value ∧ strict.events = lenient.events) ∧
      ((∃ event ∈ lenient.events, event.isStall = true) →
        ∃ place items before after unwinding,
          FirstStall sources lenient strict place items before after unwinding) :=
  (hg.composed hrules fuel hscope).first_stall hs hdepth hlenient

/-- Repeated brackets that are given up in the end. -/
def Brackets.givenUp : Grammar names Bool (List Nat) :=
  .orElse (.keepRight (.many grammar) (.fail "no")) (.succeed [])

/-- Repeated brackets stall behind the last pair. The parse that may stall goes on, fails and
succeeds by its second alternative; the other one is aborted by the stall. Brackets that are not
repeated are parsed alike under both policies. -/
theorem Brackets.policies_compared_pair :
    (∃ lenient strict place items before after unwinding,
      (Grammar.parser rules 5 .empty givenUp .start).run
        ((store none [true, false]).repeating 0 .stop) = some lenient ∧
      lenient.value = .ok [] .start ∧
      (Grammar.parser rules 5 .empty givenUp .start).run
        ((store none [true, false]).repeating 0 .error) = some strict ∧
      FirstStall (store none [true, false]) lenient strict place items before after unwinding) ∧
    ∃ strict, (Grammar.parser rules 5 .empty grammar .start).run
        ((store none [true, false]).repeating 0 .error) = some strict ∧
      strict.value = .ok 1 ⟨0, 2⟩ := by
  have hs : Stream.start.source < (store none [true, false]).next := by decide
  have hdepth : ∀ n, ((store none [true, false]).get 0).config.maxDepth = some n →
      ((store none [true, false]).get 0).depth ≤ n := fun n _ => Nat.zero_le n
  constructor
  · have hplain : givenUp.Plain := ⟨⟨plain_grammar, trivial⟩, trivial⟩
    have hrun : ((Grammar.parser rules 5 .empty givenUp .start).run
        ((store none [true, false]).repeating 0 .stop)).map
          (fun step => (step.value, step.events.any Event.isStall)) =
            some (.ok [] .start, true) := by decide +kernel
    obtain ⟨lenient, hlenient, hboth⟩ := Option.map_eq_some_iff.mp hrun
    obtain ⟨hvalue, hany⟩ := Prod.mk.inj hboth
    obtain ⟨strict, hstrict, -, hstalled⟩ :=
      Grammar.policies_compared plain_rules plain_scope hplain hs hdepth hlenient
    obtain ⟨place, items, before, after, unwinding, hfirst⟩ :=
      hstalled (List.any_eq_true.mp hany)
    exact ⟨lenient, strict, place, items, before, after, unwinding, hlenient, hvalue, hstrict,
      hfirst⟩
  · have hrun : ((Grammar.parser rules 5 .empty grammar .start).run
        ((store none [true, false]).repeating 0 .stop)).map
          (fun step => (step.value, step.events.all fun event => !event.isStall)) =
            some (.ok 1 ⟨0, 2⟩, true) := by decide +kernel
    obtain ⟨lenient, hlenient, hboth⟩ := Option.map_eq_some_iff.mp hrun
    obtain ⟨hvalue, hall⟩ := Prod.mk.inj hboth
    obtain ⟨strict, hstrict, hquiet, -⟩ :=
      Grammar.policies_compared plain_rules plain_scope plain_grammar hs hdepth hlenient
    have hnone : ∀ event ∈ lenient.events, event.isStall = false := fun event hmem => by
      simpa using List.all_eq_true.mp hall event hmem
    exact ⟨strict, hstrict, (hquiet hnone).1.trans hvalue⟩

end Backtrack
