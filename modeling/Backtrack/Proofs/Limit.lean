import Backtrack.Proofs.Lockstep

/-!
# The Threshold of the Recursion Limit

How deep a parse nests its references is seen in its events: the greatest number of them
under way at one time is the peak. A limit that is not below the peak changes nothing. A
limit below it ends the parse at the first reference past the limit, with the error of that
reference, before its rule is run; nothing that the grammar puts around the reference can
move that error or take it back.

## Main definitions

* `Activity.peak`: the greatest number of references under way at one time.
* `Sources.limited`: a store with another limit for one of its sources.

## Main results

* `Activity.le_peak`, `Orderly.peak_le`: the peak, from both sides.
* `Parser.Composed.lockstep_limited`: parses under different limits run in lockstep.
* `Grammar.limit_threshold`: the exact threshold, for all plain grammars.
-/

namespace Backtrack

variable {τ : Type}

/-! ### Peaks -/

namespace Activity

/-- The **greatest number of references under way** at one time while events happen. -/
def peak (a : Activity) : List (Event τ) → Nat
  | [] => a.references.length
  | event :: events => max a.references.length ((a.next event).peak events)

/-- At no time are more references under way than at the peak. -/
theorem le_peak (a : Activity) (before after : List (Event τ)) :
    (a.after before).references.length ≤ a.peak (before ++ after) := by
  induction before generalizing a with
  | nil =>
      cases after with
      | nil => exact Nat.le_refl _
      | cons event events => exact Nat.le_max_left _ _
  | cons event before ih => exact Nat.le_trans (ih (a.next event)) (Nat.le_max_right _ _)

/-- A part of the events from the first on has no greater peak. -/
theorem peak_le_peak_append (a : Activity) (before after : List (Event τ)) :
    a.peak before ≤ a.peak (before ++ after) := by
  induction before generalizing a with
  | nil => exact a.le_peak [] after
  | cons event before ih =>
      have hrest := ih (a.next event)
      rw [List.cons_append, peak, peak]
      omega

end Activity

/-- Orderly events do not peak past the limit. -/
theorem Orderly.peak_le {id : Nat} {limit : Option Nat} {base : Nat} {a : Activity}
    {events : List (Event τ)} (h : Orderly id limit base a events) {n : Nat}
    (hlimit : limit = some n) (ha : base + a.references.length ≤ n) :
    base + a.peak events ≤ n := by
  induction events generalizing a with
  | nil => exact ha
  | cons event events ih =>
      have hfirst : Orderly id limit base a [event] := ⟨h.1, trivial⟩
      have hrest := ih h.2 (hfirst.le_limit hlimit ha)
      rw [Activity.peak]
      omega

/-! ### Other limits -/

/-- The same store with another limit for the source `id`. -/
def Sources.limited (sources : Sources τ) (id : Nat) (limit : Option Nat) : Sources τ :=
  sources.modify id fun source => { source with config := { source.config with maxDepth := limit } }

namespace Sources

variable {sources : Sources τ} {id : Nat}

@[simp]
theorem next_limited (limit : Option Nat) : (sources.limited id limit).next = sources.next :=
  next_modify sources id _

theorem get_limited (h : id < sources.next) (limit : Option Nat) :
    (sources.limited id limit).get id =
      { sources.get id with config := { (sources.get id).config with maxDepth := limit } } :=
  get_modify_self h

/-- A limit changes no token. -/
@[simp]
theorem token_limited (limit : Option Nat) (place : Stream) :
    (sources.limited id limit).token place = sources.token place := by
  have h := rel_get_modify (P := fun new old => new.token = old.token)
    (f := fun source => { source with config := { source.config with maxDepth := limit } })
    (fun _ => rfl) (fun _ => rfl) sources id place.source
  exact congrFun h place.position

/-- A store under a greater limit, or under none, tolerates what it does under a limit that the
counter has not passed. -/
theorem tolerates_limited (h : id < sources.next) {limit : Option Nat} {n : Nat}
    (hlimit : ∀ m, limit = some m → n ≤ m) (hdepth : (sources.get id).depth ≤ n) :
    Sources.Tolerates id (sources.limited id limit) (sources.limited id (some n)) := by
  constructor
  · rw [next_limited]
    exact h
  · rw [next_limited]
    exact h
  · rw [get_limited h, get_limited h]
    rfl
  · rw [get_limited h, get_limited h]
  · intro m hm
    rw [get_limited h] at hm ⊢
    obtain rfl := Option.some.inj hm
    exact hdepth
  · rw [get_limited h, get_limited h]
    exact ⟨fun m hm => ⟨n, rfl, hlimit m hm⟩, fun hstop => hstop⟩

end Sources

/-- The **refusal** of a reference because `limit` of them are under way, in place of the event
that would have begun it. -/
inductive Refusal (sources : Sources τ) (id limit : Nat) :
    Event τ → List (Event τ) → Failure τ → Prop where
  | mk (place : Stream) (hplace : place.source = id) :
      Refusal sources id limit (.descended place (limit + 1))
        [.refused place limit, .inspected place]
        ⟨Message.recursionLimit limit, sources.token place, place.position⟩

variable [Quote τ]

/-- **Parses under different limits run in lockstep** up to a refusal. -/
theorem Parser.Composed.lockstep_limited {α : Type} {p : Parser τ α} (hp : Composed p)
    {s : Stream} {sources : Sources τ} (hs : s.source < sources.next) {limit : Option Nat}
    {n : Nat} (hlimit : ∀ m, limit = some m → n ≤ m)
    (hdepth : (sources.get s.source).depth ≤ n) :
    Lockstep (Refusal sources s.source n) ((p s).run (sources.limited s.source limit))
      ((p s).run (sources.limited s.source (some n))) := by
  refine (hp.lockstep (Sources.tolerates_limited hs hlimit hdepth)).mono fun hparts => ?_
  cases hparts with
  | refused hplace hstrict hlenient =>
      rw [Sources.get_limited hs] at hstrict
      obtain rfl := Option.some.inj hstrict
      rw [Sources.token_limited]
      exact .mk _ hplace
  | stalled hplace hstrict hlenient =>
      -- The policies are the same, so none forbids what the other allows.
      rw [Sources.get_limited hs] at hstrict hlenient
      cases hstrict.symm.trans hlenient

/-! ### The threshold -/

/-- **The first reference past the limit `n`** of a parse is the one at `place`: without a limit
the parse enters its rule, while `n` references are under way and never were more, and with
the limit it is refused, runs nothing more and fails with the error of the refusal. -/
structure FirstRefusal {α : Type} (sources : Sources τ) (n : Nat)
    (free limited : Step τ (Outcome τ α)) (place : Stream) (before after : List (Event τ))
    (unwinding : List (Event τ)) : Prop where
  free_events : free.events = before ++ .descended place (n + 1) :: after
  active : (Activity.after {} before).references.length = n
  first : Activity.peak {} before ≤ n
  limited_events : limited.events =
    before ++ [.refused place n, .inspected place] ++ unwinding
  unwinding :
    Unwinding ⟨Message.recursionLimit n, sources.token place, place.position⟩ unwinding
  value : limited.value =
    .error ⟨Message.recursionLimit n, sources.token place, place.position⟩

section

variable {α : Type} {p : Parser τ α} {s : Stream} {sources : Sources τ}

/-- With nothing under way in the beginning, the counter of a parse under any limit is the
number of references under way. -/
private theorem Parser.Composed.orderly_limited (hp : Composed p) (hs : s.source < sources.next)
    (hzero : (sources.get s.source).depth = 0) {limit : Option Nat}
    {step : Step τ (Outcome τ α)}
    (h : (p s).run (sources.limited s.source limit) = some step) :
    Orderly s.source limit 0 {} step.events := by
  have hlt : s.source < (sources.limited s.source limit).next := by
    rw [Sources.next_limited]
    exact hs
  have hdepth : ((sources.limited s.source limit).get s.source).depth =
      0 + (Activity.references {}).length := by
    rw [Sources.get_limited hs]
    exact hzero
  have hsettled := (hp.course h).settled hlt hdepth
  rw [Sources.get_limited hs] at hsettled
  exact hsettled.orderly

/-- A parse that ends without a limit ends under every limit: as it did, if the limit is not
below its peak, and else with the refusal of the first reference past the limit. -/
theorem Parser.Composed.threshold (hp : Composed p) (hs : s.source < sources.next)
    (hzero : (sources.get s.source).depth = 0) {free : Step τ (Outcome τ α)}
    (hfree : (p s).run (sources.limited s.source none) = some free) (n : Nat) :
    ∃ limited, (p s).run (sources.limited s.source (some n)) = some limited ∧
      (Activity.peak {} free.events ≤ n →
        limited.value = free.value ∧ limited.events = free.events) ∧
      (n < Activity.peak {} free.events → ∃ place before after unwinding,
        FirstRefusal sources n free limited place before after unwinding) := by
  have hnone : ∀ m, (none : Option Nat) = some m → n ≤ m := fun m hm => by cases hm
  have hlock := hp.lockstep_limited hs hnone (by omega)
  have hpeak : ∀ step, (p s).run (sources.limited s.source (some n)) = some step →
      Activity.peak {} step.events ≤ n := by
    intro step hstep
    have hle := (hp.orderly_limited hs hzero hstep).peak_le rfl (Nat.zero_le n)
    omega
  rw [hfree] at hlock
  generalize (p s).run (sources.limited s.source (some n)) = run at hlock hpeak
  cases hlock with
  | together value lenient strict events =>
      refine ⟨_, rfl, fun _ => ⟨rfl, rfl⟩, fun hlt => ?_⟩
      have hle : Activity.peak {} events ≤ n := hpeak _ rfl
      exact absurd hle (Nat.not_le.mpr hlt)
  | parted strict before unwinding hparts hunwinding hbefore =>
      obtain ⟨place, hplace⟩ := hparts
      obtain ⟨after, hafter⟩ := hbefore free rfl
      have hevents : free.events = before ++ .descended place (n + 1) :: after := by
        rw [← hafter, List.append_assoc]
        rfl
      -- In the free run the reference begins, so its counter tells what is under way.
      have horderly := hp.orderly_limited hs hzero hfree
      rw [hevents] at horderly
      obtain ⟨-, ⟨-, hcount, -⟩, -⟩ := orderly_append.mp horderly
      have hactive : (Activity.after {} before).references.length = n := by omega
      have hhigh : n + 1 ≤ Activity.peak {} free.events := by
        have hle := Activity.le_peak {} (before ++ [.descended place (n + 1)]) after
        rw [hafter, Activity.after_append, Activity.after_cons, Activity.after_nil,
          Activity.next, List.length_cons, hactive] at hle
        exact hle
      refine ⟨_, rfl, fun hle => by omega, fun _ => ⟨place, before, after, unwinding, ?_⟩⟩
      have hfirst : Activity.peak {} before ≤ n := by
        have hle := hpeak _ rfl
        rw [List.append_assoc] at hle
        exact Nat.le_trans (Activity.peak_le_peak_append {} before _) hle
      exact ⟨hevents, hactive, hfirst, rfl, hunwinding, rfl⟩

/-- A parse under a limit that does not end with the error of a refusal is the same under every
greater limit and under none. -/
theorem Parser.Composed.unchanged_of_limit_le (hp : Composed p) (hs : s.source < sources.next)
    (hzero : (sources.get s.source).depth = 0) {n : Nat} {limited : Step τ (Outcome τ α)}
    (h : (p s).run (sources.limited s.source (some n)) = some limited)
    (hvalue : ∀ place, place.source = s.source → limited.value ≠
      .error ⟨Message.recursionLimit n, sources.token place, place.position⟩)
    {limit : Option Nat} (hlimit : ∀ m, limit = some m → n ≤ m) :
    ∃ last, (p s).run (sources.limited s.source limit) = some last ∧
      last.value = limited.value ∧ last.events = limited.events := by
  have hlock := hp.lockstep_limited hs hlimit (by omega)
  rw [h] at hlock
  generalize (p s).run (sources.limited s.source limit) = run at hlock
  cases hlock with
  | together value lenient strict events => exact ⟨_, rfl, rfl, rfl⟩
  | parted strict before unwinding hparts hunwinding hbefore =>
      obtain ⟨place, hplace⟩ := hparts
      exact absurd rfl (hvalue place hplace)

end

/-- **The exact threshold of the recursion limit**, for parses of plain grammars that begin with
no reference under way. -/
theorem Grammar.limit_threshold {σ : Signature} {rules : Rules σ τ} (hrules : rules.Plain)
    {scope : Scope σ τ} (hscope : scope.Plain) {α : Type} {g : Grammar σ τ α} (hg : g.Plain)
    {fuel : Nat} {s : Stream} {sources : Sources τ} (hs : s.source < sources.next)
    (hzero : (sources.get s.source).depth = 0) :
    (∀ {free : Step τ (Outcome τ α)} (n : Nat),
      (parser rules fuel scope g s).run (sources.limited s.source none) = some free →
      ∃ limited,
        (parser rules fuel scope g s).run (sources.limited s.source (some n)) = some limited ∧
        (Activity.peak {} free.events ≤ n →
          limited.value = free.value ∧ limited.events = free.events) ∧
        (n < Activity.peak {} free.events → ∃ place before after unwinding,
          FirstRefusal sources n free limited place before after unwinding)) ∧
    ∀ {limited : Step τ (Outcome τ α)} {n : Nat} {limit : Option Nat},
      (parser rules fuel scope g s).run (sources.limited s.source (some n)) = some limited →
      (∀ place, place.source = s.source → limited.value ≠
        .error ⟨Message.recursionLimit n, sources.token place, place.position⟩) →
      (∀ m, limit = some m → n ≤ m) →
      ∃ last, (parser rules fuel scope g s).run (sources.limited s.source limit) = some last ∧
        last.value = limited.value ∧ last.events = limited.events := by
  have hcomposed := hg.composed hrules fuel hscope
  refine ⟨fun n hfree => hcomposed.threshold hs hzero hfree n, fun h hvalue hlimit => ?_⟩
  exact hcomposed.unchanged_of_limit_le hs hzero h hvalue hlimit

/-- Two pairs of brackets nest three references: a limit of one refuses the second of them, and
what is parsed under a limit of five is parsed without a limit. -/
theorem Brackets.limit_threshold_pairs :
    (∃ free limited place before after unwinding,
      (Grammar.parser rules 5 .empty grammar .start).run
        ((store none [true, true, false, false]).limited 0 none) = some free ∧
      Activity.peak {} free.events = 3 ∧
      (Grammar.parser rules 5 .empty grammar .start).run
        ((store none [true, true, false, false]).limited 0 (some 1)) = some limited ∧
      FirstRefusal (store none [true, true, false, false]) 1 free limited place before after
        unwinding) ∧
    ∃ last, (Grammar.parser rules 5 .empty grammar .start).run
        ((store none [true, true, false, false]).limited 0 none) = some last ∧
      last.value = .ok 2 ⟨0, 4⟩ := by
  have hs : Stream.start.source < (store none [true, true, false, false]).next := by decide
  have hzero : ((store none [true, true, false, false]).get Stream.start.source).depth = 0 := rfl
  constructor
  · have hrun : ((Grammar.parser rules 5 .empty grammar .start).run
        ((store none [true, true, false, false]).limited 0 none)).map
          (fun step => Activity.peak {} step.events) = some 3 := by decide +kernel
    obtain ⟨free, hfree, hpeak⟩ := Option.map_eq_some_iff.mp hrun
    obtain ⟨limited, hlimited, -, hbelow⟩ :=
      (Grammar.limit_threshold plain_rules plain_scope plain_grammar hs hzero).1 1 hfree
    obtain ⟨place, before, after, unwinding, hrefusal⟩ := hbelow (by omega)
    exact ⟨free, limited, place, before, after, unwinding, hfree, hpeak, hlimited, hrefusal⟩
  · have hrun : ((Grammar.parser rules 5 .empty grammar .start).run
        ((store none [true, true, false, false]).limited 0 (some 5))).map Step.value =
          some (.ok 2 ⟨0, 4⟩) := by decide +kernel
    obtain ⟨limited, hlimited, hvalue⟩ := Option.map_eq_some_iff.mp hrun
    have hother : ∀ place, place.source = Stream.start.source → limited.value ≠
        .error ⟨Message.recursionLimit 5,
          (store none [true, true, false, false]).token place, place.position⟩ := by
      intro place _ herror
      cases hvalue.symm.trans herror
    have hlimit : ∀ m, (none : Option Nat) = some m → 5 ≤ m := fun m hm => by cases hm
    obtain ⟨last, hlast, hsame, -⟩ :=
      (Grammar.limit_threshold plain_rules plain_scope plain_grammar hs hzero).2 hlimited hother
        hlimit
    exact ⟨last, hlast, hsame.trans hvalue⟩

end Backtrack
