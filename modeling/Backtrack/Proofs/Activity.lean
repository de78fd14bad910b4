import Backtrack.Proofs.Replay

/-!
# What Is Under Way

At any moment of a parse some parsers have been entered and have not returned, and some
references have begun and have not ended. `Activity` keeps both as stacks, and every event
moves it. A parse is orderly: what ends is what began last, a reference reports the counter
that it left behind, and none begins past the limit. When the parse is over, nothing that
it began is under way any more.

## Main definitions

* `Activity`: the parsers and the references under way, innermost first.
* `Activity.next`, `Activity.after`: what one event, and what a list of events, makes of it.
* `Orderly`: every event of a list is admitted by what is under way when it happens.
* `Settled`: orderly, with nothing under way in the end that was not before.

## Main results

* `Course.settled`: the events of a parse are settled.
* `Course.depth_eq`: the counter is back at its value when a parse is over.
* `Orderly.depth_replay`: the counter counts the references under way, at every moment.
-/

namespace Backtrack

variable {τ : Type}

/-- The parsers and the references **under way**, innermost first. -/
structure Activity where
  /-- Where the parsers were entered that have not returned. -/
  parsers : List Stream := []
  /-- Where the references were made that have not ended. -/
  references : List Stream := []

namespace Activity

/-- What is under way after one more event. -/
def next (a : Activity) : Event τ → Activity
  | .entered start => { a with parsers := start :: a.parsers }
  | .returned _ => { a with parsers := a.parsers.tail }
  | .descended place _ => { a with references := place :: a.references }
  | .ascended _ _ => { a with references := a.references.tail }
  | _ => a

/-- What is under way after events, from the first to the last. -/
def after (a : Activity) (events : List (Event τ)) : Activity :=
  events.foldl next a

@[simp]
theorem after_nil (a : Activity) : a.after ([] : List (Event τ)) = a := rfl

@[simp]
theorem after_cons (a : Activity) (event : Event τ) (events : List (Event τ)) :
    a.after (event :: events) = (a.next event).after events := rfl

@[simp]
theorem after_append (a : Activity) (xs ys : List (Event τ)) :
    a.after (xs ++ ys) = (a.after xs).after ys :=
  List.foldl_append

@[simp]
theorem after_noted (a : Activity) (texts : List String) :
    a.after (texts.map (Event.noted : String → Event τ)) = a := by
  induction texts with
  | nil => rfl
  | cons text texts ih => exact ih

/-- Whether an event can happen now in a parse on the source `id`, whose limit is `limit` and
whose counter stood at `base` when nothing was under way. -/
def Admits (id : Nat) (limit : Option Nat) (base : Nat) (a : Activity) : Event τ → Prop
  | .descended place depth =>
    place.source = id ∧ depth = base + a.references.length + 1 ∧ ∀ n, limit = some n → depth ≤ n
  | .ascended place depth =>
    place.source = id ∧ a.references.head? = some place ∧
      depth + 1 = base + a.references.length
  | .returned _ => a.parsers ≠ []
  | _ => True

end Activity

/-- **Orderly events**: each is admitted by what is under way when it happens. -/
def Orderly (id : Nat) (limit : Option Nat) (base : Nat) : Activity → List (Event τ) → Prop
  | _, [] => True
  | a, event :: events => a.Admits id limit base event ∧ Orderly id limit base (a.next event) events

/-- **Settled events**: orderly, and in the end under way is what was before. -/
structure Settled (id : Nat) (limit : Option Nat) (base : Nat) (a : Activity)
    (events : List (Event τ)) : Prop where
  orderly : Orderly id limit base a events
  after_eq : a.after events = a

section

variable {id : Nat} {limit : Option Nat} {base : Nat}

/-- Events that follow each other are orderly together. -/
theorem orderly_append {a : Activity} {xs ys : List (Event τ)} :
    Orderly id limit base a (xs ++ ys) ↔
      Orderly id limit base a xs ∧ Orderly id limit base (a.after xs) ys := by
  induction xs generalizing a with
  | nil => simp [Orderly]
  | cons x xs ih =>
      rw [List.cons_append, Orderly, Orderly, ih, Activity.after_cons, and_assoc]

/-- Settled events can follow each other. -/
theorem Settled.trans {a : Activity} {xs ys : List (Event τ)}
    (hx : Settled id limit base a xs) (hy : Settled id limit base a ys) :
    Settled id limit base a (xs ++ ys) := by
  obtain ⟨hx, hafter⟩ := hx
  refine ⟨orderly_append.mpr ⟨hx, ?_⟩, ?_⟩
  · rw [hafter]
    exact hy.orderly
  · rw [Activity.after_append, hafter, hy.after_eq]

/-- Notes are always orderly. -/
theorem orderly_noted (a : Activity) (texts : List String) :
    Orderly id limit base a (texts.map (Event.noted : String → Event τ)) := by
  induction texts with
  | nil => exact trivial
  | cons text texts ih => exact ⟨trivial, ih⟩

/-- **The counter counts the references under way.** -/
theorem Orderly.depth_replay {a : Activity} {events : List (Event τ)}
    (h : Orderly id limit base a events) {sources : Sources τ} (hid : id < sources.next)
    (hdepth : (sources.get id).depth = base + a.references.length) :
    ((sources.replay events).get id).depth =
      base + (a.after events).references.length := by
  induction events generalizing a sources with
  | nil => exact hdepth
  | cons event events ih =>
      obtain ⟨hadmits, hrest⟩ := h
      refine ih hrest (by rw [Sources.next_effect]; exact hid) ?_
      cases event with
      | descended place depth =>
          obtain ⟨rfl, -, -⟩ := hadmits
          have henter : ((sources.modify place.source .enter).get place.source).depth =
              (sources.get place.source).depth + 1 := by
            rw [Sources.get_modify_self hid]
            rfl
          rw [Sources.effect, henter, hdepth, Activity.next, List.length_cons]
          omega
      | ascended place depth =>
          obtain ⟨rfl, htop, -⟩ := hadmits
          have hleave : ((sources.modify place.source .leave).get place.source).depth =
              (sources.get place.source).depth - 1 := by
            rw [Sources.get_modify_self hid]
            rfl
          have hpos : 0 < a.references.length := List.length_pos_of_mem (List.mem_of_head? htop)
          rw [Sources.effect, hleave, hdepth, Activity.next, List.length_tail]
          omega
      | inspected place =>
          rw [Sources.effect, sources.depth_look, hdepth]
          rfl
      | _ => exact hdepth

/-- Orderly events never count past the limit. -/
theorem Orderly.le_limit {a : Activity} {events : List (Event τ)}
    (h : Orderly id limit base a events) {n : Nat} (hlimit : limit = some n)
    (ha : base + a.references.length ≤ n) :
    base + (a.after events).references.length ≤ n := by
  induction events generalizing a with
  | nil => exact ha
  | cons event events ih =>
      obtain ⟨hadmits, hrest⟩ := h
      refine ih hrest ?_
      cases event with
      | descended place depth =>
          obtain ⟨-, hdepth, hroom⟩ := hadmits
          have := hroom n hlimit
          rw [Activity.next, List.length_cons]
          omega
      | ascended place depth =>
          rw [Activity.next, List.length_tail]
          omega
      | _ => exact ha

end

/-- Inside a reference one more is under way, and **the counter is one higher**. -/
theorem Sources.depth_enter {s : Stream} {sources : Sources τ} (hs : s.source < sources.next)
    {base : Nat} {a : Activity}
    (hdepth : (sources.get s.source).depth = base + a.references.length) (depth : Nat) :
    ((sources.modify s.source .enter).get s.source).depth =
      base + (a.next (.descended s depth : Event τ)).references.length := by
  rw [get_modify_self hs, Source.enter, hdepth, Activity.next, List.length_cons, Nat.add_assoc]

/-! ### Parses are orderly -/

namespace Course

variable [Quote τ] {α : Type}

/-- A parse whose events are settled puts the counter back. -/
private theorem depth_of_settled {s : Stream} {sources : Sources τ}
    {step : Step τ (Outcome τ α)} (h : Course s sources step) (hs : s.source < sources.next)
    {limit : Option Nat} {base : Nat} {a : Activity}
    (hdepth : (sources.get s.source).depth = base + a.references.length)
    (hsettled : Settled s.source limit base a step.events) :
    (step.sources.get s.source).depth = base + a.references.length := by
  rw [h.sources_eq_replay, hsettled.orderly.depth_replay hs hdepth, hsettled.after_eq]

/-- **The events of a parse are settled.** -/
theorem settled {s : Stream} {sources : Sources τ} {step : Step τ (Outcome τ α)}
    (h : Course s sources step) (hs : s.source < sources.next) {base : Nat} {a : Activity}
    (hdepth : (sources.get s.source).depth = base + a.references.length) :
    Settled s.source (sources.get s.source).config.maxDepth base a step.events := by
  induction h generalizing a with
  | succeed value => exact ⟨trivial, rfl⟩
  | satisfyAccept h accepted =>
      refine ⟨⟨trivial, trivial, orderly_append.mpr ⟨orderly_noted _ _, trivial, trivial⟩⟩, ?_⟩
      rw [List.cons_append, List.cons_append, Activity.after_cons, Activity.after_cons,
        Activity.after_append, Activity.after_noted]
      rfl
  | satisfyReject expected h rejected =>
      refine ⟨⟨trivial, trivial, orderly_noted _ _⟩, ?_⟩
      rw [Activity.after_cons, Activity.after_cons, Activity.after_noted]
      rfl
  | fail | satisfyEnd | eofEnd | eofReject => exact ⟨⟨trivial, trivial⟩, rfl⟩
  | unusable | refuse => exact ⟨⟨trivial, trivial, trivial⟩, rfl⟩
  | calling callee h ih =>
      obtain ⟨horderly, hafter⟩ := ih hs hdepth
      exact ⟨⟨trivial, horderly⟩, hafter⟩
  | @sequel _ _ s rest sources middle value events last first second ih₁ ih₂ =>
      have hfirst := ih₁ hs hdepth
      -- The second part runs in the same source, under the same limit, at the same count.
      have hmiddle := first.depth_of_settled hs hdepth hfirst
      have hrest : rest.source = s.source := first.source_rest rfl
      have hconfig : (middle.get s.source).config = (sources.get s.source).config :=
        first.config_eq s.source
      have hnext : middle.next = sources.next := first.next_eq
      rw [hrest, hconfig, hnext] at ih₂
      exact hfirst.trans (ih₂ hs hmiddle)
  | passFail h ih => exact ih hs hdepth
  | passError h ih => exact ih hs hdepth
  | @retry _ _ s sources middle failure events last first second ih₁ ih₂ =>
      have hfirst := ih₁ hs hdepth
      have hmiddle := first.depth_of_settled hs hdepth hfirst
      have hconfig : (middle.get s.source).config = (sources.get s.source).config :=
        first.config_eq s.source
      have hnext : middle.next = sources.next := first.next_eq
      rw [hconfig, hnext] at ih₂
      exact hfirst.trans (ih₂ hs hmiddle)
  | label name h ih => exact ih hs hdepth
  | commit h ih => exact (ih hs hdepth).trans ⟨⟨trivial, trivial⟩, rfl⟩
  | @nested _ s sources last value events h inner ih =>
      -- Inside, one reference more is under way and the counter is one higher.
      obtain ⟨d, hd⟩ : ∃ d, (sources.get s.source).depth + 1 = d := ⟨_, rfl⟩
      have henter : (sources.modify s.source .enter).get s.source =
          (sources.get s.source).enter := Sources.get_modify_self hs
      have hs' : s.source < (sources.modify s.source .enter).next := by
        rw [Sources.next_modify]
        exact hs
      have hinner := Sources.depth_enter hs hdepth d
      have hsettled := ih hs' hinner
      have hlast := inner.depth_of_settled hs' hinner hsettled
      have hleave : ((last.modify s.source .leave).get s.source).depth =
          (last.get s.source).depth - 1 := by
        rw [Sources.get_modify_self (by rw [inner.next_eq]; exact hs')]
        rfl
      have hroom := Config.admits_eq_ok_iff.mp h
      obtain ⟨horderly, hafter⟩ := hsettled
      rw [henter] at horderly
      change (a.next (.descended s d : Event τ)).after events = _ at hafter
      rw [hd]
      refine ⟨⟨⟨rfl, by omega, fun n hn => ?_⟩, orderly_append.mpr ⟨horderly, ?_⟩⟩, ?_⟩
      · have := hroom n hn
        omega
      · rw [hafter]
        refine ⟨⟨rfl, rfl, ?_⟩, trivial⟩
        rw [hleave, hlast, Activity.next, List.length_cons]
        omega
      · rw [List.cons_append, Activity.after_cons, Activity.after_append, hafter]
        rfl
  | stallStop items first stuck h ih => exact (ih hs hdepth).trans ⟨⟨trivial, trivial⟩, rfl⟩
  | stallError items first stuck h ih =>
      exact (ih hs hdepth).trans ⟨⟨trivial, trivial, trivial⟩, rfl⟩
  | @observed _ s sources last value events h ih =>
      have hentered : (a.next (.entered s : Event τ)).references = a.references := rfl
      rw [← hentered] at hdepth
      obtain ⟨horderly, hafter⟩ := ih hs hdepth
      refine ⟨⟨trivial, orderly_append.mpr ⟨horderly, ?_⟩⟩, ?_⟩
      · rw [hafter]
        exact ⟨List.cons_ne_nil _ _, trivial⟩
      · rw [List.cons_append, Activity.after_cons, Activity.after_append, hafter]
        rfl

/-- **A parse puts the counter back**, however it ends. -/
theorem depth_eq {s : Stream} {sources : Sources τ} {step : Step τ (Outcome τ α)}
    (h : Course s sources step) (hs : s.source < sources.next) :
    (step.sources.get s.source).depth = (sources.get s.source).depth :=
  h.depth_of_settled (a := {}) hs rfl (h.settled hs rfl)

end Course

end Backtrack
