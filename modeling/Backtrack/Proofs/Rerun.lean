import Backtrack.Proofs.Answers
import Backtrack.Proofs.Uninspected

/-!
# A Parse Made Again

A lazy source remembers. Where somebody has looked, the next look asks the supply for nothing, and
whatever is done in between, a memory forgets nothing. So a parse that is made again at the same
position, at any time later, finds what it found and leaves the store exactly as it is.

## Main definitions

* `Source.Knows`, `Sources.Knows`: a look at a position changes nothing.

## Main results

* `Memo.fill_fill`: two looks are a look at the further position.
* `Sources.Knows.replay`: what is known stays known.
* `Course.idle`: a parse that looks only at what is known leaves the store as it is.
* `Grammar.Plain.yields_again`, `Grammar.Plain.yields_still`: a parse made again, at once or after
  another parse.
-/

namespace Backtrack

variable {τ α β : Type}

/-! ### Looks -/

namespace Memo

/-- Requests in two instalments. -/
theorem repeat_pull_add (m : Memo τ) (n k : Nat) :
    Nat.repeat pull (n + k) m = Nat.repeat pull k (Nat.repeat pull n m) := by
  induction k with
  | zero => rfl
  | succ k ih => exact congrArg pull ih

/-- Every request brings a token, unless the supply ends. -/
theorem size_repeat_pull (m : Memo τ) (n : Nat) :
    (Nat.repeat pull n m).released = true ∨
      (Nat.repeat pull n m).buffer.size = m.buffer.size + n := by
  induction n with
  | zero => exact .inr rfl
  | succ n ih =>
      rw [repeat_pull_add]
      generalize Nat.repeat pull n m = before at ih ⊢
      show before.pull.released = true ∨ before.pull.buffer.size = m.buffer.size + (n + 1)
      cases hreleased : before.released with
      | true =>
          rw [pull_of_released hreleased]
          exact .inl hreleased
      | false =>
          have hsize : before.buffer.size = m.buffer.size + n := by simpa [hreleased] using ih
          cases hanswer : before.supply before.requests with
          | none => exact .inl (by simp [pull, hreleased, hanswer])
          | some token => exact .inr (by simp [pull, hreleased, hanswer, hsize, Nat.add_assoc])

/-- **Two looks are a look at the further position.** -/
theorem fill_fill (m : Memo τ) (i j : Nat) : (m.fill i).fill j = m.fill (max i j) := by
  simp only [fill]
  rcases m.size_repeat_pull (i + 1 - m.buffer.size) with hreleased | hsize
  · -- The supply ended with the first look, and further requests are not made.
    obtain ⟨k, hk⟩ : ∃ k, max i j + 1 - m.buffer.size = i + 1 - m.buffer.size + k :=
      Nat.exists_eq_add_of_le (by omega)
    rw [hk, repeat_pull_add, repeat_pull_of_released hreleased, repeat_pull_of_released hreleased]
  · rw [← repeat_pull_add, hsize]
    congr 1
    omega

end Memo

theorem Tape.look_look (tape : Tape τ) (i j : Nat) :
    (tape.look i).look j = tape.look (max i j) := by
  cases tape with
  | buffered tokens => rfl
  | lazy memo => exact congrArg Tape.lazy (memo.fill_fill i j)

theorem Source.look_look (source : Source τ) (i j : Nat) :
    (source.look i).look j = source.look (max i j) :=
  congrArg (fun tape => { source with tape }) (source.tape.look_look i j)

/-! ### What is known -/

/-- The source **knows** its tokens up to position `i`: a look there changes nothing. -/
def Source.Knows (source : Source τ) (i : Nat) : Prop := source.look i = source

/-- A source knows where somebody has looked. -/
theorem Source.knows_look (source : Source τ) (i : Nat) : (source.look i).Knows i := by
  rw [Knows, look_look, Nat.max_self]

/-- After another look it knows no less. -/
theorem Source.Knows.look {source : Source τ} {i : Nat} (h : source.Knows i) (j : Nat) :
    (source.look j).Knows i := by
  rw [Knows, look_look, Nat.max_comm, ← look_look, h]

/-- What a store knows is that **a look at a stream changes nothing**. -/
def Sources.Knows (sources : Sources τ) (place : Stream) : Prop :=
  (sources.get place.source).Knows place.position

namespace Sources

variable {sources : Sources τ} {place : Stream}

theorem Knows.look_eq (h : sources.Knows place) : sources.look place = sources :=
  modify_eq_self fun _ => h

/-- A store knows where somebody has looked. -/
theorem knows_look (sources : Sources τ) (place : Stream) : (sources.look place).Knows place := by
  by_cases hid : place.source < sources.next
  · rw [Knows, look, get_modify_self hid]
    exact Source.knows_look _ _
  · have hle : (sources.look place).next ≤ place.source := by
      rw [look, next_modify]
      exact Nat.le_of_not_lt hid
    rw [Knows, get_of_le hle]
    rfl

/-- After an event it knows no less. -/
theorem Knows.effect (h : sources.Knows place) (event : Event τ) :
    (sources.effect event).Knows place := by
  have hcount : ∀ {source : Source τ} (f : Source τ → Source τ),
      (∀ source, (f source).look place.position = f (source.look place.position)) →
        source.Knows place.position → (f source).Knows place.position := by
    intro source f hf hknown
    rw [Source.Knows, hf, hknown]
  exact rel_get_effect (P := fun new old => old.Knows place.position → new.Knows place.position)
    (fun _ => id) (fun source i hknown => hknown.look i)
    (fun _ => hcount .enter fun _ => rfl) (fun _ => hcount .leave fun _ => rfl)
    sources event place.source h

/-- **What is known stays known**, whatever happens. -/
theorem Knows.replay (h : sources.Knows place) (events : List (Event τ)) :
    (sources.replay events).Knows place := by
  induction events generalizing sources with
  | nil => exact h
  | cons event events ih => exact ih (h.effect event)

/-- Whatever was inspected is known in the end. -/
theorem inspects_knows (sources : Sources τ) (events : List (Event τ)) :
    Inspects (sources.replay events).Knows events := by
  induction events generalizing sources with
  | nil => exact inspects_nil
  | cons event events ih =>
      refine inspects_cons.mpr ⟨?_, ih _⟩
      rintro place rfl
      exact (sources.knows_look place).replay events

end Sources

/-! ### Parses made again -/

section

variable [Quote τ]

/-- A parse that looks only at what is known **leaves the store as it is**. -/
theorem Course.idle {s : Stream} {sources : Sources τ} {step : Step τ (Outcome τ α)}
    (h : Course s sources step) (hknown : Inspects sources.Knows step.events) :
    step.sources = sources := by
  induction h with
  | succeed value => rfl
  | fail | satisfyEnd | satisfyReject | eofEnd | eofReject =>
      exact (hknown _ List.mem_cons_self).look_eq
  | satisfyAccept h accepted =>
      have hlook := (hknown _ List.mem_cons_self).look_eq
      show (Sources.look _ _).look _ = _
      rw [hlook, hlook]
  | unusable | refuse => exact (hknown _ (List.mem_cons_of_mem _ List.mem_cons_self)).look_eq
  | calling callee h ih => exact ih (inspects_append.mp hknown).2
  | sequel first second ih₁ ih₂ =>
      obtain ⟨hfirst, hsecond⟩ := inspects_append.mp hknown
      obtain rfl := ih₁ hfirst
      exact ih₂ hsecond
  | retry first second ih₁ ih₂ =>
      obtain ⟨hfirst, hsecond⟩ := inspects_append.mp hknown
      obtain rfl := ih₁ hfirst
      exact ih₂ hsecond
  | passFail h ih => exact ih hknown
  | passError h ih => exact ih hknown
  | label name h ih => exact ih hknown
  | commit h ih => exact ih (inspects_append.mp hknown).1
  | @nested _ s sources last value events h inner ih =>
      -- The level that is entered before the parse inside is left again behind it.
      have hinner := (inspects_append.mp (inspects_cons.mp hknown).2).1
      have hlast := ih (hinner.mono fun place h => h.effect (.descended s 0))
      show last.modify s.source .leave = sources
      rw [show last = sources.modify s.source .enter from hlast, Sources.modify_modify]
      exact Sources.modify_eq_self fun _ => rfl
  | stallStop items first stuck h ih => exact ih (inspects_append.mp hknown).1
  | stallError items first stuck h ih =>
      obtain ⟨hfirst, hstall⟩ := inspects_append.mp hknown
      obtain rfl := ih hfirst
      exact (hstall _ (List.mem_cons_of_mem _ List.mem_cons_self)).look_eq
  | observed h ih => exact ih (inspects_append.mp (inspects_cons.mp hknown).2).1

/-- A parse on a store that is alike and **knows all that the parse looks at** ends as it did, with
the same events, and leaves that store as it is. -/
theorem Parser.Composed.again {p : Parser τ α} (hp : Composed p) {s : Stream}
    {sources other : Sources τ} (halike : Sources.AlikeAt s.source s.source sources other)
    {step : Step τ (Outcome τ α)} (hrun : (p s).run sources = some step)
    (hknown : Inspects other.Knows step.events) :
    (p s).run other = some ⟨step.value, other, step.events⟩ := by
  have hagree : Sources.AgreeBelow (Event.extent step.events) s.source sources other :=
    ⟨halike.first_lt, halike.second_lt, fun i _ => (halike.token i).symm,
      halike.alike.config_eq.symm, halike.alike.depth_eq.symm⟩
  have hbelow := Event.extent_le_iff.mp (Nat.le_refl (Event.extent step.events))
  obtain ⟨-, last, hlast, -⟩ := hp.follows _ rfl hagree hrun hbelow
  obtain rfl := (hp.course hlast).idle hknown
  exact hlast

end

namespace Grammar

variable [Quote τ] {σ : Signature} {rules : Rules σ τ} {scope : Scope σ τ} {g : Grammar σ τ α}
  {h : Grammar σ τ β} {sources other : Sources τ} {s : Stream}

section

variable (hrules : rules.Plain) (hscope : scope.Plain)

include hrules hscope

/-- **A parse made again** on the store that it left ends as it did, and leaves the same store. -/
theorem Plain.yields_again (hg : g.Plain) (hs : s.source < sources.next) {value : Outcome τ α}
    (hfirst : Yields rules scope g s sources value other) :
    Yields rules scope g s other value other := by
  obtain ⟨fuel, events, hrun⟩ := hfirst
  have hcomposed := hg.composed hrules fuel hscope
  have hcourse := hcomposed.course hrun
  have hknown : Inspects other.Knows events := by
    rw [show other = sources.replay events from hcourse.sources_eq_replay]
    exact sources.inspects_knows events
  exact ⟨fuel, events, hcomposed.again (hcourse.alike hs).symm hrun hknown⟩

/-- A parse that leaves the store as it is does so **after every other parse** as well, and ends as
before. -/
theorem Plain.yields_still (hg : g.Plain) (hh : h.Plain) (hs : s.source < sources.next)
    {value : Outcome τ α} (hfirst : Yields rules scope g s sources value sources) {t : Stream}
    (ht : t.source = s.source) {outcome : Outcome τ β}
    (hbetween : Yields rules scope h t sources outcome other) :
    Yields rules scope g s other value other := by
  obtain ⟨fuel, events, hrun⟩ := hfirst
  have hcomposed := hg.composed hrules fuel hscope
  have hknown : Inspects sources.Knows events := by
    have hinspects := sources.inspects_knows events
    rw [← show sources = sources.replay events from (hcomposed.course hrun).sources_eq_replay]
      at hinspects
    exact hinspects
  obtain ⟨halike, -⟩ := hh.alike_of_yields hrules hscope (ht ▸ hs) hbetween
  rw [ht] at halike
  obtain ⟨fuel', events', hrun'⟩ := hbetween
  have hcourse' := (hh.composed hrules fuel' hscope).course hrun'
  have hlater : Inspects other.Knows events := hknown.mono fun place hplace => by
    rw [show other = sources.replay events' from hcourse'.sources_eq_replay]
    exact hplace.replay events'
  exact ⟨fuel, events, hcomposed.again halike hrun hlater⟩

end

end Grammar

end Backtrack
