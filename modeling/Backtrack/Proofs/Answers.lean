import Backtrack.Proofs.Repetition
import Backtrack.Proofs.WholeParse

/-!
# Answers

A parse leaves its source with more in its memory, and the next parse begins there. For what the
next one gives this makes no difference, so the store can be left out: a grammar has an answer
at each position, and the answer of a combination is told by answers of the parts at the
positions that they reach.

A repetition becomes a chain of answers. Each is a success that advances, given where the one
before it ended, and the chain ends where the next answer is none.

## Main definitions

* `Grammar.Answers`: what a grammar gives at a position.
* `Chain`: steps from one position to the next, with the values that they give.
* `Grammar.Advances`: a success that leaves its position.

## Main results

* `Grammar.Plain.answers_congr`: parses before leave the answers as they were.
* `Grammar.Plain.answers_pair_iff`, `Grammar.Plain.answers_keepRight_iff`: sequences.
* `Grammar.Plain.answers_many_ok_iff`, `Grammar.Plain.answers_many_error_iff`,
  `Grammar.Plain.answers_many_advance_iff`: repetitions.
-/

namespace Backtrack

variable {τ α β γ : Type}

/-! ### Chains -/

/-- **One step after another**: each begins where the one before it ended, and the values are those
of the steps, in order. -/
inductive Chain (step : Stream → α → Stream → Prop) : Stream → List α → Stream → Prop where
  | nil {s : Stream} : Chain step s [] s
  | cons {s rest stop : Stream} {value : α} {values : List α} :
      step s value rest → Chain step rest values stop → Chain step s (value :: values) stop

/-- A chain of steps that stay at home **stays at home**. -/
theorem Chain.stays {step : Stream → α → Stream → Prop} (home : Stream → Prop)
    (hstay : ∀ {s value rest}, home s → step s value rest → home rest) {s stop : Stream}
    {values : List α} (h : Chain step s values stop) (hs : home s) : home stop := by
  induction h with
  | nil => exact hs
  | cons hfirst _ ih => exact ih (hstay hs hfirst)

/-- It is a chain of all other steps that can be made there. -/
theorem Chain.mono {step step' : Stream → α → Stream → Prop} (home : Stream → Prop)
    (hstay : ∀ {s value rest}, home s → step s value rest → home rest)
    (hstep : ∀ {s value rest}, home s → step s value rest → step' s value rest) {s stop : Stream}
    {values : List α} (h : Chain step s values stop) (hs : home s) :
    Chain step' s values stop := by
  induction h with
  | nil => exact .nil
  | cons hfirst _ ih => exact .cons (hstep hs hfirst) (ih (hstay hs hfirst))

namespace Grammar

variable [Quote τ] {σ : Signature}

/-- What a grammar **answers** at `s`: the outcome that it yields there, whatever it leaves. -/
def Answers (rules : Rules σ τ) (scope : Scope σ τ) (g : Grammar σ τ α) (sources : Sources τ)
    (s : Stream) (value : Outcome τ α) : Prop :=
  ∃ last, Yields rules scope g s sources value last

/-- A grammar **succeeds and advances**. -/
def Advances (rules : Rules σ τ) (scope : Scope σ τ) (g : Grammar σ τ α) (sources : Sources τ)
    (s : Stream) (item : α) (rest : Stream) : Prop :=
  Answers rules scope g sources s (.ok item rest) ∧ rest.position ≠ s.position

variable {rules : Rules σ τ} {scope : Scope σ τ} {g : Grammar σ τ α} {h : Grammar σ τ β}
  {sources other : Sources τ} {s : Stream}

/-- A grammar has **at most one answer**. -/
theorem Answers.unique {value value' : Outcome τ α} (hvalue : Answers rules scope g sources s value)
    (hvalue' : Answers rules scope g sources s value') : value = value' := by
  obtain ⟨last, hlast⟩ := hvalue
  obtain ⟨last', hlast'⟩ := hvalue'
  exact (hlast.unique hlast').1

/-- What a run gives is the answer. -/
theorem answers_of_run (fuel : Nat) {value : Outcome τ α}
    (hrun : ((parser rules fuel scope g s).run sources).map Step.value = some value) :
    Answers rules scope g sources s value := by
  obtain ⟨⟨_, last, events⟩, hstep, rfl⟩ := Option.map_eq_some_iff.mp hrun
  exact ⟨last, fuel, events, hstep⟩

theorem answers_map_iff {f : α → β} {value : Outcome τ β} :
    Answers rules scope (.map f g) sources s value ↔
      ∃ outcome, Answers rules scope g sources s outcome ∧ value = outcome.map f := by
  unfold Answers
  simp only [yields_map_iff]
  constructor
  · rintro ⟨last, outcome, hg, hvalue⟩
    exact ⟨outcome, ⟨last, hg⟩, hvalue⟩
  · rintro ⟨outcome, ⟨last, hg⟩, hvalue⟩
    exact ⟨last, outcome, hg, hvalue⟩

/-- A repetition never fails. -/
theorem not_answers_many_fail {failure : Failure τ} :
    ¬ Answers rules scope g.many sources s (.fail failure) := by
  rintro ⟨last, hlast⟩
  cases (yields_many_iff.mp hlast).not_fail

/-- It is empty where its first attempt fails. -/
theorem answers_many_of_fail {failure : Failure τ}
    (h : Answers rules scope g sources s (.fail failure)) :
    Answers rules scope g.many sources s (.ok [] s) := by
  obtain ⟨last, hlast⟩ := h
  exact ⟨last, yields_many_iff.mpr (.halted (.failed hlast))⟩

/-- It is aborted where its first attempt is. -/
theorem answers_many_of_error {failure : Failure τ}
    (h : Answers rules scope g sources s (.error failure)) :
    Answers rules scope g.many sources s (.error failure) := by
  obtain ⟨last, hlast⟩ := h
  exact ⟨last, yields_many_iff.mpr (.halted (.aborted hlast))⟩

section

variable (hrules : rules.Plain) (hscope : scope.Plain)

include hrules hscope

/-! ### What a parse leaves -/

/-- What a plain grammar leaves is alike, and it goes on in the same source. -/
theorem Plain.alike_of_yields (hg : g.Plain) (hs : s.source < sources.next)
    {value : Outcome τ α} {last : Sources τ} (hlast : Yields rules scope g s sources value last) :
    Sources.AlikeAt s.source s.source sources last ∧
      value.Within fun rest => rest.source = s.source := by
  obtain ⟨fuel, events, hrun⟩ := hlast
  have hcourse := (hg.composed hrules fuel hscope).course hrun
  refine ⟨(hcourse.alike hs).symm, ?_⟩
  cases value with
  | ok value rest => exact hcourse.source_rest rfl
  | fail failure => trivial
  | error failure => trivial

/-- **Parses before leave the answers as they were.** -/
theorem Plain.answers_congr (hg : g.Plain)
    (halike : Sources.AlikeAt s.source s.source sources other) {value : Outcome τ α} :
    Answers rules scope g sources s value ↔ Answers rules scope g other s value := by
  have hforth : ∀ {first second : Sources τ}, Sources.AlikeAt s.source s.source first second →
      Answers rules scope g first s value → Answers rules scope g second s value := by
    rintro first second hfirst ⟨last, hlast⟩
    obtain ⟨last', hlast', -, hwithin⟩ := hg.yields_relocate hrules hscope hfirst hlast
    have hsame : value.relocate s.source = value := by
      cases value with
      | ok value rest => exact congrArg (Outcome.ok value) (congrArg (Stream.mk · _) hwithin.symm)
      | fail failure => rfl
      | error failure => rfl
    rw [hsame] at hlast'
    exact ⟨last', hlast'⟩
  exact ⟨hforth halike, hforth halike.symm⟩

/-- An answer can be had on what was left of its source. -/
theorem Plain.yields_of_answers (hg : g.Plain)
    (halike : Sources.AlikeAt s.source s.source sources other) {value : Outcome τ α}
    (hvalue : Answers rules scope g sources s value) :
    ∃ last, Yields rules scope g s other value last ∧
      Sources.AlikeAt s.source s.source sources last ∧
      value.Within fun rest => rest.source = s.source := by
  obtain ⟨last, hlast⟩ := (hg.answers_congr hrules hscope halike).mp hvalue
  obtain ⟨hleft, hwithin⟩ := hg.alike_of_yields hrules hscope halike.second_lt hlast
  exact ⟨last, hlast, halike.trans hleft, hwithin⟩

/-- A success stays in the source. -/
theorem Plain.source_of_answers (hg : g.Plain) (hs : s.source < sources.next) {a : α}
    {rest : Stream} (hvalue : Answers rules scope g sources s (.ok a rest)) :
    rest.source = s.source := by
  obtain ⟨last, hlast⟩ := hvalue
  exact (hg.alike_of_yields hrules hscope hs hlast).2

/-- A success lies no earlier. -/
theorem Plain.position_le_of_answers (hg : g.Plain) {a : α} {rest : Stream}
    (hvalue : Answers rules scope g sources s (.ok a rest)) : s.position ≤ rest.position := by
  obtain ⟨last, fuel, events, hrun⟩ := hvalue
  exact (((hg.composed hrules fuel hscope).course hrun).located.spans).le

/-! ### Sequences -/

/-- What combines the values of two grammars in a row answers by what the second answers **where the
first succeeds**. -/
private theorem Plain.answers_combined_iff (hg : g.Plain) (hh : h.Plain)
    (hs : s.source < sources.next) {k : Grammar σ τ γ} {f : α → β → γ} {value : Outcome τ γ}
    (hk : ∀ last, Yields rules scope k s sources value last ↔
      ∃ first middle, Yields rules scope g s sources first middle ∧
        match first with
        | .ok a rest =>
          ∃ second, Yields rules scope h rest middle second last ∧ value = second.map (f a)
        | .fail failure => value = .fail failure ∧ last = middle
        | .error failure => value = .error failure ∧ last = middle) :
    Answers rules scope k sources s value ↔
      ∃ first, Answers rules scope g sources s first ∧
        match first with
        | .ok a rest =>
          ∃ second, Answers rules scope h sources rest second ∧ value = second.map (f a)
        | .fail failure => value = .fail failure
        | .error failure => value = .error failure := by
  constructor
  · rintro ⟨last, hlast⟩
    obtain ⟨first, middle, hfirst, hrest⟩ := (hk last).mp hlast
    obtain ⟨halike, hwithin⟩ := hg.alike_of_yields hrules hscope hs hfirst
    refine ⟨first, ⟨middle, hfirst⟩, ?_⟩
    cases first with
    | ok a rest =>
        obtain ⟨second, hsecond, hvalue⟩ := hrest
        rw [← show rest.source = s.source from hwithin] at halike
        exact ⟨second, (hh.answers_congr hrules hscope halike).mpr ⟨last, hsecond⟩, hvalue⟩
    | fail failure => exact hrest.1
    | error failure => exact hrest.1
  · rintro ⟨first, ⟨middle, hfirst⟩, hrest⟩
    obtain ⟨halike, hwithin⟩ := hg.alike_of_yields hrules hscope hs hfirst
    cases first with
    | ok a rest =>
        obtain ⟨second, hsecond, hvalue⟩ := hrest
        rw [← show rest.source = s.source from hwithin] at halike
        obtain ⟨last, hlast⟩ := (hh.answers_congr hrules hscope halike).mp hsecond
        exact ⟨last, (hk last).mpr ⟨_, middle, hfirst, second, hlast, hvalue⟩⟩
    | fail failure => exact ⟨middle, (hk middle).mpr ⟨_, middle, hfirst, hrest, rfl⟩⟩
    | error failure => exact ⟨middle, (hk middle).mpr ⟨_, middle, hfirst, hrest, rfl⟩⟩

theorem Plain.answers_pair_iff (hg : g.Plain) (hh : h.Plain) (hs : s.source < sources.next)
    {value : Outcome τ (α × β)} :
    Answers rules scope (.pair g h) sources s value ↔
      ∃ first, Answers rules scope g sources s first ∧
        match first with
        | .ok a rest => ∃ second, Answers rules scope h sources rest second ∧
            value = second.map fun b => (a, b)
        | .fail failure => value = .fail failure
        | .error failure => value = .error failure :=
  hg.answers_combined_iff hrules hscope hh hs fun _ => yields_pair_iff

theorem Plain.answers_keepRight_iff (hg : g.Plain) (hh : h.Plain) (hs : s.source < sources.next)
    {value : Outcome τ β} :
    Answers rules scope (.keepRight g h) sources s value ↔
      ∃ first, Answers rules scope g sources s first ∧
        match first with
        | .ok _ rest => Answers rules scope h sources rest value
        | .fail failure => value = .fail failure
        | .error failure => value = .error failure := by
  have hsecond : ∀ {P : Outcome τ β → Prop}, (∃ second, P second ∧ value = second.map id) ↔
      P value := by
    simp
  rw [hg.answers_combined_iff hrules hscope hh hs (f := fun _ => id) fun last => ?_]
  · simp only [hsecond]
  · simp only [hsecond]
    exact yields_keepRight_iff

/-- A value in front of the values of a list. -/
theorem Plain.answers_cons_iff (hg : g.Plain) {tail : Grammar σ τ (List α)} (htail : tail.Plain)
    (hs : s.source < sources.next) {value : Outcome τ (List α)} :
    Answers rules scope (.map (fun p => p.1 :: p.2) (.pair g tail)) sources s value ↔
      ∃ first, Answers rules scope g sources s first ∧
        match first with
        | .ok a rest =>
          ∃ others, Answers rules scope tail sources rest others ∧ value = others.map (a :: ·)
        | .fail failure => value = .fail failure
        | .error failure => value = .error failure := by
  rw [answers_map_iff]
  simp only [hg.answers_pair_iff hrules hscope htail hs]
  constructor
  · rintro ⟨both, ⟨first, hfirst, hrest⟩, rfl⟩
    refine ⟨first, hfirst, ?_⟩
    cases first with
    | ok a rest =>
        obtain ⟨others, hothers, rfl⟩ := hrest
        exact ⟨others, hothers, Outcome.map_map _ _ _⟩
    | fail failure => exact congrArg _ hrest
    | error failure => exact congrArg _ hrest
  · rintro ⟨first, hfirst, hrest⟩
    cases first with
    | ok a rest =>
        obtain ⟨others, hothers, rfl⟩ := hrest
        exact ⟨_, ⟨_, hfirst, others, hothers, rfl⟩, by rw [Outcome.map_map]; rfl⟩
    | fail failure => exact ⟨.fail failure, ⟨_, hfirst, rfl⟩, hrest⟩
    | error failure => exact ⟨.error failure, ⟨_, hfirst, rfl⟩, hrest⟩

/-! ### Repetitions -/

/-- A chain of successes is **a chain of answers**, whatever its parses leave. -/
theorem Successes.chain (hg : g.Plain) {current last : Sources τ} {items : List α} {stop : Stream}
    (hchain : Successes rules scope g s current items stop last)
    (halike : Sources.AlikeAt s.source s.source sources current) :
    Chain (Advances rules scope g sources) s items stop ∧
      Sources.AlikeAt stop.source stop.source sources last := by
  induction hchain with
  | nil => exact ⟨.nil, halike⟩
  | cons hfirst hadvance _ ih =>
      obtain ⟨hleft, hwithin⟩ := hg.alike_of_yields hrules hscope halike.second_lt hfirst
      have hmiddle := halike.trans hleft
      rw [← hwithin] at hmiddle
      obtain ⟨hrest, hlast⟩ := ih hmiddle
      exact ⟨.cons ⟨(hg.answers_congr hrules hscope halike).mpr ⟨_, hfirst⟩, hadvance⟩ hrest, hlast⟩

/-- And a chain of answers is a chain of successes, each on what the one before it left. -/
theorem Plain.successes_of_chain (hg : g.Plain) {current : Sources τ} {items : List α}
    {stop : Stream} (hchain : Chain (Advances rules scope g sources) s items stop)
    (halike : Sources.AlikeAt s.source s.source sources current) :
    ∃ last, Successes rules scope g s current items stop last ∧
      Sources.AlikeAt stop.source stop.source sources last := by
  induction hchain generalizing current with
  | nil => exact ⟨current, .nil, halike⟩
  | cons hstep _ ih =>
      obtain ⟨hanswer, hadvance⟩ := hstep
      obtain ⟨middle, hfirst, hmiddle, hwithin⟩ :=
        hg.yields_of_answers hrules hscope halike hanswer
      rw [← hwithin] at hmiddle
      obtain ⟨last, hrest, hlast⟩ := ih hmiddle
      exact ⟨last, .cons hfirst hadvance hrest, hlast⟩

/-- A repetition succeeds **with the items of a chain of answers**, where the next answer is a
failure or a success that does not advance. -/
theorem Plain.answers_many_ok_iff (hg : g.Plain) (hs : s.source < sources.next) {items : List α}
    {stop : Stream} :
    Answers rules scope g.many sources s (.ok items stop) ↔
      Chain (Advances rules scope g sources) s items stop ∧
        ((∃ failure, Answers rules scope g sources stop (.fail failure)) ∨
          ∃ item rest, Answers rules scope g sources stop (.ok item rest) ∧
            rest.position = stop.position ∧
            (sources.get s.source).config.repetition = .stop) := by
  unfold Answers
  simp only [yields_many_ok_iff hrules hscope hg]
  constructor
  · rintro ⟨last, middle, hchain, hend⟩
    obtain ⟨hrow, halike⟩ := hchain.chain hrules hscope hg (.refl hs)
    refine ⟨hrow, ?_⟩
    rcases hend with ⟨failure, hfail⟩ | ⟨item, rest, hok, hstuck, hpolicy⟩
    · exact .inl ⟨failure, (hg.answers_congr hrules hscope halike).mpr ⟨last, hfail⟩⟩
    · exact .inr ⟨item, rest, (hg.answers_congr hrules hscope halike).mpr ⟨last, hok⟩, hstuck,
        hpolicy⟩
  · rintro ⟨hrow, hend⟩
    obtain ⟨middle, hchain, halike⟩ := hg.successes_of_chain hrules hscope hrow (.refl hs)
    rcases hend with ⟨failure, hfail⟩ | ⟨item, rest, hok, hstuck, hpolicy⟩
    · obtain ⟨last, hlast⟩ := (hg.answers_congr hrules hscope halike).mp hfail
      exact ⟨last, middle, hchain, .inl ⟨failure, hlast⟩⟩
    · obtain ⟨last, hlast⟩ := (hg.answers_congr hrules hscope halike).mp hok
      exact ⟨last, middle, hchain, .inr ⟨item, rest, hlast, hstuck, hpolicy⟩⟩

/-- It is aborted where the next answer is an error, or **a success that does not advance** where
that is forbidden. -/
theorem Plain.answers_many_error_iff (hg : g.Plain) (hs : s.source < sources.next)
    {failure : Failure τ} :
    Answers rules scope g.many sources s (.error failure) ↔
      ∃ items stop, Chain (Advances rules scope g sources) s items stop ∧
        (Answers rules scope g sources stop (.error failure) ∨
          ∃ item rest, Answers rules scope g sources stop (.ok item rest) ∧
            rest.position = stop.position ∧
            (sources.get s.source).config.repetition = .error ∧
            failure = ⟨Message.noProgress, sources.token stop, stop.position⟩) := by
  unfold Answers
  simp only [yields_many_error_iff hrules hscope hg]
  constructor
  · rintro ⟨last, items, stop, middle, hchain, hend⟩
    obtain ⟨hrow, halike⟩ := hchain.chain hrules hscope hg (.refl hs)
    refine ⟨items, stop, hrow, ?_⟩
    rcases hend with herror | ⟨item, rest, after, hok, hstuck, hpolicy, hfailure, -⟩
    · exact .inl ((hg.answers_congr hrules hscope halike).mpr ⟨last, herror⟩)
    · exact .inr ⟨item, rest, (hg.answers_congr hrules hscope halike).mpr ⟨after, hok⟩, hstuck,
        hpolicy, hfailure⟩
  · rintro ⟨items, stop, hrow, hend⟩
    obtain ⟨middle, hchain, halike⟩ := hg.successes_of_chain hrules hscope hrow (.refl hs)
    rcases hend with herror | ⟨item, rest, hok, hstuck, hpolicy, hfailure⟩
    · obtain ⟨last, hlast⟩ := (hg.answers_congr hrules hscope halike).mp herror
      exact ⟨last, items, stop, middle, hchain, .inl hlast⟩
    · obtain ⟨after, hafter⟩ := (hg.answers_congr hrules hscope halike).mp hok
      exact ⟨_, items, stop, middle, hchain,
        .inr ⟨item, rest, after, hafter, hstuck, hpolicy, hfailure, rfl⟩⟩

/-- A repetition is empty where its first attempt does not advance and may end it. -/
theorem Plain.answers_many_of_stop (hg : g.Plain) (hs : s.source < sources.next) {item : α}
    {rest : Stream} (h : Answers rules scope g sources s (.ok item rest))
    (hstuck : rest.position = s.position)
    (hpolicy : (sources.get s.source).config.repetition = .stop) :
    Answers rules scope g.many sources s (.ok [] s) :=
  (hg.answers_many_ok_iff hrules hscope hs).mpr ⟨.nil, .inr ⟨item, rest, h, hstuck, hpolicy⟩⟩

/-- It is aborted where its first attempt does not advance and may not end it. -/
theorem Plain.answers_many_of_stall (hg : g.Plain) (hs : s.source < sources.next) {item : α}
    {rest : Stream} (h : Answers rules scope g sources s (.ok item rest))
    (hstuck : rest.position = s.position)
    (hpolicy : (sources.get s.source).config.repetition = .error) :
    Answers rules scope g.many sources s
      (.error ⟨Message.noProgress, sources.token s, s.position⟩) :=
  (hg.answers_many_error_iff hrules hscope hs).mpr
    ⟨[], s, .nil, .inr ⟨item, rest, h, hstuck, hpolicy, rfl⟩⟩

/-- Behind a success that advances, a repetition is **the repetition there** with one more item in
front. -/
theorem Plain.answers_many_advance_iff (hg : g.Plain) (hs : s.source < sources.next) {item : α}
    {rest : Stream} (hfirst : Advances rules scope g sources s item rest)
    {value : Outcome τ (List α)} :
    Answers rules scope g.many sources s value ↔
      ∃ tail, Answers rules scope g.many sources rest tail ∧ value = tail.map (item :: ·) := by
  obtain ⟨⟨middle, hmiddle⟩, hadvance⟩ := hfirst
  obtain ⟨halike, hwithin⟩ := hg.alike_of_yields hrules hscope hs hmiddle
  have hmany : g.many.Plain := hg
  rw [← show rest.source = s.source from hwithin] at halike
  simp only [hmany.answers_congr hrules hscope halike]
  unfold Answers
  simp only [yields_many_iff, repeats_advance_iff hmiddle hadvance]
  constructor
  · rintro ⟨last, tail, htail, hvalue⟩
    exact ⟨tail, ⟨last, htail⟩, hvalue⟩
  · rintro ⟨tail, ⟨last, htail⟩, hvalue⟩
    exact ⟨last, tail, htail, hvalue⟩

/-- A chain of answers stays in its source. -/
theorem Plain.source_of_chain (hg : g.Plain) (hs : s.source < sources.next) {items : List α}
    {stop : Stream} (hchain : Chain (Advances rules scope g sources) s items stop) :
    stop.source = s.source := by
  have hstay : ∀ {t item rest}, t.source = s.source → Advances rules scope g sources t item rest →
      rest.source = s.source := fun ht hstep =>
    (hg.source_of_answers hrules hscope (ht ▸ hs) hstep.1).trans ht
  exact hchain.stays (fun t => t.source = s.source) hstay rfl

/-- A chain of answers ends no earlier than it began. -/
theorem Plain.position_le_of_chain (hg : g.Plain) {items : List α} {stop : Stream}
    (hchain : Chain (Advances rules scope g sources) s items stop) :
    s.position ≤ stop.position := by
  induction hchain with
  | nil => exact Nat.le_refl _
  | cons hstep _ ih => exact Nat.le_trans (hg.position_le_of_answers hrules hscope hstep.1) ih

/-- And further on, **where there are items in it**. -/
theorem Plain.position_lt_of_chain (hg : g.Plain) {items : List α} {stop : Stream}
    (hchain : Chain (Advances rules scope g sources) s items stop) (hitems : items ≠ []) :
    s.position < stop.position := by
  cases hchain with
  | nil => exact absurd rfl hitems
  | cons hstep htail =>
      have hfirst := hg.position_le_of_answers hrules hscope hstep.1
      have hrest := hg.position_le_of_chain hrules hscope htail
      exact Nat.lt_of_lt_of_le (Nat.lt_of_le_of_ne hfirst hstep.2.symm) hrest

end

end Grammar

end Backtrack
