import Backtrack.Proofs.Separation

/-!
# Occurrences

One or more occurrences are an occurrence and a repetition behind it. The repetition asks of its
occurrences that they advance, and nobody asks it of the first one. So it is where the first
occurrence matches nothing that one or more are more than a repetition finds.

A repetition never fails, so a repetition of repetitions ends only where one of them does not
advance. This is where the items end: all of them are in the first group, and a second group is
empty.

## Main definitions

* `Grammar.AtLeastOneLaws`: one or more occurrences, told by a repetition.
* `Grammar.RegroupingLaws`: a repetition of repetitions, told by the repetition.

## Main results

* `Grammar.at_least_one_laws`, `Grammar.regrouping_laws`: the laws hold of all plain grammars.
-/

namespace Backtrack

variable {σ : Signature} {τ α : Type} [Quote τ]

namespace Grammar

section

variable (rules : Rules σ τ) (scope : Scope σ τ) (g : Grammar σ τ α) (sources : Sources τ)

/-- **One or more occurrences and a repetition**, at one position, by what the first attempt
answers. -/
structure AtLeastOneLaws (s : Stream) : Prop where
  /-- Where it advances, there is no difference. -/
  advance : ∀ {item rest}, Advances rules scope g sources s item rest → ∀ outcome,
    Answers rules scope g.many1 sources s outcome ↔ Answers rules scope g.many sources s outcome
  /-- A failure is one of the first, and for the repetition it is no occurrence. -/
  fail : ∀ {failure}, Answers rules scope g sources s (.fail failure) →
    Answers rules scope g.many1 sources s (.fail failure) ∧
      Answers rules scope g.many sources s (.ok [] s)
  /-- An error aborts both. -/
  error : ∀ {failure}, Answers rules scope g sources s (.error failure) →
    Answers rules scope g.many1 sources s (.error failure) ∧
      Answers rules scope g.many sources s (.error failure)
  /-- A success that does not advance is one occurrence, and for the repetition it is none. -/
  stop : ∀ {item rest}, Answers rules scope g sources s (.ok item rest) →
    rest.position = s.position → (sources.get s.source).config.repetition = .stop →
      Answers rules scope g.many1 sources s (.ok [item] s) ∧
        Answers rules scope g.many sources s (.ok [] s)
  /-- It aborts both where the settings forbid it. -/
  stall : ∀ {item rest}, Answers rules scope g sources s (.ok item rest) →
    rest.position = s.position → (sources.get s.source).config.repetition = .error →
      Answers rules scope g.many1 sources s
          (.error ⟨Message.noProgress, sources.token s, s.position⟩) ∧
        Answers rules scope g.many sources s
          (.error ⟨Message.noProgress, sources.token s, s.position⟩)
  /-- One or more are never none. -/
  nonempty : ∀ {items rest}, Answers rules scope g.many1 sources s (.ok items rest) → items ≠ []

/-- **A repetition of repetitions**, at one position, by what the repetition answers there. -/
structure RegroupingLaws (s : Stream) : Prop where
  /-- No items are no groups. -/
  none : (sources.get s.source).config.repetition = .stop → ∀ {stop},
    Answers rules scope g.many sources s (.ok [] stop) →
      Answers rules scope g.many.many sources s (.ok [] s)
  /-- Items are one group. -/
  group : (sources.get s.source).config.repetition = .stop → ∀ {items stop}, items ≠ [] →
    Answers rules scope g.many sources s (.ok items stop) →
      Answers rules scope g.many.many sources s (.ok [items] stop)
  /-- An error aborts both. -/
  error : ∀ {failure}, Answers rules scope g.many sources s (.error failure) →
    Answers rules scope g.many.many sources s (.error failure)
  /-- The items of all groups are the items. -/
  flatten : (sources.get s.source).config.repetition = .stop → ∀ outcome,
    Answers rules scope g.many sources s outcome ↔
      ∃ groups, Answers rules scope g.many.many sources s groups ∧
        outcome = groups.map List.flatten
  /-- Where the settings forbid an attempt that does not advance, there is one behind the items. -/
  stall : (sources.get s.source).config.repetition = .error → ∀ {items stop},
    Answers rules scope g.many sources s (.ok items stop) →
      Answers rules scope g.many.many sources s
        (.error ⟨Message.noProgress, sources.token stop, stop.position⟩)
  /-- So there are no groups. -/
  never : (sources.get s.source).config.repetition = .error → ∀ groups stop,
    ¬ Answers rules scope g.many.many sources s (.ok groups stop)

end

variable {rules : Rules σ τ} {scope : Scope σ τ} {g : Grammar σ τ α} {sources : Sources τ}
  {s : Stream}

/-- A repetition that answers has made an attempt. -/
theorem exists_answers_of_many {outcome : Outcome τ (List α)}
    (h : Answers rules scope g.many sources s outcome) :
    ∃ first, Answers rules scope g sources s first := by
  obtain ⟨last, hlast⟩ := h
  cases yields_many_iff.mp hlast with
  | halted hhalts =>
      obtain ⟨first, middle, hfirst, -⟩ := hhalts.attempt
      exact ⟨first, middle, hfirst⟩
  | moved hfirst _ _ => exact ⟨_, _, hfirst⟩

section

variable (hrules : rules.Plain) (hscope : scope.Plain) (hg : g.Plain)
  (hs : s.source < sources.next)

include hrules hscope hg hs

/-- A success that does not advance ends **where it began**. -/
theorem rest_eq_of_stuck {item : α} {rest : Stream}
    (h : Answers rules scope g sources s (.ok item rest)) (hstuck : rest.position = s.position) :
    rest = s := by
  have hsource := hg.source_of_answers hrules hscope hs h
  cases rest
  cases s
  simp only [Stream.mk.injEq]
  exact ⟨hsource, hstuck⟩

/-! ### One or more -/

/-- One or more occurrences are told by the first one and the repetition behind it. -/
theorem answers_many1_iff {outcome : Outcome τ (List α)} :
    Answers rules scope g.many1 sources s outcome ↔
      ∃ first, Answers rules scope g sources s first ∧
        match first with
        | .ok item rest =>
          ∃ others, Answers rules scope g.many sources rest others ∧
            outcome = others.map (item :: ·)
        | .fail failure => outcome = .fail failure
        | .error failure => outcome = .error failure := by
  have hmany : g.many.Plain := hg
  exact hg.answers_cons_iff hrules hscope hmany hs

/-- Behind an occurrence that advances, **one or more are what the repetition finds**. -/
theorem answers_many1_advance_iff {item : α} {rest : Stream}
    (hfirst : Advances rules scope g sources s item rest) {outcome : Outcome τ (List α)} :
    Answers rules scope g.many1 sources s outcome ↔
      Answers rules scope g.many sources s outcome := by
  rw [answers_many1_iff hrules hscope hg hs, hg.answers_many_advance_iff hrules hscope hs hfirst]
  constructor
  · rintro ⟨first, hother, hrest⟩
    obtain rfl := hother.unique hfirst.1
    exact hrest
  · intro hrest
    exact ⟨_, hfirst.1, hrest⟩

/-- One or more are never none. -/
theorem ne_nil_of_answers_many1 {items : List α} {rest : Stream}
    (h : Answers rules scope g.many1 sources s (.ok items rest)) : items ≠ [] := by
  obtain ⟨first, -, hrest⟩ := (answers_many1_iff hrules hscope hg hs).mp h
  cases first with
  | ok item middle =>
      obtain ⟨others, -, hitems⟩ := hrest
      cases others with
      | ok others stop =>
          obtain ⟨rfl, -⟩ := Outcome.ok.inj hitems
          exact List.cons_ne_nil item others
      | fail failure => cases hitems
      | error failure => cases hitems
  | fail failure => cases hrest
  | error failure => cases hrest

/-- **One or more occurrences are a repetition that counts its first attempt**: the two agree
wherever that attempt advances, and also on its errors. -/
theorem at_least_one_laws : AtLeastOneLaws rules scope g sources s where
  advance hfirst _ := answers_many1_advance_iff hrules hscope hg hs hfirst
  fail h :=
    ⟨(answers_many1_iff hrules hscope hg hs).mpr ⟨_, h, rfl⟩, answers_many_of_fail h⟩
  error h :=
    ⟨(answers_many1_iff hrules hscope hg hs).mpr ⟨_, h, rfl⟩, answers_many_of_error h⟩
  stop {item rest} h hstuck hpolicy := by
    have hmany := hg.answers_many_of_stop hrules hscope hs h hstuck hpolicy
    obtain rfl := rest_eq_of_stuck hrules hscope hg hs h hstuck
    exact ⟨(answers_many1_iff hrules hscope hg hs).mpr ⟨_, h, _, hmany, rfl⟩, hmany⟩
  stall {item rest} h hstuck hpolicy := by
    have hmany := hg.answers_many_of_stall hrules hscope hs h hstuck hpolicy
    obtain rfl := rest_eq_of_stuck hrules hscope hg hs h hstuck
    exact ⟨(answers_many1_iff hrules hscope hg hs).mpr ⟨_, h, _, hmany, rfl⟩, hmany⟩
  nonempty := ne_nil_of_answers_many1 hrules hscope hg hs

end

end Grammar

/-- One occurrence of nothing, where a repetition finds none. -/
theorem Brackets.at_least_one_laws_nothing :
    Grammar.Answers rules .empty grammar.many1 (store none [false]) .start (.ok [0] .start) ∧
      Grammar.Answers rules .empty grammar.many (store none [false]) .start (.ok [] .start) := by
  have laws : Grammar.AtLeastOneLaws rules .empty grammar (store none [false]) .start :=
    Grammar.at_least_one_laws plain_rules plain_scope plain_grammar (by decide)
  have hnothing : Grammar.Answers rules .empty grammar (store none [false]) .start
      (.ok 0 .start) :=
    Grammar.answers_of_run 5 (by decide +kernel)
  exact laws.stop hnothing rfl rfl

namespace Grammar

variable {rules : Rules σ τ} {scope : Scope σ τ} {g : Grammar σ τ α} {sources : Sources τ}
  {s : Stream}

section

variable (hrules : rules.Plain) (hscope : scope.Plain) (hg : g.Plain)
  (hs : s.source < sources.next)

include hrules hscope hg hs

/-! ### Repetitions of repetitions -/

/-- A repetition that is made again where it stopped **finds nothing**. -/
theorem answers_many_again {items : List α} {stop : Stream}
    (h : Answers rules scope g.many sources s (.ok items stop)) :
    stop.source = s.source ∧ Answers rules scope g.many sources stop (.ok [] stop) := by
  obtain ⟨hchain, hend⟩ := (hg.answers_many_ok_iff hrules hscope hs).mp h
  have hsource := hg.source_of_chain hrules hscope hs hchain
  rw [← hsource] at hend hs
  exact ⟨hsource, (hg.answers_many_ok_iff hrules hscope hs).mpr ⟨.nil, hend⟩⟩

/-- A repetition without items stops where it began. -/
theorem stop_eq_of_nothing {stop : Stream}
    (h : Answers rules scope g.many sources s (.ok [] stop)) : stop = s := by
  obtain ⟨hchain, -⟩ := (hg.answers_many_ok_iff hrules hscope hs).mp h
  cases hchain
  rfl

/-- A repetition with items advances. -/
theorem advances_many_of_items {items : List α} {stop : Stream} (hitems : items ≠ [])
    (h : Answers rules scope g.many sources s (.ok items stop)) :
    Advances rules scope g.many sources s items stop := by
  obtain ⟨hchain, -⟩ := (hg.answers_many_ok_iff hrules hscope hs).mp h
  exact ⟨h, Nat.ne_of_gt (hg.position_lt_of_chain hrules hscope hchain hitems)⟩

/-- No items are no groups. -/
theorem answers_many_many_of_nothing
    (hpolicy : (sources.get s.source).config.repetition = .stop) {stop : Stream}
    (h : Answers rules scope g.many sources s (.ok [] stop)) :
    Answers rules scope g.many.many sources s (.ok [] s) := by
  have hmany : g.many.Plain := hg
  obtain rfl := stop_eq_of_nothing hrules hscope hg hs h
  exact hmany.answers_many_of_stop hrules hscope hs h rfl hpolicy

/-- Items are **one group**, for the group behind it is empty. -/
theorem answers_many_many_of_items
    (hpolicy : (sources.get s.source).config.repetition = .stop) {items : List α} {stop : Stream}
    (hitems : items ≠ []) (h : Answers rules scope g.many sources s (.ok items stop)) :
    Answers rules scope g.many.many sources s (.ok [items] stop) := by
  have hmany : g.many.Plain := hg
  have hadvance := advances_many_of_items hrules hscope hg hs hitems h
  obtain ⟨hsource, hagain⟩ := answers_many_again hrules hscope hg hs h
  rw [← hsource] at hs hpolicy
  have hempty := hmany.answers_many_of_stop hrules hscope hs hagain rfl hpolicy
  rw [hsource] at hs
  exact (hmany.answers_many_advance_iff hrules hscope hs hadvance).mpr ⟨_, hempty, rfl⟩

/-- Where an attempt must advance, the empty group behind the items **aborts the repetition of
repetitions**, where the items end. -/
theorem answers_many_many_of_stall
    (hpolicy : (sources.get s.source).config.repetition = .error) {items : List α} {stop : Stream}
    (h : Answers rules scope g.many sources s (.ok items stop)) :
    Answers rules scope g.many.many sources s
      (.error ⟨Message.noProgress, sources.token stop, stop.position⟩) := by
  have hmany : g.many.Plain := hg
  by_cases hitems : items = []
  · subst hitems
    obtain rfl := stop_eq_of_nothing hrules hscope hg hs h
    exact hmany.answers_many_of_stall hrules hscope hs h rfl hpolicy
  · have hadvance := advances_many_of_items hrules hscope hg hs hitems h
    obtain ⟨hsource, hagain⟩ := answers_many_again hrules hscope hg hs h
    rw [← hsource] at hs hpolicy
    have hempty := hmany.answers_many_of_stall hrules hscope hs hagain rfl hpolicy
    rw [hsource] at hs
    exact (hmany.answers_many_advance_iff hrules hscope hs hadvance).mpr ⟨_, hempty, rfl⟩

/-- What the repetition answers, the repetition of repetitions answers **in groups**. -/
theorem answers_many_many_of_many
    (hpolicy : (sources.get s.source).config.repetition = .stop) {outcome : Outcome τ (List α)}
    (h : Answers rules scope g.many sources s outcome) :
    ∃ groups, Answers rules scope g.many.many sources s groups ∧
      outcome = groups.map List.flatten := by
  cases outcome with
  | ok items stop =>
      by_cases hitems : items = []
      · subst hitems
        have hnone := answers_many_many_of_nothing hrules hscope hg hs hpolicy h
        obtain rfl := stop_eq_of_nothing hrules hscope hg hs h
        exact ⟨_, hnone, rfl⟩
      · have hgroup := answers_many_many_of_items hrules hscope hg hs hpolicy hitems h
        exact ⟨_, hgroup, by simp [Outcome.map]⟩
  | fail failure => exact absurd h not_answers_many_fail
  | error failure => exact ⟨_, answers_many_of_error h, rfl⟩

/-- The groups have **the items of the repetition**. -/
theorem answers_many_flatten_iff
    (hpolicy : (sources.get s.source).config.repetition = .stop) {outcome : Outcome τ (List α)} :
    Answers rules scope g.many sources s outcome ↔
      ∃ groups, Answers rules scope g.many.many sources s groups ∧
        outcome = groups.map List.flatten := by
  refine ⟨answers_many_many_of_many hrules hscope hg hs hpolicy, ?_⟩
  rintro ⟨groups, hgroups, rfl⟩
  obtain ⟨first, hfirst⟩ := exists_answers_of_many hgroups
  obtain ⟨groups', hgroups', rfl⟩ :=
    answers_many_many_of_many hrules hscope hg hs hpolicy hfirst
  obtain rfl := hgroups.unique hgroups'
  exact hfirst

/-- Where an attempt must advance, there are **never any groups**. -/
theorem not_answers_many_many_ok
    (hpolicy : (sources.get s.source).config.repetition = .error) {groups : List (List α)}
    {stop : Stream} : ¬ Answers rules scope g.many.many sources s (.ok groups stop) := by
  intro h
  obtain ⟨first, hfirst⟩ := exists_answers_of_many h
  cases first with
  | ok items rest =>
      cases h.unique (answers_many_many_of_stall hrules hscope hg hs hpolicy hfirst)
  | fail failure => exact not_answers_many_fail hfirst
  | error failure => cases h.unique (answers_many_of_error hfirst)

/-- **A repetition of repetitions finds what the repetition finds, in one group**, unless attempts
must advance. Then the empty group behind the first one is an error, and so it never succeeds. -/
theorem regrouping_laws : RegroupingLaws rules scope g sources s where
  none hpolicy := answers_many_many_of_nothing hrules hscope hg hs hpolicy
  group hpolicy _ _ hitems := answers_many_many_of_items hrules hscope hg hs hpolicy hitems
  error := answers_many_of_error
  flatten hpolicy _ := answers_many_flatten_iff hrules hscope hg hs hpolicy
  stall hpolicy := answers_many_many_of_stall hrules hscope hg hs hpolicy
  never hpolicy _ _ := not_answers_many_many_ok hrules hscope hg hs hpolicy

end

end Grammar

/-- Two opening brackets are one group of two, and where attempts must advance, the empty group
behind them is an error. -/
theorem Brackets.regrouping_laws_opening :
    Grammar.Answers rules .empty opening.many.many (store none [true, true, false]) .start
        (.ok [[true, true]] ⟨0, 2⟩) ∧
      Grammar.Answers rules .empty opening.many.many
        (.single (.buffered [true, true, false] { repetition := .error })) .start
        (.error ⟨Message.noProgress, some false, 2⟩) := by
  constructor
  · have hitems : Grammar.Answers rules .empty opening.many (store none [true, true, false])
        .start (.ok [true, true] ⟨0, 2⟩) :=
      Grammar.answers_of_run 4 (by decide +kernel)
    have laws : Grammar.RegroupingLaws rules .empty opening (store none [true, true, false])
        .start :=
      Grammar.regrouping_laws plain_rules plain_scope trivial (by decide)
    exact laws.group rfl (by decide) hitems
  · have hitems : Grammar.Answers rules .empty opening.many
        (.single (.buffered [true, true, false] { repetition := .error })) .start
        (.ok [true, true] ⟨0, 2⟩) :=
      Grammar.answers_of_run 4 (by decide +kernel)
    have laws : Grammar.RegroupingLaws rules .empty opening
        (.single (.buffered [true, true, false] { repetition := .error })) .start :=
      Grammar.regrouping_laws plain_rules plain_scope trivial (by decide)
    exact laws.stall rfl hitems

end Backtrack
