import Backtrack.Proofs.Rerun
import Backtrack.Proofs.Separation

/-!
# Left Factoring

A choice between two sequences that begin with the same grammar parses that beginning twice where
the first sequence fails behind it. The second time is a parse made again: it ends as the first
did, asks the supply for nothing and puts every level back. So the beginning may as well be parsed
once, with the choice behind it.

## Main results

* `Grammar.yields_bind_of_ok`, `Grammar.yields_bind_of_fail`, `Grammar.yields_bind_of_error`: a
  sequence, told by its beginning.
* `Grammar.left_factoring`: the two ways to write the choice yield the same and leave the same
  store.
-/

namespace Backtrack

variable {τ α β γ : Type}

namespace Grammar

variable [Quote τ] {σ : Signature} {rules : Rules σ τ} {scope : Scope σ τ} {s : Stream}
  {sources middle last : Sources τ}

/-! ### Parts replaced -/

/-- Grammars that yield the same may be chosen between instead. -/
theorem yields_orElse_congr {g g' h h' : Grammar σ τ α}
    (hfirst : ∀ value middle, Yields rules scope g s sources value middle ↔
      Yields rules scope g' s sources value middle)
    (hsecond : ∀ middle value last, Yields rules scope h s middle value last ↔
      Yields rules scope h' s middle value last)
    {value : Outcome τ α} :
    Yields rules scope (.orElse g h) s sources value last ↔
      Yields rules scope (.orElse g' h') s sources value last := by
  rw [yields_orElse_iff, yields_orElse_iff]
  refine exists_congr fun first => exists_congr fun middle => and_congr (hfirst _ _) ?_
  cases first with
  | fail failure => exact hsecond _ _ _
  | ok a rest => exact Iff.rfl
  | error failure => exact Iff.rfl

/-- Grammars that yield the same may be gone on with instead. -/
theorem yields_bind_congr {p : Grammar σ τ α} {next next' : α → Grammar σ τ β}
    (hnext : ∀ a rest middle value last, Yields rules scope (next a) rest middle value last ↔
      Yields rules scope (next' a) rest middle value last) {value : Outcome τ β} :
    Yields rules scope (.bind p next) s sources value last ↔
      Yields rules scope (.bind p next') s sources value last := by
  rw [yields_bind_iff, yields_bind_iff]
  refine exists_congr fun first => exists_congr fun middle => and_congr_right fun _ => ?_
  cases first with
  | ok a rest => exact hnext a rest middle value last
  | fail failure => exact Iff.rfl
  | error failure => exact Iff.rfl

/-- Two grammars in a row are the first, and then the second with the value of the first put
in. -/
theorem yields_pair_iff_bind {g : Grammar σ τ α} {h : Grammar σ τ β} {value : Outcome τ (α × β)} :
    Yields rules scope (.pair g h) s sources value last ↔
      Yields rules scope (.bind g fun a => .map (Prod.mk a) h) s sources value last := by
  rw [yields_pair_iff, yields_bind_iff]
  refine exists_congr fun first => exists_congr fun middle => and_congr_right fun _ => ?_
  cases first with
  | ok a rest => exact yields_map_iff.symm
  | fail failure => exact Iff.rfl
  | error failure => exact Iff.rfl

/-- A function of the chosen value is one of the values chosen between. -/
theorem yields_map_orElse_iff {f : α → β} {g h : Grammar σ τ α} {value : Outcome τ β} :
    Yields rules scope (.map f (.orElse g h)) s sources value last ↔
      Yields rules scope (.orElse (.map f g) (.map f h)) s sources value last := by
  simp only [yields_map_iff, yields_orElse_iff]
  constructor
  · rintro ⟨outcome, ⟨first, middle, hfirst, hrest⟩, rfl⟩
    refine ⟨first.map f, middle, ⟨first, hfirst, rfl⟩, ?_⟩
    cases first with
    | ok a rest =>
        obtain ⟨rfl, rfl⟩ := hrest
        exact ⟨rfl, rfl⟩
    | fail failure => exact ⟨outcome, hrest, rfl⟩
    | error failure =>
        obtain ⟨rfl, rfl⟩ := hrest
        exact ⟨rfl, rfl⟩
  · rintro ⟨_, middle, ⟨first, hfirst, rfl⟩, hrest⟩
    cases first with
    | ok a rest =>
        obtain ⟨rfl, rfl⟩ := hrest
        exact ⟨_, ⟨_, _, hfirst, rfl, rfl⟩, rfl⟩
    | fail failure =>
        obtain ⟨outcome, houtcome, rfl⟩ := hrest
        exact ⟨outcome, ⟨_, _, hfirst, houtcome⟩, rfl⟩
    | error failure =>
        obtain ⟨rfl, rfl⟩ := hrest
        exact ⟨_, ⟨_, _, hfirst, rfl, rfl⟩, rfl⟩

/-! ### Sequences told by their beginning -/

section

variable {p : Grammar σ τ α} {next : α → Grammar σ τ β} {value : Outcome τ β}

/-- A sequence that yields anything has parsed its beginning. -/
theorem exists_yields_of_bind (h : Yields rules scope (.bind p next) s sources value last) :
    ∃ first middle, Yields rules scope p s sources first middle := by
  obtain ⟨first, middle, hfirst, -⟩ := yields_bind_iff.mp h
  exact ⟨first, middle, hfirst⟩

/-- Once it is known what the beginning yields, the rest of a sequence is told by that. -/
theorem yields_bind_of_yields {first : Outcome τ α} :
    Yields rules scope p s sources first middle →
      (Yields rules scope (.bind p next) s sources value last ↔
        match first with
        | .ok a rest => Yields rules scope (next a) rest middle value last
        | .fail failure => value = .fail failure ∧ last = middle
        | .error failure => value = .error failure ∧ last = middle) := by
  intro hfirst
  rw [yields_bind_iff]
  constructor
  · rintro ⟨other, store, hother, hrest⟩
    obtain ⟨rfl, rfl⟩ := hfirst.unique hother
    exact hrest
  · intro hrest
    exact ⟨first, middle, hfirst, hrest⟩

/-- **Behind a success** a sequence is what it goes on with. -/
theorem yields_bind_of_ok {a : α} {rest : Stream}
    (hfirst : Yields rules scope p s sources (.ok a rest) middle) :
    Yields rules scope (.bind p next) s sources value last ↔
      Yields rules scope (next a) rest middle value last :=
  yields_bind_of_yields hfirst

/-- A failure of its beginning is the failure of a sequence. -/
theorem yields_bind_of_fail {failure : Failure τ}
    (hfirst : Yields rules scope p s sources (.fail failure) middle) :
    Yields rules scope (.bind p next) s sources value last ↔
      value = .fail failure ∧ last = middle :=
  yields_bind_of_yields hfirst

/-- So is an error. -/
theorem yields_bind_of_error {failure : Failure τ}
    (hfirst : Yields rules scope p s sources (.error failure) middle) :
    Yields rules scope (.bind p next) s sources value last ↔
      value = .error failure ∧ last = middle :=
  yields_bind_of_yields hfirst

end

/-! ### The choice -/

section

variable (hrules : rules.Plain) (hscope : scope.Plain) {p : Grammar σ τ α} (hp : p.Plain)
  (hs : s.source < sources.next)

include hrules hscope hp hs

/-- **Behind a success of the beginning**, the choice is one between what the sequences go on
with. -/
theorem yields_choice_of_ok {f g : α → Grammar σ τ β} (hf : ∀ a, (f a).Plain) {a : α}
    {rest : Stream} (hfirst : Yields rules scope p s sources (.ok a rest) middle)
    {value : Outcome τ β} :
    Yields rules scope (.orElse (.bind p f) (.bind p g)) s sources value last ↔
      Yields rules scope (.orElse (f a) (g a)) rest middle value last := by
  -- The beginning is known from here on, and whatever is tried behind it leaves it known.
  have hagain := hp.yields_again hrules hscope hs hfirst
  obtain ⟨halike, hwithin⟩ := hp.alike_of_yields hrules hscope hs hfirst
  have hmiddle := halike.second_lt
  rw [yields_orElse_iff, yields_orElse_iff]
  simp only [yields_bind_of_ok hfirst]
  refine exists_congr fun outcome => exists_congr fun store => and_congr_right fun htried => ?_
  cases outcome with
  | ok b stop => exact Iff.rfl
  | fail failure =>
      have hstill := hp.yields_still hrules hscope (hf a) hmiddle hagain hwithin htried
      exact yields_bind_of_ok hstill
  | error failure => exact Iff.rfl

/-- **A choice between sequences with the same beginning is the beginning and then the choice.** -/
theorem yields_factored_iff {f g : α → Grammar σ τ β} (hf : ∀ a, (f a).Plain)
    {value : Outcome τ β} :
    Yields rules scope (.orElse (.bind p f) (.bind p g)) s sources value last ↔
      Yields rules scope (.bind p fun a => .orElse (f a) (g a)) s sources value last := by
  have htold : ∀ {first middle}, Yields rules scope p s sources first middle →
      (Yields rules scope (.orElse (.bind p f) (.bind p g)) s sources value last ↔
        Yields rules scope (.bind p fun a => .orElse (f a) (g a)) s sources value last) := by
    intro first middle hfirst
    cases first with
    | ok a rest =>
        rw [yields_choice_of_ok hrules hscope hp hs hf hfirst, yields_bind_of_ok hfirst]
    | fail failure =>
        have hagain := hp.yields_again hrules hscope hs hfirst
        rw [yields_orElse_iff, yields_bind_of_fail hfirst]
        simp only [yields_bind_of_fail hfirst]
        constructor
        · rintro ⟨_, _, ⟨rfl, rfl⟩, hsecond⟩
          exact (yields_bind_of_fail hagain).mp hsecond
        · intro hvalue
          exact ⟨_, _, ⟨rfl, rfl⟩, (yields_bind_of_fail hagain).mpr hvalue⟩
    | error failure =>
        rw [yields_orElse_iff, yields_bind_of_error hfirst]
        simp only [yields_bind_of_error hfirst]
        constructor
        · rintro ⟨_, _, ⟨rfl, rfl⟩, hvalue⟩
          exact hvalue
        · intro hvalue
          exact ⟨_, _, ⟨rfl, rfl⟩, hvalue⟩
  constructor
  · intro h
    obtain ⟨_, _, htried, -⟩ := yields_orElse_iff.mp h
    obtain ⟨first, middle, hfirst⟩ := exists_yields_of_bind htried
    exact (htold hfirst).mp h
  · intro h
    obtain ⟨first, middle, hfirst⟩ := exists_yields_of_bind h
    exact (htold hfirst).mpr h

/-- **Left factoring**: a choice between two sequences that begin with the same grammar is that
grammar and then the choice between what follows. Both yield the same outcome, or neither yields
any, and both leave the same store: the same tokens asked for and the same levels of references.
Of what the second sequence goes on with, nothing is asked. -/
theorem left_factoring :
    (∀ {β : Type} {f g : α → Grammar σ τ β}, (∀ a, (f a).Plain) → ∀ value last,
        Yields rules scope (.orElse (.bind p f) (.bind p g)) s sources value last ↔
          Yields rules scope (.bind p fun a => .orElse (f a) (g a)) s sources value last) ∧
    ∀ {β : Type} {q r : Grammar σ τ β}, q.Plain → ∀ value last,
      Yields rules scope (.orElse (.pair p q) (.pair p r)) s sources value last ↔
        Yields rules scope (.pair p (.orElse q r)) s sources value last := by
  constructor
  · intro β f g hf value last
    exact yields_factored_iff hrules hscope hp hs hf
  · intro β q r hq value last
    have hbehind : ∀ a : α, (Grammar.map (Prod.mk a) q).Plain := fun _ => hq
    calc Yields rules scope (.orElse (.pair p q) (.pair p r)) s sources value last
      _ ↔ Yields rules scope (.orElse (.bind p fun a => .map (Prod.mk a) q)
            (.bind p fun a => .map (Prod.mk a) r)) s sources value last :=
          yields_orElse_congr (fun _ _ => yields_pair_iff_bind) fun _ _ _ => yields_pair_iff_bind
      _ ↔ Yields rules scope (.bind p fun a => .orElse (.map (Prod.mk a) q)
            (.map (Prod.mk a) r)) s sources value last :=
          yields_factored_iff hrules hscope hp hs hbehind
      _ ↔ Yields rules scope (.bind p fun a => .map (Prod.mk a) (.orElse q r))
            s sources value last :=
          yields_bind_congr fun _ _ _ _ _ => yields_map_orElse_iff.symm
      _ ↔ Yields rules scope (.pair p (.orElse q r)) s sources value last :=
          yields_pair_iff_bind.symm

end

end Grammar

/-- Brackets over a lazy source, and then an opening bracket or nothing: they are parsed a second
time, without another request. -/
theorem Brackets.left_factoring_lazy :
    ∃ last : Sources Bool,
      Grammar.Yields rules .empty
        (.orElse (.bind grammar fun _ => opening) (.bind grammar fun n => .succeed (n == 1)))
        .start (.single (.lazy supply .standard)) (.ok true ⟨0, 2⟩) last ∧
      Grammar.Yields rules .empty
        (.bind grammar fun n => .orElse opening (.succeed (n == 1)))
        .start (.single (.lazy supply .standard)) (.ok true ⟨0, 2⟩) last ∧
      (last.get 0).tape.requests = 3 ∧ (last.get 0).depth = 0 := by
  have hrun : ((Grammar.parser rules 5 .empty
      (.bind grammar fun n => .orElse opening (.succeed (n == 1))) .start).run
        (.single (.lazy supply .standard))).map (fun step =>
          (step.value, (step.sources.get 0).tape.requests, (step.sources.get 0).depth)) =
      some (.ok true ⟨0, 2⟩, 3, 0) := by
    decide +kernel
  obtain ⟨⟨_, last, events⟩, hstep, hlast⟩ := Option.map_eq_some_iff.mp hrun
  obtain ⟨rfl, hrequests, hdepth⟩ : _ ∧ _ ∧ _ := by simpa using hlast
  have hfactored : Grammar.Yields rules .empty
      (.bind grammar fun n => .orElse opening (.succeed (n == 1)))
      .start (.single (.lazy supply .standard)) (.ok true ⟨0, 2⟩) last := ⟨5, events, hstep⟩
  have hs : Stream.start.source < (Sources.single (.lazy supply .standard)).next := by decide
  have hlaw := (Grammar.left_factoring plain_rules plain_scope plain_grammar hs).1
    (f := fun _ => opening) (g := fun n => .succeed (n == 1)) (fun _ => trivial) (.ok true ⟨0, 2⟩)
    last
  exact ⟨last, hlaw.mpr hfactored, hfactored, hrequests, hdepth⟩

end Backtrack
