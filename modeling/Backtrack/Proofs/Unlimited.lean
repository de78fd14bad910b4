import Backtrack.Proofs.Activity
import Backtrack.Proofs.Comparison

/-!
# Levels Without a Limit

A source without a limit counts the references that are active on it, and nothing ever depends on
the count. A parse may therefore run at any level, and a reference may be replaced by the rule
that it refers to: the outcome is the same, and so are the tokens asked for and the lines in the
log.

## Main definitions

* `Sources.Level`: stores that differ in the count of a source without a limit.
* `Comparison.level`: runs on such stores.

## Main results

* `Comparison.level_nested_left`, `Comparison.level_nested_right`: a level more or less.
* `Comparison.level_flip`: the order of the two runs makes no difference.
-/

namespace Backtrack

variable {τ α : Type}

/-- A source with another number of active references. -/
def Source.atDepth (source : Source τ) (depth : Nat) : Source τ := { source with depth }

namespace Sources

/-- Stores that differ at most in **the count of the source `id`**, which has no limit. -/
structure Level (id : Nat) (first second : Sources τ) : Prop where
  unlimited : (first.get id).config.maxDepth = none
  eq_atDepth : ∃ depth, second = first.modify id (·.atDepth depth)

namespace Level

variable {id : Nat} {first second : Sources τ}

theorem refl {sources : Sources τ} (h : (sources.get id).config.maxDepth = none) :
    Level id sources sources :=
  ⟨h, (sources.get id).depth, (modify_eq_self fun _ => rfl).symm⟩

/-- Tokens and settings are the same. -/
theorem token_config (h : Level id first second) (other : Nat) :
    (second.get other).token = (first.get other).token ∧
      (second.get other).config = (first.get other).config := by
  obtain ⟨-, depth, rfl⟩ := h
  exact rel_get_modify (f := (·.atDepth depth))
    (P := fun new old : Source τ => new.token = old.token ∧ new.config = old.config)
    (fun _ => ⟨rfl, rfl⟩) (fun _ => ⟨rfl, rfl⟩) first id other

theorem unlimited_second (h : Level id first second) :
    (second.get id).config.maxDepth = none := by
  rw [(h.token_config id).2]
  exact h.unlimited

theorem symm (h : Level id first second) : Level id second first := by
  refine ⟨h.unlimited_second, (first.get id).depth, ?_⟩
  obtain ⟨-, depth, rfl⟩ := h
  rw [modify_modify]
  exact (modify_eq_self fun _ => rfl).symm

/-- To change the count of the first makes no difference. -/
theorem modify_left (h : Level id first second) (f : Source τ → Source τ)
    (hf : ∀ source depth, (f source).atDepth depth = source.atDepth depth) :
    Level id (first.modify id f) second := by
  obtain ⟨hunlimited, depth, rfl⟩ := h
  have hconfig : ∀ source : Source τ, (f source).config = source.config := by
    intro source
    have hsame := congrArg Source.config (hf source 0)
    exact hsame
  refine ⟨?_, depth, ?_⟩
  · have hsame := rel_get_modify (P := fun new old : Source τ => new.config = old.config)
      (fun _ => rfl) hconfig first id id
    rw [hsame]
    exact hunlimited
  · rw [modify_modify]
    exact congrArg (first.modify id) (funext fun source => (hf source depth).symm)

/-- To change the count of the second makes no difference either. -/
theorem modify_right (h : Level id first second) (f : Source τ → Source τ)
    (hf : ∀ source depth, (f source).atDepth depth = source.atDepth depth) :
    Level id first (second.modify id f) :=
  (h.symm.modify_left f hf).symm

/-- A look at the source leaves such stores. -/
theorem look (h : Level id first second) {s : Stream} (hs : s.source = id) :
    Level id (first.look s) (second.look s) := by
  subst hs
  obtain ⟨hunlimited, depth, rfl⟩ := h
  refine ⟨?_, depth, ?_⟩
  · have hsame := rel_get_modify (P := fun new old : Source τ => new.config = old.config)
      (fun _ => rfl) (fun _ => rfl) first s.source s.source (f := (·.look s.position))
    rw [Sources.look, hsame]
    exact hunlimited
  · rw [Sources.look, Sources.look, modify_modify, modify_modify]
    rfl

end Level

end Sources

/-- Without a limit, every reference is admitted. -/
theorem Config.admits_of_unlimited {config : Config} (h : config.maxDepth = none) (depth : Nat) :
    config.admits depth = .ok () := by
  refine admits_eq_ok_iff.mpr fun limit hlimit => ?_
  cases h.symm.trans hlimit

namespace Comparison

/-- Runs over a source **without a limit**, at any levels. The first may lag behind if so wanted. -/
def level (τ : Type) (id : Nat) (lags : Prop) : Comparison τ where
  home s := s.source = id
  store := Sources.Level id
  lags := lags
  aborts := False
  home_advance h := h
  token_eq := by
    rintro first second s h rfl
    exact congrFun (h.token_config s.source).1 s.position
  config_eq h _ := (h.token_config _).2
  admits_eq := by
    rintro first second s h rfl
    have hfirst := Config.admits_of_unlimited h.unlimited (first.get s.source).depth
    have hsecond := Config.admits_of_unlimited h.unlimited_second (second.get s.source).depth
    exact hsecond.trans hfirst.symm
  look h hs := h.look hs
  enter := by
    rintro first second s h rfl
    exact (h.modify_left .enter fun _ _ => rfl).modify_right .enter fun _ _ => rfl
  leave := by
    rintro first second s h rfl
    exact (h.modify_left .leave fun _ _ => rfl).modify_right .leave fun _ _ => rfl

variable {id : Nat} {lags : Prop} {p q : Parser τ α}

/-- **The order of the two runs makes no difference**, as long as none may lag behind. -/
theorem level_flip (h : (level τ id False).Parsers p q) : (level τ id lags).Parsers q p := by
  intro s hs first second hstore
  have hends := h hs hstore.symm
  generalize (p s).run second = one at hends ⊢
  generalize (q s).run first = two at hends ⊢
  cases hends with
  | exhausted => exact .exhausted
  | lagging hlags _ => exact hlags.elim
  | together hvalue hlast hlog => exact .together hvalue hlast.symm hlog.symm
  | aborted haborts _ _ _ _ => exact haborts.elim

/-- What is run a level deeper gives the same. -/
private theorem run_nested_level {s : Stream} {sources : Sources τ}
    (h : (sources.get s.source).config.maxDepth = none) (p : Parser τ α) :
    (Parser.nested p s).run sources =
      ((p s).run (sources.modify s.source .enter)).map fun step =>
        ⟨step.value, step.sources.modify s.source .leave,
          .descended s ((sources.get s.source).depth + 1) :: step.events ++
            [.ascended s ((step.sources.modify s.source .leave).get s.source).depth]⟩ := by
  rw [Parser.run_nested, Config.admits_of_unlimited h]

/-- **The first may be run a level deeper.** -/
theorem level_nested_left (h : (level τ id lags).Parsers p q) :
    (level τ id lags).Parsers (Parser.nested p) q := by
  rintro s rfl first second hstore
  have hentered : Sources.Level s.source (first.modify s.source .enter) second :=
    hstore.modify_left .enter fun _ _ => rfl
  rw [run_nested_level hstore.unlimited]
  exact (h rfl hentered).map_left (fun _ => rfl)
    (fun hlast => hlast.modify_left .leave fun _ _ => rfl) fun _ => Event.log_between rfl rfl _

/-- **The second may be run a level deeper.** -/
theorem level_nested_right (h : (level τ id lags).Parsers p q) :
    (level τ id lags).Parsers p (Parser.nested q) := by
  rintro s rfl first second hstore
  have hentered : Sources.Level s.source first (second.modify s.source .enter) :=
    hstore.modify_right .enter fun _ _ => rfl
  rw [run_nested_level hstore.unlimited_second]
  exact (h rfl hentered).map_right (fun _ => rfl)
    (fun hlast => hlast.modify_right .leave fun _ _ => rfl) fun _ => Event.log_between rfl rfl _

end Comparison

/-- **Two parses leave the same store** if they began on the same store and left stores that differ
in a count only. -/
theorem Course.sources_eq_of_level [Quote τ] {s : Stream} {sources : Sources τ}
    {first second : Step τ (Outcome τ α)} (hfirst : Course s sources first)
    (hsecond : Course s sources second)
    (h : Sources.Level s.source first.sources second.sources) :
    second.sources = first.sources := by
  obtain ⟨-, depth, hlast⟩ := h
  rw [hlast]
  refine Sources.modify_eq_self fun hid => ?_
  -- Both counts are the one with which the parses began.
  have hs : s.source < sources.next := by
    rw [← hfirst.next_eq]
    exact hid
  have hdepth := (hsecond.depth_eq hs).trans (hfirst.depth_eq hs).symm
  rw [hlast, Sources.get_modify_self hid] at hdepth
  have hcount : depth = (first.sources.get s.source).depth := hdepth
  rw [hcount]
  rfl

/-- **Without a limit, what is seen of the first of two parses is seen of the second.** -/
theorem Parser.Composed.seen_of_level [Quote τ] {p q : Parser τ α} (hp : Composed p)
    (hq : Composed q) {s : Stream} (h : (Comparison.level τ s.source True).Parsers p q)
    {sources : Sources τ} (hlimit : (sources.get s.source).config.maxDepth = none)
    {seen : Outcome τ α × Sources τ × List Record}
    (hseen : ((p s).run sources).map Step.seen = some seen) :
    ((q s).run sources).map Step.seen = some seen := by
  obtain ⟨step, hstep, rfl⟩ := Option.map_eq_some_iff.mp hseen
  have hends : (Comparison.level τ s.source True).Ends ((p s).run sources) ((q s).run sources) :=
    h rfl (.refl hlimit)
  rw [hstep] at hends
  generalize hother : (q s).run sources = other at hends
  cases hends with
  | together hvalue hlast hlog =>
      have hsame := (hp.course hstep).sources_eq_of_level (hq.course hother) hlast
      simp only [Option.map_some, Step.seen, hlog] at hsame ⊢
      rw [hsame]
  | aborted haborts _ _ _ _ => exact haborts.elim

end Backtrack
