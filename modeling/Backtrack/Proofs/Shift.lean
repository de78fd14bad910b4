import Backtrack.Proofs.Position

/-!
# Parses Further On

A parse does not know how far into its source it is. Run behind `k` tokens of a source, it does
what it does at the start of a source that has only the tokens behind these, and all positions
that it tells of are `k` greater.

Two sources are compared, the second with the tokens of the first from some index on. The two runs
then take the same turns, since tokens, settings and counts of references are the same
at corresponding positions and since whether a success has advanced is told by two positions of
which both are moved. With no tokens before, the comparison says that the place of a
source in its store does not matter.

## Main definitions

* `Stream.shift`, `Failure.shift`, `Outcome.shift`: the same, further on in another source.
* `Sources.Continues`: a source goes on, from some index on, as another one begins.
* `Shifted`: two parses of which the second gives what the first does, further on.

## Main results

* `Parser.Composed.shifted`: where a source goes on as another one begins, so do the parses.
* `Grammar.shift_invariance`: a parse behind tokens, for all plain grammars.
-/

namespace Backtrack

variable {τ α β : Type}

/-! ### Further on -/

/-- The position `k` tokens **further on**, in the source `id`. -/
def Stream.shift (k id : Nat) (s : Stream) : Stream := ⟨id, s.position + k⟩

/-- The same failure `k` tokens further on. -/
def Failure.shift (k : Nat) (failure : Failure τ) : Failure τ :=
  { failure with position := failure.position + k }

/-- The same outcome `k` tokens **further on**, in the source `id`: the variant, the value, the
message and the token found stay. -/
def Outcome.shift (k id : Nat) : Outcome τ α → Outcome τ α
  | .ok value rest => .ok value (rest.shift k id)
  | .fail failure => .fail (failure.shift k)
  | .error failure => .error (failure.shift k)

theorem Stream.advance_shift (k id : Nat) (s : Stream) :
    (s.shift k id).advance = s.advance.shift k id :=
  congrArg (Stream.mk id) (Nat.add_right_comm s.position k 1)

/-- Two positions stay apart, and stay together, further on. -/
theorem Stream.position_shift_eq_iff {k id : Nat} {s rest : Stream} :
    (rest.shift k id).position = (s.shift k id).position ↔ rest.position = s.position :=
  Nat.add_right_cancel_iff

/-- Stores of which the second has a source `other` that, from the index `k` on, **goes on as the
source `id` of the first begins**, under the same settings and with as many references under
way. -/
structure Sources.Continues (k id other : Nat) (first second : Sources τ) : Prop where
  first_lt : id < first.next
  second_lt : other < second.next
  token_eq : ∀ i, (second.get other).token (i + k) = (first.get id).token i
  config_eq : (second.get other).config = (first.get id).config
  depth_eq : (second.get other).depth = (first.get id).depth

namespace Sources.Continues

variable {k id : Nat} {s : Stream} {first second : Sources τ}

/-- Corresponding streams show the same token. -/
theorem token_shift (h : Continues k s.source id first second) :
    second.token (s.shift k id) = first.token s :=
  h.token_eq s.position

/-- References are admitted in both sources or in neither. -/
theorem admits_shift (h : Continues k s.source id first second) :
    (second.get (s.shift k id).source).config.admits (second.get (s.shift k id).source).depth =
      (first.get s.source).config.admits (first.get s.source).depth := by
  have hdepth : (second.get (s.shift k id).source).depth = (first.get s.source).depth := h.depth_eq
  rw [hdepth]
  exact congrArg (Config.admits · _) h.config_eq

/-- One more reference on both sides. -/
theorem enter {other : Nat} (h : Continues k id other first second) :
    Continues k id other (first.modify id .enter) (second.modify other .enter) := by
  have hfirst := Sources.get_modify_self (f := Source.enter) h.first_lt
  have hsecond := Sources.get_modify_self (f := Source.enter) h.second_lt
  refine ⟨?_, ?_, fun i => ?_, ?_, ?_⟩
  · rw [next_modify]
    exact h.first_lt
  · rw [next_modify]
    exact h.second_lt
  · rw [hfirst, hsecond]
    exact h.token_eq i
  · rw [hfirst, hsecond]
    exact h.config_eq
  · rw [hfirst, hsecond]
    exact congrArg (· + 1) h.depth_eq

/-- **After parses on both sides**, however they ended, the sources correspond as before. -/
theorem course [Quote τ] (h : Continues k s.source id first second)
    {step : Step τ (Outcome τ α)} {step' : Step τ (Outcome τ β)} (hcourse : Course s first step)
    (hcourse' : Course (s.shift k id) second step') :
    Continues k s.source id step.sources step'.sources := by
  have hdepth := hcourse.depth_eq h.first_lt
  have hdepth' : (step'.sources.get id).depth = (second.get id).depth :=
    hcourse'.depth_eq h.second_lt
  refine ⟨?_, ?_, fun i => ?_, ?_, ?_⟩
  · rw [hcourse.next_eq]
    exact h.first_lt
  · rw [hcourse'.next_eq]
    exact h.second_lt
  · rw [hcourse.token_eq, hcourse'.token_eq]
    exact h.token_eq i
  · rw [hcourse.config_eq, hcourse'.config_eq]
    exact h.config_eq
  · rw [hdepth, hdepth']
    exact h.depth_eq

/-- A source of tokens **goes on behind `k` of them as a source of the others begins**. -/
theorem of_hasTokens {tokens : List τ} {k id other : Nat}
    {part whole : Sources τ} (hpart : other < part.next) (hwhole : id < whole.next)
    (hdrop : (part.get other).HasTokens (tokens.drop k)) (htokens : (whole.get id).HasTokens tokens)
    (hconfig : (whole.get id).config = (part.get other).config)
    (hdepth : (whole.get id).depth = (part.get other).depth) :
    Continues k other id part whole where
  first_lt := hpart
  second_lt := hwhole
  token_eq i := by rw [htokens, hdrop, List.getElem?_drop, Nat.add_comm]
  config_eq := hconfig
  depth_eq := hdepth

end Sources.Continues

/-! ### Two parses -/

/-- Of two parses, the second **gives what the first does**, further on in the source `id`. -/
inductive Shifted (k id : Nat) :
    Option (Step τ (Outcome τ α)) → Option (Step τ (Outcome τ α)) → Prop where
  | exhausted : Shifted k id none none
  | ended (value : Outcome τ α) (first second : Sources τ) (events events' : List (Event τ)) :
      Shifted k id (some ⟨value, first, events⟩) (some ⟨value.shift k id, second, events'⟩)

namespace Shifted

variable {k id : Nat} {first second : Option (Step τ (Outcome τ α))}

/-- Whatever may come before both. -/
theorem after (h : Shifted k id first second) (events events' : List (Event τ)) :
    Shifted k id (first.map (Step.after events)) (second.map (Step.after events')) := by
  cases h with
  | exhausted => exact .exhausted
  | ended value last last' own own' =>
      exact .ended value last last' (events ++ own) (events' ++ own')

theorem pure (value : Outcome τ α) (first second : Sources τ) :
    Shifted k id ((Pure.pure value : Run τ (Outcome τ α)).run first)
      ((Pure.pure (value.shift k id) : Run τ (Outcome τ α)).run second) :=
  .ended value first second [] []

/-- Both can be gone on with, **provided that what follows corresponds**. -/
theorem bind {r q : Run τ (Outcome τ α)} {f g : Outcome τ α → Run τ (Outcome τ β)}
    {first second : Sources τ} (h : Shifted k id (r.run first) (q.run second))
    (hrest : ∀ {value last last' events events'}, r.run first = some ⟨value, last, events⟩ →
      q.run second = some ⟨value.shift k id, last', events'⟩ →
      Shifted k id ((f value).run last) ((g (value.shift k id)).run last')) :
    Shifted k id ((r >>= f).run first) ((q >>= g).run second) := by
  rw [Run.run_bind, Run.run_bind]
  generalize hone : r.run first = one at h hrest
  generalize htwo : q.run second = two at h hrest
  cases h with
  | exhausted => exact .exhausted
  | ended value last last' events events' => exact (hrest rfl rfl).after events events'

theorem value_eq (h : Shifted k id first second) :
    second.map Step.value = first.map fun step => step.value.shift k id := by
  cases h <;> rfl

end Shifted

/-- A stall is a stall further on. -/
private theorem shifted_stall (items : List α) {s : Stream} {k id : Nat} {first second : Sources τ}
    (h : Sources.Continues k s.source id first second) :
    Shifted k id ((Parser.stall items s).toRun.run first)
      ((Parser.stall items (s.shift k id)).toRun.run second) := by
  have hconfig : (second.get (s.shift k id).source).config = (first.get s.source).config :=
    h.config_eq
  rw [Run.run_toRun, Run.run_toRun, Parser.run_stall, Parser.run_stall, hconfig, h.token_shift]
  cases (first.get s.source).config.repetition with
  | stop => exact .ended (.ok items s) _ _ _ _
  | error => exact .ended (.error _) _ _ _ _

/-- A reference is refused on both sides or on neither. -/
private theorem shifted_nested {p : Parser τ α} {s : Stream} {k id : Nat}
    {first second : Sources τ} (h : Sources.Continues k s.source id first second)
    (hp : Shifted k id ((p s).run (first.modify s.source .enter))
      ((p (s.shift k id)).run (second.modify id .enter))) :
    Shifted k id ((Parser.nested p s).run first)
      ((Parser.nested p (s.shift k id)).run second) := by
  rw [Parser.run_nested, Parser.run_nested, h.admits_shift, h.token_shift]
  cases (first.get s.source).config.admits (first.get s.source).depth with
  | error limit => exact .ended (.error _) _ _ _ _
  | ok room =>
      have hsource : (s.shift k id).source = id := rfl
      simp only [hsource]
      generalize (p s).run (first.modify s.source .enter) = one at hp
      generalize (p (s.shift k id)).run (second.modify id .enter) = two at hp
      cases hp with
      | exhausted => exact .exhausted
      | ended value last last' events events' => exact .ended value _ _ _ _

variable [Quote τ]

/-- **Where a source goes on as another one begins, so do the parses.** -/
theorem Parser.Composed.shifted {p : Parser τ α} (hp : Composed p) {s : Stream} {k id : Nat}
    {first second : Sources τ} (h : Sources.Continues k s.source id first second) :
    Shifted k id ((p s).run first) ((p (s.shift k id)).run second) := by
  induction hp generalizing s first second with
  | exhausted => exact .exhausted
  | succeed value => exact .pure (.ok value s) _ _
  | fail message =>
      rw [run_fail, run_fail, h.token_shift]
      exact .ended (.fail _) _ _ _ _
  | satisfy expected test =>
      rw [run_satisfy, run_satisfy, h.token_shift]
      cases first.token s with
      | none => exact .ended (.fail _) _ _ _ _
      | some token =>
          by_cases haccepts : test.accepts token = true
          · simp only [haccepts, if_true, Stream.advance_shift]
            exact .ended (.ok token s.advance) _ _ _ _
          · simp only [haccepts, if_false, Bool.false_eq_true]
            exact .ended (.fail _) _ _ _ _
  | eof =>
      rw [run_eof, run_eof, h.token_shift]
      cases first.token s with
      | none => exact .ended (.ok () s) _ _ _ _
      | some token => exact .ended (.fail _) _ _ _ _
  | unusable phase message =>
      rw [run_unusable, run_unusable, h.token_shift]
      exact .ended (.error _) _ _ _ _
  | calling callee hp ih =>
      rw [run_calling, run_calling]
      exact (ih h).after _ _
  | sequel hp _ ihp ihnext =>
      refine (ihp h).bind fun {value _ _ _ _} hone htwo => ?_
      -- What follows runs on what the first parses made of their sources, which still correspond.
      have hlast := h.course (hp.course hone) (hp.course htwo)
      cases value with
      | ok a rest =>
          have hrest : rest.source = s.source := (hp.course hone).source_rest rfl
          exact ihnext a (hrest ▸ hlast)
      | fail failure => exact .pure (.fail failure) _ _
      | error failure => exact .pure (.error failure) _ _
  | orElse hp _ ihp ihq =>
      refine (ihp h).bind fun {value _ _ _ _} hone htwo => ?_
      cases value with
      | ok a rest => exact .pure (.ok a rest) _ _
      | fail failure => exact ihq (h.course (hp.course hone) (hp.course htwo))
      | error failure => exact .pure (.error failure) _ _
  | label name hp ih =>
      refine (ih h).bind fun {value _ _ _ _} _ _ => ?_
      cases value with
      | ok a rest => exact .pure (.ok a rest) _ _
      | fail failure => exact .pure (.fail (failure.relabel name)) _ _
      | error failure => exact .pure (.error failure) _ _
  | commit hp ih =>
      refine (ih h).bind fun {value _ _ _ _} _ _ => ?_
      cases value with
      | ok a rest => exact .pure (.ok a rest) _ _
      | fail failure => exact .ended (.error failure) _ _ _ _
      | error failure => exact .pure (.error failure) _ _
  | nested hp ih => exact shifted_nested h (ih h.enter)
  | attempt items hp _ ihp ihnext =>
      refine (ihp h).bind fun {value _ _ _ _} hone htwo => ?_
      have hlast := h.course (hp.course hone) (hp.course htwo)
      cases value with
      | ok item rest =>
          have hrest : rest.source = s.source := (hp.course hone).source_rest rfl
          by_cases hstuck : rest.position = s.position
          · simp only [Outcome.shift, Stream.position_shift_eq_iff, hstuck, if_true]
            exact shifted_stall items hlast
          · simp only [Outcome.shift, Stream.position_shift_eq_iff, hstuck, if_false]
            exact ihnext item (hrest ▸ hlast)
      | fail failure => exact .pure (.ok items s) _ _
      | error failure => exact .pure (.error failure) _ _
  | @observed _ p hp ih =>
      have hshifted := ih h
      rw [run_observed, run_observed]
      generalize (p s).run first = one at hshifted
      generalize (p (s.shift k id)).run second = two at hshifted
      cases hshifted with
      | exhausted => exact .exhausted
      | ended value last last' events events' => exact .ended value _ _ _ _

/-! ### Parses behind tokens -/

/-- **A parse does not depend on how far into its source it is made.** At position `k` of a source
of tokens, a plain grammar gives what it gives at the start of a source of the same tokens
without the first `k`, under the same settings: the same variant, value, message and token
found, with the position of the rest or of the failure greater by `k`; or nothing in both cases,
for want of the same fuel. -/
theorem Grammar.shift_invariance {σ : Signature} {rules : Rules σ τ} (hrules : rules.Plain)
    {scope : Scope σ τ} (hscope : scope.Plain) {g : Grammar σ τ α} (hg : g.Plain) (fuel k : Nat)
    {tokens : List τ} {whole part : Sources τ} {id other : Nat} (hwhole : id < whole.next)
    (hpart : other < part.next) (htokens : (whole.get id).HasTokens tokens)
    (hdrop : (part.get other).HasTokens (tokens.drop k))
    (hconfig : (whole.get id).config = (part.get other).config)
    (hdepth : (whole.get id).depth = (part.get other).depth) :
    ((parser rules fuel scope g ⟨id, k⟩).run whole).map Step.value =
      ((parser rules fuel scope g ⟨other, 0⟩).run part).map fun step =>
        step.value.shift k id := by
  have hcontinues : Sources.Continues k other id part whole :=
    .of_hasTokens hpart hwhole hdrop htokens hconfig hdepth
  have hshifted := (hg.composed hrules fuel hscope).shifted (s := ⟨other, 0⟩) hcontinues
  have hplace : (⟨other, 0⟩ : Stream).shift k id = ⟨id, k⟩ := congrArg _ (Nat.zero_add k)
  rw [hplace] at hshifted
  exact hshifted.value_eq

/-- Behind a token, a bracket is missing one position further on than in a source of the other
tokens alone. -/
theorem Brackets.shift_invariance_open :
    ((Grammar.parser rules 5 .empty grammar ⟨0, 1⟩).run (store none [false, true])).map
        Step.value =
      some (.error ⟨"unexpected end of input; expected a closing bracket", none, 2⟩) := by
  have htokens : ((store none [false, true]).get 0).HasTokens [false, true] :=
    Source.hasTokens_buffered _ _
  have hdrop : ((store none [true]).get 0).HasTokens ([false, true].drop 1) :=
    Source.hasTokens_buffered _ _
  have hsame := Grammar.shift_invariance plain_rules plain_scope plain_grammar 5 1
    (show 0 < (store none [false, true]).next by decide)
    (show 0 < (store none [true]).next by decide) htokens hdrop rfl rfl
  refine hsame.trans ?_
  decide +kernel

end Backtrack
