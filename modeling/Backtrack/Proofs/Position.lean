import Backtrack.Proofs.Lazy

/-!
# Positions and Diagnostics

A parse goes forward through the tokens of its source and never past their end. What it
says of a failure is true: the token that a failure reports as found stands where the
failure says that it stands, and none is reported at the end of input only. Position and
token come from several places and are passed on, renamed and made fatal by others, and
stay in step through all of them.

A position counts as a position of a source when tails lead to it from the start. These
positions are the ones with tokens all the way before them.

## Main definitions

* `Source.HasTokens`: a source of given tokens, at hand or asked for on demand.
* `Sources.Spans`: tokens all the way from a stream to a position.
* `Sources.Reaches`: the streams that tails lead to from the start of their source.
* `Outcome.Located`: an outcome that is true of the tokens it was found among.

## Main results

* `Source.hasTokens_buffered`, `Source.hasTokens_lazy`: the tokens of new sources.
* `Sources.reaches_iff`: a stream is reached exactly when tokens lie all the way before it.
* `Course.located`: what a parse ends with is located.
* `Grammar.outcome_positions`: the bounds and the diagnostics of all plain grammars.
-/

namespace Backtrack

variable {τ α : Type}

/-! ### Sources of given tokens -/

/-- A source **of the given tokens**, whatever it has remembered of them by now. -/
def Source.HasTokens (source : Source τ) (tokens : List τ) : Prop :=
  ∀ i, source.token i = tokens[i]?

theorem Source.hasTokens_buffered (tokens : List τ) (config : Config) :
    (Source.buffered tokens config).HasTokens tokens :=
  fun _ => List.getElem?_toArray

/-- A lazy source has the tokens that its supply gives before the first `none`. -/
theorem Source.hasTokens_lazy {supply : Nat → Option τ} {n : Nat} (h : supply n = none)
    (config : Config) : (Source.lazy supply config).HasTokens (Memo.opening supply n) := by
  intro i
  rw [Source.token_lazy h config]
  exact hasTokens_buffered _ config i

/-! ### Tokens all the way -/

/-- From the stream `s` on there are **tokens all the way** to the position `stop`. -/
structure Sources.Spans (sources : Sources τ) (s : Stream) (stop : Nat) : Prop where
  le : s.position ≤ stop
  tokens : ∀ i, s.position ≤ i → i < stop → sources.token ⟨s.source, i⟩ ≠ none

namespace Sources.Spans

variable {sources : Sources τ} {s : Stream} {stop : Nat}

theorem refl (sources : Sources τ) (s : Stream) : sources.Spans s s.position :=
  ⟨Nat.le_refl _, fun _ hle hlt => absurd hle (Nat.not_le.mpr hlt)⟩

/-- A token leads one position further. -/
theorem advance (h : sources.token s ≠ none) : sources.Spans s (s.position + 1) := by
  refine ⟨Nat.le_succ _, fun i hle hlt => ?_⟩
  obtain rfl : i = s.position := by omega
  exact h

theorem trans {rest : Stream} (h : sources.Spans s rest.position) (hrest : rest.source = s.source)
    (h' : sources.Spans rest stop) : sources.Spans s stop := by
  refine ⟨Nat.le_trans h.le h'.le, fun i hle hlt => ?_⟩
  by_cases hi : i < rest.position
  · exact h.tokens i hle hi
  · rw [← hrest]
    exact h'.tokens i (Nat.not_lt.mp hi) hlt

/-- Stores with the same tokens span the same. -/
theorem congr {other : Sources τ} (htoken : other.token = sources.token)
    (h : other.Spans s stop) : sources.Spans s stop :=
  ⟨h.le, htoken ▸ h.tokens⟩

/-- Tokens do not lie all the way past a position without one. -/
theorem le_of_token_eq_none (h : sources.Spans s stop) {last : Nat} (hs : s.position ≤ last)
    (hlast : sources.token ⟨s.source, last⟩ = none) : stop ≤ last :=
  Nat.le_of_not_lt fun hlt => h.tokens last hs hlt hlast

/-- Nor do they lie past the last of the tokens of their source. -/
theorem le_length (h : sources.Spans s stop) {tokens : List τ}
    (htokens : (sources.get s.source).HasTokens tokens) (hs : s.position ≤ tokens.length) :
    stop ≤ tokens.length := by
  refine h.le_of_token_eq_none hs ?_
  rw [Sources.token, htokens]
  exact List.getElem?_eq_none (Nat.le_refl _)

end Sources.Spans

/-! ### Positions that tails lead to -/

namespace Stream

/-- Skipping goes on past a token and ends where there is none. -/
theorem skipBehind_succ (n : Nat) (s : Stream) (past : List (Event τ))
    (sources : Sources τ) :
    skipBehind (n + 1) s past sources =
      match sources.token s with
      | none => ⟨s, sources.look s, .inspected s :: past⟩
      | some _ => skipBehind n s.advance (.inspected s :: past) (sources.look s) := by
  have hne : s.advance ≠ s := fun heq =>
    Nat.succ_ne_self s.position (congrArg Stream.position heq)
  rw [skipBehind, run_tail]
  cases sources.token s with
  | none => simp
  | some token => simp [hne]

/-- Where tokens follow, skipping leaves them all behind. -/
private theorem value_skipBehind (n : Nat) (s : Stream) (past : List (Event τ))
    {sources : Sources τ} (h : ∀ i < n, sources.token ⟨s.source, s.position + i⟩ ≠ none) :
    (skipBehind n s past sources).value = ⟨s.source, s.position + n⟩ := by
  induction n generalizing s past sources with
  | zero => rfl
  | succ n ih =>
      obtain ⟨token, htoken⟩ := Option.ne_none_iff_exists'.mp (h 0 (Nat.succ_pos n))
      rw [Nat.add_zero] at htoken
      rw [skipBehind_succ, htoken]
      simp only
      rw [ih s.advance _ fun i hi => ?_]
      · rw [advance, Nat.add_assoc, Nat.add_comm 1 n]
      · have hnext := h (i + 1) (by omega)
        rw [Sources.token_look, advance, Nat.add_assoc, Nat.add_comm 1 i]
        exact hnext

/-- Skipping stays in the source and leaves nothing but tokens behind. -/
private theorem spans_skipBehind (n : Nat) (s : Stream) (past : List (Event τ))
    (sources : Sources τ) :
    (skipBehind n s past sources).value.source = s.source ∧
      sources.Spans s (skipBehind n s past sources).value.position := by
  induction n generalizing s past sources with
  | zero => exact ⟨rfl, .refl sources s⟩
  | succ n ih =>
      rw [skipBehind_succ]
      cases htoken : sources.token s with
      | none => exact ⟨rfl, .refl sources s⟩
      | some token =>
          obtain ⟨hsource, hspans⟩ := ih s.advance (.inspected s :: past) (sources.look s)
          have hlook : (sources.look s).token = sources.token :=
            funext fun t => sources.token_look s t
          have hfirst : sources.Spans s s.advance.position :=
            .advance (by rw [htoken]; exact Option.some_ne_none token)
          exact ⟨hsource, hfirst.trans rfl (hspans.congr hlook)⟩

end Stream

/-- A stream that **tails lead to** from the start of its source. -/
def Sources.Reaches (sources : Sources τ) (s : Stream) : Prop :=
  ∃ n, (((⟨s.source, 0⟩ : Stream).skip n).run sources).value = s

/-- A stream with tokens all the way before it is reached **by as many tails as its position
says**. -/
theorem Stream.value_skip_start {sources : Sources τ} {s : Stream}
    (h : sources.Spans ⟨s.source, 0⟩ s.position) :
    (((⟨s.source, 0⟩ : Stream).skip s.position).run sources).value = s := by
  have hskip := Stream.value_skipBehind s.position ⟨s.source, 0⟩ [] fun i hi => by
    rw [Nat.zero_add]
    exact h.tokens i (Nat.zero_le i) hi
  rw [Nat.zero_add] at hskip
  exact hskip

/-- Tails lead exactly to **the positions with tokens all the way before them**. -/
theorem Sources.reaches_iff {sources : Sources τ} {s : Stream} :
    sources.Reaches s ↔ sources.Spans ⟨s.source, 0⟩ s.position := by
  constructor
  · rintro ⟨n, hn⟩
    obtain ⟨-, hspans⟩ := Stream.spans_skipBehind n ⟨s.source, 0⟩ [] sources
    have hvalue : (Stream.skipBehind n ⟨s.source, 0⟩ [] sources).value = s := hn
    rw [hvalue] at hspans
    exact hspans
  · intro h
    exact ⟨s.position, Stream.value_skip_start h⟩

/-! ### Outcomes and the tokens they are found among -/

/-- An outcome of a parse from `s` that is **true of the tokens**: they lie all the way to the
position reached, and a failure reports the token that stands where it happened. -/
structure Outcome.Located (sources : Sources τ) (s : Stream) (outcome : Outcome τ α) :
    Prop where
  spans : sources.Spans s outcome.position
  found_eq : ∀ failure, outcome.failure? = some failure →
    failure.found = sources.token ⟨s.source, failure.position⟩

namespace Outcome.Located

variable {sources : Sources τ} {s : Stream}

/-- A success is located where tokens lead. -/
theorem ok {rest : Stream} (h : sources.Spans s rest.position) (value : α) :
    Located sources s (.ok value rest : Outcome τ α) :=
  ⟨h, fun _ hfailure => by cases hfailure⟩

/-- A failure here that reports the token here is located. -/
theorem failed {found : Option τ} (h : sources.token s = found) (message : String) :
    Located sources s (.fail ⟨message, found, s.position⟩ : Outcome τ α) := by
  refine ⟨.refl sources s, fun failure hfailure => ?_⟩
  obtain rfl := Option.some.inj hfailure
  exact h.symm

/-- So is an error. -/
theorem aborted {found : Option τ} (h : sources.token s = found) (message : String) :
    Located sources s (.error ⟨message, found, s.position⟩ : Outcome τ α) :=
  ⟨(failed (α := α) h message).spans, (failed (α := α) h message).found_eq⟩

/-- Stores with the same tokens locate the same outcomes. -/
theorem congr {other : Sources τ} (htoken : other.token = sources.token) {outcome : Outcome τ α}
    (h : Located other s outcome) : Located sources s outcome :=
  ⟨h.spans.congr htoken, htoken ▸ h.found_eq⟩

/-- What is located behind a success is located from its beginning. -/
theorem behind {rest : Stream} (h : sources.Spans s rest.position)
    (hrest : rest.source = s.source) {outcome : Outcome τ α} (h' : Located sources rest outcome) :
    Located sources s outcome := by
  refine ⟨h.trans hrest h'.spans, fun failure hfailure => ?_⟩
  rw [← hrest]
  exact h'.found_eq failure hfailure

end Outcome.Located

variable [Quote τ]

/-- A parse leaves the tokens of every stream as they were. -/
theorem Course.token_stream {s : Stream} {sources : Sources τ} {step : Step τ (Outcome τ α)}
    (h : Course s sources step) : step.sources.token = sources.token := by
  funext t
  exact congrFun (h.token_eq t.source) t.position

/-- **What a parse ends with is located.** -/
theorem Course.located {s : Stream} {sources : Sources τ} {step : Step τ (Outcome τ α)}
    (h : Course s sources step) : Outcome.Located sources s step.value := by
  induction h with
  | succeed value => exact .ok (.refl _ _) value
  | fail message => exact .failed rfl message
  | satisfyEnd expected h => exact .failed h _
  | satisfyAccept h accepted => exact .ok (.advance (by rw [h]; exact Option.some_ne_none _)) _
  | satisfyReject expected h rejected => exact .failed h _
  | eofEnd h => exact .ok (.refl _ _) ()
  | eofReject h => exact .failed h _
  | unusable phase message => exact .aborted rfl message
  | calling callee h ih => exact ih
  | sequel first second ih₁ ih₂ =>
      exact (ih₂.congr first.token_stream).behind ih₁.spans (first.source_rest rfl)
  | passFail h ih => exact ⟨ih.spans, ih.found_eq⟩
  | passError h ih => exact ⟨ih.spans, ih.found_eq⟩
  | retry first second ih₁ ih₂ => exact ih₂.congr first.token_stream
  | @label _ s sources last failure events name h ih =>
      refine ⟨ih.spans, fun renamed hrenamed => ?_⟩
      obtain rfl := Option.some.inj hrenamed
      exact ih.found_eq failure rfl
  | commit h ih => exact ⟨ih.spans, ih.found_eq⟩
  | refuse h => exact .aborted rfl _
  | @nested _ s sources last value events h inner ih =>
      have htoken : (sources.modify s.source .enter).token = sources.token := by
        funext t
        exact congrFun (sources.token_effect (.descended s 0) t.source) t.position
      exact ih.congr htoken
  | stallStop items first stuck h ih => exact .ok (.refl _ _) items
  | stallError items first stuck h ih =>
      refine Outcome.Located.aborted ?_ _
      rw [← first.token_stream]
  | observed h ih => exact ih

/-! ### Plain grammars -/

/-- **Position and diagnostic soundness.** A parse of a plain grammar, at any position of a source
of finitely many tokens that tails lead to, goes on in its source, under the same settings and
at the same count of references, at a position not before the first and not behind the end of
input. If it fails or is aborted, the position lies within the same bounds, and what was found
there is the token there, which is `none` exactly at the end of input. -/
theorem Grammar.outcome_positions {σ : Signature} {rules : Rules σ τ} (hrules : rules.Plain)
    {scope : Scope σ τ} (hscope : scope.Plain) {g : Grammar σ τ α} (hg : g.Plain) {fuel : Nat}
    {s : Stream} {sources : Sources τ} (hs : s.source < sources.next)
    (hreach : sources.Reaches s) {tokens : List τ}
    (htokens : (sources.get s.source).HasTokens tokens) {step : Step τ (Outcome τ α)}
    (h : (parser rules fuel scope g s).run sources = some step) :
    (∀ value rest, step.value = .ok value rest →
      rest.source = s.source ∧
        (step.sources.get rest.source).config = (sources.get s.source).config ∧
        (step.sources.get rest.source).depth = (sources.get s.source).depth ∧
        s.position ≤ rest.position ∧ rest.position ≤ tokens.length) ∧
    ∀ failure, step.value = .fail failure ∨ step.value = .error failure →
      s.position ≤ failure.position ∧ failure.position ≤ tokens.length ∧
        failure.found = tokens[failure.position]? ∧
        (failure.found = none ↔ failure.position = tokens.length) := by
  have hcourse := (hg.composed hrules fuel hscope).course h
  have hlocated := hcourse.located
  have hstart : s.position ≤ tokens.length :=
    (Sources.reaches_iff.mp hreach).le_length htokens (Nat.zero_le _)
  have hend : step.value.position ≤ tokens.length := hlocated.spans.le_length htokens hstart
  constructor
  · intro value rest hvalue
    have hrest : rest.source = s.source := hcourse.source_rest hvalue
    have hle := hlocated.spans.le
    rw [hvalue] at hle hend
    refine ⟨hrest, ?_, ?_, hle, hend⟩
    · rw [hrest, hcourse.config_eq]
    · rw [hrest, hcourse.depth_eq hs]
  · intro failure hvalue
    have hfailure : step.value.failure? = some failure := by
      rcases hvalue with hvalue | hvalue <;> rw [hvalue] <;> rfl
    have hposition : step.value.position = failure.position := by
      rcases hvalue with hvalue | hvalue <;> rw [hvalue] <;> rfl
    have hle := hlocated.spans.le
    have hfound : failure.found = tokens[failure.position]? :=
      (hlocated.found_eq failure hfailure).trans (htokens failure.position)
    rw [hposition] at hle hend
    refine ⟨hle, hend, hfound, ?_⟩
    rw [hfound, List.getElem?_eq_none_iff]
    omega

/-- A pair of brackets is parsed to the end of a lazy source whose supply would go on, and behind
the first of three opening brackets the parse is aborted at the end of input. -/
theorem Brackets.outcome_positions_open :
    (∃ step, (Grammar.parser rules 5 .empty grammar .start).run
        (.single (.lazy supply .standard)) = some step ∧
      step.value = .ok 1 ⟨0, 2⟩ ∧ (step.sources.get 0).depth = 0) ∧
    ∃ step failure, (Grammar.parser rules 5 .empty grammar ⟨0, 1⟩).run
        (store none [true, true, true]) = some step ∧
      step.value = .error failure ∧ 1 ≤ failure.position ∧ failure.position ≤ 3 ∧
      (failure.found = none ↔ failure.position = 3) := by
  constructor
  · have hrun : ((Grammar.parser rules 5 .empty grammar .start).run
        (.single (.lazy supply .standard))).map Step.value = some (.ok 1 ⟨0, 2⟩) := by
      decide +kernel
    obtain ⟨step, hstep, hvalue⟩ := Option.map_eq_some_iff.mp hrun
    have htokens : ((Sources.single (.lazy supply .standard)).get Stream.start.source).HasTokens
        [true, false] :=
      Source.hasTokens_lazy (show supply 2 = none from rfl) .standard
    obtain ⟨hok, -⟩ := Grammar.outcome_positions plain_rules plain_scope plain_grammar
      (by decide) ⟨0, rfl⟩ htokens hstep
    obtain ⟨-, -, hdepth, -, -⟩ := hok 1 ⟨0, 2⟩ hvalue
    exact ⟨step, hstep, hvalue, hdepth⟩
  · have hrun : ((Grammar.parser rules 5 .empty grammar ⟨0, 1⟩).run
        (store none [true, true, true])).map (fun step => step.value.isError) = some true := by
      decide +kernel
    obtain ⟨⟨value, last, events⟩, hstep, herror⟩ := Option.map_eq_some_iff.mp hrun
    cases value with
    | error failure =>
        have htokens : ((store none [true, true, true]).get 0).HasTokens [true, true, true] :=
          Source.hasTokens_buffered [true, true, true] { maxDepth := none }
        obtain ⟨-, hfailed⟩ := Grammar.outcome_positions plain_rules plain_scope plain_grammar
          (by decide) ⟨1, rfl⟩ htokens hstep
        obtain ⟨hle, hend, -, hnone⟩ := hfailed failure (.inr rfl)
        exact ⟨_, failure, hstep, rfl, hle, hend, hnone⟩
    | ok value rest => cases herror
    | fail failure => cases herror

end Backtrack
