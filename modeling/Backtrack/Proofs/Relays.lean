import Backtrack.Proofs.Depth
import Backtrack.Proofs.Repetition

/-!
# Where Errors Come From

Most combinators have no error of their own. They run their parts and pass on what these give,
so a parse is aborted because a part was, which was invoked on the way. `Parser.Relays` says of
a parser that it is put together in this manner from parts of some kind. Commitments, repetitions
and references do have errors of their own, and these are told apart from the errors that they
pass on.

What is proved of the errors of parts carries over to the whole along the invocation. A moment at
which a part is invoked is a moment of the whole parse, so the limit is kept there too.

## Main definitions

* `Parser.Aborts`: a parse ends with an error.
* `Parser.Stalls`: an attempt succeeds without advancing where that is forbidden.
* `Parser.Relays`: a parser has no errors but those of its parts.
* `Sources.WithinLimit`: no more references are under way than the limit admits.

## Main results

* `Parser.aborts_commit_iff`, `Parser.aborts_nested_iff`, `Parser.attempts_aborts`: what aborts a
  commitment, a reference and a repetition.
* `Parser.Relays.aborts`: a parser is aborted because an invoked part is.
* `Grammar.Plain.part_parser`: what holds of relays and of the parsers with errors of their own
  holds of all plain grammars.
* `Parser.Invoked.withinLimit`: the limit is kept when a part is invoked.
-/

namespace Backtrack

variable {τ α β : Type}

namespace Parser

variable {p : Parser τ α} {s : Stream} {sources : Sources τ} {failure : Failure τ}

/-! ### Parses that are aborted -/

/-- A parse that is **aborted**: it ends with the error. -/
def Aborts (p : Parser τ α) (s : Stream) (sources : Sources τ) (failure : Failure τ) : Prop :=
  ∃ last, (p s).Gives sources (.error failure) last

theorem aborts_observed_iff :
    p.observed.Aborts s sources failure ↔ p.Aborts s sources failure :=
  exists_congr fun _ => gives_observed_iff

theorem aborts_calling_iff {callee : Callee} :
    (calling callee p).Aborts s sources failure ↔ p.Aborts s sources failure :=
  exists_congr fun _ => Run.gives_emit_bind_iff

theorem aborts_sequel_iff {next : α → Parser τ β} :
    (sequel p next).Aborts s sources failure ↔ p.Aborts s sources failure ∨
      ∃ a rest middle, (p s).Gives sources (.ok a rest) middle ∧
        (next a).Aborts rest middle failure := by
  unfold Aborts sequel
  simp only [Run.gives_bind_iff]
  constructor
  · rintro ⟨last, first, middle, hp, hrest⟩
    cases first with
    | ok a rest => exact .inr ⟨a, rest, middle, hp, last, hrest⟩
    | fail other => cases (Run.gives_pure_iff.mp hrest).1
    | error other =>
        obtain ⟨hfailure, rfl⟩ := Run.gives_pure_iff.mp hrest
        obtain rfl := Outcome.error.inj hfailure
        exact .inl ⟨last, hp⟩
  · rintro (⟨last, hp⟩ | ⟨a, rest, middle, hp, last, hrest⟩)
    · exact ⟨last, _, last, hp, Run.gives_pure_iff.mpr ⟨rfl, rfl⟩⟩
    · exact ⟨last, _, middle, hp, hrest⟩

theorem aborts_orElse_iff {q : Parser τ α} :
    (orElse p q).Aborts s sources failure ↔ p.Aborts s sources failure ∨
      ∃ other middle, (p s).Gives sources (.fail other) middle ∧ q.Aborts s middle failure := by
  unfold Aborts
  simp only [gives_orElse_iff]
  constructor
  · rintro ⟨last, first, middle, hp, hrest⟩
    cases first with
    | ok a rest => cases hrest.1
    | fail other => exact .inr ⟨other, middle, hp, last, hrest⟩
    | error other =>
        obtain ⟨hfailure, rfl⟩ := hrest
        obtain rfl := Outcome.error.inj hfailure
        exact .inl ⟨last, hp⟩
  · rintro (⟨last, hp⟩ | ⟨other, middle, hp, last, hrest⟩)
    · exact ⟨last, _, last, hp, rfl, rfl⟩
    · exact ⟨last, _, middle, hp, hrest⟩

theorem aborts_label_iff [Quote τ] {name : String} :
    (label name p).Aborts s sources failure ↔ p.Aborts s sources failure := by
  unfold Aborts label
  simp only [Run.gives_bind_iff]
  constructor
  · rintro ⟨last, first, middle, hp, hrest⟩
    cases first with
    | ok a rest => cases (Run.gives_pure_iff.mp hrest).1
    | fail other => cases (Run.gives_pure_iff.mp hrest).1
    | error other =>
        obtain ⟨hfailure, rfl⟩ := Run.gives_pure_iff.mp hrest
        obtain rfl := Outcome.error.inj hfailure
        exact ⟨last, hp⟩
  · rintro ⟨last, hp⟩
    exact ⟨last, _, last, hp, Run.gives_pure_iff.mpr ⟨rfl, rfl⟩⟩

/-- A commitment is aborted where its parser is, and **where it fails**. -/
theorem aborts_commit_iff :
    (commit p).Aborts s sources failure ↔ p.Aborts s sources failure ∨
      ∃ last, (p s).Gives sources (.fail failure) last := by
  unfold Aborts
  simp only [gives_commit_iff]
  constructor
  · rintro ⟨last, outcome, hp, hfailure⟩
    cases outcome with
    | ok a rest => cases hfailure
    | fail other =>
        obtain rfl := Outcome.error.inj hfailure
        exact .inr ⟨last, hp⟩
    | error other =>
        obtain rfl := Outcome.error.inj hfailure
        exact .inl ⟨last, hp⟩
  · rintro (⟨last, hp⟩ | ⟨last, hp⟩)
    · exact ⟨last, _, hp, rfl⟩
    · exact ⟨last, _, hp, rfl⟩

/-- A reference is aborted **where it is refused** and where its parser is. -/
theorem aborts_nested_iff :
    (nested p).Aborts s sources failure ↔
      (∃ limit, (sources.get s.source).config.admits (sources.get s.source).depth =
          .error limit ∧
        failure = ⟨Message.recursionLimit limit, sources.token s, s.position⟩) ∨
      ((sources.get s.source).config.admits (sources.get s.source).depth = .ok () ∧
        p.Aborts s (sources.modify s.source .enter) failure) := by
  unfold Aborts
  cases hroom : (sources.get s.source).config.admits (sources.get s.source).depth with
  | error limit =>
      have hrun := run_nested p s sources
      rw [hroom] at hrun
      constructor
      · rintro ⟨last, events, hother⟩
        obtain ⟨hfailure, -, -⟩ := Step.mk.inj (Option.some.inj (hother.symm.trans hrun))
        exact .inl ⟨limit, rfl, Outcome.error.inj hfailure⟩
      · rintro (⟨limit, hlimit, rfl⟩ | ⟨hadmits, -⟩)
        · obtain rfl := Except.error.inj hlimit
          exact ⟨_, _, hrun⟩
        · cases hadmits
  | ok room =>
      simp only [gives_nested_iff hroom]
      constructor
      · rintro ⟨last, inner, hp, -⟩
        exact .inr ⟨trivial, inner, hp⟩
      · rintro (⟨limit, hlimit, -⟩ | ⟨-, inner, hp⟩)
        · cases hlimit
        · exact ⟨_, inner, hp, rfl⟩

/-- The use of a rule without a body is **always aborted**. -/
theorem aborts_unusable_iff {phase : Phase} {message : String} :
    (unusable phase message : Parser τ α).Aborts s sources failure ↔
      failure = ⟨message, sources.token s, s.position⟩ := by
  constructor
  · rintro ⟨last, events, hrun⟩
    rw [run_unusable] at hrun
    obtain ⟨hfailure, -, -⟩ := Step.mk.inj (Option.some.inj hrun)
    exact (Outcome.error.inj hfailure).symm
  · rintro rfl
    exact ⟨_, _, run_unusable phase message s sources⟩

/-- The parser **stalls** at `t` where that is forbidden: it succeeds there without advancing, and
the error is the one that tells of it. -/
def Stalls (p : Parser τ α) (t : Stream) (store : Sources τ) (failure : Failure τ) : Prop :=
  (∃ value rest inner, (p t).Gives store (.ok value rest) inner ∧ rest.position = t.position) ∧
    (store.get t.source).config.repetition = .error ∧
    failure = ⟨Message.noProgress, store.token t, t.position⟩

variable [Quote τ]

/-- **A repetition is aborted** where an attempt is, and where an attempt stalls and stalls are
forbidden. -/
theorem attempts_aborts (hp : Composed p) {turns : Nat} {items : List α}
    (h : Aborts (fun cursor => attempts p turns cursor items) s sources failure) :
    ∃ t store before,
      p.Invoked t store (fun cursor => attempts p turns cursor items) s sources before ∧
        (p.Aborts t store failure ∨ p.Stalls t store failure) := by
  induction turns generalizing s sources items with
  | zero =>
      obtain ⟨last, events, hrun⟩ := h
      cases hrun
  | succ turns ih =>
      obtain ⟨last, h⟩ := h
      obtain ⟨first, middle, hfirst, hrest⟩ := gives_attempts_succ_iff.mp h
      cases first with
      | ok item rest =>
          obtain ⟨events, hrun⟩ := hfirst
          by_cases hstuck : rest.position = s.position
          · simp only [hstuck, if_true] at hrest
            have hcourse := hp.course hrun
            have hconfig : (middle.get s.source).config = (sources.get s.source).config :=
              hcourse.config_eq s.source
            have htoken : middle.token = sources.token := hcourse.token_stream
            rw [gives_stall_iff, hconfig, htoken] at hrest
            cases hpolicy : (sources.get s.source).config.repetition with
            | stop =>
                rw [hpolicy] at hrest
                cases hrest.1
            | error =>
                rw [hpolicy] at hrest
                have hsuccess : (p s).Gives sources (.ok item rest) middle := ⟨events, hrun⟩
                exact ⟨s, sources, [], .attemptFirst .itself, .inr
                  ⟨⟨item, rest, middle, hsuccess, hstuck⟩, hpolicy, Outcome.error.inj hrest.1⟩⟩
          · simp only [hstuck, if_false] at hrest
            obtain ⟨t, store, before, hinvoked, hcause⟩ := ih ⟨last, hrest⟩
            exact ⟨t, store, _, .attemptSecond hp hrun hstuck hinvoked, hcause⟩
      | fail other => cases hrest.1
      | error other =>
          obtain ⟨hfailure, rfl⟩ := hrest
          obtain rfl := Outcome.error.inj hfailure
          exact ⟨s, sources, [], .attemptFirst .itself, .inl ⟨_, hfirst⟩⟩

/-! ### Errors that are passed on -/

/-- A parser that **relays the errors of its parts** and has none of its own: the parts are what
`part` says, put together by primitives and combinators that do not fail fatally. -/
inductive Relays (part : (β : Type) → Parser τ β → Prop) : {α : Type} → Parser τ α → Prop where
  | part {α : Type} {p : Parser τ α} : Composed p → part α p → Relays part p
  | exhausted {α : Type} : Relays part fun _ => (Run.exhausted : Run τ (Outcome τ α))
  | succeed {α : Type} (value : α) : Relays part (succeed value)
  | fail {α : Type} (message : String) : Relays part (fail message : Parser τ α)
  | satisfy (expected : String) (test : Test τ) : Relays part (satisfy expected test)
  | eof : Relays part eof
  | calling {α : Type} (callee : Callee) {p : Parser τ α} :
      Relays part p → Relays part (calling callee p)
  | sequel {α β : Type} {p : Parser τ α} {next : α → Parser τ β} :
      Relays part p → (∀ a, Relays part (next a)) → Relays part (sequel p next)
  | orElse {α : Type} {p q : Parser τ α} :
      Relays part p → Relays part q → Relays part (orElse p q)
  | label {α : Type} (name : String) {p : Parser τ α} :
      Relays part p → Relays part (label name p)
  | observed {α : Type} {p : Parser τ α} : Relays part p → Relays part p.observed

namespace Relays

variable {part : (β : Type) → Parser τ β → Prop} {q : Parser τ β}

theorem composed (h : Relays part p) : Composed p := by
  induction h with
  | part hp _ => exact hp
  | exhausted => exact .exhausted
  | succeed value => exact .succeed value
  | fail message => exact .fail message
  | satisfy expected test => exact .satisfy expected test
  | eof => exact .eof
  | calling callee _ ih => exact .calling callee ih
  | sequel _ _ ihp ihnext => exact .sequel ihp ihnext
  | orElse _ _ ihp ihq => exact .orElse ihp ihq
  | label name _ ih => exact .label name ih
  | observed _ ih => exact .observed ih

theorem bind (hp : Relays part p) {next : α → Parser τ β} (hnext : ∀ a, Relays part (next a)) :
    Relays part (Parser.bind p next) :=
  sequel hp fun a => calling .continuation (hnext a)

theorem map (hp : Relays part p) (f : α → β) : Relays part (Parser.map f p) :=
  sequel hp fun a => calling .function (succeed (f a))

theorem pair (hp : Relays part p) (hq : Relays part q) : Relays part (Parser.pair p q) := by
  rw [pair_eq_sequel]
  exact sequel hp fun a => sequel hq fun b => succeed (a, b)

theorem keepRight (hp : Relays part p) (hq : Relays part q) :
    Relays part (Parser.keepRight p q) :=
  sequel hp fun _ => hq

theorem keepLeft (hp : Relays part p) (hq : Relays part q) :
    Relays part (Parser.keepLeft p q) := by
  rw [keepLeft_eq_sequel]
  exact sequel hp fun a => sequel hq fun _ => succeed a

theorem optional (hp : Relays part p) : Relays part (Parser.optional p) := by
  rw [optional_eq_orElse]
  exact orElse (sequel hp fun a => succeed (some a)) (succeed none)

/-- **A parser is aborted because a part is**, which was invoked on the way. -/
theorem aborts (h : Relays part p) (haborts : p.Aborts s sources failure) :
    ∃ (β : Type) (q : Parser τ β) (t : Stream) (store : Sources τ) (before : List (Event τ)),
      part β q ∧ q.Invoked t store p s sources before ∧ q.Aborts t store failure := by
  induction h generalizing s sources with
  | part _ hpart => exact ⟨_, _, s, sources, [], hpart, .itself, haborts⟩
  | exhausted =>
      obtain ⟨last, events, hrun⟩ := haborts
      cases hrun
  | succeed value =>
      obtain ⟨last, events, hrun⟩ := haborts
      cases hrun
  | fail message =>
      obtain ⟨last, events, hrun⟩ := haborts
      rw [run_fail] at hrun
      cases hrun
  | satisfy expected test =>
      obtain ⟨last, events, hrun⟩ := haborts
      rw [run_satisfy] at hrun
      cases htoken : sources.token s with
      | none => simp [htoken] at hrun
      | some token =>
          by_cases haccepts : test.accepts token = true <;> simp [htoken, haccepts] at hrun
  | eof =>
      obtain ⟨last, events, hrun⟩ := haborts
      rw [run_eof] at hrun
      cases htoken : sources.token s <;> simp [htoken] at hrun
  | calling callee _ ih =>
      obtain ⟨β, q, t, store, before, hpart, hinvoked, hq⟩ := ih (aborts_calling_iff.mp haborts)
      exact ⟨β, q, t, store, _, hpart, .calling callee hinvoked, hq⟩
  | sequel hp _ ihp ihnext =>
      rcases aborts_sequel_iff.mp haborts with hfirst | ⟨a, rest, middle, ⟨events, hrun⟩, hsecond⟩
      · obtain ⟨β, q, t, store, before, hpart, hinvoked, hq⟩ := ihp hfirst
        exact ⟨β, q, t, store, before, hpart, .sequelFirst hinvoked, hq⟩
      · obtain ⟨β, q, t, store, before, hpart, hinvoked, hq⟩ := ihnext a hsecond
        exact ⟨β, q, t, store, _, hpart, .sequelSecond hp.composed hrun hinvoked, hq⟩
  | orElse hp _ ihp ihq =>
      rcases aborts_orElse_iff.mp haborts with hfirst | ⟨other, middle, ⟨events, hrun⟩, hsecond⟩
      · obtain ⟨β, q, t, store, before, hpart, hinvoked, hq⟩ := ihp hfirst
        exact ⟨β, q, t, store, before, hpart, .orElseFirst hinvoked, hq⟩
      · obtain ⟨β, q, t, store, before, hpart, hinvoked, hq⟩ := ihq hsecond
        exact ⟨β, q, t, store, _, hpart, .orElseSecond hp.composed hrun hinvoked, hq⟩
  | label name _ ih =>
      obtain ⟨β, q, t, store, before, hpart, hinvoked, hq⟩ := ih (aborts_label_iff.mp haborts)
      exact ⟨β, q, t, store, before, hpart, .label name hinvoked, hq⟩
  | observed _ ih =>
      obtain ⟨β, q, t, store, before, hpart, hinvoked, hq⟩ := ih (aborts_observed_iff.mp haborts)
      exact ⟨β, q, t, store, _, hpart, .observed hinvoked, hq⟩

end Relays

end Parser

/-! ### Parsers of plain grammars -/

/-- What holds of parsers that relay the errors of parts of which it holds, and is kept by
commitments, repetitions and references, **holds of the parser of every plain grammar**. -/
theorem Grammar.Plain.part_parser [Quote τ] {part : (β : Type) → Parser τ β → Prop}
    {σ : Signature} {rules : Rules σ τ} (hrules : rules.Plain)
    (relays : ∀ {β : Type} {p : Parser τ β}, p.Relays part → part β p)
    (commit : ∀ {β : Type} {fuel : Nat} {scope : Scope σ τ} {g : Grammar σ τ β},
      part β (parser rules (fuel + 1) scope g) →
        part β (parser rules (fuel + 1) scope (.commit g)))
    (many : ∀ {β : Type} {fuel : Nat} {scope : Scope σ τ} {g : Grammar σ τ β},
      (parser rules (fuel + 1) scope g).Composed → part β (parser rules (fuel + 1) scope g) →
        part (List β) (parser rules (fuel + 1) scope (.many g)))
    (deferred : ∀ {name : σ.Name} {fuel : Nat} {scope : Scope σ τ},
      part _ (parser rules fuel scope (rules name)) →
        part _ (parser rules (fuel + 1) scope (.deferred name)))
    (handle : ∀ {name : σ.Name} {fuel : Nat} {scope : Scope σ τ},
      (∀ rule, scope.find? name = some rule →
        part _ (parser rules fuel rule.home rule.body)) →
          part _ (parser rules (fuel + 1) scope (.handle name)))
    (fuel : Nat) {scope : Scope σ τ} (hscope : scope.Plain) {g : Grammar σ τ α} (hg : g.Plain) :
    part α (parser rules fuel scope g) := by
  induction fuel generalizing α scope g with
  | zero => exact relays .exhausted
  | succ fuel ih =>
      have hpart : ∀ {β : Type} {h : Grammar σ τ β} {scope : Scope σ τ}, scope.Plain → h.Plain →
          part β (parser rules (fuel + 1) scope h) →
            (parser rules (fuel + 1) scope h).Relays part :=
        fun hscope hh hkept => .part (hh.composed hrules (fuel + 1) hscope) hkept
      induction g generalizing scope with
      | succeed value => exact relays (.observed (.succeed value))
      | fail message => exact relays (.observed (.fail message))
      | satisfy expected test => exact relays (.observed (.satisfy expected test))
      | eof => exact relays (.observed .eof)
      | bind g next ihg ihnext =>
          have hfirst := hpart hscope hg.1 (ihg hscope hg.1)
          have hrest := fun a => hpart hscope (hg.2 a) (ihnext a hscope (hg.2 a))
          exact relays (.observed (.bind hfirst hrest))
      | map f g ihg =>
          have hinner := hpart (h := g) hscope hg (ihg hscope hg)
          exact relays (.observed (.map hinner f))
      | pair g h ihg ihh =>
          have hfirst := hpart hscope hg.1 (ihg hscope hg.1)
          have hsecond := hpart hscope hg.2 (ihh hscope hg.2)
          exact relays (.observed (.pair hfirst hsecond))
      | keepRight g h ihg ihh =>
          have hfirst := hpart hscope hg.1 (ihg hscope hg.1)
          have hsecond := hpart hscope hg.2 (ihh hscope hg.2)
          exact relays (.observed (.keepRight hfirst hsecond))
      | keepLeft g h ihg ihh =>
          have hfirst := hpart hscope hg.1 (ihg hscope hg.1)
          have hsecond := hpart hscope hg.2 (ihh hscope hg.2)
          exact relays (.observed (.keepLeft hfirst hsecond))
      | orElse g h ihg ihh =>
          have hfirst := hpart hscope hg.1 (ihg hscope hg.1)
          have hsecond := hpart hscope hg.2 (ihh hscope hg.2)
          exact relays (.observed (.orElse hfirst hsecond))
      | optional g ihg =>
          have hinner := hpart (h := g) hscope hg (ihg hscope hg)
          exact relays (.observed (.optional hinner))
      | many g ihg =>
          have hcomposed := Plain.composed hrules (fuel + 1) hscope (g := g) hg
          exact many hcomposed (ihg hscope hg)
      | label name g ihg =>
          have hinner := hpart (h := g) hscope hg (ihg hscope hg)
          exact relays (.observed (.label name hinner))
      | commit g ihg => exact commit (ihg hscope hg)
      | deferred name => exact deferred (ih hscope (hrules name))
      | recursive name body ihbody =>
          have hinner : (scope.rule name .defined body).Plain := ⟨hscope, hg⟩
          exact relays (.observed (hpart hinner hg (ihbody hinner hg)))
      | handle name =>
          refine handle fun rule hrule => ?_
          obtain ⟨hhome, hbody⟩ := hscope.find? hrule
          exact ih hhome hbody
      | withRule name phase body g _ ihg =>
          have hinner : (scope.rule name phase body).Plain := ⟨hscope, hg.1⟩
          exact relays (.observed (hpart hinner hg.2 (ihg hinner hg.2)))
      | around before after g => exact hg.elim

/-! ### The limit when a part is invoked -/

/-- A stream of a store on whose source **no more references are under way than the limit
admits**. -/
structure Sources.WithinLimit (sources : Sources τ) (s : Stream) : Prop where
  lt : s.source < sources.next
  depth_le : ∀ n, (sources.get s.source).config.maxDepth = some n →
    (sources.get s.source).depth ≤ n

/-- A reference that is refused within the limit is refused **at the limit**. -/
theorem Sources.WithinLimit.depth_eq {sources : Sources τ} {s : Stream} {limit : Nat}
    (h : sources.WithinLimit s)
    (hfull : (sources.get s.source).config.admits (sources.get s.source).depth = .error limit) :
    (sources.get s.source).config.maxDepth = some limit ∧
      (sources.get s.source).depth = limit := by
  obtain ⟨hlimit, hle⟩ := Config.admits_eq_error_iff.mp hfull
  exact ⟨hlimit, Nat.le_antisymm (h.depth_le limit hlimit) hle⟩

/-- **The limit is kept** at every moment at which a part is invoked. -/
theorem Parser.Invoked.withinLimit [Quote τ] {q : Parser τ β} {t : Stream} {store : Sources τ}
    {p : Parser τ α} {s : Stream} {sources : Sources τ} {before : List (Event τ)}
    (h : Invoked q t store p s sources before) (hs : sources.WithinLimit s) :
    store.WithinLimit t := by
  have horderly := h.orderly (a := {}) hs.lt rfl
  have hdepth := horderly.depth_replay hs.lt rfl
  obtain rfl := h.store_eq
  constructor
  · rw [h.source_eq, Sources.next_replay]
    exact hs.lt
  · intro n hn
    rw [h.source_eq, Sources.config_replay] at hn
    rw [h.source_eq, hdepth]
    exact horderly.le_limit hn (hs.depth_le n hn)

end Backtrack
