import Backtrack.Proofs.Relays
import Backtrack.Proofs.Commitment

/-!
# The Origins of Errors

A parse of a grammar is aborted for one of four reasons: a commitment turned a failure into an
error, a reference was refused, a repetition stalled where that is forbidden, or the handle of a
rule was used that has no body. Every other combinator passes errors on as they are, so the
error that comes out is the one that went in, and the node of the grammar where it did was
run on the way.

Without the four there are no errors. Whether a grammar has commitments is a matter of its tree.
Whether its handles are live is a matter of the rules around them: a handle is live where the
innermost rule of its name is defined. A rule of the table is run among the rules around the
reference, so what its handles need to be live must be live there.

## Main definitions

* `Grammar.ErrorOrigin`: the reasons for an error.
* `Grammar.CommitFree`: a grammar without commitments.
* `Scope.Live`, `Grammar.Live`: the handles that work, and grammars that use no others.

## Main results

* `Grammar.Plain.originates`: every error has an origin.
* `Grammar.Harmless.never_aborts`: without commitments, dead handles, limit and forbidden stalls
  there are no errors.
* `Grammar.error_origin`: both, for all plain grammars.
-/

namespace Backtrack

variable {σ : Signature} {τ α : Type}

/-! ### Live handles -/

/-- The handles that are **live** in a scope: the innermost rule of the name is defined. -/
def Scope.Live (scope : Scope σ τ) (name : σ.Name) : Prop :=
  ∃ rule, scope.find? name = some rule ∧ rule.phase = .defined

theorem Scope.live_rule_self_iff {outer : Scope σ τ} {name : σ.Name} {phase : Phase}
    {body : Grammar σ τ (σ.Value name)} :
    (Scope.rule outer name phase body).Live name ↔ phase = .defined := by
  unfold Live
  rw [find?_rule_self]
  constructor
  · rintro ⟨rule, hrule, hphase⟩
    obtain rfl := Option.some.inj hrule
    exact hphase
  · intro hphase
    exact ⟨_, rfl, hphase⟩

theorem Scope.live_rule_iff_of_ne {outer : Scope σ τ} {other name : σ.Name} {phase : Phase}
    {body : Grammar σ τ (σ.Value other)} (h : other ≠ name) :
    (Scope.rule outer other phase body).Live name ↔ outer.Live name := by
  unfold Live
  rw [find?_rule_of_ne h]

/-- Handles in `live` only, with those of the rules within. A rule of the table takes handles from
where it is referred to, namely those that `captures` says, so they must be live there. A rule
without a body has a dead handle, and its body does not matter. -/
def Discipline.live (captures : σ.Name → σ.Name → Prop) : Discipline σ (σ.Name → Prop) where
  deferred name live := ∀ taken, captures name taken → live taken
  handle name live := live name
  recursive name live body := body fun other => other = name ∨ live other
  withRule name phase live body g :=
    (phase = .defined → body fun other => other = name ∨ live other) ∧
      g fun other => (other = name ∧ phase = .defined) ∨ (other ≠ name ∧ live other)

/-- A grammar **whose handles are live** where the handles in `live` are. -/
def Grammar.Live (captures : σ.Name → σ.Name → Prop) (g : Grammar σ τ α)
    (live : σ.Name → Prop) : Prop :=
  g.Obeys (.live captures) live

/-- A table of rules whose handles are live where those are that they capture. -/
def Rules.Live (rules : Rules σ τ) (captures : σ.Name → σ.Name → Prop) : Prop :=
  rules.Obey (.live captures) captures

/-- A scope of rules whose handles are live where the rules are at home. -/
def Scope.Sound (captures : σ.Name → σ.Name → Prop) (scope : Scope σ τ) : Prop :=
  scope.All fun outer name phase body => phase = .defined → ∃ live, body.Live captures live ∧
    ∀ other, live other → (Scope.rule outer name phase body).Live other

/-- A rule that is found in a sound scope and is defined has live handles where it is at home. -/
theorem Scope.Sound.find? {captures : σ.Name → σ.Name → Prop} {scope : Scope σ τ}
    (h : scope.Sound captures) {name : σ.Name} {rule : Binding σ τ name}
    (hrule : scope.find? name = some rule) (hphase : rule.phase = .defined) :
    rule.home.Sound captures ∧ ∃ live, rule.body.Live captures live ∧
      ∀ other, live other → rule.home.Live other := by
  obtain ⟨outer, heq, hhome, hlive⟩ := All.find? h hrule
  rw [heq] at hhome ⊢
  exact ⟨hhome, hlive hphase⟩

/-- The handles that are live around a defined rule are live within it, and so is its own. -/
theorem Scope.live_rule_defined {scope : Scope σ τ} {live : σ.Name → Prop}
    (h : ∀ name, live name → scope.Live name) {name : σ.Name}
    (body : Grammar σ τ (σ.Value name)) (other : σ.Name) (hother : other = name ∨ live other) :
    (scope.rule name .defined body).Live other := by
  by_cases hname : name = other
  · subst hname
    exact live_rule_self_iff.mpr rfl
  · exact (live_rule_iff_of_ne hname).mpr (h other (hother.resolve_left fun heq => hname heq.symm))

/-! ### Commitments -/

/-- No commitments. -/
def Discipline.commitFree (σ : Signature) : Discipline σ Unit where
  commit _ := False

/-- A grammar **without commitments**. -/
def Grammar.CommitFree (g : Grammar σ τ α) : Prop := g.Obeys (.commitFree σ) ()

/-- What is left without the commitments is without commitments. -/
theorem Grammar.commitFree_uncommitted (g : Grammar σ τ α) : g.uncommitted.CommitFree := by
  induction g with
  | succeed value => trivial
  | fail message => trivial
  | satisfy expected test => trivial
  | eof => trivial
  | bind g next ihg ihnext => exact ⟨ihg, ihnext⟩
  | map f g ihg => exact ihg
  | pair g h ihg ihh => exact ⟨ihg, ihh⟩
  | keepRight g h ihg ihh => exact ⟨ihg, ihh⟩
  | keepLeft g h ihg ihh => exact ⟨ihg, ihh⟩
  | orElse g h ihg ihh => exact ⟨ihg, ihh⟩
  | optional g ihg => exact ihg
  | many g ihg => exact ihg
  | label name g ihg => exact ihg
  | commit g ihg => exact ihg
  | deferred name => trivial
  | recursive name body ihbody => exact ihbody
  | handle name => trivial
  | withRule name phase body g ihbody ihg => exact ⟨ihbody, ihg⟩
  | around before after g ihg => exact ihg

/-- A table of rules without commitments. -/
def Rules.CommitFree (rules : Rules σ τ) : Prop := rules.Obey (.commitFree σ) fun _ => ()

/-- A scope of rules without commitments. -/
def Scope.CommitFree (scope : Scope σ τ) : Prop := scope.Obey (.commitFree σ)

theorem Scope.CommitFree.find? {scope : Scope σ τ} (h : scope.CommitFree) {name : σ.Name}
    {rule : Binding σ τ name} (hrule : scope.find? name = some rule) :
    rule.home.CommitFree ∧ rule.body.CommitFree :=
  Obey.find? h hrule

/-- Plain rules without commitments, whose handles are live where those are that they capture. -/
structure Rules.Harmless (rules : Rules σ τ) (captures : σ.Name → σ.Name → Prop) : Prop where
  plain : rules.Plain
  commitFree : rules.CommitFree
  live : rules.Live captures

/-- A scope of plain rules without commitments, whose handles are live. -/
structure Scope.Harmless (scope : Scope σ τ) (captures : σ.Name → σ.Name → Prop) : Prop where
  plain : scope.Plain
  commitFree : scope.CommitFree
  sound : scope.Sound captures

/-- A **plain grammar without commitments, whose handles are live** in the scope. -/
structure Grammar.Harmless (g : Grammar σ τ α) (captures : σ.Name → σ.Name → Prop)
    (scope : Scope σ τ) : Prop where
  plain : g.Plain
  commitFree : g.CommitFree
  live : ∃ live, g.Live captures live ∧ ∀ name, live name → scope.Live name

theorem Scope.Harmless.find? {captures : σ.Name → σ.Name → Prop} {scope : Scope σ τ}
    (h : scope.Harmless captures) {name : σ.Name} {rule : Binding σ τ name}
    (hrule : scope.find? name = some rule) (hphase : rule.phase = .defined) :
    rule.home.Harmless captures ∧ rule.body.Harmless captures rule.home := by
  obtain ⟨hhome, hbody⟩ := h.plain.find? hrule
  obtain ⟨hhomeFree, hbodyFree⟩ := h.commitFree.find? hrule
  obtain ⟨hsound, hlive⟩ := h.sound.find? hrule hphase
  exact ⟨⟨hhome, hhomeFree, hsound⟩, ⟨hbody, hbodyFree, hlive⟩⟩

variable [Quote τ]

namespace Grammar

/-! ### Origins -/

/-- The **origin of an error** of the parser `p`, run from `s` on the store `sources`. Of the
nodes of a grammar over `rules`, one was run on the way, with the fuel that was left, that gave
rise to the error. -/
inductive ErrorOrigin (rules : Rules σ τ) (p : Parser τ α) (s : Stream) (sources : Sources τ)
    (failure : Failure τ) : Prop where
  /-- The grammar inside a commitment failed with this failure. -/
  | committed {β : Type} {h : Grammar σ τ β} {fuel : Nat} {home : Scope σ τ} {t : Stream}
      {store inner : Sources τ} {before : List (Event τ)}
      (invoked : (parser rules (fuel + 1) home (.commit h)).Invoked t store p s sources before)
      (failed : (parser rules (fuel + 1) home h t).Gives store (.fail failure) inner)
  /-- A rule of the table was referred to when as many references were under way as the limit
  admits. -/
  | deferred {name : σ.Name} {fuel limit : Nat} {home : Scope σ τ} {t : Stream}
      {store : Sources τ} {before : List (Event τ)}
      (invoked : (parser rules (fuel + 1) home (.deferred name)).Invoked t store p s sources before)
      (maxDepth : (store.get t.source).config.maxDepth = some limit)
      (depth : (store.get t.source).depth = limit)
      (failure_eq : failure = ⟨Message.recursionLimit limit, store.token t, t.position⟩)
  /-- A live handle was used when as many references were under way as the limit admits. -/
  | handle {name : σ.Name} {fuel limit : Nat} {home : Scope σ τ} {t : Stream}
      {store : Sources τ} {before : List (Event τ)}
      (invoked : (parser rules (fuel + 1) home (.handle name)).Invoked t store p s sources before)
      (live : home.Live name)
      (maxDepth : (store.get t.source).config.maxDepth = some limit)
      (depth : (store.get t.source).depth = limit)
      (failure_eq : failure = ⟨Message.recursionLimit limit, store.token t, t.position⟩)
  /-- Within a repetition, its grammar succeeded without advancing, which is forbidden. -/
  | stalled {β : Type} {h : Grammar σ τ β} {fuel : Nat} {home : Scope σ τ} {t u : Stream}
      {store store' : Sources τ} {before during : List (Event τ)}
      (invoked : (parser rules (fuel + 1) home (.many h)).Invoked t store p s sources before)
      (attempted : (parser rules (fuel + 1) home h).Invoked u store'
        (parser rules (fuel + 1) home (.many h)) t store during)
      (stalls : (parser rules (fuel + 1) home h).Stalls u store' failure)
  /-- A handle was used that is not live. -/
  | dead {name : σ.Name} {fuel : Nat} {home : Scope σ τ} {t : Stream} {store : Sources τ}
      {before : List (Event τ)}
      (invoked : (parser rules (fuel + 1) home (.handle name)).Invoked t store p s sources before)
      (dead : ¬ home.Live name)
      (found : failure.found = store.token t)
      (position : failure.position = t.position)

variable {rules : Rules σ τ}

/-- The origin of an error of a part that was invoked is **that of the error of the whole**. -/
theorem ErrorOrigin.of_invoked {β : Type} {q : Parser τ β} {t : Stream} {store : Sources τ}
    {p : Parser τ α} {s : Stream} {sources : Sources τ} {before : List (Event τ)}
    {failure : Failure τ} (h : ErrorOrigin rules q t store failure)
    (hq : q.Invoked t store p s sources before) : ErrorOrigin rules p s sources failure := by
  cases h with
  | committed invoked failed => exact .committed (hq.trans invoked) failed
  | deferred invoked maxDepth depth failure_eq =>
      exact .deferred (hq.trans invoked) maxDepth depth failure_eq
  | handle invoked live maxDepth depth failure_eq =>
      exact .handle (hq.trans invoked) live maxDepth depth failure_eq
  | stalled invoked attempted stalls => exact .stalled (hq.trans invoked) attempted stalls
  | dead invoked dead found position => exact .dead (hq.trans invoked) dead found position

/-- A parser whose errors **have an origin**, as long as the limit is kept. -/
def Originates (rules : Rules σ τ) (α : Type) (p : Parser τ α) : Prop :=
  ∀ (s : Stream) (sources : Sources τ) (failure : Failure τ), sources.WithinLimit s →
    p.Aborts s sources failure → ErrorOrigin rules p s sources failure

/-- What relays the errors of parts whose errors have an origin has no others. -/
theorem originates_of_relays {p : Parser τ α} (h : p.Relays (Originates rules)) :
    Originates rules α p := by
  intro s sources failure hlimit haborts
  obtain ⟨β, q, t, store, before, hq, hinvoked, hcause⟩ := h.aborts haborts
  exact (hq t store failure (hinvoked.withinLimit hlimit) hcause).of_invoked hinvoked

section

variable {scope : Scope σ τ} {fuel : Nat}

theorem originates_commit {g : Grammar σ τ α}
    (hg : Originates rules α (parser rules (fuel + 1) scope g)) :
    Originates rules α (parser rules (fuel + 1) scope (.commit g)) := by
  intro s sources failure hlimit haborts
  rcases Parser.aborts_commit_iff.mp (Parser.aborts_observed_iff.mp haborts) with
    hinner | ⟨last, hfail⟩
  · exact (hg s sources failure hlimit hinner).of_invoked (.observed (.commit .itself))
  · exact .committed .itself hfail

theorem originates_many {g : Grammar σ τ α}
    (hcomposed : Parser.Composed (parser rules (fuel + 1) scope g))
    (hg : Originates rules α (parser rules (fuel + 1) scope g)) :
    Originates rules (List α) (parser rules (fuel + 1) scope (.many g)) := by
  intro s sources failure hlimit haborts
  obtain ⟨t, store, before, hinvoked, hcause⟩ :=
    Parser.attempts_aborts hcomposed (Parser.aborts_observed_iff.mp haborts)
  have hnode : (parser rules (fuel + 1) scope g).Invoked t store
      (parser rules (fuel + 1) scope (.many g)) s sources (.entered s :: before) :=
    .observed hinvoked
  rcases hcause with hinner | hstalls
  · exact (hg t store failure (hnode.withinLimit hlimit) hinner).of_invoked hnode
  · exact .stalled .itself hnode hstalls

theorem originates_deferred {name : σ.Name}
    (hrule : Originates rules _ (parser rules fuel scope (rules name))) :
    Originates rules _ (parser rules (fuel + 1) scope (.deferred name)) := by
  intro s sources failure hlimit haborts
  rcases Parser.aborts_nested_iff.mp (Parser.aborts_observed_iff.mp haborts) with
    ⟨limit, hfull, rfl⟩ | ⟨hroom, hinner⟩
  · obtain ⟨hmax, hdepth⟩ := hlimit.depth_eq hfull
    exact .deferred .itself hmax hdepth rfl
  · have hnode : (parser rules fuel scope (rules name)).Invoked s
        (sources.modify s.source .enter) (parser rules (fuel + 1) scope (.deferred name)) s sources
          _ := .observed (.nested hroom (.calling .thunk .itself))
    have hbody := Parser.aborts_calling_iff.mp hinner
    have horigin := hrule s _ failure (hnode.withinLimit hlimit) hbody
    exact horigin.of_invoked hnode

theorem originates_handle {name : σ.Name}
    (hrule : ∀ rule, scope.find? name = some rule →
      Originates rules _ (parser rules fuel rule.home rule.body)) :
    Originates rules _ (parser rules (fuel + 1) scope (.handle name)) := by
  intro s sources failure hlimit haborts
  have hparser : parser rules (fuel + 1) scope (.handle name) = _ :=
    interpret_handle rules (parser rules fuel) (fuel + 1) name scope
  cases hfind : scope.find? name with
  | none =>
      have hdead : ¬ scope.Live name := by
        rintro ⟨rule, hrule, -⟩
        cases hfind.symm.trans hrule
      rw [hparser, hfind, Parser.aborts_observed_iff, Parser.aborts_unusable_iff] at haborts
      obtain rfl := haborts
      exact .dead .itself hdead rfl rfl
  | some rule =>
      obtain ⟨phase, body, home⟩ := rule
      rw [hfind] at hparser
      have hlive : scope.Live name ↔ phase = .defined := by
        unfold Scope.Live
        rw [hfind]
        constructor
        · rintro ⟨rule, hrule, hphase⟩
          obtain rfl := Option.some.inj hrule
          exact hphase
        · intro hphase
          exact ⟨_, rfl, hphase⟩
      cases phase with
      | undefined =>
          have hdead : ¬ scope.Live name := fun hother => by cases hlive.mp hother
          rw [hparser, Parser.aborts_observed_iff] at haborts
          rcases Parser.aborts_nested_iff.mp haborts with ⟨limit, -, rfl⟩ | ⟨-, hinner⟩
          · exact .dead .itself hdead rfl rfl
          · obtain rfl := Parser.aborts_unusable_iff.mp hinner
            have htoken := sources.token_effect (.descended s 0) s.source
            exact .dead .itself hdead (congrFun htoken s.position) rfl
      | defined =>
          have hnested : parser rules (fuel + 1) scope (.handle name) = _ :=
            parser_handle hfind fuel
          rw [hparser, Parser.aborts_observed_iff] at haborts
          rcases Parser.aborts_nested_iff.mp haborts with ⟨limit, hfull, rfl⟩ | ⟨hroom, hinner⟩
          · obtain ⟨hmax, hdepth⟩ := hlimit.depth_eq hfull
            exact .handle .itself (hlive.mpr rfl) hmax hdepth rfl
          · have hnode : (parser rules fuel home body).Invoked s
                (sources.modify s.source .enter) (parser rules (fuel + 1) scope (.handle name)) s
                  sources [.entered s, .descended s ((sources.get s.source).depth + 1)] := by
              rw [hnested]
              exact .observed (.nested hroom .itself)
            have horigin := hrule _ hfind s _ failure (hnode.withinLimit hlimit) hinner
            exact horigin.of_invoked hnode
      | dropped =>
          have hdead : ¬ scope.Live name := fun hother => by cases hlive.mp hother
          rw [hparser, Parser.aborts_observed_iff] at haborts
          obtain rfl := Parser.aborts_unusable_iff.mp haborts
          exact .dead .itself hdead rfl rfl

end

/-- **Every error of a plain grammar has an origin.** -/
theorem Plain.originates (hrules : rules.Plain) (fuel : Nat) {scope : Scope σ τ}
    (hscope : scope.Plain) {g : Grammar σ τ α} (hg : g.Plain) :
    Originates rules α (parser rules fuel scope g) :=
  hg.part_parser hrules originates_of_relays originates_commit originates_many
    originates_deferred originates_handle fuel hscope

/-! ### Without errors -/

/-- A parser that is **never aborted** under settings without a limit that allow stalls. -/
def NeverAborts (α : Type) (p : Parser τ α) : Prop :=
  ∀ (s : Stream) (sources : Sources τ) (failure : Failure τ),
    (sources.get s.source).config.maxDepth = none →
    (sources.get s.source).config.repetition = .stop → ¬ p.Aborts s sources failure

/-- Settings do not change until a part is invoked. -/
private theorem NeverAborts.of_invoked {β : Type} {q : Parser τ β} (hq : NeverAborts β q)
    {t : Stream} {store : Sources τ} {p : Parser τ α} {s : Stream} {sources : Sources τ}
    {before : List (Event τ)} (hinvoked : q.Invoked t store p s sources before)
    (hmax : (sources.get s.source).config.maxDepth = none)
    (hstop : (sources.get s.source).config.repetition = .stop) {failure : Failure τ} :
    ¬ q.Aborts t store failure := by
  refine hq t store failure ?_ ?_
  · rw [hinvoked.store_eq, hinvoked.source_eq, Sources.config_replay]
    exact hmax
  · rw [hinvoked.store_eq, hinvoked.source_eq, Sources.config_replay]
    exact hstop

theorem neverAborts_of_relays {p : Parser τ α} (h : p.Relays NeverAborts) : NeverAborts α p := by
  intro s sources failure hmax hstop haborts
  obtain ⟨β, q, t, store, before, hq, hinvoked, hcause⟩ := h.aborts haborts
  exact NeverAborts.of_invoked hq hinvoked hmax hstop hcause

/-- Without a limit, what is never aborted is **never aborted one level deeper**. -/
theorem neverAborts_nested {p : Parser τ α} (hp : NeverAborts α p) :
    NeverAborts α (Parser.nested p) := by
  intro s sources failure hmax hstop haborts
  rcases Parser.aborts_nested_iff.mp haborts with ⟨limit, hfull, -⟩ | ⟨hroom, hinner⟩
  · cases hmax.symm.trans (Config.admits_eq_error_iff.mp hfull).1
  · exact NeverAborts.of_invoked hp (.nested hroom .itself) hmax hstop hinner

/-- Where stalls are allowed, what is never aborted is **never aborted in a repetition**. -/
theorem neverAborts_many {p : Parser τ α} (hcomposed : p.Composed) (hp : NeverAborts α p)
    (turns : Nat) : NeverAborts (List α) (Parser.many turns p) := by
  intro s sources failure hmax hstop haborts
  obtain ⟨t, store, before, hinvoked, hinner | ⟨-, hpolicy, -⟩⟩ :=
    Parser.attempts_aborts hcomposed haborts
  · exact NeverAborts.of_invoked hp hinvoked hmax hstop hinner
  · rw [hinvoked.store_eq, hinvoked.source_eq, Sources.config_replay, hstop] at hpolicy
    cases hpolicy

/-- **Without commitments and dead handles**, a plain grammar is never aborted under settings
without a limit that allow stalls. -/
theorem Harmless.never_aborts {captures : σ.Name → σ.Name → Prop}
    (hrules : rules.Harmless captures) (fuel : Nat) {scope : Scope σ τ}
    (hscope : scope.Harmless captures) {g : Grammar σ τ α} (hg : g.Harmless captures scope) :
    NeverAborts α (parser rules fuel scope g) := by
  induction fuel generalizing α scope g with
  | zero =>
      intro s sources failure _ _ haborts
      obtain ⟨last, events, hrun⟩ := haborts
      cases hrun
  | succ fuel ih =>
      have hcomposed : ∀ {β : Type} {h : Grammar σ τ β} {scope : Scope σ τ}, scope.Plain →
          h.Plain → (parser rules (fuel + 1) scope h).Composed :=
        fun hscope hh => hh.composed hrules.plain (fuel + 1) hscope
      have hpart : ∀ {β : Type} {h : Grammar σ τ β} {scope : Scope σ τ}, scope.Plain → h.Plain →
          NeverAborts β (parser rules (fuel + 1) scope h) →
            (parser rules (fuel + 1) scope h).Relays NeverAborts :=
        fun hscope hh hnever => .part (hcomposed hscope hh) hnever
      obtain ⟨hplain, hfree, live, hlive, hsub⟩ := hg
      induction g generalizing scope live with
      | succeed value => exact neverAborts_of_relays (.observed (.succeed value))
      | fail message => exact neverAborts_of_relays (.observed (.fail message))
      | satisfy expected test => exact neverAborts_of_relays (.observed (.satisfy expected test))
      | eof => exact neverAborts_of_relays (.observed .eof)
      | bind g next ihg ihnext =>
          have hfirst := hpart hscope.plain hplain.1 (ihg hscope hplain.1 hfree.1 live hlive.1 hsub)
          have hrest := fun a => hpart hscope.plain (hplain.2 a)
            (ihnext a hscope (hplain.2 a) (hfree.2 a) live (hlive.2 a) hsub)
          exact neverAborts_of_relays (.observed (.bind hfirst hrest))
      | map f g ihg =>
          have hnever := ihg hscope hplain hfree live hlive hsub
          have hinner := hpart (h := g) hscope.plain hplain hnever
          exact neverAborts_of_relays (.observed (.map hinner f))
      | pair g h ihg ihh =>
          have hfirst := hpart hscope.plain hplain.1 (ihg hscope hplain.1 hfree.1 live hlive.1 hsub)
          have hsecond :=
            hpart hscope.plain hplain.2 (ihh hscope hplain.2 hfree.2 live hlive.2 hsub)
          exact neverAborts_of_relays (.observed (.pair hfirst hsecond))
      | keepRight g h ihg ihh =>
          have hfirst := hpart hscope.plain hplain.1 (ihg hscope hplain.1 hfree.1 live hlive.1 hsub)
          have hsecond :=
            hpart hscope.plain hplain.2 (ihh hscope hplain.2 hfree.2 live hlive.2 hsub)
          exact neverAborts_of_relays (.observed (.keepRight hfirst hsecond))
      | keepLeft g h ihg ihh =>
          have hfirst := hpart hscope.plain hplain.1 (ihg hscope hplain.1 hfree.1 live hlive.1 hsub)
          have hsecond :=
            hpart hscope.plain hplain.2 (ihh hscope hplain.2 hfree.2 live hlive.2 hsub)
          exact neverAborts_of_relays (.observed (.keepLeft hfirst hsecond))
      | orElse g h ihg ihh =>
          have hfirst := hpart hscope.plain hplain.1 (ihg hscope hplain.1 hfree.1 live hlive.1 hsub)
          have hsecond :=
            hpart hscope.plain hplain.2 (ihh hscope hplain.2 hfree.2 live hlive.2 hsub)
          exact neverAborts_of_relays (.observed (.orElse hfirst hsecond))
      | optional g ihg =>
          have hnever := ihg hscope hplain hfree live hlive hsub
          have hinner := hpart (h := g) hscope.plain hplain hnever
          exact neverAborts_of_relays (.observed (.optional hinner))
      | many g ihg =>
          have hinner := hcomposed (h := g) hscope.plain hplain
          have hattempt := ihg hscope hplain hfree live hlive hsub
          have hnever := neverAborts_many hinner hattempt (fuel + 1)
          exact neverAborts_of_relays (.observed (.part (.many hinner (fuel + 1)) hnever))
      | label name g ihg =>
          have hnever := ihg hscope hplain hfree live hlive hsub
          have hinner := hpart (h := g) hscope.plain hplain hnever
          exact neverAborts_of_relays (.observed (.label name hinner))
      | commit g ihg => exact hfree.elim
      | deferred name =>
          -- The rule is run where it is referred to, and there what it captures is live.
          have hrule : (rules name).Harmless captures scope := ⟨hrules.plain name,
            hrules.commitFree name, captures name, hrules.live name,
              fun taken htaken => hsub taken (hlive taken htaken)⟩
          have hbody := (hrule.plain.composed hrules.plain fuel hscope.plain)
          have hinner : (Parser.calling .thunk (parser rules fuel scope (rules name))).Relays
              NeverAborts := .calling .thunk (.part hbody (ih hscope hrule))
          have hnever := neverAborts_nested (neverAborts_of_relays hinner)
          exact neverAborts_of_relays (.observed (.part (.deferred hbody) hnever))
      | recursive name body ihbody =>
          have hinner : (scope.rule name .defined body).Harmless captures :=
            ⟨⟨hscope.plain, hplain⟩, ⟨hscope.commitFree, hfree⟩, hscope.sound,
              fun _ => ⟨_, hlive, Scope.live_rule_defined hsub body⟩⟩
          have hbody := ihbody hinner hplain hfree _ hlive (Scope.live_rule_defined hsub body)
          exact neverAborts_of_relays (.observed (hpart hinner.plain hplain hbody))
      | handle name =>
          obtain ⟨⟨phase, body, home⟩, hfind, rfl⟩ := hsub name hlive
          obtain ⟨hhome, hbody⟩ := hscope.find? hfind rfl
          have hinner := hbody.plain.composed hrules.plain fuel hhome.plain
          have hnever := neverAborts_nested (ih hhome hbody)
          rw [parser_handle hfind]
          exact neverAborts_of_relays (.observed (.part (.nested hinner) hnever))
      | withRule name phase body g _ ihg =>
          have hinner : (scope.rule name phase body).Harmless captures := by
            refine ⟨⟨hscope.plain, hplain.1⟩, ⟨hscope.commitFree, hfree.1⟩, hscope.sound, ?_⟩
            rintro rfl
            exact ⟨_, hlive.1 rfl, Scope.live_rule_defined hsub body⟩
          have hsub' : ∀ other, (other = name ∧ phase = .defined) ∨ (other ≠ name ∧ live other) →
              (scope.rule name phase body).Live other := by
            rintro other (⟨rfl, hphase⟩ | ⟨hne, hother⟩)
            · exact Scope.live_rule_self_iff.mpr hphase
            · exact (Scope.live_rule_iff_of_ne hne.symm).mpr (hsub other hother)
          have hbody := ihg hinner hplain.2 hfree.2 _ hlive.2 hsub'
          exact neverAborts_of_relays (.observed (hpart hinner.plain hplain.2 hbody))
      | around before after g => exact hplain.elim

/-- **Where errors come from**: an error of a plain grammar has one of five origins, none of which
is there in a grammar without commitments and dead handles under settings without a limit that
allow stalls. -/
theorem error_origin {rules : Rules σ τ} {scope : Scope σ τ} {g : Grammar σ τ α} :
    (rules.Plain → scope.Plain → g.Plain →
      ∀ {fuel : Nat} {s : Stream} {sources : Sources τ} {failure : Failure τ} {last : Sources τ}
        {events : List (Event τ)}, s.source < sources.next →
        (∀ n, (sources.get s.source).config.maxDepth = some n → (sources.get s.source).depth ≤ n) →
        (parser rules fuel scope g s).run sources = some ⟨.error failure, last, events⟩ →
          ErrorOrigin rules (parser rules fuel scope g) s sources failure) ∧
    ∀ {captures : σ.Name → σ.Name → Prop}, rules.Harmless captures → scope.Harmless captures →
      g.Harmless captures scope →
      ∀ {fuel : Nat} {s : Stream} {sources : Sources τ} {step : Step τ (Outcome τ α)},
        (sources.get s.source).config.maxDepth = none →
        (sources.get s.source).config.repetition = .stop →
        (parser rules fuel scope g s).run sources = some step → step.value.isError = false := by
  constructor
  · intro hrules hscope hg fuel s sources failure last events hs hdepth hrun
    exact hg.originates hrules fuel hscope s sources failure ⟨hs, hdepth⟩ ⟨last, events, hrun⟩
  · intro captures hrules hscope hg fuel s sources step hmax hstop hrun
    obtain ⟨value, last, events⟩ := step
    cases value with
    | ok value rest => rfl
    | fail failure => rfl
    | error failure =>
        have hnever := hg.never_aborts hrules fuel hscope s sources failure hmax hstop
        exact absurd ⟨last, events, hrun⟩ hnever

end Grammar

/-- Nested brackets without the commitment have no error: the table of rules uses no handle, and the
handle in the brackets is live. -/
theorem Brackets.harmless_uncommitted :
    grammar.uncommitted.Harmless (fun _ _ => False) .empty where
  plain := ⟨⟨trivial, trivial, trivial⟩, trivial⟩
  commitFree := grammar.commitFree_uncommitted
  live := ⟨fun _ => False, ⟨⟨trivial, .inl rfl, trivial⟩, fun _ => False.elim⟩, fun _ => False.elim⟩

/-- The error of a commitment has an origin, and the bracket that is missing gives none. -/
theorem Brackets.error_origin_choice :
    Grammar.ErrorOrigin rules (Grammar.parser rules 1 .empty choice) .start (store none [true])
      ⟨"no", some true, 0⟩ ∧
    ∃ step, (Grammar.parser rules 5 .empty grammar.uncommitted .start).run (store none [true]) =
        some step ∧ step.events ≠ [] ∧ step.value.isError = false := by
  have hplain : choice.Plain := ⟨trivial, trivial⟩
  have hs : Stream.start.source < (store none [true]).next := by decide
  have hdepth : ∀ n, ((store none [true]).get 0).config.maxDepth = some n →
      ((store none [true]).get 0).depth ≤ n := fun n _ => Nat.zero_le n
  constructor
  · have hrun : ((Grammar.parser rules 1 .empty choice .start).run (store none [true])).map
        Step.value = some (.error ⟨"no", some true, 0⟩) := by decide +kernel
    obtain ⟨⟨value, last, events⟩, hstep, rfl⟩ := Option.map_eq_some_iff.mp hrun
    exact Grammar.error_origin.1 plain_rules plain_scope hplain hs hdepth hstep
  · have hrules : rules.Harmless fun _ _ => False :=
      ⟨plain_rules, fun _ => trivial, fun _ => trivial⟩
    have hscope : (Scope.empty : Scope names Bool).Harmless fun _ _ => False :=
      ⟨plain_scope, trivial, trivial⟩
    have hrun : ((Grammar.parser rules 5 .empty grammar.uncommitted .start).run
        (store none [true])).map (fun step => step.events.isEmpty) = some false := by decide +kernel
    obtain ⟨step, hstep, hevents⟩ := Option.map_eq_some_iff.mp hrun
    have hvalue := Grammar.error_origin.2 hrules hscope harmless_uncommitted rfl rfl hstep
    exact ⟨step, hstep, fun hnil => by simp [hnil] at hevents, hvalue⟩

end Backtrack
