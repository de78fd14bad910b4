import Backtrack.Proofs.Activity

/-!
# Invoked Parsers

Running a composed parser comes to running its parts, each at some position, on some store,
after some events. `Parser.Invoked` follows the run to any of these parts. Unlike an
outcome, a part can be reached in a run that gives nothing in the end, so what is proved of
the moment at which a part is invoked holds in every run, whatever becomes of it.

## Main definitions

* `Parser.Invoked`: running a parser comes to running another one.

## Main results

* `Parser.Invoked.store_eq`: the store at an invocation is the replay of the events before.
* `Parser.Invoked.orderly`: the events before an invocation are orderly.
* `Parser.Invoked.segment`: in a run that ends, its parts have ended.
* `Parser.Invoked.trans`: what an invoked parser comes to, the whole comes to.
-/

namespace Backtrack.Parser

variable {τ α β : Type} [Quote τ]

/-- **Invocation**: running a parser comes, after some events, to running `q` from `t` on
`store`. The parser may be `q` itself; otherwise one of its parts comes to it, the first or,
when the first has ended in such a way that another part is run, that other part. -/
inductive Invoked (q : Parser τ β) (t : Stream) (store : Sources τ) :
    {α : Type} → Parser τ α → Stream → Sources τ → List (Event τ) → Prop where
  | itself : Invoked q t store q t store []
  | calling {α : Type} {p : Parser τ α} {s : Stream} {sources : Sources τ}
      {before : List (Event τ)} (callee : Callee) :
      Invoked q t store p s sources before →
      Invoked q t store (calling callee p) s sources (.called callee :: before)
  | sequelFirst {α γ : Type} {p : Parser τ α} {next : α → Parser τ γ} {s : Stream}
      {sources : Sources τ} {before : List (Event τ)} :
      Invoked q t store p s sources before → Invoked q t store (sequel p next) s sources before
  | sequelSecond {α γ : Type} {p : Parser τ α} {next : α → Parser τ γ} {s rest : Stream}
      {sources middle : Sources τ} {value : α} {events before : List (Event τ)} :
      Composed p → (p s).run sources = some ⟨.ok value rest, middle, events⟩ →
      Invoked q t store (next value) rest middle before →
      Invoked q t store (sequel p next) s sources (events ++ before)
  | orElseFirst {α : Type} {p r : Parser τ α} {s : Stream} {sources : Sources τ}
      {before : List (Event τ)} :
      Invoked q t store p s sources before → Invoked q t store (orElse p r) s sources before
  | orElseSecond {α : Type} {p r : Parser τ α} {s : Stream} {sources middle : Sources τ}
      {failure : Failure τ} {events before : List (Event τ)} :
      Composed p → (p s).run sources = some ⟨.fail failure, middle, events⟩ →
      Invoked q t store r s middle before →
      Invoked q t store (orElse p r) s sources (events ++ before)
  | label {α : Type} {p : Parser τ α} {s : Stream} {sources : Sources τ}
      {before : List (Event τ)} (name : String) :
      Invoked q t store p s sources before → Invoked q t store (label name p) s sources before
  | commit {α : Type} {p : Parser τ α} {s : Stream} {sources : Sources τ}
      {before : List (Event τ)} :
      Invoked q t store p s sources before → Invoked q t store (commit p) s sources before
  | nested {α : Type} {p : Parser τ α} {s : Stream} {sources : Sources τ}
      {before : List (Event τ)} :
      (sources.get s.source).config.admits (sources.get s.source).depth = .ok () →
      Invoked q t store p s (sources.modify s.source .enter) before →
      Invoked q t store (nested p) s sources
        (.descended s ((sources.get s.source).depth + 1) :: before)
  | attemptFirst {α : Type} {p : Parser τ α} {items : List α} {next : α → Parser τ (List α)}
      {s : Stream} {sources : Sources τ} {before : List (Event τ)} :
      Invoked q t store p s sources before →
      Invoked q t store (attempt p items next) s sources before
  | attemptSecond {α : Type} {p : Parser τ α} {items : List α}
      {next : α → Parser τ (List α)} {s rest : Stream} {sources middle : Sources τ} {item : α}
      {events before : List (Event τ)} :
      Composed p → (p s).run sources = some ⟨.ok item rest, middle, events⟩ →
      rest.position ≠ s.position → Invoked q t store (next item) rest middle before →
      Invoked q t store (attempt p items next) s sources (events ++ before)
  | observed {α : Type} {p : Parser τ α} {s : Stream} {sources : Sources τ}
      {before : List (Event τ)} :
      Invoked q t store p s sources before →
      Invoked q t store p.observed s sources (.entered s :: before)

namespace Invoked

variable {q : Parser τ β} {t : Stream} {store : Sources τ} {p : Parser τ α} {s : Stream}
  {sources : Sources τ} {before : List (Event τ)}

/-- **The store at an invocation** is the replay of the events before it. -/
theorem store_eq (h : Invoked q t store p s sources before) :
    store = sources.replay before := by
  induction h with
  | itself => rfl
  | calling callee _ ih => exact ih
  | sequelFirst _ ih => exact ih
  | sequelSecond hp hrun _ ih =>
      rw [Sources.replay_append, ← (hp.course hrun).sources_eq_replay]
      exact ih
  | orElseFirst _ ih => exact ih
  | orElseSecond hp hrun _ ih =>
      rw [Sources.replay_append, ← (hp.course hrun).sources_eq_replay]
      exact ih
  | label name _ ih => exact ih
  | commit _ ih => exact ih
  | nested hroom _ ih => exact ih
  | attemptFirst _ ih => exact ih
  | attemptSecond hp hrun hmoved _ ih =>
      rw [Sources.replay_append, ← (hp.course hrun).sources_eq_replay]
      exact ih
  | observed _ ih => exact ih

/-- A parse stays in its source, so **a part is invoked in the source of the whole**. -/
theorem source_eq (h : Invoked q t store p s sources before) : t.source = s.source := by
  induction h with
  | itself => rfl
  | sequelSecond hp hrun _ ih => exact ih.trans ((hp.course hrun).source_rest rfl)
  | attemptSecond hp hrun hmoved _ ih => exact ih.trans ((hp.course hrun).source_rest rfl)
  | orElseSecond hp hrun _ ih => exact ih
  | calling | sequelFirst | orElseFirst | label | commit | nested | attemptFirst | observed =>
      assumption

/-- Orderly events of a part that is run second come after those of the first. -/
private theorem orderly_second {rest : Stream} {middle : Sources τ} {events later : List (Event τ)}
    {value : Outcome τ α} (hcourse : Course s sources ⟨value, middle, events⟩)
    (hrest : rest.source = s.source) (hs : s.source < sources.next) {base : Nat} {a : Activity}
    (hdepth : (sources.get s.source).depth = base + a.references.length)
    (hlater : rest.source < middle.next →
      (middle.get rest.source).depth = base + a.references.length →
      Orderly rest.source (middle.get rest.source).config.maxDepth base a later) :
    Orderly s.source (sources.get s.source).config.maxDepth base a (events ++ later) := by
  obtain ⟨horderly, hafter⟩ := hcourse.settled hs hdepth
  have hnext : middle.next = sources.next := hcourse.next_eq
  have hconfig : (middle.get s.source).config = (sources.get s.source).config :=
    hcourse.config_eq s.source
  have hmiddle : (middle.get s.source).depth = (sources.get s.source).depth :=
    hcourse.depth_eq hs
  rw [hrest, hnext, hconfig, hmiddle] at hlater
  exact orderly_append.mpr ⟨horderly, by rw [hafter]; exact hlater hs hdepth⟩

/-- **The events before an invocation are orderly**, whether or not the run goes on to an
outcome. -/
theorem orderly (h : Invoked q t store p s sources before) (hs : s.source < sources.next)
    {base : Nat} {a : Activity}
    (hdepth : (sources.get s.source).depth = base + a.references.length) :
    Orderly s.source (sources.get s.source).config.maxDepth base a before := by
  induction h generalizing a with
  | itself => exact trivial
  | calling callee _ ih => exact ⟨trivial, ih hs hdepth⟩
  | sequelFirst _ ih => exact ih hs hdepth
  | sequelSecond hp hrun _ ih =>
      have hcourse := hp.course hrun
      exact orderly_second hcourse (hcourse.source_rest rfl) hs hdepth
        fun hlt hbase => ih hlt hbase
  | orElseFirst _ ih => exact ih hs hdepth
  | orElseSecond hp hrun _ ih =>
      exact orderly_second (hp.course hrun) rfl hs hdepth fun hlt hbase => ih hlt hbase
  | label name _ ih => exact ih hs hdepth
  | commit _ ih => exact ih hs hdepth
  | @nested _ _ s sources before hroom _ ih =>
      have henter : (sources.modify s.source .enter).get s.source =
          (sources.get s.source).enter := Sources.get_modify_self hs
      have hs' : s.source < (sources.modify s.source .enter).next := by
        rw [Sources.next_modify]
        exact hs
      have horderly := ih hs' (Sources.depth_enter hs hdepth ((sources.get s.source).depth + 1))
      rw [henter] at horderly
      refine ⟨⟨rfl, by omega, fun n hn => ?_⟩, horderly⟩
      exact Config.admits_eq_ok_iff.mp hroom n hn
  | attemptFirst _ ih => exact ih hs hdepth
  | attemptSecond hp hrun hmoved _ ih =>
      have hcourse := hp.course hrun
      exact orderly_second hcourse (hcourse.source_rest rfl) hs hdepth
        fun hlt hbase => ih hlt hbase
  | observed _ ih =>
      refine ⟨trivial, ih hs ?_⟩
      exact hdepth

omit [Quote τ] in
/-- What was a stretch of the first of two runs is a stretch of both together. -/
private theorem segment_bind {γ δ : Type} {r : Run τ γ} {f : γ → Run τ δ}
    {step : Step τ δ} (hstep : (r >>= f).run sources = some step)
    (ih : ∀ {first : Step τ γ}, r.run sources = some first →
      ∃ inner after, (q t).run store = some inner ∧
        first.events = before ++ inner.events ++ after) :
    ∃ inner after, (q t).run store = some inner ∧
      step.events = before ++ inner.events ++ after := by
  obtain ⟨first, second, hfirst, -, rfl⟩ := Run.run_bind_eq_some_iff.mp hstep
  obtain ⟨inner, after, hinner, hevents⟩ := ih hfirst
  exact ⟨inner, after ++ second.events, hinner, by simp only [hevents, List.append_assoc]⟩

/-- **A part of a run that ends has ended**, and its events are a stretch of those of the
whole. -/
theorem segment (h : Invoked q t store p s sources before) {step : Step τ (Outcome τ α)}
    (hstep : (p s).run sources = some step) :
    ∃ inner after, (q t).run store = some inner ∧
      step.events = before ++ inner.events ++ after := by
  induction h with
  | itself => exact ⟨step, [], hstep, by rw [List.nil_append, List.append_nil]⟩
  | sequelFirst _ ih => exact segment_bind hstep ih
  | orElseFirst _ ih => exact segment_bind hstep ih
  | label name _ ih => exact segment_bind hstep ih
  | commit _ ih => exact segment_bind hstep ih
  | attemptFirst _ ih => exact segment_bind hstep ih
  | calling callee _ ih =>
      rw [run_calling] at hstep
      obtain ⟨whole, hwhole, rfl⟩ := Option.map_eq_some_iff.mp hstep
      obtain ⟨inner, after, hinner, hevents⟩ := ih hwhole
      exact ⟨inner, after, hinner, by rw [Step.after, hevents]; rfl⟩
  | sequelSecond _ hfirst _ ih =>
      rw [run_sequel, hfirst] at hstep
      obtain ⟨last, hlast, rfl⟩ := Option.map_eq_some_iff.mp hstep
      obtain ⟨inner, after, hinner, hevents⟩ := ih hlast
      exact ⟨inner, after, hinner, by simp only [Step.after, hevents, List.append_assoc]⟩
  | orElseSecond _ hfirst _ ih =>
      rw [run_orElse, hfirst] at hstep
      obtain ⟨last, hlast, rfl⟩ := Option.map_eq_some_iff.mp hstep
      obtain ⟨inner, after, hinner, hevents⟩ := ih hlast
      exact ⟨inner, after, hinner, by simp only [Step.after, hevents, List.append_assoc]⟩
  | @nested _ _ s _ _ hroom _ ih =>
      rw [run_nested, hroom] at hstep
      obtain ⟨whole, hwhole, rfl⟩ := Option.map_eq_some_iff.mp hstep
      obtain ⟨inner, after, hinner, hevents⟩ := ih hwhole
      let left := whole.sources.modify s.source .leave
      refine ⟨inner, after ++ [.ascended s (left.get s.source).depth], hinner, ?_⟩
      simp only [hevents, List.cons_append, List.append_assoc, left]
  | attemptSecond _ hfirst hmoved _ ih =>
      rw [run_attempt, hfirst, Option.bind_some] at hstep
      simp only [hmoved, if_false] at hstep
      obtain ⟨last, hlast, rfl⟩ := Option.map_eq_some_iff.mp hstep
      obtain ⟨inner, after, hinner, hevents⟩ := ih hlast
      exact ⟨inner, after, hinner, by simp only [Step.after, hevents, List.append_assoc]⟩
  | observed _ ih =>
      rw [run_observed] at hstep
      obtain ⟨whole, hwhole, rfl⟩ := Option.map_eq_some_iff.mp hstep
      obtain ⟨inner, after, hinner, hevents⟩ := ih hwhole
      refine ⟨inner, after ++ [.returned whole.value.forget], hinner, ?_⟩
      simp only [hevents, List.cons_append, List.append_assoc]

/-- What an invoked parser comes to, **the whole comes to**. -/
theorem trans {γ : Type} {r : Parser τ γ} {u : Stream} {last : Sources τ} {more : List (Event τ)}
    (h : Invoked q t store p s sources before) (hr : Invoked r u last q t store more) :
    Invoked r u last p s sources (before ++ more) := by
  induction h with
  | itself => exact hr
  | calling callee _ ih => exact .calling callee ih
  | sequelFirst _ ih => exact .sequelFirst ih
  | sequelSecond hp hrun _ ih =>
      rw [List.append_assoc]
      exact .sequelSecond hp hrun ih
  | orElseFirst _ ih => exact .orElseFirst ih
  | orElseSecond hp hrun _ ih =>
      rw [List.append_assoc]
      exact .orElseSecond hp hrun ih
  | label name _ ih => exact .label name ih
  | commit _ ih => exact .commit ih
  | nested hroom _ ih => exact .nested hroom ih
  | attemptFirst _ ih => exact .attemptFirst ih
  | attemptSecond hp hrun hmoved _ ih =>
      rw [List.append_assoc]
      exact .attemptSecond hp hrun hmoved ih
  | observed _ ih => exact .observed ih

end Invoked

end Backtrack.Parser
