import Backtrack.Proofs.Lazy
import Backtrack.Proofs.Shift

/-!
# Results and History

A source remembers: the tokens it has asked for, whether its supply has been let go, and how
many references are under way. All of this survives from one parse to the next. None of it
is seen in a result. What a parse gives is determined by the tokens, the settings and the
count of references, and whatever clients do leaves these three as they were.

So a parse after any history gives what it would have given on a new source of the same
tokens, wherever in the store that source is opened. Two sources are compared by what a
parse can learn of them, and the parses on them by outcomes moved to one of the two.

## Main definitions

* `Source.Alike`: the same tokens, settings and count of references.
* `Sources.AlikeAt`: two stores with such sources under given names.
* `Outcome.relocate`: an outcome moved to another source.
* `Source.openAt`: opens a source and goes to a position.

## Main results

* `Parser.Composed.mirror`: sources that are alike give the same outcomes.
* `Client.alike_serve`: a client leaves the source alike.
* `Client.outcome_after_history`: a parse after any history is a parse on a new source.
-/

namespace Backtrack

variable {τ α β : Type}

/-! ### Sources that are alike -/

/-- Sources that **no parse can tell apart**, whatever they remember. -/
structure Source.Alike (first second : Source τ) : Prop where
  token_eq : first.token = second.token
  config_eq : first.config = second.config
  depth_eq : first.depth = second.depth

namespace Source.Alike

theorem refl (source : Source τ) : source.Alike source := ⟨rfl, rfl, rfl⟩

theorem symm {first second : Source τ} (h : first.Alike second) : second.Alike first :=
  ⟨h.token_eq.symm, h.config_eq.symm, h.depth_eq.symm⟩

theorem trans {first second third : Source τ} (h : first.Alike second)
    (h' : second.Alike third) : first.Alike third :=
  ⟨h.token_eq.trans h'.token_eq, h.config_eq.trans h'.config_eq, h.depth_eq.trans h'.depth_eq⟩

/-- Looking at a source leaves it alike. -/
theorem look (source : Source τ) (i : Nat) : (source.look i).Alike source :=
  ⟨source.token_look i, rfl, rfl⟩

end Source.Alike

/-- Stores whose sources, `id` in the first and `other` in the second, **are alike**. -/
structure Sources.AlikeAt (id other : Nat) (first second : Sources τ) : Prop where
  first_lt : id < first.next
  second_lt : other < second.next
  alike : (first.get id).Alike (second.get other)

namespace Sources.AlikeAt

variable {id other : Nat} {first second : Sources τ}

theorem refl {sources : Sources τ} (h : id < sources.next) : AlikeAt id id sources sources :=
  ⟨h, h, .refl _⟩

theorem symm (h : AlikeAt id other first second) : AlikeAt other id second first :=
  ⟨h.second_lt, h.first_lt, h.alike.symm⟩

theorem trans {third : Sources τ} {last : Nat} (h : AlikeAt id other first second)
    (h' : AlikeAt other last second third) : AlikeAt id last first third :=
  ⟨h.first_lt, h'.second_lt, h.alike.trans h'.alike⟩

/-- Streams at the same position show the same token. -/
theorem token (h : AlikeAt id other first second) (i : Nat) :
    first.token ⟨id, i⟩ = second.token ⟨other, i⟩ :=
  congrFun h.alike.token_eq i

/-- A look leaves the source alike. -/
theorem look (h : id < first.next) {s : Stream} (hs : s.source = id) :
    AlikeAt id id (first.look s) first := by
  subst hs
  refine ⟨?_, h, ?_⟩
  · rw [Sources.look, next_modify]
    exact h
  · rw [Sources.look, get_modify_self h]
    exact .look _ _

/-- The one source goes on **behind no tokens** as the other begins. -/
theorem continues (h : AlikeAt id other first second) : Continues 0 id other first second where
  first_lt := h.first_lt
  second_lt := h.second_lt
  token_eq i := (h.token i).symm
  config_eq := h.alike.config_eq.symm
  depth_eq := h.alike.depth_eq.symm

end Sources.AlikeAt

/-- **A parse leaves the source alike**, however it ends. -/
theorem Course.alike [Quote τ] {s : Stream} {sources : Sources τ} {step : Step τ (Outcome τ α)}
    (h : Course s sources step) (hs : s.source < sources.next) :
    Sources.AlikeAt s.source s.source step.sources sources := by
  refine ⟨?_, hs, h.token_eq _, h.config_eq _, h.depth_eq hs⟩
  rw [h.next_eq]
  exact hs

/-! ### New streams -/

namespace Stream

private theorem alike_skipBehind (n : Nat) (s : Stream) (past : List (Event τ))
    {sources : Sources τ} (h : s.source < sources.next) :
    Sources.AlikeAt s.source s.source (skipBehind n s past sources).sources sources := by
  induction n generalizing s past sources with
  | zero => exact .refl h
  | succ n ih =>
      have hlook := Sources.AlikeAt.look h (s := s) rfl
      rw [skipBehind_succ]
      cases sources.token s with
      | none => exact hlook
      | some token => exact (ih s.advance _ hlook.first_lt).trans hlook

/-- Skipping leaves the source alike. -/
theorem alike_skip {s : Stream} (n : Nat) {sources : Sources τ} (h : s.source < sources.next) :
    Sources.AlikeAt s.source s.source ((s.skip n).run sources).sources sources :=
  alike_skipBehind n s [] h

end Stream

/-- The same position **over another source**. -/
def Stream.relocate (s : Stream) (id : Nat) : Stream := ⟨id, s.position⟩

/-- Opens a source and **goes to position `i`** by tails. -/
def Source.openAt (source : Source τ) (i : Nat) : Act τ Stream := do
  let start ← Act.openSource source
  start.skip i

/-- Over a source that is alike, the opened stream stands **where the first one does**. -/
theorem Source.alike_openAt {fresh : Source τ} {s : Stream} {sources : Sources τ}
    (hs : s.source < sources.next) (hreach : sources.Reaches s)
    (halike : fresh.Alike (sources.get s.source)) (others : Sources τ) :
    ((fresh.openAt s.position).run others).value = s.relocate others.next ∧
      Sources.AlikeAt s.source others.next sources
        ((fresh.openAt s.position).run others).sources := by
  have hadd := others.next_lt_next_add fresh
  have hopened : Sources.AlikeAt s.source others.next sources (others.add fresh) := by
    refine ⟨hs, hadd, ?_⟩
    rw [Sources.get_add_next]
    exact halike.symm
  constructor
  · have hspans := Sources.reaches_iff.mp hreach
    have hthere : (others.add fresh).Spans ⟨others.next, 0⟩ s.position := by
      refine ⟨hspans.le, fun i hle hlt => ?_⟩
      rw [← hopened.token i]
      exact hspans.tokens i hle hlt
    exact Stream.value_skip_start (s := s.relocate others.next) hthere
  · exact hopened.trans (Stream.alike_skip (s := ⟨others.next, 0⟩) s.position hadd).symm

/-! ### Parses of sources that are alike -/

/-- The same outcome **over another source**: the variant, the value, the position of the rest
and the failure stay. -/
def Outcome.relocate (id : Nat) : Outcome τ α → Outcome τ α
  | .ok value rest => .ok value (rest.relocate id)
  | .fail failure => .fail failure
  | .error failure => .error failure

/-- No further on is at the same position. -/
theorem Stream.shift_zero (id : Nat) (s : Stream) : s.shift 0 id = s.relocate id := rfl

theorem Outcome.shift_zero (id : Nat) (outcome : Outcome τ α) :
    outcome.shift 0 id = outcome.relocate id := by
  cases outcome <;> rfl

/-- Of two parses, the second **gives what the first does**, over the source `id`. -/
inductive Mirror (id : Nat) :
    Option (Step τ (Outcome τ α)) → Option (Step τ (Outcome τ α)) → Prop where
  | exhausted : Mirror id none none
  | ended (value : Outcome τ α) (first second : Sources τ) (events events' : List (Event τ)) :
      Mirror id (some ⟨value, first, events⟩) (some ⟨value.relocate id, second, events'⟩)

namespace Mirror

variable {id : Nat} {first second : Option (Step τ (Outcome τ α))}

theorem value_eq (h : Mirror id first second) :
    second.map Step.value = first.map fun step => step.value.relocate id := by
  cases h <;> rfl

end Mirror

variable [Quote τ]

/-- What two sources that are alike become in parses over them is alike. -/
theorem Sources.AlikeAt.course {s : Stream} {id : Nat} {first second : Sources τ}
    (h : Sources.AlikeAt s.source id first second) {step step' : Step τ (Outcome τ α)}
    (hcourse : Course s first step) (hcourse' : Course (s.relocate id) second step') :
    Sources.AlikeAt s.source id step.sources step'.sources :=
  ((hcourse.alike h.first_lt).trans h).trans (hcourse'.alike h.second_lt).symm

/-- **Sources that are alike give the same outcomes**, wherever they are in their stores: one of
them goes on behind no tokens as the other begins. -/
theorem Parser.Composed.mirror {p : Parser τ α} (hp : Composed p) {s : Stream} {id : Nat}
    {first second : Sources τ} (h : Sources.AlikeAt s.source id first second) :
    Mirror id ((p s).run first) ((p (s.relocate id)).run second) := by
  have hshifted := hp.shifted h.continues
  rw [Stream.shift_zero] at hshifted
  generalize (p s).run first = one at hshifted
  generalize (p (s.relocate id)).run second = two at hshifted
  cases hshifted with
  | exhausted => exact .exhausted
  | ended value last last' events events' =>
      rw [Outcome.shift_zero]
      exact .ended value last last' events events'

/-! ### Histories -/

namespace Client

variable {σ : Signature}

/-- **A client leaves the source alike**, whatever it does with its streams. -/
theorem alike_serve [ToString τ] {rules : Rules σ τ} (hrules : rules.Plain) {fuel : Nat}
    {client : Client σ τ β} (hclient : client.Plain) {streams : Nat → Stream} {id : Nat}
    (hstreams : ∀ number, (streams number).source = id) {sources : Sources τ}
    (hid : id < sources.next) {step : Step τ β}
    (h : (client.serve rules fuel streams).run sources = some step) :
    Sources.AlikeAt id id step.sources sources := by
  induction client generalizing streams sources step with
  | done word =>
      obtain rfl := Option.some.inj h
      exact .refl hid
  | head held next ih =>
      rw [serve, Run.run_toRun_bind, Stream.run_head] at h
      obtain ⟨last, hlast, rfl⟩ := Option.map_eq_some_iff.mp h
      have hlook := Sources.AlikeAt.look hid (hstreams held)
      exact (ih _ (hclient _) hstreams hlook.first_lt hlast).trans hlook
  | isEnd held next ih =>
      rw [serve, Run.run_toRun_bind, Stream.run_isEnd] at h
      obtain ⟨last, hlast, rfl⟩ := Option.map_eq_some_iff.mp h
      have hlook := Sources.AlikeAt.look hid (hstreams held)
      exact (ih _ (hclient _) hstreams hlook.first_lt hlast).trans hlook
  | position held next ih => exact ih _ (hclient _) hstreams hid h
  | display held next ih =>
      rw [serve, Run.run_toRun_bind, Stream.run_display] at h
      obtain ⟨last, hlast, rfl⟩ := Option.map_eq_some_iff.mp h
      have hlook := Sources.AlikeAt.look hid (hstreams held)
      exact (ih _ (hclient _) hstreams hlook.first_lt hlast).trans hlook
  | tail held goal next ih =>
      rw [serve, Run.run_toRun_bind, Stream.run_tail] at h
      obtain ⟨last, hlast, rfl⟩ := Option.map_eq_some_iff.mp h
      have hlook := Sources.AlikeAt.look hid (hstreams held)
      have hrest : (if (sources.token (streams held)).isNone then streams held
          else (streams held).advance).source = id := by
        cases (sources.token (streams held)).isNone <;> exact hstreams held
      exact (ih hclient (source_hold hstreams hrest goal) hlook.first_lt hlast).trans hlook
  | clone held goal next ih =>
      exact ih hclient (source_hold hstreams (hstreams held) goal) hid h
  | parse held goal scope g next ih =>
      obtain ⟨hscope, hg, hnext⟩ := hclient
      have hs := hstreams held
      obtain ⟨⟨value, middle, events⟩, last, hfirst, hlast, rfl⟩ := Run.run_bind_eq_some_iff.mp h
      have hcourse := (hg.composed hrules fuel hscope).course hfirst
      have hparse := hcourse.alike (hs ▸ hid)
      rw [hs] at hparse
      refine (ih value (hnext value) ?_ hparse.first_lt hlast).trans hparse
      cases value with
      | ok value rest =>
          exact source_hold hstreams ((hcourse.source_rest rfl).trans hs) goal
      | fail failure => exact hstreams
      | error failure => exact hstreams

/-- So does a client for whom the source is opened. -/
theorem alike_serveOver [ToString τ] {rules : Rules σ τ} (hrules : rules.Plain) {fuel : Nat}
    {client : Client σ τ β} (hclient : client.Plain) {source : Source τ} {sources : Sources τ}
    {past : Step τ β} (h : (client.serveOver rules fuel source).run sources = some past) :
    sources.next < past.sources.next ∧ (past.sources.get sources.next).Alike source := by
  rw [serveOver, Run.run_toRun_bind] at h
  obtain ⟨last, hlast, rfl⟩ := Option.map_eq_some_iff.mp h
  have hserved : Sources.AlikeAt sources.next sources.next last.sources (sources.add source) :=
    alike_serve hrules hclient (fun _ => rfl) (sources.next_lt_next_add source) hlast
  have halike := hserved.alike
  rw [Sources.get_add_next] at halike
  exact ⟨hserved.first_lt, halike⟩

end Client

/-! ### Parses after histories -/

/-- A parse gives outcomes over its own source. -/
theorem Course.relocate_eq {s : Stream} {sources : Sources τ} {step : Step τ (Outcome τ α)}
    (h : Course s sources step) : step.value.relocate s.source = step.value := by
  cases hvalue : step.value with
  | ok value rest =>
      rw [← h.source_rest hvalue]
      rfl
  | fail failure => rfl
  | error failure => rfl

/-- **Results do not depend on history.** After a client has done what it liked with streams over
a source, a parse at any position of the source gives what it gives over a new source of the
same tokens and settings, opened in any store and advanced to that position: the same
variant, value, position of the rest and failure, or nothing in both cases. And from any
moment on, also within a parse, a parse gives the same whether or not another one over the
same source comes first, however that one ends. -/
theorem Client.outcome_after_history [ToString τ] {σ ρ : Signature} {rules : Rules σ τ}
    (hrules : rules.Plain) {client : Client σ τ β} (hclient : client.Plain)
    {source fresh : Source τ} (htoken : fresh.token = source.token)
    (hconfig : fresh.config = source.config) (hsource : source.depth = 0)
    (hfresh : fresh.depth = 0) {fuel : Nat} {sources : Sources τ} {past : Step τ β}
    (hpast : (client.serveOver rules fuel source).run sources = some past)
    {table : Rules ρ τ} (htable : table.Plain) {scope : Scope ρ τ} (hscope : scope.Plain)
    {g : Grammar ρ τ α} (hg : g.Plain) (more : Nat) :
    (∀ {s : Stream} (others : Sources τ), s.source = sources.next → past.sources.Reaches s →
      let opened := (fresh.openAt s.position).run others
      opened.value.position = s.position ∧
        ((Grammar.parser table more scope g opened.value).run opened.sources).map Step.value =
          ((Grammar.parser table more scope g s).run past.sources).map fun step =>
            step.value.relocate opened.value.source) ∧
    ∀ {γ : Type} {before : Grammar ρ τ γ} {home : Scope ρ τ} {less : Nat} {s t : Stream}
      {store : Sources τ} {first : Step τ (Outcome τ γ)}, before.Plain → home.Plain →
      s.source < store.next → t.source = s.source →
      (Grammar.parser table less home before t).run store = some first →
      ((Grammar.parser table more scope g s).run first.sources).map Step.value =
        ((Grammar.parser table more scope g s).run store).map Step.value := by
  have hp := hg.composed htable more hscope
  constructor
  · intro s others hs hreach opened
    -- The history left the source as it was when it was opened, and so like the new one.
    obtain ⟨hlt, halike⟩ := alike_serveOver hrules hclient hpast
    rw [← hs] at hlt halike
    have hnew : fresh.Alike source := ⟨htoken, hconfig, hfresh.trans hsource.symm⟩
    obtain ⟨hvalue, hopened⟩ := Source.alike_openAt hlt hreach (hnew.trans halike.symm) others
    have hplace : opened.value = s.relocate others.next := hvalue
    rw [hplace]
    exact ⟨rfl, (hp.mirror hopened).value_eq⟩
  · intro γ before home less s t store first hbefore hhome hs ht hfirst
    have hcourse := (hbefore.composed htable less hhome).course hfirst
    have hkept := hcourse.alike (ht ▸ hs)
    rw [ht] at hkept
    have hmirror := (hp.mirror hkept.symm).value_eq
    refine hmirror.trans (Option.map_congr fun step hstep => ?_)
    exact (hp.course hstep).relocate_eq

/-- The visitor runs into a limit of one level on a lazy source. The brackets behind the first token
are parsed afterwards as over a new buffered source. -/
theorem Brackets.outcome_after_history_limit :
    ∃ past, (visitor.serveOver rules 5 (.lazy supply { maxDepth := some 1 })).run {} = some past ∧
      past.value = (none, some true, some false) ∧
      ((Grammar.parser rules 5 .empty grammar ⟨0, 1⟩).run past.sources).map
        (fun step => step.value.relocate 0) = some (.ok 0 ⟨0, 1⟩) := by
  have hrun : ((visitor.serveOver rules 5 (.lazy supply { maxDepth := some 1 })).run {}).map
      (fun past => (past.value, ((Stream.start.skip 1).run past.sources).value)) =
        some ((none, some true, some false), ⟨0, 1⟩) := by decide +kernel
  obtain ⟨past, hpast, hseen⟩ := Option.map_eq_some_iff.mp hrun
  obtain ⟨hvalue, hskip⟩ := Prod.mk.inj hseen
  have hvisitor : visitor.Plain := ⟨trivial, plain_grammar, fun _ _ => fun _ => trivial⟩
  have htoken := (Source.token_lazy (show supply 2 = none from rfl) { maxDepth := some 1 }).symm
  obtain ⟨-, hsame⟩ := (Client.outcome_after_history plain_rules hvisitor htoken rfl rfl rfl hpast
    plain_rules plain_scope plain_grammar 5).1 (s := ⟨0, 1⟩) {} rfl ⟨1, hskip⟩
  refine ⟨past, hpast, hvalue, hsame.symm.trans ?_⟩
  decide +kernel

end Backtrack
