import Backtrack.Proofs.Requests

/-!
# Tokens Nobody Looked At

What lies beyond the furthest position inspected cannot influence a result: it has not even been
asked for. Two sources that answer alike up to there are told apart by nobody who stays within
that bound, and how far somebody goes is itself decided by the answers so far. The two runs are
therefore kept together step by step, as long as the first one stays below the bound.

## Main definitions

* `Sources.AgreeBelow`: two stores whose sources show the same tokens below a bound.
* `Run.Follows`: a run that ends alike on such stores if it stays below the bound.

## Main results

* `Memo.token_new_congr`: the token at a position depends on the answers up to there.
* `Run.Follows.bind`: runs that follow can be gone on with.
* `Parser.Composed.follows`, `Client.follows`: every parser and every client follows.
* `Client.uninspected`: answers beyond the requests made are without influence.
-/

namespace Backtrack

variable {τ α β : Type}

/-! ### Answers and tokens -/

namespace Memo

/-- Supplies with the same first answers have the same opening. -/
theorem opening_congr {supply other : Nat → Option τ} {n : Nat}
    (h : ∀ i < n, other i = supply i) : opening other n = opening supply n := by
  induction n generalizing supply other with
  | zero => rfl
  | succ n ih =>
      have hrest : ∀ i < n, other (i + 1) = supply (i + 1) := fun i hi =>
        h (i + 1) (Nat.succ_lt_succ hi)
      rw [opening, opening, h 0 (Nat.succ_pos n), ih hrest]

/-- A new memory whose supply has answered `none` shows the tokens before that. -/
theorem token_new_of_eq_none {supply : Nat → Option τ} {n : Nat} (h : supply n = none) (i : Nat) :
    ({ supply } : Memo τ).token i = (opening supply n)[i]? :=
  token_new (fun _ hi => opening_spec h hi) i

/-- **The token at a position depends on the answers up to there.** -/
theorem token_new_congr {supply other : Nat → Option τ} {i : Nat}
    (h : ∀ j ≤ i, other j = supply j) :
    ({ supply := other } : Memo τ).token i = ({ supply } : Memo τ).token i := by
  by_cases htokens : ∀ j < i, supply j ≠ none
  · have hothers : ∀ j < i, other j ≠ none := by
      intro j hj
      rw [h j (Nat.le_of_lt hj)]
      exact htokens j hj
    rw [token_new_of_tokens htokens, token_new_of_tokens hothers, h i (Nat.le_refl i)]
  · -- The supplies end before that position, both in the same place.
    simp only [ne_eq, Classical.not_forall, Classical.not_not] at htokens
    obtain ⟨j, hj, hnone⟩ := htokens
    have hother : other j = none := (h j (Nat.le_of_lt hj)).trans hnone
    have hopening : opening other j = opening supply j :=
      opening_congr fun k hk => h k (Nat.le_of_lt (Nat.lt_trans hk hj))
    rw [token_new_of_eq_none hnone, token_new_of_eq_none hother, hopening]

end Memo

/-! ### Stores that agree below a bound -/

/-- Stores whose source `id` has **the same tokens below the bound**, the same settings and the same
counter. -/
structure Sources.AgreeBelow (bound id : Nat) (first second : Sources τ) : Prop where
  first_lt : id < first.next
  second_lt : id < second.next
  token_eq : ∀ i < bound, (second.get id).token i = (first.get id).token i
  config_eq : (second.get id).config = (first.get id).config
  depth_eq : (second.get id).depth = (first.get id).depth

namespace Sources.AgreeBelow

variable {bound id : Nat} {first second : Sources τ}

/-- A stream below the bound shows the same token in both. -/
theorem token (h : AgreeBelow bound id first second) {s : Stream} (hs : s.source = id)
    (hlt : s.position < bound) : second.token s = first.token s := by
  subst hs
  exact h.token_eq s.position hlt

/-- A change that makes equal counters of equal counters keeps the counters equal. -/
private theorem depth_modify (h : AgreeBelow bound id first second) (f : Source τ → Source τ)
    (hf : ∀ {source other : Source τ}, other.depth = source.depth →
      (f other).depth = (f source).depth) (place : Nat) :
    ((second.modify place f).get id).depth = ((first.modify place f).get id).depth := by
  by_cases hplace : place = id
  · subst hplace
    rw [Sources.get_modify_self h.first_lt, Sources.get_modify_self h.second_lt]
    exact hf h.depth_eq
  · rw [Sources.get_modify_of_ne hplace, Sources.get_modify_of_ne hplace]
    exact h.depth_eq

/-- After the same event, the stores agree as before. -/
theorem effect (h : AgreeBelow bound id first second) (event : Event τ) :
    AgreeBelow bound id (first.effect event) (second.effect event) := by
  refine ⟨?_, ?_, fun i hi => ?_, ?_, ?_⟩
  · rw [Sources.next_effect]
    exact h.first_lt
  · rw [Sources.next_effect]
    exact h.second_lt
  · rw [Sources.token_effect, Sources.token_effect]
    exact h.token_eq i hi
  · rw [Sources.config_effect, Sources.config_effect]
    exact h.config_eq
  · cases event with
    | inspected place =>
        exact h.depth_modify (·.look place.position) (fun hdepth => hdepth) place.source
    | descended place depth => exact h.depth_modify .enter (congrArg (· + 1)) place.source
    | ascended place depth => exact h.depth_modify .leave (congrArg (· - 1)) place.source
    | _ => exact h.depth_eq

end Sources.AgreeBelow

/-! ### Runs below the bound -/

theorem Act.toRun_bind (act : Act τ α) (f : α → Act τ β) :
    (act >>= f).toRun = act.toRun >>= fun a => (f a).toRun := by
  refine Run.ext_run fun sources => ?_
  rw [Run.run_toRun, Run.run_toRun_bind, Run.run_toRun]
  rfl

theorem Act.toRun_emit (event : Event τ) : (Act.emit event).toRun = Run.emit event :=
  Run.ext_run fun _ => rfl

/-- A run **follows below the bound**: if it ends without a look at the bound or beyond, it ends
alike on every store that agrees below the bound, where it leaves stores that agree again. Its
result has the property `P`. -/
def Run.Follows (bound id : Nat) (P : α → Prop) (r : Run τ α) : Prop :=
  ∀ ⦃first second : Sources τ⦄ ⦃step : Step τ α⦄, Sources.AgreeBelow bound id first second →
    r.run first = some step → Inspects (fun place => place.position < bound) step.events →
    P step.value ∧ ∃ last, r.run second = some ⟨step.value, last, step.events⟩ ∧
      Sources.AgreeBelow bound id step.sources last

namespace Run.Follows

variable {bound id : Nat} {P : α → Prop} {Q : β → Prop} {s : Stream}

theorem exhausted : Follows bound id P (exhausted : Run τ α) := by
  intro first second step _ hrun
  cases hrun

theorem pure {a : α} (ha : P a) : Follows bound id P (pure a : Run τ α) := by
  intro first second step h hrun _
  obtain rfl := Option.some.inj hrun
  exact ⟨ha, second, rfl, h⟩

theorem emit (event : Event τ) : Follows bound id (fun _ => True) (emit event) := by
  intro first second step h hrun _
  obtain rfl := Option.some.inj hrun
  exact ⟨trivial, second, rfl, h⟩

theorem note (texts : List String) :
    Follows bound id (fun _ => True) (note texts : Run τ Unit) := by
  intro first second step h hrun _
  rw [Run.note, run_toRun] at hrun ⊢
  obtain rfl := Option.some.inj hrun
  exact ⟨trivial, second, rfl, h⟩

/-- **Runs that follow can be gone on with** by runs that follow. -/
theorem bind {r : Run τ α} {f : α → Run τ β} (hr : Follows bound id P r)
    (hf : ∀ a, P a → Follows bound id Q (f a)) : Follows bound id Q (r >>= f) := by
  intro first second step h hrun hbelow
  obtain ⟨before, after, hbefore, hafter, rfl⟩ := run_bind_eq_some_iff.mp hrun
  obtain ⟨hearlier, hlater⟩ := inspects_append.mp hbelow
  obtain ⟨hP, middle, hmiddle, hagree⟩ := hr h hbefore hearlier
  obtain ⟨hQ, last, hlast, hend⟩ := hf _ hP hagree hafter hlater
  exact ⟨hQ, last, run_bind_eq_some_iff.mpr ⟨_, _, hmiddle, hlast, rfl⟩, hend⟩

/-- An operation that answers from the token of a stream follows. -/
theorem look {act : Act τ α} (answer : Option τ → α) (hs : s.source = id)
    (hact : ∀ sources : Sources τ,
      act.run sources = ⟨answer (sources.token s), sources.look s, [.inspected s]⟩)
    (hP : ∀ token, P (answer token)) : Follows bound id P act.toRun := by
  intro first second step h hrun hbelow
  rw [run_toRun, hact] at hrun
  obtain rfl := Option.some.inj hrun
  have htoken := h.token hs (hbelow s List.mem_cons_self)
  refine ⟨hP _, second.look s, ?_, h.effect (.inspected s)⟩
  rw [run_toRun, hact, htoken]

theorem head (hs : s.source = id) : Follows bound id (fun _ => True) (s.head : Act τ _).toRun :=
  look (fun token => token) hs (Stream.run_head s) fun _ => trivial

theorem isEnd (hs : s.source = id) : Follows bound id (fun _ => True) (s.isEnd : Act τ _).toRun :=
  look Option.isNone hs (Stream.run_isEnd s) fun _ => trivial

theorem display [ToString τ] (hs : s.source = id) :
    Follows bound id (fun _ => True) (s.display : Act τ _).toRun := by
  refine look (fun token => token.elim "[END]" fun token => "[" ++ toString token ++ ", ...]")
    hs (fun sources => ?_) fun _ => trivial
  rw [Stream.run_display]
  cases sources.token s <;> rfl

theorem here (message : String) (hs : s.source = id) :
    Follows bound id (fun _ => True) (Failure.here message s : Act τ _).toRun :=
  look (fun token => ⟨message, token, s.position⟩) hs (Failure.run_here message s) fun _ => trivial

/-- The tail of a stream is over the same source. -/
theorem tail (hs : s.source = id) :
    Follows bound id (fun rest => rest.source = id) (s.tail : Act τ _).toRun := by
  refine look (fun token => if token.isNone then s else s.advance) hs (Stream.run_tail s) ?_
  intro token
  cases token <;> exact hs

/-- To ask for the settings follows. -/
theorem config (hs : s.source = id) :
    Follows bound id (fun _ => True) (s.config : Act τ _).toRun := by
  intro first second step h hrun _
  subst hs
  rw [run_toRun, Stream.run_config] at hrun ⊢
  obtain rfl := Option.some.inj hrun
  rw [h.config_eq]
  exact ⟨trivial, second, rfl, h⟩

/-- A level of references is entered in both runs or in neither. -/
theorem descend (hs : s.source = id) :
    Follows bound id (fun _ => True) (s.descend : Act τ _).toRun := by
  intro first second step h hrun _
  subst hs
  rw [run_toRun, Stream.run_descend] at hrun ⊢
  rw [h.config_eq, h.depth_eq]
  cases hadmits : (first.get s.source).config.admits (first.get s.source).depth with
  | error limit =>
      rw [hadmits] at hrun
      obtain rfl := Option.some.inj hrun
      exact ⟨trivial, second, rfl, h⟩
  | ok _ =>
      rw [hadmits] at hrun
      obtain rfl := Option.some.inj hrun
      exact ⟨trivial, _, rfl, h.effect (.descended s 0)⟩

/-- A level of references is left in both runs, with the same counter. -/
theorem ascend (hs : s.source = id) :
    Follows bound id (fun _ => True) (s.ascend : Act τ _).toRun := by
  intro first second step h hrun _
  subst hs
  have hleft := h.effect (.ascended s 0)
  have hdepth : ((second.modify s.source .leave).get s.source).depth =
      ((first.modify s.source .leave).get s.source).depth := hleft.depth_eq
  rw [run_toRun, Stream.run_ascend] at hrun ⊢
  obtain rfl := Option.some.inj hrun
  rw [hdepth]
  exact ⟨trivial, _, rfl, hleft⟩

end Run.Follows

/-! ### Parsers below the bound -/

namespace Run.Follows

variable {bound id : Nat} {s : Stream}

theorem refuse (limit : Nat) (hs : s.source = id) :
    Follows bound id (Outcome.Within (·.source = id))
      (Parser.refuse limit s : Act τ (Outcome τ α)).toRun := by
  rw [Parser.refuse, Act.toRun_bind, Act.toRun_emit]
  refine (emit _).bind fun _ _ => ?_
  rw [Act.toRun_bind]
  exact (here _ hs).bind fun failure _ => .pure trivial

theorem stall (items : List α) (hs : s.source = id) :
    Follows bound id (Outcome.Within (·.source = id)) (Parser.stall items s : Act τ _).toRun := by
  rw [Parser.stall, Act.toRun_bind]
  refine (config hs).bind fun settings _ => ?_
  rw [Act.toRun_bind, Act.toRun_emit]
  refine (emit _).bind fun _ _ => ?_
  cases settings.repetition with
  | stop => exact .pure hs
  | error =>
      simp only [Act.toRun_bind]
      exact (here _ hs).bind fun failure _ => .pure trivial

end Run.Follows

section

variable [Quote τ]

/-- **Every composed parser follows**, whatever the bound. -/
theorem Parser.Composed.follows {p : Parser τ α} (hp : Composed p) (bound : Nat) {s : Stream}
    {id : Nat} (hs : s.source = id) : (p s).Follows bound id (Outcome.Within (·.source = id)) := by
  induction hp generalizing s with
  | exhausted => exact .exhausted
  | succeed value => exact .pure hs
  | fail message =>
      exact (Run.Follows.here message hs).bind fun failure _ => .pure trivial
  | satisfy expected test =>
      refine (Run.Follows.head hs).bind fun token _ => ?_
      cases token with
      | none => exact .pure trivial
      | some token =>
          refine (Run.Follows.emit _).bind fun _ _ => (Run.Follows.note _).bind fun _ _ => ?_
          by_cases ha : test.accepts token = true
          · simp only [ha, if_true]
            exact (Run.Follows.tail hs).bind fun rest hrest => .pure hrest
          · simp only [ha]
            exact .pure trivial
  | eof =>
      refine (Run.Follows.head hs).bind fun token _ => ?_
      cases token with
      | none => exact .pure hs
      | some token => exact .pure trivial
  | unusable phase message =>
      refine (Run.Follows.emit _).bind fun _ _ => ?_
      exact (Run.Follows.here message hs).bind fun failure _ => .pure trivial
  | calling callee _ ih => exact (Run.Follows.emit _).bind fun _ _ => ih hs
  | sequel _ _ ihp ihnext =>
      refine (ihp hs).bind fun outcome hrest => ?_
      cases outcome with
      | ok value rest => exact ihnext value hrest
      | fail failure => exact .pure trivial
      | error failure => exact .pure trivial
  | orElse _ _ ihp ihq =>
      refine (ihp hs).bind fun outcome hrest => ?_
      cases outcome with
      | ok value rest => exact .pure hrest
      | fail failure => exact ihq hs
      | error failure => exact .pure trivial
  | label name _ ih =>
      refine (ih hs).bind fun outcome hrest => ?_
      cases outcome <;> exact .pure hrest
  | commit _ ih =>
      refine (ih hs).bind fun outcome hrest => ?_
      cases outcome with
      | fail failure => exact (Run.Follows.emit _).bind fun _ _ => .pure trivial
      | _ => exact .pure hrest
  | nested _ ih =>
      refine (Run.Follows.descend hs).bind fun room _ => ?_
      cases room with
      | error limit => exact .refuse limit hs
      | ok _ =>
          exact (ih hs).bind fun outcome hrest =>
            (Run.Follows.ascend hs).bind fun _ _ => .pure hrest
  | attempt items _ _ ihp ihnext =>
      refine (ihp hs).bind fun outcome hrest => ?_
      cases outcome with
      | ok item rest =>
          by_cases hstuck : rest.position = s.position
          · simp only [hstuck, if_true]
            exact .stall items hs
          · simp only [hstuck, if_false]
            exact ihnext item hrest
      | fail failure => exact .pure hs
      | error failure => exact .pure trivial
  | observed _ ih =>
      refine (Run.Follows.emit _).bind fun _ _ => (ih hs).bind fun outcome hrest => ?_
      exact (Run.Follows.emit _).bind fun _ _ => .pure hrest

end

/-! ### Clients below the bound -/

namespace Client

variable {σ : Signature}

/-- A client who **advances `k` times and parses** where that leads. -/
def parseAt {α : Type} (scope : Scope σ τ) (g : Grammar σ τ α) : Nat → Client σ τ (Outcome τ α)
  | 0 => .parse 0 0 scope g .done
  | k + 1 => .tail 0 0 (parseAt scope g k)

/-- This client is one of plain grammars if the grammar is plain. -/
theorem plain_parseAt {α : Type} {scope : Scope σ τ} (hscope : scope.Plain) {g : Grammar σ τ α}
    (hg : g.Plain) (k : Nat) : (parseAt scope g k).Plain := by
  induction k with
  | zero => exact ⟨hscope, hg, fun _ => trivial⟩
  | succ k ih => exact ih

variable [Quote τ] [ToString τ]

/-- **Every client of plain grammars is followed**, whatever the bound. -/
theorem follows {rules : Rules σ τ} (hrules : rules.Plain) (fuel : Nat) {client : Client σ τ β}
    (hclient : client.Plain) (bound : Nat) {streams : Nat → Stream} {id : Nat}
    (hstreams : ∀ number, (streams number).source = id) :
    (client.serve rules fuel streams).Follows bound id fun _ => True := by
  induction client generalizing streams with
  | done word => exact .pure trivial
  | head held next ih =>
      exact (Run.Follows.head (hstreams held)).bind fun token _ => ih token (hclient token) hstreams
  | isEnd held next ih =>
      exact (Run.Follows.isEnd (hstreams held)).bind fun ended _ =>
        ih ended (hclient ended) hstreams
  | position held next ih => exact ih _ (hclient _) hstreams
  | display held next ih =>
      exact (Run.Follows.display (hstreams held)).bind fun text _ =>
        ih text (hclient text) hstreams
  | tail held goal next ih =>
      exact (Run.Follows.tail (hstreams held)).bind fun rest hrest =>
        ih hclient (source_hold hstreams hrest goal)
  | clone held goal next ih => exact ih hclient (source_hold hstreams (hstreams held) goal)
  | parse held goal scope g next ih =>
      obtain ⟨hscope, hg, hnext⟩ := hclient
      refine ((hg.composed hrules fuel hscope).follows bound (hstreams held)).bind ?_
      intro outcome hrest
      cases outcome with
      | ok value rest => exact ih _ (hnext _) (source_hold hstreams hrest goal)
      | fail failure => exact ih _ (hnext _) hstreams
      | error failure => exact ih _ (hnext _) hstreams

/-- **Whatever a client does keeps**, as operations do. -/
theorem kept {rules : Rules σ τ} (hrules : rules.Plain) {fuel : Nat} {client : Client σ τ β}
    (hclient : client.Plain) {streams : Nat → Stream} {id : Nat} {sources : Sources τ}
    (hheld : ∀ number, sources.Leads ⟨id, 0⟩ (streams number)) {step : Step τ β}
    (hrun : (client.serve rules fuel streams).run sources = some step) :
    ∃ later, Kept id sources later step.sources step.events := by
  induction client generalizing streams sources step with
  | done word =>
      obtain rfl := Option.some.inj hrun
      exact ⟨streams, .idle hheld⟩
  | head held next ih =>
      have hlook := Kept.look hheld held hheld
      rw [serve, Run.run_toRun_bind, Stream.run_head] at hrun
      obtain ⟨rest, hrest, rfl⟩ := Option.map_eq_some_iff.mp hrun
      obtain ⟨later, hlater⟩ := ih _ (hclient _) hlook.held_after hrest
      exact ⟨later, hlook.trans hlater⟩
  | isEnd held next ih =>
      have hlook := Kept.look hheld held hheld
      rw [serve, Run.run_toRun_bind, Stream.run_isEnd] at hrun
      obtain ⟨rest, hrest, rfl⟩ := Option.map_eq_some_iff.mp hrun
      obtain ⟨later, hlater⟩ := ih _ (hclient _) hlook.held_after hrest
      exact ⟨later, hlook.trans hlater⟩
  | position held next ih => exact ih _ (hclient _) hheld hrun
  | display held next ih =>
      have hlook := Kept.look hheld held hheld
      rw [serve, Run.run_toRun_bind, Stream.run_display] at hrun
      obtain ⟨rest, hrest, rfl⟩ := Option.map_eq_some_iff.mp hrun
      obtain ⟨later, hlater⟩ := ih _ (hclient _) hlook.held_after hrest
      exact ⟨later, hlook.trans hlater⟩
  | tail held goal next ih =>
      have htail := Kept.tail hheld held goal
      rw [serve, Run.run_toRun_bind, Stream.run_tail] at hrun
      obtain ⟨rest, hrest, rfl⟩ := Option.map_eq_some_iff.mp hrun
      obtain ⟨later, hlater⟩ := ih hclient htail.held_after hrest
      exact ⟨later, htail.trans hlater⟩
  | clone held goal next ih => exact ih hclient (Kept.hold hheld (hheld held) goal) hrun
  | parse held goal scope g next ih =>
      obtain ⟨hscope, hg, hnext⟩ := hclient
      obtain ⟨first, rest, hfirst, hrest, rfl⟩ := Run.run_bind_eq_some_iff.mp hrun
      have hparse := Kept.parse hheld ((hg.composed hrules fuel hscope).course hfirst) goal
      obtain ⟨later, hlater⟩ := ih _ (hnext _) hparse.held_after hrest
      exact ⟨later, hparse.trans hlater⟩

/-- What a client does with a new source. -/
theorem run_serveOver (rules : Rules σ τ) (fuel : Nat) (client : Client σ τ β) (source : Source τ)
    (sources : Sources τ) :
    (client.serveOver rules fuel source).run sources =
      (client.serve rules fuel fun _ => ⟨sources.next, 0⟩).run (sources.add source) := by
  rw [serveOver, Run.run_toRun_bind]
  exact Step.map_after_nil _

/-- **Over a source that shows the same tokens below the bound**, a client who stays there does the
same. -/
theorem serveOver_follows {rules : Rules σ τ} (hrules : rules.Plain) {fuel : Nat}
    {client : Client σ τ β} (hclient : client.Plain) {first second : Source τ}
    {sources : Sources τ} {step : Step τ β}
    (hrun : (client.serveOver rules fuel first).run sources = some step)
    (htoken : ∀ i < Event.extent step.events, second.token i = first.token i)
    (hconfig : second.config = first.config) (hdepth : second.depth = first.depth) :
    ∃ last, (client.serveOver rules fuel second).run sources =
      some ⟨step.value, last, step.events⟩ := by
  have hagree : Sources.AgreeBelow (Event.extent step.events) sources.next (sources.add first)
      (sources.add second) := by
    refine ⟨sources.next_lt_next_add _, sources.next_lt_next_add _, ?_, ?_, ?_⟩ <;>
      rw [Sources.get_add_next, Sources.get_add_next] <;> assumption
  have hbelow := Event.extent_le_iff.mp (Nat.le_refl (Event.extent step.events))
  rw [run_serveOver] at hrun ⊢
  have hfollows := follows hrules fuel hclient (Event.extent step.events) fun _ : Nat =>
    show (⟨sources.next, 0⟩ : Stream).source = sources.next from rfl
  obtain ⟨-, last, hlast, -⟩ := hfollows hagree hrun hbelow
  exact ⟨last, hlast⟩

/-- A client makes a new lazy source ask for the positions inspected, and for no others. -/
theorem requests_serveOver {rules : Rules σ τ} (hrules : rules.Plain) {fuel : Nat}
    {client : Client σ τ β} (hclient : client.Plain) {supply : Nat → Option τ} {config : Config}
    {sources : Sources τ} {step : Step τ β}
    (hrun : (client.serveOver rules fuel (.lazy supply config)).run sources = some step) :
    (step.sources.get sources.next).tape.requests = Event.extent step.events := by
  rw [run_serveOver] at hrun
  obtain ⟨later, hkept⟩ := kept hrules hclient (fun _ => .refl _ _) hrun
  exact hkept.answered.requests_eq

/-- **Tokens that nobody looked at are without influence.** Suppose that a client, whatever the
client does with the streams over a new lazy source, has made it ask for `m` answers. Over every
lazy source with the same first `m` answers, tokens or the end, the client ends with the same word,
after the same events and as many requests. The same word and the same events there are over every
buffered source with these tokens in its first `m` places, and so over any two of them. -/
theorem uninspected {rules : Rules σ τ} (hrules : rules.Plain) {fuel : Nat}
    {client : Client σ τ β} (hclient : client.Plain) {supply : Nat → Option τ} {config : Config}
    {sources : Sources τ} {step : Step τ β}
    (hrun : (client.serveOver rules fuel (.lazy supply config)).run sources = some step) {m : Nat}
    (hm : (step.sources.get sources.next).tape.requests = m) :
    (∀ other : Nat → Option τ, (∀ i < m, other i = supply i) →
      ∃ last, (client.serveOver rules fuel (.lazy other config)).run sources =
        some ⟨step.value, last, step.events⟩ ∧ (last.get sources.next).tape.requests = m) ∧
    ∀ tokens : List τ, (∀ i < m, tokens[i]? = supply i) →
      ∃ last, (client.serveOver rules fuel (.buffered tokens config)).run sources =
        some ⟨step.value, last, step.events⟩ := by
  have hextent := requests_serveOver hrules hclient hrun
  rw [hm] at hextent
  subst hextent
  -- Below the requests made, the tokens of a source are settled by the answers.
  have htoken : ∀ {other : Nat → Option τ},
      (∀ i < Event.extent step.events, other i = supply i) →
      ∀ i < Event.extent step.events,
        (Source.lazy other config).token i = (Source.lazy supply config).token i :=
    fun hother i hi => Memo.token_new_congr fun j hj => hother j (Nat.lt_of_le_of_lt hj hi)
  constructor
  · intro other hother
    obtain ⟨last, hlast⟩ := serveOver_follows hrules hclient hrun (htoken hother) rfl rfl
    exact ⟨last, hlast, requests_serveOver hrules hclient hlast⟩
  · intro tokens htokens
    refine serveOver_follows hrules hclient hrun (fun i hi => ?_) rfl rfl
    have hbuffered : (Source.buffered tokens config).token i = tokens[i]? := List.getElem?_toArray
    have hlazy : (Source.lazy (fun i => tokens[i]?) config).token i = tokens[i]? :=
      Memo.token_new (fun _ _ => rfl) i
    rw [hbuffered, ← hlazy]
    exact htoken htokens i hi

end Client

/-- Two opening brackets, and closing ones for ever. -/
def Brackets.endless : Nat → Option Bool := fun i => some (decide (i < 2))

/-- A pair of brackets behind an opening one takes three requests. So it is parsed alike where the
supply ends after these. -/
theorem Brackets.uninspected_pair :
    ∃ step, ((Client.parseAt .empty grammar 1).serveOver rules 5
        (.lazy endless .standard)).run {} = some step ∧
      step.value = .ok 1 ⟨0, 3⟩ ∧
      ∃ last, ((Client.parseAt .empty grammar 1).serveOver rules 5
          (.lazy (fun i => if i < 3 then endless i else none) .standard)).run {} =
        some ⟨.ok 1 ⟨0, 3⟩, last, step.events⟩ ∧ (last.get 0).tape.requests = 3 := by
  have hrun : (((Client.parseAt .empty grammar 1).serveOver rules 5
      (.lazy endless .standard)).run {}).map
        (fun step => (step.value, (step.sources.get 0).tape.requests)) =
      some (.ok 1 ⟨0, 3⟩, 3) := by
    decide +kernel
  obtain ⟨step, hstep, hseen⟩ := Option.map_eq_some_iff.mp hrun
  obtain ⟨hvalue, hrequests⟩ := Prod.mk.inj hseen
  have hclient := Client.plain_parseAt plain_scope plain_grammar 1
  obtain ⟨hlazy, -⟩ := Client.uninspected plain_rules hclient hstep hrequests
  obtain ⟨last, hlast, hsame⟩ := hlazy (fun i => if i < 3 then endless i else none)
    fun i hi => if_pos hi
  rw [hvalue] at hlast
  exact ⟨step, hstep, hvalue, last, hlast, hsame⟩

end Backtrack
