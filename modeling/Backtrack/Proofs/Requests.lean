import Backtrack.Proofs.Position

/-!
# Requests of a Lazy Source

A lazy source asks its supply for no more than it is made to. Whoever looks at a position makes
it ask for the tokens up to there that it does not remember yet, so after any history the number
of requests is one more than the furthest position anybody looked at. The first answer of `none`
is the last request ever made. All streams over the source share one memory, and they are
looked at in any order, from operations and from within parses alike.

The state after `n` requests is fixed by the supply and by `n`. What a history adds to `n` is
read off its events, since the store after a history is the replay of its events.

## Main definitions

* `Memo.Answered`: the memory after `n` requests.
* `Event.extent`: one more than the furthest position inspected among events.
* `Operation`: the operations on streams, with what each answers.
* `Usage`: what can have been done with the streams over a source.

## Main results

* `Memo.Answered.fill`: a look asks for what is missing and nothing else.
* `Course.inspected`: a parse looks only where tokens lead.
* `Kept.answered`: the requests are those for the positions inspected.
* `Usage.kept`: the state after any usage, told by its events.
* `Usage.exact_pulling`: the number of requests, and all that they brought.
-/

namespace Backtrack

variable {τ α : Type}

/-! ### A memory and its requests -/

namespace Memo

/-- The opening of one request more, as long as all before were answered with tokens. -/
theorem opening_succ {supply : Nat → Option τ} {n : Nat} (h : ∀ i < n, supply i ≠ none) :
    opening supply (n + 1) = opening supply n ++ (supply n).toList := by
  induction n generalizing supply with
  | zero => cases hfirst : supply 0 <;> simp [opening, hfirst]
  | succ n ih =>
      have hrest : ∀ i < n, supply (i + 1) ≠ none := fun i hi => h (i + 1) (Nat.succ_lt_succ hi)
      rw [opening, ih hrest]
      cases hfirst : supply 0 with
      | none => exact absurd hfirst (h 0 (Nat.succ_pos n))
      | some token => simp [opening, hfirst]

/-- Where all requests were answered with tokens, the opening has them all. -/
theorem length_opening {supply : Nat → Option τ} {n : Nat} (h : ∀ i < n, supply i ≠ none) :
    (opening supply n).length = n := by
  induction n with
  | zero => rfl
  | succ n ih =>
      obtain ⟨token, htoken⟩ := Option.ne_none_iff_exists'.mp (h n (Nat.lt_succ_self n))
      have hbefore : ∀ i < n, supply i ≠ none := fun i hi => h i (Nat.lt_succ_of_lt hi)
      rw [opening_succ hbefore, List.length_append, ih hbefore, htoken]
      rfl

/-- Behind tokens only, the opening shows the answer of the supply. -/
theorem getElem?_opening {supply : Nat → Option τ} {n i : Nat} (hi : i < n)
    (h : ∀ j < i, supply j ≠ none) : (opening supply n)[i]? = supply i := by
  induction n generalizing supply i with
  | zero => exact absurd hi (Nat.not_lt_zero i)
  | succ n ih =>
      rw [opening]
      cases i with
      | zero => cases supply 0 <;> rfl
      | succ i =>
          obtain ⟨token, htoken⟩ := Option.ne_none_iff_exists'.mp (h 0 (Nat.succ_pos i))
          have hrest : ∀ j < i, supply (j + 1) ≠ none := fun j hj => h (j + 1) (Nat.succ_lt_succ hj)
          rw [htoken, List.getElem?_cons_succ]
          exact ih (Nat.lt_of_succ_lt_succ hi) hrest

/-- The opening has every token that was given before the first `none`. -/
theorem lt_length_opening {supply : Nat → Option τ} {n i : Nat} (hi : i < n)
    (h : ∀ j ≤ i, supply j ≠ none) : i < (opening supply n).length := by
  induction n generalizing supply i with
  | zero => exact absurd hi (Nat.not_lt_zero i)
  | succ n ih =>
      obtain ⟨token, htoken⟩ := Option.ne_none_iff_exists'.mp (h 0 (Nat.zero_le i))
      rw [opening, htoken, List.length_cons]
      cases i with
      | zero => exact Nat.succ_pos _
      | succ i =>
          have hrest := ih (Nat.lt_of_succ_lt_succ hi) fun j hj => h (j + 1) (Nat.succ_le_succ hj)
          exact Nat.succ_lt_succ hrest

/-- The memory of a lazy source **after `n` requests** of its supply. -/
structure Answered (memo : Memo τ) (supply : Nat → Option τ) (n : Nat) : Prop where
  supply_eq : memo.supply = supply
  requests_eq : memo.requests = n
  /-- It remembers the tokens that were given before the first `none`, in order. -/
  buffer_eq : memo.buffer = (opening supply n).toArray
  /-- It has let go of the supply exactly if one of the requests was answered `none`. -/
  released_iff : memo.released = true ↔ ∃ i < n, supply i = none
  /-- And then it was the last one. -/
  none_last : ∀ i, i + 1 < n → supply i ≠ none

/-- Nobody has asked a new memory. -/
theorem answered_new (supply : Nat → Option τ) : ({ supply } : Memo τ).Answered supply 0 := by
  refine ⟨rfl, rfl, rfl, ?_, fun i hi => absurd hi (Nat.not_lt_zero _)⟩
  constructor
  · intro h
    cases h
  · rintro ⟨i, hi, -⟩
    exact absurd hi (Nat.not_lt_zero i)

namespace Answered

variable {memo : Memo τ} {supply : Nat → Option τ} {n i : Nat}

/-- One request more, as long as all before were answered with tokens. -/
theorem pull (h : memo.Answered supply n) (htokens : ∀ i < n, supply i ≠ none) :
    memo.pull.Answered supply (n + 1) := by
  obtain ⟨hsupply, hrequests, hbuffer, hreleased, -⟩ := h
  have hheld : memo.released = false := by
    rw [← Bool.not_eq_true, hreleased]
    rintro ⟨i, hi, hnone⟩
    exact htokens i hi hnone
  have hlast : ∀ i, i + 1 < n + 1 → supply i ≠ none := fun i hi =>
    htokens i (Nat.lt_of_succ_lt_succ hi)
  cases hanswer : supply n with
  | some token =>
      have hpull : memo.pull =
          { memo with buffer := memo.buffer.push token, requests := memo.requests + 1 } := by
        simp [Memo.pull, hheld, hsupply, hrequests, hanswer]
      rw [hpull]
      refine ⟨hsupply, congrArg (· + 1) hrequests, ?_, ?_, hlast⟩
      · simp [hbuffer, opening_succ htokens, hanswer]
      · simp only [hheld, Bool.false_eq_true, false_iff]
        rintro ⟨i, hi, hnone⟩
        rcases Nat.lt_succ_iff_lt_or_eq.mp hi with hi | rfl
        · exact htokens i hi hnone
        · cases hnone.symm.trans hanswer
  | none =>
      have hpull : memo.pull = { memo with requests := memo.requests + 1, released := true } := by
        simp [Memo.pull, hheld, hsupply, hrequests, hanswer]
      rw [hpull]
      refine ⟨hsupply, congrArg (· + 1) hrequests, ?_, ?_, hlast⟩
      · simp [hbuffer, opening_succ htokens, hanswer]
      · exact iff_of_true rfl ⟨n, Nat.lt_succ_self n, hanswer⟩

/-- As many requests more as there are tokens, and one. -/
theorem repeat_pull (h : memo.Answered supply n) (htokens : ∀ j < i, supply j ≠ none) {k : Nat}
    (hk : n + k ≤ i + 1) : (Nat.repeat Memo.pull k memo).Answered supply (n + k) := by
  induction k with
  | zero => exact h
  | succ k ih =>
      have hbefore : ∀ j < n + k, supply j ≠ none := fun j hj => htokens j (by omega)
      exact (ih (by omega)).pull hbefore

/-- **A look at position `i` asks for what is missing** and for nothing else, where tokens lead to
that position. -/
theorem fill (h : memo.Answered supply n) (htokens : ∀ j < i, supply j ≠ none) :
    (memo.fill i).Answered supply (max n (i + 1)) := by
  by_cases hi : i < n
  · -- The position was looked at before: it is remembered, or the supply ended right there.
    have hmax : max n (i + 1) = n := by omega
    have hsame : memo.fill i = memo := by
      cases hanswer : supply i with
      | some token =>
          have hthere : ∀ j ≤ i, supply j ≠ none := by
            intro j hj
            rcases Nat.lt_or_eq_of_le hj with hj | rfl
            · exact htokens j hj
            · rw [hanswer]
              exact Option.some_ne_none token
          refine fill_of_lt ?_
          rw [h.buffer_eq]
          exact lt_length_opening hi hthere
      | none =>
          have hreleased : memo.released = true := h.released_iff.mpr ⟨i, hi, hanswer⟩
          exact repeat_pull_of_released hreleased _
    rw [hmax, hsame]
    exact h
  · have hsize : memo.buffer.size = n := by
      have hlength := length_opening fun j (hj : j < n) => htokens j (by omega)
      rw [h.buffer_eq, List.size_toArray, hlength]
    have hmax : max n (i + 1) = n + (i + 1 - n) := by omega
    rw [hmax, Memo.fill, hsize]
    exact h.repeat_pull htokens (by omega)

end Answered

/-- The token of a new memory at a position to which tokens lead is the answer of the supply. -/
theorem token_new_of_tokens {supply : Nat → Option τ} {i : Nat} (h : ∀ j < i, supply j ≠ none) :
    ({ supply } : Memo τ).token i = supply i := by
  have hfilled := (answered_new supply).fill h
  have hi : i < max 0 (i + 1) := by omega
  rw [token, hfilled.buffer_eq, List.getElem?_toArray, getElem?_opening hi h]

end Memo

/-! ### Positions inspected -/

/-- Whatever is **inspected** among events has the property `P`. -/
def Inspects (P : Stream → Prop) (events : List (Event τ)) : Prop :=
  ∀ place, Event.inspected place ∈ events → P place

section

variable {P Q : Stream → Prop} {event : Event τ} {events xs ys : List (Event τ)}

@[simp]
theorem inspects_nil : Inspects P ([] : List (Event τ)) :=
  fun _ h => absurd h List.not_mem_nil

@[simp]
theorem inspects_cons :
    Inspects P (event :: events) ↔
      (∀ place, event = .inspected place → P place) ∧ Inspects P events := by
  simp only [Inspects, List.mem_cons, or_imp, forall_and, eq_comm (b := event)]

@[simp]
theorem inspects_append : Inspects P (xs ++ ys) ↔ Inspects P xs ∧ Inspects P ys := by
  simp only [Inspects, List.mem_append, or_imp, forall_and]

@[simp]
theorem inspects_noted (texts : List String) :
    Inspects P (texts.map (Event.noted : String → Event τ)) := by
  intro place h
  obtain ⟨text, -, htext⟩ := List.mem_map.mp h
  cases htext

theorem Inspects.mono (h : Inspects P events) (hPQ : ∀ place, P place → Q place) :
    Inspects Q events :=
  fun place hplace => hPQ place (h place hplace)

end

/-- **One more than the furthest position inspected** among events; zero if none was. -/
def Event.extent : List (Event τ) → Nat
  | [] => 0
  | .inspected place :: events => max (place.position + 1) (extent events)
  | _ :: events => extent events

/-- The extent is the least bound of the positions inspected. -/
theorem Event.extent_le_iff {events : List (Event τ)} {n : Nat} :
    extent events ≤ n ↔ Inspects (fun place => place.position < n) events := by
  induction events with
  | nil => simp [extent]
  | cons event events ih =>
      rw [inspects_cons, ← ih]
      cases event with
      | inspected place => simp only [extent, Nat.max_le, Event.inspected.injEq, forall_eq',
          Nat.add_one_le_iff]
      | _ => simp [extent]

/-- The extent is zero or **reached by a position inspected**. -/
theorem Event.exists_extent_eq (events : List (Event τ)) :
    extent events = 0 ∨
      ∃ place, .inspected place ∈ events ∧ extent events = place.position + 1 := by
  induction events with
  | nil => exact .inl rfl
  | cons event events ih =>
      have hlater : (∃ place, .inspected place ∈ events ∧ extent events = place.position + 1) →
          ∃ place, .inspected place ∈ event :: events ∧ extent events = place.position + 1 := by
        rintro ⟨place, hplace, hextent⟩
        exact ⟨place, List.mem_cons_of_mem _ hplace, hextent⟩
      cases event with
      | inspected here =>
          right
          rcases Nat.le_total (extent events) (here.position + 1) with hle | hle
          · exact ⟨here, List.mem_cons_self, Nat.max_eq_left hle⟩
          · rcases ih with hzero | hreached
            · omega
            · obtain ⟨place, hplace, hextent⟩ := hlater hreached
              exact ⟨place, hplace, (Nat.max_eq_right hle).trans hextent⟩
      | _ => exact ih.imp_right hlater

/-! ### Where tails lead -/

/-- **Tails lead** from `s` to `t`: over the same source, with tokens all the way. -/
structure Sources.Leads (sources : Sources τ) (s t : Stream) : Prop where
  source_eq : t.source = s.source
  spans : sources.Spans s t.position

namespace Sources.Leads

variable {sources : Sources τ} {r s t : Stream}

theorem refl (sources : Sources τ) (s : Stream) : sources.Leads s s := ⟨rfl, .refl sources s⟩

theorem trans (h : sources.Leads r s) (h' : sources.Leads s t) : sources.Leads r t :=
  ⟨h'.source_eq.trans h.source_eq, h.spans.trans h.source_eq h'.spans⟩

/-- Stores with the same tokens lead to the same streams. -/
theorem congr {other : Sources τ} (htoken : other.token = sources.token) (h : other.Leads s t) :
    sources.Leads s t :=
  ⟨h.source_eq, h.spans.congr htoken⟩

/-- A token leads to the stream behind it. -/
theorem advance (h : sources.token s ≠ none) : sources.Leads s s.advance := ⟨rfl, .advance h⟩

end Sources.Leads

/-- Events change the token of no stream. -/
theorem Sources.token_stream_replay (sources : Sources τ) (events : List (Event τ)) :
    (sources.replay events).token = sources.token := by
  funext t
  exact congrFun (sources.token_replay events t.source) t.position

namespace Course

variable [Quote τ] {s : Stream} {sources : Sources τ}

/-- Tails lead to the rest of a success. -/
theorem leads_rest {step : Step τ (Outcome τ α)} (h : Course s sources step) {value : α}
    {rest : Stream} (hok : step.value = .ok value rest) : sources.Leads s rest := by
  have hspans := h.located.spans
  rw [hok] at hspans
  exact ⟨h.source_rest hok, hspans⟩

/-- **A parse looks only where tails lead.** -/
theorem inspected {step : Step τ (Outcome τ α)} (h : Course s sources step) :
    Inspects (sources.Leads s) step.events := by
  have hself : ∀ (sources : Sources τ) (s place : Stream),
      (.inspected s : Event τ) = .inspected place → sources.Leads s place := by
    rintro sources s place hplace
    obtain rfl := Event.inspected.inj hplace
    exact .refl sources s
  induction h with
  | succeed => exact inspects_nil
  | fail | satisfyEnd | satisfyAccept | satisfyReject | eofEnd | eofReject | unusable | refuse =>
      simpa using hself _ _
  | calling callee h ih => simpa [Step.after] using ih
  | sequel first second ih₁ ih₂ =>
      have hlater := ih₂.mono fun place hplace =>
        (first.leads_rest rfl).trans (hplace.congr first.token_stream)
      exact inspects_append.mpr ⟨ih₁, hlater⟩
  | passFail h ih => exact ih
  | passError h ih => exact ih
  | retry first second ih₁ ih₂ =>
      have hlater := ih₂.mono fun place hplace => hplace.congr first.token_stream
      exact inspects_append.mpr ⟨ih₁, hlater⟩
  | label name h ih => exact ih
  | commit h ih => simpa using ih
  | @nested _ s sources last value events h inner ih =>
      have htoken := sources.token_stream_replay [.descended s 0]
      simpa using ih.mono fun place hplace => hplace.congr htoken
  | stallStop items first stuck h ih => simpa using ih
  | stallError items first stuck h ih =>
      exact inspects_append.mpr ⟨ih, by simpa using hself _ _⟩
  | observed h ih => simpa using ih

end Course

/-! ### A source and its requests -/

/-- A lazy source **after `n` requests** of its supply. -/
def Source.Answered (source : Source τ) (supply : Nat → Option τ) (n : Nat) : Prop :=
  ∃ memo, source.tape = .lazy memo ∧ memo.Answered supply n

theorem Source.Answered.requests_eq {source : Source τ} {supply : Nat → Option τ} {n : Nat}
    (h : source.Answered supply n) : source.tape.requests = n := by
  obtain ⟨memo, htape, hmemo⟩ := h
  rw [htape]
  exact hmemo.requests_eq

/-- A look at a position to which tokens lead asks for what is missing. -/
theorem Source.Answered.look {source : Source τ} {supply : Nat → Option τ} {n i : Nat}
    (h : source.Answered supply n) (htokens : ∀ j < i, supply j ≠ none) :
    (source.look i).Answered supply (max n (i + 1)) := by
  obtain ⟨memo, htape, hmemo⟩ := h
  refine ⟨memo.fill i, ?_, hmemo.fill htokens⟩
  rw [Source.look, htape]
  rfl

/-- After any requests, the token at a position to which tokens lead is the answer of the supply. -/
theorem Source.Answered.token_eq {source : Source τ} {supply : Nat → Option τ} {n i : Nat}
    (h : source.Answered supply n) (htokens : ∀ j < i, supply j ≠ none) :
    source.token i = supply i := by
  obtain ⟨memo, htape, hmemo⟩ := h.look htokens
  have hi : i < max n (i + 1) := by omega
  rw [Source.token, htape, Tape.token?, hmemo.buffer_eq, List.getElem?_toArray,
    Memo.getElem?_opening hi htokens]

/-- Where the tokens of a lazy source lead, its supply answers with tokens. -/
theorem Source.Answered.supply_ne_none {source : Source τ} {supply : Nat → Option τ} {n i : Nat}
    (h : source.Answered supply n) (htokens : ∀ j < i, source.token j ≠ none) :
    ∀ j < i, supply j ≠ none := by
  intro j
  induction j using Nat.strongRecOn with
  | ind j ih =>
      intro hj hnone
      have hbefore : ∀ k < j, supply k ≠ none := fun k hk => ih k hk (Nat.lt_trans hk hj)
      exact htokens j hj ((h.token_eq hbefore).trans hnone)

/-- A new lazy source has made no request. -/
theorem Source.answered_lazy (supply : Nat → Option τ) (config : Config) :
    (Source.lazy supply config).Answered supply 0 :=
  ⟨{ supply }, rfl, Memo.answered_new supply⟩

/-- **The requests after events** are those before and, if an event went further, those up to the
furthest position inspected. -/
theorem Sources.answered_replay {sources : Sources τ} {id : Nat} (hid : id < sources.next)
    {supply : Nat → Option τ} {n : Nat} (h : (sources.get id).Answered supply n)
    {events : List (Event τ)}
    (hevents : Inspects (fun place => place.source = id ∧ ∀ j < place.position, supply j ≠ none)
      events) :
    ((sources.replay events).get id).Answered supply (max n (Event.extent events)) := by
  induction events generalizing sources n with
  | nil =>
      rw [Event.extent, Nat.max_zero]
      exact h
  | cons event events ih =>
      obtain ⟨hevent, hrest⟩ := inspects_cons.mp hevents
      have hnext : id < (sources.effect event).next := by
        rw [next_effect]
        exact hid
      -- Only a look changes the tape, and it is the one that counts for the extent.
      have htape : ∀ {f : Source τ → Source τ} (other : Nat),
          (∀ source, (f source).tape = source.tape) →
            ((sources.modify other f).get id).Answered supply n := by
        intro f other hf
        have hsame := rel_get_modify (P := fun new old => new.tape = old.tape) (fun _ => rfl) hf
          sources other id
        rw [Source.Answered, hsame]
        exact h
      cases event with
      | inspected place =>
          obtain ⟨rfl, htokens⟩ := hevent place rfl
          have hlook : ((sources.look place).get place.source).Answered supply
              (max n (place.position + 1)) := by
            rw [Sources.look, get_modify_self hid]
            exact h.look htokens
          rw [Event.extent, ← Nat.max_assoc]
          exact ih hnext hlook hrest
      | descended place depth => exact ih hnext (htape place.source fun _ => rfl) hrest
      | ascended place depth => exact ih hnext (htape place.source fun _ => rfl) hrest
      | _ => exact ih hnext h hrest

/-! ### Operations on streams -/

/-- The **operations** on the streams that somebody holds under numbers, by the type of what they
answer. -/
inductive Operation (σ : Signature) (τ : Type) : Type → Type 1 where
  /-- The token of a stream. -/
  | head (held : Nat) : Operation σ τ (Option τ)
  /-- Whether the input is over at a stream. -/
  | isEnd (held : Nat) : Operation σ τ Bool
  /-- The text of a stream. -/
  | display (held : Nat) : Operation σ τ String
  /-- The position of a stream. -/
  | position (held : Nat) : Operation σ τ Nat
  /-- The settings of a stream. -/
  | config (held : Nat) : Operation σ τ Config
  /-- Whether two streams are equal. -/
  | equal (held other : Nat) : Operation σ τ Bool
  /-- The diagnostic form of a stream. -/
  | quoted (held : Nat) : Operation σ τ String
  /-- Holds the tail of a stream. -/
  | tail (held goal : Nat) : Operation σ τ Unit
  /-- Holds a copy of a stream. -/
  | clone (held goal : Nat) : Operation σ τ Unit
  /-- Runs a grammar on a stream, and after a success holds the rest. -/
  | parse {α : Type} (held goal : Nat) (scope : Scope σ τ) (g : Grammar σ τ α) :
      Operation σ τ (Outcome τ α)

namespace Operation

variable {σ : Signature} {β : Type}

/-- An operation that runs **plain grammars** only. -/
def Plain : Operation σ τ β → Prop
  | .parse _ _ scope g => scope.Plain ∧ g.Plain
  | _ => True

/-- Whether an operation runs a grammar. -/
def isParse : Operation σ τ β → Bool
  | .parse .. => true
  | _ => false

/-- The streams that an operation **looks at itself**, by their numbers. What a grammar looks at is
another matter. -/
def looksAt : Operation σ τ β → List Nat
  | .head held | .isEnd held | .display held | .tail held _ => [held]
  | _ => []

/-- **Performs** an operation: what it answers, and the streams held afterwards. -/
def perform [Quote τ] [ToString τ] (rules : Rules σ τ) (fuel : Nat) (streams : Nat → Stream) :
    Operation σ τ β → Run τ (β × (Nat → Stream))
  | .head held => do
    let token ← (streams held).head.toRun
    return (token, streams)
  | .isEnd held => do
    let ended ← (streams held).isEnd.toRun
    return (ended, streams)
  | .display held => do
    let text ← (streams held).display.toRun
    return (text, streams)
  | .position held => return ((streams held).position, streams)
  | .config held => do
    let config ← (streams held).config.toRun
    return (config, streams)
  | .equal held other => return (decide (streams held = streams other), streams)
  | .quoted held => return (quote (streams held), streams)
  | .tail held goal => do
    let rest ← (streams held).tail.toRun
    return ((), Client.hold streams goal rest)
  | .clone held goal => return ((), Client.hold streams goal (streams held))
  | .parse held goal scope g => do
    let outcome ← Grammar.parser rules fuel scope g (streams held)
    return (outcome, match outcome.remaining? with
      | some rest => Client.hold streams goal rest
      | none => streams)

end Operation

/-- What can have been done with the **streams over a source** that was opened in the store
`sources`: the streams held, the store, and all that happened. Any operation may come next, with
a grammar over any table of rules. -/
inductive Usage [Quote τ] [ToString τ] (source : Source τ) (sources : Sources τ) :
    (Nat → Stream) → Sources τ → List (Event τ) → Prop where
  | opened : Usage source sources (fun _ => ⟨sources.next, 0⟩) (sources.add source) []
  | performed {σ : Signature} {rules : Rules σ τ} {β : Type} {operation : Operation σ τ β}
      {fuel : Nat} {streams : Nat → Stream} {last : Sources τ} {events : List (Event τ)}
      {step : Step τ (β × (Nat → Stream))} :
      Usage source sources streams last events → rules.Plain → operation.Plain →
      (operation.perform rules fuel streams).run last = some step →
      Usage source sources step.value.2 step.sources (events ++ step.events)

/-! ### What operations keep -/

/-- What holds after any use of the streams over the source `id` of a store: the store is the
replay of what happened, and tails lead from the start to what was inspected and to what is
held. -/
structure Kept (id : Nat) (sources : Sources τ) (streams : Nat → Stream) (last : Sources τ)
    (events : List (Event τ)) : Prop where
  sources_eq : last = sources.replay events
  inspected : Inspects (sources.Leads ⟨id, 0⟩) events
  held : ∀ number, sources.Leads ⟨id, 0⟩ (streams number)

namespace Kept

variable {id : Nat} {sources last : Sources τ} {streams : Nat → Stream} {events : List (Event τ)}

/-- The events change no token. -/
theorem token_eq (h : Kept id sources streams last events) : last.token = sources.token := by
  rw [h.sources_eq, Sources.token_stream_replay]

/-- In the end, too, tails lead to what is held. -/
theorem held_after (h : Kept id sources streams last events) (number : Nat) :
    last.Leads ⟨id, 0⟩ (streams number) :=
  (h.held number).congr h.token_eq.symm

/-- What is done later keeps as well. -/
theorem trans (h : Kept id sources streams last events) {later : Nat → Stream} {final : Sources τ}
    {more : List (Event τ)} (h' : Kept id last later final more) :
    Kept id sources later final (events ++ more) := by
  refine ⟨?_, inspects_append.mpr ⟨h.inspected, ?_⟩, fun number => ?_⟩
  · rw [h'.sources_eq, h.sources_eq, Sources.replay_append]
  · exact h'.inspected.mono fun place hplace => hplace.congr h.token_eq
  · exact (h'.held number).congr h.token_eq

/-- To do nothing keeps. -/
theorem idle (hheld : ∀ number, sources.Leads ⟨id, 0⟩ (streams number)) :
    Kept id sources streams sources [] :=
  ⟨rfl, inspects_nil, hheld⟩

/-- A stream to which tails lead may be held. -/
theorem hold (hheld : ∀ number, sources.Leads ⟨id, 0⟩ (streams number)) {s : Stream}
    (hs : sources.Leads ⟨id, 0⟩ s) (goal number : Nat) :
    sources.Leads ⟨id, 0⟩ (Client.hold streams goal s number) := by
  unfold Client.hold
  split
  · exact hs
  · exact hheld number

/-- A look at a stream that is held keeps. -/
theorem look (hheld : ∀ number, sources.Leads ⟨id, 0⟩ (streams number)) (number : Nat)
    {later : Nat → Stream} (hlater : ∀ number, sources.Leads ⟨id, 0⟩ (later number)) :
    Kept id sources later (sources.look (streams number)) [.inspected (streams number)] := by
  refine ⟨rfl, inspects_cons.mpr ⟨fun place hplace => ?_, inspects_nil⟩, hlater⟩
  obtain rfl := Event.inspected.inj hplace
  exact hheld number

/-- To hold the tail of a stream that is held keeps. -/
theorem tail (hheld : ∀ number, sources.Leads ⟨id, 0⟩ (streams number)) (held goal : Nat) :
    Kept id sources
      (Client.hold streams goal
        (if (sources.token (streams held)).isNone then streams held else (streams held).advance))
      (sources.look (streams held)) [.inspected (streams held)] := by
  refine look hheld held (hold hheld ?_ goal)
  cases htoken : sources.token (streams held) with
  | none => exact hheld held
  | some token =>
      have hbehind := Sources.Leads.advance (htoken ▸ Option.some_ne_none token)
      exact (hheld held).trans hbehind

/-- **A parse of a stream that is held keeps**, and after a success its rest may be held. -/
theorem parse [Quote τ] {α : Type} (hheld : ∀ number, sources.Leads ⟨id, 0⟩ (streams number))
    {held : Nat} {step : Step τ (Outcome τ α)} (h : Course (streams held) sources step)
    (goal : Nat) :
    Kept id sources
      (match step.value.remaining? with
        | some rest => Client.hold streams goal rest
        | none => streams)
      step.sources step.events := by
  refine ⟨h.sources_eq_replay, ?_, ?_⟩
  · exact h.inspected.mono fun place hplace => (hheld held).trans hplace
  · obtain ⟨value, last, events⟩ := step
    cases value with
    | ok value rest => exact hold hheld ((hheld held).trans (h.leads_rest rfl)) goal
    | fail failure => exact hheld
    | error failure => exact hheld

/-- **The requests of a lazy source** are those for the positions inspected. -/
theorem answered {supply : Nat → Option τ} {config : Config}
    (h : Kept sources.next (sources.add (.lazy supply config)) streams last events) :
    (last.get sources.next).Answered supply (Event.extent events) := by
  have hnew : ((sources.add (.lazy supply config)).get sources.next).Answered supply 0 := by
    rw [Sources.get_add_next]
    exact Source.answered_lazy supply config
  have hreplay := Sources.answered_replay (sources.next_lt_next_add _) hnew
    (h.inspected.mono fun place hplace => ⟨hplace.source_eq, ?_⟩)
  · rw [h.sources_eq]
    rw [Nat.zero_max] at hreplay
    exact hreplay
  · exact hnew.supply_ne_none fun i hi => hplace.spans.tokens i (Nat.zero_le i) hi

end Kept

section

variable [Quote τ] [ToString τ]

/-- **An operation keeps**, whatever it answers. -/
theorem Operation.kept {σ : Signature} {β : Type} {rules : Rules σ τ} (hrules : rules.Plain)
    {operation : Operation σ τ β} (hplain : operation.Plain) {fuel id : Nat}
    {streams : Nat → Stream} {sources : Sources τ}
    (hheld : ∀ number, sources.Leads ⟨id, 0⟩ (streams number)) {step : Step τ (β × (Nat → Stream))}
    (h : (operation.perform rules fuel streams).run sources = some step) :
    Kept id sources step.value.2 step.sources step.events := by
  cases operation with
  | head held =>
      rw [perform, Run.run_toRun_bind, Stream.run_head] at h
      obtain rfl := Option.some.inj h
      exact .look hheld held hheld
  | isEnd held =>
      rw [perform, Run.run_toRun_bind, Stream.run_isEnd] at h
      obtain rfl := Option.some.inj h
      exact .look hheld held hheld
  | display held =>
      rw [perform, Run.run_toRun_bind, Stream.run_display] at h
      obtain rfl := Option.some.inj h
      exact .look hheld held hheld
  | position held =>
      obtain rfl := Option.some.inj h
      exact .idle hheld
  | config held =>
      rw [perform, Run.run_toRun_bind, Stream.run_config] at h
      obtain rfl := Option.some.inj h
      exact .idle hheld
  | equal held other =>
      obtain rfl := Option.some.inj h
      exact .idle hheld
  | quoted held =>
      obtain rfl := Option.some.inj h
      exact .idle hheld
  | tail held goal =>
      rw [perform, Run.run_toRun_bind, Stream.run_tail] at h
      obtain rfl := Option.some.inj h
      exact .tail hheld held goal
  | clone held goal =>
      obtain rfl := Option.some.inj h
      exact .idle (Kept.hold hheld (hheld held) goal)
  | parse held goal scope g =>
      obtain ⟨hscope, hg⟩ := hplain
      obtain ⟨first, second, hfirst, hsecond, rfl⟩ := Run.run_bind_eq_some_iff.mp h
      obtain rfl := Option.some.inj hsecond
      have hparse := Kept.parse hheld ((hg.composed hrules fuel hscope).course hfirst) goal
      exact hparse.trans (.idle hparse.held_after)

/-- An operation that runs no grammar inspects what it looks at, and nothing else happens. -/
theorem Operation.events_perform {σ : Signature} {β : Type} {rules : Rules σ τ}
    {operation : Operation σ τ β} (hparse : operation.isParse = false) {fuel : Nat}
    {streams : Nat → Stream} {sources : Sources τ} {step : Step τ (β × (Nat → Stream))}
    (h : (operation.perform rules fuel streams).run sources = some step) :
    step.events = operation.looksAt.map fun held => .inspected (streams held) := by
  cases operation with
  | parse held goal scope g => cases hparse
  | _ =>
      simp only [perform, Run.run_toRun_bind, Stream.run_head, Stream.run_isEnd, Stream.run_display,
        Stream.run_config, Stream.run_tail, Run.run_pure, Option.map_some, Option.some.injEq] at h
      obtain rfl := h
      rfl

namespace Usage

variable {source : Source τ} {sources last : Sources τ} {streams : Nat → Stream}
  {events : List (Event τ)}

/-- **Any usage keeps.** -/
theorem kept (h : Usage source sources streams last events) :
    Kept sources.next (sources.add source) streams last events := by
  induction h with
  | opened => exact .idle fun _ => .refl _ _
  | performed h hrules hplain hrun ih =>
      exact ih.trans (Operation.kept hrules hplain ih.held_after hrun)

/-- **Exact pulling.** After any usage of the streams over a lazy source, the number of requests
is one more than the furthest position inspected, or zero if none was. What the source remembers
is the tokens that these requests brought, before the first `none` and in order; it has let go of
its supply exactly if the last request was answered `none`, and no request comes after that one.
What a look at a position shows is the same after every usage. The next operation, if it runs no
grammar, inspects the stream whose token, end, text or tail it asks for, and otherwise nothing. -/
theorem exact_pulling {supply : Nat → Option τ} {config : Config}
    (h : Usage (.lazy supply config) sources streams last events) :
    (∃ n, (last.get sources.next).Answered supply n ∧
      Inspects (fun place => place.source = sources.next ∧ place.position < n) events ∧
      (n = 0 ∨ ∃ place, .inspected place ∈ events ∧ n = place.position + 1)) ∧
    (∀ s : Stream, s.source = sources.next →
      (s.head.run last).value = (Source.lazy supply config).token s.position) ∧
    ∀ {σ : Signature} {rules : Rules σ τ} {β : Type} {operation : Operation σ τ β} {fuel : Nat}
      {step : Step τ (β × (Nat → Stream))}, operation.isParse = false →
      (operation.perform rules fuel streams).run last = some step →
      step.events = operation.looksAt.map fun held => .inspected (streams held) := by
  have hkept := h.kept
  refine ⟨⟨Event.extent events, hkept.answered, fun place hplace => ?_,
    Event.exists_extent_eq events⟩, fun s hs => ?_, fun hparse => Operation.events_perform hparse⟩
  · have hextent := Event.extent_le_iff.mp (Nat.le_refl (Event.extent events))
    exact ⟨(hkept.inspected place hplace).source_eq, hextent place hplace⟩
  · rw [Stream.run_head, hkept.sources_eq, Sources.token_stream_replay, Sources.token, hs,
      Sources.get_add_next]

end Usage

end

/-- Parsing brackets on the first stream held, and holding the rest as well. -/
def Brackets.parsing : Operation names Bool (Outcome Bool Nat) := .parse 0 1 .empty grammar

/-- A pair of brackets is parsed over a lazy source whose supply would go on, and then the rest is
looked at. Three requests were made, and with the last one the supply has been let go. -/
theorem Brackets.exact_pulling_pair : ∃ streams last events,
    Usage (.lazy supply .standard) {} streams last events ∧ (last.get 0).Answered supply 3 := by
  have hrun : ((parsing.perform rules 5 fun _ => ⟨0, 0⟩).run
      (Sources.add {} (.lazy supply .standard))).bind (fun first =>
        (((Operation.head 1 : Operation names Bool _).perform rules 0 first.value.2).run
          first.sources).map fun second => (second.sources.get 0).tape.requests) = some 3 := by
    decide +kernel
  obtain ⟨first, hfirst, hrest⟩ := Option.bind_eq_some_iff.mp hrun
  obtain ⟨second, hsecond, hrequests⟩ := Option.map_eq_some_iff.mp hrest
  have hparsing : parsing.Plain := ⟨plain_scope, plain_grammar⟩
  have hlook : (Operation.head 1 : Operation names Bool _).Plain := trivial
  have hopened : Usage (.lazy supply .standard) {} (fun _ => ⟨0, 0⟩)
      (Sources.add {} (.lazy supply .standard)) [] := .opened
  have hparsed := Usage.performed hopened plain_rules hparsing hfirst
  have hlooked := Usage.performed hparsed plain_rules hlook hsecond
  obtain ⟨⟨n, hanswered, -⟩, -⟩ := hlooked.exact_pulling
  refine ⟨_, _, _, hlooked, ?_⟩
  -- The requests made are those that the run counts.
  have hn : n = 3 := hanswered.requests_eq.symm.trans hrequests
  rw [← hn]
  exact hanswered

end Backtrack
