import Backtrack.Proofs.Replay
import Backtrack.Proofs.Watched

/-!
# The Depth Counter

All positions of a source share one counter of the references in progress. It goes up when a
reference begins and down when it ends, and every way out of a rule has to give back what the way
in took. The watched run of a grammar knows in how many deferred rules and handles of the grammar
each event happens, without a look at the counter. Here the two are compared: at every moment of
every parse of a plain grammar, also of one that never comes to an outcome, the counter is what it
was in the beginning and one more for each reference in progress. A counter kept in a machine word,
which could overflow at the top and stick at the bottom, never does either as long as what is in
progress fits into a word.

## Main definitions

* `Moment.Accounted`: the account of a moment.
* `Event.count`: what an event does to a counter kept in a word.
* `Tallied`: moments in a row, each of which finds the counter that the one before it left.
* `Watched.Keeps`: what every part of a parse keeps, inside any number of references.

## Main results

* `Parser.Composed.keeps`: a composed parser accounts for its moments and gives back what it took.
* `Tallied.count_eq`: the word is exact.
* `Grammar.depth_accounting`: depth accounting for all plain grammars.
-/

namespace Backtrack

variable {τ α β : Type}

namespace Event

/-- The references that an event gives back, which are counted until then. -/
def givenBack : Event τ → Nat
  | .ascended _ _ => 1
  | _ => 0

/-- What an event makes of the counter. -/
def move (counter : Nat) : Event τ → Nat
  | .descended _ _ => counter + 1
  | .ascended _ _ => counter - 1
  | _ => counter

/-- What an event makes of a counter **kept in a machine word**: it wraps around at the top, and
at zero nothing can be taken from it. -/
def count (counter : UInt64) : Event τ → UInt64
  | .descended _ _ => counter + 1
  | .ascended _ _ => if counter = 0 then 0 else counter - 1
  | _ => counter

/-- The word is exact where neither of the two happens. -/
theorem toNat_count {event : Event τ} {word : UInt64} (hpos : event.givenBack ≤ word.toNat)
    (hroom : event.move word.toNat < UInt64.size) :
    (event.count word).toNat = event.move word.toNat := by
  cases event with
  | descended place depth =>
      rw [move] at hroom
      rw [count, move, UInt64.toNat_add, UInt64.toNat_one]
      exact Nat.mod_eq_of_lt hroom
  | ascended place depth =>
      rw [givenBack] at hpos
      have hle : (1 : UInt64) ≤ word := by
        rw [UInt64.le_iff_toNat_le, UInt64.toNat_one]
        exact hpos
      have hne : word ≠ 0 := by
        rintro rfl
        rw [UInt64.toNat_zero] at hpos
        omega
      rw [count, move, if_neg hne, UInt64.toNat_sub_of_le _ _ hle, UInt64.toNat_one]
  | _ => rfl

/-- An event that **does not move the counter**. -/
def Still (event : Event τ) : Prop :=
  (∀ place depth, event ≠ .descended place depth) ∧ ∀ place depth, event ≠ .ascended place depth

end Event

/-- The **account of a moment** of a parse on the source `id`, whose counter stood at `base` in the
beginning, under a limit. -/
structure Moment.Accounted (id : Nat) (limit : Option Nat) (base : Nat) (m : Moment τ) : Prop where
  /-- The counter is what it was in the beginning and one for each reference in progress, with the
  one that is given back now. -/
  depth_eq : (m.sources.get id).depth = base + m.references + m.event.givenBack
  /-- The limit, if there is one, is not exceeded. -/
  le_limit : ∀ n, limit = some n → (m.sources.get id).depth ≤ n
  /-- A reference that begins adds one to this counter, within the limit. -/
  descended : ∀ {place depth}, m.event = .descended place depth →
    place.source = id ∧ depth = (m.sources.get id).depth + 1 ∧ ∀ n, limit = some n → depth ≤ n
  /-- A reference that ends takes one from this counter, which is not zero. -/
  ascended : ∀ {place depth}, m.event = .ascended place depth →
    place.source = id ∧ depth + 1 = (m.sources.get id).depth

/-! ### Moments in a row -/

/-- **Moments in a row**, the first at the given counter: each is accounted for, and finds the
counter that the one before it left. -/
def Tallied (id : Nat) (limit : Option Nat) (base : Nat) : (counter : Nat) → List (Moment τ) → Prop
  | _, [] => True
  | counter, m :: ms =>
    (m.sources.get id).depth = counter ∧ m.Accounted id limit base ∧
      Tallied id limit base (m.event.move counter) ms

/-- The counter after moments in a row. -/
def counterAfter (counter : Nat) (ms : List (Moment τ)) : Nat :=
  ms.foldl (fun counter m => m.event.move counter) counter

section

variable {id : Nat} {limit : Option Nat} {base counter : Nat}

theorem tallied_append {xs ys : List (Moment τ)} :
    Tallied id limit base counter (xs ++ ys) ↔
      Tallied id limit base counter xs ∧ Tallied id limit base (counterAfter counter xs) ys := by
  induction xs generalizing counter with
  | nil => simp [Tallied, counterAfter]
  | cons x xs ih =>
      rw [List.cons_append, Tallied, Tallied, ih, and_assoc, and_assoc]
      rfl

theorem Tallied.accounted {ms : List (Moment τ)} (h : Tallied id limit base counter ms)
    {m : Moment τ} (hm : m ∈ ms) : m.Accounted id limit base := by
  induction ms generalizing counter with
  | nil => cases hm
  | cons first ms ih =>
      obtain ⟨-, haccount, hrest⟩ := h
      obtain rfl | hlater := List.mem_cons.mp hm
      · exact haccount
      · exact ih hrest hlater

/-- The first of them finds the counter that is given. -/
theorem Tallied.exists_depth_eq {ms : List (Moment τ)} (h : Tallied id limit base counter ms)
    (hne : ms ≠ []) : ∃ m ∈ ms, (m.sources.get id).depth = counter := by
  cases ms with
  | nil => exact (hne rfl).elim
  | cons m ms => exact ⟨m, List.mem_cons_self, h.1⟩

/-- **A counter kept in a word is exact** as long as what is in progress fits into it. -/
theorem Tallied.count_eq {before : List (Moment τ)} {m : Moment τ} {word : UInt64}
    (h : Tallied id limit base word.toNat (before ++ [m]))
    (hfits : ∀ other ∈ before ++ [m], (other.sources.get id).depth < UInt64.size) :
    (before.foldl (fun word other => other.event.count word) word).toNat =
      (m.sources.get id).depth := by
  induction before generalizing word with
  | nil => exact h.1.symm
  | cons first before ih =>
      obtain ⟨hnow, haccount, hrest⟩ := h
      have hdepth := haccount.depth_eq
      rw [hnow] at hdepth
      -- The counter that this event leaves is found by the next moment, so it fits.
      obtain ⟨next, hnext, hleft⟩ := hrest.exists_depth_eq (by simp)
      have hroom : first.event.move word.toNat < UInt64.size := by
        rw [← hleft]
        exact hfits next (List.mem_cons_of_mem first hnext)
      rw [← Event.toNat_count (by omega) hroom] at hrest
      exact ih hrest fun other hother => hfits other (List.mem_cons_of_mem first hother)

end

/-! ### What every part keeps -/

/-- The counter of the source `id` **stands** at a number, within the limit. -/
structure Sources.Stands (id : Nat) (limit : Option Nat) (counter : Nat) (sources : Sources τ) :
    Prop where
  lt : id < sources.next
  limit_eq : (sources.get id).config.maxDepth = limit
  depth_eq : (sources.get id).depth = counter
  room : ∀ n, limit = some n → counter ≤ n

/-- What is seen **moves the counter** from one number to another, if there is an end, and leads to
a value at home. -/
structure Sight.Moves (id : Nat) (limit : Option Nat) (base counter final : Nat)
    (home : α → Prop) (sight : Sight τ α) : Prop where
  tallied : Tallied id limit base counter sight.moments
  last : ∀ a sources, sight.last = some (a, sources) →
    home a ∧ sources.Stands id limit final ∧ counterAfter counter sight.moments = final

/-- A watched run that is made inside `references` references **accounts for its moments and gives
back what it took**. -/
def Watched.Keeps (id : Nat) (limit : Option Nat) (base references : Nat) (home : α → Prop)
    (r : Watched τ α) : Prop :=
  ∀ sources : Sources τ, sources.Stands id limit (base + references) →
    (r references sources).Moves id limit base (base + references) (base + references) home

section

variable {id : Nat} {limit : Option Nat} {base references counter : Nat}

/-- What does not move the counter leaves it where it stands. -/
theorem Sources.Stands.effect {sources : Sources τ} (h : sources.Stands id limit counter)
    {event : Event τ} (hstill : event.Still) : (sources.effect event).Stands id limit counter := by
  refine ⟨by rw [next_effect]; exact h.lt, by rw [config_effect]; exact h.limit_eq, ?_, h.room⟩
  cases event with
  | descended place depth => exact (hstill.1 place depth rfl).elim
  | ascended place depth => exact (hstill.2 place depth rfl).elim
  | inspected place =>
      rw [Sources.effect, sources.depth_look]
      exact h.depth_eq
  | _ => exact h.depth_eq

theorem Sources.Stands.replay {sources : Sources τ} (h : sources.Stands id limit counter)
    {events : List (Event τ)} (hstill : ∀ event ∈ events, event.Still) :
    (sources.replay events).Stands id limit counter := by
  induction events generalizing sources with
  | nil => exact h
  | cons event events ih =>
      exact ih (h.effect (hstill event List.mem_cons_self)) fun later hlater =>
        hstill later (List.mem_cons_of_mem event hlater)

/-- An event that does not move the counter is accounted for inside as many references as the
counter counts. -/
theorem Moment.accounted_of_still {event : Event τ} (hstill : event.Still) {sources : Sources τ}
    (h : sources.Stands id limit (base + references)) :
    Moment.Accounted id limit base ⟨event, references, sources⟩ ∧
      event.move (base + references) = base + references := by
  have hnone : event.givenBack = 0 ∧ event.move (base + references) = base + references := by
    cases event with
    | descended place depth => exact (hstill.1 place depth rfl).elim
    | ascended place depth => exact (hstill.2 place depth rfl).elim
    | _ => exact ⟨rfl, rfl⟩
  refine ⟨⟨?_, fun n hn => ?_, fun hevent => (hstill.1 _ _ hevent).elim,
    fun hevent => (hstill.2 _ _ hevent).elim⟩, hnone.2⟩
  · rw [hnone.1]
    exact h.depth_eq
  · rw [h.depth_eq]
    exact h.room n hn

/-- So are several of them in a row. -/
theorem tallied_of_still {events : List (Event τ)} (hstill : ∀ event ∈ events, event.Still)
    {sources : Sources τ} (h : sources.Stands id limit (base + references)) :
    Tallied id limit base (base + references)
        (events.map fun event => ⟨event, references, sources⟩) ∧
      counterAfter (base + references)
        (events.map fun event => (⟨event, references, sources⟩ : Moment τ)) =
        base + references := by
  induction events with
  | nil => exact ⟨trivial, rfl⟩
  | cons event events ih =>
      obtain ⟨haccount, hmove⟩ := Moment.accounted_of_still (hstill event List.mem_cons_self) h
      obtain ⟨htallied, hafter⟩ := ih fun later hlater =>
        hstill later (List.mem_cons_of_mem event hlater)
      rw [List.map_cons, Tallied, counterAfter, List.foldl_cons, hmove]
      exact ⟨⟨h.depth_eq, haccount, htallied⟩, hafter⟩

/-- One after the other. -/
theorem Sight.Moves.followed {first : Sight τ α} {middle final : Nat} {home : α → Prop}
    (h : first.Moves id limit base counter middle home) {next : α → Sources τ → Sight τ β}
    {goal : β → Prop}
    (hnext : ∀ a sources, home a → sources.Stands id limit middle →
      (next a sources).Moves id limit base middle final goal) :
    (first.followed next).Moves id limit base counter final goal := by
  obtain ⟨htallied, hlast⟩ := h
  rcases first with ⟨moments, _ | ⟨a, sources⟩⟩
  · exact ⟨htallied, fun _ _ hnone => nomatch hnone⟩
  · obtain ⟨hhome, hstands, hafter⟩ := hlast a sources rfl
    obtain ⟨htallied', hlast'⟩ := hnext a sources hhome hstands
    refine ⟨tallied_append.mpr ⟨htallied, ?_⟩, fun b last heq => ?_⟩
    · rw [hafter]
      exact htallied'
    · obtain ⟨hgoal, hfinal, hafter'⟩ := hlast' b last heq
      refine ⟨hgoal, hfinal, ?_⟩
      rw [Sight.followed_some, counterAfter, List.foldl_append]
      exact (congrArg (counterAfter · _) hafter).trans hafter'

namespace Watched.Keeps

variable {home : α → Prop} {goal : β → Prop}

theorem pure {a : α} (ha : home a) :
    Keeps id limit base references home (Pure.pure a : Watched τ α) :=
  fun _ h => ⟨trivial, fun _ _ heq => by
    obtain ⟨rfl, rfl⟩ := Prod.mk.inj (Option.some.inj heq)
    exact ⟨ha, h, rfl⟩⟩

theorem bind {r : Watched τ α} (h : Keeps id limit base references home r) {f : α → Watched τ β}
    (hnext : ∀ a, home a → Keeps id limit base references goal (f a)) :
    Keeps id limit base references goal (r >>= f) :=
  fun sources hstands => (h sources hstands).followed fun a last ha hlast => hnext a ha last hlast

theorem exhausted :
    Keeps id limit base references home (Carrier.carry (Run.exhausted : Run τ α)) :=
  fun _ _ => ⟨trivial, fun _ _ heq => nomatch heq⟩

/-- What is carried keeps the counter if its events do not move it and tell what it did. -/
theorem carry {r : Run τ α} (h : ∀ sources step, r.run sources = some step →
      step.sources = sources.replay step.events ∧ (∀ event ∈ step.events, event.Still) ∧
        home step.value) :
    Keeps id limit base references home (Carrier.carry r) := by
  intro sources hstands
  rw [Watched.carry_apply]
  cases hrun : r.run sources with
  | none => exact ⟨trivial, fun _ _ heq => nomatch heq⟩
  | some step =>
      obtain ⟨hsources, hstill, hhome⟩ := h sources step hrun
      obtain ⟨htallied, hafter⟩ := tallied_of_still hstill hstands
      refine ⟨htallied, fun a last heq => ?_⟩
      obtain ⟨rfl, rfl⟩ := Prod.mk.inj (Option.some.inj heq)
      rw [hsources]
      exact ⟨hhome, hstands.replay hstill, hafter⟩

theorem act {act : Act τ α} (h : ∀ sources,
      (act.run sources).sources = sources.replay (act.run sources).events ∧
        (∀ event ∈ (act.run sources).events, event.Still) ∧ home (act.run sources).value) :
    Keeps id limit base references home (Carrier.carry act.toRun) := by
  refine carry fun sources step hstep => ?_
  rw [Run.run_toRun] at hstep
  obtain rfl := Option.some.inj hstep
  exact h sources

theorem emit {event : Event τ} (hsources : ∀ sources : Sources τ, sources.effect event = sources)
    (hstill : event.Still) :
    Keeps id limit base references (fun _ => True) (Carrier.carry (Run.emit event)) := by
  refine carry fun sources step hstep => ?_
  obtain rfl := Option.some.inj hstep
  refine ⟨(hsources sources).symm, fun other hother => ?_, trivial⟩
  obtain rfl := List.mem_singleton.mp hother
  exact hstill

/-- An event that leaves the store alone is emitted before anything else. -/
theorem emit_bind {event : Event τ}
    (hsources : ∀ sources : Sources τ, sources.effect event = sources) (hstill : event.Still)
    {r : Watched τ α} (h : Keeps id limit base references home r) :
    Keeps id limit base references home (Carrier.carry (Run.emit event) >>= fun _ => r) :=
  (emit hsources hstill).bind fun _ _ => h

theorem head (s : Stream) :
    Keeps id limit base references (fun _ => True) (Carrier.carry (s.head : Act τ _).toRun) :=
  act fun sources => by
    rw [Stream.run_head]
    exact ⟨rfl, by simp [Event.Still], trivial⟩

theorem tail (s : Stream) :
    Keeps id limit base references (·.source = s.source) (Carrier.carry (s.tail : Act τ _).toRun) :=
  act fun sources => by
    rw [Stream.run_tail]
    refine ⟨rfl, by simp [Event.Still], ?_⟩
    cases sources.token s <;> rfl

theorem here (message : String) (s : Stream) :
    Keeps id limit base references (fun _ => True)
      (Carrier.carry (Failure.here message s : Act τ _).toRun) :=
  act fun sources => by
    rw [Failure.run_here]
    exact ⟨rfl, by simp [Event.Still], trivial⟩

theorem note (texts : List String) :
    Keeps id limit base references (fun _ => True) (Carrier.carry (Run.note texts : Run τ Unit)) :=
  act fun sources => by
    rw [Act.run_note]
    exact ⟨(sources.replay_noted texts).symm, by simp [Event.Still], trivial⟩

/-- What becomes of a refused reference. -/
theorem refuse (refused : Nat) (s : Stream) :
    Keeps id limit base references (Outcome.Within (·.source = id))
      (Carrier.carry (Parser.refuse refused s : Act τ (Outcome τ α)).toRun) :=
  act fun sources => by
    simp only [Parser.refuse, Act.run_bind, Act.run_emit, Failure.run_here, Act.run_pure,
      List.append_nil, List.singleton_append]
    exact ⟨rfl, by simp [Event.Still], trivial⟩

/-- What becomes of a stalled repetition. -/
theorem stall (items : List α) {s : Stream} (hs : s.source = id) :
    Keeps id limit base references (Outcome.Within (·.source = id))
      (Carrier.carry (Parser.stall items s : Act τ _).toRun) :=
  act fun sources => by
    rw [Parser.run_stall]
    cases (sources.get s.source).config.repetition with
    | stop => exact ⟨rfl, by simp [Event.Still], hs⟩
    | error => exact ⟨rfl, by simp [Event.Still], trivial⟩

end Watched.Keeps

end

/-! ### Parsers -/

namespace Parser

variable {id : Nat} {limit : Option Nat} {base references : Nat} {s : Stream}

/-- To enter a reference moves the counter up by one. -/
theorem moves_descend {s : Stream} {sources : Sources τ}
    (h : sources.Stands s.source limit (base + references))
    (hadmits : (sources.get s.source).config.admits (sources.get s.source).depth = .ok ()) :
    ((Carrier.carry (s.descend : Act τ _).toRun : Watched τ _) references sources).Moves s.source
      limit base (base + references) (base + (references + 1)) (· = .ok ()) := by
  have hroom : ∀ n, limit = some n → base + (references + 1) ≤ n := by
    intro n hn
    have hlt := Config.admits_eq_ok_iff.mp hadmits n (h.limit_eq.trans hn)
    rw [h.depth_eq] at hlt
    omega
  rw [Watched.carry_apply, Run.run_toRun, Stream.run_descend, hadmits]
  refine ⟨⟨h.depth_eq, ⟨h.depth_eq, fun n hn => ?_, ?_, ?_⟩, trivial⟩, ?_⟩
  · rw [h.depth_eq]
    exact h.room n hn
  · rintro place depth heq
    obtain ⟨rfl, rfl⟩ := Event.descended.inj heq
    refine ⟨rfl, rfl, fun n hn => ?_⟩
    rw [h.depth_eq]
    exact hroom n hn
  · rintro place depth heq
    cases heq
  · rintro answer last heq
    obtain ⟨rfl, rfl⟩ := Prod.mk.inj (Option.some.inj heq)
    refine ⟨rfl, ⟨?_, ?_, ?_, hroom⟩, rfl⟩
    · rw [Sources.next_modify]
      exact h.lt
    · rw [Sources.get_modify_self h.lt]
      exact h.limit_eq
    · rw [Sources.get_modify_self h.lt, Source.enter, h.depth_eq, Nat.add_assoc]

/-- To leave it moves the counter down by one. -/
theorem moves_ascend {s : Stream} {sources : Sources τ}
    (h : sources.Stands s.source limit (base + (references + 1))) :
    ((Carrier.carry (s.ascend : Act τ _).toRun : Watched τ _) references sources).Moves s.source
      limit base (base + (references + 1)) (base + references) fun _ => True := by
  have hleft : ((sources.modify s.source .leave).get s.source).depth = base + references := by
    rw [Sources.get_modify_self h.lt, Source.leave, h.depth_eq]
    rfl
  rw [Watched.carry_apply, Run.run_toRun, Stream.run_ascend]
  refine ⟨⟨h.depth_eq, ⟨h.depth_eq, fun n hn => ?_, ?_, ?_⟩, trivial⟩, ?_⟩
  · rw [h.depth_eq]
    exact h.room n hn
  · rintro place depth heq
    cases heq
  · rintro place depth heq
    obtain ⟨rfl, rfl⟩ := Event.ascended.inj heq
    refine ⟨rfl, ?_⟩
    rw [hleft, h.depth_eq, Nat.add_assoc]
  · rintro answer last heq
    obtain ⟨-, rfl⟩ := Prod.mk.inj (Option.some.inj heq)
    refine ⟨trivial, ⟨?_, ?_, hleft, fun n hn => ?_⟩, rfl⟩
    · rw [Sources.next_modify]
      exact h.lt
    · rw [Sources.get_modify_self h.lt]
      exact h.limit_eq
    · have := h.room n hn
      omega

/-- A reference takes one from the counter and gives it back, and **what it leads to is one
reference further inside**. -/
theorem keeps_nested {p : Parser τ α (Watched τ)} {s : Stream} {home : Outcome τ α → Prop}
    (hrefuse : ∀ refused, Watched.Keeps s.source limit base references home
      (Carrier.carry (refuse refused s : Act τ _).toRun))
    (h : Watched.Keeps s.source limit base (references + 1) home (p s)) :
    Watched.Keeps s.source limit base references home (nested p.inside s) := by
  intro sources hstands
  cases hadmits : (sources.get s.source).config.admits (sources.get s.source).depth with
  | error refused =>
      have hrefused : nested p.inside s references sources =
          (Carrier.carry (refuse refused s).toRun : Watched τ _) references sources := by
        rw [nested, Watched.bind_apply, Watched.carry_apply, Run.run_toRun, Stream.run_descend,
          hadmits]
        rfl
      rw [hrefused]
      exact hrefuse refused sources hstands
  | ok _ =>
      rw [nested, Watched.bind_apply]
      refine (moves_descend hstands hadmits).followed fun answer middle hanswer hmiddle => ?_
      subst hanswer
      refine (h middle hmiddle).followed fun outcome last houtcome hlast => ?_
      exact (moves_ascend hlast).followed fun _ rest _ hrest =>
        Watched.Keeps.pure houtcome rest hrest

variable [Quote τ]

/-- **A composed parser accounts for its moments** and gives back what it took, inside any number of
references, and goes on in the source in which it began. -/
theorem Composed.keeps {p : Parser τ α (Watched τ)} (hp : Composed p) {s : Stream}
    (hs : s.source = id) (references : Nat) :
    Watched.Keeps id limit base references (Outcome.Within (·.source = id)) (p s) := by
  induction hp generalizing s references with
  | exhausted => exact .exhausted
  | succeed value => exact .pure hs
  | fail message => exact (Watched.Keeps.here message s).bind fun _ _ => .pure trivial
  | satisfy expected test =>
      refine (Watched.Keeps.head s).bind fun token? _ => ?_
      cases token? with
      | none => exact .pure trivial
      | some token =>
          refine .emit_bind (fun _ => rfl) (by simp [Event.Still]) ?_
          refine (Watched.Keeps.note _).bind fun _ _ => ?_
          by_cases ha : test.accepts token = true
          · simp only [ha, if_true]
            exact (Watched.Keeps.tail s).bind fun rest hrest => .pure (hrest.trans hs)
          · simp only [ha]
            exact .pure trivial
  | eof =>
      refine (Watched.Keeps.head s).bind fun token? _ => ?_
      cases token? with
      | none => exact .pure hs
      | some token => exact .pure trivial
  | unusable phase message =>
      refine .emit_bind (fun _ => rfl) (by simp [Event.Still]) ?_
      exact (Watched.Keeps.here message s).bind fun _ _ => .pure trivial
  | calling callee _ ih =>
      exact .emit_bind (fun _ => rfl) (by simp [Event.Still]) (ih hs references)
  | sequel _ _ ihp ihnext =>
      refine (ihp hs references).bind fun outcome hrest => ?_
      cases outcome with
      | ok value rest => exact ihnext value hrest references
      | fail failure => exact .pure trivial
      | error failure => exact .pure trivial
  | orElse _ _ ihp ihq =>
      refine (ihp hs references).bind fun outcome hrest => ?_
      cases outcome with
      | ok value rest => exact .pure hrest
      | fail failure => exact ihq hs references
      | error failure => exact .pure trivial
  | label name _ ih =>
      refine (ih hs references).bind fun outcome hrest => ?_
      cases outcome <;> exact .pure hrest
  | commit _ ih =>
      refine (ih hs references).bind fun outcome hrest => ?_
      cases outcome with
      | fail failure =>
          exact .emit_bind (fun _ => rfl) (by simp [Event.Still]) (.pure trivial)
      | _ => exact .pure hrest
  | nested _ ih =>
      subst hs
      exact keeps_nested (fun refused => .refuse refused s) (ih rfl (references + 1))
  | attempt items _ _ ihp ihnext =>
      refine (ihp hs references).bind fun outcome hrest => ?_
      cases outcome with
      | ok item rest =>
          by_cases hstuck : rest.position = s.position
          · simp only [hstuck, if_true]
            exact .stall items hs
          · simp only [hstuck, if_false]
            exact ihnext item hrest references
      | fail failure => exact .pure hs
      | error failure => exact .pure trivial
  | observed _ ih =>
      refine .emit_bind (fun _ => rfl) (by simp [Event.Still]) ?_
      refine (ih hs references).bind fun outcome hrest => ?_
      exact .emit_bind (fun _ => rfl) (by simp [Event.Still]) (.pure hrest)

end Parser

/-! ### Plain grammars -/

variable [Quote τ] {σ : Signature}

/-- **Depth accounting.** However a parse of a plain grammar ends, the counter of its source is
back at its first value. Every moment on the way, also of a parse that has no end, is accounted
for: the counter is its first value and one for each deferred rule and each handle in progress,
within the limit. A counter kept in a word is exact at every moment, under a limit that is a word
or as long as what is in progress fits into one. The moments that are seen with some fuel are the
first of those that are seen with more. -/
theorem Grammar.depth_accounting {rules : Rules σ τ} (hrules : rules.Plain)
    {scope : Scope σ τ} (hscope : scope.Plain) {g : Grammar σ τ α} (hg : g.Plain) (fuel : Nat)
    {s : Stream} {sources : Sources τ} (hs : s.source < sources.next)
    (hstart : ∀ n, (sources.get s.source).config.maxDepth = some n →
      (sources.get s.source).depth ≤ n) :
    (∀ {step : Step τ (Outcome τ α)}, (parser rules fuel scope g s).run sources = some step →
      (step.sources.get s.source).depth = (sources.get s.source).depth ∧
        step.events = (watched rules scope g s sources fuel).moments.map Moment.event) ∧
    (∀ {before m after}, (watched rules scope g s sources fuel).moments = before ++ m :: after →
      m.Accounted s.source (sources.get s.source).config.maxDepth (sources.get s.source).depth ∧
      ((∃ n, (sources.get s.source).config.maxDepth = some n ∧ n < UInt64.size) ∨
          (∀ other ∈ before ++ [m], (sources.get s.source).depth + other.references +
            other.event.givenBack < UInt64.size) →
        (before.foldl (fun word other => other.event.count word)
          (UInt64.ofNat (sources.get s.source).depth)).toNat = (m.sources.get s.source).depth)) ∧
    ∀ {more}, fuel ≤ more →
      (watched rules scope g s sources fuel).Begins (watched rules scope g s sources more) := by
  have hstands : sources.Stands s.source (sources.get s.source).config.maxDepth
      ((sources.get s.source).depth + 0) := ⟨hs, rfl, rfl, hstart⟩
  obtain ⟨htallied, hlast⟩ := (hg.carried hrules fuel hscope).keeps rfl 0 sources hstands
  refine ⟨fun {step} hstep => ?_, fun {before m after} hsplit => ?_, fun hfuel => ?_⟩
  · rw [← watched_end] at hstep
    obtain ⟨⟨value, last⟩, hend, rfl⟩ := Option.map_eq_some_iff.mp hstep
    exact ⟨(hlast value last hend).2.1.depth_eq, rfl⟩
  · have hupTo : Tallied s.source (sources.get s.source).config.maxDepth
        (sources.get s.source).depth (sources.get s.source).depth (before ++ [m]) := by
      change Tallied _ _ _ _ (watched rules scope g s sources fuel).moments at htallied
      rw [hsplit, List.append_cons] at htallied
      exact (tallied_append.mp htallied).1
    refine ⟨hupTo.accounted (by simp), fun hroom => ?_⟩
    have hfits : ∀ other ∈ before ++ [m],
        (other.sources.get s.source).depth < UInt64.size := by
      intro other hother
      have haccount := hupTo.accounted hother
      rcases hroom with ⟨n, hn, hword⟩ | hroom
      · exact Nat.lt_of_le_of_lt (haccount.le_limit n hn) hword
      · rw [haccount.depth_eq]
        exact hroom other hother
    obtain ⟨first, hfirst, hdepth⟩ := hupTo.exists_depth_eq (by simp)
    have hword : (UInt64.ofNat (sources.get s.source).depth).toNat =
        (sources.get s.source).depth :=
      UInt64.toNat_ofNat_of_lt' (by rw [← hdepth]; exact hfits first hfirst)
    rw [← hword] at hupTo
    exact hupTo.count_eq hfits
  · exact watched_begins rules scope g s sources hfuel

/-- Two pairs of brackets under a limit of three: when the rule between the innermost brackets is
looked up, two handles and a deferred rule are in progress and the counter is at three, and it is
back at zero in the end. -/
theorem Brackets.depth_accounting_pairs : ∃ step m before after,
    (Grammar.parser rules 5 .empty grammar .start).run
        (store (some 3) [true, true, false, false]) = some step ∧
      step.value = .ok 2 ⟨0, 4⟩ ∧ (step.sources.get 0).depth = 0 ∧
      (Grammar.watched rules .empty grammar .start
        (store (some 3) [true, true, false, false]) 5).moments = before ++ m :: after ∧
      m.event = .called .thunk ∧ m.references = 3 ∧ (m.sources.get 0).depth = 3 ∧
      (before.foldl (fun word (other : Moment Bool) => other.event.count word) 0).toNat = 3 ∧
      m.Accounted 0 (some 3) 0 := by
  let sources := store (some 3) [true, true, false, false]
  have hrun : ((Grammar.parser rules 5 .empty grammar .start).run sources).map Step.value =
      some (.ok 2 ⟨0, 4⟩) := by decide +kernel
  have hthunk : ((Grammar.watched rules .empty grammar .start sources 5).moments.any fun m =>
      m.event = .called .thunk ∧ m.references = 3) = true := by decide +kernel
  have hs : Stream.start.source < sources.next := by decide
  have hstart : ∀ n, (sources.get 0).config.maxDepth = some n → (sources.get 0).depth ≤ n :=
    fun n _ => Nat.zero_le n
  obtain ⟨hend, hmoments, -⟩ :=
    Grammar.depth_accounting plain_rules plain_scope plain_grammar 5 hs hstart
  obtain ⟨step, hstep, hvalue⟩ := Option.map_eq_some_iff.mp hrun
  obtain ⟨m, hm, hmoment⟩ := List.any_eq_true.mp hthunk
  obtain ⟨hevent, hreferences⟩ := of_decide_eq_true hmoment
  obtain ⟨before, after, hsplit⟩ := List.append_of_mem hm
  obtain ⟨haccount, hword⟩ := hmoments hsplit
  have hdepth : (m.sources.get 0).depth = 3 := by
    have h := haccount.depth_eq
    rwa [hevent, hreferences] at h
  refine ⟨step, m, before, after, hstep, hvalue, (hend hstep).1, hsplit, hevent, hreferences,
    hdepth, ?_, haccount⟩
  rw [← hdepth]
  exact hword (.inl ⟨3, rfl, by decide⟩)

end Backtrack
