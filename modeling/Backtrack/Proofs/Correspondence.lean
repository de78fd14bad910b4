import Backtrack.Grammar.Interpret
import Backtrack.Proofs.Reading

/-!
# Computations That Correspond

The combinators are written once for all carriers of runs. So what relates the computations of
two carriers, and is kept by sequencing, also relates the parsers that a combinator makes of
related parts, whatever the carriers are and whatever they keep beside the run. This module proves
it for each combinator, and for the grammars that are run by them.

Three facts are cases of it: more fuel keeps every run that ends, runs that keep a ledger of the
rules do what runs without it do, and a run that is watched does what it does unwatched.

## Main definitions

* `Usable`: events among which no handle was unusable.
* `Correspondence`: what relates the computations of two carriers.
* `Correspondence.Parsers`: parsers that correspond wherever they are run.

## Main results

* `Correspondence.interpret`: if the grammars behind references correspond, so do all grammars.
-/

namespace Backtrack

variable {τ α β : Type}

/-! ### Events on the way -/

/-- Events among which **no handle was unusable**. -/
def Usable (events : List (Event τ)) : Prop :=
  ∀ place phase, Event.unusable place phase ∉ events

@[simp]
theorem usable_nil : Usable ([] : List (Event τ)) :=
  fun _ _ => List.not_mem_nil

@[simp]
theorem usable_cons {event : Event τ} {events : List (Event τ)} :
    Usable (event :: events) ↔ (∀ place phase, event ≠ .unusable place phase) ∧ Usable events := by
  simp only [Usable, List.mem_cons, not_or, forall_and, ne_eq, eq_comm (b := event)]

@[simp]
theorem usable_append {xs ys : List (Event τ)} : Usable (xs ++ ys) ↔ Usable xs ∧ Usable ys := by
  simp only [Usable, List.mem_append, not_or, forall_and]

@[simp]
theorem usable_noted (texts : List String) :
    Usable (texts.map (Event.noted : String → Event τ)) := by
  intro place phase h
  obtain ⟨text, -, htext⟩ := List.mem_map.mp h
  cases htext

/-- A run that comes to **no unusable handle**. -/
def Run.Usable (r : Run τ α) : Prop :=
  ∀ sources step, r.run sources = some step → Backtrack.Usable step.events

namespace Run

theorem usable_exhausted : (exhausted : Run τ α).Usable :=
  fun _ _ h => nomatch h

theorem usable_emit {event : Event τ} (h : ∀ place phase, event ≠ .unusable place phase) :
    (emit event).Usable := by
  intro sources step hstep
  obtain rfl := Option.some.inj hstep
  exact usable_cons.mpr ⟨h, usable_nil⟩

theorem usable_toRun {act : Act τ α} (h : ∀ sources, Backtrack.Usable (act.run sources).events) :
    act.toRun.Usable := by
  intro sources step hstep
  rw [run_toRun] at hstep
  obtain rfl := Option.some.inj hstep
  exact h sources

end Run

/-! ### Correspondences -/

/-- What makes the computations of a carrier `m` and of a carrier `n` **correspond**. It has to be
kept by sequencing, and what both carry is to correspond unless it comes to an unusable handle. -/
structure Correspondence (τ : Type) (m n : Type → Type) [Monad m] [Carrier τ m] [Monad n]
    [Carrier τ n] where
  /-- The computations correspond. -/
  Rel {α : Type} : m α → n α → Prop
  pure {α : Type} (a : α) : Rel (pure a) (pure a)
  bind {α β : Type} {r : m α} {q : n α} {f : α → m β} {g : α → n β} :
    Rel r q → (∀ a, Rel (f a) (g a)) → Rel (r >>= f) (q >>= g)
  carry {α : Type} {r : Run τ α} : r.Usable → Rel (Carrier.carry r) (Carrier.carry r)
  inside {α : Type} {r : m α} {q : n α} :
    Rel r q → Rel (Carrier.inside r) (Carrier.inside q)

namespace Correspondence

variable {m n : Type → Type} [Monad m] [Carrier τ m] [Monad n] [Carrier τ n]
  (R : Correspondence τ m n)

theorem emit {event : Event τ} (h : ∀ place phase, event ≠ .unusable place phase) :
    R.Rel (Carrier.carry (Run.emit event)) (Carrier.carry (Run.emit event)) :=
  R.carry (Run.usable_emit h)

theorem act {act : Act τ α} (h : ∀ sources, Usable (act.run sources).events) :
    R.Rel (Carrier.carry act.toRun) (Carrier.carry act.toRun) :=
  R.carry (Run.usable_toRun h)

theorem andThen (o : Outcome τ α) {f : α → Stream → m (Outcome τ β)}
    {g : α → Stream → n (Outcome τ β)} (h : ∀ a rest, R.Rel (f a rest) (g a rest)) :
    R.Rel (o.andThen f) (o.andThen g) := by
  cases o with
  | ok a rest => exact h a rest
  | fail failure => exact R.pure _
  | error failure => exact R.pure _

/-- Parsers that **correspond wherever they are run**. -/
def Parsers (p : Parser τ α m) (q : Parser τ α n) : Prop :=
  ∀ s, R.Rel (p s) (q s)

/-! ### Primitives -/

theorem here (message : String) (s : Stream) :
    R.Rel (Carrier.carry (Failure.here message s).toRun)
      (Carrier.carry (Failure.here message s).toRun) :=
  R.act fun sources => by simp

theorem exhausted : R.Parsers (fun _ => Carrier.carry (Run.exhausted : Run τ (Outcome τ α)))
    fun _ => Carrier.carry Run.exhausted :=
  fun _ => R.carry Run.usable_exhausted

theorem succeed (value : α) : R.Parsers (.succeed value) (.succeed value) :=
  fun _ => R.pure _

theorem fail (message : String) :
    R.Parsers (.fail message : Parser τ α m) (.fail message) :=
  fun s => R.bind (R.here message s) fun _ => R.pure _

theorem satisfy [Quote τ] (expected : String) (test : Test τ) :
    R.Parsers (.satisfy expected test) (.satisfy expected test) := by
  refine fun s => R.bind (R.act fun sources => by simp) fun token? => ?_
  cases token? with
  | none => exact R.pure _
  | some token =>
      refine R.bind (R.emit (by simp)) fun _ => R.bind (R.act fun sources => by simp) fun _ => ?_
      by_cases h : test.accepts token = true
      · simp only [h, if_true]
        exact R.bind (R.act fun sources => by simp) fun _ => R.pure _
      · simp only [h]
        exact R.pure _

theorem eof [Quote τ] : R.Parsers .eof .eof := by
  refine fun s => R.bind (R.act fun sources => by simp) fun token? => ?_
  cases token? <;> exact R.pure _

/-- What becomes of an unusable handle is the same if meeting one is. -/
theorem unusable {phase : Phase}
    (h : ∀ s, R.Rel (Carrier.carry (Run.emit (.unusable s phase)))
      (Carrier.carry (Run.emit (.unusable s phase)))) (message : String) :
    R.Parsers (.unusable phase message : Parser τ α m) (.unusable phase message) :=
  fun s => R.bind (h s) fun _ => R.bind (R.here message s) fun _ => R.pure _

/-! ### Combinators -/

namespace Parsers

variable {R} {p : Parser τ α m} {q : Parser τ α n}

theorem calling (callee : Callee) (h : R.Parsers p q) :
    R.Parsers (.calling callee p) (.calling callee q) :=
  fun s => R.bind (R.emit (by simp)) fun _ => h s

theorem bind (h : R.Parsers p q) {next : α → Parser τ β m} {other : α → Parser τ β n}
    (hnext : ∀ a, R.Parsers (next a) (other a)) : R.Parsers (.bind p next) (.bind q other) :=
  fun s => R.bind (h s) fun o => R.andThen o fun a rest => (hnext a).calling .continuation rest

theorem map (f : α → β) (h : R.Parsers p q) : R.Parsers (.map f p) (.map f q) :=
  fun s => R.bind (h s) fun o => R.andThen o fun a rest =>
    (R.succeed (f a)).calling .function rest

theorem pair (h : R.Parsers p q) {p' : Parser τ β m} {q' : Parser τ β n} (h' : R.Parsers p' q') :
    R.Parsers (.pair p p') (.pair q q') :=
  fun s => R.bind (h s) fun o => R.andThen o fun _ rest => R.bind (h' rest) fun _ => R.pure _

theorem keepRight (h : R.Parsers p q) {p' : Parser τ β m} {q' : Parser τ β n}
    (h' : R.Parsers p' q') : R.Parsers (.keepRight p p') (.keepRight q q') :=
  fun s => R.bind (h s) fun o => R.andThen o fun _ rest => h' rest

theorem keepLeft (h : R.Parsers p q) {p' : Parser τ β m} {q' : Parser τ β n}
    (h' : R.Parsers p' q') : R.Parsers (.keepLeft p p') (.keepLeft q q') :=
  fun s => R.bind (h s) fun o => R.andThen o fun _ rest => R.bind (h' rest) fun _ => R.pure _

theorem orElse (h : R.Parsers p q) {p' : Parser τ α m} {q' : Parser τ α n}
    (h' : R.Parsers p' q') : R.Parsers (.orElse p p') (.orElse q q') := by
  refine fun s => R.bind (h s) fun o => ?_
  cases o with
  | ok value rest => exact R.pure _
  | fail failure => exact h' s
  | error failure => exact R.pure _

theorem optional (h : R.Parsers p q) : R.Parsers (.optional p) (.optional q) := by
  refine fun s => R.bind (h s) fun o => ?_
  cases o <;> exact R.pure _

theorem label [Quote τ] (name : String) (h : R.Parsers p q) :
    R.Parsers (.label name p) (.label name q) := by
  refine fun s => R.bind (h s) fun o => ?_
  cases o <;> exact R.pure _

theorem commit (h : R.Parsers p q) : R.Parsers (.commit p) (.commit q) := by
  refine fun s => R.bind (h s) fun o => ?_
  cases o with
  | ok value rest => exact R.pure _
  | fail failure => exact R.bind (R.emit (by simp)) fun _ => R.pure _
  | error failure => exact R.pure _

theorem observed (h : R.Parsers p q) : R.Parsers p.observed q.observed :=
  fun s => R.bind (R.emit (by simp)) fun _ => R.bind (h s) fun _ =>
    R.bind (R.emit (by simp)) fun _ => R.pure _

theorem inside (h : R.Parsers p q) : R.Parsers p.inside q.inside :=
  fun s => R.inside (h s)

theorem nested (h : R.Parsers p q) : R.Parsers (.nested p) (.nested q) := by
  intro s
  have hdescend (sources : Sources τ) : Usable ((s.descend.run sources).events) := by
    rw [Stream.run_descend]
    cases (sources.get s.source).config.admits (sources.get s.source).depth <;> simp
  refine R.bind (R.act hdescend) fun answer => ?_
  cases answer with
  | error limit => exact R.act fun sources => by simp [Parser.refuse]
  | ok _ =>
      exact R.bind (h s) fun _ => R.bind (R.act fun sources => by simp) fun _ => R.pure _

theorem deferred (h : R.Parsers p q) : R.Parsers (.deferred p) (.deferred q) :=
  (h.calling .thunk).inside.nested

/-- A repetition of parts that correspond, where the second makes more turns only if what has run
out of fuel corresponds to everything. -/
theorem attempts (h : R.Parsers p q) {turns more : Nat} (hturns : turns ≤ more)
    (hmore : turns < more → ∀ r : n (Outcome τ (List α)), R.Rel (Carrier.carry Run.exhausted) r)
    (items : List α) :
    R.Parsers (fun s => Parser.attempts p turns s items)
      fun s => Parser.attempts q more s items := by
  induction turns generalizing more items with
  | zero =>
      intro s
      cases more with
      | zero => exact R.exhausted s
      | succ more => exact hmore (Nat.succ_pos _) _
  | succ turns ih =>
      obtain ⟨more, rfl⟩ : ∃ k, more = k + 1 := ⟨more - 1, by omega⟩
      refine fun s => R.bind (h s) fun o => ?_
      cases o with
      | ok item rest =>
          by_cases hrest : rest.position = s.position
          · have hstall (sources : Sources τ) :
                Usable ((Parser.stall items.reverse s).run sources).events := by
              cases hpol : (sources.get s.source).config.repetition <;>
                simp [Parser.stall, hpol]
            simp only [hrest, if_true]
            exact R.act hstall
          · simp only [hrest, if_false]
            exact ih (Nat.le_of_succ_le_succ hturns) (fun hlt => hmore (by omega))
              (item :: items) rest
      | fail failure => exact R.pure _
      | error failure => exact R.pure _

theorem many (h : R.Parsers p q) {turns more : Nat} (hturns : turns ≤ more)
    (hmore : turns < more → ∀ r : n (Outcome τ (List α)), R.Rel (Carrier.carry Run.exhausted) r) :
    R.Parsers (.many turns p) (.many more q) :=
  h.attempts hturns hmore []

end Parsers

/-! ### Grammars -/

/-- Where everything that is carried corresponds, so do **the grammars of one level of references**
if those behind the references do. -/
theorem interpret [Quote τ] {σ : Signature} {rules : Rules σ τ}
    (hcarry : ∀ {α : Type} (r : Run τ α), R.Rel (Carrier.carry r) (Carrier.carry r))
    {call : Interpreter σ τ m} {other : Interpreter σ τ n}
    (hcall : ∀ {α : Type} (scope : Scope σ τ) (g : Grammar σ τ α),
      R.Parsers (call scope g) (other scope g))
    {turns more : Nat} (hturns : turns ≤ more)
    (hmore : turns < more → ∀ {α : Type} (r : n α), R.Rel (Carrier.carry Run.exhausted) r)
    {α : Type} (g : Grammar σ τ α) (scope : Scope σ τ) :
    R.Parsers (g.interpret rules call turns scope) (g.interpret rules other more scope) := by
  have hunusable {α : Type} (phase : Phase) (message : String) :
      R.Parsers (.unusable phase message : Parser τ α m) (.unusable phase message) :=
    R.unusable (fun _ => hcarry _) message
  induction g generalizing scope with
  | succeed value => exact (R.succeed value).observed
  | fail message => exact (R.fail message).observed
  | satisfy expected test => exact (R.satisfy expected test).observed
  | eof => exact R.eof.observed
  | bind g next ihg ihnext => exact ((ihg scope).bind fun a => ihnext a scope).observed
  | map f g ihg => exact ((ihg scope).map f).observed
  | pair g h ihg ihh => exact ((ihg scope).pair (ihh scope)).observed
  | keepRight g h ihg ihh => exact ((ihg scope).keepRight (ihh scope)).observed
  | keepLeft g h ihg ihh => exact ((ihg scope).keepLeft (ihh scope)).observed
  | orElse g h ihg ihh => exact ((ihg scope).orElse (ihh scope)).observed
  | optional g ihg => exact (ihg scope).optional.observed
  | many g ihg => exact ((ihg scope).many hturns fun hlt => hmore hlt).observed
  | label name g ihg => exact ((ihg scope).label name).observed
  | commit g ihg => exact (ihg scope).commit.observed
  | deferred name => exact (hcall scope (rules name)).deferred.observed
  | recursive name body ih => exact (ih _).observed
  | handle name =>
      rw [Grammar.interpret_handle, Grammar.interpret_handle]
      cases scope.find? name with
      | none => exact (hunusable _ _).observed
      | some rule =>
          obtain ⟨phase, body, home⟩ := rule
          cases phase with
          | undefined => exact (hunusable _ _).inside.nested.observed
          | defined => exact (hcall home body).inside.nested.observed
          | dropped => exact (hunusable _ _).observed
  | withRule name phase body g _ ihg => exact (ihg _).observed
  | around before after g ihg =>
      refine Parsers.observed fun s => R.bind (hcarry _) fun start => ?_
      exact R.bind (ihg scope start) fun outcome => hcarry _

/-- **The grammars of all levels correspond**, also under different fuel if what has run out of
fuel corresponds to everything. -/
theorem carried [Quote τ] {σ : Signature} {rules : Rules σ τ}
    (hcarry : ∀ {α : Type} (r : Run τ α), R.Rel (Carrier.carry r) (Carrier.carry r))
    {fuel more : Nat} (hfuel : fuel ≤ more)
    (hmore : fuel < more → ∀ {α : Type} (r : n α), R.Rel (Carrier.carry Run.exhausted) r)
    {α : Type} (scope : Scope σ τ) (g : Grammar σ τ α) :
    R.Parsers (Grammar.carried rules fuel scope g) (Grammar.carried rules more scope g) := by
  induction fuel generalizing more α scope g with
  | zero =>
      intro s
      cases more with
      | zero => exact R.exhausted s
      | succ more => exact hmore (Nat.succ_pos _) _
  | succ fuel ih =>
      obtain ⟨more, rfl⟩ : ∃ k, more = k + 1 := ⟨more - 1, by omega⟩
      have hless : fuel ≤ more := Nat.le_of_succ_le_succ hfuel
      exact R.interpret hcarry (ih hless fun hlt => hmore (by omega)) hfuel hmore g scope

end Correspondence

end Backtrack
