import Backtrack.Proofs.Workshop
import Backtrack.Proofs.Yields
import Backtrack.Script.Session

/-!
# The Rules of a Session

A session keeps parsers on a shelf and asks the shelf about the life of a rule whenever a handle is
run. Most commands leave the shelf alone; a few build, copy or drop a parser. None of them gets hold
of a rule that no register keeps alive, so in a session, too, a rule that is dropped stays dropped,
whatever is asked of the session afterwards.

## Main definitions

* `Shelf.Lost`: a rule that has a body and that no register keeps alive.
* `Session.Leads`: commands lead from one session to another.

## Main results

* `Shelf.phase_eq_dropped_iff`: the dropped rules are those that are lost.
* `Session.lost_perform`, `Session.Leads.lost`: no command brings a lost rule back.
* `Session.value_handle_dropped`: the handle of such a rule is an error from then on.
-/

namespace Backtrack

/-! ### Shelves -/

namespace Shelf

variable {κ : Type} {shelf : Shelf κ} {n : Nat}

/-- A rule is **lost** when it has a body and no register keeps it alive. -/
def Lost (shelf : Shelf κ) (n : Nat) : Prop :=
  n ∈ shelf.defined ∧ shelf.slots.Each fun holding => n ∉ holding.keeps

theorem phase_eq_dropped_iff : shelf.phase n = .dropped ↔ shelf.Lost n := by
  have hany : (shelf.slots.any fun holding => decide (n ∈ holding.keeps)) = false ↔
      shelf.slots.Each fun holding => n ∉ holding.keeps := by
    simp [Registers.any, Registers.Each]
  rw [phase, Lost, ← hany]
  by_cases hdefined : n ∈ shelf.defined
  · rw [if_pos hdefined, and_iff_right hdefined]
    cases shelf.slots.any fun holding => decide (n ∈ holding.keeps) <;> simp
  · simp [hdefined]

namespace Lost

/-- What is built from parsers keeps nothing alive that they do not. -/
theorem not_mem_parts (h : shelf.Lost n) (parts : List String) : n ∉ parts.flatMap shelf.keeps := by
  intro hmem
  obtain ⟨name, -, hkeeps⟩ := List.mem_flatMap.mp hmem
  rw [keeps] at hkeeps
  cases hslot : shelf.slots.get? name with
  | none => simp [hslot] at hkeeps
  | some holding =>
      rw [hslot] at hkeeps
      exact h.2.get? hslot hkeeps

/-- A register is written, if one is named, with what does not keep the rule alive. -/
private theorem put? (h : shelf.Lost n) (name : Option String) {holding : Holding κ}
    (hholding : n ∉ holding.keeps) :
    (shelf.slots.put? name holding).Each fun holding => n ∉ holding.keeps := by
  cases name with
  | none => exact h.2
  | some name => exact h.2.put name hholding

theorem put (h : shelf.Lost n) (name : Option String) (item : κ) (parts : List String) :
    (shelf.put name item parts).Lost n :=
  ⟨h.1, h.put? name (h.not_mem_parts parts)⟩

theorem declare (h : shelf.Lost n) : shelf.declare.2.Lost n := h

/-- A rule that gets its body now is another one. -/
theorem define (h : shelf.Lost n) (number : Nat) (name : Option String) (item : κ)
    (parts : List String) : (shelf.define number name item parts).Lost n := by
  by_cases hnew : number < shelf.declared ∧ number ∉ shelf.defined
  · have hne : n ≠ number := fun heq => hnew.2 (heq ▸ h.1)
    rw [Shelf.define, if_pos hnew]
    refine ⟨List.mem_cons_of_mem _ h.1, h.put? name ?_⟩
    exact List.not_mem_cons_of_ne_of_not_mem hne (h.not_mem_parts parts)
  · rwa [Shelf.define, if_neg hnew]

theorem copy (h : shelf.Lost n) (source : String) (target : Option String) :
    (shelf.copy source target).Lost n := by
  rw [Shelf.copy]
  cases hslot : shelf.slots.get? source with
  | none => exact h
  | some holding => exact ⟨h.1, h.put? target (h.2.get? hslot)⟩

theorem drop (h : shelf.Lost n) (name : String) : (shelf.drop name).Lost n :=
  ⟨h.1, h.2.erase name⟩

end Lost

end Shelf

namespace Script

variable {τ : Type}

namespace Session

/-! ### What commands leave alone -/

/-- **Wherever a run leads**, the parsers have the property `P`. -/
def Leaves (r : Run τ (Session τ × Answer τ)) (P : Shelf (Item τ) → Prop) : Prop :=
  ∀ (sources last : Sources τ) (result : Session τ × Answer τ),
    r.Gives sources result last → P result.1.parsers

section

variable {P : Shelf (Item τ) → Prop} {session : Session τ}

theorem leaves_pure {result : Session τ × Answer τ} (h : P result.1.parsers) :
    Leaves (pure result) P := by
  intro sources last other hgives
  obtain ⟨rfl, -⟩ := Run.gives_pure_iff.mp hgives
  exact h

/-- What is done before makes no difference. -/
theorem leaves_bind {α : Type} {r : Run τ α} {f : α → Run τ (Session τ × Answer τ)}
    (h : ∀ a, Leaves (f a) P) : Leaves (r >>= f) P := by
  intro sources last result hgives
  obtain ⟨a, middle, -, hrest⟩ := Run.gives_bind_iff.mp hgives
  exact h a middle last result hrest

variable (h : P session.parsers)

include h

theorem leaves_withTrack (register : String) {next : Track → Run τ (Session τ × Answer τ)}
    (hnext : ∀ track, Leaves (next track) P) : Leaves (session.withTrack register next) P := by
  rw [withTrack]
  cases session.streams.get? register with
  | none => exact leaves_pure h
  | some track => exact hnext track

theorem leaves_withStream (register : String) {next : Stream → Run τ (Session τ × Answer τ)}
    (hnext : ∀ s, Leaves (next s) P) : Leaves (session.withStream register next) P :=
  leaves_withTrack h register fun track => hnext track.stream

theorem leaves_withOutcome (register : String)
    {next : Outcome τ (Value τ) → Run τ (Session τ × Answer τ)}
    (hnext : ∀ o, Leaves (next o) P) : Leaves (session.withOutcome register next) P := by
  rw [withOutcome]
  cases session.outcomes.get? register with
  | none => exact leaves_pure h
  | some o => exact hnext o

theorem leaves_withFailure (message : String) (site : Site τ)
    {next : Failure τ → Run τ (Session τ × Answer τ)} (hnext : ∀ f, Leaves (next f) P) :
    Leaves (session.withFailure message site next) P := by
  cases site with
  | given found position => exact hnext _
  | stream register => exact leaves_withStream h register fun s => leaves_bind hnext

variable [DecidableEq τ] [Quote τ] [ToString τ]

theorem leaves_withParser (register : String)
    {next : Parser τ (Value τ) → Run τ (Session τ × Answer τ)}
    (hnext : ∀ p, Leaves (next p) P) : Leaves (session.withParser register next) P := by
  rw [withParser]
  cases session.parsers.get? register with
  | none => exact leaves_pure h
  | some item => exact hnext _

end

/-! ### Commands -/

variable [DecidableEq τ] [Quote τ] [ToString τ] {session : Session τ} {n : Nat}

/-- **No command brings a lost rule back.** -/
theorem lost_perform (h : session.parsers.Lost n) (command : Command τ) :
    Leaves (session.perform command) fun parsers => parsers.Lost n := by
  rw [perform.eq_def]
  cases command with
  | stream into feed => exact leaves_bind fun s => leaves_pure h
  | tail on into => exact leaves_withTrack h on fun track => leaves_bind fun rest => leaves_pure h
  | clone on into => exact leaves_withTrack h on fun track => leaves_pure h
  | head on => exact leaves_withStream h on fun s => leaves_bind fun t => leaves_pure h
  | isEnd on => exact leaves_withStream h on fun s => leaves_bind fun b => leaves_pure h
  | position on => exact leaves_withStream h on fun s => leaves_pure h
  | text on => exact leaves_withStream h on fun s => leaves_bind fun t => leaves_pure h
  | form on => exact leaves_withStream h on fun s => leaves_pure h
  | streamConfig on => exact leaves_withStream h on fun s => leaves_bind fun c => leaves_pure h
  | requests on =>
      exact leaves_withTrack h on fun track =>
        leaves_bind fun calls => leaves_bind fun released => leaves_pure h
  | sameStream a b =>
      exact leaves_withStream h a fun s => leaves_withStream h b fun t => leaves_pure h
  | config into base calls => exact leaves_pure h
  | sameConfig a b =>
      dsimp only
      cases session.configs.get? a with
      | none => exact leaves_pure h
      | some x =>
          cases session.configs.get? b with
          | none => exact leaves_pure h
          | some y => exact leaves_pure h
  | parser into node => exact leaves_pure (h.put into _ [])
  | recursive into handle name body =>
      exact leaves_pure ((h.declare.define _ into _ []).put handle _ [])
  | copy on into =>
      dsimp only
      cases session.parsers.get? on with
      | none => exact leaves_pure h
      | some item => exact leaves_pure (h.copy on into)
  | drop on => exact leaves_pure (h.drop on)
  | run on parser into rest =>
      refine leaves_withTrack h on fun track => leaves_withParser h parser fun p => ?_
      refine leaves_bind fun o => leaves_pure ?_
      cases o <;> exact h
  | parse on parser =>
      exact leaves_withStream h on fun s =>
        leaves_withParser h parser fun p => leaves_bind fun result => leaves_pure h
  | makeOk on value into => exact leaves_withStream h on fun s => leaves_pure h
  | makeFail message site into => exact leaves_withFailure h message site fun f => leaves_pure h
  | makeError message site into => exact leaves_withFailure h message site fun f => leaves_pure h
  | mapValue on f into => exact leaves_withOutcome h on fun o => leaves_pure h
  | andThen on parser into =>
      exact leaves_withOutcome h on fun o =>
        leaves_withParser h parser fun p => leaves_bind fun result => leaves_pure h
  | value on => exact leaves_withOutcome h on fun o => leaves_pure h
  | result on =>
      refine leaves_withOutcome h on fun o => ?_
      cases o.toExcept with
      | error e => exact leaves_pure h
      | ok found => exact leaves_bind fun view => leaves_pure h
  | remaining on =>
      refine leaves_withOutcome h on fun o => ?_
      cases o.remaining? with
      | none => exact leaves_pure h
      | some rest => exact leaves_bind fun view => leaves_pure h
  | outcomeForm on => exact leaves_withOutcome h on fun o => leaves_pure h
  | sameOutcome a b =>
      exact leaves_withOutcome h a fun o => leaves_withOutcome h b fun p => leaves_pure h
  | failure message site => exact leaves_withFailure h message site fun f => leaves_pure h

/-- **Commands lead** from a session and its sources to another session and what became of the
sources. -/
inductive Leads : Session τ → Sources τ → Session τ → Sources τ → Prop
  | none {session : Session τ} {sources : Sources τ} : Leads session sources session sources
  | more {first middle : Session τ} {sources between last : Sources τ} {command : Command τ}
      {result : Session τ × Answer τ} : Leads first sources middle between →
        (middle.perform command).Gives between result last → Leads first sources result.1 last

/-- What is lost is lost for ever. -/
theorem Leads.lost {later : Session τ} {sources last : Sources τ}
    (hleads : Leads session sources later last) (h : session.parsers.Lost n) :
    later.parsers.Lost n := by
  induction hleads with
  | none => exact h
  | more _ hgives ih => exact lost_perform ih _ _ _ _ hgives

/-! ### Handles -/

/-- The handle of a rule is run as the shelf tells of the rule's life. -/
theorem itemParser_handle (session : Session τ) (name : String) (body : Node τ) :
    ∃ p, session.itemParser (.handle n name body) =
      (Parser.handle (session.parsers.phase n) p).observed.observed := by
  obtain ⟨fuel, hfuel⟩ : ∃ fuel, ample = fuel + 1 := ⟨ample - 1, by decide⟩
  refine ⟨Grammar.parser session.table.rules fuel
    (Scope.rule .empty name (session.parsers.phase n) body.compile) body.compile, ?_⟩
  simp only [itemParser, parserOf, hfuel, Grammar.parser_succ, Grammar.interpret,
    Scope.find?_rule_self]

/-- **A rule that is dropped stays dropped.** From the moment that no register keeps a rule of a
session alive, its handle is the error that it was dropped, with the current token and position, on
every stream of whatever session commands lead to. -/
theorem value_handle_dropped {sources last : Sources τ} {later : Session τ}
    (h : session.parsers.phase n = .dropped) (hleads : Leads session sources later last)
    (name : String) (body : Node τ) (s : Stream) (store : Sources τ) :
    ((later.itemParser (.handle n name body) s).run store).map Step.value =
      some (.error ⟨Message.droppedRule, store.token s, s.position⟩) := by
  have hlater : later.parsers.phase n = .dropped :=
    Shelf.phase_eq_dropped_iff.mpr (hleads.lost (Shelf.phase_eq_dropped_iff.mp h))
  obtain ⟨p, hp⟩ := later.itemParser_handle (n := n) name body
  rw [hp, hlater, Parser.handle, Parser.run_observed, Parser.run_observed, Parser.run_unusable]
  rfl

end Session

end Script

end Backtrack
