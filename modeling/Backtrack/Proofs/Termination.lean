import Backtrack.Proofs.Fatal
import Backtrack.Proofs.Fuel
import Backtrack.Proofs.Position

/-!
# Termination

Under a limit on the nesting of references, every parse of a plain grammar over finitely many
tokens ends, whatever the rules are: they may refer to themselves before anything else, they
may consume nothing, and a repetition may be made of what succeeds without consuming. Three
quantities bear this, each in its place. A grammar is a finite tree, so a parse that makes no
reference ends by the structure of the tree. A reference uses up one level of those that the
limit leaves. A turn of a repetition that is followed by another turn uses up at least one of
the tokens ahead, for a parse never goes back and never passes the end.

Fuel bounds the levels and the turns alike, so a fuel greater than both together is enough.

## Main definitions

* `Bounded`: so many levels are left, and the tokens ahead end so soon.
* `Run.Ends`: a run that gives a result.
* `Parser.Total`: a composed parser that ends within bounds.
* `Activity.entries`: how many parsers are entered at a given level among events.

## Main results

* `Parser.Total.attempts`: a repetition ends if it may make more turns than tokens are ahead.
* `Grammar.Plain.total`: the parser of a plain grammar ends if it has fuel for both.
* `Parser.entries_attempts`: a repetition makes at most one call more than tokens are ahead.
* `Grammar.parse_ends`: termination and the number of calls, for all plain grammars.
-/

namespace Backtrack

variable {τ α β : Type}

/-! ### Bounds -/

/-- **Within bounds**: under the limit at most `room` references more can be under way on the
source of `s`, and at most `ahead` positions behind `s` there is no token. -/
structure Bounded (room ahead : Nat) (s : Stream) (sources : Sources τ) : Prop where
  source_lt : s.source < sources.next
  limited : ∃ limit, (sources.get s.source).config.maxDepth = some limit ∧
    limit ≤ (sources.get s.source).depth + room
  closed : ∃ stop, s.position ≤ stop ∧ stop ≤ s.position + ahead ∧
    sources.token ⟨s.source, stop⟩ = none

namespace Bounded

variable {room ahead : Nat} {s : Stream} {sources : Sources τ}

/-- More tokens may be ahead than there are. -/
theorem mono (h : Bounded room ahead s sources) {more : Nat} (hmore : ahead ≤ more) :
    Bounded room more s sources := by
  obtain ⟨hlt, hlimited, stop, hle, hstop, hnone⟩ := h
  exact ⟨hlt, hlimited, stop, hle, by omega, hnone⟩

/-- Inside a reference one level less is left, and outside one was left. -/
theorem enter (h : Bounded room ahead s sources)
    (hroom : (sources.get s.source).config.admits (sources.get s.source).depth = .ok ()) :
    ∃ less, room = less + 1 ∧ Bounded less ahead s (sources.modify s.source .enter) := by
  obtain ⟨hlt, ⟨limit, hlimit, hle⟩, stop, hclosed⟩ := h
  have hdepth := Config.admits_eq_ok_iff.mp hroom limit hlimit
  have henter : (sources.modify s.source .enter).get s.source = (sources.get s.source).enter :=
    Sources.get_modify_self hlt
  refine ⟨room - 1, by omega, ?_, ⟨limit, ?_, ?_⟩, stop, ?_⟩
  · rw [Sources.next_modify]
    exact hlt
  · rw [henter]
    exact hlimit
  · have hnow : (sources.get s.source).enter.depth = (sources.get s.source).depth + 1 := rfl
    rw [henter, hnow]
    omega
  · rw [Sources.token, henter, Source.token_enter]
    exact hclosed

variable [Quote τ]

/-- A parse leaves the bounds of its position as they were. -/
theorem course (h : Bounded room ahead s sources) {step : Step τ (Outcome τ α)}
    (hcourse : Course s sources step) : Bounded room ahead s step.sources := by
  obtain ⟨hlt, hlimited, hclosed⟩ := h
  refine ⟨?_, ?_, ?_⟩
  · rw [hcourse.next_eq]
    exact hlt
  · rw [hcourse.config_eq, hcourse.depth_eq hlt]
    exact hlimited
  · rw [hcourse.token_stream]
    exact hclosed

/-- **A success uses up what it passes** of the tokens ahead. -/
theorem behind (h : Bounded room ahead s sources) {step : Step τ (Outcome τ α)}
    (hcourse : Course s sources step) {value : α} {rest : Stream}
    (hvalue : step.value = .ok value rest) :
    s.position ≤ rest.position ∧ rest.position ≤ s.position + ahead ∧
      Bounded room (s.position + ahead - rest.position) rest step.sources := by
  have hsource : rest.source = s.source := hcourse.source_rest hvalue
  have hspans := hcourse.located.spans
  rw [hvalue] at hspans
  obtain ⟨hlt, hlimited, stop, hle, hstop, hnone⟩ := h.course hcourse
  have hstart : s.position ≤ rest.position := hspans.le
  have hend : rest.position ≤ stop :=
    hspans.le_of_token_eq_none hle (by rw [← hcourse.token_stream]; exact hnone)
  refine ⟨hstart, by omega, ?_, ?_, stop, hend, by omega, ?_⟩
  · rw [hsource]
    exact hlt
  · rw [hsource]
    exact hlimited
  · rw [hsource]
    exact hnone

end Bounded

/-! ### Runs that end -/

/-- A run that **ends** on a store, and does not run out of fuel. -/
def Run.Ends (r : Run τ α) (sources : Sources τ) : Prop := ∃ step, r.run sources = some step

namespace Run.Ends

variable {sources : Sources τ}

theorem pure (a : α) : (Pure.pure a : Run τ α).Ends sources := ⟨_, rfl⟩

theorem emit (event : Event τ) : (Run.emit event).Ends sources := ⟨_, rfl⟩

theorem act (a : Act τ α) : a.toRun.Ends sources := ⟨_, run_toRun a sources⟩

/-- Two runs end if the first does and the second does where the first left the store. -/
theorem bind {r : Run τ α} {f : α → Run τ β} (h : r.Ends sources)
    (hrest : ∀ step, r.run sources = some step → (f step.value).Ends step.sources) :
    (r >>= f).Ends sources := by
  obtain ⟨first, hfirst⟩ := h
  obtain ⟨second, hsecond⟩ := hrest first hfirst
  exact ⟨_, run_bind_eq_some_iff.mpr ⟨first, second, hfirst, hsecond, rfl⟩⟩

/-- Only after a success is there anything to go on with. -/
theorem andThen {f : α → Stream → Run τ (Outcome τ β)} {o : Outcome τ α}
    (h : ∀ a rest, o = .ok a rest → (f a rest).Ends sources) : (o.andThen f).Ends sources := by
  cases o with
  | ok a rest => exact h a rest rfl
  | fail failure => exact .pure _
  | error failure => exact .pure _

end Run.Ends

/-! ### Entries at a level -/

/-- How many parsers are entered among events **while just `level` parsers are under way**. At the
level of a repetition these are the calls of its inner parser. -/
def Activity.entries (level : Nat) : Activity → List (Event τ) → Nat
  | _, [] => 0
  | a, event :: events =>
    (if event.isEntry ∧ a.parsers.length = level then 1 else 0) +
      entries level (a.next event) events

theorem Activity.entries_append (level : Nat) (a : Activity) (xs ys : List (Event τ)) :
    a.entries level (xs ++ ys) = a.entries level xs + (a.after xs).entries level ys := by
  induction xs generalizing a with
  | nil => rw [List.nil_append, entries, after_nil, Nat.zero_add]
  | cons x xs ih => rw [List.cons_append, entries, entries, ih, after_cons, Nat.add_assoc]

/-- Events that are orderly by themselves leave the parsers around them alone, so **all their
entries are at higher levels**. -/
theorem Orderly.entries_above {id : Nat} {limit : Option Nat} {base : Nat} {a : Activity}
    {events : List (Event τ)} (h : Orderly id limit base a events) {b : Activity}
    {outer : List Stream} (hb : b.parsers = a.parsers ++ outer) {level : Nat}
    (hlevel : level < outer.length) :
    b.entries level events = 0 ∧ (b.after events).parsers = (a.after events).parsers ++ outer := by
  induction events generalizing a b with
  | nil => exact ⟨rfl, hb⟩
  | cons event events ih =>
      obtain ⟨hadmits, hrest⟩ := h
      have hnext : (b.next event).parsers = (a.next event).parsers ++ outer := by
        cases event with
        | entered start => rw [Activity.next, Activity.next, hb, List.cons_append]
        | returned outcome =>
            rw [Activity.next, Activity.next, hb]
            exact List.tail_append_of_ne_nil hadmits
        | _ => exact hb
      obtain ⟨hnone, hafter⟩ := ih hrest hnext
      have hlength : level < b.parsers.length := by
        rw [hb, List.length_append]
        omega
      refine ⟨?_, hafter⟩
      rw [Activity.entries, hnone, if_neg fun hentry => by omega]

/-! ### Parsers that end within bounds -/

variable [Quote τ]

/-- A composed parser that **ends within bounds**. -/
structure Parser.Total (room ahead : Nat) (p : Parser τ α) : Prop where
  composed : Composed p
  ends : ∀ {s sources}, Bounded room ahead s sources → (p s).Ends sources

namespace Parser.Total

variable {room ahead : Nat} {p : Parser τ α} {q : Parser τ β}

/-- What ends within bounds ends behind a success. -/
theorem behind (hq : Total room ahead q) (hp : Total room ahead p) {s : Stream}
    {sources : Sources τ} (hs : Bounded room ahead s sources) {step : Step τ (Outcome τ α)}
    (hstep : (p s).run sources = some step) {a : α} {rest : Stream}
    (hvalue : step.value = .ok a rest) : (q rest).Ends step.sources := by
  obtain ⟨hle, -, hrest⟩ := hs.behind (hp.composed.course hstep) hvalue
  exact hq.ends (hrest.mono (by omega))

/-- And it ends where it began, after another parse from there. -/
theorem again (hq : Total room ahead q) (hp : Total room ahead p) {s : Stream}
    {sources : Sources τ} (hs : Bounded room ahead s sources) {step : Step τ (Outcome τ α)}
    (hstep : (p s).run sources = some step) : (q s).Ends step.sources :=
  hq.ends (hs.course (hp.composed.course hstep))

theorem succeed (value : α) : Total room ahead (Parser.succeed value : Parser τ α) :=
  ⟨.succeed value, fun _ => .pure _⟩

theorem fail (message : String) : Total room ahead (Parser.fail message : Parser τ α) :=
  ⟨.fail message, fun _ => ⟨_, run_fail message _ _⟩⟩

theorem satisfy (expected : String) (test : Test τ) :
    Total room ahead (Parser.satisfy expected test) :=
  ⟨.satisfy expected test, fun _ => ⟨_, run_satisfy expected test _ _⟩⟩

theorem eof : Total room ahead (Parser.eof : Parser τ Unit) :=
  ⟨.eof, fun _ => ⟨_, run_eof _ _⟩⟩

theorem unusable (phase : Phase) (message : String) :
    Total room ahead (Parser.unusable phase message : Parser τ α) :=
  ⟨.unusable phase message, fun _ => ⟨_, run_unusable phase message _ _⟩⟩

theorem bind (hp : Total room ahead p) {next : α → Parser τ β}
    (hnext : ∀ a, Total room ahead (next a)) : Total room ahead (Parser.bind p next) := by
  refine ⟨.bind hp.composed fun a => (hnext a).composed, fun hs => ?_⟩
  refine (hp.ends hs).bind fun step hstep => .andThen fun a rest hvalue => ?_
  obtain ⟨last, hlast⟩ := (hnext a).behind hp hs hstep hvalue
  exact ⟨_, by rw [run_calling, hlast]; rfl⟩

theorem map (hp : Total room ahead p) (f : α → β) : Total room ahead (Parser.map f p) := by
  refine ⟨.map hp.composed f, fun hs => (hp.ends hs).bind fun _ _ => .andThen fun _ _ _ => ?_⟩
  exact (Run.Ends.emit _).bind fun _ _ => .pure _

theorem pair (hp : Total room ahead p) (hq : Total room ahead q) :
    Total room ahead (Parser.pair p q) := by
  refine ⟨.pair hp.composed hq.composed, fun hs => ?_⟩
  refine (hp.ends hs).bind fun step hstep => .andThen fun a rest hvalue => ?_
  exact (hq.behind hp hs hstep hvalue).bind fun _ _ => .pure _

theorem keepRight (hp : Total room ahead p) (hq : Total room ahead q) :
    Total room ahead (Parser.keepRight p q) :=
  ⟨.keepRight hp.composed hq.composed, fun hs => (hp.ends hs).bind fun _ hstep =>
    .andThen fun _ _ hvalue => hq.behind hp hs hstep hvalue⟩

theorem keepLeft (hp : Total room ahead p) (hq : Total room ahead q) :
    Total room ahead (Parser.keepLeft p q) := by
  refine ⟨.keepLeft hp.composed hq.composed, fun hs => ?_⟩
  refine (hp.ends hs).bind fun step hstep => .andThen fun a rest hvalue => ?_
  exact (hq.behind hp hs hstep hvalue).bind fun _ _ => .pure _

theorem orElse {q : Parser τ α} (hp : Total room ahead p) (hq : Total room ahead q) :
    Total room ahead (Parser.orElse p q) := by
  refine ⟨.orElse hp.composed hq.composed, fun hs => (hp.ends hs).bind fun step hstep => ?_⟩
  cases step.value with
  | fail failure => exact hq.again hp hs hstep
  | ok a rest => exact .pure _
  | error failure => exact .pure _

theorem optional (hp : Total room ahead p) : Total room ahead (Parser.optional p) := by
  refine ⟨.optional hp.composed, fun hs => (hp.ends hs).bind fun step _ => ?_⟩
  cases step.value <;> exact .pure _

theorem label (name : String) (hp : Total room ahead p) :
    Total room ahead (Parser.label name p) := by
  refine ⟨.label name hp.composed, fun hs => (hp.ends hs).bind fun step _ => ?_⟩
  cases step.value <;> exact .pure _

theorem commit (hp : Total room ahead p) : Total room ahead (Parser.commit p) := by
  refine ⟨.commit hp.composed, fun hs => (hp.ends hs).bind fun step _ => ?_⟩
  cases step.value with
  | fail failure => exact (Run.Ends.emit _).bind fun _ _ => .pure _
  | ok a rest => exact .pure _
  | error failure => exact .pure _

theorem observed (hp : Total room ahead p) : Total room ahead p.observed := by
  refine ⟨.observed hp.composed, fun {s sources} hs => ?_⟩
  obtain ⟨step, hstep⟩ := hp.ends hs
  exact ⟨_, by rw [run_observed, hstep]; rfl⟩

/-- **A reference uses up a level**: what is behind it need only end with one level less. -/
theorem nested (hp : Composed p) (hless : ∀ {less}, room = less + 1 → Total less ahead p) :
    Total room ahead (Parser.nested p) := by
  refine ⟨.nested hp, fun {s sources} hs => ?_⟩
  cases hroom : (sources.get s.source).config.admits (sources.get s.source).depth with
  | error limit => exact ⟨_, by rw [run_nested, hroom]⟩
  | ok _ =>
      obtain ⟨less, hlevel, hinner⟩ := hs.enter hroom
      obtain ⟨step, hstep⟩ := (hless hlevel).ends hinner
      exact ⟨_, by rw [run_nested, hroom, hstep]; rfl⟩

theorem deferred (hp : Composed p) (hless : ∀ {less}, room = less + 1 → Total less ahead p) :
    Total room ahead (Parser.deferred p) := by
  refine nested (.calling .thunk hp) fun hlevel => ⟨.calling .thunk hp, fun hs => ?_⟩
  obtain ⟨step, hstep⟩ := (hless hlevel).ends hs
  exact ⟨_, by rw [inside_eq, run_calling, hstep]; rfl⟩

theorem handle (hp : Composed p) (hless : ∀ {less}, room = less + 1 → Total less ahead p)
    (phase : Phase) : Total room ahead (Parser.handle phase p) := by
  cases phase with
  | undefined => exact nested (.unusable _ _) fun _ => unusable _ _
  | defined => exact nested hp hless
  | dropped => exact unusable _ _

/-- **A repetition ends** if it may make more turns than tokens are ahead: each turn that is
followed by another one uses up a token. -/
theorem attempts (hp : Total room ahead p) {turns left : Nat} (hturns : left < turns)
    (hleft : left ≤ ahead) {cursor : Stream} {sources : Sources τ}
    (hs : Bounded room left cursor sources) (items : List α) :
    (Parser.attempts p turns cursor items).Ends sources := by
  induction turns generalizing left cursor items sources with
  | zero => omega
  | succ turns ih =>
      refine (hp.ends (hs.mono hleft)).bind fun step hstep => ?_
      cases hvalue : step.value with
      | ok item rest =>
          by_cases hstuck : rest.position = cursor.position
          · simp only [hstuck, if_true]
            exact .act _
          · simp only [hstuck, if_false]
            obtain ⟨hle, hend, hrest⟩ := hs.behind (hp.composed.course hstep) hvalue
            exact ih (by omega) (by omega) hrest (item :: items)
      | fail failure => exact .pure _
      | error failure => exact .pure _

theorem many (hp : Total room ahead p) {turns : Nat} (hturns : ahead < turns) :
    Total room ahead (Parser.many turns p) :=
  ⟨.many hp.composed turns, fun hs => hp.attempts hturns (Nat.le_refl _) hs []⟩

end Parser.Total

namespace Grammar

variable {σ : Signature} {rules : Rules σ τ}

/-- One level of references: the parser of a plain grammar ends within bounds if what is behind
references ends with one level less. -/
theorem total_interpret (hrules : rules.Plain) {call : Interpreter σ τ}
    (hcall : ∀ {α : Type} {scope : Scope σ τ} {g : Grammar σ τ α}, scope.Plain → g.Plain →
      Parser.Composed (call scope g))
    {room ahead : Nat} (hless : ∀ {less}, room = less + 1 →
      ∀ {α : Type} {scope : Scope σ τ} {g : Grammar σ τ α}, scope.Plain → g.Plain →
        Parser.Total less ahead (call scope g))
    {turns : Nat} (hturns : ahead < turns) {g : Grammar σ τ α} (hg : g.Plain)
    {scope : Scope σ τ} (hscope : scope.Plain) :
    Parser.Total room ahead (g.interpret rules call turns scope) := by
  induction g generalizing scope with
  | succeed value => exact .observed (.succeed value)
  | fail message => exact .observed (.fail message)
  | satisfy expected test => exact .observed (.satisfy expected test)
  | eof => exact .observed .eof
  | bind g next ihg ihnext =>
      exact .observed (.bind (ihg hg.1 hscope) fun a => ihnext a (hg.2 a) hscope)
  | map f g ihg => exact .observed (.map (ihg hg hscope) f)
  | pair g h ihg ihh => exact .observed (.pair (ihg hg.1 hscope) (ihh hg.2 hscope))
  | keepRight g h ihg ihh => exact .observed (.keepRight (ihg hg.1 hscope) (ihh hg.2 hscope))
  | keepLeft g h ihg ihh => exact .observed (.keepLeft (ihg hg.1 hscope) (ihh hg.2 hscope))
  | orElse g h ihg ihh => exact .observed (.orElse (ihg hg.1 hscope) (ihh hg.2 hscope))
  | optional g ihg => exact .observed (.optional (ihg hg hscope))
  | many g ihg => exact .observed (.many (ihg hg hscope) hturns)
  | label name g ihg => exact .observed (.label name (ihg hg hscope))
  | commit g ihg => exact .observed (.commit (ihg hg hscope))
  | deferred name =>
      exact .observed (.deferred (hcall hscope (hrules name)) fun hlevel =>
        hless hlevel hscope (hrules name))
  | recursive name body ih => exact .observed (ih hg ⟨hscope, hg⟩)
  | handle name =>
      rw [interpret_handle]
      cases h : scope.find? name with
      | none => exact .observed (.unusable _ _)
      | some rule =>
          obtain ⟨hhome, hbody⟩ := hscope.find? h
          exact .observed (.handle (hcall hhome hbody) (fun hlevel => hless hlevel hhome hbody)
            rule.phase)
  | withRule name phase body g _ ihg => exact .observed (ihg hg.2 ⟨hscope, hg.1⟩)
  | around before after g => exact hg.elim

/-- **The parser of a plain grammar ends within bounds**, with fuel for the levels left and the
tokens ahead. -/
theorem Plain.total (hrules : rules.Plain) {fuel room ahead : Nat} (hfuel : room + ahead < fuel)
    {scope : Scope σ τ} (hscope : scope.Plain) {g : Grammar σ τ α} (hg : g.Plain) :
    Parser.Total room ahead (parser rules fuel scope g) := by
  induction fuel generalizing α room scope g with
  | zero => omega
  | succ fuel ih =>
      have hcall : ∀ {α : Type} {scope : Scope σ τ} {g : Grammar σ τ α}, scope.Plain → g.Plain →
          Parser.Composed (parser rules fuel scope g) :=
        fun hs hp => hp.composed hrules fuel hs
      have hless : ∀ {less}, room = less + 1 → ∀ {α : Type} {scope : Scope σ τ}
          {g : Grammar σ τ α}, scope.Plain → g.Plain →
            Parser.Total less ahead (parser rules fuel scope g) := by
        intro less hlevel α scope g hs hp
        exact ih (by omega) hs hp
      exact total_interpret hrules hcall hless (by omega) hg hscope

end Grammar

/-! ### The calls of a repetition -/

namespace Parser

variable {p : Parser τ α}

/-- A run of a node **enters one parser at the level where it begins**, the node itself. -/
theorem Node.entries (hp : Node p) {s : Stream} {sources : Sources τ}
    (hs : s.source < sources.next) {step : Step τ (Outcome τ α)}
    (hstep : (p s).run sources = some step) (a : Activity) :
    a.entries a.parsers.length step.events = 1 ∧ (a.after step.events).parsers = a.parsers := by
  obtain ⟨q, hq, rfl⟩ := hp
  rw [run_observed] at hstep
  obtain ⟨inner, hinner, rfl⟩ := Option.map_eq_some_iff.mp hstep
  obtain ⟨horderly, hafter⟩ := (hq.course hinner).settled (a := {}) hs rfl
  have hentered : (a.next (.entered s : Event τ)).parsers = [] ++ s :: a.parsers := rfl
  have hlevel : a.parsers.length < (s :: a.parsers).length := Nat.lt_succ_self _
  obtain ⟨hnone, hparsers⟩ := horderly.entries_above hentered hlevel
  rw [hafter, List.nil_append] at hparsers
  rw [List.cons_append, Activity.entries, Activity.entries_append, hnone, Activity.after_cons,
    Activity.after_append]
  constructor
  · simp [Activity.entries, Event.isEntry]
  · exact congrArg List.tail hparsers

/-- **A repetition makes at most one call more than tokens are ahead**: it goes on only behind a
success that advances, and there is no advance past the end. -/
theorem entries_attempts (hp : Node p) {cursor : Stream} {sources : Sources τ}
    (hs : cursor.source < sources.next) {stop : Nat} (hle : cursor.position ≤ stop)
    (hstop : sources.token ⟨cursor.source, stop⟩ = none) {turns : Nat} {items : List α}
    {step : Step τ (Outcome τ (List α))}
    (hstep : (attempts p turns cursor items).run sources = some step) (a : Activity) :
    a.entries a.parsers.length step.events ≤ stop - cursor.position + 1 := by
  induction turns generalizing cursor items sources step a with
  | zero => cases hstep
  | succ turns ih =>
      rw [run_attempts_succ] at hstep
      obtain ⟨⟨value, middle, events⟩, hfirst, hrest⟩ := Option.bind_eq_some_iff.mp hstep
      have hcourse := hp.composed.course hfirst
      obtain ⟨hone, hparsers⟩ := hp.entries hs hfirst a
      cases value with
      | ok item rest =>
          by_cases hstuck : rest.position = cursor.position
          · simp only [hstuck, if_true] at hrest
            obtain rfl := Option.some.inj hrest
            have hstall : ∀ b : Activity, b.entries a.parsers.length
                ((stall items.reverse cursor).run middle).events = 0 := by
              intro b
              rw [run_stall]
              cases (middle.get cursor.source).config.repetition <;> rfl
            rw [Step.after, Activity.entries_append, hone, hstall]
            omega
          · simp only [hstuck, if_false] at hrest
            obtain ⟨last, hlast, rfl⟩ := Option.map_eq_some_iff.mp hrest
            have hsource : rest.source = cursor.source := hcourse.source_rest rfl
            have hspans : sources.Spans cursor rest.position := hcourse.located.spans
            have hadvance := hspans.le
            have hend := hspans.le_of_token_eq_none hle hstop
            have hlater := ih (by rw [hsource, hcourse.next_eq]; exact hs) hend
              (by rw [hsource, hcourse.token_stream]; exact hstop) hlast (a.after events)
            rw [hparsers] at hlater
            rw [Step.after, Activity.entries_append, hone]
            omega
      | fail failure =>
          obtain rfl := Option.some.inj hrest
          rw [hone]
          omega
      | error failure =>
          obtain rfl := Option.some.inj hrest
          rw [hone]
          omega

end Parser

namespace Grammar

variable {σ : Signature} {rules : Rules σ τ}

/-- While a repetition alone is under way, it enters at most one parser more than tokens are
ahead. -/
theorem entries_many (hrules : rules.Plain) {scope : Scope σ τ} (hscope : scope.Plain)
    {g : Grammar σ τ α} (hg : g.Plain) {fuel : Nat} {s : Stream} {sources : Sources τ}
    (hs : s.source < sources.next) {stop : Nat} (hle : s.position ≤ stop)
    (hstop : sources.token ⟨s.source, stop⟩ = none) {step : Step τ (Outcome τ (List α))}
    (hstep : (parser rules fuel scope g.many s).run sources = some step) :
    Activity.entries 1 {} step.events ≤ stop - s.position + 1 := by
  cases fuel with
  | zero => cases hstep
  | succ fuel =>
      have hnode : Parser.Node (g.interpret rules (parser rules fuel) (fuel + 1) scope) :=
        node_interpret hrules (fun hs hp => hp.composed hrules fuel hs) (fuel + 1) hg hscope
      have unfolded : parser rules (fuel + 1) scope g.many = (Parser.many (fuel + 1)
        (g.interpret rules (parser rules fuel) (fuel + 1) scope)).observed := rfl
      rw [unfolded, Parser.run_observed] at hstep
      obtain ⟨loop, hloop, rfl⟩ := Option.map_eq_some_iff.mp hstep
      have hcalls := Parser.entries_attempts hnode hs hle hstop hloop { parsers := [s] }
      rw [List.cons_append, Activity.entries, Activity.entries_append]
      simpa [Activity.entries, Activity.next, Event.isEntry] using hcalls

/-- **Termination under a limit.** Over finitely many tokens and under a limit on the nesting of
references, a parse of a plain grammar ends, from every position and at every depth, and every
fuel for the levels left and the tokens ahead gives the same end. With or without a limit,
every repetition on the way has ended when the parse has, and at a position `i` of `n` tokens
it made at most `n - i + 1` calls of its inner parser. -/
theorem parse_ends (hrules : rules.Plain) {scope : Scope σ τ} (hscope : scope.Plain)
    {g : Grammar σ τ α} (hg : g.Plain) {s : Stream} {sources : Sources τ}
    (hs : s.source < sources.next) {tokens : List τ}
    (htokens : (sources.get s.source).HasTokens tokens) :
    (∀ {limit : Nat}, (sources.get s.source).config.maxDepth = some limit →
      ∃ step, ∀ fuel,
        limit - (sources.get s.source).depth + (tokens.length - s.position) < fuel →
          (parser rules fuel scope g s).run sources = some step) ∧
    ∀ {fuel : Nat} {step : Step τ (Outcome τ α)},
      (parser rules fuel scope g s).run sources = some step →
      ∀ {β : Type} {inner : Grammar σ τ β} {home : Scope σ τ} {less : Nat} {t : Stream}
        {store : Sources τ} {before : List (Event τ)}, inner.Plain → home.Plain →
        (parser rules less home inner.many).Invoked t store (parser rules fuel scope g) s sources
          before →
        ∃ loop after, (parser rules less home inner.many t).run store = some loop ∧
          step.events = before ++ loop.events ++ after ∧
          Activity.entries 1 {} loop.events ≤ tokens.length - t.position + 1 := by
  -- Without a token at or behind the end, the tokens ahead end there.
  have hend : ∀ i, sources.token ⟨s.source, max tokens.length i⟩ = none := by
    intro i
    rw [Sources.token, htokens]
    exact List.getElem?_eq_none (Nat.le_max_left _ _)
  constructor
  · intro limit hlimit
    let room := limit - (sources.get s.source).depth
    let ahead := tokens.length - s.position
    have hbounded : Bounded room ahead s sources :=
      ⟨hs, ⟨limit, hlimit, by omega⟩, max tokens.length s.position, Nat.le_max_right _ _,
        by omega, hend s.position⟩
    have hfirst := (hg.total hrules (Nat.lt_succ_self (room + ahead)) hscope).ends hbounded
    obtain ⟨step, hstep⟩ := hfirst
    exact ⟨step, fun fuel hfuel => parser_le rules hfuel scope g s sources step hstep⟩
  · intro fuel step hstep β inner home less t store before hinner hhome hinvoked
    obtain ⟨loop, after, hloop, hevents⟩ := hinvoked.segment hstep
    have hsource : t.source = s.source := hinvoked.source_eq
    have hstore := hinvoked.store_eq
    have ht : t.source < store.next := by
      rw [hstore, Sources.next_replay, hsource]
      exact hs
    have hstop : store.token ⟨t.source, max tokens.length t.position⟩ = none := by
      rw [hsource, hstore, Sources.token, Sources.token_replay]
      exact hend t.position
    have hcalls := entries_many hrules hhome hinner ht (Nat.le_max_right _ _) hstop hloop
    exact ⟨loop, after, hloop, hevents, by omega⟩

end Grammar

/-- A rule that refers to itself before anything else. -/
def Brackets.leftward : Grammar names Bool Nat :=
  .recursive () (.keepRight (.handle ()) (.succeed (0 : Nat)))

/-- The rule that refers to itself is stopped by a limit of three, and a repetition of brackets,
which succeed without consuming once the input is over, ends after two calls. -/
theorem Brackets.parse_ends_leftward :
    (∃ step, (∀ fuel, 3 - 0 + (2 - 0) < fuel →
        (Grammar.parser rules fuel .empty leftward .start).run
          (.single (.lazy supply { maxDepth := some 3 })) = some step) ∧
      step.value = .error ⟨Message.recursionLimit 3, some true, 0⟩) ∧
    ∃ loop, (Grammar.parser rules 5 .empty grammar.many .start).run
        (.single (.lazy supply .standard)) = some loop ∧
      loop.value = .ok [1] ⟨0, 2⟩ ∧ Activity.entries 1 {} loop.events ≤ 2 - 0 + 1 := by
  have htokens : ∀ config, ((Sources.single (.lazy supply config)).get
      Stream.start.source).HasTokens [true, false] :=
    fun config => Source.hasTokens_lazy (show supply 2 = none from rfl) config
  constructor
  · have hplain : leftward.Plain := ⟨trivial, trivial⟩
    obtain ⟨step, hstep⟩ := (Grammar.parse_ends plain_rules plain_scope hplain (by decide)
      (htokens { maxDepth := some 3 })).1 rfl
    have hrun : ((Grammar.parser rules 6 .empty leftward .start).run
        (.single (.lazy supply { maxDepth := some 3 }))).map Step.value =
          some (.error ⟨Message.recursionLimit 3, some true, 0⟩) := by decide +kernel
    obtain ⟨other, hother, hvalue⟩ := Option.map_eq_some_iff.mp hrun
    obtain rfl := Option.some.inj ((hstep 6 (by decide)).symm.trans hother)
    exact ⟨step, hstep, hvalue⟩
  · have hrun : ((Grammar.parser rules 5 .empty grammar.many .start).run
        (.single (.lazy supply .standard))).map Step.value = some (.ok [1] ⟨0, 2⟩) := by
      decide +kernel
    obtain ⟨step, hstep, hvalue⟩ := Option.map_eq_some_iff.mp hrun
    obtain ⟨loop, after, hloop, -, hcalls⟩ := (Grammar.parse_ends (g := grammar.many)
      plain_rules plain_scope plain_grammar (by decide) (htokens .standard)).2 hstep
        plain_grammar plain_scope .itself
    obtain rfl := Option.some.inj (hstep.symm.trans hloop)
    exact ⟨step, hstep, hvalue, hcalls⟩

end Backtrack
