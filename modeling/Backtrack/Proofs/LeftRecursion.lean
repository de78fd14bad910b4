import Backtrack.Proofs.Fatal
import Backtrack.Proofs.Separation

/-!
# Left Recursion

A rule that refers to itself before it has looked at anything comes back to where it began, one
level deeper, until the limit refuses the next reference. The refusal is a fatal error, and what
stands around the references passes it on as it is: nothing is tried instead, nothing goes on
behind it, and no function is asked about it. So the parse ends in the error of the limit, where it
began, after as many references as there was room for.

What stands around a reference is a context whose hole is run first. A reference is the handle of
a recursive rule or a deferred rule of the table, and the two differ only in that the table is
asked for the rule each time.

## Main definitions

* `Leftmost`: the contexts, and `Leftmost.fill`, which puts a grammar in the hole.
* `Event.within`, `Event.plunge`: what happens in the layers of a context, and in a reference that
  ends in the limit.
* `EndsInLimit`: what a parse is that does nothing else.

## Main results

* `Leftmost.run_fill`: a context passes an error of its hole on.
* `Grammar.Refers.run_plunge`: a reference in its own leftmost position ends in the limit.
* `Grammar.left_recursion`: so do recursive rules and rules of the table.
-/

namespace Backtrack

variable {σ : Signature} {τ α β γ : Type}

/-! ### Contexts -/

/-- **Contexts with their hole in the leftmost position**: the hole is run first, and everything
else is an argument that would be run behind it or instead of it. -/
inductive Leftmost (σ : Signature) (τ α : Type) : Type → Type 1 where
  | hole : Leftmost σ τ α α
  | map {β γ : Type} (f : β → γ) (context : Leftmost σ τ α β) : Leftmost σ τ α γ
  | replace {β γ : Type} (value : γ) (context : Leftmost σ τ α β) : Leftmost σ τ α γ
  | label {β : Type} (name : String) (context : Leftmost σ τ α β) : Leftmost σ τ α β
  | commit {β : Type} (context : Leftmost σ τ α β) : Leftmost σ τ α β
  | optional {β : Type} (context : Leftmost σ τ α β) : Leftmost σ τ α (Option β)
  | matched {β : Type} (context : Leftmost σ τ α β) : Leftmost σ τ α Bool
  | many {β : Type} (context : Leftmost σ τ α β) : Leftmost σ τ α (List β)
  | many1 {β : Type} (context : Leftmost σ τ α β) : Leftmost σ τ α (List β)
  | bind {β γ : Type} (context : Leftmost σ τ α β) (next : β → Grammar σ τ γ) : Leftmost σ τ α γ
  | pair {β γ : Type} (context : Leftmost σ τ α β) (h : Grammar σ τ γ) : Leftmost σ τ α (β × γ)
  | keepRight {β γ : Type} (context : Leftmost σ τ α β) (h : Grammar σ τ γ) : Leftmost σ τ α γ
  | keepLeft {β γ : Type} (context : Leftmost σ τ α β) (h : Grammar σ τ γ) : Leftmost σ τ α β
  | sepBy1 {β γ : Type} (context : Leftmost σ τ α β) (separator : Grammar σ τ γ) :
      Leftmost σ τ α (List β)
  | orElse {β : Type} (context : Leftmost σ τ α β) (h : Grammar σ τ β) : Leftmost σ τ α β

namespace Leftmost

/-- Puts a grammar in the hole. -/
def fill (g : Grammar σ τ α) : {β : Type} → Leftmost σ τ α β → Grammar σ τ β
  | _, .hole => g
  | _, .map f context => .map f (context.fill g)
  | _, .replace value context => (context.fill g).replace value
  | _, .label name context => .label name (context.fill g)
  | _, .commit context => .commit (context.fill g)
  | _, .optional context => .optional (context.fill g)
  | _, .matched context => (context.fill g).matched
  | _, .many context => .many (context.fill g)
  | _, .many1 context => (context.fill g).many1
  | _, .bind context next => .bind (context.fill g) next
  | _, .pair context h => .pair (context.fill g) h
  | _, .keepRight context h => .keepRight (context.fill g) h
  | _, .keepLeft context h => .keepLeft (context.fill g) h
  | _, .sepBy1 context separator => (context.fill g).sepBy1 separator
  | _, .orElse context h => .orElse (context.fill g) h

/-- The number of **layers around the hole**, each a node of the grammar that is run before the
hole is. -/
def layers : {β : Type} → Leftmost σ τ α β → Nat
  | _, .hole => 0
  | _, .map _ context => context.layers + 1
  | _, .replace _ context => context.layers + 1
  | _, .label _ context => context.layers + 1
  | _, .commit context => context.layers + 1
  | _, .optional context => context.layers + 1
  | _, .matched context => context.layers + 2
  | _, .many context => context.layers + 1
  | _, .many1 context => context.layers + 2
  | _, .bind context _ => context.layers + 1
  | _, .pair context _ => context.layers + 1
  | _, .keepRight context _ => context.layers + 1
  | _, .keepLeft context _ => context.layers + 1
  | _, .sepBy1 context _ => context.layers + 2
  | _, .orElse context _ => context.layers + 1

end Leftmost

/-! ### What happens -/

namespace Event

/-- Whether an event is the beginning of a reference. -/
def isDescent : Event τ → Bool
  | .descended _ _ => true
  | _ => false

/-- Events **within layers** that are entered before and return the error behind them. -/
def within (layers : Nat) (s : Stream) (failure : Failure τ) (events : List (Event τ)) :
    List (Event τ) :=
  match layers with
  | 0 => events
  | layers + 1 => .entered s :: within layers s failure events ++ [.returned (.error failure)]

/-- The events of **a reference that comes back to itself** behind the given calls and layers, with
`free` levels left above `depth`. Without a free level it is refused. -/
def plunge (layers : Nat) (calls : List Callee) (s : Stream) (failure : Failure τ) :
    (free depth : Nat) → List (Event τ)
  | 0, depth => within 1 s failure [.refused s depth, .inspected s]
  | free + 1, depth =>
    within 1 s failure (.descended s (depth + 1) ::
      (calls.map .called ++
        within layers s failure (plunge layers calls s failure free (depth + 1))) ++
      [.ascended s depth])

variable {layers : Nat} {calls : List Callee} {s : Stream} {failure : Failure τ}
  {events : List (Event τ)} {callee : Callee}

/-- Layers begin no references. -/
theorem countP_isDescent_within :
    (within layers s failure events).countP isDescent = events.countP isDescent := by
  induction layers with
  | zero => rfl
  | succ layers ih => simp [within, isDescent, ih]

/-- Each layer is entered once. -/
theorem countP_isEntry_within :
    (within layers s failure events).countP isEntry = layers + events.countP isEntry := by
  induction layers with
  | zero => exact (Nat.zero_add _).symm
  | succ layers ih =>
      simp only [within, isEntry, List.cons_append, List.countP_cons, List.countP_append, ih,
        List.countP_nil, if_true, Bool.false_eq_true, if_false]
      omega

/-- Layers call nothing. -/
theorem called_mem_within_iff :
    .called callee ∈ within layers s failure events ↔ .called callee ∈ events := by
  induction layers with
  | zero => exact Iff.rfl
  | succ layers ih => simp [within, ih]

/-- Layers look at nothing. -/
theorem inspects_within {P : Stream → Prop} (h : Inspects P events) :
    Inspects P (within layers s failure events) := by
  induction layers with
  | zero => exact h
  | succ layers ih => simp [within, ih]

/-- Calls begin no references. -/
private theorem countP_isDescent_calls (calls : List Callee) :
    (calls.map (Event.called : Callee → Event τ)).countP isDescent = 0 := by
  simp [List.countP_eq_zero, isDescent]

/-- Calls enter no parsers. -/
private theorem countP_isEntry_calls (calls : List Callee) :
    (calls.map (Event.called : Callee → Event τ)).countP isEntry = 0 := by
  simp [List.countP_eq_zero, isEntry]

/-- **Every free level is used.** -/
theorem countP_isDescent_plunge (free depth : Nat) :
    (plunge layers calls s failure free depth).countP isDescent = free := by
  induction free generalizing depth with
  | zero => rfl
  | succ free ih =>
      simp only [plunge, countP_isDescent_within, List.cons_append, List.countP_cons,
        List.countP_append, countP_isDescent_calls, ih]
      simp [isDescent]

/-- On every level the reference is entered, and the layers around it on all but the last. -/
theorem countP_isEntry_plunge (free depth : Nat) :
    (plunge layers calls s failure free depth).countP isEntry = free * (layers + 1) + 1 := by
  induction free generalizing depth with
  | zero =>
      rw [Nat.zero_mul]
      rfl
  | succ free ih =>
      simp only [plunge, countP_isEntry_within, List.cons_append, List.countP_cons,
        List.countP_append, countP_isEntry_calls, ih, Nat.succ_mul]
      simp only [isEntry, List.countP_nil, Bool.false_eq_true, if_false]
      omega

/-- Nothing else is called. -/
theorem called_mem_plunge {free depth : Nat}
    (h : .called callee ∈ plunge layers calls s failure free depth) : callee ∈ calls := by
  induction free generalizing depth with
  | zero => simp [plunge, within] at h
  | succ free ih =>
      simp only [plunge, called_mem_within_iff, List.cons_append, List.mem_cons, List.mem_append,
        List.mem_map, reduceCtorEq, Event.called.injEq, exists_eq_right, false_or, or_false,
        List.not_mem_nil] at h
      exact h.elim id ih

/-- Calls look at nothing. -/
private theorem inspects_calls {P : Stream → Prop} (calls : List Callee) :
    Inspects P (calls.map (Event.called : Callee → Event τ)) := by
  intro place h
  obtain ⟨callee, -, hcallee⟩ := List.mem_map.mp h
  cases hcallee

/-- **Only the token where it begins is looked at.** -/
theorem inspects_plunge (free depth : Nat) :
    Inspects (· = s) (plunge layers calls s failure free depth) := by
  induction free generalizing depth with
  | zero => exact inspects_within (by simp)
  | succ free ih =>
      refine inspects_within ?_
      have hinner : Inspects (· = s)
          (within layers s failure (plunge layers calls s failure free (depth + 1))) :=
        inspects_within (ih _)
      simp [inspects_calls, hinner]

end Event

/-- The failure of **a reference that the limit refuses** at `s`. -/
def Sources.refusal (sources : Sources τ) (s : Stream) (limit : Nat) : Failure τ :=
  ⟨Message.recursionLimit limit, sources.token s, s.position⟩

/-- One more reference that is active does not change the failure. -/
theorem Sources.refusal_enter {sources : Sources τ} {s : Stream} (hs : s.source < sources.next)
    (limit : Nat) : (sources.modify s.source .enter).refusal s limit = sources.refusal s limit := by
  have htoken : (sources.modify s.source .enter).token s = sources.token s := by
    rw [token, get_modify_self hs, Source.token_enter]
    rfl
  rw [refusal, refusal, htoken]

/-- **A parse that does nothing but end in the limit**, of references with the given layers around
them, in `outer` layers of its own. -/
structure EndsInLimit (layers outer : Nat) (calls : List Callee) (limit : Nat) (s : Stream)
    (sources : Sources τ) (step : Step τ (Outcome τ α)) : Prop where
  /-- The error is that of the limit, with the token and the position where the parse began. -/
  value_eq : step.value = .error ⟨Message.recursionLimit limit, sources.token s, s.position⟩
  /-- All that is left is a look at that token. -/
  sources_eq : step.sources = sources.look s
  /-- This is all that happens. -/
  events_eq : step.events = Event.within outer s (sources.refusal s limit)
    (Event.plunge layers calls s (sources.refusal s limit)
      (limit - (sources.get s.source).depth) (sources.get s.source).depth)
  /-- The references active at the end are those active at the beginning. -/
  depth_eq : (step.sources.get s.source).depth = (sources.get s.source).depth
  /-- As many references become active as there is room for. -/
  activations : step.events.countP Event.isDescent = limit - (sources.get s.source).depth
  /-- No parsers are run but the references and the layers around them. -/
  entries : step.events.countP Event.isEntry =
    outer + (limit - (sources.get s.source).depth) * (layers + 1) + 1
  /-- Nothing is called but what a reference calls. -/
  called : ∀ callee, .called callee ∈ step.events → callee ∈ calls
  /-- No token is looked at but the one where the parse began. -/
  inspected : Inspects (· = s) step.events

/-- A parse ends in the limit if its error, what it leaves and its events say so. -/
theorem EndsInLimit.of_events {layers outer limit : Nat} {calls : List Callee} {s : Stream}
    {sources : Sources τ} :
    EndsInLimit layers outer calls limit s sources (α := α)
      ⟨.error (sources.refusal s limit), sources.look s,
        Event.within outer s (sources.refusal s limit)
          (Event.plunge layers calls s (sources.refusal s limit)
            (limit - (sources.get s.source).depth) (sources.get s.source).depth)⟩ where
  value_eq := rfl
  sources_eq := rfl
  events_eq := rfl
  depth_eq := sources.depth_look s s.source
  activations := by rw [Event.countP_isDescent_within, Event.countP_isDescent_plunge]
  entries := by
    rw [Event.countP_isEntry_within, Event.countP_isEntry_plunge]
    exact (Nat.add_assoc _ _ _).symm
  called _ h := Event.called_mem_plunge (Event.called_mem_within_iff.mp h)
  inspected := Event.inspects_within (Event.inspects_plunge _ _)

/-! ### Errors are passed on -/

namespace Parser

/-- The parser `q` runs `p` first and **passes its errors on** without doing anything else. -/
def PassesOn (p : Parser τ α) (q : Parser τ β) : Prop :=
  ∀ ⦃s : Stream⦄ ⦃sources last : Sources τ⦄ ⦃failure : Failure τ⦄ ⦃events : List (Event τ)⦄,
    (p s).run sources = some ⟨.error failure, last, events⟩ →
      (q s).run sources = some ⟨.error failure, last, events⟩

namespace PassesOn

theorem refl (p : Parser τ α) : PassesOn p p :=
  fun _ _ _ _ _ hp => hp

theorem trans {p : Parser τ α} {q : Parser τ β} {r : Parser τ γ} (h : PassesOn p q)
    (h' : PassesOn q r) : PassesOn p r :=
  fun _ _ _ _ _ hp => h' (h hp)

theorem sequel (p : Parser τ α) (next : α → Parser τ β) : PassesOn p (sequel p next) := by
  intro s sources last failure events h
  rw [run_sequel, h]
  rfl

theorem orElse (p q : Parser τ α) : PassesOn p (orElse p q) := by
  intro s sources last failure events h
  rw [run_orElse, h]
  rfl

theorem label [Quote τ] (name : String) (p : Parser τ α) : PassesOn p (label name p) := by
  intro s sources last failure events h
  rw [run_label, h]
  rfl

theorem commit (p : Parser τ α) : PassesOn p (commit p) := by
  intro s sources last failure events h
  rw [run_commit, h]
  rfl

theorem many (turns : Nat) (p : Parser τ α) : PassesOn p (many (turns + 1) p) := by
  intro s sources last failure events h
  rw [Parser.many, run_attempts_succ, h]
  rfl

theorem bind (p : Parser τ α) (next : α → Parser τ β) : PassesOn p (bind p next) :=
  sequel p fun a => calling .continuation (next a)

theorem map (f : α → β) (p : Parser τ α) : PassesOn p (map f p) :=
  sequel p fun a => calling .function (succeed (f a))

theorem pair (p : Parser τ α) (q : Parser τ β) : PassesOn p (pair p q) := by
  rw [pair_eq_sequel]
  exact sequel p _

theorem keepRight (p : Parser τ α) (q : Parser τ β) : PassesOn p (keepRight p q) :=
  sequel p fun _ => q

theorem keepLeft (p : Parser τ α) (q : Parser τ β) : PassesOn p (keepLeft p q) := by
  rw [keepLeft_eq_sequel]
  exact sequel p _

theorem optional (p : Parser τ α) : PassesOn p (optional p) := by
  rw [optional_eq_orElse]
  exact (sequel p _).trans (orElse _ _)

/-- What passes an error on is **one more layer** around what happened. -/
theorem observed {p : Parser τ α} {q : Parser τ β} (hq : PassesOn p q) {layers : Nat} {s : Stream}
    {sources last : Sources τ} {failure : Failure τ} {events : List (Event τ)}
    (h : (p s).run sources =
      some ⟨.error failure, last, Event.within layers s failure events⟩) :
    (q.observed s).run sources =
      some ⟨.error failure, last, Event.within (layers + 1) s failure events⟩ := by
  rw [run_observed, hq h]
  rfl

end PassesOn

end Parser

section

variable [Quote τ] {rules : Rules σ τ} {scope : Scope σ τ} {s : Stream} {sources : Sources τ}

/-- A context passes an error of its hole on, whatever runs the grammars behind references. -/
private theorem Leftmost.interpret_fill {g : Grammar σ τ α} {call : Interpreter σ τ} {turns : Nat}
    {last : Sources τ} {failure : Failure τ} {events : List (Event τ)}
    (h : (g.interpret rules call (turns + 1) scope s).run sources =
      some ⟨.error failure, last, events⟩) (context : Leftmost σ τ α β) :
    ((context.fill g).interpret rules call (turns + 1) scope s).run sources =
      some ⟨.error failure, last, Event.within context.layers s failure events⟩ := by
  induction context with
  | hole => exact h
  | map f context ih => exact (Parser.PassesOn.map f _).observed ih
  | replace value context ih => exact (Parser.PassesOn.map _ _).observed ih
  | label name context ih => exact (Parser.PassesOn.label name _).observed ih
  | commit context ih => exact (Parser.PassesOn.commit _).observed ih
  | optional context ih => exact (Parser.PassesOn.optional _).observed ih
  | matched context ih =>
      exact (Parser.PassesOn.map _ _).observed ((Parser.PassesOn.optional _).observed ih)
  | many context ih => exact (Parser.PassesOn.many turns _).observed ih
  | many1 context ih =>
      exact (Parser.PassesOn.map _ _).observed ((Parser.PassesOn.pair _ _).observed ih)
  | bind context next ih => exact (Parser.PassesOn.bind _ _).observed ih
  | pair context h ih => exact (Parser.PassesOn.pair _ _).observed ih
  | keepRight context h ih => exact (Parser.PassesOn.keepRight _ _).observed ih
  | keepLeft context h ih => exact (Parser.PassesOn.keepLeft _ _).observed ih
  | sepBy1 context separator ih =>
      exact (Parser.PassesOn.map _ _).observed ((Parser.PassesOn.pair _ _).observed ih)
  | orElse context h ih => exact (Parser.PassesOn.orElse _ _).observed ih

/-- **A context passes an error of its hole on**, and nothing of it is run but its layers. -/
theorem Leftmost.run_fill {g : Grammar σ τ α} {fuel : Nat} {last : Sources τ}
    {failure : Failure τ} {events : List (Event τ)}
    (h : (Grammar.parser rules fuel scope g s).run sources =
      some ⟨.error failure, last, events⟩) (context : Leftmost σ τ α β) :
    (Grammar.parser rules fuel scope (context.fill g) s).run sources =
      some ⟨.error failure, last, Event.within context.layers s failure events⟩ := by
  cases fuel with
  | zero => cases h
  | succ fuel => exact context.interpret_fill h

namespace Grammar

/-! ### References to oneself -/

/-- The grammar `r` is **a reference to `g`**: it runs `g` one level deeper, behind some calls. -/
def Refers (rules : Rules σ τ) (scope : Scope σ τ) (calls : List Callee) (r g : Grammar σ τ α) :
    Prop :=
  ∀ fuel, ∃ p : Parser τ α, parser rules (fuel + 1) scope r = (Parser.nested p).observed ∧
    ∀ t store, (p t).run store =
      ((parser rules fuel scope g t).run store).map (Step.after (calls.map .called))

/-- A handle is a reference to the body of its rule. -/
theorem refers_handle {name : σ.Name} {body : Grammar σ τ (σ.Value name)} :
    Refers rules (scope.rule name .defined body) [] (.handle name) body := by
  intro fuel
  have hrule := Scope.find?_rule_self scope name .defined body
  exact ⟨_, parser_handle hrule fuel, fun t store => (Step.map_after_nil _).symm⟩

/-- A deferred rule is a reference to the rule in the table, which is asked for it. -/
theorem refers_deferred {name : σ.Name} :
    Refers rules scope [.thunk] (.deferred name) (rules name) :=
  fun fuel => ⟨_, rfl, fun t store =>
    Parser.run_calling .thunk (parser rules fuel scope (rules name)) t store⟩

variable {r g : Grammar σ τ α} {calls : List Callee} {fuel : Nat}

/-- A reference without a free level is refused. -/
theorem Refers.run_refused (hr : Refers rules scope calls r g) {limit : Nat}
    (hlimit : (sources.get s.source).config.maxDepth = some limit)
    (hdepth : (sources.get s.source).depth = limit) :
    (parser rules (fuel + 1) scope r s).run sources =
      some ⟨.error (sources.refusal s limit), sources.look s,
        Event.within 1 s (sources.refusal s limit) [.refused s limit, .inspected s]⟩ := by
  obtain ⟨p, hp, -⟩ := hr fuel
  have hrefused : (sources.get s.source).config.admits (sources.get s.source).depth =
      .error limit :=
    Config.admits_eq_error_iff.mpr ⟨hlimit, Nat.le_of_eq hdepth.symm⟩
  rw [hp, Parser.run_observed, Parser.run_nested, hrefused]
  rfl

/-- A reference that is admitted passes on the error of what it refers to, and the level that it
entered is left. -/
theorem Refers.run_admitted (hr : Refers rules scope calls r g) {failure : Failure τ}
    {events : List (Event τ)}
    (hadmits : (sources.get s.source).config.admits (sources.get s.source).depth = .ok ())
    (hinner : (parser rules fuel scope g s).run (sources.modify s.source .enter) =
      some ⟨.error failure, (sources.modify s.source .enter).look s, events⟩) :
    (parser rules (fuel + 1) scope r s).run sources =
      some ⟨.error failure, sources.look s,
        Event.within 1 s failure (.descended s ((sources.get s.source).depth + 1) ::
          (calls.map .called ++ events) ++ [.ascended s (sources.get s.source).depth])⟩ := by
  obtain ⟨p, hp, hbody⟩ := hr fuel
  have hstore : ((sources.modify s.source .enter).look s).modify s.source .leave =
      sources.look s := by
    rw [Sources.look, Sources.modify_modify, Sources.modify_modify]
    rfl
  have hrun := hbody s (sources.modify s.source .enter)
  rw [hinner] at hrun
  rw [hp, Parser.run_observed, Parser.run_nested, hadmits]
  simp only [hrun, Option.map_some, Step.after, hstore, sources.depth_look]
  rfl

/-- **A reference in its own leftmost position ends in the limit**, after one reference for each
free level. -/
theorem Refers.run_plunge {context : Leftmost σ τ α α}
    (hr : Refers rules scope calls r (context.fill r)) (hs : s.source < sources.next)
    {limit free : Nat} (hlimit : (sources.get s.source).config.maxDepth = some limit)
    (hfree : (sources.get s.source).depth + free = limit) (hfuel : free < fuel) :
    (parser rules fuel scope r s).run sources =
      some ⟨.error (sources.refusal s limit), sources.look s,
        Event.plunge context.layers calls s (sources.refusal s limit) free
          (sources.get s.source).depth⟩ := by
  -- One level after another, with the counter of the source one higher each time.
  induction free generalizing sources fuel with
  | zero =>
      obtain ⟨fuel, rfl⟩ := Nat.exists_eq_add_of_lt hfuel
      have hdepth : (sources.get s.source).depth = limit := hfree
      rw [hr.run_refused hlimit hdepth, hdepth, Event.plunge]
  | succ free ih =>
      obtain ⟨fuel, rfl⟩ : ∃ more, fuel = more + 1 := ⟨fuel - 1, by omega⟩
      have hget : (sources.modify s.source .enter).get s.source = (sources.get s.source).enter :=
        Sources.get_modify_self hs
      have hnext : s.source < (sources.modify s.source .enter).next := by
        rw [Sources.next_modify]
        exact hs
      have hinner := ih hnext (by rw [hget]; exact hlimit)
        (by rw [hget, ← hfree]; exact Nat.succ_add_eq_add_succ _ _) (show free < fuel by omega)
      rw [hget, Sources.refusal_enter hs] at hinner
      have hadmits : (sources.get s.source).config.admits (sources.get s.source).depth =
          .ok () := by
        simp only [Config.admits, hlimit, ← hfree]
        exact if_neg (by omega)
      exact hr.run_admitted hadmits (context.run_fill hinner)

/-! ### Rules -/

/-- **Left recursion ends in the limit.** Where a rule refers to itself in the leftmost position of
any context, recursively or through the table, its parse is over with the error of the limit at
the position where it began. Until then there are as many references as there was room for; no
argument of the context is run and no function called, and the level is what it was. -/
theorem left_recursion {name : σ.Name} (context : Leftmost σ τ (σ.Value name) (σ.Value name))
    (hs : s.source < sources.next) {limit : Nat}
    (hlimit : (sources.get s.source).config.maxDepth = some limit)
    (hdepth : (sources.get s.source).depth ≤ limit) :
    (∃ step, (∀ fuel, limit - (sources.get s.source).depth < fuel →
        (parser rules fuel scope (.recursive name (context.fill (.handle name))) s).run sources =
          some step) ∧
      EndsInLimit context.layers (context.layers + 1) [] limit s sources step) ∧
    (rules name = context.fill (.deferred name) →
      (∃ step, (∀ fuel, limit - (sources.get s.source).depth < fuel →
          (parser rules fuel scope (rules name) s).run sources = some step) ∧
        EndsInLimit context.layers context.layers [.thunk] limit s sources step) ∧
      ∃ step, (∀ fuel, limit - (sources.get s.source).depth < fuel →
          (parser rules fuel scope (.deferred name) s).run sources = some step) ∧
        EndsInLimit context.layers 0 [.thunk] limit s sources step) := by
  have hfree : (sources.get s.source).depth + (limit - (sources.get s.source).depth) = limit :=
    Nat.add_sub_cancel' hdepth
  constructor
  · refine ⟨_, fun fuel hfuel => ?_, .of_events⟩
    have hhandle : Refers rules (scope.rule name .defined (context.fill (.handle name))) []
        (.handle name) (context.fill (.handle name)) := refers_handle
    have hbody := context.run_fill (hhandle.run_plunge hs hlimit hfree hfuel)
    obtain ⟨fuel, rfl⟩ : ∃ more, fuel = more + 1 := ⟨fuel - 1, by omega⟩
    exact (Parser.PassesOn.refl _).observed hbody
  · intro htable
    have hdeferred : Refers rules scope [.thunk] (.deferred name)
        (context.fill (.deferred name)) := htable ▸ refers_deferred
    constructor
    · refine ⟨_, fun fuel hfuel => ?_, .of_events⟩
      rw [htable]
      exact context.run_fill (hdeferred.run_plunge hs hlimit hfree hfuel)
    · exact ⟨_, fun fuel hfuel => hdeferred.run_plunge hs hlimit hfree hfuel, .of_events⟩

end Grammar

end

namespace Brackets

/-- A pair more than the reference finds, and a closing bracket, or no pairs. -/
def pairOrNone : Leftmost names Bool Nat Nat :=
  .orElse (.map (· + 1) (.keepLeft .hole closing)) (.succeed (0 : Nat))

/-- A table whose rule refers to itself there. -/
def circular : Rules names Bool := fun _ => pairOrNone.fill (.deferred ())

/-- Under a limit of two, the rule is stopped at its first token, and of a lazy source one request
is made. -/
theorem left_recursion_lazy :
    let sources : Sources Bool := .single (.lazy supply { maxDepth := some 2 })
    let failure : Failure Bool := ⟨Message.recursionLimit 2, some true, 0⟩
    (∃ step, (∀ fuel, 2 < fuel → (Grammar.parser circular fuel .empty
        (.recursive () (pairOrNone.fill (.handle ()))) .start).run sources = some step) ∧
      step.value = .error failure ∧ step.events.countP Event.isDescent = 2) ∧
    ∃ step, (∀ fuel, 2 < fuel →
        (Grammar.parser circular fuel .empty (circular ()) .start).run sources = some step) ∧
      step.value = .error failure ∧ (step.sources.get 0).tape.requests = 1 := by
  intro sources failure
  have htoken : sources.token .start = some true := by decide +kernel
  obtain ⟨⟨step, hstep, hends⟩, htable⟩ := @Grammar.left_recursion names Bool _ circular .empty
    .start sources () pairOrNone (by decide) 2 rfl (by decide)
  obtain ⟨⟨thunk, hthunk, hthunkEnds⟩, -⟩ := htable rfl
  refine ⟨⟨step, hstep, ?_, hends.activations⟩, thunk, hthunk, ?_, ?_⟩
  · rw [hends.value_eq, htoken]
    rfl
  · rw [hthunkEnds.value_eq, htoken]
    rfl
  · rw [hthunkEnds.sources_eq]
    decide +kernel

end Brackets

end Backtrack
