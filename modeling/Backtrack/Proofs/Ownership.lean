import Backtrack.Proofs.Building
import Backtrack.Proofs.Correspondence
import Backtrack.Proofs.Fatal

/-!
# Rules Are Owned While They Run

The parser of a grammar takes for granted that the rule behind a handle is there. Whether it is
depends on who owns what when the handle is run: the parser that is run owns its rules, a handle
that runs its rule has a part in it for as long as that takes, and the grammar behind a
continuation or a deferred rule is built when it is run and let go afterwards.

This module runs a grammar with all of that kept in a ledger. A handle asks the ledger for its
rule, and meets an error where the rule has no body yet or no owner any more. In a well-scoped
grammar, where the handle of a rule occurs in the body of the rule only, it never does: the run
with the ledger does what the run without does, and when it is over the ledger is as it was, up to
dead slots of the rules that came and went.

## Main definitions

* `Keeper`: a parser over runs that keep the ledger, put together with the combinators of parsers.
* `Keeper.handle`, `Keeper.rule`, `Keeper.temporary`: where the ledger matters.
* `Placement`: what handles stand for, with the slots of their rules.
* `Grammar.keep`, `Grammar.keeper`: the run of a grammar with the ledger.
* `Keeper.Upholds`: the correspondence of a keeper and the parser that it does the same as.
* `Grammar.WellScoped`: handles occur in the bodies of their rules only.

## Main results

* `Grammar.serves_keeper`: the run with the ledger is the run without.
* `Grammar.rules_upheld`: well-scoped rules never meet an error of their life.
-/

namespace Backtrack

variable {σ : Signature} {τ α β γ : Type}

/-- A parser that **keeps the ledger**. -/
def Keeper (τ α : Type) : Type := Parser τ α (StateT Ledger (Run τ))

namespace Keeper

/-- **The rule in a slot**, whose body is `k`. Without a body in the slot there is nothing to
run. -/
def rule (slot : Nat) (k : Keeper τ α) : Keeper τ α := fun s ledger =>
  match ledger.slots[slot]?.bind Slot.body with
  | some _ => k s ledger
  | none => (Parser.unusable .undefined Message.undefinedRule : Keeper τ α) s ledger

/-- **The handle of the rule in a slot**, whose body is `k`. It takes a part in the rule, if
anybody still holds it, and gives it back when the rule has run. -/
def handle (slot : Nat) (k : Keeper τ α) : Keeper τ α := fun s ledger => do
  if ledger.phase slot = .dropped then
    Parser.handle .dropped k s ledger
  else
    let done ← Parser.handle .defined (rule slot k) s (ledger.hold [slot])
    return (done.1, done.2.release [slot])

/-- **What is built for one run only.** The rules are built, `k` is run with the number of the
first of them, and the rules are let go. -/
def temporary (forest : Forest) (k : Nat → Keeper τ α) : Keeper τ α := fun s ledger => do
  let built := forest.build ledger
  let done ← k ledger.next s built.2
  return (done.1, done.2.release built.1)

end Keeper

/-- The **rules around a grammar**, each with its slot. The slots of the rules in a body follow
that of the rule. -/
inductive Placement (σ : Signature) (τ : Type) : Type 1 where
  /-- No rule. -/
  | empty
  /-- A rule within an outer placement. -/
  | rule (outer : Placement σ τ) (name : σ.Name) (slot : Nat) (body : Grammar σ τ (σ.Value name))

/-- What a handle stands for: the slot and body of its rule, and the placement of the body. -/
structure Placed (σ : Signature) (τ : Type) (name : σ.Name) : Type 1 where
  /-- The slot of the rule. -/
  slot : Nat
  /-- The body of the rule. -/
  body : Grammar σ τ (σ.Value name)
  /-- The placement of the body, the rule itself included. -/
  home : Placement σ τ

namespace Placement

/-- The innermost rule of that name. -/
def find? (placement : Placement σ τ) (name : σ.Name) : Option (Placed σ τ name) :=
  match placement with
  | .empty => none
  | .rule outer other slot body =>
    if h : other = name then some ⟨slot, h ▸ body, .rule outer other slot body⟩
    else outer.find? name

/-- The scope of a placement: all of its rules are defined. -/
def scope : Placement σ τ → Scope σ τ
  | empty => .empty
  | rule outer name _ body => outer.scope.rule name .defined body

end Placement

/-- A way to run any grammar in any placement, with the number of its first slot. -/
def KeeperInterpreter (σ : Signature) (τ : Type) : Type 1 :=
  {α : Type} → Placement σ τ → Nat → Grammar σ τ α → Keeper τ α

namespace Grammar

/-- The **keeper of a grammar** in a placement, whose own rules are in the slots from `base` on.
The grammars behind references are run by `call`, and repetitions make at most `turns` attempts.
Grammars that go beyond primitives, combinators and rules have no keeper. -/
def keep [Quote τ] (rules : Rules σ τ) (call : KeeperInterpreter σ τ) (turns : Nat) {α : Type} :
    Grammar σ τ α → Placement σ τ → (base : Nat) → Keeper τ α
  | .succeed value, _, _ => (Parser.succeed value).observed
  | .fail message, _, _ => (Parser.fail message).observed
  | .satisfy expected test, _, _ => (Parser.satisfy expected test).observed
  | .eof, _, _ => Parser.eof.observed
  | .bind g next, placement, base =>
    (Parser.bind (keep rules call turns g placement base) fun a =>
      Keeper.temporary (next a).forest (keep rules call turns (next a) placement)).observed
  | .map f g, placement, base => (Parser.map f (keep rules call turns g placement base)).observed
  | .pair g h, placement, base =>
    (Parser.pair (keep rules call turns g placement base)
      (keep rules call turns h placement (base + g.forest.size))).observed
  | .keepRight g h, placement, base =>
    (Parser.keepRight (keep rules call turns g placement base)
      (keep rules call turns h placement (base + g.forest.size))).observed
  | .keepLeft g h, placement, base =>
    (Parser.keepLeft (keep rules call turns g placement base)
      (keep rules call turns h placement (base + g.forest.size))).observed
  | .orElse g h, placement, base =>
    (Parser.orElse (keep rules call turns g placement base)
      (keep rules call turns h placement (base + g.forest.size))).observed
  | .optional g, placement, base =>
    (Parser.optional (keep rules call turns g placement base)).observed
  | .many g, placement, base =>
    (Parser.many turns (keep rules call turns g placement base)).observed
  | .label name g, placement, base =>
    (Parser.label name (keep rules call turns g placement base)).observed
  | .commit g, placement, base => (Parser.commit (keep rules call turns g placement base)).observed
  | .deferred name, placement, _ =>
    (Parser.deferred
      (Keeper.temporary (rules name).forest fun base => call placement base (rules name))).observed
  | .recursive name body, placement, base =>
    Parser.observed (Keeper.rule base
      (keep rules call turns body (placement.rule name base body) (base + 1)))
  | .handle name, placement, _ =>
    match placement.find? name with
    | some held =>
      Parser.observed (Keeper.handle held.slot (call held.home (held.slot + 1) held.body))
    | none => (Parser.unusable .dropped Message.droppedRule).observed
  | .withRule .., _, _ => fun _ => Carrier.carry Run.exhausted
  | .around .., _, _ => fun _ => Carrier.carry Run.exhausted

/-- A handle is run by the rule that it stands for where it is. -/
theorem keep_handle [Quote τ] (rules : Rules σ τ) (call : KeeperInterpreter σ τ) (turns : Nat)
    (name : σ.Name) (placement : Placement σ τ) (base : Nat) :
    (Grammar.handle name).keep rules call turns placement base =
      match placement.find? name with
      | some held =>
        Parser.observed (Keeper.handle held.slot (call held.home (held.slot + 1) held.body))
      | none => (Parser.unusable .dropped Message.droppedRule).observed := rfl

/-- The keeper of a grammar with the given fuel: at most that many levels of references and that
many turns of each repetition. -/
def keeper [Quote τ] (rules : Rules σ τ) : Nat → KeeperInterpreter σ τ
  | 0, _, _, _, _ => fun _ => Carrier.carry Run.exhausted
  | fuel + 1, _, placement, base, g => g.keep rules (keeper rules fuel) (fuel + 1) placement base

end Grammar

/-! ### Runs that do the same -/

/-- The same end, with a ledger. -/
def Step.beside (ledger : Ledger) (step : Step τ α) : Step τ (α × Ledger) :=
  ⟨(step.value, ledger), step.sources, step.events⟩

/-- **A run with the ledger does what a run without does**: it leaves the ledger as it was, up to
rules that came and went, and no handle is unusable on the way. -/
def Faithful (ledger : Ledger) (r : Run τ (α × Ledger)) (q : Run τ α) : Prop :=
  ∀ sources, (∃ n, r.run sources = (q.run sources).map (Step.beside (ledger.fade n))) ∧
    ∀ step, q.run sources = some step → Usable step.events

namespace Faithful

variable {ledger other : Ledger} {r : Run τ (α × Ledger)} {q : Run τ α}

theorem pure (a : α) (n : Nat) :
    Faithful ledger (Pure.pure (a, ledger.fade n)) (Pure.pure a : Run τ α) := by
  refine fun sources => ⟨⟨n, rfl⟩, fun step h => ?_⟩
  obtain rfl := Option.some.inj h
  exact usable_nil

/-- One after the other. -/
theorem bind (h : Faithful ledger r q) {f : α × Ledger → Run τ (β × Ledger)} {g : α → Run τ β}
    (hnext : ∀ a n, Faithful ledger (f (a, ledger.fade n)) (g a)) :
    Faithful ledger (r >>= f) (q >>= g) := by
  intro sources
  obtain ⟨⟨n, hrun⟩, husable⟩ := h sources
  rw [Run.run_bind, Run.run_bind, hrun]
  cases hq : q.run sources with
  | none => exact ⟨⟨0, rfl⟩, fun _ h => nomatch h⟩
  | some first =>
      obtain ⟨⟨m, hsecond⟩, hafter⟩ := hnext first.value n first.sources
      refine ⟨⟨m, ?_⟩, fun step hstep => ?_⟩
      · simp only [Option.map_some, Option.bind_some, Step.beside, hsecond, Option.map_map]
        rfl
      · obtain ⟨second, hsome, rfl⟩ := Option.map_eq_some_iff.mp hstep
        exact usable_append.mpr ⟨husable first hq, hafter second hsome⟩

/-- What comes to no unusable handle leaves the ledger alone. -/
theorem carry (husable : q.Usable) (n : Nat) :
    Faithful ledger (do return (← q, ledger.fade n)) q := by
  refine fun sources => ⟨⟨n, ?_⟩, husable sources⟩
  rw [bind_pure_comp, Run.run_map]
  rfl

/-- A run on another ledger, from which the first is got back at the end. -/
theorem settle (h : Faithful other r q) (back : Ledger → Ledger)
    (hback : ∀ n, ∃ m, back (other.fade n) = ledger.fade m) :
    Faithful ledger (do let done ← r; return (done.1, back done.2)) q := by
  intro sources
  obtain ⟨⟨n, hrun⟩, husable⟩ := h sources
  obtain ⟨m, hm⟩ := hback n
  refine ⟨⟨m, ?_⟩, husable⟩
  rw [Run.run_bind, hrun]
  cases q.run sources with
  | none => rfl
  | some step => simp [Step.beside, Step.after, hm]

end Faithful

/-! ### Keepers that do the same -/

/-- A keeper and a parser correspond if **the keeper does what the parser does**, on this ledger
and on any that has seen more rules come and go. -/
def Keeper.upholding (ledger : Ledger) : Correspondence τ (StateT Ledger (Run τ)) (Run τ) where
  Rel r q := ∀ n, Faithful ledger (r (ledger.fade n)) q
  pure := .pure
  bind {_ _ _ _ f _} h hnext n := (h n).bind (f := fun done => f done.1 done.2) hnext
  carry := .carry
  inside h := h

/-- The keeper does what the parser does, wherever it is run. -/
abbrev Keeper.Upholds (ledger : Ledger) (k : Keeper τ α) (p : Parser τ α) : Prop :=
  (Keeper.upholding ledger).Parsers k p

namespace Keeper.Upholds

variable {ledger : Ledger} {k : Keeper τ α} {p : Parser τ α}

theorem faithful_iff :
    Upholds ledger k p ↔ ∀ s n, Faithful ledger (k s (ledger.fade n)) (p s) := Iff.rfl

/-- **A rule that is alive** has a body to run. -/
theorem rule {slot : Nat} (hslot : ledger.phase slot = .defined) (h : Upholds ledger k p) :
    Upholds ledger (Keeper.rule slot k) p := by
  refine fun s n => ?_
  obtain ⟨holders, held, hsome⟩ := Ledger.phase_eq_defined_iff.mp
    (ledger.outlasts_extend (List.replicate n .dead) slot hslot)
  have hrule : Keeper.rule slot k s (ledger.fade n) = k s (ledger.fade n) := by
    rw [Keeper.rule, Ledger.fade, hsome]
    rfl
  rw [hrule]
  exact faithful_iff.mp h s n

/-- **The handle of a rule that is alive** runs the rule one level deeper, while it has a part in
the rule itself. -/
theorem handle {slot : Nat} (hslot : ledger.phase slot = .defined)
    (h : ∀ n, Upholds ((ledger.fade n).hold [slot]) k p) :
    Upholds ledger (Keeper.handle slot k) (Parser.handle .defined p) := by
  refine fun s n => ?_
  have halive : (ledger.fade n).phase slot = .defined := ledger.outlasts_extend _ slot hslot
  have hheld : ((ledger.fade n).hold [slot]).phase slot = .defined :=
    Ledger.outlasts_hold _ slot slot halive
  have hhandle : Keeper.handle slot k s (ledger.fade n) = (do
      let done ← Parser.handle .defined (Keeper.rule slot k) s ((ledger.fade n).hold [slot])
      return (done.1, done.2.release [slot])) := by
    rw [Keeper.handle, halive]
    rfl
  rw [hhandle]
  have hinner := faithful_iff.mp (rule hheld (h n)).inside.nested s 0
  rw [Ledger.fade_zero] at hinner
  refine hinner.settle (·.release [slot]) fun m => ⟨n + m, ?_⟩
  rw [Ledger.release_hold halive, Ledger.fade_fade]

/-- **What is built for one run** is there during the run and is gone afterwards. -/
theorem temporary {forest : Forest} {k : Nat → Keeper τ α}
    (h : ∀ n, Upholds (forest.build (ledger.fade n)).2 (k (ledger.fade n).next) p) :
    Upholds ledger (Keeper.temporary forest k) p := by
  refine fun s n => ?_
  have hinner := faithful_iff.mp (h n) s 0
  rw [Ledger.fade_zero] at hinner
  refine hinner.settle (·.release (forest.build (ledger.fade n)).1) fun m =>
    ⟨n + (forest.size + m), ?_⟩
  rw [Forest.release_build, Ledger.fade_fade]

end Keeper.Upholds

/-! ### Well-scoped grammars -/

/-- Handles in the bodies of their rules only: those in `bound` are of the rules around. A rule of
the table takes handles from where it is referred to, namely those that `captures` says, so they
must be bound there. -/
def Discipline.wellScoped (captures : σ.Name → σ.Name → Prop) : Discipline σ (σ.Name → Prop) where
  deferred name bound := ∀ taken, captures name taken → bound taken
  handle name bound := bound name
  recursive name bound body := body fun other => other = name ∨ bound other
  withRule _ _ _ _ _ := False
  around _ := False

/-- A grammar in which **handles occur in the bodies of their rules only**, where the handles in
`bound` are those of the rules around it. -/
def Grammar.WellScoped (captures : σ.Name → σ.Name → Prop) (g : Grammar σ τ α)
    (bound : σ.Name → Prop) : Prop :=
  g.Obeys (.wellScoped captures) bound

/-- A table of rules that are well-scoped where the handles are bound that they capture. -/
def Rules.WellScoped (rules : Rules σ τ) (captures : σ.Name → σ.Name → Prop) : Prop :=
  rules.Obey (.wellScoped captures) captures

namespace Placement

/-- There is a rule of that name. -/
def Has (placement : Placement σ τ) (name : σ.Name) : Prop :=
  ∃ placed, placement.find? name = some placed

@[simp]
theorem find?_rule_self (outer : Placement σ τ) (name : σ.Name) (slot : Nat)
    (body : Grammar σ τ (σ.Value name)) :
    (rule outer name slot body).find? name = some ⟨slot, body, rule outer name slot body⟩ := by
  simp [find?]

theorem find?_rule_of_ne {outer : Placement σ τ} {other name : σ.Name} {slot : Nat}
    {body : Grammar σ τ (σ.Value other)} (h : other ≠ name) :
    (rule outer other slot body).find? name = outer.find? name := by
  simp [find?, h]

/-- What is bound around a rule is bound in its body, and so is its own handle. -/
theorem has_rule {outer : Placement σ τ} {bound : σ.Name → Prop}
    (h : ∀ name, bound name → outer.Has name) {name : σ.Name} (slot : Nat)
    (body : Grammar σ τ (σ.Value name)) (other : σ.Name) (hother : other = name ∨ bound other) :
    (rule outer name slot body).Has other := by
  by_cases hname : name = other
  · subst hname
    exact ⟨_, find?_rule_self outer name slot body⟩
  · obtain ⟨placed, hplaced⟩ := h other (hother.resolve_left fun heq => hname heq.symm)
    exact ⟨placed, (find?_rule_of_ne hname).trans hplaced⟩

/-- In the scope of a placement, a handle stands for the same rule. -/
theorem find?_scope (placement : Placement σ τ) (name : σ.Name) :
    placement.scope.find? name =
      (placement.find? name).map fun placed => ⟨.defined, placed.body, placed.home.scope⟩ := by
  induction placement with
  | empty => rfl
  | rule outer other slot body ih =>
      by_cases h : other = name
      · subst h
        simp [scope]
      · rw [scope, Scope.find?_rule_of_ne h, find?_rule_of_ne h, ih]

/-- **The rules around a grammar are alive**, each with the rules in its body, and their bodies are
well-scoped where they are. -/
def Kept (captures : σ.Name → σ.Name → Prop) (ledger : Ledger) : Placement σ τ → Prop
  | .empty => True
  | .rule outer name slot body =>
    Kept captures ledger outer ∧ ledger.Bears slot (.cons body.forest .nil) ∧
      ∃ bound, body.WellScoped captures bound ∧
        ∀ other, bound other → (Placement.rule outer name slot body).Has other

variable {captures : σ.Name → σ.Name → Prop} {ledger : Ledger} {placement : Placement σ τ}

theorem Kept.mono (h : placement.Kept captures ledger) {later : Ledger}
    (hlater : later.Outlasts ledger) : placement.Kept captures later := by
  induction placement with
  | empty => trivial
  | rule outer name slot body ih => exact ⟨ih h.1, h.2.1.mono hlater, h.2.2⟩

/-- What is found in a placement that is kept is kept. -/
theorem Kept.find? (h : placement.Kept captures ledger) {name : σ.Name} {placed : Placed σ τ name}
    (hplaced : placement.find? name = some placed) :
    placed.home.Kept captures ledger ∧ ledger.Bears placed.slot (.cons placed.body.forest .nil) ∧
      ∃ bound, placed.body.WellScoped captures bound ∧
        ∀ other, bound other → placed.home.Has other := by
  induction placement with
  | empty => cases hplaced
  | rule outer other slot body ih =>
      by_cases ho : other = name
      · subst ho
        rw [find?_rule_self] at hplaced
        obtain rfl := Option.some.inj hplaced
        exact ⟨h, h.2.1, h.2.2⟩
      · rw [find?_rule_of_ne ho] at hplaced
        exact ih h.1 hplaced

end Placement

namespace Grammar

variable [Quote τ] {rules : Rules σ τ} {captures : σ.Name → σ.Name → Prop}

/-- A way to run grammars with the ledger that **does what another does without**, wherever the
rules around a grammar and its own are alive. -/
def Serves (captures : σ.Name → σ.Name → Prop) (steward : KeeperInterpreter σ τ)
    (call : Interpreter σ τ) : Prop :=
  ∀ {α : Type} {g : Grammar σ τ α} {bound : σ.Name → Prop} {placement : Placement σ τ}
    {base : Nat} {ledger : Ledger}, g.WellScoped captures bound →
    (∀ name, bound name → placement.Has name) → placement.Kept captures ledger →
    ledger.Bears base g.forest →
    Keeper.Upholds ledger (steward placement base g) (call placement.scope g)

/-- **One level of references**: the rules of a well-scoped grammar are alive whenever they are
run, if those that it refers to are. -/
theorem serves_keep (hrules : rules.WellScoped captures) {steward : KeeperInterpreter σ τ}
    {call : Interpreter σ τ} (hcall : Serves captures steward call) (turns : Nat) :
    Serves captures (fun placement base g => g.keep rules steward turns placement base)
      fun scope g => g.interpret rules call turns scope := by
  intro α g
  induction g with
  | succeed value => exact fun _ _ _ _ => ((Keeper.upholding _).succeed value).observed
  | fail message => exact fun _ _ _ _ => ((Keeper.upholding _).fail message).observed
  | satisfy expected test =>
      exact fun _ _ _ _ => ((Keeper.upholding _).satisfy expected test).observed
  | eof => exact fun _ _ _ _ => (Keeper.upholding _).eof.observed
  | bind g next ihg ihnext =>
      intro bound placement base ledger hscoped hbound hkept hbears
      refine ((ihg hscoped.1 hbound hkept hbears).bind fun a => ?_).observed
      refine Keeper.Upholds.temporary fun n => ?_
      -- The grammar behind the value is built anew, so its rules are alive.
      have hlater : ((next a).forest.build (ledger.fade n)).2.Outlasts ledger :=
        (ledger.outlasts_extend _).trans (Ledger.outlasts_build _ _)
      exact ihnext a (hscoped.2 a) hbound (hkept.mono hlater) (Ledger.bears_build _ _)
  | map f g ih =>
      intro bound placement base ledger hscoped hbound hkept hbears
      exact ((ih hscoped hbound hkept hbears).map f).observed
  | pair g h ihg ihh =>
      intro bound placement base ledger hscoped hbound hkept hbears
      exact ((ihg hscoped.1 hbound hkept hbears.left).pair
        (ihh hscoped.2 hbound hkept hbears.right)).observed
  | keepRight g h ihg ihh =>
      intro bound placement base ledger hscoped hbound hkept hbears
      exact ((ihg hscoped.1 hbound hkept hbears.left).keepRight
        (ihh hscoped.2 hbound hkept hbears.right)).observed
  | keepLeft g h ihg ihh =>
      intro bound placement base ledger hscoped hbound hkept hbears
      exact ((ihg hscoped.1 hbound hkept hbears.left).keepLeft
        (ihh hscoped.2 hbound hkept hbears.right)).observed
  | orElse g h ihg ihh =>
      intro bound placement base ledger hscoped hbound hkept hbears
      exact ((ihg hscoped.1 hbound hkept hbears.left).orElse
        (ihh hscoped.2 hbound hkept hbears.right)).observed
  | optional g ih =>
      intro bound placement base ledger hscoped hbound hkept hbears
      exact (ih hscoped hbound hkept hbears).optional.observed
  | many g ih =>
      intro bound placement base ledger hscoped hbound hkept hbears
      exact ((ih hscoped hbound hkept hbears).many (Nat.le_refl _)
        fun hlt => absurd hlt (Nat.lt_irrefl _)).observed
  | label name g ih =>
      intro bound placement base ledger hscoped hbound hkept hbears
      exact ((ih hscoped hbound hkept hbears).label name).observed
  | commit g ih =>
      intro bound placement base ledger hscoped hbound hkept hbears
      exact (ih hscoped hbound hkept hbears).commit.observed
  | deferred name =>
      intro bound placement base ledger hscoped hbound hkept hbears
      refine (Keeper.Upholds.temporary fun n => ?_).deferred.observed
      have hlater : ((rules name).forest.build (ledger.fade n)).2.Outlasts ledger :=
        (ledger.outlasts_extend _).trans (Ledger.outlasts_build _ _)
      exact hcall (hrules name) (fun taken h => hbound taken (hscoped taken h))
        (hkept.mono hlater) (Ledger.bears_build _ _)
  | recursive name body ih =>
      intro bound placement base ledger hscoped hbound hkept hbears
      have hhas := Placement.has_rule hbound base body
      exact (Keeper.Upholds.rule hbears.root
        (ih hscoped hhas ⟨hkept, hbears, _, hscoped, hhas⟩ hbears.inner)).observed
  | handle name =>
      intro bound placement base ledger hscoped hbound hkept hbears
      obtain ⟨placed, hplaced⟩ := hbound name hscoped
      obtain ⟨hhome, hown, inner, hbody, hinner⟩ := hkept.find? hplaced
      have hkeep : (Grammar.handle name).keep rules steward turns placement base =
          Parser.observed (Keeper.handle placed.slot
            (steward placed.home (placed.slot + 1) placed.body)) := by
        rw [keep_handle, hplaced]
      have hparser : (Grammar.handle name).interpret rules call turns placement.scope =
          (Parser.handle .defined (call placed.home.scope placed.body)).observed := by
        rw [interpret_handle, placement.find?_scope, hplaced]
        rfl
      dsimp only
      rw [hkeep, hparser]
      refine (Keeper.Upholds.handle hown.root fun n => ?_).observed
      -- The handle has a part in the rule, so all that was alive is alive during its run.
      have hlater : ((ledger.fade n).hold [placed.slot]).Outlasts ledger :=
        (ledger.outlasts_extend _).trans (Ledger.outlasts_hold _ _)
      exact hcall hbody hinner (hhome.mono hlater) (hown.inner.mono hlater)
  | withRule name phase body g => exact fun hscoped => hscoped.elim
  | around before after g => exact fun hscoped => hscoped.elim

/-- **The run with the ledger is the run without**, for well-scoped grammars whose rules are alive,
at every fuel. -/
theorem serves_keeper (hrules : rules.WellScoped captures) (fuel : Nat) :
    Serves captures (keeper rules fuel) (parser rules fuel) := by
  induction fuel with
  | zero => exact fun _ _ _ _ => (Keeper.upholding _).exhausted
  | succ fuel ih => exact serves_keep hrules ih (fuel + 1)

/-- **Well-scoped rules never meet an error of their life.** Let the handles of a grammar occur in
the bodies of their rules only, also in the rules of the table and behind continuations. Then,
on every store and at every fuel:

* wherever the rules that the grammar makes are owned, and nothing is known of the other rules but
  that the counts are right, the run that keeps the ledger, asks it for the rule behind each handle
  and builds and lets go on the way is the run that takes the rules for granted, and at its end the
  ledger is as it was, up to rules that came and went;
* building the grammar makes its rules, owned by whoever built it;
* no run meets a handle whose rule is not there;
* no run comes to such a handle, not even one that gives nothing. -/
theorem rules_upheld (hrules : rules.WellScoped captures) {α : Type} {g : Grammar σ τ α}
    (hg : g.WellScoped captures fun _ => False) (fuel : Nat) (s : Stream) (sources : Sources τ) :
    (∀ {ledger : Ledger} {bodies : Nat → Option (List Nat)} {owners : List Nat} {base : Nat},
      ledger.Accounts bodies owners → g.forest.Recorded bodies base →
      (∀ n ∈ g.forest.roots base, n ∈ owners) →
      ∃ n, (keeper rules fuel .empty base g s ledger).run sources =
        ((parser rules fuel .empty g s).run sources).map (Step.beside (ledger.fade n))) ∧
    (∀ {ledger : Ledger} {bodies : Nat → Option (List Nat)} {owners : List Nat},
      ledger.Accounts bodies owners → (∀ n, ledger.next ≤ n → bodies n = none) →
      ∃ recorded, (g.forest.build ledger).2.Accounts recorded
          (g.forest.roots ledger.next ++ owners) ∧
        g.forest.Recorded recorded ledger.next) ∧
    (∀ step, (parser rules fuel .empty g s).run sources = some step → Usable step.events) ∧
    ∀ {β : Type} {phase : Phase} {message : String} {t : Stream} {store : Sources τ}
      {before : List (Event τ)},
      ¬ (Parser.unusable phase message : Parser τ β).Invoked t store
        (parser rules fuel .empty g) s sources before := by
  have hupholds {ledger : Ledger} {base : Nat} (hbears : ledger.Bears base g.forest) :
      Faithful ledger (keeper rules fuel .empty base g s ledger)
        (parser rules fuel .empty g s) := by
    have h : Keeper.Upholds ledger (keeper rules fuel .empty base g) (parser rules fuel .empty g) :=
      serves_keeper hrules fuel hg (fun _ hbound => hbound.elim) trivial hbears
    have hnow := Keeper.Upholds.faithful_iff.mp h s 0
    rwa [Ledger.fade_zero] at hnow
  have husable : ∀ step, (parser rules fuel .empty g s).run sources = some step →
      Usable step.events :=
    (hupholds (Ledger.bears_build {} g.forest) sources).2
  refine ⟨fun h hrecorded howned => ?_, fun h hnew => ?_, husable, ?_⟩
  · refine (hupholds (h.bears hrecorded fun n hn => ?_) sources).1
    have hcount := List.count_pos_iff.mpr (howned n hn)
    omega
  · obtain ⟨recorded, haccounts, hrecorded, -⟩ := g.forest.accounts_build h hnew
    rw [Forest.build_eq] at haccounts ⊢
    exact ⟨recorded, haccounts, hrecorded⟩
  · intro β phase message t store before hinvoked
    obtain ⟨last, after, hrun, -⟩ := hinvoked.error (Parser.run_unusable _ _ _ _)
    have hmem : Event.unusable t phase ∈ before ++ [.unusable t phase, .inspected t] ++ after := by
      simp
    exact husable _ hrun t phase hmem

end Grammar

/-! ### Rules within rules -/

namespace Nests

/-- Two names of rules, whose values are numbers. -/
def names : Signature where
  Name := Bool
  Value _ := Nat
  decEq := inferInstance

/-- The rules of the table take the handle of the outer rule. -/
def captures (_ taken : names.Name) : Prop := taken = false

/-- What stands in a pair of brackets: **an inner rule, made anew each time**, skips pairs with
nothing in them by its own handle and goes on with the outer rule by the handle that it took. -/
def inner : Grammar names Bool Nat :=
  .recursive true (.orElse
    (.keepRight (.satisfy "an opening bracket" ⟨fun t => t, fun _ => []⟩)
      (.keepRight (.satisfy "a closing bracket" ⟨fun t => !t, fun _ => []⟩) (.handle true)))
    (.map (fun n : Nat => n + 1) (.handle false)))

/-- The table has the inner rule only. -/
def rules : Rules names Bool := fun _ => inner

/-- Pairs of brackets, as many as the innermost one that is not skipped is deep. -/
def grammar : Grammar names Bool Nat :=
  .recursive false (.orElse
    (.bind (.satisfy "an opening bracket" ⟨fun t => t, fun _ => []⟩) fun _ =>
      .keepLeft (.deferred true) (.satisfy "a closing bracket" ⟨fun t => !t, fun _ => []⟩))
    (.succeed (0 : Nat)))

theorem wellScoped_rules : rules.WellScoped captures :=
  fun _ => ⟨⟨trivial, trivial, .inl rfl⟩, .inr rfl⟩

theorem wellScoped_grammar : grammar.WellScoped captures fun _ => False :=
  ⟨⟨trivial, fun _ => ⟨fun _ h => .inl h, trivial⟩⟩, trivial⟩

/-- Two empty pairs are skipped, the inner rule is gone afterwards, and the outer rule is as it
was. -/
theorem rules_upheld_skipping :
    ∃ n, ((Grammar.keeper rules 6 .empty 0 grammar .start (grammar.forest.build {}).2).run
        (Brackets.store none [true, true, false, true, false, false])).map Step.value =
      some (.ok 1 ⟨0, 6⟩, (grammar.forest.build {}).2.fade n) := by
  let sources := Brackets.store none [true, true, false, true, false, false]
  have hrun : ((Grammar.parser rules 6 .empty grammar .start).run sources).map Step.value =
      some (.ok 1 ⟨0, 6⟩) := by
    decide +kernel
  obtain ⟨hkeeper, hbuild, -⟩ :=
    Grammar.rules_upheld wellScoped_rules wellScoped_grammar 6 .start sources
  obtain ⟨recorded, haccounts, hrecorded⟩ := hbuild .empty fun _ _ => rfl
  obtain ⟨n, hsame⟩ := hkeeper haccounts hrecorded fun n hn => List.mem_append_left _ hn
  refine ⟨n, ?_⟩
  obtain ⟨step, hstep, hvalue⟩ := Option.map_eq_some_iff.mp hrun
  have hkept := congrArg (Option.map Step.value) hsame
  rw [hstep, Option.map_some, Option.map_some, Step.beside, hvalue] at hkept
  exact hkept

end Nests

end Backtrack
