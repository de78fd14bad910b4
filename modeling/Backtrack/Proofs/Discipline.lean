import Backtrack.Grammar.Scope

/-!
# Disciplines of Grammars

Many properties of a grammar say of a few kinds of nodes that they do not occur, or occur only
where something holds, and of the other nodes that their parts have the property too. They differ
in what they ask of these few and agree in how they go through the tree. A discipline is what is
asked of the few, and to obey it is defined once for all of them: continuations and the bodies of
the rules of a grammar obey it too.

What is known where a node stands, such as the names that are bound there, is passed on from the
whole to the parts.

## Main definitions

* `Discipline`: what is asked of the nodes of a grammar.
* `Grammar.Obeys`, `Rules.Obey`: the grammars, and the tables of rules, of which nothing else is
  asked.
* `Scope.All`: what holds of every rule of a scope.
* `Scope.Obey`: the scopes of rules that obey a discipline.
* `Grammar.Plain`, `Rules.Plain`, `Scope.Plain`: nothing but primitives, combinators and rules.
-/

namespace Backtrack

/-- What a **discipline** asks of nodes, where `κ` is known around them. What is not said is asked
of the parts only. -/
structure Discipline (σ : Signature) (κ : Type) where
  /-- What a node may fail with. -/
  fail : String → Prop := fun _ => True
  /-- What is asked of a commitment, by whether its part obeys. -/
  commit : Prop → Prop := id
  /-- What is asked of a reference to a rule of the table. -/
  deferred : σ.Name → κ → Prop := fun _ _ => True
  /-- What is asked of a handle. -/
  handle : σ.Name → κ → Prop := fun _ _ => True
  /-- What is asked of a recursive rule, by where its body obeys. -/
  recursive : σ.Name → κ → (κ → Prop) → Prop := fun _ known body => body known
  /-- What is asked of a grammar with a rule, by where the body of the rule and the grammar obey. -/
  withRule : σ.Name → Phase → κ → (κ → Prop) → (κ → Prop) → Prop :=
    fun _ _ known body g => body known ∧ g known
  /-- What is asked of computations of the grammar's own, by whether their part obeys. -/
  around : Prop → Prop := id

variable {σ : Signature} {τ κ α : Type}

/-- A grammar that **obeys a discipline** where `κ` is known. -/
def Grammar.Obeys (d : Discipline σ κ) : {α : Type} → Grammar σ τ α → κ → Prop
  | _, .succeed _, _ => True
  | _, .fail message, _ => d.fail message
  | _, .satisfy _ _, _ => True
  | _, .eof, _ => True
  | _, .bind g next, known => Obeys d g known ∧ ∀ a, Obeys d (next a) known
  | _, .map _ g, known => Obeys d g known
  | _, .pair g h, known => Obeys d g known ∧ Obeys d h known
  | _, .keepRight g h, known => Obeys d g known ∧ Obeys d h known
  | _, .keepLeft g h, known => Obeys d g known ∧ Obeys d h known
  | _, .orElse g h, known => Obeys d g known ∧ Obeys d h known
  | _, .optional g, known => Obeys d g known
  | _, .many g, known => Obeys d g known
  | _, .label _ g, known => Obeys d g known
  | _, .commit g, known => d.commit (Obeys d g known)
  | _, .deferred name, known => d.deferred name known
  | _, .recursive name body, known => d.recursive name known (Obeys d body)
  | _, .handle name, known => d.handle name known
  | _, .withRule name phase body g, known =>
    d.withRule name phase known (Obeys d body) (Obeys d g)
  | _, .around _ _ g, known => d.around (Obeys d g known)

/-- A table of rules that obey a discipline, each where what is told of its name is known. -/
def Rules.Obey (rules : Rules σ τ) (d : Discipline σ κ) (known : σ.Name → κ) : Prop :=
  ∀ name, (rules name).Obeys d (known name)

namespace Scope

/-- What **holds of every rule of a scope**, by the rules around it. -/
def All (P : Scope σ τ → (name : σ.Name) → Phase → Grammar σ τ (σ.Value name) → Prop) :
    Scope σ τ → Prop
  | .empty => True
  | .rule outer name phase body => All P outer ∧ P outer name phase body

/-- A rule that is found in a scope is at home in a part of it, where it is the innermost one, so
**what holds of every rule holds of it**. -/
theorem All.find? {P : Scope σ τ → (name : σ.Name) → Phase → Grammar σ τ (σ.Value name) → Prop}
    {scope : Scope σ τ} (hscope : scope.All P) {name : σ.Name} {rule : Binding σ τ name}
    (h : scope.find? name = some rule) :
    ∃ outer, rule.home = .rule outer name rule.phase rule.body ∧ rule.home.All P ∧
      P outer name rule.phase rule.body := by
  induction scope with
  | empty => cases h
  | rule outer other phase body ih =>
      by_cases ho : other = name
      · subst ho
        rw [find?_rule_self] at h
        obtain rfl := Option.some.inj h
        exact ⟨outer, rfl, hscope, hscope.2⟩
      · rw [find?_rule_of_ne ho] at h
        exact ih hscope.1 h

/-- A scope of rules that obey a discipline for which nothing has to be known. -/
def Obey (scope : Scope σ τ) (d : Discipline σ Unit) : Prop :=
  scope.All fun _ _ _ body => body.Obeys d ()

/-- What a handle stands for in such a scope obeys the discipline, and so do the rules around. -/
theorem Obey.find? {scope : Scope σ τ} {d : Discipline σ Unit} (hscope : scope.Obey d)
    {name : σ.Name} {rule : Binding σ τ name} (h : scope.find? name = some rule) :
    rule.home.Obey d ∧ rule.body.Obeys d () := by
  obtain ⟨outer, -, hhome, hbody⟩ := All.find? hscope h
  exact ⟨hhome, hbody⟩

end Scope

/-! ### Plain grammars -/

/-- Nothing of a grammar's own. -/
def Discipline.plain (σ : Signature) : Discipline σ Unit where
  around _ := False

/-- A **plain grammar** is built from primitives, combinators and rules only. -/
def Grammar.Plain (g : Grammar σ τ α) : Prop := g.Obeys (.plain σ) ()

/-- A table of plain rules. -/
def Rules.Plain (rules : Rules σ τ) : Prop := rules.Obey (.plain σ) fun _ => ()

/-- Each rule of a plain table is plain. -/
theorem Rules.Plain.rule {rules : Rules σ τ} (h : rules.Plain) (name : σ.Name) :
    (rules name).Plain :=
  h name

/-- A scope of plain rules. -/
def Scope.Plain (scope : Scope σ τ) : Prop := scope.Obey (.plain σ)

/-- What a handle stands for in a scope of plain rules is plain. -/
theorem Scope.Plain.find? {scope : Scope σ τ} (hscope : scope.Plain) {name : σ.Name}
    {rule : Binding σ τ name} (h : scope.find? name = some rule) :
    rule.home.Plain ∧ rule.body.Plain :=
  Obey.find? hscope h

end Backtrack
