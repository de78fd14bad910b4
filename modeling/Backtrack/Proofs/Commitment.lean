import Backtrack.Proofs.Comparison
import Backtrack.Proofs.Yields

/-!
# Commitment Spares Outcomes

A commitment turns a recoverable failure into an error, and an error is never caught. So if a
parse ends in anything but an error, then no commitment in it has done anything, and the same
parse without the commitments takes the same course. The grammar without them may backtrack where
the other one stops, but what it then finds is never seen of the other one.

## Main definitions

* `Grammar.uncommitted`: a grammar without its commitments.
* `Grammar.Commits`: a grammar with commitments added to another.

## Main results

* `Grammar.Commits.compares`: a grammar with commitments is aborted or takes the same course.
* `Grammar.commit_spares`: commitments spare successes and recoverable failures.
-/

namespace Backtrack

variable {σ : Signature} {τ α : Type}

/-! ### Removing commitments -/

/-- A grammar **without its commitments**. -/
def Grammar.uncommitted : {α : Type} → Grammar σ τ α → Grammar σ τ α
  | _, .succeed value => .succeed value
  | _, .fail message => .fail message
  | _, .satisfy expected test => .satisfy expected test
  | _, .eof => .eof
  | _, .bind g next => .bind g.uncommitted fun a => (next a).uncommitted
  | _, .map f g => .map f g.uncommitted
  | _, .pair g h => .pair g.uncommitted h.uncommitted
  | _, .keepRight g h => .keepRight g.uncommitted h.uncommitted
  | _, .keepLeft g h => .keepLeft g.uncommitted h.uncommitted
  | _, .orElse g h => .orElse g.uncommitted h.uncommitted
  | _, .optional g => .optional g.uncommitted
  | _, .many g => .many g.uncommitted
  | _, .label name g => .label name g.uncommitted
  | _, .commit g => g.uncommitted
  | _, .deferred name => .deferred name
  | _, .recursive name body => .recursive name body.uncommitted
  | _, .handle name => .handle name
  | _, .withRule name phase body g => .withRule name phase body.uncommitted g.uncommitted
  | _, .around before after g => .around before after g.uncommitted

/-- A table of rules without their commitments. -/
def Rules.uncommitted (rules : Rules σ τ) : Rules σ τ := fun name => (rules name).uncommitted

/-- A scope of rules without their commitments. -/
def Scope.uncommitted : Scope σ τ → Scope σ τ
  | .empty => .empty
  | .rule outer name phase body => .rule outer.uncommitted name phase body.uncommitted

/-! ### Adding commitments -/

/-- The first grammar is the second **with commitments added**, any number of them anywhere. -/
inductive Grammar.Commits : {α : Type} → Grammar σ τ α → Grammar σ τ α → Prop where
  | added {α : Type} {g h : Grammar σ τ α} : Commits g h → Commits (.commit g) h
  | succeed {α : Type} (value : α) : Commits (.succeed value) (.succeed value)
  | fail {α : Type} (message : String) : Commits (.fail message : Grammar σ τ α) (.fail message)
  | satisfy (expected : String) (test : Test τ) :
      Commits (.satisfy expected test) (.satisfy expected test)
  | eof : Commits .eof .eof
  | bind {α β : Type} {g g' : Grammar σ τ α} {next next' : α → Grammar σ τ β} :
      Commits g g' → (∀ a, Commits (next a) (next' a)) → Commits (.bind g next) (.bind g' next')
  | map {α β : Type} (f : α → β) {g g' : Grammar σ τ α} :
      Commits g g' → Commits (.map f g) (.map f g')
  | pair {α β : Type} {g g' : Grammar σ τ α} {h h' : Grammar σ τ β} :
      Commits g g' → Commits h h' → Commits (.pair g h) (.pair g' h')
  | keepRight {α β : Type} {g g' : Grammar σ τ α} {h h' : Grammar σ τ β} :
      Commits g g' → Commits h h' → Commits (.keepRight g h) (.keepRight g' h')
  | keepLeft {α β : Type} {g g' : Grammar σ τ α} {h h' : Grammar σ τ β} :
      Commits g g' → Commits h h' → Commits (.keepLeft g h) (.keepLeft g' h')
  | orElse {α : Type} {g g' h h' : Grammar σ τ α} :
      Commits g g' → Commits h h' → Commits (.orElse g h) (.orElse g' h')
  | optional {α : Type} {g g' : Grammar σ τ α} :
      Commits g g' → Commits (.optional g) (.optional g')
  | many {α : Type} {g g' : Grammar σ τ α} : Commits g g' → Commits (.many g) (.many g')
  | label {α : Type} (name : String) {g g' : Grammar σ τ α} :
      Commits g g' → Commits (.label name g) (.label name g')
  | commit {α : Type} {g g' : Grammar σ τ α} : Commits g g' → Commits (.commit g) (.commit g')
  | deferred (name : σ.Name) : Commits (.deferred name) (.deferred name)
  | recursive (name : σ.Name) {body body' : Grammar σ τ (σ.Value name)} :
      Commits body body' → Commits (.recursive name body) (.recursive name body')
  | handle (name : σ.Name) : Commits (.handle name) (.handle name)
  | withRule {α : Type} (name : σ.Name) (phase : Phase)
      {body body' : Grammar σ τ (σ.Value name)} {g g' : Grammar σ τ α} :
      Commits body body' → Commits g g' →
        Commits (.withRule name phase body g) (.withRule name phase body' g')

/-- The same for the rules of two tables. -/
def Rules.Commits (rules others : Rules σ τ) : Prop := ∀ name, (rules name).Commits (others name)

/-- The same for the rules of two scopes. -/
inductive Scope.Commits : Scope σ τ → Scope σ τ → Prop where
  | empty : Commits .empty .empty
  | rule {outer outer' : Scope σ τ} (name : σ.Name) (phase : Phase)
      {body body' : Grammar σ τ (σ.Value name)} :
      Commits outer outer' → body.Commits body' →
        Commits (.rule outer name phase body) (.rule outer' name phase body')

/-- **A plain grammar is the grammar without its commitments, with these added.** -/
theorem Grammar.Plain.commits_uncommitted {g : Grammar σ τ α} (hg : g.Plain) :
    g.Commits g.uncommitted := by
  induction g with
  | succeed value => exact .succeed value
  | fail message => exact .fail message
  | satisfy expected test => exact .satisfy expected test
  | eof => exact .eof
  | bind g next ihg ihnext => exact .bind (ihg hg.1) fun a => ihnext a (hg.2 a)
  | map f g ihg => exact .map f (ihg hg)
  | pair g h ihg ihh => exact .pair (ihg hg.1) (ihh hg.2)
  | keepRight g h ihg ihh => exact .keepRight (ihg hg.1) (ihh hg.2)
  | keepLeft g h ihg ihh => exact .keepLeft (ihg hg.1) (ihh hg.2)
  | orElse g h ihg ihh => exact .orElse (ihg hg.1) (ihh hg.2)
  | optional g ihg => exact .optional (ihg hg)
  | many g ihg => exact .many (ihg hg)
  | label name g ihg => exact .label name (ihg hg)
  | commit g ihg => exact .added (ihg hg)
  | deferred name => exact .deferred name
  | recursive name body ih => exact .recursive name (ih hg)
  | handle name => exact .handle name
  | withRule name phase body g ihbody ihg => exact .withRule name phase (ihbody hg.1) (ihg hg.2)
  | around before after g => exact hg.elim

theorem Rules.Plain.commits_uncommitted {rules : Rules σ τ} (hrules : rules.Plain) :
    rules.Commits rules.uncommitted :=
  fun name => (hrules.rule name).commits_uncommitted

theorem Scope.Plain.commits_uncommitted {scope : Scope σ τ} (hscope : scope.Plain) :
    scope.Commits scope.uncommitted := by
  induction scope with
  | empty => exact .empty
  | rule outer name phase body ih =>
      obtain ⟨houter, hbody⟩ : outer.Plain ∧ body.Plain := hscope
      exact .rule name phase (ih houter) hbody.commits_uncommitted

/-- A handle stands for nothing in both scopes, or for rules in the same phase, the first with
commitments added. -/
theorem Scope.Commits.find? {scope scope' : Scope σ τ} (h : scope.Commits scope')
    (name : σ.Name) :
    (scope.find? name = none ∧ scope'.find? name = none) ∨
      ∃ rule rule', scope.find? name = some rule ∧ scope'.find? name = some rule' ∧
        rule.phase = rule'.phase ∧ rule.body.Commits rule'.body ∧
        rule.home.Commits rule'.home := by
  induction h with
  | empty => exact .inl ⟨rfl, rfl⟩
  | rule other phase houter hbody ih =>
      by_cases ho : other = name
      · subst ho
        rw [find?_rule_self, find?_rule_self]
        exact .inr ⟨_, _, rfl, rfl, rfl, hbody, .rule other phase houter hbody⟩
      · rw [find?_rule_of_ne ho, find?_rule_of_ne ho]
        exact ih

/-! ### Runs with and without commitments -/

namespace Grammar

variable [Quote τ]

/-- One level of references. -/
theorem Commits.compares_interpret {C : Comparison τ} (haborts : C.aborts)
    {rules rules' : Rules σ τ} (hrules : rules.Commits rules') {call call' : Interpreter σ τ}
    (hcall : ∀ {α : Type} {scope scope' : Scope σ τ} {g g' : Grammar σ τ α},
      scope.Commits scope' → g.Commits g' → C.Parsers (call scope g) (call' scope' g'))
    (turns : Nat) {g g' : Grammar σ τ α} (h : g.Commits g') {scope scope' : Scope σ τ}
    (hscope : scope.Commits scope') :
    C.Parsers (g.interpret rules call turns scope) (g'.interpret rules' call' turns scope') := by
  induction h generalizing scope scope' with
  | added _ ih => exact .observed_left (.commit_left haborts (ih hscope))
  | succeed value => exact .observed (.succeed value)
  | fail message => exact .observed (.fail message)
  | satisfy expected test => exact .observed (.satisfy expected test)
  | eof => exact .observed .eof
  | bind _ _ ihg ihnext => exact .observed (.bind (ihg hscope) fun a => ihnext a hscope)
  | map f _ ih => exact .observed (.map (ih hscope) f)
  | pair _ _ ihg ihh => exact .observed (.pair (ihg hscope) (ihh hscope))
  | keepRight _ _ ihg ihh => exact .observed (.keepRight (ihg hscope) (ihh hscope))
  | keepLeft _ _ ihg ihh => exact .observed (.keepLeft (ihg hscope) (ihh hscope))
  | orElse _ _ ihg ihh => exact .observed (.orElse (ihg hscope) (ihh hscope))
  | optional _ ih => exact .observed (.optional (ih hscope))
  | many _ ih => exact .observed (.many (ih hscope) (.inl rfl))
  | label name _ ih => exact .observed (.label name (ih hscope))
  | commit _ ih => exact .observed (.commit (ih hscope))
  | deferred name => exact .observed (.deferred (hcall hscope (hrules name)))
  | recursive name hbody ih => exact .observed (ih (.rule name .defined hscope hbody))
  | handle name =>
      rw [interpret_handle, interpret_handle]
      rcases hscope.find? name with ⟨hfirst, hsecond⟩ | ⟨⟨phase, body, home⟩,
        ⟨_, body', home'⟩, hfirst, hsecond, rfl, hbody, hhome⟩
      · rw [hfirst, hsecond]
        exact .observed (.unusable _ _)
      · rw [hfirst, hsecond]
        exact .observed (.handle (hcall hhome hbody) phase)
  | withRule name phase hbody _ _ ihg => exact .observed (ihg (.rule name phase hscope hbody))

/-- **With commitments added, a run is aborted or takes the same course.** -/
theorem Commits.compares {C : Comparison τ} (haborts : C.aborts) {rules rules' : Rules σ τ}
    (hrules : rules.Commits rules') (fuel : Nat) {scope scope' : Scope σ τ}
    (hscope : scope.Commits scope') {g g' : Grammar σ τ α} (h : g.Commits g') :
    C.Parsers (parser rules fuel scope g) (parser rules' fuel scope' g') := by
  induction fuel generalizing α scope scope' g g' with
  | zero => exact .exhausted
  | succ fuel ih =>
      exact h.compares_interpret haborts hrules (fun hscope h => ih hscope h) (fuel + 1) hscope

/-- **Added commitments only abort.** What a grammar yields with commitments added, in its rules and
in its scope as well, is an error or what it yields without. What it yields without, it yields with
them, or else it yields an error. -/
theorem Commits.yields {rules rules' : Rules σ τ} (hrules : rules.Commits rules')
    {scope scope' : Scope σ τ} (hscope : scope.Commits scope') {g g' : Grammar σ τ α}
    (h : g.Commits g') {s : Stream} {sources : Sources τ} :
    (∀ {value last}, Yields rules scope g s sources value last →
      value.isError = true ∨ Yields rules' scope' g' s sources value last) ∧
    ∀ {value last}, Yields rules' scope' g' s sources value last →
      Yields rules scope g s sources value last ∨
        ∃ failure last', Yields rules scope g s sources (.error failure) last' := by
  have hends : ∀ fuel, (Comparison.same τ True).Ends ((parser rules fuel scope g s).run sources)
      ((parser rules' fuel scope' g' s).run sources) := fun fuel =>
    h.compares trivial hrules fuel hscope trivial rfl
  constructor
  · rintro value last ⟨fuel, events, hrun⟩
    have hcompare := hends fuel
    rw [hrun] at hcompare
    generalize hother : (parser rules' fuel scope' g' s).run sources = other at hcompare
    cases hcompare with
    | together _ hstore _ =>
        obtain rfl := hstore
        exact .inr ⟨fuel, _, hother⟩
    | aborted _ failure _ _ _ => exact .inl rfl
  · rintro value last ⟨fuel, events, hrun⟩
    have hcompare := hends fuel
    rw [hrun] at hcompare
    generalize hother : (parser rules fuel scope g s).run sources = other at hcompare
    cases hcompare with
    | lagging hlags _ => exact hlags.elim
    | together _ hstore _ =>
        obtain rfl := hstore
        exact .inl ⟨fuel, _, hother⟩
    | aborted _ failure middle own _ => exact .inr ⟨failure, middle, fuel, own, hother⟩

/-- **Commitment spares successes and recoverable failures.** Where a grammar yields a success, the
grammar without its commitments, those in rules, in recursive definitions and in continuations
included, yields the same value and the same rest; where it yields a recoverable failure, the same
failure. So to add commitments to a grammar can change what it yields only to an error. -/
theorem commit_spares {rules : Rules σ τ} (hrules : rules.Plain) {scope : Scope σ τ}
    (hscope : scope.Plain) {g : Grammar σ τ α} (hg : g.Plain) {s : Stream} {sources : Sources τ} :
    (∀ {value rest last}, Yields rules scope g s sources (.ok value rest) last →
      Yields rules.uncommitted scope.uncommitted g.uncommitted s sources (.ok value rest) last) ∧
    (∀ {failure last}, Yields rules scope g s sources (.fail failure) last →
      Yields rules.uncommitted scope.uncommitted g.uncommitted s sources (.fail failure) last) ∧
    ∀ {rules' : Rules σ τ} {scope' : Scope σ τ} {g' : Grammar σ τ α}, rules'.Commits rules →
      scope'.Commits scope → g'.Commits g → ∀ {value last},
      Yields rules scope g s sources value last →
        Yields rules' scope' g' s sources value last ∨
          ∃ failure last', Yields rules' scope' g' s sources (.error failure) last' := by
  have hkeeps : ∀ {value last}, Yields rules scope g s sources value last →
      value.isError = true ∨
        Yields rules.uncommitted scope.uncommitted g.uncommitted s sources value last :=
    (hg.commits_uncommitted.yields hrules.commits_uncommitted hscope.commits_uncommitted).1
  refine ⟨fun hok => ?_, fun hfail => ?_, fun hrules' hscope' h => ?_⟩
  · exact (hkeeps hok).resolve_left Bool.false_ne_true
  · exact (hkeeps hfail).resolve_left Bool.false_ne_true
  · exact (h.yields hrules' hscope').2

end Grammar

/-- One pair of brackets is parsed without the commitment to its closing bracket as with it. -/
theorem Brackets.commit_spares_pair :
    ∃ last, Grammar.Yields rules.uncommitted .empty grammar.uncommitted .start
      (store none [true, false]) (.ok 1 ⟨0, 2⟩) last := by
  have hrun : ((Grammar.parser rules 5 .empty grammar .start).run (store none [true, false])).map
      Step.value = some (.ok 1 ⟨0, 2⟩) := by
    decide +kernel
  obtain ⟨⟨value, last, events⟩, hstep, hvalue⟩ := Option.map_eq_some_iff.mp hrun
  obtain rfl : value = .ok 1 ⟨0, 2⟩ := hvalue
  have hyields : Grammar.Yields rules .empty grammar .start (store none [true, false])
      (.ok 1 ⟨0, 2⟩) last := ⟨5, events, hstep⟩
  obtain ⟨hok, -⟩ := Grammar.commit_spares plain_rules plain_scope plain_grammar
  exact ⟨last, hok hyields⟩

end Backtrack
