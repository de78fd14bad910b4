import Backtrack.Grammar.Derived
import Backtrack.Proofs.Comparison
import Backtrack.Proofs.Variation

/-!
# Derived Combinators

Sequences, options and repetitions of at least one have parsers of their own, but they could do
without. Each of them says the same as a grammar made of `bind`, `orElse`, `succeed` and `many`,
which is its expansion. An expansion has more nodes and calls continuations where the combinator
calls a function or nothing. For the rest the same happens at the same places, so a grammar is not
told from its expansions by its outcomes, by what is asked of a source, or by the log.

## Main definitions

* `Grammar.Expansion`: the derived combinators, each with the grammar that it stands for.
* `Outlook.full`: the outlook from which failures and the log are seen as they are.

## Main results

* `Parser.sequel_assoc`, `Parser.map_pair`, `Parser.map_optional`: how the elementary combinators
  are regrouped.
* `Grammar.unseen_expansion`: one expansion is not seen.
* `Grammar.seen_eq_of_expansion`: nor are expansions at any number of nodes.
-/

namespace Backtrack

variable {σ : Signature} {τ α β γ : Type}

/-! ### Regrouping -/

namespace Parser

/-- What comes after two parsers may be grouped with the second. -/
theorem sequel_assoc (p : Parser τ α) (q : α → Parser τ β) (r : β → Parser τ γ) :
    sequel (sequel p q) r = sequel p fun a => sequel (q a) r := by
  funext s
  have hgroup : (fun outcome : Outcome τ α => outcome.andThen q >>= fun o => o.andThen r) =
      fun outcome => outcome.andThen fun a => sequel (q a) r := by
    funext outcome
    cases outcome with
    | ok a rest => rfl
    | fail failure => exact pure_bind _ _
    | error failure => exact pure_bind _ _
  calc (p s >>= fun outcome => outcome.andThen q) >>= (fun outcome => outcome.andThen r)
    _ = p s >>= fun outcome => outcome.andThen q >>= fun o => o.andThen r := bind_assoc _ _ _
    _ = p s >>= fun outcome => outcome.andThen fun a => sequel (q a) r := by rw [hgroup]

/-- To go on after a success at once is to go on from where it is. -/
theorem succeed_sequel (a : α) (next : α → Parser τ β) : sequel (succeed a) next = next a := rfl

/-- A function of both values of a pair is called after the second. -/
theorem map_pair (f : α × β → γ) (p : Parser τ α) (q : Parser τ β) :
    map f (pair p q) =
      sequel p fun a => sequel q fun b => calling .function (succeed (f (a, b))) := by
  have hmap : map f (pair p q) = sequel (pair p q) fun c => calling .function (succeed (f c)) := rfl
  rw [hmap, pair_eq_sequel]
  simp only [sequel_assoc, succeed_sequel]

/-- A function of an optional value is called in both cases. -/
theorem map_optional (f : Option α → β) (p : Parser τ α) :
    map f (optional p) =
      orElse (map (fun a => f (some a)) p) (calling .function (succeed (f none))) := by
  funext s
  refine Run.ext_run fun sources => ?_
  simp only [map, optional, orElse, Run.run_bind]
  cases (p s).run sources with
  | none => rfl
  | some first =>
      obtain ⟨value, middle, events⟩ := first
      cases value <;> simp [Outcome.andThen, calling, succeed, Step.after]

end Parser

/-! ### Expansions -/

/-- The **expansion** of a derived combinator by `bind`, `orElse`, `succeed` and `many`. -/
inductive Grammar.Expansion : ⦃α : Type⦄ → Grammar σ τ α → Grammar σ τ α → Prop where
  | map {α β : Type} (f : α → β) (g : Grammar σ τ α) :
      Expansion (.map f g) (.bind g fun v => .succeed (f v))
  | pair {α β : Type} (g : Grammar σ τ α) (h : Grammar σ τ β) :
      Expansion (.pair g h) (.bind g fun a => .bind h fun b => .succeed (a, b))
  | keepRight {α β : Type} (g : Grammar σ τ α) (h : Grammar σ τ β) :
      Expansion (.keepRight g h) (.bind g fun _ => h)
  | keepLeft {α β : Type} (g : Grammar σ τ α) (h : Grammar σ τ β) :
      Expansion (.keepLeft g h) (.bind g fun a => .bind h fun _ => .succeed a)
  | replace {α β : Type} (g : Grammar σ τ α) (value : β) :
      Expansion (g.replace value) (.bind g fun _ => .succeed value)
  | optional {α : Type} (g : Grammar σ τ α) :
      Expansion g.optional (.orElse (.bind g fun v => .succeed (some v)) (.succeed none))
  | matched {α : Type} (g : Grammar σ τ α) :
      Expansion g.matched (.orElse (.bind g fun _ => .succeed true) (.succeed false))
  | many1 {α : Type} (g : Grammar σ τ α) :
      Expansion g.many1 (.bind g fun v => .bind (.many g) fun vs => .succeed (v :: vs))
  | sepBy1 {α β : Type} (g : Grammar σ τ α) (separator : Grammar σ τ β) :
      Expansion (g.sepBy1 separator)
        (.bind g fun v => .bind (.many (.bind separator fun _ => g)) fun vs => .succeed (v :: vs))

variable [Quote τ]

namespace Outlook

variable {view : Outlook τ}

/-- The **full outlook**: failures and the log are seen as they are. -/
def full : Outlook τ where
  failure := id
  record := Event.record?
  entered _ := rfl
  returned _ := rfl
  called _ := rfl
  relabel name h := congrArg (Failure.relabel · name) h
  committed h := congrArg (fun failure : Failure τ => Event.record? (.committed failure)) h

theorem see_full (step : Step τ (Outcome τ α)) : full.see step = step.seen := by
  obtain ⟨value, sources, events⟩ := step
  cases value <;> rfl

namespace Parsers

variable {p q : Parser τ α} {p' q' : Parser τ β}

/-- A function that is called at the end may as well be what a continuation succeeds with. -/
theorem map_bind (f : α → β) (p : Parser τ α) :
    view.Parsers (Parser.map f p) (Parser.bind p fun a => (Parser.succeed (f a)).observed) :=
  .sequel (.refl p) fun _ => .calling _ _ (.observed_right (.refl _))

/-- Two parsers in a row may as well be two continuations in a row, -/
theorem sequel_bind (f : α → β → γ) (p : Parser τ α) (q : Parser τ β) :
    view.Parsers (Parser.sequel p fun a => Parser.sequel q fun b => Parser.succeed (f a b))
      (Parser.bind p fun a =>
        (Parser.bind q fun b => (Parser.succeed (f a b)).observed).observed) :=
  .sequel (.refl p) fun _ => .calling_right _ (.observed_right
    (.sequel (.refl q) fun _ => .calling_right _ (.observed_right (.refl _))))

/-- also when a function of both values is called at the end. -/
theorem map_pair_bind (f : α × β → γ) (p : Parser τ α) {q q' : Parser τ β}
    (h : view.Parsers q q') :
    view.Parsers (Parser.map f (Parser.pair p q).observed)
      (Parser.bind p fun a =>
        (Parser.bind q' fun b => (Parser.succeed (f (a, b))).observed).observed) := by
  refine (Parsers.map (.observed_left (.refl (Parser.pair p q))) f).trans ?_
  rw [Parser.map_pair]
  refine .sequel (.refl p) fun a => .calling_right _ (.observed_right ?_)
  exact .sequel h fun b => .calling _ _ (.observed_right (.refl _))

end Parsers

end Outlook

namespace Grammar

/-- **One expansion is not seen**, from any outlook. -/
theorem unseen_expansion {view : Outlook τ} : Unseen view (Expansion (σ := σ)) := by
  intro α g g' h rules call turns scope
  cases h with
  | map f g => exact .observed (.map_bind f _)
  | pair g h =>
      refine .observed ?_
      rw [Parser.pair_eq_sequel]
      exact .sequel_bind Prod.mk _ _
  | keepRight g h => exact .observed (.sequel (.refl _) fun _ => .calling_right _ (.refl _))
  | keepLeft g h =>
      refine .observed ?_
      rw [Parser.keepLeft_eq_sequel]
      exact .sequel_bind (fun a _ => a) _ _
  | replace g value => exact .observed (.map_bind (fun _ => value) _)
  | optional g =>
      refine .observed ?_
      rw [Parser.optional_eq_orElse]
      have hsome : view.Parsers _ _ := .sequel (.refl (g.interpret rules call turns scope))
        fun a => .calling_right .continuation (.observed_right (.refl (Parser.succeed (some a))))
      exact .orElse hsome.observed_right (.observed_right (.refl _))
  | matched g =>
      refine .observed ((Outlook.Parsers.map (.observed_left (.refl _)) Option.isSome).trans ?_)
      rw [Parser.map_optional]
      have hnone : view.Parsers (Parser.succeed false : Parser τ Bool)
          (Parser.calling .function (Parser.succeed false)) := .calling_right _ (.refl _)
      exact .orElse (.observed_right (.map_bind (fun _ => true) _)) hnone.symm.observed_right
  | many1 g => exact .observed (.map_pair_bind _ _ (.refl _))
  | sepBy1 g separator =>
      refine .observed (.map_pair_bind _ _ (.observed (.many (.observed ?_) turns)))
      exact .sequel (.refl _) fun _ => .calling_right _ (.refl _)

/-- **Derived combinators are their expansions.** Expansions at any nodes of a grammar, of its rules
and of the rules around it, leave what is seen of a run as it is, on every stream and store: whether
it ends, and with which outcome, what was asked of the sources, and the log. -/
theorem seen_eq_of_expansion {rules rules' : Rules σ τ} (hrules : rules.Varies Expansion rules')
    {scope scope' : Scope σ τ} (hscope : scope.Varies Expansion scope') {g g' : Grammar σ τ α}
    (h : g.Varies Expansion g') (fuel : Nat) (s : Stream) (sources : Sources τ) :
    ((parser rules fuel scope g s).run sources).map Step.seen =
      ((parser rules' fuel scope' g' s).run sources).map Step.seen := by
  have hseen : (Outlook.full : Outlook τ).see (α := α) = Step.seen := funext Outlook.see_full
  rw [← hseen]
  exact h.look_alike unseen_expansion hrules fuel hscope s sources

end Grammar

/-! ### Nested brackets expanded -/

namespace Brackets

/-- The brackets with all that is derived in them expanded, in the body of their rule. -/
def expanded : Grammar names Bool Nat :=
  .recursive () (.orElse
    (.bind
      (.bind (.satisfy "an opening bracket" ⟨fun t => t, fun _ => []⟩) fun _ =>
        .bind (.handle ()) fun n =>
          .bind (.commit (.satisfy "a closing bracket" ⟨fun t => !t, fun _ => []⟩)) fun _ =>
            .succeed n)
      fun n : Nat => .succeed (n + 1))
    (.deferred ()))

theorem varies_expanded : grammar.Varies Grammar.Expansion expanded := by
  refine .recursive () (.orElse ?_ (Grammar.Varies.deferred (σ := names) ()))
  refine .changed (.map _ ?_) (Grammar.Expansion.map _ _)
  refine .changed (.keepRight (.satisfy _ _) ?_) (Grammar.Expansion.keepRight _ _)
  refine .changed (.keepLeft (Grammar.Varies.handle (σ := names) ()) (.commit (.satisfy _ _))) ?_
  exact Grammar.Expansion.keepLeft _ _

/-- The expanded brackets are parsed as the brackets are. -/
theorem seen_eq_of_expansion_pair :
    ((Grammar.parser rules 5 .empty expanded .start).run (store none [true, false])).map
      Step.value = some (.ok 1 ⟨0, 2⟩) := by
  have hrun : ((Grammar.parser rules 5 .empty grammar .start).run (store none [true, false])).map
      Step.value = some (.ok 1 ⟨0, 2⟩) := by
    decide +kernel
  have hrules : rules.Varies Grammar.Expansion rules := fun _ => (plain_rules.rule _).varies
  have hseen := Grammar.seen_eq_of_expansion hrules .empty varies_expanded 5 .start
    (store none [true, false])
  rw [Step.map_value_eq] at hrun ⊢
  rw [← hseen]
  exact hrun

end Brackets

end Backtrack
