import Backtrack.Proofs.Correspondence

/-!
# Fuel

Fuel bounds the levels of references and the turns of repetitions, and a run that needs more
gives nothing. It is not part of the meaning of a grammar: a run that ends, ends in the same
way with more fuel. Here every primitive, every combinator and every computation of a
grammar's own counts, not only plain grammars.

## Main definitions

* `Run.Le`: one run ends in the same way wherever another ends.
* `Parser.Le`: the same for the runs of two parsers.
* `Run.order`: the order is kept by sequencing, and so by all combinators.

## Main results

* `Grammar.parser_le`: more fuel keeps every run that ends.
-/

namespace Backtrack

variable {τ α β : Type}

/-! ### Runs -/

/-- Wherever the first run ends, **the second ends in the same way**. -/
def Run.Le (r q : Run τ α) : Prop :=
  ∀ sources step, r.run sources = some step → q.run sources = some step

namespace Run

theorem Le.refl (r : Run τ α) : r.Le r := fun _ _ h => h

theorem exhausted_le (r : Run τ α) : exhausted.Le r := fun _ _ h => by cases h

/-- Sequencing keeps the order in both parts. -/
theorem Le.bind {r q : Run τ α} {f g : α → Run τ β} (h : r.Le q) (hrest : ∀ a, (f a).Le (g a)) :
    (r >>= f).Le (q >>= g) := by
  intro sources step hstep
  obtain ⟨first, second, hfirst, hsecond, rfl⟩ := run_bind_eq_some_iff.mp hstep
  exact run_bind_eq_some_iff.mpr ⟨first, second, h _ _ hfirst, hrest _ _ _ hsecond, rfl⟩

/-- The order of runs is **kept by sequencing**. -/
def order : Correspondence τ (Run τ) (Run τ) where
  Rel := Le
  pure _ := .refl _
  bind := .bind
  carry _ := .refl _
  inside h := h

/-- Going on after a success keeps the order. -/
theorem Le.andThen {f g : α → Stream → Run τ (Outcome τ β)} (o : Outcome τ α)
    (h : ∀ a rest, (f a rest).Le (g a rest)) : (o.andThen f).Le (o.andThen g) :=
  order.andThen o h

end Run

/-! ### Parsers -/

/-- Wherever the first parser ends, **the second ends in the same way**. -/
def Parser.Le (p q : Parser τ α) : Prop := ∀ s, (p s).Le (q s)

/-! ### Grammars -/

namespace Grammar

variable [Quote τ] {σ : Signature}

/-- **More fuel keeps every run that ends.** -/
theorem parser_le (rules : Rules σ τ) {fuel more : Nat} (h : fuel ≤ more) {α : Type}
    (scope : Scope σ τ) (g : Grammar σ τ α) :
    (parser rules fuel scope g).Le (parser rules more scope g) :=
  Run.order.carried Run.Le.refl h (fun _ _ => Run.exhausted_le) scope g

end Grammar

end Backtrack
