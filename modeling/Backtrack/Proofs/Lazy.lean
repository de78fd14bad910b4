import Backtrack.Proofs.Client

/-!
# Lazy Sources

A lazy source asks a supply for its tokens, and the first answer of `none` ends it for good,
whatever the supply would answer afterwards. Its tokens are therefore the opening of the
supply: the answers before the first `none`. A source that has the opening at hand has the
same tokens at the same positions, so no client can tell the two apart.

## Main definitions

* `Memo.opening`: the tokens that a supply gives before the first `none`.

## Main results

* `Memo.opening_spec`: the opening, followed by `none`, is what the supply answers first.
* `Memo.token_eq_opening`: a lazy source has the tokens of the opening.
* `Client.report_lazy`: clients are answered alike by lazy and by buffered sources.
-/

namespace Backtrack

variable {τ : Type}

namespace Memo

/-- The **opening** of a supply: of its first `n` answers, the tokens before the first `none`. -/
def opening (supply : Nat → Option τ) : Nat → List τ
  | 0 => []
  | n + 1 =>
    match supply 0 with
    | none => []
    | some token => token :: opening (fun request => supply (request + 1)) n

/-- A supply that answers `none` at last answers **the opening and then `none`**. -/
theorem opening_spec {supply : Nat → Option τ} {n : Nat} (h : supply n = none) {i : Nat}
    (hi : i ≤ (opening supply n).length) : supply i = (opening supply n)[i]? := by
  induction n generalizing supply i with
  | zero =>
      obtain rfl : i = 0 := Nat.le_zero.mp hi
      exact h
  | succ n ih =>
      rw [opening] at hi ⊢
      cases hfirst : supply 0 with
      | none =>
          rw [hfirst] at hi
          obtain rfl : i = 0 := Nat.le_zero.mp hi
          exact hfirst
      | some token =>
          rw [hfirst] at hi
          cases i with
          | zero => exact hfirst
          | succ i => exact ih h (Nat.le_of_succ_le_succ hi)

/-- A new memory after requests that were all answered with tokens. -/
theorem repeat_pull_new {supply : Nat → Option τ} {tokens : List τ}
    (h : ∀ i < tokens.length, supply i = tokens[i]?) {n : Nat} (hn : n ≤ tokens.length) :
    Nat.repeat pull n { supply } =
      { supply, buffer := (tokens.take n).toArray, requests := n } := by
  induction n with
  | zero => rfl
  | succ n ih =>
      have hlt : n < tokens.length := by omega
      have hanswer : supply n = some tokens[n] := by
        rw [h n hlt, List.getElem?_eq_getElem hlt]
      have unfolded : Nat.repeat pull (n + 1) { supply } =
          (Nat.repeat pull n { supply } : Memo τ).pull := rfl
      rw [unfolded, ih (by omega), pull]
      simp only [hanswer, List.push_toArray, Bool.false_eq_true, if_false]
      rw [List.take_append_getElem hlt]

/-- A new memory has **the tokens before the first `none`** and no others. -/
theorem token_new {supply : Nat → Option τ} {tokens : List τ}
    (h : ∀ i ≤ tokens.length, supply i = tokens[i]?) (i : Nat) :
    ({ supply } : Memo τ).token i = tokens[i]? := by
  -- Once the supply is released, the memory shows what it remembers.
  have hall := repeat_pull_new (fun i hi => h i (Nat.le_of_lt hi)) (Nat.le_refl tokens.length)
  have hlast : supply tokens.length = none := by
    rw [h tokens.length (Nat.le_refl _), List.getElem?_eq_none (Nat.le_refl _)]
  have hrelease : (Nat.repeat pull (tokens.length + 1) { supply } : Memo τ) =
      { supply, buffer := tokens.toArray, requests := tokens.length + 1, released := true } := by
    have unfolded : Nat.repeat pull (tokens.length + 1) { supply } =
        (Nat.repeat pull tokens.length { supply } : Memo τ).pull := rfl
    rw [unfolded, hall, pull]
    simp [hlast]
  rw [← token_repeat_pull _ (tokens.length + 1), hrelease, token_of_released rfl]
  exact List.getElem?_toArray

end Memo

/-- **A lazy source has the tokens of the opening** of its supply. -/
theorem Source.token_lazy {supply : Nat → Option τ} {n : Nat} (h : supply n = none)
    (config : Config) :
    (Source.lazy supply config).token =
      (Source.buffered (Memo.opening supply n) config).token := by
  funext i
  have hlazy : (Source.lazy supply config).token i = ({ supply } : Memo τ).token i := rfl
  have hbuffered : (Source.buffered (Memo.opening supply n) config).token i =
      (Memo.opening supply n)[i]? := List.getElem?_toArray
  rw [hlazy, hbuffered]
  exact Memo.token_new (fun i hi => Memo.opening_spec h hi) i

/-- The next name is given out when a source is added. -/
theorem Sources.next_lt_next_add (sources : Sources τ) (source : Source τ) :
    sources.next < (sources.add source).next := by
  rw [next, next, add, Array.size_push]
  exact Nat.lt_succ_self _

/-- New sources with the same tokens and settings agree in any store. -/
theorem Sources.agree_add (sources : Sources τ) {first second : Source τ}
    (htoken : first.token = second.token) (hconfig : first.config = second.config)
    (hfirst : first.depth = 0) (hsecond : second.depth = 0) :
    Sources.Agree sources.next (sources.add first) (sources.add second) := by
  refine ⟨⟨sources.next_lt_next_add first, sources.next_lt_next_add second, ?_, ?_, ?_, ?_⟩, ?_⟩
  · rw [get_add_next, get_add_next, htoken]
  · rw [get_add_next, get_add_next, hfirst, hsecond]
  · intro m _
    rw [get_add_next, hsecond]
    exact Nat.zero_le m
  · rw [get_add_next, get_add_next, hconfig]
    exact .refl _
  · rw [get_add_next, get_add_next, hconfig]

/-- The computation that opens a source and answers a client who holds streams at its start. -/
def Client.serveOver [Quote τ] [ToString τ] {σ : Signature} {β : Type} (rules : Rules σ τ)
    (fuel : Nat) (client : Client σ τ β) (source : Source τ) : Run τ β := do
  let start ← (Act.openSource source).toRun
  client.serve rules fuel fun _ => start

/-- **Lazy and buffered sources agree.** Over a supply that answers `none` at last, a client is
answered as over a buffered source of the tokens before the first `none`: there is no answer
in either case, or the same word and the same events in both. -/
theorem Client.report_lazy [Quote τ] [ToString τ] {σ : Signature} {β : Type}
    {rules : Rules σ τ} (hrules : rules.Plain) {client : Client σ τ β} (hclient : client.Plain)
    {supply : Nat → Option τ} {n : Nat} (h : supply n = none) (config : Config) (fuel : Nat)
    (sources : Sources τ) :
    ((client.serveOver rules fuel (.lazy supply config)).run sources).map Step.report =
      ((client.serveOver rules fuel (.buffered (Memo.opening supply n) config)).run
        sources).map Step.report := by
  have hagree : Sources.Agree sources.next (sources.add (.lazy supply config))
      (sources.add (.buffered (Memo.opening supply n) config)) :=
    sources.agree_add (Source.token_lazy h config) rfl rfl rfl
  rw [serveOver, serveOver, Run.run_toRun_bind, Run.run_toRun_bind]
  exact Step.map_report_after (report_serve hrules fuel hclient (fun _ => rfl) hagree) _

/-- A supply that goes on after its first `none`, as no client ever learns. -/
def Brackets.supply : Nat → Option Bool
  | 0 => some true
  | 1 => some false
  | 2 => none
  | _ => some true

/-- A client who parses brackets, looks at the rest, and goes back to the second token. -/
def Brackets.visitor : Client names Bool (Option Nat × Option Bool × Option Bool) :=
  .parse 0 1 .empty grammar fun outcome =>
    .head 1 fun rest => .tail 0 2 (.head 2 fun second => .done (outcome.value?, rest, second))

/-- The visitor parses one pair of brackets over a lazy source, as over a buffered one. -/
theorem Brackets.report_lazy_visitor :
    ((visitor.serveOver rules 5 (.lazy supply .standard)).run {}).map Step.value =
      some (some 1, none, some false) := by
  have hvisitor : visitor.Plain :=
    ⟨trivial, plain_grammar, fun _ _ => fun _ => trivial⟩
  have hbuffered : ((visitor.serveOver rules 5
      (.buffered (Memo.opening supply 2) .standard)).run {}).map Step.value =
        some (some 1, none, some false) := by decide +kernel
  have hreport := Client.report_lazy plain_rules hvisitor (show supply 2 = none from rfl)
    .standard 5 {}
  have hvalue := congrArg (Option.map Prod.fst) hreport
  rw [Option.map_map, Option.map_map] at hvalue
  exact hvalue.trans hbuffered

end Backtrack
