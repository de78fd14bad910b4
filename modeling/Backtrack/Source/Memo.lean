/-!
# Lazy Token Memory

A lazy source asks its supply for tokens one request at a time and remembers every token
it was given, so that an earlier position can be looked at again without asking. The
supply answers the `n`-th request; an answer of `none` ends the source for good, even
when the supply would have had more to say afterwards.

## Main definitions

* `Memo`: the supply, the tokens remembered, the number of requests made, and whether the
  supply has been released.
* `Memo.pull`: one request.
* `Memo.fill`: requests until a given position is remembered or the supply is released.
-/

namespace Backtrack

/-- The memory of a lazy source. -/
structure Memo (τ : Type) where
  /-- The answer to each request, by the number of requests made before it. -/
  supply : Nat → Option τ
  /-- The tokens received so far, in order. -/
  buffer : Array τ := #[]
  /-- The number of requests made so far, the one answered `none` included. -/
  requests : Nat := 0
  /-- Whether the supply has answered `none` and was let go. -/
  released : Bool := false

namespace Memo

variable {τ : Type}

/-- **One request**: a token is remembered, an answer of `none` releases the supply, and a
released supply is not asked again. -/
def pull (m : Memo τ) : Memo τ :=
  if m.released then m
  else
    match m.supply m.requests with
    | some t => { m with buffer := m.buffer.push t, requests := m.requests + 1 }
    | none => { m with requests := m.requests + 1, released := true }

/-- As many requests as it takes for position `i` to be remembered, unless the supply
ends before. -/
def fill (m : Memo τ) (i : Nat) : Memo τ :=
  Nat.repeat pull (i + 1 - m.buffer.size) m

theorem pull_of_released {m : Memo τ} (h : m.released = true) : m.pull = m := by
  simp [pull, h]

/-- A position that is remembered needs no request. -/
theorem fill_of_lt {m : Memo τ} {i : Nat} (h : i < m.buffer.size) : m.fill i = m := by
  have : i + 1 - m.buffer.size = 0 := by omega
  simp [fill, this, Nat.repeat]

end Memo

end Backtrack
