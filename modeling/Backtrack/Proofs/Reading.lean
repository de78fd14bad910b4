import Backtrack.Stream.Inspect

/-!
# What Is Read at a Position

Looking at a position of a lazy source changes its memory, so the token there is at first
sight a matter of when one looks. It is not: the token that looking at a position shows was
settled when the source was opened. `Source.token` names it, and the lemmas below say that
no look changes it and that every operation of a stream answers from it.

## Main results

* `Memo.token_pull`: one request changes no token, answered or not.
* `Source.token_look`: looking at a position changes no token.
* `Stream.run_head`, `Stream.run_tail`, `Stream.run_isEnd`, `Stream.run_display`,
  `Stream.run_descend`, `Stream.run_ascend`, `Failure.run_here`: what the operations of a
  stream do.
-/

namespace Backtrack

variable {τ : Type}

/-! ### Tokens of a memory -/

namespace Memo

/-- The **token at position `i`**, asked for if need be. -/
def token (m : Memo τ) (i : Nat) : Option τ := (m.fill i).buffer[i]?

/-- Requests can be counted from the first as well as from the last. -/
private theorem repeat_pull_succ (m : Memo τ) (n : Nat) :
    Nat.repeat pull (n + 1) m = Nat.repeat pull n m.pull := by
  induction n with
  | zero => rfl
  | succ n ih =>
      have unfolded : Nat.repeat pull (n + 1 + 1) m = (Nat.repeat pull (n + 1) m).pull := rfl
      rw [unfolded, ih]
      rfl

/-- A released memory stays as it is, whatever is asked of it. -/
theorem repeat_pull_of_released {m : Memo τ} (h : m.released = true) (n : Nat) :
    Nat.repeat pull n m = m := by
  induction n with
  | zero => rfl
  | succ n ih => rw [repeat_pull_succ, pull_of_released h, ih]

/-- A released memory has the tokens that it remembers and no others. -/
theorem token_of_released {m : Memo τ} (h : m.released = true) (i : Nat) :
    m.token i = m.buffer[i]? := by
  rw [token, fill, repeat_pull_of_released h]

/-- **One request changes no token**: what it brings is what looking further on would have
brought, and an answer of `none` says that there was nothing more. -/
theorem token_pull (m : Memo τ) (i : Nat) : m.pull.token i = m.token i := by
  by_cases hr : m.released = true
  · rw [pull_of_released hr]
  have hf : m.released = false := by simpa using hr
  by_cases hi : i < m.buffer.size
  · -- The position is remembered, so neither memory is asked for it.
    rw [token, token, fill_of_lt hi]
    cases ha : m.supply m.requests with
    | none =>
        have hp : m.pull = { m with requests := m.requests + 1, released := true } := by
          simp [pull, hf, ha]
        rw [hp, fill_of_lt (by exact hi)]
    | some t =>
        have hp : m.pull =
            { m with buffer := m.buffer.push t, requests := m.requests + 1 } := by
          simp [pull, hf, ha]
        rw [hp, fill_of_lt (by rw [Array.size_push]; omega), Array.getElem?_push]
        rw [if_neg (by omega)]
  · obtain ⟨n, hn⟩ : ∃ n, i + 1 - m.buffer.size = n + 1 := ⟨i - m.buffer.size, by omega⟩
    rw [token, token, fill, fill, hn, repeat_pull_succ]
    cases ha : m.supply m.requests with
    | none =>
        have hp : m.pull.released = true := by simp [pull, hf, ha]
        rw [repeat_pull_of_released hp, repeat_pull_of_released hp]
    | some t =>
        have hp : m.pull.buffer.size = m.buffer.size + 1 := by simp [pull, hf, ha]
        have hm : i + 1 - m.pull.buffer.size = n := by omega
        rw [hm]

/-- Any number of requests changes no token. -/
theorem token_repeat_pull (m : Memo τ) (n i : Nat) :
    (Nat.repeat pull n m).token i = m.token i := by
  induction n generalizing m with
  | zero => rfl
  | succ n ih => rw [repeat_pull_succ, ih, token_pull]

end Memo

/-! ### Tokens of a source -/

namespace Source

/-- The **token at position `i`** of a source, asked for if need be. -/
def token (source : Source τ) (i : Nat) : Option τ := (source.look i).tape.token? i

/-- **Looking changes no token.** -/
@[simp]
theorem token_look (source : Source τ) (i : Nat) : (source.look i).token = source.token := by
  funext j
  obtain ⟨tape, config, depth⟩ := source
  cases tape with
  | buffered tokens => rfl
  | lazy memo => exact memo.token_repeat_pull _ j

@[simp]
theorem token_enter (source : Source τ) : source.enter.token = source.token := rfl

@[simp]
theorem token_leave (source : Source τ) : source.leave.token = source.token := rfl

end Source

/-! ### Tokens of a stream -/

namespace Sources

/-- The store after a look at a stream. -/
def look (sources : Sources τ) (s : Stream) : Sources τ :=
  sources.modify s.source (·.look s.position)

/-- The **token of a stream**, or `none` at the end of input. -/
def token (sources : Sources τ) (s : Stream) : Option τ :=
  (sources.get s.source).token s.position

@[simp]
theorem next_modify (sources : Sources τ) (id : Nat) (f : Source τ → Source τ) :
    (sources.modify id f).next = sources.next := by
  simp [next, modify]

/-- A name that was never given out stands for the blank source. -/
theorem get_of_le {sources : Sources τ} {id : Nat} (h : sources.next ≤ id) :
    sources.get id = .blank := by
  have hnone : sources.entries[id]? = none := Array.getElem?_eq_none h
  rw [get, hnone]
  rfl

/-- What holds of every source and of its image holds of each source of a modified store. -/
theorem rel_get_modify {P : Source τ → Source τ → Prop} {f : Source τ → Source τ}
    (same : ∀ source, P source source) (changed : ∀ source, P (f source) source)
    (sources : Sources τ) (id other : Nat) :
    P ((sources.modify id f).get other) (sources.get other) := by
  by_cases ho : id = other
  · subst ho
    by_cases hid : id < sources.next
    · rw [get_modify_self hid]
      exact changed _
    · have hle : sources.next ≤ id := by omega
      rw [get_of_le hle, get_of_le (by rw [next_modify]; exact hle)]
      exact same _
  · rw [get_modify_of_ne ho]
    exact same _

/-- Two changes of one source, as one. -/
theorem modify_modify (sources : Sources τ) (id : Nat) (f g : Source τ → Source τ) :
    (sources.modify id f).modify id g = sources.modify id (g ∘ f) := by
  refine congrArg Sources.mk (Array.ext_getElem? fun i => ?_)
  by_cases hi : id = i
  · subst hi
    cases h : sources.entries[id]? <;> simp [modify, Array.getElem?_modify, h]
  · simp [modify, Array.getElem?_modify, hi]

/-- A change that leaves a source as it is, if there is such a source. -/
theorem modify_eq_self {sources : Sources τ} {id : Nat} {f : Source τ → Source τ}
    (h : id < sources.next → f (sources.get id) = sources.get id) :
    sources.modify id f = sources := by
  refine congrArg Sources.mk (Array.ext_getElem? fun i => ?_)
  by_cases hi : id = i
  · subst hi
    cases hget : sources.entries[id]? with
    | none => simp [Array.getElem?_modify, hget]
    | some source =>
        obtain ⟨hid, -⟩ := Array.getElem?_eq_some_iff.mp hget
        have hsame := h hid
        rw [get, hget] at hsame
        simpa [Array.getElem?_modify, hget] using hsame
  · simp [Array.getElem?_modify, hi]

/-- A look at a token leaves the references that are active. -/
theorem depth_look (sources : Sources τ) (s : Stream) (id : Nat) :
    ((sources.look s).get id).depth = (sources.get id).depth :=
  rel_get_modify (f := (·.look s.position)) (P := fun new old : Source τ => new.depth = old.depth)
    (fun _ => rfl) (fun _ => rfl) sources s.source id

/-- A look at one stream changes the token of no stream. -/
@[simp]
theorem token_look (sources : Sources τ) (s t : Stream) :
    (sources.look s).token t = sources.token t := by
  have h := rel_get_modify (P := fun new old => new.token = old.token) (fun _ => rfl)
    (fun source => source.token_look s.position) sources s.source t.source
  exact congrFun h t.position

end Sources

namespace Stream

/-- What a look at a stream shows is its token. -/
private theorem look_token? (s : Stream) (sources : Sources τ) :
    ((sources.look s).get s.source).tape.token? s.position = sources.token s := by
  by_cases hid : s.source < sources.next
  · rw [Sources.look, Sources.get_modify_self hid]
    rfl
  · have hle : sources.next ≤ s.source := by omega
    have hle' : (sources.look s).next ≤ s.source := by
      rw [Sources.look, Sources.next_modify]
      exact hle
    rw [Sources.token, Sources.get_of_le hle, Sources.get_of_le hle']
    rfl

@[simp]
theorem run_head (s : Stream) (sources : Sources τ) :
    s.head.run sources = ⟨sources.token s, sources.look s, [.inspected s]⟩ := by
  have h := look_token? s sources
  rw [← h]
  rfl

@[simp]
theorem run_isEnd (s : Stream) (sources : Sources τ) :
    s.isEnd.run sources = ⟨(sources.token s).isNone, sources.look s, [.inspected s]⟩ := by
  simp [isEnd]

@[simp]
theorem run_tail (s : Stream) (sources : Sources τ) :
    s.tail.run sources =
      ⟨if (sources.token s).isNone then s else s.advance, sources.look s, [.inspected s]⟩ := by
  cases h : sources.token s <;> simp [tail, h]

@[simp]
theorem run_display [ToString τ] (s : Stream) (sources : Sources τ) :
    s.display.run sources =
      ⟨match sources.token s with
        | some token => "[" ++ toString token ++ ", ...]"
        | none => "[END]",
        sources.look s, [.inspected s]⟩ := by
  cases h : sources.token s <;> simp [display, h]

@[simp]
theorem run_config (s : Stream) (sources : Sources τ) :
    s.config.run sources = ⟨(sources.get s.source).config, sources, []⟩ := rfl

theorem run_descend (s : Stream) (sources : Sources τ) :
    s.descend.run sources =
      match (sources.get s.source).config.admits (sources.get s.source).depth with
      | .error limit => ⟨.error limit, sources, []⟩
      | .ok () =>
        ⟨.ok (), sources.modify s.source .enter,
          [.descended s ((sources.get s.source).depth + 1)]⟩ := rfl

@[simp]
theorem run_ascend (s : Stream) (sources : Sources τ) :
    s.ascend.run sources =
      ⟨(), sources.modify s.source .leave,
        [.ascended s ((sources.modify s.source .leave).get s.source).depth]⟩ := rfl

end Stream

@[simp]
theorem Failure.run_here (message : String) (s : Stream) (sources : Sources τ) :
    (Failure.here message s).run sources =
      ⟨{ message, found := sources.token s, position := s.position }, sources.look s,
        [.inspected s]⟩ := by
  simp [Failure.here]

end Backtrack
