import Backtrack.Proofs.History
import Backtrack.Proofs.Requests
import Backtrack.Proofs.Yields

/-!
# Whole Parses and Runs

A whole parse runs a parser and then looks whether the input is over. The same is done by the
parser followed by the end of input, inside the grammar. What the two give in the end is told
by what the parser alone gives: `Ending` has one case for each way in which this goes on. All
ways to use a parser from outside are compared through it.

A parse to the end that succeeds has looked where the tokens end. Over a lazy source this look
is the last request that is made, so the source has been asked for every token, and has let
go of its supply.

## Main definitions

* `Grammar.ParsesFrom`, `Grammar.ParsesToEnd`: what whole parses give, with some fuel.
* `Ending`: how a whole parse goes on from what the parser gives.
* `EntryLaws`: how the ways to use a grammar from outside agree with its runs.

## Main results

* `Grammar.parsesToEnd_iff`, `Grammar.yields_ended_iff`: both by the ending.
* `Grammar.ParsesToEnd.relocate`: whole parses over sources that are alike agree.
* `Grammar.ParsesToEnd.drained`: a success over a lazy source has asked for everything.
* `Grammar.entry_laws`: the laws, for all plain grammars.
-/

namespace Backtrack

variable {τ α : Type} [Quote τ]

/-! ### How a whole parse goes on -/

/-- How a **whole parse goes on** when the parser has given `first` and left the store `middle`:
the outcome of the parser followed by the end of input, the result of the whole parse, and the
store that either leaves. -/
inductive Ending : Outcome τ α → Sources τ → Outcome τ α → Except ParseError α → Sources τ →
    Prop where
  | complete {value : α} {rest : Stream} {middle : Sources τ} (h : middle.token rest = none) :
      Ending (.ok value rest) middle (.ok value rest) (.ok value) (middle.look rest)
  | trailing {value : α} {rest : Stream} {middle : Sources τ} {token : τ}
      (h : middle.token rest = some token) :
      Ending (.ok value rest) middle
        (.fail ⟨Message.mismatch Message.endOfInput token, some token, rest.position⟩)
        (.error (.trailingInput (quote token) rest.position)) (middle.look rest)
  | failed (failure : Failure τ) (middle : Sources τ) :
      Ending (.fail failure) middle (.fail failure) (.error failure.toFailed) middle
  | aborted (failure : Failure τ) (middle : Sources τ) :
      Ending (.error failure) middle (.error failure) (.error failure.toFatal) middle

namespace Ending

variable {first whole : Outcome τ α} {middle last : Sources τ} {result : Except ParseError α}

/-- Whatever a parser gives, a whole parse goes on from it. -/
theorem exists_of_outcome (first : Outcome τ α) (middle : Sources τ) :
    ∃ whole result last, Ending first middle whole result last := by
  cases first with
  | ok value rest =>
      cases h : middle.token rest with
      | none => exact ⟨_, _, _, .complete h⟩
      | some token => exact ⟨_, _, _, .trailing h⟩
  | fail failure => exact ⟨_, _, _, .failed failure middle⟩
  | error failure => exact ⟨_, _, _, .aborted failure middle⟩

end Ending

namespace Parser

variable {p : Parser τ α} {s : Stream} {sources last : Sources τ}

theorem gives_parseFrom_iff {result : Except ParseError (α × Stream)} :
    (p.parseFrom s).Gives sources result last ↔
      ∃ outcome, (p s).Gives sources outcome last ∧ result = outcome.toExcept := by
  rw [parseFrom, Run.gives_emit_bind_iff, Run.gives_bind_iff]
  constructor
  · rintro ⟨outcome, middle, hp, hrest⟩
    rw [Run.gives_emit_bind_iff, Run.gives_pure_iff] at hrest
    obtain ⟨rfl, rfl⟩ := hrest
    exact ⟨outcome, hp, rfl⟩
  · rintro ⟨outcome, hp, rfl⟩
    exact ⟨outcome, last, hp, Run.gives_emit_bind_iff.mpr (Run.gives_pure_iff.mpr ⟨rfl, rfl⟩)⟩

/-- **A parse to the end** goes on from what the parser gives. -/
theorem gives_parseToEnd_iff {result : Except ParseError α} :
    (p.parseToEnd s).Gives sources result last ↔
      ∃ first middle whole, (p s).Gives sources first middle ∧
        Ending first middle whole result last := by
  rw [parseToEnd, Run.gives_bind_iff]
  constructor
  · rintro ⟨prefixed, middle, hprefix, hrest⟩
    obtain ⟨first, hp, rfl⟩ := gives_parseFrom_iff.mp hprefix
    cases first with
    | ok value rest =>
        obtain ⟨token, store, hhead, hresult⟩ := Run.gives_bind_iff.mp hrest
        obtain ⟨htoken, rfl⟩ := Run.gives_toRun_iff.mp hhead
        rw [Stream.run_head] at htoken hresult
        cases token with
        | none =>
            obtain ⟨rfl, rfl⟩ := Run.gives_pure_iff.mp hresult
            exact ⟨_, middle, _, hp, .complete htoken.symm⟩
        | some token =>
            obtain ⟨rfl, rfl⟩ := Run.gives_pure_iff.mp hresult
            exact ⟨_, middle, _, hp, .trailing htoken.symm⟩
    | fail failure =>
        obtain ⟨rfl, rfl⟩ := Run.gives_pure_iff.mp hrest
        exact ⟨_, _, _, hp, .failed failure _⟩
    | error failure =>
        obtain ⟨rfl, rfl⟩ := Run.gives_pure_iff.mp hrest
        exact ⟨_, _, _, hp, .aborted failure _⟩
  · rintro ⟨first, middle, whole, hp, hending⟩
    refine ⟨first.toExcept, middle, gives_parseFrom_iff.mpr ⟨first, hp, rfl⟩, ?_⟩
    cases hending with
    | @complete value rest _ hnone =>
        have hhead : rest.head.toRun.Gives middle none (middle.look rest) := by
          rw [Run.gives_toRun_iff, Stream.run_head]
          exact ⟨hnone.symm, rfl⟩
        exact Run.gives_bind_iff.mpr ⟨_, _, hhead, Run.gives_pure_iff.mpr ⟨rfl, rfl⟩⟩
    | @trailing value rest _ token hsome =>
        have hhead : rest.head.toRun.Gives middle (some token) (middle.look rest) := by
          rw [Run.gives_toRun_iff, Stream.run_head]
          exact ⟨hsome.symm, rfl⟩
        exact Run.gives_bind_iff.mpr ⟨_, _, hhead, Run.gives_pure_iff.mpr ⟨rfl, rfl⟩⟩
    | failed failure => exact Run.gives_pure_iff.mpr ⟨rfl, rfl⟩
    | aborted failure => exact Run.gives_pure_iff.mpr ⟨rfl, rfl⟩

end Parser

/-! ### Whole parses of grammars -/

/-- The store in which a **list of tokens** is parsed. -/
abbrev Sources.listed (tokens : List τ) : Sources τ := .single (.buffered tokens .standard)

namespace Grammar

variable {σ : Signature}

/-- What a parse of a grammar **that may leave input over** gives, with some fuel. -/
def ParsesFrom (rules : Rules σ τ) (scope : Scope σ τ) (g : Grammar σ τ α) (s : Stream)
    (sources : Sources τ) (result : Except ParseError (α × Stream)) (last : Sources τ) : Prop :=
  ∃ fuel, ((parser rules fuel scope g).parseFrom s).Gives sources result last

/-- What a parse of a grammar **to the end** gives, with some fuel. -/
def ParsesToEnd (rules : Rules σ τ) (scope : Scope σ τ) (g : Grammar σ τ α) (s : Stream)
    (sources : Sources τ) (result : Except ParseError α) (last : Sources τ) : Prop :=
  ∃ fuel, ((parser rules fuel scope g).parseToEnd s).Gives sources result last

section

variable {rules : Rules σ τ} {scope : Scope σ τ} {g : Grammar σ τ α} {s : Stream}
  {sources middle last : Sources τ} {first whole : Outcome τ α}

theorem parsesFrom_iff {result : Except ParseError (α × Stream)} :
    ParsesFrom rules scope g s sources result last ↔
      ∃ outcome, Yields rules scope g s sources outcome last ∧ result = outcome.toExcept := by
  simp only [ParsesFrom, Parser.gives_parseFrom_iff]
  constructor
  · rintro ⟨fuel, outcome, hg, hresult⟩
    exact ⟨outcome, ⟨fuel, hg⟩, hresult⟩
  · rintro ⟨outcome, ⟨fuel, hg⟩, hresult⟩
    exact ⟨fuel, outcome, hg, hresult⟩

/-- **A parse to the end** goes on from what the grammar yields. -/
theorem parsesToEnd_iff {result : Except ParseError α} :
    ParsesToEnd rules scope g s sources result last ↔
      ∃ first middle whole, Yields rules scope g s sources first middle ∧
        Ending first middle whole result last := by
  simp only [ParsesToEnd, Parser.gives_parseToEnd_iff]
  constructor
  · rintro ⟨fuel, first, middle, whole, hg, hending⟩
    exact ⟨first, middle, whole, ⟨fuel, hg⟩, hending⟩
  · rintro ⟨first, middle, whole, ⟨fuel, hg⟩, hending⟩
    exact ⟨fuel, first, middle, whole, hg, hending⟩

/-- **A grammar followed by the end of input** goes on in the same way. -/
theorem yields_ended_iff :
    Yields rules scope (.keepLeft g .eof) s sources whole last ↔
      ∃ first middle result, Yields rules scope g s sources first middle ∧
        Ending first middle whole result last := by
  rw [yields_keepLeft_iff]
  constructor
  · rintro ⟨first, middle, hg, hrest⟩
    refine ⟨first, middle, ?_⟩
    cases first with
    | ok value rest =>
        obtain ⟨second, heof, rfl⟩ := hrest
        cases htoken : middle.token rest with
        | none =>
            obtain ⟨rfl, rfl⟩ := heof.unique (yields_eof_end htoken)
            exact ⟨_, hg, .complete htoken⟩
        | some token =>
            obtain ⟨rfl, rfl⟩ := heof.unique (yields_eof_token htoken)
            exact ⟨_, hg, .trailing htoken⟩
    | fail failure =>
        obtain ⟨rfl, rfl⟩ := hrest
        exact ⟨_, hg, .failed failure _⟩
    | error failure =>
        obtain ⟨rfl, rfl⟩ := hrest
        exact ⟨_, hg, .aborted failure _⟩
  · rintro ⟨first, middle, result, hg, hending⟩
    refine ⟨first, middle, hg, ?_⟩
    cases hending with
    | complete hnone => exact ⟨_, yields_eof_end hnone, rfl⟩
    | trailing hsome => exact ⟨_, yields_eof_token hsome, rfl⟩
    | failed failure => exact ⟨rfl, rfl⟩
    | aborted failure => exact ⟨rfl, rfl⟩

/-- A parse to the end succeeds where the grammar does and **the input is over** behind it. -/
theorem parsesToEnd_ok_iff {value : α} :
    ParsesToEnd rules scope g s sources (.ok value) last ↔
      ∃ rest middle, Yields rules scope g s sources (.ok value rest) middle ∧
        middle.token rest = none ∧ last = middle.look rest := by
  rw [parsesToEnd_iff]
  constructor
  · rintro ⟨first, middle, whole, hg, hending⟩
    cases hending with
    | complete hnone => exact ⟨_, middle, hg, hnone, rfl⟩
  · rintro ⟨rest, middle, hg, hnone, rfl⟩
    exact ⟨_, middle, _, hg, .complete hnone⟩

/-- **It ends** where the grammar does. -/
theorem exists_parsesToEnd_iff :
    (∃ result last, ParsesToEnd rules scope g s sources result last) ↔
      ∃ outcome last, Yields rules scope g s sources outcome last := by
  constructor
  · rintro ⟨result, last, h⟩
    obtain ⟨first, middle, whole, hyields, -⟩ := parsesToEnd_iff.mp h
    exact ⟨first, middle, hyields⟩
  · rintro ⟨first, middle, h⟩
    obtain ⟨whole, result, last, hending⟩ := Ending.exists_of_outcome first middle
    exact ⟨result, last, parsesToEnd_iff.mpr ⟨first, middle, whole, h, hending⟩⟩

/-- It succeeds where **the grammar followed by the end of input** does. -/
theorem parsesToEnd_ok_iff_ended {value : α} :
    ParsesToEnd rules scope g s sources (.ok value) last ↔
      ∃ rest, Yields rules scope (.keepLeft g .eof) s sources (.ok value rest) last := by
  rw [parsesToEnd_iff]
  simp only [yields_ended_iff]
  constructor
  · rintro ⟨first, middle, whole, h, hending⟩
    cases hending with
    | complete hnone => exact ⟨_, _, middle, _, h, .complete hnone⟩
  · rintro ⟨rest, first, middle, result, h, hending⟩
    cases hending with
    | complete hnone => exact ⟨_, middle, _, h, .complete hnone⟩

/-- Behind the end of input there is no token. -/
theorem token_of_yields_ended {value : α} {rest : Stream}
    (h : Yields rules scope (.keepLeft g .eof) s sources (.ok value rest) last) :
    last.token rest = none := by
  obtain ⟨first, middle, result, -, hending⟩ := yields_ended_iff.mp h
  cases hending with
  | complete hnone => rwa [Sources.token_look]

theorem parsesToEnd_failed_iff {message : String} {found : Option String} {position : Nat} :
    ParsesToEnd rules scope g s sources (.error (.failed message found position)) last ↔
      ∃ failure, Yields rules scope g s sources (.fail failure) last ∧
        failure.message = message ∧ failure.foundText = found ∧ failure.position = position := by
  rw [parsesToEnd_iff]
  constructor
  · rintro ⟨first, middle, whole, h, hending⟩
    cases hending with
    | failed failure => exact ⟨failure, h, rfl, rfl, rfl⟩
  · rintro ⟨failure, h, rfl, rfl, rfl⟩
    exact ⟨_, last, _, h, .failed failure last⟩

theorem parsesToEnd_fatal_iff {message : String} {found : Option String} {position : Nat} :
    ParsesToEnd rules scope g s sources (.error (.fatal message found position)) last ↔
      ∃ failure, Yields rules scope g s sources (.error failure) last ∧
        failure.message = message ∧ failure.foundText = found ∧ failure.position = position := by
  rw [parsesToEnd_iff]
  constructor
  · rintro ⟨first, middle, whole, h, hending⟩
    cases hending with
    | aborted failure => exact ⟨failure, h, rfl, rfl, rfl⟩
  · rintro ⟨failure, h, rfl, rfl, rfl⟩
    exact ⟨_, last, _, h, .aborted failure last⟩

/-- A parse error is fatal where the grammar is aborted. -/
theorem ParsesToEnd.isFatal_iff {error : ParseError}
    (h : ParsesToEnd rules scope g s sources (.error error) last) :
    error.isFatal = true ↔ ∃ failure, Yields rules scope g s sources (.error failure) last := by
  obtain ⟨first, middle, whole, hyields, hending⟩ := parsesToEnd_iff.mp h
  constructor
  · intro hfatal
    cases hending with
    | trailing => cases hfatal
    | failed => cases hfatal
    | aborted failure => exact ⟨failure, hyields⟩
  · rintro ⟨failure, herror⟩
    obtain ⟨rfl, -⟩ := hyields.unique herror
    cases hending with
    | aborted => rfl

/-- **Input is left over** where the grammar succeeds and then the end of input fails. -/
theorem Yields.trailing {value : α} {rest : Stream} {failure : Failure τ}
    (h : Yields rules scope g s sources (.ok value rest) middle)
    (hfail : Yields rules scope (.keepLeft g .eof) s sources (.fail failure) last) :
    ∃ found, failure.foundText = some found ∧ failure.position = rest.position ∧
      ParsesToEnd rules scope g s sources
        (.error (.trailingInput found failure.position)) last := by
  obtain ⟨first, middle', result, h', hending⟩ := yields_ended_iff.mp hfail
  obtain ⟨rfl, rfl⟩ := h.unique h'
  cases hending with
  | trailing hsome => exact ⟨_, rfl, rfl, parsesToEnd_iff.mpr ⟨_, middle, _, h, .trailing hsome⟩⟩

/-- And nowhere else. -/
theorem ParsesToEnd.of_trailing {found : String} {position : Nat}
    (h : ParsesToEnd rules scope g s sources (.error (.trailingInput found position)) last) :
    ∃ value rest middle failure, Yields rules scope g s sources (.ok value rest) middle ∧
      Yields rules scope (.keepLeft g .eof) s sources (.fail failure) last ∧
      failure.foundText = some found ∧ failure.position = position ∧ rest.position = position := by
  obtain ⟨first, middle, whole, hyields, hending⟩ := parsesToEnd_iff.mp h
  cases hending with
  | trailing hsome =>
      have hwhole := yields_ended_iff.mpr ⟨_, _, _, hyields, .trailing hsome⟩
      exact ⟨_, _, middle, _, hyields, hwhole, rfl, rfl, rfl⟩

/-- What a parse of **all of a list of tokens** gives, with some fuel. -/
def Parses (rules : Rules σ τ) (scope : Scope σ τ) (g : Grammar σ τ α) (tokens : List τ)
    (result : Except ParseError α) : Prop :=
  ∃ fuel step, (parser rules fuel scope g).parse tokens = some step ∧ step.value = result

/-- What a parse of **the first part of a list of tokens** gives, with some fuel. -/
def ParsesLeading (rules : Rules σ τ) (scope : Scope σ τ) (g : Grammar σ τ α) (tokens : List τ)
    (result : Except ParseError (α × Stream)) : Prop :=
  ∃ fuel step, (parser rules fuel scope g).parseLeading tokens = some step ∧ step.value = result

theorem parses_iff {tokens : List τ} {result : Except ParseError α} :
    Parses rules scope g tokens result ↔
      ∃ last, ParsesToEnd rules scope g .start (.listed tokens) result last := by
  constructor
  · rintro ⟨fuel, step, hstep, rfl⟩
    exact ⟨step.sources, fuel, step.events, hstep⟩
  · rintro ⟨last, fuel, events, hrun⟩
    exact ⟨fuel, _, hrun, rfl⟩

theorem parsesLeading_iff {tokens : List τ} {result : Except ParseError (α × Stream)} :
    ParsesLeading rules scope g tokens result ↔
      ∃ outcome last, Yields rules scope g .start (.listed tokens) outcome last ∧
        result = outcome.toExcept := by
  constructor
  · rintro ⟨fuel, step, hstep, rfl⟩
    obtain ⟨outcome, hg, hresult⟩ := parsesFrom_iff.mp ⟨fuel, step.events, hstep⟩
    exact ⟨outcome, step.sources, hg, hresult⟩
  · rintro ⟨outcome, last, hg, hresult⟩
    obtain ⟨fuel, events, hrun⟩ := parsesFrom_iff.mpr ⟨outcome, hg, hresult⟩
    exact ⟨fuel, _, hrun, rfl⟩

/-- A parse of the first part gives **a value where the grammar does**. -/
theorem parsesLeading_ok_iff {tokens : List τ} {value : α} {rest : Stream} :
    ParsesLeading rules scope g tokens (.ok (value, rest)) ↔
      ∃ last, Yields rules scope g .start (.listed tokens) (.ok value rest) last := by
  rw [parsesLeading_iff]
  constructor
  · rintro ⟨outcome, last, h, hresult⟩
    cases outcome with
    | ok value' rest' =>
        obtain ⟨rfl, rfl⟩ := Prod.mk.inj (Except.ok.inj hresult)
        exact ⟨last, h⟩
    | fail failure => cases hresult
    | error failure => cases hresult
  · rintro ⟨last, h⟩
    exact ⟨_, last, h, rfl⟩

/-- A parse of the first part that gives no value gives **the error of a parse to the end**. -/
theorem parsesLeading_error_iff {tokens : List τ} {error : ParseError} :
    ParsesLeading rules scope g tokens (.error error) ↔
      Parses rules scope g tokens (.error error) ∧
        ∀ value rest last,
          ¬ Yields rules scope g .start (.listed tokens) (.ok value rest) last := by
  rw [parsesLeading_iff, parses_iff]
  constructor
  · rintro ⟨outcome, last, hg, herror⟩
    have hother : ∀ value rest last',
        Yields rules scope g .start (.listed tokens) (.ok value rest) last' →
          outcome = .ok value rest := fun _ _ _ hok => (hg.unique hok).1
    cases outcome with
    | ok value rest => cases herror
    | fail failure =>
        obtain rfl := Except.error.inj herror
        refine ⟨⟨last, parsesToEnd_iff.mpr ⟨_, last, _, hg, .failed failure last⟩⟩, ?_⟩
        intro value rest last' hok
        cases hother value rest last' hok
    | error failure =>
        obtain rfl := Except.error.inj herror
        refine ⟨⟨last, parsesToEnd_iff.mpr ⟨_, last, _, hg, .aborted failure last⟩⟩, ?_⟩
        intro value rest last' hok
        cases hother value rest last' hok
  · rintro ⟨⟨last, hparse⟩, hnone⟩
    obtain ⟨first, middle, whole, hg, hending⟩ := parsesToEnd_iff.mp hparse
    cases hending with
    | trailing => exact absurd hg (hnone _ _ _)
    | failed failure => exact ⟨_, _, hg, rfl⟩
    | aborted failure => exact ⟨_, _, hg, rfl⟩

end

/-! ### Parses over other sources -/

section

variable {rules : Rules σ τ} {scope : Scope σ τ} {g : Grammar σ τ α} (hrules : rules.Plain)
  (hscope : scope.Plain) (hg : g.Plain) {s : Stream} {sources other last : Sources τ}

include hrules hscope hg

/-- What a plain grammar yields, it yields **over every source that is alike**. -/
theorem Plain.yields_relocate {outcome : Outcome τ α} {id : Nat}
    (halike : Sources.AlikeAt s.source id sources other)
    (h : Yields rules scope g s sources outcome last) :
    ∃ last', Yields rules scope g (s.relocate id) other (outcome.relocate id) last' ∧
      Sources.AlikeAt s.source id last last' ∧
      outcome.Within fun rest => rest.source = s.source := by
  obtain ⟨fuel, events, hrun⟩ := h
  have hcomposed := hg.composed hrules fuel hscope
  have hmirror := hcomposed.mirror halike
  rw [hrun] at hmirror
  generalize hsecond : (parser rules fuel scope g (s.relocate id)).run other = second at hmirror
  cases hmirror with
  | ended value first second events events' =>
      have hcourse := hcomposed.course hrun
      refine ⟨second, ⟨fuel, events', hsecond⟩,
        halike.course hcourse (hcomposed.course hsecond), ?_⟩
      cases outcome with
      | ok value rest => exact hcourse.source_rest rfl
      | fail failure => trivial
      | error failure => trivial

/-- So **a parse to the end** gives the same result over every source that is alike. -/
theorem Plain.parsesToEnd_relocate {result : Except ParseError α} {id : Nat}
    (halike : Sources.AlikeAt s.source id sources other)
    (h : ParsesToEnd rules scope g s sources result last) :
    ∃ last', ParsesToEnd rules scope g (s.relocate id) other result last' := by
  obtain ⟨first, middle, whole, hyields, hending⟩ := parsesToEnd_iff.mp h
  obtain ⟨middle', hyields', hmiddle, hwithin⟩ :=
    hg.yields_relocate hrules hscope halike hyields
  have htoken : ∀ rest : Stream, rest.source = s.source →
      middle'.token (rest.relocate id) = middle.token rest := by
    intro rest hrest
    have hsame := hmiddle.token rest.position
    rw [← hrest] at hsame
    exact hsame.symm
  cases hending with
  | complete hnone =>
      have hover := (htoken _ hwithin).trans hnone
      exact ⟨_, parsesToEnd_iff.mpr ⟨_, middle', _, hyields', .complete hover⟩⟩
  | trailing hsome =>
      exact ⟨_, parsesToEnd_iff.mpr
        ⟨_, middle', _, hyields', .trailing ((htoken _ hwithin).trans hsome)⟩⟩
  | failed failure => exact ⟨_, parsesToEnd_iff.mpr ⟨_, middle', _, hyields', .failed failure _⟩⟩
  | aborted failure => exact ⟨_, parsesToEnd_iff.mpr ⟨_, middle', _, hyields', .aborted failure _⟩⟩

/-- A parse of all of a list of tokens is a parse to the end of **a new stream** over them, opened
in any store. -/
theorem Plain.parses_iff_opened {tokens : List τ} {result : Except ParseError α}
    (others : Sources τ) :
    Parses rules scope g tokens result ↔
      ∃ last, ParsesToEnd rules scope g ⟨others.next, 0⟩
        (others.add (.buffered tokens .standard)) result last := by
  have halike : Sources.AlikeAt 0 others.next (.listed tokens)
      (others.add (.buffered tokens .standard)) := by
    refine ⟨Nat.one_pos, others.next_lt_next_add _, ?_⟩
    rw [Sources.get_add_next]
    exact .refl _
  rw [parses_iff]
  constructor
  · rintro ⟨last, hparse⟩
    exact hg.parsesToEnd_relocate hrules hscope halike hparse
  · rintro ⟨last, hparse⟩
    exact hg.parsesToEnd_relocate hrules hscope halike.symm hparse

/-! ### Lazy sources -/

/-- **A parse to the end that succeeds has asked for everything** that a lazy source has to give,
whatever was asked for before: the last request is the one that was answered `none`. -/
theorem Plain.drained {supply : Nat → Option τ} {n : Nat} {value : α}
    (hs : s.source < sources.next) (hanswered : (sources.get s.source).Answered supply n)
    (hreach : sources.Reaches s)
    (h : ParsesToEnd rules scope g s sources (.ok value) last) :
    ∃ m, supply m = none ∧ (∀ i < m, supply i ≠ none) ∧
      (last.get s.source).Answered supply (m + 1) ∧
      (last.get s.source).tape.released = true := by
  obtain ⟨rest, middle, ⟨fuel, events, hrun⟩, hnone, rfl⟩ := parsesToEnd_ok_iff.mp h
  have hcourse := (hg.composed hrules fuel hscope).course hrun
  have hstart : sources.Leads ⟨s.source, 0⟩ s := ⟨rfl, Sources.reaches_iff.mp hreach⟩
  -- Tokens of the source are answers of the supply, as far as they lead.
  have hsupply : ∀ {place : Stream}, sources.Leads ⟨s.source, 0⟩ place →
      ∀ j < place.position, supply j ≠ none := fun hplace =>
    hanswered.supply_ne_none fun j hj => hplace.spans.tokens j (Nat.zero_le j) hj
  have hrest := hstart.trans (hcourse.leads_rest rfl)
  have hend : supply rest.position = none := by
    have htoken : middle.token rest = (sources.get s.source).token rest.position := by
      rw [hcourse.token_stream, Sources.token, hrest.source_eq]
    rw [← hanswered.token_eq (hsupply hrest), ← htoken, hnone]
  have hinspects : Inspects (sources.Leads ⟨s.source, 0⟩) (events ++ [.inspected rest]) := by
    refine inspects_append.mpr ⟨hcourse.inspected.mono fun place hplace => hstart.trans hplace, ?_⟩
    exact inspects_cons.mpr ⟨fun place hplace => Event.inspected.inj hplace ▸ hrest, inspects_nil⟩
  obtain ⟨memo, htape, hmemo⟩ := Sources.answered_replay hs hanswered
    (hinspects.mono fun place hplace => ⟨hplace.source_eq, hsupply hplace⟩)
  have hlast : sources.replay (events ++ [.inspected rest]) = middle.look rest := by
    rw [Sources.replay_append, ← hcourse.sources_eq_replay]
    rfl
  rw [hlast] at htape
  -- The last look was behind the last token, and nothing is asked for after a `none`.
  have hlow : rest.position < Event.extent (events ++ [.inspected rest]) :=
    Event.extent_le_iff.mp (Nat.le_refl _) rest (by simp)
  have hhigh : ¬ rest.position + 1 < max n (Event.extent (events ++ [.inspected rest])) :=
    fun hlt => hmemo.none_last rest.position hlt hend
  have hcount : max n (Event.extent (events ++ [.inspected rest])) = rest.position + 1 := by omega
  rw [hcount] at hmemo
  refine ⟨rest.position, hend, hsupply hrest, ⟨memo, htape, hmemo⟩, ?_⟩
  rw [htape]
  exact hmemo.released_iff.mpr ⟨rest.position, Nat.lt_succ_self _, hend⟩

end

/-! ### The laws -/

/-- How the ways to use a grammar from outside **agree with its runs**, and with the runs of the
grammar followed by the end of input. -/
structure EntryLaws (rules : Rules σ τ) (scope : Scope σ τ) (g : Grammar σ τ α) : Prop where
  /-- Neither way to use the grammar gives less than the other. -/
  ends_iff : ∀ {s sources}, (∃ result last, ParsesToEnd rules scope g s sources result last) ↔
    ∃ outcome last, Yields rules scope g s sources outcome last
  /-- A parse to the end succeeds where the grammar followed by the end of input does. -/
  ok_iff : ∀ {s sources value last}, ParsesToEnd rules scope g s sources (.ok value) last ↔
    ∃ rest, Yields rules scope (.keepLeft g .eof) s sources (.ok value rest) last
  /-- And there the input is over. -/
  complete : ∀ {s sources value rest last},
    Yields rules scope (.keepLeft g .eof) s sources (.ok value rest) last → last.token rest = none
  /-- It fails where the grammar does. -/
  failed_iff : ∀ {s sources message found position last},
    ParsesToEnd rules scope g s sources (.error (.failed message found position)) last ↔
      ∃ failure, Yields rules scope g s sources (.fail failure) last ∧
        failure.message = message ∧ failure.foundText = found ∧ failure.position = position
  /-- So does the grammar followed by the end of input. -/
  fail : ∀ {s sources failure last}, Yields rules scope g s sources (.fail failure) last →
    Yields rules scope (.keepLeft g .eof) s sources (.fail failure) last
  /-- It is aborted where the grammar is. -/
  fatal_iff : ∀ {s sources message found position last},
    ParsesToEnd rules scope g s sources (.error (.fatal message found position)) last ↔
      ∃ failure, Yields rules scope g s sources (.error failure) last ∧
        failure.message = message ∧ failure.foundText = found ∧ failure.position = position
  /-- And nowhere else is the parse error a fatal one. -/
  isFatal_iff : ∀ {s sources error last}, ParsesToEnd rules scope g s sources (.error error) last →
    (error.isFatal = true ↔ ∃ failure, Yields rules scope g s sources (.error failure) last)
  /-- So is the grammar followed by the end of input. -/
  error : ∀ {s sources failure last}, Yields rules scope g s sources (.error failure) last →
    Yields rules scope (.keepLeft g .eof) s sources (.error failure) last
  /-- It leaves input over where the grammar succeeds and then the end of input fails. -/
  trailing : ∀ {s sources value rest middle failure last},
    Yields rules scope g s sources (.ok value rest) middle →
    Yields rules scope (.keepLeft g .eof) s sources (.fail failure) last →
    ∃ found, failure.foundText = some found ∧ failure.position = rest.position ∧
      ParsesToEnd rules scope g s sources (.error (.trailingInput found failure.position)) last
  /-- And nowhere else. -/
  of_trailing : ∀ {s sources found position last},
    ParsesToEnd rules scope g s sources (.error (.trailingInput found position)) last →
    ∃ value rest middle failure, Yields rules scope g s sources (.ok value rest) middle ∧
      Yields rules scope (.keepLeft g .eof) s sources (.fail failure) last ∧
      failure.foundText = some found ∧ failure.position = position ∧ rest.position = position
  /-- All of a list of tokens is parsed as a new stream over them is, in any store. -/
  parses_iff : ∀ {tokens result} (others : Sources τ), Parses rules scope g tokens result ↔
    ∃ last, ParsesToEnd rules scope g ⟨others.next, 0⟩
      (others.add (.buffered tokens .standard)) result last
  /-- The first part of a list of tokens is parsed where the grammar succeeds. -/
  leading_ok_iff : ∀ {tokens value rest},
    ParsesLeading rules scope g tokens (.ok (value, rest)) ↔
      ∃ last, Yields rules scope g .start (.listed tokens) (.ok value rest) last
  /-- And where it does not, the error is that of a parse of all tokens. -/
  leading_error_iff : ∀ {tokens error}, ParsesLeading rules scope g tokens (.error error) ↔
    Parses rules scope g tokens (.error error) ∧
      ∀ value rest last, ¬ Yields rules scope g .start (.listed tokens) (.ok value rest) last
  /-- A success over a lazy source has asked for every token and let go of the supply. -/
  drained : ∀ {s sources supply n value last}, s.source < sources.next →
    (sources.get s.source).Answered supply n → sources.Reaches s →
    ParsesToEnd rules scope g s sources (.ok value) last →
    ∃ m, supply m = none ∧ (∀ i < m, supply i ≠ none) ∧
      (last.get s.source).Answered supply (m + 1) ∧ (last.get s.source).tape.released = true

/-- **The ways to use a grammar from outside agree with its runs**, for all plain grammars. -/
theorem entry_laws {rules : Rules σ τ} (hrules : rules.Plain) {scope : Scope σ τ}
    (hscope : scope.Plain) {g : Grammar σ τ α} (hg : g.Plain) : EntryLaws rules scope g where
  ends_iff := exists_parsesToEnd_iff
  ok_iff := parsesToEnd_ok_iff_ended
  complete := token_of_yields_ended
  failed_iff := parsesToEnd_failed_iff
  fail := fun h => yields_ended_iff.mpr ⟨_, _, _, h, .failed _ _⟩
  fatal_iff := parsesToEnd_fatal_iff
  isFatal_iff := ParsesToEnd.isFatal_iff
  error := fun h => yields_ended_iff.mpr ⟨_, _, _, h, .aborted _ _⟩
  trailing := Yields.trailing
  of_trailing := ParsesToEnd.of_trailing
  parses_iff := hg.parses_iff_opened hrules hscope
  leading_ok_iff := parsesLeading_ok_iff
  leading_error_iff := parsesLeading_error_iff
  drained := hg.drained hrules hscope

end Grammar

/-- A pair of brackets is parsed to the end of a lazy source whose supply would go on: three
requests were made, and the supply has been let go. -/
theorem Brackets.entry_laws_pair : ∃ last,
    Grammar.ParsesToEnd rules .empty grammar .start (.single (.lazy supply .standard)) (.ok 1)
      last ∧
    (last.get 0).Answered supply 3 ∧ (last.get 0).tape.released = true := by
  have laws := Grammar.entry_laws plain_rules plain_scope plain_grammar
  let sources : Sources Bool := .single (.lazy supply .standard)
  have hs : Stream.start.source < sources.next := by decide
  have hnew : (sources.get Stream.start.source).Answered supply 0 :=
    Source.answered_lazy supply .standard
  have hrun : ((Grammar.parser rules 5 .empty (grammar.keepLeft .eof) .start).run sources).map
      Step.value = some (.ok 1 ⟨0, 2⟩) := by decide +kernel
  obtain ⟨⟨value, last, events⟩, hstep, rfl⟩ := Option.map_eq_some_iff.mp hrun
  have hparse := laws.ok_iff.mpr ⟨_, 5, events, hstep⟩
  obtain ⟨m, hend, hbefore, hanswered, hreleased⟩ := laws.drained hs hnew ⟨0, rfl⟩ hparse
  -- The first `none` of the supply is its answer to the third request.
  obtain rfl : m = 2 := by
    have hle : m ≤ 2 := Nat.not_lt.mp fun hlt => hbefore 2 hlt rfl
    match m, hend, hle with
    | 2, _, _ => rfl
  exact ⟨last, hparse, hanswered, hreleased⟩

end Backtrack
