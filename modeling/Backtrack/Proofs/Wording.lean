import Backtrack.Proofs.Rerun

/-!
# What Failures Say

A failure tells what was expected and what was found instead. The text is put together in three
places, where a token is wanted, where the end of input is, and where a label renames a failure,
and each of them decides on its own whether the input is over. Afterwards choices, repetitions
and commitments pass the text on, together with a token and a position. The three always agree:
a text that speaks of the end of input comes with no token and the number of tokens as the
position, and a text that quotes a token comes with this token, which stands at the position.

Apart from that a failure can only say what a `fail` node says, and an error also what the
library has to say of limits, of stalls and of rules without a body. So the texts are followed
through a grammar relative to the texts of its `fail` nodes, and a grammar without such nodes
is the case of no texts at all. A label leaves nothing of the text that was there before.

## Main definitions

* `Failure.Tells`: a failure that tells the truth about what was found in a source.
* `Message.Own`: what else the library says under given settings.
* `Grammar.Speaks`, `Grammar.FailFree`: the texts of the `fail` nodes of a grammar, and grammars
  without `fail` nodes.
* `Parser.Worded`: a parser that says nothing else.

## Main results

* `Source.exists_hasTokens`: a source that ends somewhere has finitely many tokens.
* `Grammar.Plain.worded`: what plain grammars say.
* `Course.tells`: a failure with a text that fits the token found tells the truth.
* `Grammar.failure_texts`: so do all failures of plain grammars without `fail` nodes, and those
  of all labels.
-/

namespace Backtrack

variable {σ : Signature} {τ α β : Type}

/-! ### Sources that end -/

/-- A source **without a token somewhere** has finitely many tokens: a lazy source has been told
so when it was asked for that one, and asks for no more. -/
theorem Source.exists_hasTokens {source : Source τ} {n : Nat} (hend : source.token n = none) :
    ∃ tokens, source.HasTokens tokens := by
  obtain ⟨tape, config, depth⟩ := source
  cases tape with
  | buffered tokens => exact ⟨tokens.toList, fun i => (Array.getElem?_toList).symm⟩
  | lazy memo =>
      have hsize : (memo.fill n).buffer.size ≤ n := Array.getElem?_eq_none_iff.mp hend
      have hreleased : (memo.fill n).released = true := by
        rcases memo.size_repeat_pull (n + 1 - memo.buffer.size) with hreleased | hfilled
        · exact hreleased
        · rw [← Memo.fill] at hfilled
          omega
      refine ⟨(memo.fill n).buffer.toList, fun i => ?_⟩
      calc memo.token i
        _ = (memo.fill n).token i := (memo.token_repeat_pull _ i).symm
        _ = (memo.fill n).buffer[i]? := Memo.token_of_released hreleased i
        _ = (memo.fill n).buffer.toList[i]? := Array.getElem?_toList.symm

/-- The first position without a token is **the number of tokens**. -/
theorem Source.HasTokens.length_eq {source : Source τ} {tokens : List τ}
    (h : source.HasTokens tokens) {n : Nat} (hbefore : ∀ i < n, source.token i ≠ none)
    (hend : source.token n = none) : tokens.length = n := by
  rw [h n] at hend
  have hle : tokens.length ≤ n := List.getElem?_eq_none_iff.mp hend
  refine Nat.le_antisymm hle (Nat.le_of_not_lt fun hlt => hbefore _ hlt ?_)
  rw [h, List.getElem?_eq_none (Nat.le_refl _)]

/-! ### Failures that tell the truth -/

section

variable [Quote τ]

/-- A failure that **tells the truth** about the tokens of a source, where something else was
expected. -/
inductive Failure.Tells (source : Source τ) (expected : String) : Failure τ → Prop where
  /-- All tokens lie before the position. -/
  | ended {tokens : List τ} (htokens : source.HasTokens tokens) :
      Tells source expected
        ⟨"unexpected end of input; expected " ++ expected, none, tokens.length⟩
  /-- The token found stands at the position. -/
  | found {token : τ} {position : Nat} (htoken : source.token position = some token) :
      Tells source expected
        ⟨"expected " ++ expected ++ ", got " ++ quote token, some token, position⟩

/-- A failure behind tokens only, whose text fits the token found there, tells the truth. -/
theorem Failure.tells_of_message_eq {source : Source τ} {expected : String} {failure : Failure τ}
    (hmessage : failure.message = Message.wanted expected failure.found)
    (hfound : failure.found = source.token failure.position)
    (hbefore : ∀ i < failure.position, source.token i ≠ none) :
    failure.Tells source expected := by
  obtain ⟨message, found, position⟩ := failure
  obtain rfl : message = Message.wanted expected found := hmessage
  cases found with
  | none =>
      obtain ⟨tokens, htokens⟩ := Source.exists_hasTokens hfound.symm
      obtain rfl := htokens.length_eq hbefore hfound.symm
      exact .ended htokens
  | some token => exact .found hfound.symm

/-- **A parse tells the truth** when the text of its failure fits the token found. -/
theorem Course.tells {s : Stream} {sources : Sources τ} {step : Step τ (Outcome τ α)}
    (h : Course s sources step) (hreach : sources.Reaches s) {failure : Failure τ}
    (hfailure : step.value = .fail failure ∨ step.value = .error failure) {expected : String}
    (hmessage : failure.message = Message.wanted expected failure.found) :
    failure.Tells (sources.get s.source) expected := by
  obtain ⟨hcarried, hposition⟩ :
      step.value.failure? = some failure ∧ step.value.position = failure.position := by
    rcases hfailure with hfail | herror
    · rw [hfail]
      exact ⟨rfl, rfl⟩
    · rw [herror]
      exact ⟨rfl, rfl⟩
  have hspans : sources.Spans ⟨s.source, 0⟩ step.value.position :=
    (Sources.reaches_iff.mp hreach).trans rfl h.located.spans
  rw [hposition] at hspans
  exact Failure.tells_of_message_eq hmessage (h.located.found_eq failure hcarried)
    fun i hi => hspans.tokens i (Nat.zero_le i) hi

end

/-! ### Other texts -/

/-- **What the library says** of limits, of stalls and of rules without a body, under settings
that let it come to that. -/
inductive Message.Own (config : Config) : String → Prop where
  | recursionLimit {limit : Nat} (h : config.maxDepth = some limit) :
      Own config (Message.recursionLimit limit)
  | noProgress (h : config.repetition = .error) : Own config Message.noProgress
  | undefinedRule : Own config Message.undefinedRule
  | droppedRule : Own config Message.droppedRule

/-- Failures in the given texts only. -/
def Discipline.speaks (σ : Signature) (texts : String → Prop) : Discipline σ Unit where
  fail := texts

/-- A grammar whose `fail` nodes **speak** in the given texts only. -/
def Grammar.Speaks (texts : String → Prop) (g : Grammar σ τ α) : Prop :=
  g.Obeys (.speaks σ texts) ()

/-- A table of rules that speak in the given texts only. -/
def Rules.Speaks (texts : String → Prop) (rules : Rules σ τ) : Prop :=
  rules.Obey (.speaks σ texts) fun _ => ()

/-- A scope of rules that speak in the given texts only. -/
def Scope.Speaks (texts : String → Prop) (scope : Scope σ τ) : Prop :=
  scope.Obey (.speaks σ texts)

theorem Scope.Speaks.find? {texts : String → Prop} {scope : Scope σ τ} (h : scope.Speaks texts)
    {name : σ.Name} {rule : Binding σ τ name} (hrule : scope.find? name = some rule) :
    rule.home.Speaks texts ∧ rule.body.Speaks texts :=
  Obey.find? h hrule

/-- A grammar **without `fail` nodes**, continuations and rules of its own included. -/
def Grammar.FailFree (g : Grammar σ τ α) : Prop := g.Speaks fun _ => False

/-- A table of rules without `fail` nodes. -/
def Rules.FailFree (rules : Rules σ τ) : Prop := rules.Speaks fun _ => False

/-- A scope of rules without `fail` nodes. -/
def Scope.FailFree (scope : Scope σ τ) : Prop := scope.Speaks fun _ => False

/-! ### Parsers that say nothing else -/

variable [Quote τ]

/-- A failure that says one of the texts, or **what fits the token found**. -/
def Failure.Worded (texts : String → Prop) (failure : Failure τ) : Prop :=
  texts failure.message ∨ ∃ expected, failure.message = Message.wanted expected failure.found

/-- An outcome whose failure does, or whose error says what the library says. -/
def Outcome.Worded (texts : String → Prop) (config : Config) : Outcome τ α → Prop
  | .ok _ _ => True
  | .fail failure => failure.Worded texts
  | .error failure => failure.Worded texts ∨ Message.Own config failure.message

/-- A composed parser that **says nothing else**. -/
structure Parser.Worded (texts : String → Prop) (p : Parser τ α) : Prop where
  composed : Composed p
  worded : ∀ {s sources step}, (p s).run sources = some step →
    step.value.Worded texts (sources.get s.source).config

namespace Parser.Worded

variable {texts : String → Prop} {p : Parser τ α} {q : Parser τ β}

/-- What says nothing else says nothing else behind a success. -/
theorem behind (hq : Worded texts q) {s rest : Stream} {sources middle : Sources τ} {a : α}
    {events : List (Event τ)} (hcourse : Course s sources ⟨.ok a rest, middle, events⟩)
    {last : Step τ (Outcome τ β)} (hlast : (q rest).run middle = some last) :
    last.value.Worded texts (sources.get s.source).config := by
  have hworded := hq.worded hlast
  rw [hcourse.source_rest rfl, hcourse.config_eq] at hworded
  exact hworded

/-- And where it began, after another parse from there. -/
theorem again (hq : Worded texts q) {s : Stream} {sources : Sources τ}
    {first : Step τ (Outcome τ α)} (hcourse : Course s sources first)
    {last : Step τ (Outcome τ β)} (hlast : (q s).run first.sources = some last) :
    last.value.Worded texts (sources.get s.source).config := by
  have hworded := hq.worded hlast
  rw [hcourse.config_eq] at hworded
  exact hworded

theorem exhausted : Worded texts fun _ => (Run.exhausted : Run τ (Outcome τ α)) :=
  ⟨.exhausted, fun h => by cases h⟩

theorem succeed (value : α) : Worded texts (Parser.succeed value : Parser τ α) := by
  refine ⟨.succeed value, fun h => ?_⟩
  obtain rfl := Option.some.inj h
  trivial

theorem fail {message : String} (h : texts message) :
    Worded texts (Parser.fail message : Parser τ α) := by
  refine ⟨.fail message, fun hrun => ?_⟩
  rw [run_fail] at hrun
  obtain rfl := Option.some.inj hrun
  exact .inl h

theorem satisfy (expected : String) (test : Test τ) :
    Worded texts (Parser.satisfy expected test) := by
  refine ⟨.satisfy expected test, fun {s sources step} h => ?_⟩
  rw [run_satisfy] at h
  obtain rfl := Option.some.inj h
  cases sources.token s with
  | none => exact .inr ⟨expected, rfl⟩
  | some token =>
      by_cases haccepts : test.accepts token = true
      · simp only [haccepts, if_true]
        trivial
      · simp only [haccepts]
        exact .inr ⟨expected, rfl⟩

theorem eof : Worded texts (Parser.eof : Parser τ Unit) := by
  refine ⟨.eof, fun {s sources step} h => ?_⟩
  rw [run_eof] at h
  obtain rfl := Option.some.inj h
  cases sources.token s with
  | none => trivial
  | some token => exact .inr ⟨Message.endOfInput, rfl⟩

theorem unusable (phase : Phase) {message : String} (h : ∀ config, Message.Own config message) :
    Worded texts (Parser.unusable phase message : Parser τ α) := by
  refine ⟨.unusable phase message, fun hrun => ?_⟩
  rw [run_unusable] at hrun
  obtain rfl := Option.some.inj hrun
  exact .inr (h _)

theorem calling (callee : Callee) (hp : Worded texts p) :
    Worded texts (Parser.calling callee p) := by
  refine ⟨.calling callee hp.composed, fun h => ?_⟩
  rw [run_calling] at h
  obtain ⟨inner, hinner, rfl⟩ := Option.map_eq_some_iff.mp h
  exact (hp.worded hinner :)

theorem sequel (hp : Worded texts p) {next : α → Parser τ β}
    (hnext : ∀ a, Worded texts (next a)) : Worded texts (Parser.sequel p next) := by
  refine ⟨.sequel hp.composed fun a => (hnext a).composed, fun h => ?_⟩
  rw [run_sequel] at h
  obtain ⟨⟨value, middle, events⟩, hfirst, hrest⟩ := Option.bind_eq_some_iff.mp h
  cases value with
  | ok value rest =>
      obtain ⟨last, hlast, rfl⟩ := Option.map_eq_some_iff.mp hrest
      exact ((hnext value).behind (hp.composed.course hfirst) hlast :)
  | fail failure =>
      obtain rfl := Option.some.inj hrest
      exact hp.worded hfirst
  | error failure =>
      obtain rfl := Option.some.inj hrest
      exact hp.worded hfirst

theorem orElse {q : Parser τ α} (hp : Worded texts p) (hq : Worded texts q) :
    Worded texts (Parser.orElse p q) := by
  refine ⟨.orElse hp.composed hq.composed, fun h => ?_⟩
  rw [run_orElse] at h
  obtain ⟨⟨value, middle, events⟩, hfirst, hrest⟩ := Option.bind_eq_some_iff.mp h
  cases value with
  | ok value rest =>
      obtain rfl := Option.some.inj hrest
      exact hp.worded hfirst
  | fail failure =>
      obtain ⟨last, hlast, rfl⟩ := Option.map_eq_some_iff.mp hrest
      exact (hq.again (hp.composed.course hfirst) hlast :)
  | error failure =>
      obtain rfl := Option.some.inj hrest
      exact hp.worded hfirst

/-- **A renamed failure** fits the token found, whatever it said before. -/
theorem label (name : String) (hp : Worded texts p) : Worded texts (Parser.label name p) := by
  refine ⟨.label name hp.composed, fun h => ?_⟩
  rw [run_label] at h
  obtain ⟨⟨value, last, events⟩, hinner, rfl⟩ := Option.map_eq_some_iff.mp h
  cases value with
  | ok value rest => trivial
  | fail failure => exact .inr ⟨name, rfl⟩
  | error failure => exact hp.worded hinner

/-- A failure made fatal says what it said. -/
theorem commit (hp : Worded texts p) : Worded texts (Parser.commit p) := by
  refine ⟨.commit hp.composed, fun h => ?_⟩
  rw [run_commit] at h
  obtain ⟨⟨value, last, events⟩, hinner, rfl⟩ := Option.map_eq_some_iff.mp h
  cases value with
  | ok value rest => trivial
  | fail failure => exact .inl (hp.worded hinner)
  | error failure => exact hp.worded hinner

theorem nested (hp : Worded texts p) : Worded texts (Parser.nested p) := by
  refine ⟨.nested hp.composed, fun {s sources step} h => ?_⟩
  rw [run_nested] at h
  cases hroom : (sources.get s.source).config.admits (sources.get s.source).depth with
  | error limit =>
      rw [hroom] at h
      obtain rfl := Option.some.inj h
      exact .inr (.recursionLimit (Config.admits_eq_error_iff.mp hroom).1)
  | ok _ =>
      rw [hroom] at h
      obtain ⟨inner, hinner, rfl⟩ := Option.map_eq_some_iff.mp h
      have hconfig : ((sources.modify s.source .enter).get s.source).config =
          (sources.get s.source).config := sources.config_effect (.descended s 0) s.source
      have hworded := hp.worded hinner
      rw [hconfig] at hworded
      exact hworded

theorem attempt (items : List α) (hp : Worded texts p) {next : α → Parser τ (List α)}
    (hnext : ∀ a, Worded texts (next a)) : Worded texts (Parser.attempt p items next) := by
  refine ⟨.attempt items hp.composed fun a => (hnext a).composed, fun {s sources step} h => ?_⟩
  rw [run_attempt] at h
  obtain ⟨⟨value, middle, events⟩, hfirst, hrest⟩ := Option.bind_eq_some_iff.mp h
  have hcourse := hp.composed.course hfirst
  cases value with
  | ok value rest =>
      by_cases hstuck : rest.position = s.position
      · simp only [hstuck, if_true] at hrest
        obtain rfl := Option.some.inj hrest
        rw [run_stall, hcourse.config_eq]
        cases hpolicy : (sources.get s.source).config.repetition with
        | stop => trivial
        | error => exact .inr (.noProgress hpolicy)
      · simp only [hstuck, if_false] at hrest
        obtain ⟨last, hlast, rfl⟩ := Option.map_eq_some_iff.mp hrest
        exact ((hnext value).behind hcourse hlast :)
  | fail failure =>
      obtain rfl := Option.some.inj hrest
      trivial
  | error failure =>
      obtain rfl := Option.some.inj hrest
      exact hp.worded hfirst

theorem observed (hp : Worded texts p) : Worded texts p.observed := by
  refine ⟨.observed hp.composed, fun h => ?_⟩
  rw [run_observed] at h
  obtain ⟨inner, hinner, rfl⟩ := Option.map_eq_some_iff.mp h
  exact (hp.worded hinner :)

theorem bind (hp : Worded texts p) {next : α → Parser τ β} (hnext : ∀ a, Worded texts (next a)) :
    Worded texts (Parser.bind p next) :=
  sequel hp fun a => calling .continuation (hnext a)

theorem map (hp : Worded texts p) (f : α → β) : Worded texts (Parser.map f p) :=
  sequel hp fun a => calling .function (succeed (f a))

theorem pair (hp : Worded texts p) (hq : Worded texts q) : Worded texts (Parser.pair p q) := by
  rw [pair_eq_sequel]
  exact sequel hp fun a => sequel hq fun b => succeed (a, b)

theorem keepRight (hp : Worded texts p) (hq : Worded texts q) :
    Worded texts (Parser.keepRight p q) :=
  sequel hp fun _ => hq

theorem keepLeft (hp : Worded texts p) (hq : Worded texts q) :
    Worded texts (Parser.keepLeft p q) := by
  rw [keepLeft_eq_sequel]
  exact sequel hp fun a => sequel hq fun _ => succeed a

theorem optional (hp : Worded texts p) : Worded texts (Parser.optional p) := by
  rw [optional_eq_orElse]
  exact orElse (sequel hp fun a => succeed (some a)) (succeed none)

theorem attempts (hp : Worded texts p) (turns : Nat) (items : List α) :
    Worded texts fun cursor => Parser.attempts p turns cursor items := by
  induction turns generalizing items with
  | zero => exact exhausted
  | succ turns ih => exact attempt items.reverse hp fun item => ih (item :: items)

theorem many (hp : Worded texts p) (turns : Nat) : Worded texts (Parser.many turns p) :=
  attempts hp turns []

theorem deferred (hp : Worded texts p) : Worded texts (Parser.deferred p) :=
  nested (calling .thunk hp)

theorem handle (hp : Worded texts p) (phase : Phase) : Worded texts (Parser.handle phase p) := by
  cases phase with
  | undefined => exact nested (unusable _ fun _ => .undefinedRule)
  | defined => exact nested hp
  | dropped => exact unusable _ fun _ => .droppedRule

end Parser.Worded

/-! ### Plain grammars -/

namespace Grammar

variable {rules : Rules σ τ}

/-- **What a plain grammar says**: what fits the token found, a text of a `fail` node, or, if the
parse is aborted, what the library says. -/
theorem Plain.worded {texts : String → Prop} (hrules : rules.Plain) (hwords : rules.Speaks texts)
    (fuel : Nat) {scope : Scope σ τ} (hscope : scope.Plain) (hhome : scope.Speaks texts)
    {g : Grammar σ τ α} (hg : g.Plain) (hspeaks : g.Speaks texts) :
    Parser.Worded texts (parser rules fuel scope g) := by
  induction fuel generalizing α scope g with
  | zero => exact .exhausted
  | succ fuel ih =>
      induction g generalizing scope with
      | succeed value => exact .observed (.succeed value)
      | fail message => exact .observed (.fail hspeaks)
      | satisfy expected test => exact .observed (.satisfy expected test)
      | eof => exact .observed .eof
      | bind g next ihg ihnext =>
          have hfirst := ihg hscope hhome hg.1 hspeaks.1
          have hrest := fun a => ihnext a hscope hhome (hg.2 a) (hspeaks.2 a)
          exact .observed (.bind hfirst hrest)
      | map f g ihg => exact .observed (.map (ihg hscope hhome hg hspeaks) f)
      | pair g h ihg ihh =>
          have hfirst := ihg hscope hhome hg.1 hspeaks.1
          have hsecond := ihh hscope hhome hg.2 hspeaks.2
          exact .observed (.pair hfirst hsecond)
      | keepRight g h ihg ihh =>
          have hfirst := ihg hscope hhome hg.1 hspeaks.1
          have hsecond := ihh hscope hhome hg.2 hspeaks.2
          exact .observed (.keepRight hfirst hsecond)
      | keepLeft g h ihg ihh =>
          have hfirst := ihg hscope hhome hg.1 hspeaks.1
          have hsecond := ihh hscope hhome hg.2 hspeaks.2
          exact .observed (.keepLeft hfirst hsecond)
      | orElse g h ihg ihh =>
          have hfirst := ihg hscope hhome hg.1 hspeaks.1
          have hsecond := ihh hscope hhome hg.2 hspeaks.2
          exact .observed (.orElse hfirst hsecond)
      | optional g ihg => exact .observed (.optional (ihg hscope hhome hg hspeaks))
      | many g ihg => exact .observed (.many (ihg hscope hhome hg hspeaks) (fuel + 1))
      | label name g ihg => exact .observed (.label name (ihg hscope hhome hg hspeaks))
      | commit g ihg => exact .observed (.commit (ihg hscope hhome hg hspeaks))
      | deferred name =>
          exact .observed (.deferred (ih hscope hhome (hrules name) (hwords name)))
      | recursive name body ihbody =>
          have hplain : (scope.rule name .defined body).Plain := ⟨hscope, hg⟩
          have hinner : (scope.rule name .defined body).Speaks texts := ⟨hhome, hspeaks⟩
          exact .observed (ihbody hplain hinner hg hspeaks)
      | handle name =>
          rw [parser_succ, interpret_handle]
          cases hfind : scope.find? name with
          | none => exact .observed (.unusable _ fun _ => .droppedRule)
          | some rule =>
              obtain ⟨hplain, hbody⟩ := hscope.find? hfind
              obtain ⟨hinner, hwords'⟩ := hhome.find? hfind
              exact .observed (.handle (ih hplain hinner hbody hwords') rule.phase)
      | withRule name phase body g _ ihg =>
          have hplain : (scope.rule name phase body).Plain := ⟨hscope, hg.1⟩
          have hinner : (scope.rule name phase body).Speaks texts := ⟨hhome, hspeaks.1⟩
          exact .observed (ihg hplain hinner hg.2 hspeaks.2)
      | around before after g => exact hg.elim

/-- The failure of a label **says what the label says**, whatever is labelled. -/
theorem message_of_label {name : String} {g : Grammar σ τ α} {fuel : Nat} {scope : Scope σ τ}
    {s : Stream} {sources : Sources τ} {step : Step τ (Outcome τ α)}
    (h : (parser rules fuel scope (.label name g) s).run sources = some step)
    {failure : Failure τ} (hfail : step.value = .fail failure) :
    failure.message = Message.wanted name failure.found := by
  cases fuel with
  | zero => cases h
  | succ fuel =>
      have hparser : parser rules (fuel + 1) scope (.label name g) =
        (Parser.label name (parser rules (fuel + 1) scope g)).observed := rfl
      rw [hparser, Parser.run_observed, Parser.run_label, Option.map_map] at h
      obtain ⟨⟨value, last, events⟩, -, rfl⟩ := Option.map_eq_some_iff.mp h
      cases value with
      | ok value rest => cases hfail
      | fail other =>
          obtain rfl := Outcome.fail.inj hfail
          rfl
      | error other => cases hfail

/-- **Failures tell the truth.** A plain grammar without `fail` nodes, run at a position that tails
lead to, fails only with a text that tells what was expected there and what was found, which is
the end of input or the token at the position of the failure. It is aborted only with such a
text, or with what the library says of limits, of stalls and of rules without a body. A label
over any plain grammar fails only with a text that says of its name that it was expected. -/
theorem failure_texts (hrules : rules.Plain) {scope : Scope σ τ} (hscope : scope.Plain)
    {g : Grammar σ τ α} (hg : g.Plain) {fuel : Nat} {s : Stream} {sources : Sources τ}
    (hreach : sources.Reaches s) :
    (rules.FailFree → scope.FailFree → g.FailFree → ∀ step,
      (parser rules fuel scope g s).run sources = some step →
      (∀ failure, step.value = .fail failure →
        ∃ expected, failure.Tells (sources.get s.source) expected) ∧
      ∀ failure, step.value = .error failure →
        (∃ expected, failure.Tells (sources.get s.source) expected) ∨
          Message.Own (sources.get s.source).config failure.message) ∧
    ∀ name step, (parser rules fuel scope (.label name g) s).run sources = some step →
      ∀ failure, step.value = .fail failure →
        failure.Tells (sources.get s.source) name := by
  constructor
  · intro hrulesFree hscopeFree hfree step h
    have hparser := hg.worded hrules hrulesFree fuel hscope hscopeFree hfree
    have hcourse := hparser.composed.course h
    have hworded := hparser.worded h
    constructor
    · intro failure hvalue
      rw [hvalue] at hworded
      obtain hnone | ⟨expected, hmessage⟩ := hworded
      · exact hnone.elim
      · exact ⟨expected, hcourse.tells hreach (.inl hvalue) hmessage⟩
    · intro failure hvalue
      rw [hvalue] at hworded
      obtain (hnone | ⟨expected, hmessage⟩) | hown := hworded
      · exact hnone.elim
      · exact .inl ⟨expected, hcourse.tells hreach (.inr hvalue) hmessage⟩
      · exact .inr hown
  · intro name step h failure hvalue
    have hlabel : (Grammar.label name g).Plain := hg
    have hcourse := (hlabel.composed hrules fuel hscope).course h
    exact hcourse.tells hreach (.inl hvalue) (message_of_label h hvalue)

end Grammar

/-- Brackets up to the end of input. -/
def Brackets.whole : Grammar names Bool Nat := grammar.keepLeft .eof

/-- A closing bracket fails where the end of input is expected, an opening one is not closed at the
end of input, and a label puts its name in the place of other words, also where the input never
ends. -/
theorem Brackets.failure_texts_whole :
    (∃ expected, Failure.Tells ((store none [false]).get 0) expected
      ⟨"expected end of input, got false", some false, 0⟩) ∧
    ((∃ expected, Failure.Tells ((store none [true]).get 0) expected
      ⟨"unexpected end of input; expected a closing bracket", none, 1⟩) ∨
        Message.Own { maxDepth := none } "unexpected end of input; expected a closing bracket") ∧
    Failure.Tells (.lazy endless .standard) "a bracket"
      ⟨"expected a bracket, got false", some false, 5⟩ := by
  have hwhole : whole.Plain := ⟨plain_grammar, trivial⟩
  have hfree : whole.FailFree := ⟨⟨⟨trivial, trivial, trivial⟩, trivial⟩, trivial⟩
  have hrules : rules.FailFree := fun _ => trivial
  refine ⟨?_, ?_, ?_⟩
  · have hrun : ((Grammar.parser rules 5 .empty whole .start).run (store none [false])).map
        Step.value = some (.fail ⟨"expected end of input, got false", some false, 0⟩) := by
      decide +kernel
    obtain ⟨step, hstep, hvalue⟩ := Option.map_eq_some_iff.mp hrun
    have hreach : (store none [false]).Reaches .start := ⟨0, rfl⟩
    obtain ⟨htells, -⟩ := Grammar.failure_texts plain_rules plain_scope hwhole hreach
    exact (htells hrules trivial hfree step hstep).1 _ hvalue
  · have hrun : ((Grammar.parser rules 5 .empty whole .start).run (store none [true])).map
        Step.value =
          some (.error ⟨"unexpected end of input; expected a closing bracket", none, 1⟩) := by
      decide +kernel
    obtain ⟨step, hstep, hvalue⟩ := Option.map_eq_some_iff.mp hrun
    have hreach : (store none [true]).Reaches .start := ⟨0, rfl⟩
    obtain ⟨htells, -⟩ := Grammar.failure_texts plain_rules plain_scope hwhole hreach
    exact (htells hrules trivial hfree step hstep).2 _ hvalue
  · have hrun : ((Grammar.parser rules 1 .empty
        (.label "a bracket" (.fail "no" : Grammar names Bool Nat)) ⟨0, 5⟩).run
          (.single (.lazy endless .standard))).map Step.value =
            some (.fail ⟨"expected a bracket, got false", some false, 5⟩) := by
      decide +kernel
    obtain ⟨step, hstep, hvalue⟩ := Option.map_eq_some_iff.mp hrun
    have hplain : (.fail "no" : Grammar names Bool Nat).Plain := trivial
    have hreach : (Sources.single (.lazy endless .standard)).Reaches ⟨0, 5⟩ := ⟨5, rfl⟩
    obtain ⟨-, hlabel⟩ := Grammar.failure_texts plain_rules plain_scope hplain hreach
    exact hlabel "a bracket" step hstep _ hvalue

end Backtrack
