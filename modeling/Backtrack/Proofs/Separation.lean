import Backtrack.Grammar.Derived
import Backtrack.Proofs.Answers

/-!
# Items with Separators

Items with separators between them are an item and then a repetition of a separator with an item
behind it. The repetition gives up a separator that no item follows, however much of the input
it matched, and whether it advances is asked of a separator and its item together, so that
either of them may match nothing.

What comes out is the longest chain: item after item, each behind a separator, as long as both are
there and advance. The laws below say when the chain ends, and with what, at every position.

## Main definitions

* `Grammar.Follows`: a separator and an item behind it, which advance together.
* `Grammar.Concluded`, `Grammar.Broken`: where a chain ends, and where it is aborted.
* `Grammar.SeparationLaws`: what items with separators are at a position.

## Main results

* `Grammar.separation_laws`: the laws hold of all plain grammars.
-/

namespace Backtrack

variable {σ : Signature} {τ α β : Type} [Quote τ]

namespace Grammar

section

variable (rules : Rules σ τ) (scope : Scope σ τ) (item : Grammar σ τ α)
  (separator : Grammar σ τ β) (sources : Sources τ)

/-- **One more item**: a separator and an item behind it that together advance. -/
def Follows (s : Stream) (value : α) (rest : Stream) : Prop :=
  ∃ mark between, Answers rules scope separator sources s (.ok mark between) ∧
    Answers rules scope item sources between (.ok value rest) ∧ rest.position ≠ s.position

/-- **No more items**: there is no separator, or none with an item behind it, or the two do not
advance, which the policy allows. -/
inductive Concluded (policy : RepeatPolicy) (stop : Stream) : Prop where
  | missing {failure : Failure τ}
      (separator : Answers rules scope separator sources stop (.fail failure))
  | trailing {mark : β} {between : Stream} {failure : Failure τ}
      (separator : Answers rules scope separator sources stop (.ok mark between))
      (item : Answers rules scope item sources between (.fail failure))
  | stalled {mark : β} {value : α} {between rest : Stream}
      (separator : Answers rules scope separator sources stop (.ok mark between))
      (item : Answers rules scope item sources between (.ok value rest))
      (stuck : rest.position = stop.position) (allowed : policy = .stop)

/-- **An error instead of one more item**: of the separator, of the item behind it, or because the
two do not advance, which the policy forbids. -/
inductive Broken (policy : RepeatPolicy) (stop : Stream) (failure : Failure τ) : Prop where
  | separator (separator : Answers rules scope separator sources stop (.error failure))
  | item {mark : β} {between : Stream}
      (separator : Answers rules scope separator sources stop (.ok mark between))
      (item : Answers rules scope item sources between (.error failure))
  | stalled {mark : β} {value : α} {between rest : Stream}
      (separator : Answers rules scope separator sources stop (.ok mark between))
      (item : Answers rules scope item sources between (.ok value rest))
      (stuck : rest.position = stop.position) (forbidden : policy = .error)
      (failure_eq : failure = ⟨Message.noProgress, sources.token stop, stop.position⟩)

/-- **What items with separators are** at `s`, told by the answers of the item and of the
separator. -/
structure SeparationLaws (s : Stream) : Prop where
  /-- A success has the items of a chain that begins with an item and ends where no more follow. -/
  ok_iff : ∀ values stop, Answers rules scope (item.sepBy1 separator) sources s (.ok values stop) ↔
    ∃ first start others, values = first :: others ∧
      Answers rules scope item sources s (.ok first start) ∧
      Chain (Follows rules scope item separator sources) start others stop ∧
      Concluded rules scope item separator sources (sources.get s.source).config.repetition stop
  /-- Where the chain ends no item follows. -/
  longest : ∀ {policy stop}, Concluded rules scope item separator sources policy stop →
    ∀ value rest, ¬ Follows rules scope item separator sources stop value rest
  /-- A failure is that of the first item. -/
  fail_iff : ∀ failure, Answers rules scope (item.sepBy1 separator) sources s (.fail failure) ↔
    Answers rules scope item sources s (.fail failure)
  /-- An error is that of the first item or the one that breaks the chain behind it. -/
  error_iff : ∀ failure, Answers rules scope (item.sepBy1 separator) sources s (.error failure) ↔
    Answers rules scope item sources s (.error failure) ∨
      ∃ first start others stop, Answers rules scope item sources s (.ok first start) ∧
        Chain (Follows rules scope item separator sources) start others stop ∧
        Broken rules scope item separator sources (sources.get s.source).config.repetition stop
          failure

end

variable {rules : Rules σ τ} {scope : Scope σ τ} {item : Grammar σ τ α}
  {separator : Grammar σ τ β} {sources : Sources τ} {s : Stream}

section

variable (hrules : rules.Plain) (hscope : scope.Plain) (hitem : item.Plain)
  (hseparator : separator.Plain)

include hrules hscope hitem hseparator

/-- A separator with an item behind it, which is what is repeated. -/
theorem answers_separated_ok_iff (hs : s.source < sources.next) {value : α} {rest : Stream} :
    Answers rules scope (separator.keepRight item) sources s (.ok value rest) ↔
      ∃ mark between, Answers rules scope separator sources s (.ok mark between) ∧
        Answers rules scope item sources between (.ok value rest) := by
  rw [hseparator.answers_keepRight_iff hrules hscope hitem hs]
  constructor
  · rintro ⟨first, hfirst, hrest⟩
    cases first with
    | ok mark between => exact ⟨mark, between, hfirst, hrest⟩
    | fail failure => cases hrest
    | error failure => cases hrest
  · rintro ⟨mark, between, hfirst, hrest⟩
    exact ⟨_, hfirst, hrest⟩

/-- One more item is a success of the repetition that advances. -/
theorem advances_separated_iff (hs : s.source < sources.next) {value : α} {rest : Stream} :
    Advances rules scope (separator.keepRight item) sources s value rest ↔
      Follows rules scope item separator sources s value rest := by
  unfold Advances Follows
  rw [answers_separated_ok_iff hrules hscope hitem hseparator hs]
  constructor
  · rintro ⟨⟨mark, between, hfirst, hsecond⟩, hadvance⟩
    exact ⟨mark, between, hfirst, hsecond, hadvance⟩
  · rintro ⟨mark, between, hfirst, hsecond, hadvance⟩
    exact ⟨⟨mark, between, hfirst, hsecond⟩, hadvance⟩

/-- One more item stays in the source. -/
theorem source_of_follows {id : Nat} (hid : id < sources.next) (hs : s.source = id) {value : α}
    {rest : Stream} (h : Follows rules scope item separator sources s value rest) :
    rest.source = id := by
  obtain ⟨mark, between, hfirst, hsecond, -⟩ := h
  have hbetween := hseparator.source_of_answers hrules hscope (hs ▸ hid) hfirst
  have hrest := hitem.source_of_answers hrules hscope (hbetween ▸ hs ▸ hid) hsecond
  exact hrest.trans (hbetween.trans hs)

theorem source_of_chain (hs : s.source < sources.next) {values : List α} {stop : Stream}
    (h : Chain (Follows rules scope item separator sources) s values stop) :
    stop.source = s.source :=
  h.stays (fun t => t.source = s.source)
    (fun ht hstep => source_of_follows hrules hscope hitem hseparator hs ht hstep) rfl

/-- A chain of items is **a chain of the repetition**. -/
theorem chain_separated_iff (hs : s.source < sources.next) {values : List α} {stop : Stream} :
    Chain (Advances rules scope (separator.keepRight item) sources) s values stop ↔
      Chain (Follows rules scope item separator sources) s values stop := by
  have hiff : ∀ {t value rest}, t.source = s.source →
      (Advances rules scope (separator.keepRight item) sources t value rest ↔
        Follows rules scope item separator sources t value rest) :=
    fun ht => advances_separated_iff hrules hscope hitem hseparator (ht ▸ hs)
  have hstay : ∀ {t value rest}, t.source = s.source →
      Follows rules scope item separator sources t value rest → rest.source = s.source :=
    fun ht hstep => source_of_follows hrules hscope hitem hseparator hs ht hstep
  constructor
  · intro h
    exact h.mono (fun t => t.source = s.source) (fun ht hstep => hstay ht ((hiff ht).mp hstep))
      (fun ht => (hiff ht).mp) rfl
  · intro h
    exact h.mono (fun t => t.source = s.source) hstay (fun ht => (hiff ht).mpr) rfl

/-- Where the chain ends, the repetition behind it does not go on. -/
theorem concluded_iff {stop : Stream} (hstop : stop.source < sources.next)
    {policy : RepeatPolicy} :
    ((∃ failure, Answers rules scope (separator.keepRight item) sources stop (.fail failure)) ∨
      ∃ value rest, Answers rules scope (separator.keepRight item) sources stop (.ok value rest) ∧
        rest.position = stop.position ∧ policy = .stop) ↔
      Concluded rules scope item separator sources policy stop := by
  simp only [answers_separated_ok_iff hrules hscope hitem hseparator hstop,
    hseparator.answers_keepRight_iff hrules hscope hitem hstop]
  constructor
  · rintro (⟨failure, first, hfirst, hrest⟩ | ⟨value, rest, ⟨mark, between, hfirst, hsecond⟩,
      hstuck, hpolicy⟩)
    · cases first with
      | ok mark between => exact .trailing hfirst hrest
      | fail other => exact .missing hfirst
      | error other => cases hrest
    · exact .stalled hfirst hsecond hstuck hpolicy
  · intro h
    cases h with
    | missing hfirst => exact .inl ⟨_, _, hfirst, rfl⟩
    | trailing hfirst hsecond => exact .inl ⟨_, _, hfirst, hsecond⟩
    | stalled hfirst hsecond hstuck hpolicy =>
        exact .inr ⟨_, _, ⟨_, _, hfirst, hsecond⟩, hstuck, hpolicy⟩

/-- Where the chain is broken, the repetition behind it is aborted. -/
theorem broken_iff {stop : Stream} (hstop : stop.source < sources.next) {policy : RepeatPolicy}
    {failure : Failure τ} :
    (Answers rules scope (separator.keepRight item) sources stop (.error failure) ∨
      ∃ value rest, Answers rules scope (separator.keepRight item) sources stop (.ok value rest) ∧
        rest.position = stop.position ∧ policy = .error ∧
        failure = ⟨Message.noProgress, sources.token stop, stop.position⟩) ↔
      Broken rules scope item separator sources policy stop failure := by
  simp only [answers_separated_ok_iff hrules hscope hitem hseparator hstop,
    hseparator.answers_keepRight_iff hrules hscope hitem hstop]
  constructor
  · rintro (⟨first, hfirst, hrest⟩ | ⟨value, rest, ⟨mark, between, hfirst, hsecond⟩, hstuck,
      hpolicy, hfailure⟩)
    · cases first with
      | ok mark between => exact .item hfirst hrest
      | fail other => cases hrest
      | error other =>
          obtain rfl := Outcome.error.inj hrest
          exact .separator hfirst
    · exact .stalled hfirst hsecond hstuck hpolicy hfailure
  · intro h
    cases h with
    | separator hfirst => exact .inl ⟨_, hfirst, rfl⟩
    | item hfirst hsecond => exact .inl ⟨_, hfirst, hsecond⟩
    | stalled hfirst hsecond hstuck hpolicy hfailure =>
        exact .inr ⟨_, _, ⟨_, _, hfirst, hsecond⟩, hstuck, hpolicy, hfailure⟩

/-- The items behind the first one are **a chain that ends where no more follow**. -/
theorem answers_following_ok_iff (hs : s.source < sources.next) {values : List α}
    {stop : Stream} :
    Answers rules scope (separator.keepRight item).many sources s (.ok values stop) ↔
      Chain (Follows rules scope item separator sources) s values stop ∧
        Concluded rules scope item separator sources (sources.get s.source).config.repetition
          stop := by
  have hplain : (separator.keepRight item).Plain := ⟨hseparator, hitem⟩
  rw [hplain.answers_many_ok_iff hrules hscope hs,
    chain_separated_iff hrules hscope hitem hseparator hs]
  refine and_congr_right fun hchain => ?_
  have hsource := source_of_chain hrules hscope hitem hseparator hs hchain
  exact concluded_iff hrules hscope hitem hseparator (hsource ▸ hs)

/-- They are aborted where the chain is broken. -/
theorem answers_following_error_iff (hs : s.source < sources.next) {failure : Failure τ} :
    Answers rules scope (separator.keepRight item).many sources s (.error failure) ↔
      ∃ values stop, Chain (Follows rules scope item separator sources) s values stop ∧
        Broken rules scope item separator sources (sources.get s.source).config.repetition stop
          failure := by
  have hplain : (separator.keepRight item).Plain := ⟨hseparator, hitem⟩
  rw [hplain.answers_many_error_iff hrules hscope hs]
  simp only [chain_separated_iff hrules hscope hitem hseparator hs]
  refine exists_congr fun values => exists_congr fun stop => and_congr_right fun hchain => ?_
  have hsource := source_of_chain hrules hscope hitem hseparator hs hchain
  exact broken_iff hrules hscope hitem hseparator (hsource ▸ hs)

/-- Items with separators, told by the first item and the repetition behind it. -/
theorem answers_sepBy1_iff (hs : s.source < sources.next) {outcome : Outcome τ (List α)} :
    Answers rules scope (item.sepBy1 separator) sources s outcome ↔
      ∃ first, Answers rules scope item sources s first ∧
        match first with
        | .ok value start =>
          ∃ others, Answers rules scope (separator.keepRight item).many sources start others ∧
            outcome = others.map (value :: ·)
        | .fail failure => outcome = .fail failure
        | .error failure => outcome = .error failure := by
  have hplain : (separator.keepRight item).Plain := ⟨hseparator, hitem⟩
  exact hitem.answers_cons_iff hrules hscope hplain hs

/-- A success is the first item with **a chain of items behind it**, told under the settings of the
source where the first item began. -/
theorem answers_sepBy1_ok_iff (hs : s.source < sources.next) {values : List α} {stop : Stream} :
    Answers rules scope (item.sepBy1 separator) sources s (.ok values stop) ↔
      ∃ first start others, values = first :: others ∧
        Answers rules scope item sources s (.ok first start) ∧
        Chain (Follows rules scope item separator sources) start others stop ∧
        Concluded rules scope item separator sources (sources.get s.source).config.repetition
          stop := by
  have hrest : ∀ {first start others}, Answers rules scope item sources s (.ok first start) →
      (Answers rules scope (separator.keepRight item).many sources start (.ok others stop) ↔
        Chain (Follows rules scope item separator sources) start others stop ∧
          Concluded rules scope item separator sources (sources.get s.source).config.repetition
            stop) := fun hfirst => by
    have hstart := hitem.source_of_answers hrules hscope hs hfirst
    rw [← hstart]
    exact answers_following_ok_iff hrules hscope hitem hseparator (hstart ▸ hs)
  rw [answers_sepBy1_iff hrules hscope hitem hseparator hs]
  constructor
  · rintro ⟨outcome, hfirst, hbehind⟩
    cases outcome with
    | ok first start =>
        obtain ⟨others, hothers, hvalue⟩ := hbehind
        cases others with
        | ok others rest =>
            obtain ⟨rfl, rfl⟩ := Outcome.ok.inj hvalue
            exact ⟨first, start, others, rfl, hfirst, (hrest hfirst).mp hothers⟩
        | fail failure => cases hvalue
        | error failure => cases hvalue
    | fail failure => cases hbehind
    | error failure => cases hbehind
  · rintro ⟨first, start, others, rfl, hfirst, hchain⟩
    exact ⟨_, hfirst, _, (hrest hfirst).mpr hchain, rfl⟩

/-- A failure is **that of the first item**. -/
theorem answers_sepBy1_fail_iff (hs : s.source < sources.next) {failure : Failure τ} :
    Answers rules scope (item.sepBy1 separator) sources s (.fail failure) ↔
      Answers rules scope item sources s (.fail failure) := by
  rw [answers_sepBy1_iff hrules hscope hitem hseparator hs]
  constructor
  · rintro ⟨outcome, hfirst, hbehind⟩
    cases outcome with
    | ok first start =>
        obtain ⟨others, hothers, hvalue⟩ := hbehind
        cases others with
        | ok others rest => cases hvalue
        | fail other => exact absurd hothers not_answers_many_fail
        | error other => cases hvalue
    | fail other =>
        obtain rfl := Outcome.fail.inj hbehind
        exact hfirst
    | error other => cases hbehind
  · intro hfirst
    exact ⟨_, hfirst, rfl⟩

/-- An error is **that of the first item, or the one that breaks the chain** behind it. -/
theorem answers_sepBy1_error_iff (hs : s.source < sources.next) {failure : Failure τ} :
    Answers rules scope (item.sepBy1 separator) sources s (.error failure) ↔
      Answers rules scope item sources s (.error failure) ∨
        ∃ first start others stop, Answers rules scope item sources s (.ok first start) ∧
          Chain (Follows rules scope item separator sources) start others stop ∧
          Broken rules scope item separator sources (sources.get s.source).config.repetition stop
            failure := by
  have hrest : ∀ {first start}, Answers rules scope item sources s (.ok first start) →
      (Answers rules scope (separator.keepRight item).many sources start (.error failure) ↔
        ∃ others stop, Chain (Follows rules scope item separator sources) start others stop ∧
          Broken rules scope item separator sources (sources.get s.source).config.repetition
            stop failure) := fun hfirst => by
    have hstart := hitem.source_of_answers hrules hscope hs hfirst
    rw [← hstart]
    exact answers_following_error_iff hrules hscope hitem hseparator (hstart ▸ hs)
  rw [answers_sepBy1_iff hrules hscope hitem hseparator hs]
  constructor
  · rintro ⟨outcome, hfirst, hbehind⟩
    cases outcome with
    | ok first start =>
        obtain ⟨others, hothers, hvalue⟩ := hbehind
        cases others with
        | ok others rest => cases hvalue
        | fail other => cases hvalue
        | error other =>
            obtain rfl := Outcome.error.inj hvalue
            obtain ⟨others, stop, hchain, hbroken⟩ := (hrest hfirst).mp hothers
            exact .inr ⟨first, start, others, stop, hfirst, hchain, hbroken⟩
    | fail other => cases hbehind
    | error other =>
        obtain rfl := Outcome.error.inj hbehind
        exact .inl hfirst
  · rintro (hfirst | ⟨first, start, others, stop, hfirst, hchain, hbroken⟩)
    · exact ⟨_, hfirst, rfl⟩
    · exact ⟨_, hfirst, _, (hrest hfirst).mpr ⟨others, stop, hchain, hbroken⟩, rfl⟩

end

/-- Where a chain ends **no item follows**. -/
theorem Concluded.not_follows {policy : RepeatPolicy} {stop : Stream}
    (h : Concluded rules scope item separator sources policy stop) {value : α} {rest : Stream} :
    ¬ Follows rules scope item separator sources stop value rest := by
  rintro ⟨mark, between, hseparator, hitem, hadvance⟩
  cases h with
  | missing hnone => cases hseparator.unique hnone
  | trailing hfirst hnone =>
      obtain ⟨-, rfl⟩ := Outcome.ok.inj (hseparator.unique hfirst)
      cases hitem.unique hnone
  | stalled hfirst hsecond hstuck =>
      obtain ⟨-, rfl⟩ := Outcome.ok.inj (hseparator.unique hfirst)
      obtain ⟨-, rfl⟩ := Outcome.ok.inj (hitem.unique hsecond)
      exact hadvance hstuck

/-- **Items with separators are the longest chain**: an item, and then items each behind a
separator, as long as both are there and advance together. A separator that no item follows is
left in the input. The failure is that of the first item, and the error the first that is met. -/
theorem separation_laws (hrules : rules.Plain) (hscope : scope.Plain) (hitem : item.Plain)
    (hseparator : separator.Plain) (hs : s.source < sources.next) :
    SeparationLaws rules scope item separator sources s where
  ok_iff _ _ := answers_sepBy1_ok_iff hrules hscope hitem hseparator hs
  longest hend _ _ := hend.not_follows
  fail_iff _ := answers_sepBy1_fail_iff hrules hscope hitem hseparator hs
  error_iff _ := answers_sepBy1_error_iff hrules hscope hitem hseparator hs

end Grammar

namespace Brackets

/-- An opening bracket. -/
def opening : Grammar names Bool Bool := .satisfy "an opening bracket" ⟨fun t => t, fun _ => []⟩

/-- A closing bracket. -/
def closing : Grammar names Bool Bool := .satisfy "a closing bracket" ⟨fun t => !t, fun _ => []⟩

/-- Opening brackets separated by closing ones: the last closing bracket is left in the input. -/
theorem separation_laws_trailing :
    Grammar.Answers rules .empty (opening.sepBy1 closing) (store none [true, false, true, false])
      .start (.ok [true, true] ⟨0, 3⟩) := by
  let sources := store none [true, false, true, false]
  have laws : Grammar.SeparationLaws rules .empty opening closing sources .start :=
    Grammar.separation_laws plain_rules plain_scope trivial trivial (by decide)
  have hfirst : Grammar.Answers rules .empty opening sources .start (.ok true ⟨0, 1⟩) :=
    Grammar.answers_of_run 1 (by decide +kernel)
  have hmore : Grammar.Follows rules .empty opening closing sources ⟨0, 1⟩ true ⟨0, 3⟩ :=
    ⟨false, ⟨0, 2⟩, Grammar.answers_of_run 1 (by decide +kernel),
      Grammar.answers_of_run 1 (by decide +kernel), by decide⟩
  have hend : Grammar.Concluded rules .empty opening closing sources .stop ⟨0, 3⟩ := by
    have hseparator : Grammar.Answers rules .empty closing sources ⟨0, 3⟩ (.ok false ⟨0, 4⟩) :=
      Grammar.answers_of_run 1 (by decide +kernel)
    have hnothing : Grammar.Answers rules .empty opening sources ⟨0, 4⟩ (.fail ⟨
        "unexpected end of input; expected an opening bracket", none, 4⟩) :=
      Grammar.answers_of_run 1 (by decide +kernel)
    exact .trailing hseparator hnothing
  exact (laws.ok_iff _ _).mpr ⟨true, ⟨0, 1⟩, [true], rfl, hfirst, .cons hmore .nil, hend⟩

end Brackets

end Backtrack
