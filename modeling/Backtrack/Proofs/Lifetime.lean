import Backtrack.Proofs.Combinators
import Backtrack.Proofs.Workshop

/-!
# The Life of a Recursive Rule

A handle of a recursive rule meets three states, one after another, and each for good. At first the
rule has no body. From the moment the body is there, the handle runs the rule, one level of nesting
deeper, as long as some parser holds the rule: the rule itself, a copy of it, or a parser that was
put together from it. And when the last of these is gone, the handle is an error for ever. The
handles themselves play no part in this, wherever they are; in particular, those in the body of the
rule do not keep it alive.

All of this is told of any deeds in a workshop, in any order.

## Main definitions

* `Workshop.Reached`: what can become of an empty workshop.

## Main results

* `Workshop.Sound.not_holds_after`: a rule that nobody holds is lost for ever.
* `Workshop.handle_life`: what a handle does, at any moment.
-/

namespace Backtrack

variable {τ α : Type}

namespace Registers

variable {r : Registers α}

/-- Emptying a register leaves the others alone. -/
theorem Distinct.get?_erase_of_ne (h : r.Distinct) {name other : String} (hne : other ≠ name) :
    (r.erase name).get? other = r.get? other := by
  refine Option.ext fun value => ?_
  rw [(h.erase name).get?_eq_some_iff, h.get?_eq_some_iff, Registers.erase,
    List.mem_filter]
  simp [hne]

end Registers

namespace Workshop

/-- A workshop **to which deeds have led** from an empty one. -/
def Reached (w : Workshop τ α) : Prop :=
  ∃ (sources : Sources τ) (deeds : List (Deed τ α)),
    w = ({ sources } : Workshop τ α).after deeds

theorem Reached.sound {w : Workshop τ α} (h : w.Reached) : w.Sound := by
  obtain ⟨sources, deeds, rfl⟩ := h
  exact (sound_empty sources).after deeds

namespace Sound

variable {w : Workshop τ α}

/-! ### A rule that nobody holds -/

/-- A rule is held by no one when it is held in no register. -/
theorem not_holds_iff (h : w.Sound) {n : Nat} :
    ¬ w.Holds n ↔ w.shelf.slots.Each fun holding => ¬ holding.item.Holds n := by
  constructor
  · intro hholds entry hentry hitem
    exact hholds ⟨entry.1, entry.2.item, h.get?_of_mem hentry, hitem⟩
  · rintro heach ⟨name, p, hp, hholds⟩
    obtain ⟨holding, hslot, rfl⟩ := get?_eq_some_iff.mp hp
    exact heach.get? hslot hholds

/-- What is put together from parsers holds no rule that nobody held. -/
private theorem not_holds_made {n : Nat} (hn : ¬ w.Holds n)
    (combine : List (Parser τ α) → Parser τ α) (parts : List String) :
    ¬ (Piece.made combine (w.pieces parts)).Holds n := by
  rw [Piece.holds_made_iff]
  rintro ⟨p, hp, hholds⟩
  obtain ⟨name, -, hname⟩ := List.mem_filterMap.mp hp
  exact hn ⟨name, p, hname, hholds⟩

/-- **A rule that is defined and that nobody holds is lost**: no deed gets hold of it. -/
theorem not_holds_perform (h : w.Sound) {n : Nat} (hn : n ∈ w.shelf.defined)
    (hholds : ¬ w.Holds n) (deed : Deed τ α) :
    n ∈ (w.perform deed).shelf.defined ∧ ¬ (w.perform deed).Holds n := by
  have heach := h.not_holds_iff.mp hholds
  rw [(h.perform deed).not_holds_iff]
  cases deed with
  | declare into => exact ⟨hn, heach.put into Piece.not_holds_handle⟩
  | define number combine parts into =>
      by_cases hnew : number < w.shelf.declared ∧ number ∉ w.shelf.defined
      · rw [Workshop.perform, if_pos hnew, Workshop.install, Shelf.define, if_pos hnew]
        refine ⟨List.mem_cons_of_mem _ hn, heach.put into ?_⟩
        rw [Piece.holds_rule_iff]
        rintro (rfl | hbody)
        · exact hnew.2 hn
        · exact not_holds_made hholds combine parts hbody
      · rw [Workshop.perform, if_neg hnew]
        exact ⟨hn, heach⟩
  | build combine parts into => exact ⟨hn, heach.put into (not_holds_made hholds combine parts)⟩
  | copy on into =>
      rw [Workshop.perform, Shelf.copy]
      cases hslot : w.shelf.slots.get? on with
      | none => exact ⟨hn, heach⟩
      | some holding => exact ⟨hn, heach.put into (heach.get? hslot)⟩
  | drop on => exact ⟨hn, heach.erase on⟩
  | run on fuel start => exact ⟨hn, heach⟩

/-- It is lost for ever. -/
theorem not_holds_after (h : w.Sound) {n : Nat} (hn : n ∈ w.shelf.defined)
    (hholds : ¬ w.Holds n) (deeds : List (Deed τ α)) :
    n ∈ (w.after deeds).shelf.defined ∧ ¬ (w.after deeds).Holds n := by
  induction deeds generalizing w with
  | nil => exact ⟨hn, hholds⟩
  | cons deed deeds ih =>
      obtain ⟨hn', hholds'⟩ := h.not_holds_perform hn hholds deed
      exact ih (h.perform deed) hn' hholds'

/-! ### What a handle does -/

/-- A handle of a rule that is held runs the body that the rule has in the piece that holds it. -/
theorem parser_handle_of_within (h : w.Sound) {n : Nat} {name : String} {p body : Piece τ α}
    (hp : w.shelf.get? name = some p) (hbody : (Piece.rule n body).Within p) (fuel : Nat) :
    w.parser (fuel + 1) (.handle n) = Parser.nested (w.parser fuel (.rule n body)) := by
  obtain ⟨holding, hslot, rfl⟩ := get?_eq_some_iff.mp hp
  have htold := h.genuine.get? hslot n body hbody
  have hphase := h.phase_of_holds ((h.defined n).mpr ⟨body, htold⟩) ⟨name, _, hp, body, hbody⟩
  rw [Workshop.parser, Piece.parser, call, hphase, htold]
  rfl

/-- The handle of a rule that nobody holds is an error at once. -/
theorem run_handle_of_not_holds (h : w.Sound) {n : Nat} (hn : n ∈ w.shelf.defined)
    (hholds : ¬ w.Holds n) (fuel : Nat) (s : Stream) (store : Sources τ) :
    (w.parser (fuel + 1) (.handle n) s).run store =
      some ⟨.error ⟨Message.droppedRule, store.token s, s.position⟩, store.look s,
        [.unusable s .dropped, .inspected s]⟩ := by
  rw [Workshop.parser, Piece.parser, call, h.phase_of_not_holds hn hholds]
  exact Parser.run_unusable _ _ s store

/-- The handle of a rule without a body is an error where there is room for a reference. -/
theorem run_handle_undefined {n : Nat} (hn : n ∉ w.shelf.defined) (fuel : Nat) {s : Stream}
    {store : Sources τ}
    (hroom : (store.get s.source).config.admits (store.get s.source).depth = .ok ()) :
    ((w.parser (fuel + 1) (.handle n) s).run store).map Step.value =
      some (.error ⟨Message.undefinedRule, store.token s, s.position⟩) := by
  have htoken : ((store.modify s.source .enter).get s.source).token =
      (store.get s.source).token :=
    Sources.rel_get_modify (P := fun new old => new.token = old.token) (fun _ => rfl)
      Source.token_enter store s.source s.source
  rw [Workshop.parser, Piece.parser, call, phase_of_not_mem hn, Parser.handle, Parser.run_nested,
    hroom]
  simp only [Parser.inside_eq, Parser.run_unusable, Option.map_some, Sources.token, htoken]

/-- It is refused like any other where there is none. -/
theorem run_handle_refused {n : Nat} (hn : n ∉ w.shelf.defined) (fuel : Nat) {s : Stream}
    {store : Sources τ} {limit : Nat}
    (hlimit : (store.get s.source).config.admits (store.get s.source).depth = .error limit) :
    ((w.parser (fuel + 1) (.handle n) s).run store).map Step.value =
      some (.error ⟨Message.recursionLimit limit, store.token s, s.position⟩) := by
  rw [Workshop.parser, Piece.parser, call, phase_of_not_mem hn, Parser.handle, Parser.run_nested,
    hlimit]
  rfl

/-- Parsers depend on the lives of the rules and on their bodies, and on nothing else. -/
theorem call_congr {other : Workshop τ α}
    (hphase : ∀ n, other.shelf.phase n = w.shelf.phase n) (hbodies : other.bodies = w.bodies)
    (fuel : Nat) :
    other.call fuel = w.call fuel := by
  induction fuel with
  | zero => rfl
  | succ fuel ih =>
      funext n
      rw [call, call, ih, hbodies, hphase]

/-- **Dropping one of several copies changes nothing.** -/
theorem parser_drop_copy (h : w.Sound) {on other : String} (hne : other ≠ on)
    (hcopy : w.shelf.get? other = w.shelf.get? on) (fuel : Nat) (p : Piece τ α) :
    (w.perform (.drop on)).parser fuel p = w.parser fuel p := by
  have hget {name : String} (hname : name ≠ on) :
      (w.perform (.drop on)).shelf.get? name = w.shelf.get? name :=
    congrArg (Option.map Holding.item) (h.distinct.get?_erase_of_ne hname)
  have hholds (n : Nat) : (w.perform (.drop on)).Holds n ↔ w.Holds n := by
    constructor
    · intro hheld
      by_contra hnot
      exact (h.drop on).not_holds_iff.mpr ((h.not_holds_iff.mp hnot).erase on) hheld
    · rintro ⟨name, q, hq, hheld⟩
      by_cases hname : name = on
      · subst hname
        exact ⟨other, q, (hget hne).trans (hcopy.trans hq), hheld⟩
      · exact ⟨name, q, (hget hname).trans hq, hheld⟩
  have hphase (n : Nat) : (w.perform (.drop on)).shelf.phase n = w.shelf.phase n := by
    by_cases hn : n ∈ w.shelf.defined
    · by_cases hheld : w.Holds n
      · rw [h.phase_of_holds hn hheld, (h.drop on).phase_of_holds hn ((hholds n).mpr hheld)]
      · rw [h.phase_of_not_holds hn hheld,
          (h.drop on).phase_of_not_holds hn fun hlater => hheld ((hholds n).mp hlater)]
    · rw [phase_of_not_mem hn]
      exact phase_of_not_mem (w := w.perform (.drop on)) hn
  have hcall : (w.perform (.drop on)).call fuel = w.call fuel := call_congr hphase rfl fuel
  rw [Workshop.parser, Workshop.parser, hcall]

end Sound

/-- **The life of a recursive rule.** Take any deeds whatever in an empty workshop, and a rule that
was declared, so that its handle is out.

* The count of the owners of its slot tells the same of its life as the list of what registers
  keep alive.
* Before it has a body, its handle is refused where no reference is admitted, and elsewhere is the
  error that it is not yet defined.
* As long as a register holds it, by itself or in a parser that was put together from it, its handle
  is the rule one level of nesting deeper.
* Once it is defined and no register holds it, its handle is the error that it was dropped, with the
  current token and position, on every stream and under every limit, whatever is done afterwards.
* To empty a register of which there is a copy changes what no parser does. -/
theorem handle_life {w : Workshop τ α} (hw : w.Reached) {n : Nat} (hn : n < w.shelf.declared) :
    w.ledger.phase n = w.shelf.phase n ∧
    (n ∉ w.shelf.defined → ∀ (fuel : Nat) (s : Stream) (store : Sources τ),
      (∀ limit, (store.get s.source).config.admits (store.get s.source).depth = .error limit →
        ((w.parser (fuel + 1) (.handle n) s).run store).map Step.value =
          some (.error ⟨Message.recursionLimit limit, store.token s, s.position⟩)) ∧
      ((store.get s.source).config.admits (store.get s.source).depth = .ok () →
        ((w.parser (fuel + 1) (.handle n) s).run store).map Step.value =
          some (.error ⟨Message.undefinedRule, store.token s, s.position⟩))) ∧
    (∀ {name : String} {p body : Piece τ α}, w.shelf.get? name = some p →
      (Piece.rule n body).Within p → ∀ fuel,
      w.parser (fuel + 1) (.handle n) = Parser.nested (w.parser fuel (.rule n body))) ∧
    (n ∈ w.shelf.defined → ¬ w.Holds n →
      ∀ (deeds : List (Deed τ α)) (fuel : Nat) (s : Stream) (store : Sources τ),
      ((w.after deeds).parser (fuel + 1) (.handle n) s).run store =
        some ⟨.error ⟨Message.droppedRule, store.token s, s.position⟩, store.look s,
          [.unusable s .dropped, .inspected s]⟩) ∧
    ∀ {on other : String}, other ≠ on → w.shelf.get? other = w.shelf.get? on →
      ∀ (fuel : Nat) (p : Piece τ α), (w.perform (.drop on)).parser fuel p = w.parser fuel p := by
  have h := hw.sound
  refine ⟨h.phase_eq hn, fun hnew fuel s store => ⟨?_, ?_⟩, ?_, ?_, ?_⟩
  · exact fun limit hlimit => Sound.run_handle_refused hnew fuel hlimit
  · exact fun hroom => Sound.run_handle_undefined hnew fuel hroom
  · exact fun hp hbody fuel => h.parser_handle_of_within hp hbody fuel
  · intro hdefined hholds deeds fuel s store
    obtain ⟨hlater, hlost⟩ := h.not_holds_after hdefined hholds deeds
    exact (h.after deeds).run_handle_of_not_holds hlater hlost fuel s store
  · exact fun hne hcopy fuel p => h.parser_drop_copy hne hcopy fuel p

end Workshop

namespace Brackets

/-- Pairs of brackets around what the first of the parsers reads, or nothing. -/
def bracketed (ps : List (Parser Bool Nat)) : Parser Bool Nat :=
  Parser.orElse
    (Parser.map (fun n : Nat => n + 1)
      (Parser.keepRight (Parser.satisfy "an opening bracket" ⟨fun t => t, fun _ => []⟩)
        (Parser.keepLeft (ps.headD (Parser.fail "no parser"))
          (Parser.satisfy "a closing bracket" ⟨fun t => !t, fun _ => []⟩))))
    (Parser.succeed 0)

/-- What the first of the parsers reads, under a name. -/
def renamed (ps : List (Parser Bool Nat)) : Parser Bool Nat :=
  Parser.label "brackets" (ps.headD (Parser.fail "no parser"))

/-- The rule of the brackets is made, copied and captured, and then let go of bit by bit. -/
def deeds : List (Deed Bool Nat) :=
  [.declare "inner", .define 0 bracketed ["inner"] "rule", .copy "rule" "copy",
    .build renamed ["copy"] "captured", .drop "rule", .drop "copy", .drop "captured"]

/-- The workshop after the first of these deeds. -/
def bench (count : Nat) : Workshop Bool Nat :=
  ({ sources := store none [true, false] } : Workshop Bool Nat).after (deeds.take count)

theorem reached_bench (count : Nat) : (bench count).Reached := ⟨_, _, rfl⟩

/-- The handle before the brackets have a body, while a parser that was put together from them is
all that is left, and after that one is gone, where no nesting is admitted at all. -/
theorem handle_life_bench :
    (((bench 1).parser 1 (.handle 0) .start).run (store none [true, false])).map Step.value =
      some (.error ⟨Message.undefinedRule, some true, 0⟩) ∧
    (bench 6).parser 3 (.handle 0) =
      Parser.nested ((bench 6).parser 2 (.rule 0 (.made bracketed [.handle 0]))) ∧
    ∀ more, ((((bench 7).after more).parser 1 (.handle 0) .start).run
        (store (some 0) [true, false])).map Step.value =
      some (.error ⟨Message.droppedRule, some true, 0⟩) := by
  refine ⟨?_, ?_, fun more => ?_⟩
  · obtain ⟨-, hundefined, -⟩ := Workshop.handle_life (reached_bench 1) (n := 0) (by decide)
    exact (hundefined (by decide) 0 .start (store none [true, false])).2 rfl
  · obtain ⟨-, -, hheld, -⟩ := Workshop.handle_life (reached_bench 6) (n := 0) (by decide +kernel)
    have hget : (bench 6).shelf.get? "captured" =
        some (.made renamed [.rule 0 (.made bracketed [.handle 0])]) := rfl
    exact hheld hget (.part List.mem_cons_self .itself) 2
  · obtain ⟨-, -, -, hdropped, -⟩ :=
      Workshop.handle_life (reached_bench 7) (n := 0) (by decide +kernel)
    have hentries : (bench 7).shelf.slots.entries = [("inner", ⟨.handle 0, []⟩)] := rfl
    have hholds : ¬ (bench 7).Holds 0 := by
      rw [(reached_bench 7).sound.not_holds_iff]
      intro entry hentry
      rw [hentries, List.mem_singleton] at hentry
      rw [hentry]
      exact Piece.not_holds_handle
    rw [hdropped (by decide +kernel) hholds more 0 .start (store (some 0) [true, false])]
    rfl

end Brackets

end Backtrack
