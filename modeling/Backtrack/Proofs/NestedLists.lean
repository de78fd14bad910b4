import Backtrack.Grammar.Derived
import Backtrack.Proofs.Repetition
import Backtrack.Proofs.SExpr
import Backtrack.Proofs.WholeParse

/-!
# Parsing Nested Lists

The grammar of nested lists has one rule: an atom, or an opening bracket, any number of nested
lists by the handle of the rule, and a closing bracket to which the grammar commits. Over any
tokens, all of the input is parsed as a nested list if and only if it is the text of that list
and the lists in it nest no deeper than the limit. The text of lists that nest deeper ends the
parse where the opening brackets first outnumber the closing ones by more than the limit.

Three facts are proved by induction on a nested list together with the lists of items in it: its
text is parsed, only its text is parsed as this list, and where it nests too deep the parse is
aborted. In each the parse goes from one attempt of the repetition to the next, and into the
items one reference deeper.

## Main definitions

* `Sources.Ahead`: the tokens that are left of a source, and how many references are admitted.
* `SExpr.grammar`: the grammar of nested lists.

## Main results

* `SExpr.yields_print`, `SExpr.of_yields`: what is parsed as a nested list.
* `SExpr.refused_print`: where the text of lists that nest too deep is refused.
* `SExpr.reads_within_limit`: both for parses to the end.
-/

namespace Backtrack

variable {τ α : Type}

/-! ### What is ahead -/

/-- The stream **behind some tokens** that begin at this one. -/
def Stream.behind (s : Stream) (tokens : List τ) : Stream := ⟨s.source, s.position + tokens.length⟩

namespace Stream

variable (s : Stream)

@[simp]
theorem behind_cons (token : τ) (tokens : List τ) :
    s.behind (token :: tokens) = s.advance.behind tokens := by
  simp only [behind, advance, List.length_cons]
  congr 1
  omega

@[simp]
theorem behind_append (xs ys : List τ) : s.behind (xs ++ ys) = (s.behind xs).behind ys := by
  simp only [behind, List.length_append, Nat.add_assoc]

end Stream

/-- At the position `s` of a source **the tokens `ahead` are left**, and `room` references more
are admitted under its limit. -/
structure Sources.Ahead (sources : Sources τ) (s : Stream) (limit room : Nat) (ahead : List τ) :
    Prop where
  lt : s.source < sources.next
  token_eq : ∀ i, sources.token ⟨s.source, s.position + i⟩ = ahead[i]?
  maxDepth : (sources.get s.source).config.maxDepth = some limit
  depth_add : (sources.get s.source).depth + room = limit

/-- The store behind a bracket at `s` that opens a list. It was first tried as an atom. -/
def Sources.opened (sources : Sources τ) (s : Stream) : Sources τ :=
  ((sources.look s).look s).look s

namespace Sources.Ahead

variable {sources last : Sources τ} {s : Stream} {limit room : Nat} {ahead : List τ}

/-- A new source over a list of tokens. -/
theorem buffered {config : Config} (hlimit : config.maxDepth = some limit) (tokens : List τ)
    (others : Sources τ) :
    (others.add (.buffered tokens config)).Ahead ⟨others.next, 0⟩ limit limit tokens := by
  have hget := others.get_add_next (.buffered tokens config)
  refine ⟨others.next_lt_next_add _, fun i => ?_, ?_, ?_⟩
  · rw [Sources.token, hget, Nat.zero_add]
    exact List.getElem?_toArray
  · rw [hget]
    exact hlimit
  · rw [hget]
    exact Nat.zero_add limit

theorem token (h : sources.Ahead s limit room ahead) : sources.token s = ahead[0]? :=
  h.token_eq 0

/-- Behind the first tokens there are the others. -/
theorem skip {skipped : List τ} (h : sources.Ahead s limit room (skipped ++ ahead)) :
    sources.Ahead (s.behind skipped) limit room ahead := by
  refine ⟨h.lt, fun i => ?_, h.maxDepth, h.depth_add⟩
  rw [Stream.behind, Nat.add_assoc, h.token_eq, List.getElem?_append_right (Nat.le_add_right _ _),
    Nat.add_sub_cancel_left]

theorem advance {token : τ} (h : sources.Ahead s limit room (token :: ahead)) :
    sources.Ahead s.advance limit room ahead := by
  rw [← List.singleton_append] at h
  exact h.skip

/-- Whatever leaves the source alike changes nothing of this. -/
theorem of_alike (h : sources.Ahead s limit room ahead)
    (halike : Sources.AlikeAt s.source s.source last sources) : last.Ahead s limit room ahead := by
  refine ⟨halike.first_lt, fun i => ?_, ?_, ?_⟩
  · rw [halike.token]
    exact h.token_eq i
  · rw [halike.alike.config_eq]
    exact h.maxDepth
  · rw [halike.alike.depth_eq]
    exact h.depth_add

theorem look (h : sources.Ahead s limit room ahead) {place : Stream}
    (hplace : place.source = s.source) : (sources.look place).Ahead s limit room ahead :=
  h.of_alike (.look h.lt hplace)

theorem opened {token : τ} (h : sources.Ahead s limit room (token :: ahead)) :
    (sources.opened s).Ahead s.advance limit room ahead :=
  (((h.look rfl).look rfl).look rfl).advance

/-- Where there is room, one more reference is admitted. -/
theorem admits (h : sources.Ahead s limit (room + 1) ahead) :
    (sources.get s.source).config.admits (sources.get s.source).depth = .ok () := by
  refine Config.admits_eq_ok_iff.mpr fun other hother => ?_
  obtain rfl := Option.some.inj (h.maxDepth.symm.trans hother)
  have hdepth := h.depth_add
  omega

/-- Where there is none, it is refused. -/
theorem refuses (h : sources.Ahead s limit 0 ahead) :
    (sources.get s.source).config.admits (sources.get s.source).depth = .error limit :=
  Config.admits_eq_error_iff.mpr ⟨h.maxDepth, Nat.le_of_eq h.depth_add.symm⟩

/-- One reference deeper there is room for one less. -/
theorem enter (h : sources.Ahead s limit (room + 1) ahead) :
    (sources.modify s.source .enter).Ahead s limit room ahead := by
  have hget := Sources.get_modify_self (f := Source.enter) h.lt
  refine ⟨?_, fun i => ?_, ?_, ?_⟩
  · rw [Sources.next_modify]
    exact h.lt
  · rw [Sources.token, hget]
    exact h.token_eq i
  · rw [hget]
    exact h.maxDepth
  · have hdepth := h.depth_add
    rw [hget]
    show (sources.get s.source).depth + 1 + room = limit
    omega

end Sources.Ahead

namespace SExpr

/-- A nested list takes the parse further. -/
theorem behind_print_ne (left right : τ) (t : SExpr τ) (s : Stream) :
    (s.behind (t.print left right)).position ≠ s.position :=
  Nat.ne_of_gt (Nat.lt_add_of_pos_right (length_print_pos left right t))

/-- The name of the only rule, whose values are nested lists. -/
def names (τ : Type) : Signature where
  Name := Unit
  Value _ := SExpr τ
  decEq := inferInstance

/-- An item of a list, which is a nested list again. -/
def item : Grammar (names τ) τ (SExpr τ) := .handle ()

theorem plain_item : (item : Grammar (names τ) τ (SExpr τ)).Plain := trivial

end SExpr

variable [Quote τ]

/-- A parse of a plain grammar leaves the same tokens ahead and the same room. -/
theorem Grammar.Plain.ahead_of_yields {σ : Signature} {rules : Rules σ τ} (hrules : rules.Plain)
    {scope : Scope σ τ} (hscope : scope.Plain) {g : Grammar σ τ α} (hg : g.Plain) {s : Stream}
    {sources last : Sources τ} {outcome : Outcome τ α} {limit room : Nat} {ahead : List τ}
    (hs : sources.Ahead s limit room ahead)
    (h : Grammar.Yields rules scope g s sources outcome last) :
    last.Ahead s limit room ahead := by
  obtain ⟨fuel, events, hrun⟩ := h
  exact hs.of_alike (((hg.composed hrules fuel hscope).course hrun).alike hs.lt)

/-! ### The grammar -/

namespace SExpr

open Grammar

variable [DecidableEq τ]

/-- An atom: any token but the brackets. -/
def atoms (left right : τ) : Grammar (names τ) τ τ :=
  .satisfy "atom" { accepts := fun token => token ≠ left ∧ token ≠ right }

/-- The items of a list between its brackets. Once the list is open it must be closed. -/
def lists (left right : τ) : Grammar (names τ) τ (List (SExpr τ)) :=
  ((token left).keepRight item.many).keepLeft (.commit (token right))

/-- An atom or a list. -/
def body (left right : τ) : Grammar (names τ) τ (SExpr τ) :=
  .orElse (.map .atom (atoms left right)) (.map .list (lists left right))

/-- **The grammar of nested lists.** -/
def grammar (left right : τ) : Grammar (names τ) τ (SExpr τ) :=
  .recursive () (body left right)

/-- The scope in which the rule is run. -/
abbrev inside (left right : τ) (scope : Scope (names τ) τ) : Scope (names τ) τ :=
  scope.rule () .defined (body left right)

theorem plain_inside (left right : τ) {scope : Scope (names τ) τ} (hscope : scope.Plain) :
    (inside left right scope).Plain :=
  ⟨hscope, trivial, ⟨trivial, trivial⟩, trivial⟩

section

variable {left right : τ} {rules : Rules (names τ) τ} {scope : Scope (names τ) τ} {s : Stream}
  {sources last : Sources τ}

theorem find?_inside : (inside left right scope).find? () =
    some ⟨.defined, body left right, inside left right scope⟩ :=
  Scope.find?_rule_self scope () _ _

/-! ### One level of the grammar -/

theorem yields_atom {token : τ} (h : sources.token s = some token) (hleft : token ≠ left)
    (hright : token ≠ right) :
    ∃ last, Yields rules scope (body left right) s sources (.ok (.atom token) s.advance) last := by
  have hatom : Yields rules scope (atoms left right) s sources (.ok token s.advance) _ :=
    yields_satisfy_accepted h (decide_eq_true ⟨hleft, hright⟩)
  exact ⟨_, yields_orElse_iff.mpr ⟨_, _, yields_map_iff.mpr ⟨_, hatom, rfl⟩, rfl, rfl⟩⟩

/-- Where there is no atom, a nested list is a list. -/
private theorem yields_body_iff {failure : Failure τ} {value : Outcome τ (SExpr τ)}
    {middle : Sources τ}
    (h : Yields rules scope (atoms left right) s sources (.fail failure) middle) :
    Yields rules scope (body left right) s sources value last ↔
      ∃ outcome, Yields rules scope (lists left right) s middle outcome last ∧
        value = outcome.map .list := by
  have hfail : Yields rules scope (.map SExpr.atom (atoms left right)) s sources (.fail failure)
      middle := yields_map_iff.mpr ⟨_, h, rfl⟩
  rw [body, yields_orElse_iff]
  constructor
  · rintro ⟨first, store, hfirst, hrest⟩
    obtain ⟨rfl, rfl⟩ := hfail.unique hfirst
    exact yields_map_iff.mp hrest
  · intro hrest
    exact ⟨_, _, hfail, yields_map_iff.mpr hrest⟩

/-- Where there is no bracket either, there is no nested list. -/
theorem yields_none (hne : left ≠ right)
    (h : sources.token s = none ∨ sources.token s = some right) :
    ∃ failure last, Yields rules scope (body left right) s sources (.fail failure) last := by
  have hatom : ∃ failure, Yields rules scope (atoms left right) s sources (.fail failure)
      (sources.look s) := by
    rcases h with h | h
    · exact ⟨_, yields_satisfy_end h⟩
    · exact ⟨_, yields_satisfy_rejected h (decide_eq_false fun hother => hother.2 rfl)⟩
  have hbracket : ∃ failure, Yields rules scope (token left) s (sources.look s) (.fail failure)
      ((sources.look s).look s) := by
    rw [← sources.token_look s s] at h
    rcases h with h | h
    · exact ⟨_, yields_satisfy_end h⟩
    · exact ⟨_, yields_satisfy_rejected h (decide_eq_false hne.symm)⟩
  obtain ⟨_, hatom⟩ := hatom
  obtain ⟨failure, hbracket⟩ := hbracket
  have hitems : Yields rules scope ((token left).keepRight item.many) s (sources.look s)
      (.fail failure) _ := yields_keepRight_iff.mpr ⟨_, _, hbracket, rfl, rfl⟩
  have hlists : Yields rules scope (lists left right) s (sources.look s) (.fail failure) _ :=
    yields_keepLeft_iff.mpr ⟨_, _, hitems, rfl, rfl⟩
  exact ⟨failure, _, (yields_body_iff hatom).mpr ⟨_, hlists, rfl⟩⟩

/-- **Behind an opening bracket** come the items, and then the closing bracket. -/
theorem yields_opened_iff {value : Outcome τ (SExpr τ)} (h : sources.token s = some left) :
    Yields rules scope (body left right) s sources value last ↔
      ∃ first middle, Yields rules scope item.many s.advance (sources.opened s) first middle ∧
        match first with
        | .ok items stop => ∃ second, Yields rules scope (.commit (token right)) stop middle second
            last ∧ value = second.map fun _ => .list items
        | .fail failure => value = .fail failure ∧ last = middle
        | .error failure => value = .error failure ∧ last = middle := by
  have hatom : Yields rules scope (atoms left right) s sources (.fail _) _ :=
    yields_satisfy_rejected h (decide_eq_false fun hother => hother.1 rfl)
  have hbracket : Yields rules scope (token left) s (sources.look s) (.ok left s.advance) _ :=
    yields_satisfy_accepted ((sources.token_look s s).trans h) (decide_eq_true rfl)
  rw [yields_body_iff hatom]
  constructor
  · rintro ⟨outcome, hlists, rfl⟩
    obtain ⟨first, middle, hfirst, hclose⟩ := yields_keepLeft_iff.mp hlists
    obtain ⟨bracket, store, hopen, hmany⟩ := yields_keepRight_iff.mp hfirst
    obtain ⟨rfl, rfl⟩ := hbracket.unique hopen
    refine ⟨first, middle, hmany, ?_⟩
    cases first with
    | ok items stop =>
        obtain ⟨second, hsecond, rfl⟩ := hclose
        exact ⟨second, hsecond, by cases second <;> rfl⟩
    | fail failure =>
        obtain ⟨rfl, rfl⟩ := hclose
        exact ⟨rfl, rfl⟩
    | error failure =>
        obtain ⟨rfl, rfl⟩ := hclose
        exact ⟨rfl, rfl⟩
  · rintro ⟨first, middle, hmany, hclose⟩
    have hfirst := yields_keepRight_iff.mpr ⟨_, _, hbracket, hmany⟩
    cases first with
    | ok items stop =>
        obtain ⟨second, hsecond, rfl⟩ := hclose
        exact ⟨_, yields_keepLeft_iff.mpr ⟨_, _, hfirst, second, hsecond, rfl⟩,
          by cases second <;> rfl⟩
    | fail failure =>
        obtain ⟨rfl, rfl⟩ := hclose
        exact ⟨_, yields_keepLeft_iff.mpr ⟨_, _, hfirst, rfl, rfl⟩, rfl⟩
    | error failure =>
        obtain ⟨rfl, rfl⟩ := hclose
        exact ⟨_, yields_keepLeft_iff.mpr ⟨_, _, hfirst, rfl, rfl⟩, rfl⟩

/-- The commitment to the closing bracket succeeds where that stands, and only there. -/
theorem yields_close_iff {token' : τ} {rest : Stream} :
    (∃ last, Yields rules scope (.commit (token right)) s sources (.ok token' rest) last) ↔
      sources.token s = some right ∧ token' = right ∧ rest = s.advance := by
  constructor
  · rintro ⟨last, h⟩
    obtain ⟨outcome, houtcome, hvalue⟩ := yields_commit_iff.mp h
    cases htoken : sources.token s with
    | none =>
        obtain ⟨rfl, -⟩ := houtcome.unique (yields_satisfy_end htoken)
        cases hvalue
    | some found =>
        by_cases hfound : found = right
        · obtain ⟨rfl, -⟩ :=
            houtcome.unique (yields_satisfy_accepted htoken (decide_eq_true hfound))
          obtain ⟨rfl, rfl⟩ := Outcome.ok.inj hvalue
          exact ⟨congrArg some hfound, hfound, rfl⟩
        · obtain ⟨rfl, -⟩ :=
            houtcome.unique (yields_satisfy_rejected htoken (decide_eq_false hfound))
          cases hvalue
  · rintro ⟨htoken, rfl, rfl⟩
    exact ⟨_, yields_commit_iff.mpr ⟨_, yields_satisfy_accepted htoken (decide_eq_true rfl), rfl⟩⟩

/-! ### Whole nested lists -/

/-- What is parsed with one reference more is parsed as an item, and the same is ahead
afterwards. -/
theorem yields_item (hrules : rules.Plain) (hscope : scope.Plain) {outcome : Outcome τ (SExpr τ)}
    {limit room : Nat} {ahead : List τ} (hs : sources.Ahead s limit (room + 1) ahead)
    (h : Yields rules (inside left right scope) (body left right) s
      (sources.modify s.source .enter) outcome last) :
    ∃ last, Yields rules (inside left right scope) item s sources outcome last ∧
      last.Ahead s limit (room + 1) ahead := by
  have hitem := (yields_handle_iff find?_inside hs.admits).mpr ⟨last, h, rfl⟩
  have hinside := plain_inside left right hscope
  exact ⟨_, hitem, Plain.ahead_of_yields hrules hinside plain_item hs hitem⟩

mutual

/-- **The text of nested lists is parsed** as these, where there is room for them. -/
theorem yields_print (hne : left ≠ right) (hrules : rules.Plain) (hscope : scope.Plain) :
    (t : SExpr τ) → t.Proper left right → ∀ {s : Stream} {sources : Sources τ}
      {limit room : Nat} {ahead : List τ},
      sources.Ahead s limit room (t.print left right ++ ahead) → t.nesting ≤ room →
      ∃ last, Yields rules (inside left right scope) (body left right) s sources
        (.ok t (s.behind (t.print left right))) last
  | .atom token, h => fun hs _ => yields_atom hs.token h.1 h.2
  | .list items, h => fun hs hroom => by
      obtain ⟨room, rfl⟩ := Nat.exists_eq_add_of_le' (Nat.le_trans (Nat.succ_pos _) hroom)
      rw [print_list_append] at hs
      have hinside := plain_inside left right hscope
      obtain ⟨middle, hitems, hmiddle⟩ :=
        successes_print hne hrules hscope items h hs.opened (Nat.le_of_succ_le_succ hroom)
      -- The attempt at the closing bracket fails, and ends the repetition.
      obtain ⟨failure, store, hnone⟩ := yields_none hne (.inr hmiddle.enter.token)
      obtain ⟨last, hend, -⟩ := yields_item hrules hscope hmiddle hnone
      have hmany := (yields_many_ok_iff hrules hinside plain_item).mpr
        ⟨middle, hitems, .inl ⟨failure, hend⟩⟩
      have hlast := Plain.ahead_of_yields (g := item.many) hrules hinside plain_item hs.opened hmany
      obtain ⟨closed, hclose⟩ := yields_close_iff.mpr ⟨hlast.skip.token, rfl, rfl⟩
      refine ⟨closed, ?_⟩
      rw [print, Stream.behind_cons, Stream.behind_append]
      exact (yields_opened_iff hs.token).mpr ⟨_, _, hmany, _, hclose, rfl⟩

/-- The text of several is parsed as one success behind the other. -/
theorem successes_print (hne : left ≠ right) (hrules : rules.Plain) (hscope : scope.Plain) :
    (items : List (SExpr τ)) → ProperAll left right items → ∀ {s : Stream} {sources : Sources τ}
      {limit room : Nat} {ahead : List τ},
      sources.Ahead s limit (room + 1) (printAll left right items ++ ahead) →
      nestingAll items ≤ room →
      ∃ last, Successes rules (inside left right scope) item s sources items
          (s.behind (printAll left right items)) last ∧
        last.Ahead (s.behind (printAll left right items)) limit (room + 1) ahead
  | [], _ => fun hs _ => ⟨_, .nil, hs⟩
  | item :: items, h => fun hs hroom => by
      obtain ⟨hitem, hitems⟩ := Nat.max_le.mp hroom
      rw [printAll, List.append_assoc] at hs
      obtain ⟨inner, hinner⟩ := yields_print hne hrules hscope item h.1 hs.enter hitem
      obtain ⟨middle, hfirst, hmiddle⟩ := yields_item hrules hscope hs hinner
      obtain ⟨last, hrest, hlast⟩ :=
        successes_print hne hrules hscope items h.2 hmiddle.skip hitems
      rw [printAll, Stream.behind_append]
      exact ⟨last, .cons hfirst (behind_print_ne left right item _) hrest, hlast⟩

end

/-- What is parsed as a nested list begins with an atom or with an opening bracket. -/
theorem of_yields_body (hne : left ≠ right) {t : SExpr τ} {rest : Stream} {limit room : Nat}
    {ahead : List τ} (hs : sources.Ahead s limit room ahead)
    (h : Yields rules scope (body left right) s sources (.ok t rest) last) :
    (∃ token tail, ahead = token :: tail ∧ token ≠ left ∧ token ≠ right ∧ t = .atom token ∧
      rest = s.advance) ∨
    ∃ tail items stop middle, ahead = left :: tail ∧ t = .list items ∧
      Yields rules scope item.many s.advance (sources.opened s) (.ok items stop) middle ∧
      middle.token stop = some right ∧ rest = stop.advance := by
  have hfails : ¬ (sources.token s = none ∨ sources.token s = some right) := fun hnone => by
    obtain ⟨failure, store, hfail⟩ : ∃ failure last, Yields rules scope (body left right) s sources
      (.fail failure) last := yields_none hne hnone
    cases (h.unique hfail).1
  cases ahead with
  | nil => exact absurd (.inl hs.token) hfails
  | cons token tail =>
      by_cases hleft : token = left
      · subst hleft
        obtain ⟨first, middle, hmany, hclose⟩ := (yields_opened_iff hs.token).mp h
        cases first with
        | ok items stop =>
            obtain ⟨second, hsecond, hvalue⟩ := hclose
            cases second with
            | ok bracket behind =>
                obtain ⟨rfl, rfl⟩ := Outcome.ok.inj hvalue
                obtain ⟨htoken, -, hbehind⟩ := yields_close_iff.mp ⟨last, hsecond⟩
                exact .inr ⟨tail, items, stop, middle, rfl, rfl, hmany, htoken, hbehind⟩
            | fail failure => cases hvalue
            | error failure => cases hvalue
        | fail failure => cases hclose.1
        | error failure => cases hclose.1
      · have hright : token ≠ right := fun hright => hfails (.inr (hright ▸ hs.token))
        obtain ⟨store, hatom⟩ : ∃ last, Yields rules scope (body left right) s sources
          (.ok (.atom token) s.advance) last := yields_atom hs.token hleft hright
        obtain ⟨rfl, rfl⟩ := Outcome.ok.inj (h.unique hatom).1
        exact .inl ⟨token, tail, rfl, hleft, hright, rfl, rfl⟩

/-- Where there is no room, an attempt at an item is refused, and so is the repetition. -/
theorem yields_items_refused {limit : Nat} {ahead : List τ} (hs : sources.Ahead s limit 0 ahead) :
    ∃ last, Yields rules (inside left right scope) item.many s sources
      (.error ⟨Message.recursionLimit limit, sources.token s, s.position⟩) last := by
  have hitem : Yields rules (inside left right scope) item s sources (.error _) _ :=
    yields_handle_refused find?_inside hs.refuses
  exact ⟨_, yields_many_iff.mpr (.halted (.aborted hitem))⟩

mutual

/-- **Only the text of nested lists is parsed** as these, and there is room for them. -/
theorem of_yields (hne : left ≠ right) (hrules : rules.Plain) (hscope : scope.Plain) :
    (t : SExpr τ) → (room : Nat) → ∀ {s rest : Stream} {sources last : Sources τ} {limit : Nat}
      {ahead : List τ}, sources.Ahead s limit room ahead →
      Yields rules (inside left right scope) (body left right) s sources (.ok t rest) last →
      t.Proper left right ∧ t.nesting ≤ room ∧
        ∃ tail, ahead = t.print left right ++ tail ∧ rest = s.behind (t.print left right)
  | .atom token, room => fun hs h => by
      obtain ⟨token', tail, rfl, hleft, hright, ht, rfl⟩ | ⟨_, _, _, _, _, ht, _⟩ :=
        of_yields_body hne hs h
      · obtain rfl := SExpr.atom.inj ht
        exact ⟨⟨hleft, hright⟩, Nat.zero_le _, tail, rfl, rfl⟩
      · cases ht
  | .list items, 0 => fun hs h => by
      obtain ⟨_, _, _, _, _, ht, _⟩ | ⟨tail, items', stop, middle, rfl, ht, hmany, hclose, rfl⟩ :=
        of_yields_body hne hs h
      · cases ht
      · -- Even to find that a list is empty, an item is attempted.
        obtain ⟨store, hrefused⟩ := yields_items_refused hs.opened
        cases (hmany.unique hrefused).1
  | .list items, room + 1 => fun hs h => by
      obtain ⟨_, _, _, _, _, ht, _⟩ | ⟨tail, items', stop, middle, rfl, ht, hmany, hclose, rfl⟩ :=
        of_yields_body hne hs h
      · cases ht
      · obtain rfl := SExpr.list.inj ht
        have hinside := plain_inside left right hscope
        have hmiddle := Plain.ahead_of_yields (g := item.many) hrules hinside plain_item hs.opened
          hmany
        obtain ⟨store, hitems, -⟩ := (yields_many_ok_iff hrules hinside plain_item).mp hmany
        obtain ⟨hproper, hnesting, behind, rfl, rfl⟩ :=
          of_successes hne hrules hscope items room hs.opened hitems
        rw [hmiddle.skip.token] at hclose
        obtain ⟨tail, rfl⟩ : ∃ tail, behind = right :: tail := by
          cases behind with
          | nil => cases hclose
          | cons token tail => exact ⟨tail, congrArg (· :: tail) (Option.some.inj hclose)⟩
        refine ⟨hproper, Nat.succ_le_succ hnesting, tail, ?_, ?_⟩
        · rw [print_list_append]
        · rw [print, Stream.behind_cons, Stream.behind_append]
          rfl

/-- So is a chain of successes. -/
theorem of_successes (hne : left ≠ right) (hrules : rules.Plain) (hscope : scope.Plain) :
    (items : List (SExpr τ)) → (room : Nat) → ∀ {s stop : Stream} {sources last : Sources τ}
      {limit : Nat} {ahead : List τ}, sources.Ahead s limit (room + 1) ahead →
      Successes rules (inside left right scope) item s sources items stop last →
      ProperAll left right items ∧ nestingAll items ≤ room ∧
        ∃ tail, ahead = printAll left right items ++ tail ∧
          stop = s.behind (printAll left right items)
  | [], room => fun hs h => by
      cases h with
      | nil => exact ⟨trivial, Nat.zero_le _, _, rfl, rfl⟩
  | item :: items, room => fun hs h => by
      cases h with
      | cons hfirst _ hrest =>
          obtain ⟨inner, hbody, rfl⟩ := (yields_handle_iff find?_inside hs.admits).mp hfirst
          obtain ⟨hitem, hdeep, tail, rfl, rfl⟩ :=
            of_yields hne hrules hscope item room hs.enter hbody
          have hinside := plain_inside left right hscope
          have hmiddle := Plain.ahead_of_yields hrules hinside plain_item hs hfirst
          obtain ⟨hitems, hdeeper, behind, rfl, rfl⟩ :=
            of_successes hne hrules hscope items room hmiddle.skip hrest
          refine ⟨⟨hitem, hitems⟩, Nat.max_le.mpr ⟨hdeep, hdeeper⟩, behind, ?_, ?_⟩
          · rw [printAll, List.append_assoc]
          · rw [printAll, Stream.behind_append]

end

mutual

/-- **The text of lists that nest too deep is refused** where the surplus of opening brackets first
exceeds the room. -/
theorem refused_print (hne : left ≠ right) (hrules : rules.Plain) (hscope : scope.Plain) :
    (t : SExpr τ) → t.Proper left right → (room : Nat) → ∀ {s : Stream} {sources : Sources τ}
      {limit : Nat} {ahead : List τ},
      sources.Ahead s limit room (t.print left right ++ ahead) → room < t.nesting →
      ∃ i last, Rises left right (room + 1) (t.print left right) i ∧
        Yields rules (inside left right scope) (body left right) s sources
          (.error ⟨Message.recursionLimit limit, (t.print left right ++ ahead)[i]?, s.position + i⟩)
          last
  | .atom token, _, room => fun _ hroom => absurd hroom (Nat.not_lt_zero _)
  | .list items, h, 0 => fun hs _ => by
      rw [print_list_append] at hs ⊢
      obtain ⟨last, hrefused⟩ := yields_items_refused hs.opened
      rw [hs.opened.token] at hrefused
      exact ⟨1, last, (rises_zero _).cons_left hne,
        (yields_opened_iff hs.token).mpr ⟨_, _, hrefused, rfl, rfl⟩⟩
  | .list items, h, room + 1 => fun hs hroom => by
      rw [print_list_append] at hs ⊢
      obtain ⟨i, last, hrises, hrefused⟩ :=
        refused_printAll hne hrules hscope items h room hs.opened (Nat.lt_of_succ_lt_succ hroom)
      refine ⟨i + 1, last, (hrises.append_right _).cons_left hne,
        (yields_opened_iff hs.token).mpr ⟨_, _, hrefused, ?_, rfl⟩⟩
      rw [List.getElem?_cons_succ, Stream.advance, Nat.add_assoc, Nat.add_comm 1 i]

/-- Among several, it is refused in the first that nests too deep. -/
theorem refused_printAll (hne : left ≠ right) (hrules : rules.Plain) (hscope : scope.Plain) :
    (items : List (SExpr τ)) → ProperAll left right items → (room : Nat) → ∀ {s : Stream}
      {sources : Sources τ} {limit : Nat} {ahead : List τ},
      sources.Ahead s limit (room + 1) (printAll left right items ++ ahead) →
      room < nestingAll items →
      ∃ i last, Rises left right (room + 1) (printAll left right items) i ∧
        Yields rules (inside left right scope) item.many s sources
          (.error ⟨Message.recursionLimit limit, (printAll left right items ++ ahead)[i]?,
            s.position + i⟩) last
  | [], _, room => fun _ hroom => absurd hroom (Nat.not_lt_zero _)
  | item :: items, h, room => fun hs hroom => by
      rw [printAll, List.append_assoc] at hs ⊢
      rcases Nat.lt_or_ge room item.nesting with hdeep | hshallow
      · obtain ⟨i, inner, hrises, hinner⟩ :=
          refused_print hne hrules hscope item h.1 room hs.enter hdeep
        obtain ⟨last, hitem, -⟩ := yields_item hrules hscope hs hinner
        exact ⟨i, last, hrises.append_right _, yields_many_iff.mpr (.halted (.aborted hitem))⟩
      · have hlater : room < nestingAll items := by
          rw [nestingAll] at hroom
          omega
        obtain ⟨inner, hinner⟩ := yields_print hne hrules hscope item h.1 hs.enter hshallow
        obtain ⟨middle, hfirst, hmiddle⟩ := yields_item hrules hscope hs hinner
        obtain ⟨i, last, hrises, hrefused⟩ :=
          refused_printAll hne hrules hscope items h.2 room hmiddle.skip hlater
        -- The first item is parsed, and its balanced text does not rise as far.
        have hmoved := Repeats.moved hfirst (behind_print_ne left right item _)
          (yields_many_iff.mp hrefused)
        refine ⟨_, last, hrises.append_left (surplus_print hne item h.1) ?_, yields_many_iff.mpr ?_⟩
        · intro j
          have hbelow := surplus_take_print_le hne item h.1 j
          omega
        · rw [List.getElem?_append_right (Nat.le_add_right _ _), Nat.add_sub_cancel_left,
            ← Nat.add_assoc]
          exact hmoved

end

/-! ### Parses to the end -/

/-- What a parse of all `tokens` as a nested list **reads**, from the start of a new source with the
settings `config` among the others of a store. -/
def Reads (rules : Rules (names τ) τ) (scope : Scope (names τ) τ) (left right : τ)
    (others : Sources τ) (config : Config) (tokens : List τ)
    (result : Except ParseError (SExpr τ)) : Prop :=
  ∃ last, ParsesToEnd rules scope (grammar left right) ⟨others.next, 0⟩
    (others.add (.buffered tokens config)) result last

/-- **The grammar of nested lists is correct**, with any tokens as brackets and under any limit:
it reads the texts of the nested lists that stay within the limit, each as what it is the text
of, and nothing else. The text of lists that nest deeper is refused where the surplus of opening
brackets first exceeds the limit. -/
theorem reads_within_limit (hne : left ≠ right) (hrules : rules.Plain) (hscope : scope.Plain)
    {config : Config} {limit : Nat} (hlimit : config.maxDepth = some limit) (others : Sources τ) :
    (∀ tokens t, Reads rules scope left right others config tokens (.ok t) ↔
      t.Proper left right ∧ tokens = t.print left right ∧ t.nesting ≤ limit) ∧
    ∀ t : SExpr τ, t.Proper left right → limit < t.nesting →
      ∃ i, Rises left right (limit + 1) (t.print left right) i ∧
        Reads rules scope left right others config (t.print left right)
          (.error
            (.fatal (Message.recursionLimit limit) ((t.print left right)[i]?.map quote) i)) := by
  have hinside := plain_inside left right hscope
  have hnew : ∀ tokens : List τ, (others.add (.buffered tokens config)).Ahead
      ⟨others.next, 0⟩ limit limit tokens := fun tokens => .buffered hlimit tokens others
  have hwhole : ∀ t : SExpr τ, (others.add (.buffered (t.print left right) config)).Ahead
      ⟨others.next, 0⟩ limit limit (t.print left right ++ []) := fun t => by
    rw [List.append_nil]
    exact hnew _
  refine ⟨fun tokens t => ⟨?_, ?_⟩, fun t hproper hdeep => ?_⟩
  · rintro ⟨last, hparse⟩
    obtain ⟨rest, middle, hyields, hnone, -⟩ := parsesToEnd_ok_iff.mp hparse
    have hbody := yields_recursive_iff.mp hyields
    obtain ⟨hproper, hnesting, tail, rfl, rfl⟩ :=
      of_yields hne hrules hscope t limit (hnew tokens) hbody
    have hmiddle := Plain.ahead_of_yields hrules hinside hinside.2 (hnew _) hbody
    rw [hmiddle.skip.token] at hnone
    obtain rfl : tail = [] := List.eq_nil_of_length_eq_zero
      (Nat.le_zero.mp (List.getElem?_eq_none_iff.mp hnone))
    exact ⟨hproper, List.append_nil _, hnesting⟩
  · rintro ⟨hproper, rfl, hnesting⟩
    obtain ⟨middle, hbody⟩ := yields_print hne hrules hscope t hproper (hwhole t) hnesting
    have hmiddle := Plain.ahead_of_yields hrules hinside hinside.2 (hwhole t) hbody
    exact ⟨_, parsesToEnd_ok_iff.mpr
      ⟨_, middle, yields_recursive_iff.mpr hbody, hmiddle.skip.token, rfl⟩⟩
  · obtain ⟨i, last, hrises, hbody⟩ :=
      refused_print hne hrules hscope t hproper limit (hwhole t) hdeep
    rw [List.append_nil, Nat.zero_add] at hbody
    exact ⟨i, hrises, last, parsesToEnd_fatal_iff.mpr
      ⟨_, yields_recursive_iff.mpr hbody, rfl, rfl, rfl⟩⟩

/-- An empty list in a list is read under a limit of two. Under a limit of one it is refused behind
the second opening bracket. -/
theorem reads_within_limit_nested :
    Reads (fun _ => .fail "no rule") .empty '<' '>' {} (Config.standard.withMaxDepth 2)
      ['<', 'x', '<', '>', '>'] (.ok (.list [.atom 'x', .list []])) ∧
    Reads (fun _ => .fail "no rule") .empty '<' '>' {} (Config.standard.withMaxDepth 1)
      ['<', 'x', '<', '>', '>']
        (.error (.fatal (Message.recursionLimit 1) (some (quote '>')) 3)) := by
  have hne : '<' ≠ '>' := by decide
  have hrules : Rules.Plain (fun _ => .fail "no rule" : Rules (names Char) Char) :=
    fun _ => trivial
  have hscope : (Scope.empty : Scope (names Char) Char).Plain := trivial
  let t : SExpr Char := .list [.atom 'x', .list []]
  have hproper : t.Proper '<' '>' := ⟨⟨by decide, by decide⟩, trivial, trivial⟩
  constructor
  · exact ((reads_within_limit hne hrules hscope rfl {}).1 _ t).mpr ⟨hproper, rfl, by decide⟩
  · have hdeep : 1 < t.nesting := by decide
    have hlimit : (Config.standard.withMaxDepth 1).maxDepth = some 1 := rfl
    obtain ⟨i, hrises, hreads⟩ :=
      (reads_within_limit hne hrules hscope hlimit {}).2 t hproper hdeep
    have hthree : Rises '<' '>' 2 (t.print '<' '>') 3 := ⟨by decide, by decide⟩
    obtain rfl := hrises.unique hthree
    exact hreads

end

end SExpr

end Backtrack
