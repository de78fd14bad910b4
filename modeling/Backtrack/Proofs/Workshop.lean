import Backtrack.Parser.Nesting
import Backtrack.Proofs.Ledger
import Backtrack.Rule.Shelf

/-!
# A Workshop of Parsers

Parsers are put together from parsers, copied, run and dropped, in any order. What a parser does
when it is run depends on the rules behind its handles, and whether a rule is there depends on
what became of the parsers that hold it.

A piece is a parser with the way in which it was put together, so that it can be told what it
holds. It owns the rules that it is or was put together from, and through the body of a rule those
that the body was put together from; a handle owns nothing. A workshop keeps pieces on a shelf, and
keeps a ledger of the slots of their rules besides. The shelf knows all the rules that a register
keeps alive. The ledger counts the owners of each slot, where the body of a rule is an owner too,
and finds out what is left when a register is emptied by letting go of one thing after another.

## Main definitions

* `Piece`: a parser with the way in which it was put together.
* `Piece.Within`: what a piece consists of.
* `Workshop`, `Deed`, `Workshop.perform`: what can be done.
* `Workshop.parser`: the parser that a piece is, at the time.
* `Workshop.Sound`: the shelf and the ledger are right about the pieces.

## Main results

* `Workshop.Sound.perform`, `Workshop.Sound.after`: they stay right, whatever is done.
* `Workshop.Sound.pos_of_holds`, `Workshop.Sound.holds_of_pos`: a rule is owned when it is held.
* `Workshop.Sound.phase_eq`: they agree on the life of every rule.
-/

namespace Backtrack

/-! ### Registers -/

namespace Registers

variable {α : Type}

/-- No name is in use twice. -/
def Distinct (r : Registers α) : Prop := (r.entries.map Prod.fst).Nodup

/-- **Every register** holds something with the property `P`. -/
def Each (r : Registers α) (P : α → Prop) : Prop := ∀ entry ∈ r.entries, P entry.2

variable {r : Registers α} {P : α → Prop}

theorem Distinct.erase (h : r.Distinct) (name : String) : (r.erase name).Distinct :=
  List.Nodup.sublist (List.Sublist.map _ List.filter_sublist) h

theorem Distinct.put (h : r.Distinct) (name : String) (value : α) :
    (r.put name value).Distinct := by
  refine List.nodup_cons.mpr ⟨fun hmem => ?_, h.erase name⟩
  obtain ⟨entry, hentry, hname⟩ := List.mem_map.mp hmem
  have hkept := (List.mem_filter.mp hentry).2
  simp [hname] at hkept

theorem Each.erase (h : r.Each P) (name : String) : (r.erase name).Each P :=
  fun entry hentry => h entry (List.mem_filter.mp hentry).1

theorem Each.put (h : r.Each P) (name : String) {value : α} (hvalue : P value) :
    (r.put name value).Each P := by
  intro entry hentry
  rcases List.mem_cons.mp hentry with rfl | hentry
  · exact hvalue
  · exact h.erase name entry hentry

theorem mem_of_get? {name : String} {value : α} (h : r.get? name = some value) :
    (name, value) ∈ r.entries := by
  obtain ⟨entries⟩ := r
  simp only [get?] at h ⊢
  induction entries with
  | nil => cases h
  | cons entry entries ih =>
      rw [List.lookup_cons] at h
      by_cases hname : name = entry.1
      · simp only [hname, beq_self_eq_true, Option.some.injEq] at h
        rw [hname, ← h]
        exact List.mem_cons_self
      · simp only [beq_eq_false_iff_ne.mpr hname] at h
        exact List.mem_cons_of_mem _ (ih h)

theorem Each.get? (h : r.Each P) {name : String} {value : α} (hvalue : r.get? name = some value) :
    P value :=
  h _ (mem_of_get? hvalue)

/-- Where names are distinct, a register holds what is written under its name. -/
theorem Distinct.get?_eq_some_iff (h : r.Distinct) {name : String} {value : α} :
    r.get? name = some value ↔ (name, value) ∈ r.entries := by
  refine ⟨mem_of_get?, fun hmem => ?_⟩
  obtain ⟨entries⟩ := r
  simp only [Distinct, get?] at h hmem ⊢
  induction entries with
  | nil => cases hmem
  | cons entry entries ih =>
      rw [List.map_cons, List.nodup_cons] at h
      rw [List.lookup_cons]
      rcases List.mem_cons.mp hmem with rfl | hmem
      · simp
      · have hname : name ≠ entry.1 := fun heq =>
          h.1 (heq ▸ List.mem_map.mpr ⟨_, hmem, rfl⟩)
        simp only [beq_eq_false_iff_ne.mpr hname]
        exact ih h.2 hmem

/-- What a register holds, and what the others hold when it is emptied, is what all of them
hold. -/
theorem Distinct.perm_erase (h : r.Distinct) (name : String) :
    (((r.get? name).map fun value => (name, value)).toList ++ (r.erase name).entries).Perm
      r.entries := by
  obtain ⟨entries⟩ := r
  simp only [Distinct, get?, Registers.erase] at h ⊢
  induction entries with
  | nil => exact .refl _
  | cons entry entries ih =>
      rw [List.map_cons, List.nodup_cons] at h
      have hrest := ih h.2
      rw [List.lookup_cons, List.filter_cons]
      by_cases hname : name = entry.1
      · -- No other register has the name.
        have hnone : entries.lookup name = none := by
          rw [List.lookup_eq_none_iff]
          intro other hother
          exact bne_iff_ne.mpr fun heq => h.1 (hname ▸ heq ▸ List.mem_map.mpr ⟨_, hother, rfl⟩)
        rw [hnone] at hrest
        simp only [hname, beq_self_eq_true, bne_self_eq_false, Bool.false_eq_true, if_false]
          at hrest ⊢
        exact hrest.cons entry
      · have hkeep : (entry.1 != name) = true := bne_iff_ne.mpr (Ne.symm hname)
        simp only [beq_eq_false_iff_ne.mpr hname, hkeep, if_true]
        exact List.perm_middle.trans (hrest.cons entry)

end Registers

/-! ### Pieces -/

/-- **A parser with the way in which it was put together.** -/
inductive Piece (τ α : Type) where
  /-- The handle of a rule. -/
  | handle (number : Nat)
  /-- A rule with its body. -/
  | rule (number : Nat) (body : Piece τ α)
  /-- What `combine` makes of other parsers; without any, a primitive. -/
  | made (combine : List (Parser τ α) → Parser τ α) (parts : List (Piece τ α))

namespace Piece

variable {τ α : Type}

/-- **What a piece consists of**: itself, the body of its rule, what was put together. A handle
consists of nothing but itself. -/
inductive Within (q : Piece τ α) : Piece τ α → Prop where
  | itself : Within q q
  | body {number : Nat} {body : Piece τ α} : Within q body → Within q (rule number body)
  | part {combine : List (Parser τ α) → Parser τ α} {parts : List (Piece τ α)} {p : Piece τ α} :
      p ∈ parts → Within q p → Within q (made combine parts)

/-- A piece **holds a rule**: it is the rule or was put together from it, directly or not. -/
def Holds (p : Piece τ α) (n : Nat) : Prop := ∃ body, (rule n body).Within p

/-- The rules in a piece have the bodies that are told. -/
def Genuine (p : Piece τ α) (bodies : Nat → Option (Piece τ α)) : Prop :=
  ∀ n body, (rule n body).Within p → bodies n = some body

mutual

/-- The slots that a piece owns, as often as it owns them. -/
def owns : Piece τ α → List Nat
  | handle _ => []
  | rule number _ => [number]
  | made _ parts => ownsAll parts

/-- The slots that pieces own. -/
def ownsAll : List (Piece τ α) → List Nat
  | [] => []
  | p :: ps => p.owns ++ ownsAll ps

end

mutual

/-- **The parser that a piece is**, where handles are run by `call`. -/
def parser (call : Nat → Parser τ α) : Piece τ α → Parser τ α
  | handle number => call number
  | rule _ body => body.parser call
  | made combine parts => combine (parsers call parts)

/-- The parsers that pieces are. -/
def parsers (call : Nat → Parser τ α) : List (Piece τ α) → List (Parser τ α)
  | [] => []
  | p :: ps => p.parser call :: parsers call ps

end

theorem mem_ownsAll {ps : List (Piece τ α)} {n : Nat} :
    n ∈ ownsAll ps ↔ ∃ p ∈ ps, n ∈ p.owns := by
  induction ps with
  | nil => simp [ownsAll]
  | cons p ps ih => simp [ownsAll, ih]

theorem Within.trans {p q r : Piece τ α} (h : r.Within q) (hq : q.Within p) : r.Within p := by
  induction hq with
  | itself => exact h
  | body _ ih => exact .body ih
  | part hmem _ ih => exact .part hmem ih

theorem Within.sizeOf_le {p q : Piece τ α} (h : q.Within p) : sizeOf q ≤ sizeOf p := by
  induction h with
  | itself => exact Nat.le_refl _
  | body _ ih =>
      rw [rule.sizeOf_spec]
      omega
  | part hmem _ ih =>
      have := List.sizeOf_lt_of_mem hmem
      rw [made.sizeOf_spec]
      omega

/-- What a piece owns it holds. -/
theorem holds_of_mem_owns {n : Nat} : {p : Piece τ α} → n ∈ p.owns → p.Holds n
  | handle _, h => nomatch h
  | rule _ body, h => by
      obtain rfl := List.mem_singleton.mp h
      exact ⟨body, .itself⟩
  | made _ parts, h => by
      obtain ⟨p, hp, hn⟩ := mem_ownsAll.mp h
      obtain ⟨body, hbody⟩ := holds_of_mem_owns hn
      exact ⟨body, .part hp hbody⟩

theorem holds_made_iff {combine : List (Parser τ α) → Parser τ α} {parts : List (Piece τ α)}
    {n : Nat} : (made combine parts).Holds n ↔ ∃ p ∈ parts, p.Holds n := by
  constructor
  · rintro ⟨body, h⟩
    cases h with
    | part hp hbody => exact ⟨_, hp, body, hbody⟩
  · rintro ⟨p, hp, body, hbody⟩
    exact ⟨body, .part hp hbody⟩

theorem holds_rule_iff {number n : Nat} {body : Piece τ α} :
    (rule number body).Holds n ↔ n = number ∨ body.Holds n := by
  constructor
  · rintro ⟨inner, h⟩
    cases h with
    | itself => exact .inl rfl
    | body hinner => exact .inr ⟨inner, hinner⟩
  · rintro (rfl | ⟨inner, hinner⟩)
    · exact ⟨body, .itself⟩
    · exact ⟨inner, .body hinner⟩

theorem not_holds_handle {number n : Nat} : ¬ (handle number : Piece τ α).Holds n := by
  rintro ⟨body, h⟩
  cases h

/-- What is told of more bodies is told of these. -/
theorem Genuine.mono {p : Piece τ α} {bodies others : Nat → Option (Piece τ α)}
    (h : p.Genuine bodies) (hmono : ∀ n body, bodies n = some body → others n = some body) :
    p.Genuine others :=
  fun n body hbody => hmono n body (h n body hbody)

end Piece

/-! ### Workshops -/

/-- **A workshop**: pieces on a shelf and a ledger of the slots of their rules. -/
structure Workshop (τ α : Type) where
  /-- The pieces, in registers. -/
  shelf : Shelf (Piece τ α) := {}
  /-- The slots of the rules. -/
  ledger : Ledger := {}
  /-- The bodies that were given to rules. -/
  bodies : Nat → Option (Piece τ α) := fun _ => none
  /-- What the parsers are run on. -/
  sources : Sources τ

/-- What can be done in a workshop. -/
inductive Deed (τ α : Type) where
  /-- Makes a slot for a rule and puts the handle into a register. -/
  | declare (into : String)
  /-- Puts parsers together and makes the result the body of a rule; the rule goes into a
  register. -/
  | define (number : Nat) (combine : List (Parser τ α) → Parser τ α) (parts : List String)
      (into : String)
  /-- Puts parsers together. -/
  | build (combine : List (Parser τ α) → Parser τ α) (parts : List String) (into : String)
  /-- Copies a parser. -/
  | copy (on into : String)
  /-- Empties a register. -/
  | drop (on : String)
  /-- Runs a parser with some fuel. -/
  | run (on : String) (fuel : Nat) (start : Stream)

namespace Workshop

variable {τ α : Type}

/-- The pieces in the registers that are named. -/
def pieces (w : Workshop τ α) (parts : List String) : List (Piece τ α) :=
  parts.filterMap w.shelf.get?

/-- The slots that the piece in a register owns. -/
def owned (w : Workshop τ α) (name : String) : List Nat :=
  ((w.shelf.get? name).map Piece.owns).getD []

/-- How a handle is run with the given fuel, one unit for each handle within another. -/
def call (w : Workshop τ α) : (fuel : Nat) → (number : Nat) → Parser τ α
  | 0, _ => fun _ => Run.exhausted
  | fuel + 1, number =>
    Parser.handle (w.shelf.phase number)
      (((w.bodies number).map (Piece.parser (w.call fuel))).getD fun _ => Run.exhausted)

/-- **The parser that a piece is** at the time. -/
def parser (w : Workshop τ α) (fuel : Nat) (p : Piece τ α) : Parser τ α :=
  p.parser (w.call fuel)

/-- Gives a rule its body, which was built from the parsers in the registers `parts`, and puts the
rule into a register. -/
def install (w : Workshop τ α) (number : Nat) (body : Piece τ α) (parts : List String)
    (into : String) : Workshop τ α :=
  { w with
    shelf := w.shelf.define number (some into) (.rule number body) parts
    ledger := ((w.ledger.hold body.owns).define number body.owns).release (w.owned into)
    bodies := Function.update w.bodies number (some body) }

/-- **One deed.** Whatever a register held before is let go when something new is put there. -/
def perform (w : Workshop τ α) : Deed τ α → Workshop τ α
  | .declare into =>
    { w with
      shelf := w.shelf.declare.2.put (some into) (.handle w.shelf.declared) []
      ledger := w.ledger.declare.release (w.owned into) }
  | .define number combine parts into =>
    if number < w.shelf.declared ∧ number ∉ w.shelf.defined then
      w.install number (.made combine (w.pieces parts)) parts into
    else w
  | .build combine parts into =>
    let piece := Piece.made combine (w.pieces parts)
    { w with
      shelf := w.shelf.put (some into) piece parts
      ledger := (w.ledger.hold piece.owns).release (w.owned into) }
  | .copy on into =>
    { w with
      shelf := w.shelf.copy on (some into)
      ledger := if (w.shelf.get? on).isSome then
        (w.ledger.hold (w.owned on)).release (w.owned into) else w.ledger }
  | .drop on =>
    { w with shelf := w.shelf.drop on, ledger := w.ledger.release (w.owned on) }
  | .run on fuel start =>
    { w with
      sources := ((w.shelf.get? on).bind fun p => (w.parser fuel p start).run w.sources).elim
        w.sources Step.sources }

/-- Deeds one after another. -/
def after (w : Workshop τ α) (deeds : List (Deed τ α)) : Workshop τ α :=
  deeds.foldl perform w

/-- Some register holds a piece that holds the rule. -/
def Holds (w : Workshop τ α) (n : Nat) : Prop :=
  ∃ name p, w.shelf.get? name = some p ∧ p.Holds n

/-- The rules that are being made, each owned by its maker. -/
def pending (shelf : Shelf (Piece τ α)) : List Nat :=
  (List.range shelf.declared).filter (· ∉ shelf.defined)

/-- The slots that the pieces in registers own. -/
def shelved (slots : Registers (Holding (Piece τ α))) : List Nat :=
  slots.entries.flatMap fun entry => entry.2.item.owns

/-- Whoever owns a slot outside all bodies: the makers of rules, and the registers. -/
def owners (w : Workshop τ α) : List Nat := pending w.shelf ++ shelved w.shelf.slots

/-- **The shelf and the ledger are right about the pieces.** -/
structure Sound (w : Workshop τ α) : Prop where
  /-- No register is there twice. -/
  distinct : w.shelf.slots.Distinct
  /-- There is a slot for every rule that was declared. -/
  next : w.ledger.next = w.shelf.declared
  /-- A rule has a body when it is defined. -/
  defined : ∀ n, n ∈ w.shelf.defined ↔ ∃ body, w.bodies n = some body
  /-- A rule is declared before it is defined. -/
  declared : ∀ n ∈ w.shelf.defined, n < w.shelf.declared
  /-- The ledger counts the owners. -/
  accounts : w.ledger.Accounts (fun n => (w.bodies n).map Piece.owns) w.owners
  /-- A register keeps alive what its piece holds. -/
  keeps : w.shelf.slots.Each fun holding => ∀ n, n ∈ holding.keeps ↔ holding.item.Holds n
  /-- The rules in the pieces have the bodies that they were given. -/
  genuine : w.shelf.slots.Each fun holding => holding.item.Genuine w.bodies
  /-- So have the rules in the bodies. -/
  bodies_genuine : ∀ n body, w.bodies n = some body → body.Genuine w.bodies

/-! ### What registers hold -/

theorem get?_eq_some_iff {w : Workshop τ α} {name : String} {p : Piece τ α} :
    w.shelf.get? name = some p ↔
      ∃ holding, w.shelf.slots.get? name = some holding ∧ holding.item = p :=
  Option.map_eq_some_iff

theorem mem_shelved {slots : Registers (Holding (Piece τ α))} {n : Nat} :
    n ∈ shelved slots ↔ ∃ entry ∈ slots.entries, n ∈ entry.2.item.owns := by
  simp [shelved]

/-- A register that is emptied gives up what its piece owned. -/
theorem count_erase {w : Workshop τ α} (h : w.Sound) (name : String) (n : Nat) :
    (w.owned name).count n + (shelved (w.shelf.slots.erase name)).count n =
      (shelved w.shelf.slots).count n := by
  have howned : w.owned name =
      (((w.shelf.slots.get? name).map fun holding => (name, holding)).toList).flatMap
        fun entry => entry.2.item.owns := by
    rw [owned, Shelf.get?]
    cases w.shelf.slots.get? name <;> simp
  have hperm := (h.distinct.perm_erase name).flatMap_right fun entry => entry.2.item.owns
  rw [List.flatMap_append] at hperm
  rw [howned, ← List.count_append]
  exact hperm.count_eq n

/-- A register that is written gives up what it owned and takes on what it owns now. -/
theorem count_put {w : Workshop τ α} (h : w.Sound) (name : String)
    (holding : Holding (Piece τ α)) (n : Nat) :
    (w.owned name).count n + (shelved (w.shelf.slots.put name holding)).count n =
      holding.item.owns.count n + (shelved w.shelf.slots).count n := by
  have hput : (shelved (w.shelf.slots.put name holding)).count n =
      holding.item.owns.count n + (shelved (w.shelf.slots.erase name)).count n := by
    rw [shelved, Registers.put, List.flatMap_cons, List.count_append]
    rfl
  rw [hput, ← count_erase h name]
  omega

/-- A rule is pending when it is declared and not yet defined. -/
theorem count_pending (shelf : Shelf (Piece τ α)) (n : Nat) :
    (pending shelf).count n = if n < shelf.declared ∧ n ∉ shelf.defined then 1 else 0 := by
  rw [pending, List.Nodup.count (List.nodup_range.filter _)]
  simp

/-- What a piece in a register owns is owned. -/
theorem pos_of_mem_owns {w : Workshop τ α} {name : String} {p : Piece τ α}
    (hp : w.shelf.get? name = some p) {n : Nat} (hn : n ∈ p.owns) :
    0 < w.owners.count n + w.ledger.references n := by
  obtain ⟨holding, hslot, rfl⟩ := get?_eq_some_iff.mp hp
  have hmem : n ∈ w.owners :=
    List.mem_append_right _ (mem_shelved.mpr ⟨_, Registers.mem_of_get? hslot, hn⟩)
  have := List.count_pos_iff.mpr hmem
  omega

/-- What pieces in registers own is owned. -/
theorem pos_of_mem_pieces {w : Workshop τ α} {combine : List (Parser τ α) → Parser τ α}
    {parts : List String} {n : Nat} (hn : n ∈ (Piece.made combine (w.pieces parts)).owns) :
    0 < w.owners.count n + w.ledger.references n := by
  obtain ⟨p, hp, hn⟩ := Piece.mem_ownsAll.mp hn
  obtain ⟨name, -, hp⟩ := List.mem_filterMap.mp hp
  exact pos_of_mem_owns hp hn

/-- A rule that is declared is pending. -/
theorem count_pending_declare {shelf : Shelf (Piece τ α)} (h : shelf.declared ∉ shelf.defined)
    (n : Nat) :
    (pending shelf.declare.2).count n =
      (pending shelf).count n + if shelf.declared = n then 1 else 0 := by
  rw [count_pending, count_pending, Shelf.declare]
  by_cases hn : shelf.declared = n
  · subst hn
    simp [h]
  · have hlt : n < shelf.declared + 1 ↔ n < shelf.declared := by omega
    simp [hlt, hn]

/-- A rule that is defined is no longer pending. -/
theorem count_pending_define {shelf : Shelf (Piece τ α)} {number : Nat}
    (h : number < shelf.declared ∧ number ∉ shelf.defined) (into : Option String)
    (item : Piece τ α) (parts : List String) (n : Nat) :
    (pending (shelf.define number into item parts)).count n + (if number = n then 1 else 0) =
      (pending shelf).count n := by
  rw [count_pending, count_pending, Shelf.define, if_pos h]
  by_cases hn : number = n
  · subst hn
    simp [h]
  · simp [hn, Ne.symm hn]

namespace Sound

variable {w : Workshop τ α}

/-- What a register keeps alive is what its piece holds. -/
theorem mem_keeps_iff (h : w.Sound) {name : String} {n : Nat} :
    n ∈ w.shelf.keeps name ↔ ∃ p, w.shelf.get? name = some p ∧ p.Holds n := by
  simp only [Shelf.keeps, get?_eq_some_iff]
  cases hslot : w.shelf.slots.get? name with
  | none => simp
  | some holding => simpa using h.keeps.get? hslot n

/-- What is put together keeps alive what its parts keep alive. -/
theorem mem_keeps_parts_iff (h : w.Sound) {combine : List (Parser τ α) → Parser τ α}
    {parts : List String} {n : Nat} :
    n ∈ parts.flatMap w.shelf.keeps ↔ (Piece.made combine (w.pieces parts)).Holds n := by
  rw [Piece.holds_made_iff]
  simp only [List.mem_flatMap, h.mem_keeps_iff, pieces, List.mem_filterMap]
  constructor
  · rintro ⟨name, hname, p, hp, hholds⟩
    exact ⟨p, ⟨name, hname, hp⟩, hholds⟩
  · rintro ⟨p, ⟨name, hname, hp⟩, hholds⟩
    exact ⟨name, hname, p, hp, hholds⟩

/-- Rules in pieces that are put together are those in the parts. -/
theorem genuine_pieces (h : w.Sound) (combine : List (Parser τ α) → Parser τ α)
    (parts : List String) : (Piece.made combine (w.pieces parts)).Genuine w.bodies := by
  intro n body hbody
  cases hbody with
  | part hmem hwithin =>
      obtain ⟨name, -, hp⟩ := List.mem_filterMap.mp hmem
      obtain ⟨holding, hslot, rfl⟩ := get?_eq_some_iff.mp hp
      exact h.genuine.get? hslot n body hwithin

/-- What is written under a name is what the register of that name holds. -/
theorem get?_of_mem (h : w.Sound) {entry : String × Holding (Piece τ α)}
    (hentry : entry ∈ w.shelf.slots.entries) : w.shelf.get? entry.1 = some entry.2.item :=
  get?_eq_some_iff.mpr ⟨entry.2, h.distinct.get?_eq_some_iff.mpr hentry, rfl⟩

/-- A rule that is not defined has no body. -/
theorem bodies_eq_none (h : w.Sound) {n : Nat} (hn : n ∉ w.shelf.defined) : w.bodies n = none :=
  Option.eq_none_iff_forall_ne_some.mpr fun body hbody => hn ((h.defined n).mpr ⟨body, hbody⟩)

/-! ### Deeds -/

/-- What is counted after a deed that puts a piece into a register: the new piece and no longer
what was there before. -/
private theorem accounts_put (h : w.Sound) {ledger : Ledger} {bodies : Nat → Option (List Nat)}
    {owners pending : List Nat} (hledger : ledger.Accounts bodies owners) (into : String)
    (holding : Holding (Piece τ α))
    (hcount : ∀ n, owners.count n =
      holding.item.owns.count n + pending.count n + (shelved w.shelf.slots).count n) :
    (ledger.release (w.owned into)).Accounts bodies
      (pending ++ shelved (w.shelf.slots.put into holding)) := by
  refine (hledger.congr fun n => ?_).release
  have hput := count_put h into holding n
  have hn := hcount n
  simp only [List.count_append]
  omega

theorem declare (h : w.Sound) (into : String) : (w.perform (.declare into)).Sound := by
  have hnew : w.shelf.declared ∉ w.shelf.defined := fun hmem =>
    Nat.lt_irrefl _ (h.declared _ hmem)
  have hledger := h.accounts.declare (by rw [h.next, h.bodies_eq_none hnew]; rfl)
  refine {
    distinct := h.distinct.put _ _
    next := ?_
    defined := h.defined
    declared := fun n hn => Nat.lt_succ_of_lt (h.declared n hn)
    accounts := h.accounts_put hledger into ⟨.handle w.shelf.declared, []⟩ fun n => ?_
    keeps := h.keeps.put into fun n => by simp [Piece.not_holds_handle]
    genuine := h.genuine.put into fun n body hbody => nomatch hbody
    bodies_genuine := h.bodies_genuine }
  · exact (Ledger.next_release _ _).trans (w.ledger.next_declare.trans (congrArg (· + 1) h.next))
  · have hpending := count_pending_declare hnew n
    simp only [owners, Piece.owns, List.count_cons, List.count_append, List.count_nil, h.next,
      beq_iff_eq]
    change _ = 0 + (pending w.shelf.declare.2).count n + _
    omega

/-- A rule that gets its body had none, so whatever was told of bodies stays true. -/
private theorem bodies_update (h : w.Sound) {number : Nat} (hnew : number ∉ w.shelf.defined)
    (body : Piece τ α) (n : Nat) (other : Piece τ α) (hother : w.bodies n = some other) :
    Function.update w.bodies number (some body) n = some other := by
  have hn : n ≠ number := fun heq => by
    rw [heq, h.bodies_eq_none hnew] at hother
    cases hother
  rw [Function.update_of_ne hn, hother]

/-- The ledger counts the owners when a rule has got its body. -/
private theorem accounts_install (h : w.Sound) {number : Nat}
    (hnew : number < w.shelf.declared ∧ number ∉ w.shelf.defined) {body : Piece τ α}
    (hbody : ∀ n ∈ body.owns, 0 < w.owners.count n + w.ledger.references n) :
    ((w.ledger.hold body.owns).define number body.owns).Accounts
      (fun n => (Function.update w.bodies number (some body) n).map Piece.owns) w.owners := by
  have hnone := h.bodies_eq_none hnew.2
  have hheld := h.accounts.hold hbody
  -- The maker of the rule owns its slot.
  have hpos : 0 < (body.owns ++ w.owners).count number +
      (w.ledger.hold body.owns).references number := by
    rw [owners, List.count_append, List.count_append, count_pending, if_pos hnew]
    omega
  have hbodies : Function.update (fun n => (w.bodies n).map Piece.owns) number (some body.owns) =
      fun n => (Function.update w.bodies number (some body) n).map Piece.owns := by
    funext n
    by_cases hn : n = number
    · subst hn
      simp
    · simp [hn]
  rw [← hbodies]
  exact hheld.define hpos (by rw [hnone]; rfl)

/-- A rule gets its body. -/
private theorem install (h : w.Sound) {number : Nat}
    (hnew : number < w.shelf.declared ∧ number ∉ w.shelf.defined) {body : Piece τ α}
    (hgenuine : body.Genuine w.bodies)
    (hbody : ∀ n ∈ body.owns, 0 < w.owners.count n + w.ledger.references n)
    {parts : List String} (hparts : ∀ n, n ∈ parts.flatMap w.shelf.keeps ↔ body.Holds n)
    (into : String) : (w.install number body parts into).Sound := by
  have hmono := h.bodies_update hnew.2 body
  have hslots : (w.install number body parts into).shelf.slots = w.shelf.slots.put into
      ⟨.rule number body, number :: parts.flatMap w.shelf.keeps⟩ := by
    simp only [Workshop.install, Shelf.define, if_pos hnew, Registers.put?]
  have hdefined : (w.install number body parts into).shelf.defined =
      number :: w.shelf.defined := by
    simp only [Workshop.install, Shelf.define, if_pos hnew]
  have hdeclared : (w.install number body parts into).shelf.declared = w.shelf.declared := by
    simp only [Workshop.install, Shelf.define, if_pos hnew]
  constructor
  · rw [hslots]
    exact h.distinct.put _ _
  · rw [hdeclared, Workshop.install, Ledger.next_release, Ledger.next_define, Ledger.next_hold,
      h.next]
  · intro n
    rw [hdefined, Workshop.install]
    by_cases hn : n = number
    · subst hn
      simp
    · simp [hn, h.defined n]
  · intro n hn
    rw [hdeclared]
    rw [hdefined] at hn
    rcases List.mem_cons.mp hn with rfl | hn
    · exact hnew.1
    · exact h.declared n hn
  · rw [owners, hslots]
    refine h.accounts_put (h.accounts_install hnew hbody) into _ fun n => ?_
    have hpending :=
      count_pending_define hnew (some into) (.rule number body) parts n
    simp only [owners, Piece.owns, List.count_append, List.count_cons, List.count_nil, beq_iff_eq]
    change _ =
      _ + (pending (w.shelf.define number (some into) (.rule number body) parts)).count n + _
    omega
  · rw [hslots]
    refine h.keeps.put into fun n => ?_
    rw [List.mem_cons, Piece.holds_rule_iff, hparts]
  · rw [hslots]
    refine Registers.Each.put (fun entry hentry => (h.genuine entry hentry).mono hmono) into ?_
    intro n other hother
    cases hother with
    | itself => exact Function.update_self _ _ _
    | body hwithin => exact hgenuine.mono hmono n other hwithin
  · intro n other hother
    change Function.update w.bodies number (some body) n = some other at hother
    by_cases hn : n = number
    · subst hn
      rw [Function.update_self] at hother
      obtain rfl := Option.some.inj hother
      exact hgenuine.mono hmono
    · rw [Function.update_of_ne hn] at hother
      exact (h.bodies_genuine n other hother).mono hmono

theorem define (h : w.Sound) (number : Nat) (combine : List (Parser τ α) → Parser τ α)
    (parts : List String) (into : String) :
    (w.perform (.define number combine parts into)).Sound := by
  by_cases hnew : number < w.shelf.declared ∧ number ∉ w.shelf.defined
  · rw [perform, if_pos hnew]
    exact h.install hnew (h.genuine_pieces combine parts) (fun n hn => pos_of_mem_pieces hn)
      (fun n => h.mem_keeps_parts_iff) into
  · rw [perform, if_neg hnew]
    exact h

theorem build (h : w.Sound) (combine : List (Parser τ α) → Parser τ α) (parts : List String)
    (into : String) : (w.perform (.build combine parts into)).Sound := by
  have hledger : (w.ledger.hold (Piece.made combine (w.pieces parts)).owns).Accounts
      (fun n => (w.bodies n).map Piece.owns)
      ((Piece.made combine (w.pieces parts)).owns ++ w.owners) :=
    h.accounts.hold fun n hn => pos_of_mem_pieces hn
  exact {
    distinct := h.distinct.put _ _
    next := (Ledger.next_release _ _).trans ((Ledger.next_hold _ _).trans h.next)
    defined := h.defined
    declared := h.declared
    accounts := h.accounts_put hledger into ⟨.made combine (w.pieces parts), _⟩ fun n => by
      simp only [owners, List.count_append, Nat.add_assoc]
      rfl
    keeps := h.keeps.put into fun n => h.mem_keeps_parts_iff
    genuine := h.genuine.put into (h.genuine_pieces combine parts)
    bodies_genuine := h.bodies_genuine }

theorem copy (h : w.Sound) (on into : String) : (w.perform (.copy on into)).Sound := by
  cases hslot : w.shelf.slots.get? on with
  | none =>
      have hcopy : w.perform (.copy on into) = w := by
        simp [perform, Shelf.copy, Shelf.get?, hslot]
      rw [hcopy]
      exact h
  | some holding =>
      have hget : w.shelf.get? on = some holding.item := get?_eq_some_iff.mpr ⟨holding, hslot, rfl⟩
      have howned : w.owned on = holding.item.owns := by
        rw [owned, hget]
        rfl
      have hcopy : w.perform (.copy on into) =
          { w with
            shelf := { w.shelf with slots := w.shelf.slots.put into holding }
            ledger := (w.ledger.hold holding.item.owns).release (w.owned into) } := by
        simp [perform, Shelf.copy, hslot, hget, howned, Registers.put?]
      have hledger := h.accounts.hold fun n hn => pos_of_mem_owns hget hn
      rw [hcopy]
      exact {
        distinct := h.distinct.put _ _
        next := (Ledger.next_release _ _).trans ((Ledger.next_hold _ _).trans h.next)
        defined := h.defined
        declared := h.declared
        accounts := h.accounts_put hledger into holding fun n => by
          simp only [owners, List.count_append, Nat.add_assoc]
          rfl
        keeps := h.keeps.put into (h.keeps.get? hslot)
        genuine := h.genuine.put into (h.genuine.get? hslot)
        bodies_genuine := h.bodies_genuine }

theorem drop (h : w.Sound) (on : String) : (w.perform (.drop on)).Sound where
  distinct := h.distinct.erase on
  next := (Ledger.next_release _ _).trans h.next
  defined := h.defined
  declared := h.declared
  accounts := by
    refine (h.accounts.congr fun n => ?_).release
    have herase := count_erase h on n
    rw [owners, List.count_append, owners, List.count_append, List.count_append]
    change _ + ((pending w.shelf).count n + (shelved (w.shelf.slots.erase on)).count n) = _
    omega
  keeps := h.keeps.erase on
  genuine := h.genuine.erase on
  bodies_genuine := h.bodies_genuine

theorem run (h : w.Sound) (on : String) (fuel : Nat) (start : Stream) :
    (w.perform (.run on fuel start)).Sound :=
  { h with }

/-- **The shelf and the ledger stay right, whatever is done.** -/
theorem perform (h : w.Sound) (deed : Deed τ α) : (w.perform deed).Sound := by
  cases deed with
  | declare into => exact h.declare into
  | define number combine parts into => exact h.define number combine parts into
  | build combine parts into => exact h.build combine parts into
  | copy on into => exact h.copy on into
  | drop on => exact h.drop on
  | run on fuel start => exact h.run on fuel start

theorem after (h : w.Sound) (deeds : List (Deed τ α)) : (w.after deeds).Sound := by
  induction deeds generalizing w with
  | nil => exact h
  | cons deed deeds ih => exact ih (h.perform deed)

end Sound

/-- Nothing is wrong in an empty workshop. -/
theorem sound_empty (sources : Sources τ) : Sound ({ sources } : Workshop τ α) where
  distinct := List.nodup_nil
  next := rfl
  defined n := by simp
  declared n hn := nomatch hn
  accounts := .empty
  keeps entry hentry := nomatch hentry
  genuine entry hentry := nomatch hentry
  bodies_genuine n body hbody := nomatch hbody

/-! ### The life of a rule -/

namespace Sound

variable {w : Workshop τ α}

/-- A slot that is owned has holders, and the body of its rule, if there is one. -/
theorem slot_of_pos (h : w.Sound) {n : Nat} (hn : 0 < w.owners.count n + w.ledger.references n) :
    ∃ holders, w.ledger.slots[n]? = some ⟨holders + 1, (w.bodies n).map Piece.owns⟩ := by
  obtain ⟨⟨holders, body⟩, hslot, hpos⟩ := h.accounts.exists_slot hn
  have hbody := h.accounts.body hslot
  rw [if_neg (Nat.ne_of_gt hpos)] at hbody
  obtain ⟨k, rfl⟩ := Nat.exists_eq_succ_of_ne_zero (Nat.ne_of_gt hpos)
  exact ⟨k, by rw [hslot, ← hbody]⟩

/-- **What a piece holds is owned**, where the piece owns what it should: the body of a rule that
is owned owns what it was put together from. -/
theorem pos_of_within (h : w.Sound) {n : Nat} {body p : Piece τ α}
    (hwithin : (Piece.rule n body).Within p) (hgenuine : p.Genuine w.bodies)
    (howns : ∀ m ∈ p.owns, 0 < w.owners.count m + w.ledger.references m) :
    0 < w.owners.count n + w.ledger.references n := by
  induction hwithin with
  | itself => exact howns n List.mem_cons_self
  | @body number inner _ ih =>
      obtain ⟨holders, hslot⟩ := h.slot_of_pos (howns number List.mem_cons_self)
      refine ih (fun m other hother => hgenuine m other (.body hother)) fun m hm => ?_
      have hle := Ledger.count_le_references hslot m
      have hcount : 0 < inner.owns.count m := List.count_pos_iff.mpr hm
      rw [hgenuine number inner .itself] at hle
      simp only [Slot.held, Option.map_some, Option.getD_some] at hle
      omega
  | part hmem _ ih =>
      exact ih (fun m other hother => hgenuine m other (.part hmem hother)) fun m hm =>
        howns m (Piece.mem_ownsAll.mpr ⟨_, hmem, hm⟩)

/-- A rule that some register holds is owned. -/
theorem pos_of_holds (h : w.Sound) {n : Nat} (hn : w.Holds n) :
    0 < w.owners.count n + w.ledger.references n := by
  obtain ⟨name, p, hp, body, hbody⟩ := hn
  obtain ⟨holding, hslot, rfl⟩ := get?_eq_some_iff.mp hp
  exact h.pos_of_within hbody (h.genuine.get? hslot) fun m hm => pos_of_mem_owns hp hm

/-- A slot that some body owns is owned by the body of a rule that is owned itself. -/
theorem exists_owner (h : w.Sound) {n : Nat} (hn : 0 < w.ledger.references n) :
    ∃ (m : Nat) (outer : Piece τ α), w.bodies m = some outer ∧ n ∈ outer.owns ∧
      0 < w.owners.count m + w.ledger.references m := by
  obtain ⟨m, slot, hslot, hheld⟩ := Ledger.exists_of_references_pos hn
  have hbody := h.accounts.body hslot
  -- The slot has holders, or there would be no body in it.
  have hholders : slot.holders ≠ 0 := fun hzero => by
    rw [if_pos hzero] at hbody
    rw [Slot.held, hbody] at hheld
    cases hheld
  rw [if_neg hholders] at hbody
  rw [Slot.held, hbody] at hheld
  cases houter : w.bodies m with
  | none =>
      rw [houter] at hheld
      cases hheld
  | some outer =>
      rw [houter] at hheld
      refine ⟨m, outer, houter, hheld, ?_⟩
      rw [← h.accounts.holders hslot]
      omega

/-- Bodies are of bounded size. -/
theorem exists_bound (h : w.Sound) :
    ∃ bound, ∀ n body, w.bodies n = some body → sizeOf body ≤ bound := by
  have hbound (count : Nat) :
      ∃ bound, ∀ n < count, ∀ body, w.bodies n = some body → sizeOf body ≤ bound := by
    induction count with
    | zero => exact ⟨0, fun n hn => absurd hn (Nat.not_lt_zero n)⟩
    | succ count ih =>
        obtain ⟨bound, hbound⟩ := ih
        refine ⟨bound + sizeOf (w.bodies count), fun n hn body hbody => ?_⟩
        rcases Nat.lt_succ_iff_lt_or_eq.mp hn with hlt | rfl
        · have := hbound n hlt body hbody
          omega
        · rw [hbody, Option.some.sizeOf_spec]
          omega
  obtain ⟨bound, hbound⟩ := hbound w.shelf.declared
  exact ⟨bound, fun n body hbody =>
    hbound n (h.declared n ((h.defined n).mpr ⟨body, hbody⟩)) body hbody⟩

/-- **What is owned is held by a register**, if it is defined. Whoever owns it is a register, or the
body of another rule that is owned; the body is larger than that of the rule in it, so this leads
to a register in the end. -/
theorem holds_of_pos (h : w.Sound) {n : Nat} (hn : n ∈ w.shelf.defined)
    (hpos : 0 < w.owners.count n + w.ledger.references n) : w.Holds n := by
  obtain ⟨bound, hbound⟩ := h.exists_bound
  obtain ⟨body, hbody⟩ := (h.defined n).mp hn
  induction hroom : bound - sizeOf body using Nat.strongRecOn generalizing n body with
  | ind room ih =>
      rcases Nat.eq_zero_or_pos (w.ledger.references n) with hzero | hreferences
      · have hmem : n ∈ w.owners := List.count_pos_iff.mp (by omega)
        rcases List.mem_append.mp hmem with hpending | hshelved
        · have := List.count_pos_iff.mpr hpending
          rw [count_pending, if_neg fun hboth => hboth.2 hn] at this
          omega
        · obtain ⟨entry, hentry, howns⟩ := mem_shelved.mp hshelved
          exact ⟨entry.1, entry.2.item, h.get?_of_mem hentry, Piece.holds_of_mem_owns howns⟩
      · obtain ⟨m, outer, houter, howns, hmpos⟩ := h.exists_owner hreferences
        obtain ⟨inner, hinner⟩ := Piece.holds_of_mem_owns howns
        obtain rfl := Option.some.inj
          (hbody.symm.trans (h.bodies_genuine m outer houter n inner hinner))
        have hsize := hinner.sizeOf_le
        rw [Piece.rule.sizeOf_spec] at hsize
        have hle := hbound m outer houter
        have hm : m ∈ w.shelf.defined := (h.defined m).mpr ⟨outer, houter⟩
        obtain ⟨name, p, hp, other, hother⟩ := ih (bound - sizeOf outer) (by omega) hm hmpos
          outer houter rfl
        obtain ⟨holding, hregister, rfl⟩ := get?_eq_some_iff.mp hp
        obtain rfl := Option.some.inj
          (houter.symm.trans (h.genuine.get? hregister m other hother))
        have hwithin : outer.Within (.rule m outer) := .body .itself
        exact ⟨name, holding.item, hp, body, hinner.trans (hwithin.trans hother)⟩

/-- A rule is kept alive by some register when some register holds it. -/
theorem any_keeps_iff (h : w.Sound) {n : Nat} :
    (w.shelf.slots.any fun holding => decide (n ∈ holding.keeps)) = true ↔ w.Holds n := by
  simp only [Registers.any, List.any_eq_true, decide_eq_true_eq]
  constructor
  · rintro ⟨entry, hentry, hkeeps⟩
    exact ⟨entry.1, entry.2.item, h.get?_of_mem hentry, (h.keeps entry hentry n).mp hkeeps⟩
  · rintro ⟨name, p, hp, hholds⟩
    obtain ⟨holding, hslot, rfl⟩ := get?_eq_some_iff.mp hp
    exact ⟨(name, holding), Registers.mem_of_get? hslot, (h.keeps.get? hslot n).mpr hholds⟩

theorem phase_of_not_mem {n : Nat} (hn : n ∉ w.shelf.defined) : w.shelf.phase n = .undefined :=
  if_neg hn

theorem phase_of_holds (h : w.Sound) {n : Nat} (hn : n ∈ w.shelf.defined) (hholds : w.Holds n) :
    w.shelf.phase n = .defined := by
  rw [Shelf.phase, if_pos hn, if_pos (h.any_keeps_iff.mpr hholds)]

theorem phase_of_not_holds (h : w.Sound) {n : Nat} (hn : n ∈ w.shelf.defined)
    (hholds : ¬ w.Holds n) : w.shelf.phase n = .dropped := by
  rw [Shelf.phase, if_pos hn, if_neg fun hany => hholds (h.any_keeps_iff.mp hany)]

/-- **The shelf and the ledger agree on the life of every rule**: what the shelf finds among the
rules that registers keep alive is what a handle finds at the slot. -/
theorem phase_eq (h : w.Sound) {n : Nat} (hn : n < w.shelf.declared) :
    w.ledger.phase n = w.shelf.phase n := by
  by_cases hdefined : n ∈ w.shelf.defined
  · obtain ⟨body, hbody⟩ := (h.defined n).mp hdefined
    by_cases hholds : w.Holds n
    · obtain ⟨holders, hslot⟩ := h.slot_of_pos (h.pos_of_holds hholds)
      rw [Ledger.phase_of_slot hslot, h.phase_of_holds hdefined hholds, hbody]
      rfl
    · obtain ⟨⟨holders, inner⟩, hslot⟩ : ∃ slot, w.ledger.slots[n]? = some slot :=
        ⟨_, List.getElem?_eq_getElem (Nat.lt_of_lt_of_eq hn h.next.symm)⟩
      have hcount := h.accounts.holders hslot
      have hzero : ¬ 0 < w.owners.count n + w.ledger.references n := fun hpos =>
        hholds (h.holds_of_pos hdefined hpos)
      obtain rfl : holders = 0 := by
        simp only at hcount
        omega
      rw [Ledger.phase_of_slot hslot, h.phase_of_not_holds hdefined hholds]
      rfl
  · have hpos : 0 < w.owners.count n + w.ledger.references n := by
      rw [owners, List.count_append, count_pending, if_pos ⟨hn, hdefined⟩]
      omega
    obtain ⟨holders, hslot⟩ := h.slot_of_pos hpos
    rw [Ledger.phase_of_slot hslot, phase_of_not_mem hdefined, h.bodies_eq_none hdefined]
    rfl

end Sound

end Workshop

end Backtrack
