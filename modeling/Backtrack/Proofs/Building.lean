import Backtrack.Grammar.Interpret
import Backtrack.Proofs.Ledger

/-!
# Building and Letting Go

To build the parser of a grammar is to make a slot for each recursive rule in it. The grammar
behind a continuation and the one behind a deferred rule are built when the parser is run, and
let go when their own run is over, so only the rules before them are made with the parser.

Building numbers the slots in a fixed order, an outer rule before the rules in its body, so
every rule of a grammar is at a place that the grammar alone determines, counted from the first
slot. Letting go of what was built destroys all of it and nothing else.

## Main definitions

* `Forest`, `Grammar.forest`: the rules that are made when a grammar is built.
* `Forest.build`: the making, rule by rule.
* `Ledger.fade`: a ledger with slots of rules that are gone at its end.
* `Ledger.Bears`: the rules of a forest are all alive at their places.

## Main results

* `Forest.build_eq`: what is built where.
* `Forest.release_build`: building and letting go leaves nothing but dead slots.
* `Forest.accounts_build`: building leaves the counts of a ledger right.
* `Ledger.Accounts.bears`: whoever owns the outer rules of a forest keeps all of them alive.
-/

namespace Backtrack

variable {σ : Signature} {τ : Type}

/-- The **rules made by building a grammar**: each with those in its body, and those after it. -/
inductive Forest where
  /-- No rule. -/
  | nil
  /-- A rule with the rules in its body, and the rules after it. -/
  | cons (inner rest : Forest)
  deriving DecidableEq

namespace Forest

/-- The number of rules. -/
def size : Forest → Nat
  | nil => 0
  | cons inner rest => inner.size + rest.size + 1

/-- The rules of one forest, then those of another. -/
def append : Forest → Forest → Forest
  | nil, other => other
  | cons inner rest, other => cons inner (rest.append other)

@[simp]
theorem size_append (forest other : Forest) :
    (forest.append other).size = forest.size + other.size := by
  induction forest with
  | nil => simp [append, size]
  | cons inner rest _ ih =>
      simp only [append, size, ih]
      omega

/-- **Builds** the rules in a ledger: each gets a slot, then the rules in its body are built,
then the body, which owns these, comes into the slot. Gives the slots of the outer rules, which
are owned by whoever built them. -/
def build : Forest → Ledger → List Nat × Ledger
  | nil, ledger => ([], ledger)
  | cons inner rest, ledger =>
    let body := inner.build ledger.declare
    let others := rest.build (body.2.define ledger.next body.1)
    (ledger.next :: others.1, others.2)

/-- The slots of the outer rules, when the first slot is number `base`. -/
def roots : Forest → (base : Nat) → List Nat
  | nil, _ => []
  | cons inner rest, base => base :: rest.roots (base + 1 + inner.size)

/-- The slots of all rules, when the first slot is number `base`. -/
def slots : Forest → (base : Nat) → List Slot
  | nil, _ => []
  | cons inner rest, base =>
    ⟨1, some (inner.roots (base + 1))⟩ :: inner.slots (base + 1) ++
      rest.slots (base + 1 + inner.size)

@[simp]
theorem length_slots (forest : Forest) (base : Nat) : (forest.slots base).length = forest.size := by
  induction forest generalizing base with
  | nil => rfl
  | cons inner rest ihinner ihrest =>
      simp only [slots, size, List.cons_append, List.length_cons, List.length_append, ihinner,
        ihrest]

/-- The slots of a forest are those of rules that are there. -/
theorem phase_of_mem_slots {forest : Forest} {base : Nat} {slot : Slot}
    (h : slot ∈ forest.slots base) : slot.phase = .defined := by
  induction forest generalizing base with
  | nil => cases h
  | cons inner rest ihinner ihrest =>
      rcases List.mem_append.mp h with h | h
      · rcases List.mem_cons.mp h with rfl | h
        · rfl
        · exact ihinner h
      · exact ihrest h

end Forest

/-- The rules that are **made when a grammar is built**. -/
def Grammar.forest : {α : Type} → Grammar σ τ α → Forest
  | _, .succeed _ => .nil
  | _, .fail _ => .nil
  | _, .satisfy _ _ => .nil
  | _, .eof => .nil
  | _, .bind g _ => g.forest
  | _, .map _ g => g.forest
  | _, .pair g h => g.forest.append h.forest
  | _, .keepRight g h => g.forest.append h.forest
  | _, .keepLeft g h => g.forest.append h.forest
  | _, .orElse g h => g.forest.append h.forest
  | _, .optional g => g.forest
  | _, .many g => g.forest
  | _, .label _ g => g.forest
  | _, .commit g => g.forest
  | _, .deferred _ => .nil
  | _, .recursive _ body => .cons body.forest .nil
  | _, .handle _ => .nil
  | _, .withRule _ _ _ g => g.forest
  | _, .around _ _ g => g.forest

namespace Ledger

/-- The ledger with more slots at its end. -/
def extend (ledger : Ledger) (more : List Slot) : Ledger := ⟨ledger.slots ++ more⟩

/-- The ledger after `n` more rules have come and gone. -/
def fade (ledger : Ledger) (n : Nat) : Ledger := ledger.extend (List.replicate n .dead)

@[simp]
theorem fade_zero (ledger : Ledger) : ledger.fade 0 = ledger := by
  simp [fade, extend]

@[simp]
theorem fade_fade (ledger : Ledger) (m n : Nat) : (ledger.fade m).fade n = ledger.fade (m + n) := by
  simp [fade, extend]

theorem next_extend (ledger : Ledger) (more : List Slot) :
    (ledger.extend more).next = ledger.next + more.length := by
  simp [next, extend]

theorem extend_extend (ledger : Ledger) (more others : List Slot) :
    (ledger.extend more).extend others = ledger.extend (more ++ others) := by
  simp [extend]

/-- The first of the slots at the end. -/
theorem slot_extend (ledger : Ledger) (slot : Slot) (more : List Slot) :
    (ledger.extend (slot :: more)).slots[ledger.next]? = some slot := by
  simp [extend, next]

/-- A change of the first of the slots at the end. -/
theorem update_extend (ledger : Ledger) (slot : Slot) (more : List Slot) (f : Slot → Slot) :
    (ledger.extend (slot :: more)).update ledger.next f = ledger.extend (f slot :: more) := by
  obtain ⟨slots⟩ := ledger
  simp only [update, extend, next, Ledger.mk.injEq]
  induction slots with
  | nil => rfl
  | cons first rest ih => simpa using ih

/-- A change before the slots at the end. -/
theorem update_extend_of_lt {ledger : Ledger} {n : Nat} (h : n < ledger.next) (f : Slot → Slot)
    (more : List Slot) :
    (ledger.extend more).update n f = (ledger.update n f).extend more := by
  obtain ⟨slots⟩ := ledger
  simp only [update, extend, Ledger.mk.injEq]
  induction slots generalizing n with
  | nil => cases h
  | cons first rest ih =>
      cases n with
      | zero => rfl
      | succ n => simpa using ih (Nat.lt_of_succ_lt_succ h)

end Ledger

namespace Forest

/-- **What is built where**: the rules go to the end of the ledger, in their order. -/
theorem build_eq (forest : Forest) (ledger : Ledger) :
    forest.build ledger =
      (forest.roots ledger.next, ledger.extend (forest.slots ledger.next)) := by
  induction forest generalizing ledger with
  | nil => simp [build, roots, slots, Ledger.extend]
  | cons inner rest ihinner ihrest =>
      have hdeclare : ledger.declare = ledger.extend [.fresh] := rfl
      have hdefine (held : List Nat) (more : List Slot) :
          (ledger.extend (.fresh :: more)).define ledger.next held =
            ledger.extend (⟨1, some held⟩ :: more) :=
        ledger.update_extend .fresh more (Slot.fill held)
      simp only [build, roots, slots, ihinner, ihrest, hdeclare, Ledger.extend_extend,
        Ledger.next_extend, List.singleton_append, List.length_cons, List.length_nil,
        length_slots, hdefine, Nat.zero_add, Nat.add_assoc, Nat.add_comm 1]

/-- Letting go of a forest is letting go of all its rules, one after another. -/
private theorem release_slots (forest : Forest) (ledger : Ledger) (more : List Slot)
    (others : List Nat) :
    (ledger.extend (forest.slots ledger.next ++ more)).release
        (forest.roots ledger.next ++ others) =
      (ledger.extend (List.replicate forest.size .dead ++ more)).release others := by
  induction forest generalizing ledger more others with
  | nil => rfl
  | cons inner rest ihinner ihrest =>
      have hinner := ihinner (ledger.extend [.dead])
        (rest.slots (ledger.next + 1 + inner.size) ++ more)
        (rest.roots (ledger.next + 1 + inner.size) ++ others)
      have hrest := ihrest (ledger.extend (.dead :: List.replicate inner.size .dead)) more others
      simp only [Ledger.extend_extend, Ledger.next_extend, List.length_cons, List.length_nil,
        List.length_replicate, List.cons_append, List.nil_append, Nat.zero_add,
        ← Nat.add_assoc, Nat.add_right_comm _ inner.size] at hinner hrest
      simp only [slots, roots, size, List.cons_append, List.append_assoc]
      rw [Ledger.release_last (Ledger.slot_extend _ _ _), Ledger.update_extend, Option.getD_some,
        hinner, hrest, List.replicate_succ, ← List.replicate_append_replicate, List.cons_append,
        List.append_assoc]

/-- **Building and letting go** leaves nothing but dead slots, whatever came and went in
between. -/
theorem release_build (forest : Forest) (ledger : Ledger) (n : Nat) :
    ((forest.build ledger).2.fade n).release (forest.build ledger).1 =
      ledger.fade (forest.size + n) := by
  have h := forest.release_slots ledger (List.replicate n .dead) []
  rw [List.append_nil, Ledger.release_nil, List.replicate_append_replicate] at h
  rw [build_eq, Ledger.fade, Ledger.extend_extend]
  exact h

end Forest

namespace Ledger

/-! ### Rules that are alive -/

/-- A rule that is alive has a slot, with a holder and a body. -/
theorem phase_eq_defined_iff {ledger : Ledger} {n : Nat} :
    ledger.phase n = .defined ↔
      ∃ holders held, ledger.slots[n]? = some ⟨holders + 1, some held⟩ := by
  constructor
  · intro h
    cases hslot : ledger.slots[n]? with
    | none => simp [phase, hslot] at h
    | some slot =>
        rw [phase_of_slot hslot] at h
        obtain ⟨holders, body⟩ := slot
        cases holders with
        | zero => cases h
        | succ holders =>
            cases body with
            | none => cases h
            | some held => exact ⟨holders, held, rfl⟩
  · rintro ⟨holders, held, hslot⟩
    exact phase_of_slot hslot

/-- Whatever rule is alive in one ledger **is alive in the other**. -/
def Outlasts (other ledger : Ledger) : Prop :=
  ∀ n, ledger.phase n = .defined → other.phase n = .defined

theorem Outlasts.trans {first second third : Ledger} (h : second.Outlasts first)
    (h' : third.Outlasts second) : third.Outlasts first :=
  fun n hn => h' n (h n hn)

theorem outlasts_extend (ledger : Ledger) (more : List Slot) :
    (ledger.extend more).Outlasts ledger := by
  intro n h
  obtain ⟨holders, held, hslot⟩ := phase_eq_defined_iff.mp h
  have hlt := (List.getElem?_eq_some_iff.mp hslot).1
  refine phase_eq_defined_iff.mpr ⟨holders, held, ?_⟩
  rw [extend, List.getElem?_append_left hlt, hslot]

/-- To build something harms no rule. -/
theorem outlasts_build (ledger : Ledger) (forest : Forest) :
    (forest.build ledger).2.Outlasts ledger := by
  rw [Forest.build_eq]
  exact ledger.outlasts_extend _

theorem outlasts_hold (ledger : Ledger) (n : Nat) : (ledger.hold [n]).Outlasts ledger := by
  intro k h
  obtain ⟨holders, held, hslot⟩ := phase_eq_defined_iff.mp h
  have hslot' := slot_update ledger n Slot.gain k
  rw [hslot, Option.map_some] at hslot'
  by_cases hk : n = k
  · rw [if_pos hk] at hslot'
    exact phase_eq_defined_iff.mpr ⟨holders + 1, held, hslot'⟩
  · rw [if_neg hk] at hslot'
    exact phase_eq_defined_iff.mpr ⟨holders, held, hslot'⟩

/-- Whoever takes a part in a rule that has a holder and gives it back **changes nothing**. -/
theorem release_hold {ledger : Ledger} {n : Nat} (h : ledger.phase n = .defined) (m : Nat) :
    ((ledger.hold [n]).fade m).release [n] = ledger.fade m := by
  obtain ⟨holders, held, hslot⟩ := phase_eq_defined_iff.mp h
  have hlt : n < ledger.next := (List.getElem?_eq_some_iff.mp hslot).1
  have hgain : (ledger.hold [n]).slots[n]? = some ⟨holders + 2, some held⟩ :=
    slot_update_self hslot Slot.gain
  have hlt' : n < (ledger.hold [n]).next := (List.getElem?_eq_some_iff.mp hgain).1
  have hslots : ((ledger.hold [n]).fade m).slots[n]? = some ⟨holders + 2, some held⟩ := by
    rw [fade, extend, List.getElem?_append_left hlt', hgain]
  have hback : (ledger.hold [n]).update n Slot.lose = ledger := by
    have hid : Slot.lose ∘ Slot.gain = id := rfl
    rw [hold, List.foldl_cons, List.foldl_nil, update, update, List.modify_modify_eq, hid,
      List.modify_id]
  rw [release_shared hslots (by simp), release_nil, fade, update_extend_of_lt hlt', hback]
  rfl

/-- **The rules of a forest are alive**, the first of them at number `base`. -/
def Bears (ledger : Ledger) (base : Nat) (forest : Forest) : Prop :=
  ∀ n, base ≤ n → n < base + forest.size → ledger.phase n = .defined

namespace Bears

variable {ledger : Ledger} {base : Nat} {forest other : Forest}

theorem mono (h : ledger.Bears base forest) {later : Ledger} (hlater : later.Outlasts ledger) :
    later.Bears base forest :=
  fun n hle hlt => hlater n (h n hle hlt)

theorem left (h : ledger.Bears base (forest.append other)) : ledger.Bears base forest := by
  intro n hle hlt
  rw [Bears, Forest.size_append] at h
  exact h n hle (by omega)

theorem right (h : ledger.Bears base (forest.append other)) :
    ledger.Bears (base + forest.size) other := by
  intro n hle hlt
  rw [Bears, Forest.size_append] at h
  exact h n (by omega) (by omega)

/-- The outer rule of a forest is alive. -/
theorem root (h : ledger.Bears base (.cons forest other)) : ledger.phase base = .defined :=
  h base (Nat.le_refl _) (by simp only [Forest.size]; omega)

/-- The rules in the body of a rule that is alive are alive. -/
theorem inner (h : ledger.Bears base (.cons forest other)) : ledger.Bears (base + 1) forest :=
  fun n hle hlt => h n (by omega) (by simp only [Forest.size]; omega)

end Bears

/-- **What was built is alive.** -/
theorem bears_build (ledger : Ledger) (forest : Forest) :
    (forest.build ledger).2.Bears ledger.next forest := by
  intro n hle hlt
  have hindex : n - ledger.next < (forest.slots ledger.next).length := by
    rw [Forest.length_slots]
    omega
  have hslot : (forest.build ledger).2.slots[n]? =
      some ((forest.slots ledger.next)[n - ledger.next]) := by
    rw [Forest.build_eq, extend, List.getElem?_append_right hle]
    exact List.getElem?_eq_getElem hindex
  rw [phase_of_slot hslot]
  exact Forest.phase_of_mem_slots (List.getElem_mem hindex)

end Ledger

/-! ### Rules that are owned -/

namespace Forest

/-- The bodies of the rules are those of a forest, whose first rule has number `base`: the body of a
rule owns the outer rules in it. -/
def Recorded (bodies : Nat → Option (List Nat)) : Forest → (base : Nat) → Prop
  | nil, _ => True
  | cons inner rest, base =>
    bodies base = some (inner.roots (base + 1)) ∧ Recorded bodies inner (base + 1) ∧
      Recorded bodies rest (base + 1 + inner.size)

/-- Only the bodies of the rules themselves matter. -/
theorem Recorded.congr {bodies others : Nat → Option (List Nat)} {forest : Forest} {base : Nat}
    (h : forest.Recorded bodies base)
    (hsame : ∀ n, base ≤ n → n < base + forest.size → others n = bodies n) :
    forest.Recorded others base := by
  induction forest generalizing base with
  | nil => trivial
  | cons inner rest ihinner ihrest =>
      simp only [size] at hsame
      exact ⟨(hsame base (by omega) (by omega)).trans h.1,
        ihinner h.2.1 fun n hle hlt => hsame n (by omega) (by omega),
        ihrest h.2.2 fun n hle hlt => hsame n (by omega) (by omega)⟩

@[simp]
theorem next_build (forest : Forest) (ledger : Ledger) :
    (forest.build ledger).2.next = ledger.next + forest.size := by
  rw [build_eq, Ledger.next_extend, length_slots]

/-- **Building leaves the counts right**: whoever builds a forest owns its outer rules, and nothing
else changes. -/
theorem accounts_build {ledger : Ledger} {bodies : Nat → Option (List Nat)} {owners : List Nat}
    (forest : Forest) (h : ledger.Accounts bodies owners)
    (hnew : ∀ n, ledger.next ≤ n → bodies n = none) :
    ∃ recorded, (forest.build ledger).2.Accounts recorded ((forest.build ledger).1 ++ owners) ∧
      forest.Recorded recorded ledger.next ∧
      ∀ n, n < ledger.next ∨ ledger.next + forest.size ≤ n → recorded n = bodies n := by
  induction forest generalizing ledger bodies owners with
  | nil => exact ⟨bodies, h, trivial, fun _ _ => rfl⟩
  | cons inner rest ihinner ihrest =>
      have hnext := ledger.next_declare
      obtain ⟨first, hfirst, hinner, hkept⟩ := ihinner (h.declare (hnew _ (Nat.le_refl _)))
        fun n hn => hnew n (by omega)
      rw [hnext] at hinner hkept
      -- The body that was built owns what was built for it.
      have hpos : 0 < ((inner.build ledger.declare).1 ++ ledger.next :: owners).count ledger.next +
          (inner.build ledger.declare).2.references ledger.next := by
        rw [List.count_append, List.count_cons_self]
        omega
      have hnone : first ledger.next = none :=
        (hkept _ (.inl (Nat.lt_succ_self _))).trans (hnew _ (Nat.le_refl _))
      have hsecond := hfirst.define hpos hnone
      have hbody : (inner.build ledger.declare).1 = inner.roots (ledger.next + 1) := by
        rw [build_eq, hnext]
      have hnext' : ((inner.build ledger.declare).2.define ledger.next
          (inner.build ledger.declare).1).next = ledger.next + 1 + inner.size := by
        rw [Ledger.define, Ledger.next_update, next_build, hnext]
      obtain ⟨last, hlast, hrest, hkept'⟩ := ihrest hsecond fun n hn => by
        rw [hnext'] at hn
        rw [Function.update_of_ne (by omega), hkept n (.inr (by omega))]
        exact hnew n (by omega)
      rw [hnext'] at hrest hkept'
      refine ⟨last, hlast.congr fun n => ?_, ⟨?_, ?_, hrest⟩, fun n hn => ?_⟩
      · simp only [build, List.cons_append, List.count_append, List.count_cons]
        omega
      · rw [hkept' _ (.inl (by omega)), Function.update_self, hbody]
      · refine hinner.congr fun n hle hlt => ?_
        rw [hkept' n (.inl (by omega)), Function.update_of_ne (by omega)]
      · simp only [size] at hn
        rw [hkept' n (by omega), Function.update_of_ne (by omega), hkept n (by omega)]

end Forest

namespace Ledger

/-- **Whoever owns the outer rules of a forest keeps all of its rules alive.** -/
theorem Accounts.bears {ledger : Ledger} {bodies : Nat → Option (List Nat)} {owners : List Nat}
    (h : ledger.Accounts bodies owners) {forest : Forest} {base : Nat}
    (hrecorded : forest.Recorded bodies base)
    (howned : ∀ n ∈ forest.roots base, 0 < owners.count n + ledger.references n) :
    ledger.Bears base forest := by
  induction forest generalizing base with
  | nil => exact fun n hle hlt => absurd hlt (by simp only [Forest.size]; omega)
  | cons inner rest ihinner ihrest =>
      obtain ⟨hbody, hinner, hrest⟩ := hrecorded
      obtain ⟨⟨holders, body⟩, hslot, hpos⟩ := h.exists_slot (howned base List.mem_cons_self)
      obtain rfl : body = some (inner.roots (base + 1)) := by
        have := h.body hslot
        rwa [if_neg (Nat.ne_of_gt hpos), hbody] at this
      have hroots := ihinner hinner fun n hn => by
        have hle := count_le_references hslot n
        have hcount : 0 < (inner.roots (base + 1)).count n := List.count_pos_iff.mpr hn
        simp only [Slot.held, Option.getD_some] at hle
        omega
      have hothers := ihrest hrest fun n hn => howned n (List.mem_cons_of_mem _ hn)
      intro n hle hlt
      simp only [Forest.size] at hlt
      rcases Nat.lt_or_ge n (base + 1) with hbase | hbase
      · obtain rfl : n = base := by omega
        obtain ⟨k, rfl⟩ := Nat.exists_eq_succ_of_ne_zero (Nat.ne_of_gt hpos)
        exact phase_of_slot hslot
      · rcases Nat.lt_or_ge n (base + 1 + inner.size) with hin | hout
        · exact hroots n hbase hin
        · exact hothers n hout (by omega)

end Ledger

end Backtrack
