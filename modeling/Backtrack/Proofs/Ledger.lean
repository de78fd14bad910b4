import Backtrack.Rule.Phase
import Mathlib.Logic.Function.Basic

/-!
# The Ledger of Rules

A recursive rule lives in a slot. The slot is made before the body of the rule, so that the
handles in the body can point to it, and the body is put in once it is there. A parser that
is the rule owns the slot; a handle points to the slot without owning it. The slot counts its
owners. When the last one lets go, the body is destroyed, and what the body owned is let go
in turn.

The ledger is the list of all slots ever made, so that the number of a slot is never used
again and a handle never finds another rule than its own.

## Main definitions

* `Slot`, `Ledger`: the slots with their counts.
* `Ledger.declare`, `Ledger.define`, `Ledger.hold`, `Ledger.release`: what is done to them.
* `Ledger.phase`: what a handle finds.
* `Ledger.Accounts`: the counts are right.

## Main results

* `Ledger.Accounts.declare`, `Ledger.Accounts.define`, `Ledger.Accounts.hold`,
  `Ledger.Accounts.release`: the counts stay right, also when a release destroys one body
  after another.
-/

namespace Backtrack

/-- The **slot of a rule**. -/
structure Slot where
  /-- The number of owners. -/
  holders : Nat
  /-- The slots that the body of the rule owns, while there is a body. -/
  body : Option (List Nat)
  deriving DecidableEq

namespace Slot

/-- What a slot makes its body own. -/
def held (slot : Slot) : List Nat := slot.body.getD []

/-- The slot of a rule that is being made. -/
def fresh : Slot := ⟨1, none⟩

/-- The slot of a rule that nobody owns any more. -/
def dead : Slot := ⟨0, none⟩

/-- One more owner. -/
def gain (slot : Slot) : Slot := { slot with holders := slot.holders + 1 }

/-- One owner less. -/
def lose (slot : Slot) : Slot := { slot with holders := slot.holders - 1 }

/-- The slot with its body. -/
def fill (held : List Nat) (slot : Slot) : Slot := { slot with body := some held }

/-- What a handle finds at a slot. It asks for an owner first, and for a body then. -/
def phase : Slot → Phase
  | ⟨0, _⟩ => .dropped
  | ⟨_ + 1, none⟩ => .undefined
  | ⟨_ + 1, some _⟩ => .defined

end Slot

/-- The **ledger**: all slots ever made, by number. -/
structure Ledger where
  /-- The slots. -/
  slots : List Slot := []
  deriving DecidableEq

namespace Ledger

/-- The number of the next slot. -/
def next (ledger : Ledger) : Nat := ledger.slots.length

/-- Changes one slot. -/
def update (ledger : Ledger) (n : Nat) (f : Slot → Slot) : Ledger :=
  ⟨ledger.slots.modify n f⟩

/-- **Makes a slot** for a rule that is to be defined; it is owned by its maker. -/
def declare (ledger : Ledger) : Ledger := ⟨ledger.slots ++ [.fresh]⟩

/-- **Puts a body into a slot**; what was owned for the body is owned by it now. -/
def define (ledger : Ledger) (n : Nat) (held : List Nat) : Ledger :=
  ledger.update n (Slot.fill held)

/-- **One more owner** for each slot named, as often as it is named. -/
def hold (ledger : Ledger) (ns : List Nat) : Ledger :=
  ns.foldl (fun l n => l.update n Slot.gain) ledger

/-- What a handle finds. -/
def phase (ledger : Ledger) (n : Nat) : Phase :=
  ledger.slots[n]?.elim .dropped Slot.phase

theorem phase_of_slot {ledger : Ledger} {n : Nat} {slot : Slot} (h : ledger.slots[n]? = some slot) :
    ledger.phase n = slot.phase := by
  rw [phase, h]
  rfl

/-- A sum over all slots. -/
def sum (ledger : Ledger) (f : Slot → Nat) : Nat :=
  ledger.slots.foldr (fun slot rest => f slot + rest) 0

/-- The number of times that slots are owned. -/
def total (ledger : Ledger) : Nat := ledger.sum Slot.holders

/-- The number of times that bodies own a slot. -/
def references (ledger : Ledger) (n : Nat) : Nat := ledger.sum fun slot => slot.held.count n

/-- A sum over the slots when one slot changes. -/
theorem sum_update {ledger : Ledger} {n : Nat} {slot : Slot} (h : ledger.slots[n]? = some slot)
    (f : Slot → Nat) (g : Slot → Slot) :
    (ledger.update n g).sum f + f slot = ledger.sum f + f (g slot) := by
  obtain ⟨slots⟩ := ledger
  simp only [sum, update] at h ⊢
  induction slots generalizing n with
  | nil => simp at h
  | cons first rest ih =>
      cases n with
      | zero =>
          obtain rfl : first = slot := by simpa using h
          simp only [List.modify_zero_cons, List.foldr_cons]
          omega
      | succ n =>
          have hrest := ih (n := n) (by simpa using h)
          simp only [List.modify_succ_cons, List.foldr_cons]
          omega

/-- A sum that is not zero has a summand that is not. -/
theorem exists_of_sum_pos {ledger : Ledger} {f : Slot → Nat} (h : 0 < ledger.sum f) :
    ∃ (n : Nat) (slot : Slot), ledger.slots[n]? = some slot ∧ 0 < f slot := by
  obtain ⟨slots⟩ := ledger
  simp only [sum] at h ⊢
  induction slots with
  | nil => exact absurd h (Nat.lt_irrefl 0)
  | cons first rest ih =>
      rw [List.foldr_cons] at h
      rcases Nat.eq_zero_or_pos (f first) with hzero | hpos
      · obtain ⟨n, slot, hslot, hf⟩ := ih (by omega)
        exact ⟨n + 1, slot, hslot, hf⟩
      · exact ⟨0, first, rfl, hpos⟩

theorem total_update {ledger : Ledger} {n : Nat} {slot : Slot}
    (h : ledger.slots[n]? = some slot) (g : Slot → Slot) :
    (ledger.update n g).total + slot.holders = ledger.total + (g slot).holders :=
  sum_update h Slot.holders g

theorem references_update {ledger : Ledger} {n : Nat} {slot : Slot}
    (h : ledger.slots[n]? = some slot) (g : Slot → Slot) (k : Nat) :
    (ledger.update n g).references k + slot.held.count k =
      ledger.references k + (g slot).held.count k :=
  sum_update h (fun slot => slot.held.count k) g

/-- What a body owns is counted among the references. -/
theorem count_le_references {ledger : Ledger} {n : Nat} {slot : Slot}
    (h : ledger.slots[n]? = some slot) (k : Nat) :
    slot.held.count k ≤ ledger.references k := by
  have hempty := references_update h (fun _ => .dead) k
  simp only [Slot.dead, Slot.held, Option.getD_none, List.count_nil] at hempty ⊢
  omega

/-- What is referred to is owned by some body. -/
theorem exists_of_references_pos {ledger : Ledger} {n : Nat} (h : 0 < ledger.references n) :
    ∃ (k : Nat) (slot : Slot), ledger.slots[k]? = some slot ∧ n ∈ slot.held := by
  obtain ⟨k, slot, hslot, hpos⟩ := exists_of_sum_pos h
  exact ⟨k, slot, hslot, List.count_pos_iff.mp hpos⟩

/-- **Lets go of slots**, one owner each time a slot is named. The last owner of a slot
destroys the body, which lets go of what it owned before anything else happens. -/
def release (ledger : Ledger) : List Nat → Ledger
  | [] => ledger
  | n :: rest =>
    match _h : ledger.slots[n]? with
    | none => ledger.release rest
    | some ⟨0, _⟩ => ledger.release rest
    | some ⟨1, body⟩ => (ledger.update n fun _ => .dead).release (body.getD [] ++ rest)
    | some ⟨_ + 2, _⟩ => (ledger.update n Slot.lose).release rest
  termination_by ns => (ledger.total, ns.length)
  decreasing_by
    · exact Prod.Lex.right _ (Nat.lt_succ_self _)
    · exact Prod.Lex.right _ (Nat.lt_succ_self _)
    · have := total_update ‹_› fun _ => .dead
      refine Prod.Lex.left _ _ ?_
      simp only [Slot.dead] at this ⊢
      omega
    · have := total_update ‹_› Slot.lose
      refine Prod.Lex.left _ _ ?_
      simp only [Slot.lose] at this
      omega

/-! ### One release at a time -/

@[simp]
theorem release_nil (ledger : Ledger) : ledger.release [] = ledger := by
  rw [release]

/-- To let go of what is gone, or was never there, does nothing. -/
theorem release_of_dropped {ledger : Ledger} {n : Nat} (h : ledger.phase n = .dropped)
    (rest : List Nat) : ledger.release (n :: rest) = ledger.release rest := by
  rw [release]
  split
  · rfl
  · rfl
  · next body hslot => cases body <;> simp [phase, hslot, Slot.phase] at h
  · next body hslot => cases body <;> simp [phase, hslot, Slot.phase] at h

/-- **The last owner** takes the body with it. -/
theorem release_last {ledger : Ledger} {n : Nat} {body : Option (List Nat)}
    (h : ledger.slots[n]? = some ⟨1, body⟩) (rest : List Nat) :
    ledger.release (n :: rest) =
      (ledger.update n fun _ => .dead).release (body.getD [] ++ rest) := by
  rw [release]
  split <;> simp_all

/-- **One of several owners** takes nothing with it. -/
theorem release_shared {ledger : Ledger} {n : Nat} {slot : Slot}
    (h : ledger.slots[n]? = some slot) (hmany : 1 < slot.holders) (rest : List Nat) :
    ledger.release (n :: rest) = (ledger.update n Slot.lose).release rest := by
  obtain ⟨holders, body⟩ := slot
  obtain ⟨k, rfl⟩ : ∃ k, holders = k + 2 := Nat.exists_eq_add_of_le' hmany
  rw [release]
  split <;> simp_all

/-! ### What is where after a change -/

@[simp]
theorem next_update (ledger : Ledger) (n : Nat) (f : Slot → Slot) :
    (ledger.update n f).next = ledger.next := by
  simp [next, update]

theorem slot_update (ledger : Ledger) (n : Nat) (f : Slot → Slot) (k : Nat) :
    (ledger.update n f).slots[k]? =
      ledger.slots[k]?.map fun slot => if n = k then f slot else slot := by
  simp [update, List.getElem?_modify]

theorem slot_update_self {ledger : Ledger} {n : Nat} {slot : Slot}
    (h : ledger.slots[n]? = some slot) (f : Slot → Slot) :
    (ledger.update n f).slots[n]? = some (f slot) := by
  simp [slot_update, h]

theorem slot_update_of_ne {n k : Nat} (h : n ≠ k) (ledger : Ledger) (f : Slot → Slot) :
    (ledger.update n f).slots[k]? = ledger.slots[k]? := by
  simp [slot_update, h]

@[simp]
theorem next_declare (ledger : Ledger) : ledger.declare.next = ledger.next + 1 := by
  simp [next, declare]

@[simp]
theorem next_define (ledger : Ledger) (n : Nat) (held : List Nat) :
    (ledger.define n held).next = ledger.next :=
  next_update ledger n _

@[simp]
theorem next_hold (ledger : Ledger) (ns : List Nat) : (ledger.hold ns).next = ledger.next := by
  induction ns generalizing ledger with
  | nil => rfl
  | cons n ns ih => exact (ih _).trans (next_update ledger n _)

@[simp]
theorem next_release (ledger : Ledger) (ns : List Nat) :
    (ledger.release ns).next = ledger.next := by
  induction ledger, ns using Ledger.release.induct with
  | case1 ledger => rw [release_nil]
  | case2 ledger n rest hslot ih =>
      rwa [release_of_dropped (by rw [phase, hslot]; rfl)]
  | case3 ledger n rest body hslot ih =>
      rwa [release_of_dropped (by rw [phase, hslot]; rfl)]
  | case4 ledger n rest body hslot ih => rw [release_last hslot, ih, next_update]
  | case5 ledger n rest holders body hslot ih =>
      rw [release_shared hslot (by simp), ih, next_update]

/-- What is there after a slot was made: what was there before, or the new slot. -/
theorem slot_declare {ledger : Ledger} {n : Nat} {slot : Slot}
    (h : ledger.declare.slots[n]? = some slot) :
    (n ≠ ledger.next ∧ ledger.slots[n]? = some slot) ∨ (n = ledger.next ∧ slot = .fresh) := by
  have hn : n < ledger.next + 1 := by
    rw [← next_declare]
    exact (List.getElem?_eq_some_iff.mp h).1
  rcases Nat.lt_succ_iff_lt_or_eq.mp hn with hlt | rfl
  · rw [declare, List.getElem?_append_left hlt] at h
    exact .inl ⟨Nat.ne_of_lt hlt, h⟩
  · rw [declare, next, List.getElem?_concat_length] at h
    exact .inr ⟨rfl, (Option.some.inj h).symm⟩

/-! ### The counts -/

/-- **The counts are right**: the number of holders of a slot is the number of times it is owned,
by the owners listed or by a body, and a slot with holders has the body of its rule, if that is
there, while one without has none. -/
structure Accounts (ledger : Ledger) (bodies : Nat → Option (List Nat)) (owners : List Nat) :
    Prop where
  /-- Whoever owns a slot is counted. -/
  holders : ∀ {n slot}, ledger.slots[n]? = some slot →
    slot.holders = owners.count n + ledger.references n
  /-- What is owned is a slot. -/
  owned : ∀ {n}, 0 < owners.count n + ledger.references n → n < ledger.next
  /-- A body lasts as long as its slot has holders. -/
  body : ∀ {n slot}, ledger.slots[n]? = some slot →
    slot.body = if slot.holders = 0 then none else bodies n

namespace Accounts

variable {ledger : Ledger} {bodies : Nat → Option (List Nat)} {owners : List Nat}

/-- There is a slot for whatever is owned, and it has holders. -/
theorem exists_slot (h : ledger.Accounts bodies owners) {n : Nat}
    (hn : 0 < owners.count n + ledger.references n) :
    ∃ slot, ledger.slots[n]? = some slot ∧ 0 < slot.holders := by
  obtain ⟨slot, hslot⟩ : ∃ slot, ledger.slots[n]? = some slot :=
    ⟨_, List.getElem?_eq_getElem (h.owned hn)⟩
  exact ⟨slot, hslot, by rwa [h.holders hslot]⟩

/-- The order of the owners does not matter. -/
theorem congr (h : ledger.Accounts bodies owners) {others : List Nat}
    (hcount : ∀ n, others.count n = owners.count n) : ledger.Accounts bodies others where
  holders hslot := by rw [hcount]; exact h.holders hslot
  owned hn := h.owned (by rwa [hcount] at hn)
  body := h.body

/-- Nobody owns anything in an empty ledger. -/
theorem empty : ({} : Ledger).Accounts (fun _ => none) [] where
  holders h := nomatch h
  owned h := absurd h (Nat.lt_irrefl 0)
  body h := nomatch h

/-- A new slot is owned by its maker. -/
theorem declare (h : ledger.Accounts bodies owners) (hnew : bodies ledger.next = none) :
    ledger.declare.Accounts bodies (ledger.next :: owners) := by
  have hreferences (n : Nat) : ledger.declare.references n = ledger.references n := by
    simp [references, sum, Ledger.declare, Slot.held, Slot.fresh]
  have hfresh : owners.count ledger.next + ledger.references ledger.next = 0 :=
    Nat.eq_zero_of_not_pos fun hpos => Nat.lt_irrefl _ (h.owned hpos)
  constructor
  · intro n slot hslot
    rw [hreferences]
    obtain ⟨hne, hslot⟩ | ⟨rfl, rfl⟩ := slot_declare hslot
    · rw [List.count_cons_of_ne hne.symm]
      exact h.holders hslot
    · rw [List.count_cons_self]
      simp only [Slot.fresh]
      omega
  · intro n hn
    rw [next_declare]
    by_cases hne : n = ledger.next
    · exact hne ▸ Nat.lt_succ_self _
    · rw [hreferences, List.count_cons_of_ne (Ne.symm hne)] at hn
      exact Nat.lt_succ_of_lt (h.owned hn)
  · intro n slot hslot
    obtain ⟨-, hslot⟩ | ⟨rfl, rfl⟩ := slot_declare hslot
    · exact h.body hslot
    · exact hnew.symm

/-- The counts stay right when a slot changes so that its holders and the slots that it makes
its body own change with the owners. -/
private theorem update (h : ledger.Accounts bodies owners) {n : Nat} {slot : Slot}
    (hslot : ledger.slots[n]? = some slot) {f : Slot → Slot} {others : List Nat}
    {bodies' : Nat → Option (List Nat)} (hbodies : ∀ k, k ≠ n → bodies' k = bodies k)
    (hcount : ∀ k, others.count k + (f slot).held.count k + (if k = n then slot.holders else 0) =
      owners.count k + slot.held.count k + (if k = n then (f slot).holders else 0))
    (hbody : (f slot).body = if (f slot).holders = 0 then none else bodies' n) :
    (ledger.update n f).Accounts bodies' others := by
  have hcases {k : Nat} {other : Slot} (hother : (ledger.update n f).slots[k]? = some other) :
      (k ≠ n ∧ ledger.slots[k]? = some other) ∨ (k = n ∧ other = f slot) := by
    by_cases hk : n = k
    · subst hk
      rw [slot_update_self hslot] at hother
      exact .inr ⟨rfl, (Option.some.inj hother).symm⟩
    · rw [slot_update_of_ne hk] at hother
      exact .inl ⟨Ne.symm hk, hother⟩
  constructor
  · intro k other hother
    have hreferences := references_update hslot f k
    have hk := hcount k
    obtain ⟨hne, hother⟩ | ⟨rfl, rfl⟩ := hcases hother
    · have hholders := h.holders hother
      simp only [if_neg hne] at hk
      omega
    · have hholders := h.holders hslot
      simp only [if_pos] at hk
      omega
  · intro k hpos
    rw [next_update]
    by_cases hk : k = n
    · subst hk
      exact List.getElem?_eq_some_iff.mp hslot |>.1
    · have hreferences := references_update hslot f k
      have hcount := hcount k
      simp only [if_neg hk] at hcount
      exact h.owned (by omega)
  · intro k other hother
    obtain ⟨hne, hother⟩ | ⟨rfl, rfl⟩ := hcases hother
    · rw [hbodies k hne]
      exact h.body hother
    · exact hbody

/-- **A body comes into its slot** and owns what was owned for it. -/
theorem define {held : List Nat} (h : ledger.Accounts bodies (held ++ owners)) {n : Nat}
    (hn : 0 < (held ++ owners).count n + ledger.references n) (hnone : bodies n = none) :
    (ledger.define n held).Accounts (Function.update bodies n (some held)) owners := by
  obtain ⟨slot, hslot, hpos⟩ := h.exists_slot hn
  have hempty : slot.body = none := by
    rw [h.body hslot, hnone, ite_self]
  refine h.update hslot (fun k hk => Function.update_of_ne hk _ _) (fun k => ?_) ?_
  · simp only [Slot.fill, Slot.held, hempty, Option.getD_none, Option.getD_some, List.count_append,
      List.count_nil]
    omega
  · rw [Function.update_self]
    exact (if_neg (Nat.ne_of_gt hpos)).symm

/-- What is owned already can be **owned once more**. -/
theorem hold (h : ledger.Accounts bodies owners) {ns : List Nat}
    (hns : ∀ n ∈ ns, 0 < owners.count n + ledger.references n) :
    (ledger.hold ns).Accounts bodies (ns ++ owners) := by
  induction ns generalizing ledger owners with
  | nil => exact h
  | cons n ns ih =>
      obtain ⟨slot, hslot, hpos⟩ := h.exists_slot (hns n List.mem_cons_self)
      have hheld : (ledger.update n Slot.gain).references = ledger.references := by
        funext k
        have := references_update hslot Slot.gain k
        simp only [Slot.gain, Slot.held] at this
        omega
      have hgain : (ledger.update n Slot.gain).Accounts bodies (n :: owners) := by
        refine h.update hslot (fun _ _ => rfl) (fun k => ?_) ?_
        · rw [List.count_cons]
          simp only [Slot.gain, Slot.held, beq_iff_eq, eq_comm (a := n)]
          split <;> omega
        · rw [Slot.gain, h.body hslot, if_neg (Nat.ne_of_gt hpos), if_neg (Nat.succ_ne_zero _)]
      have hrest := ih hgain fun m hm => by
        rw [hheld, List.count_cons]
        have := hns m (List.mem_cons_of_mem _ hm)
        omega
      exact hrest.congr fun k => by simp only [List.count_append, List.count_cons]; omega

/-- **After a release the counts are right** for the owners that are left, however many bodies
were destroyed on the way. -/
theorem release {ns : List Nat} (h : ledger.Accounts bodies (ns ++ owners)) :
    (ledger.release ns).Accounts bodies owners := by
  induction ledger, ns using Ledger.release.induct with
  | case1 ledger => rwa [release_nil]
  | case2 ledger n rest hslot ih =>
      have hpos : 0 < (n :: rest ++ owners).count n + ledger.references n := by
        rw [List.cons_append, List.count_cons_self]
        omega
      obtain ⟨slot, hsome, -⟩ := h.exists_slot hpos
      rw [hslot] at hsome
      cases hsome
  | case3 ledger n rest body hslot ih =>
      have := h.holders hslot
      simp only [List.cons_append, List.count_cons_self] at this
      omega
  | case4 ledger n rest body hslot ih =>
      rw [release_last hslot]
      refine ih (h.update hslot (fun _ _ => rfl) (fun k => ?_) rfl)
      simp only [Slot.dead, Slot.held, Option.getD_none, List.cons_append, List.append_assoc,
        List.count_append, List.count_cons, List.count_nil, beq_iff_eq, eq_comm (a := n)]
      split <;> omega
  | case5 ledger n rest holders body hslot ih =>
      rw [release_shared hslot (by simp)]
      refine ih (h.update hslot (fun _ _ => rfl) (fun k => ?_) ?_)
      · simp only [Slot.lose, Slot.held, List.cons_append, List.count_cons, beq_iff_eq,
          eq_comm (a := n)]
        split <;> omega
      · have := h.body hslot
        simpa [Slot.lose] using this

end Accounts

end Ledger

end Backtrack
