/-!
# Nested Lists in Brackets

A nested list is an atom or a list of nested lists. Written down, an atom is one token and a
list stands between two tokens that serve as its brackets. An atom is proper if it is neither
of these.

How deep a place in such a text lies is seen from the tokens before it: it is the number of
opening brackets less that of the closing ones, here called the surplus. The text of a nested
list has no surplus as a whole, and no part of it from its start has more than the lists nest.

The recursion of the definitions goes from a nested list to its items and from these to each of
them, and so do the inductions.

## Main definitions

* `SExpr`: nested lists.
* `SExpr.print`, `SExpr.nesting`, `SExpr.Proper`: their tokens, how deep they nest, and whether
  their atoms can be told from brackets.
* `surplus`, `Rises`: the surplus of opening brackets, and where it first comes to a number.

## Main results

* `SExpr.surplus_print`: the brackets of a nested list are balanced.
* `SExpr.surplus_take_print_le`: no part from the start has more surplus than the lists nest.
* `Rises.cons_left`, `Rises.append_left`, `Rises.append_right`: where the surplus rises in a longer
  text.
-/

namespace Backtrack

variable {τ : Type}

/-- **Nested lists** with tokens as atoms. -/
inductive SExpr (τ : Type) where
  /-- One token. -/
  | atom (token : τ)
  /-- A list of nested lists. -/
  | list (items : List (SExpr τ))

namespace SExpr

mutual

/-- The **tokens of a nested list**, with `left` and `right` as brackets. -/
def print (left right : τ) : SExpr τ → List τ
  | .atom token => [token]
  | .list items => left :: (printAll left right items ++ [right])

/-- The tokens of several nested lists, one behind the other. -/
def printAll (left right : τ) : List (SExpr τ) → List τ
  | [] => []
  | item :: items => print left right item ++ printAll left right items

end

mutual

/-- How deep **lists nest**: an atom is no list, and the empty list is one. -/
def nesting : SExpr τ → Nat
  | .atom _ => 0
  | .list items => nestingAll items + 1

/-- How deep the lists among several nest. -/
def nestingAll : List (SExpr τ) → Nat
  | [] => 0
  | item :: items => max (nesting item) (nestingAll items)

end

mutual

/-- A nested list **whose atoms are not brackets**. -/
def Proper (left right : τ) : SExpr τ → Prop
  | .atom token => token ≠ left ∧ token ≠ right
  | .list items => ProperAll left right items

/-- Nested lists whose atoms are not brackets. -/
def ProperAll (left right : τ) : List (SExpr τ) → Prop
  | [] => True
  | item :: items => Proper left right item ∧ ProperAll left right items

end

/-- Every nested list is written with a token. -/
theorem length_print_pos (left right : τ) (t : SExpr τ) : 0 < (t.print left right).length := by
  cases t with
  | atom token => exact Nat.one_pos
  | list items => exact Nat.succ_pos _

/-- What follows the text of a list follows its closing bracket. -/
theorem print_list_append (left right : τ) (items : List (SExpr τ)) (tokens : List τ) :
    (list items).print left right ++ tokens =
      left :: (printAll left right items ++ right :: tokens) := by
  rw [print, List.cons_append, List.append_assoc, List.singleton_append]

end SExpr

/-! ### The surplus of opening brackets -/

variable [DecidableEq τ]

/-- The **surplus** of opening brackets: how many more there are than closing ones. -/
def surplus (left right : τ) (tokens : List τ) : Int :=
  (tokens.count left : Int) - (tokens.count right : Int)

section

variable {left right : τ}

@[simp]
theorem surplus_nil : surplus left right [] = 0 := rfl

@[simp]
theorem surplus_append (xs ys : List τ) :
    surplus left right (xs ++ ys) = surplus left right xs + surplus left right ys := by
  simp only [surplus, List.count_append]
  omega

theorem surplus_cons_left (hne : left ≠ right) (tokens : List τ) :
    surplus left right (left :: tokens) = surplus left right tokens + 1 := by
  simp only [surplus, List.count_cons_self, List.count_cons_of_ne hne]
  omega

theorem surplus_right (hne : left ≠ right) : surplus left right [right] = -1 := by
  simp only [surplus, List.count_cons_self, List.count_cons_of_ne hne.symm, List.count_nil]
  omega

theorem surplus_atom {token : τ} (hleft : token ≠ left) (hright : token ≠ right) :
    surplus left right [token] = 0 := by
  simp only [surplus, List.count_cons_of_ne hleft, List.count_cons_of_ne hright, List.count_nil]
  omega

/-- The first place where the surplus **rises** to `n`: before it, there was less. -/
structure Rises (left right : τ) (n : Nat) (tokens : List τ) (i : Nat) : Prop where
  surplus_eq : surplus left right (tokens.take i) = n
  surplus_lt : ∀ j < i, surplus left right (tokens.take j) < n

/-- At the start there is no surplus. -/
theorem rises_zero (tokens : List τ) : Rises left right 0 tokens 0 :=
  ⟨rfl, fun _ hj => absurd hj (Nat.not_lt_zero _)⟩

namespace Rises

variable {n i : Nat} {xs : List τ}

/-- The place is unique. -/
theorem unique {j : Nat} (h : Rises left right n xs i) (h' : Rises left right n xs j) :
    i = j := by
  rcases Nat.lt_trichotomy i j with hlt | heq | hlt
  · have hless := h'.surplus_lt i hlt
    rw [h.surplus_eq] at hless
    exact absurd hless (Int.lt_irrefl _)
  · exact heq
  · have hless := h.surplus_lt j hlt
    rw [h'.surplus_eq] at hless
    exact absurd hless (Int.lt_irrefl _)

/-- The surplus does not rise behind the end. -/
theorem le_length (h : Rises left right n xs i) : i ≤ xs.length := by
  refine Nat.not_lt.mp fun hlt => ?_
  have hless := h.surplus_lt xs.length hlt
  have hwhole := h.surplus_eq
  rw [List.take_of_length_le (Nat.le_of_lt hlt)] at hwhole
  rw [List.take_length, hwhole] at hless
  exact Int.lt_irrefl _ hless

/-- Behind an opening bracket the surplus is one more. -/
theorem cons_left (hne : left ≠ right) (h : Rises left right n xs i) :
    Rises left right (n + 1) (left :: xs) (i + 1) := by
  constructor
  · rw [List.take_succ_cons, surplus_cons_left hne, h.surplus_eq]
    rfl
  · intro j hj
    cases j with
    | zero =>
        rw [List.take_zero, surplus_nil]
        omega
    | succ j =>
        have hless := h.surplus_lt j (Nat.lt_of_succ_lt_succ hj)
        rw [List.take_succ_cons, surplus_cons_left hne]
        omega

/-- What comes later makes no difference. -/
theorem append_right (h : Rises left right n xs i) (ys : List τ) :
    Rises left right n (xs ++ ys) i := by
  have hle := h.le_length
  constructor
  · rw [List.take_append_of_le_length hle]
    exact h.surplus_eq
  · intro j hj
    rw [List.take_append_of_le_length (Nat.le_trans (Nat.le_of_lt hj) hle)]
    exact h.surplus_lt j hj

/-- What came before makes no difference, if it is balanced and did not rise to `n`. -/
theorem append_left {ys : List τ} (hbalanced : surplus left right xs = 0)
    (hbelow : ∀ j, surplus left right (xs.take j) < n) (h : Rises left right n ys i) :
    Rises left right n (xs ++ ys) (xs.length + i) := by
  constructor
  · rw [List.take_length_add_append, surplus_append, hbalanced, h.surplus_eq, Int.zero_add]
  · intro j hj
    rcases Nat.le_total j xs.length with hle | hle
    · rw [List.take_append_of_le_length hle]
      exact hbelow j
    · obtain ⟨k, rfl⟩ := Nat.exists_eq_add_of_le hle
      rw [List.take_length_add_append, surplus_append, hbalanced, Int.zero_add]
      exact h.surplus_lt k (Nat.lt_of_add_lt_add_left hj)

end Rises

/-! ### The surplus in the text of nested lists -/

namespace SExpr

mutual

/-- **The brackets of a nested list are balanced.** -/
theorem surplus_print (hne : left ≠ right) : (t : SExpr τ) → t.Proper left right →
    surplus left right (t.print left right) = 0
  | .atom token, h => surplus_atom h.1 h.2
  | .list items, h => by
      have hitems := surplus_printAll hne items h
      rw [print, surplus_cons_left hne, surplus_append, hitems, surplus_right hne]
      rfl

/-- So are those of several. -/
theorem surplus_printAll (hne : left ≠ right) : (items : List (SExpr τ)) →
    ProperAll left right items → surplus left right (printAll left right items) = 0
  | [], _ => rfl
  | item :: items, h => by
      rw [printAll, surplus_append, surplus_print hne item h.1, surplus_printAll hne items h.2]
      rfl

end

/-- A part from the start of an atom, or of nothing, has no surplus. -/
private theorem surplus_take_atom {token : τ} (hleft : token ≠ left) (hright : token ≠ right)
    (k : Nat) : surplus left right ([token].take k) = 0 := by
  cases k with
  | zero => rfl
  | succ k => simpa using surplus_atom hleft hright

mutual

/-- **No part from the start of a nested list has more surplus than its lists nest.** -/
theorem surplus_take_print_le (hne : left ≠ right) : (t : SExpr τ) → t.Proper left right →
    (k : Nat) → surplus left right ((t.print left right).take k) ≤ t.nesting
  | .atom token, h, k => Int.le_of_eq (surplus_take_atom h.1 h.2 k)
  | .list items, h, 0 => by
      rw [List.take_zero, surplus_nil]
      omega
  | .list items, h, k + 1 => by
      rw [print, List.take_succ_cons, surplus_cons_left hne, nesting]
      rcases Nat.le_total k (printAll left right items).length with hle | hle
      · have hitems := surplus_take_printAll_le hne items h k
        rw [List.take_append_of_le_length hle]
        omega
      · -- The items are all there, so the part is balanced but for its brackets.
        obtain ⟨m, rfl⟩ := Nat.exists_eq_add_of_le hle
        rw [List.take_length_add_append, surplus_append, surplus_printAll hne items h]
        cases m with
        | zero =>
            rw [List.take_zero, surplus_nil]
            omega
        | succ m =>
            rw [List.take_succ_cons, List.take_nil, surplus_right hne]
            omega

/-- Nor does a part from the start of several. -/
theorem surplus_take_printAll_le (hne : left ≠ right) : (items : List (SExpr τ)) →
    ProperAll left right items → (k : Nat) →
    surplus left right ((printAll left right items).take k) ≤ nestingAll items
  | [], _, k => by
      rw [printAll, List.take_nil, surplus_nil]
      omega
  | item :: items, h, k => by
      rw [printAll, nestingAll]
      rcases Nat.le_total k (item.print left right).length with hle | hle
      · have hitem := surplus_take_print_le hne item h.1 k
        rw [List.take_append_of_le_length hle]
        omega
      · obtain ⟨m, rfl⟩ := Nat.exists_eq_add_of_le hle
        have hitems := surplus_take_printAll_le hne items h.2 m
        rw [List.take_length_add_append, surplus_append, surplus_print hne item h.1]
        omega

end

end SExpr

end

end Backtrack
