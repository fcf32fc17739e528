import Mathlib.Algebra.BigOperators.Group.List.Basic
import Mathlib.Algebra.GroupWithZero.Nat
import Mathlib.Algebra.Order.BigOperators.Group.List

/-!
# Preorder by counts of children

A list of numbers, one for each node of a forest in preorder: how many children the node has. The
list is a `Forest` when the children counted from any node on fit behind it, which is kept when a
node is appended, with or without a parent in the list. A walk that is at a position and has `k`
subtrees to go `Fits` when they and what they count end inside the list; visiting a node trades it
for its children.
-/

namespace RbProtocol.Library

variable {sizes : List ℕ} {i j k n : ℕ}

/-- The children counted from any node on are among the nodes behind it. -/
def Forest (sizes : List ℕ) : Prop := ∀ i < sizes.length, (sizes.drop i).sum + i < sizes.length

/-- `k` subtrees from the position `i` on end inside the list. -/
def Fits (sizes : List ℕ) (i k : ℕ) : Prop := k + (sizes.drop i).sum + i ≤ sizes.length

/-! ## Growing a forest -/

theorem Forest.nil : Forest [] := fun _ h => absurd h (Nat.not_lt_zero _)

/-- A node without children and without a parent. -/
theorem Forest.leaf (h : Forest sizes) : Forest (sizes ++ [0]) := by
  intro i hi
  rw [List.length_append, List.length_singleton] at hi ⊢
  rcases Nat.lt_succ_iff_lt_or_eq.1 hi with hi | rfl
  · have := h i hi
    rw [List.drop_append_of_le_length hi.le, List.sum_append, List.sum_singleton]
    omega
  · rw [List.drop_left, List.sum_singleton]
    omega

/-- Counting one child more, at the position `i`. -/
theorem sum_drop_modify (sizes : List ℕ) (i k : ℕ) :
    ((sizes.modify i (· + 1)).drop k).sum =
      (sizes.drop k).sum + if k ≤ i ∧ i < sizes.length then 1 else 0 := by
  induction sizes generalizing i k with
  | nil => simp
  | cons size sizes ih =>
    have hlt (i : ℕ) : i + 1 < (size :: sizes).length ↔ i < sizes.length := by
      rw [List.length_cons, Nat.succ_lt_succ_iff]
    cases k with
    | zero =>
      cases i with
      | zero => simp [Nat.add_right_comm]
      | succ i =>
        have hi := ih i 0
        rw [List.drop_zero, List.drop_zero] at hi
        simp only [List.modify_succ_cons, List.drop_zero, List.sum_cons, hi, hlt, Nat.zero_le,
          true_and, Nat.add_assoc]
    | succ k =>
      cases i with
      | zero => simp
      | succ i =>
        simp only [List.modify_succ_cons, List.drop_succ_cons, ih, hlt, Nat.add_le_add_iff_right]

/-- A node without children, as a child of the node at `i`. -/
theorem Forest.child (h : Forest sizes) (hi : i < sizes.length) :
    Forest ((sizes ++ [0]).modify i (· + 1)) := by
  intro k hk
  rw [List.length_modify, List.length_append, List.length_singleton] at hk ⊢
  rw [sum_drop_modify]
  rcases Nat.lt_succ_iff_lt_or_eq.1 hk with hk | rfl
  · have := h k hk
    rw [List.drop_append_of_le_length hk.le, List.sum_append, List.sum_singleton]
    split_ifs <;> omega
  · rw [List.drop_left, List.sum_singleton, if_neg fun hle => absurd hle.1 (Nat.not_le.2 hi)]
    omega

/-! ## Walking a forest -/

theorem Fits.lt (h : Fits sizes i (k + 1)) : i < sizes.length := by
  rw [Fits] at h
  omega

theorem Fits.mono (h : Fits sizes i k) (hle : j ≤ k) : Fits sizes i j := by
  rw [Fits] at h ⊢
  omega

/-- A node is read, and its children take its place. -/
theorem Fits.visit (h : Fits sizes i (k + 1)) (hi : sizes[i]? = some n) :
    Fits sizes (i + 1) (n + k) := by
  obtain ⟨hlt, rfl⟩ := List.getElem?_eq_some_iff.1 hi
  rw [Fits, List.drop_eq_getElem_cons hlt, List.sum_cons] at h
  rw [Fits]
  omega

/-- The walk of the first tree. -/
theorem Forest.fits (h : Forest sizes) (hne : sizes ≠ []) : Fits sizes 0 1 := by
  have := h 0 (List.length_pos_iff.2 hne)
  rw [Fits]
  omega

end RbProtocol.Library
