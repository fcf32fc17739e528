import Mathlib

/-!
# Units on a stream

A stream that carries units one behind the other, each as its encoding, and the units that are
complete when the first `n` cells of it are there (`completeUnits`).
-/

namespace RbProtocol.Library

variable {α β : Type*} (encode : α → List β)

/-- The units of a stream that are complete in its first `n` cells. -/
def completeUnits : List α → ℕ → List α
  | [], _ => []
  | a :: units, n =>
    if (encode a).length ≤ n then a :: completeUnits units (n - (encode a).length) else []

/-- The complete units are the first ones, as many as fit. -/
theorem completeUnits_append (units₁ units₂ : List α) (n : ℕ) :
    completeUnits encode (units₁ ++ units₂) ((units₁.flatMap encode).length + n) =
      units₁ ++ completeUnits encode units₂ n := by
  induction units₁ with
  | nil => simp
  | cons a units₁ ih =>
    rw [List.cons_append, completeUnits, List.flatMap_cons, List.length_append,
      if_pos (by omega), List.cons_append, ← ih]
    congr 2
    omega

theorem completeUnits_initial (units : List α) (n : ℕ) :
    completeUnits encode units n <+: units := by
  induction units generalizing n with
  | nil => exact List.prefix_rfl
  | cons a units ih =>
    rw [completeUnits]
    split_ifs
    · exact List.cons_prefix_cons.2 ⟨rfl, ih _⟩
    · exact List.nil_prefix

/-- Without any cells there is no unit. -/
theorem completeUnits_zero (h : ∀ a, encode a ≠ []) (units : List α) :
    completeUnits encode units 0 = [] := by
  cases units with
  | nil => rfl
  | cons a units => exact if_neg fun hle => h a (List.length_eq_zero_iff.1 (Nat.le_zero.1 hle))

/-- All the units, when all of them are there. -/
theorem completeUnits_of_le {units : List α} {n : ℕ} (h : (units.flatMap encode).length ≤ n) :
    completeUnits encode units n = units := by
  obtain ⟨k, rfl⟩ := Nat.exists_eq_add_of_le h
  have happ := completeUnits_append encode units [] k
  rwa [List.append_nil, completeUnits, List.append_nil] at happ

end RbProtocol.Library
