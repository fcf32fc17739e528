import Mathlib

/-!
# Loops

A `while` loop as an iteration with fuel. It halts when some fuel is enough (`Halts`); then the
result does not depend on the fuel (`whileLoop_mono`). It does not halt from a state of an invariant
that the body keeps and that passes the test (`not_halts_of_invariant`).
-/

namespace RbProtocol.Library

variable {σ : Type*}

/-- `while (test) body`, at most `fuel` evaluations of the test. -/
def whileLoop (test : σ → Bool) (body : σ → σ) : ℕ → σ → Option σ
  | 0, _ => none
  | fuel + 1, s => if test s then whileLoop test body fuel (body s) else some s

/-- The loop ends. -/
def Halts (test : σ → Bool) (body : σ → σ) (s : σ) : Prop :=
  ∃ fuel, (whileLoop test body fuel s).isSome

variable {test : σ → Bool} {body : σ → σ} {s : σ}

theorem halts_of_not_test (h : test s = false) : Halts test body s :=
  ⟨1, by rw [whileLoop, h]; rfl⟩

/-- Behind a passed test the loop goes on with the body. -/
theorem halts_body_iff (h : test s = true) : Halts test body (body s) ↔ Halts test body s := by
  constructor
  · rintro ⟨fuel, hfuel⟩
    exact ⟨fuel + 1, by rwa [whileLoop, if_pos h]⟩
  · rintro ⟨_ | fuel, hfuel⟩
    · cases hfuel
    · rw [whileLoop, if_pos h] at hfuel
      exact ⟨fuel, hfuel⟩

/-- More fuel changes nothing. -/
theorem whileLoop_mono {r : σ} {m n : ℕ} (h : whileLoop test body m s = some r) (hmn : m ≤ n) :
    whileLoop test body n s = some r := by
  induction m generalizing s n with
  | zero => cases h
  | succ m ih =>
    obtain ⟨n, rfl⟩ : ∃ n', n = n' + 1 := ⟨n - 1, by omega⟩
    rw [whileLoop] at h ⊢
    split_ifs at h ⊢ with htest
    · exact ih h (Nat.le_of_succ_le_succ hmn)
    · exact h

/-- **A loop that stays in an invariant which passes the test does not end.** -/
theorem not_halts_of_invariant {I : σ → Prop} (htest : ∀ s, I s → test s = true)
    (hbody : ∀ s, I s → I (body s)) (h : I s) : ¬Halts test body s := by
  rintro ⟨fuel, hfuel⟩
  induction fuel generalizing s with
  | zero => cases hfuel
  | succ fuel ih =>
    rw [whileLoop, if_pos (htest s h)] at hfuel
    exact ih (hbody s h) hfuel

end RbProtocol.Library
