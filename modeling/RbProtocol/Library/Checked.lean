import RbProtocol.Library.Runs

/-!
# Checked arithmetic

Integer operations of a language in which a result out of range is an error: they give a result only
if it is in range. A machine written with them is a checked machine, whose steps and runs may fail.
If its steps are those of a machine on the inputs that meet a condition, then so are its runs
(`CheckedMachine.run_eq`).
-/

namespace RbProtocol.Library

/-! ## Integers -/

/-- An integer as a signed integer of `w + 1` bits. -/
def toSigned? (w : ℕ) (n : ℤ) : Option ℤ := if -2 ^ w ≤ n ∧ n < 2 ^ w then some n else none

/-- The difference of two signed integers of `w + 1` bits. -/
def sub? (w : ℕ) (a b : ℤ) : Option ℤ := toSigned? w (a - b)

/-- A difference that is not negative is in range if it is not too large. -/
theorem sub?_of_le (w : ℕ) {a b : ℤ} (h : b ≤ a) :
    sub? w a b = if a - b < 2 ^ w then some (a - b) else none := by
  have hlow : -2 ^ w ≤ a - b := (neg_nonpos.2 (by positivity)).trans (sub_nonneg.2 h)
  rw [sub?, toSigned?]
  simp only [hlow, true_and]

/-! ## Runs -/

variable {σ ι ε : Type*}

/-- A machine whose steps may fail. -/
abbrev CheckedMachine (σ ι ε : Type*) := σ → ι → Option (σ × List ε)

namespace CheckedMachine

/-- A run, up to its end: the last state and all outputs. -/
def run (step? : CheckedMachine σ ι ε) (s : σ) : List ι → Option (σ × List ε)
  | [] => some (s, [])
  | i :: is =>
    (step? s i).bind fun r => (run step? r.1 is).map fun rest => (rest.1, r.2 ++ rest.2)

variable {step? : CheckedMachine σ ι ε} {step : Machine σ ι ε} {P : σ → ι → Prop}
  [∀ s i, Decidable (P s i)]

/-- **A checked run** is the run of the machine if every step of that meets the condition, and
fails otherwise. -/
theorem run_eq (h : ∀ s i, step? s i = if P s i then some (step s i) else none) (s : σ)
    (is : List ι) : run step? s is =
      if step.EveryStep P s is then some (step.final s is, step.outputs (step.trace s is))
      else none := by
  induction is generalizing s with
  | nil =>
    have hnil : step.EveryStep P s [] := List.forall_mem_nil _
    rw [if_pos hnil]
    rfl
  | cons i is ih =>
    rw [run, h]
    by_cases hi : P s i
    · rw [if_pos hi, Option.bind_some, ih]
      by_cases his : step.EveryStep P (step s i).1 is
      · rw [if_pos his, if_pos (Machine.EveryStep.cons_iff.2 ⟨hi, his⟩)]
        rfl
      · rw [if_neg his, if_neg fun hall => his (Machine.EveryStep.cons_iff.1 hall).2]
        rfl
    · rw [if_neg hi, if_neg fun hall => hi (Machine.EveryStep.cons_iff.1 hall).1]
      rfl

end CheckedMachine

end RbProtocol.Library
