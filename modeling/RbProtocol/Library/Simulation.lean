import RbProtocol.Library.Runs

/-!
# A machine inside a machine

A machine may do its work by running another one on a part of its state: every step is a few moves
of the smaller machine there, and what that puts out can be seen in the outputs. Then a whole run
is a run of the smaller machine (`Simulation.leads_run`), and what holds of its runs holds of that
part.
-/

namespace RbProtocol.Library.Machine

variable {σ τ ι κ ε δ : Type*}

/-- Every step of a machine is some moves of another one on a part of the state. -/
structure Simulation (big : Machine σ ι ε) (small : Machine τ κ δ) where
  part : σ → τ
  /-- The moves of a step. -/
  moves : σ → ι → List κ
  /-- What an output shows of the smaller machine. -/
  seen : ε → Option δ
  leads : ∀ s i, Leads small (part s) (moves s i) (part (big s i).1) ((big s i).2.filterMap seen)

namespace Simulation

variable {big : Machine σ ι ε} {small : Machine τ κ δ} (h : Simulation big small)

/-- The moves of the steps of a trace. -/
def run (t : List (σ × ι)) : List κ := t.flatMap fun c => h.moves c.1 c.2

@[simp] theorem run_nil : h.run [] = [] := rfl

@[simp] theorem run_cons (c : σ × ι) (t : List (σ × ι)) :
    h.run (c :: t) = h.moves c.1 c.2 ++ h.run t := rfl

/-- **A run is a run of the smaller machine.** -/
theorem leads_run (s : σ) (is : List ι) :
    Leads small (h.part s) (h.run (trace big s is)) (h.part (final big s is))
      ((outputs big (trace big s is)).filterMap h.seen) := by
  induction is generalizing s with
  | nil => exact Leads.nil
  | cons i is ih =>
    rw [trace_cons, run_cons, final_cons, outputs_cons, List.filterMap_append]
    exact (h.leads s i).append (ih _)

end Simulation

end RbProtocol.Library.Machine
