import Mathlib

/-!
# Retransmission until acknowledged

A sender keeps what it has issued until it is acknowledged or has gone through a number of
rounds. `pending` reads this off the log of events: the ids issued, in order, without those that a
later event settles, each with the number of rounds since. One more event edits the pending ids as a
queue (`pending_concat_issue`, `pending_concat_ack`, `pending_concat_round`).
-/

namespace RbProtocol.Library.Retransmission

/-- What happens to a sender. -/
inductive Event (ι : Type*)
  | issue (id : ι)
  | ack (id : ι)
  | round
  deriving DecidableEq

variable {ι : Type*}

/-- The ids issued in a log. -/
def issued (log : List (Event ι)) : List ι :=
  log.filterMap fun
    | .issue id => some id
    | _ => none

@[simp] theorem issued_append (log log' : List (Event ι)) :
    issued (log ++ log') = issued log ++ issued log' := List.filterMap_append

variable [DecidableEq ι] (limit : ℕ)

/-- The number of rounds in a log. -/
def rounds (log : List (Event ι)) : ℕ := log.count .round

/-- An id is settled by an acknowledgement or by the last round after its issue. -/
def Settled (id : ι) (log : List (Event ι)) : Prop := .ack id ∈ log ∨ limit ≤ rounds log

instance (id : ι) (log : List (Event ι)) : Decidable (Settled limit id log) :=
  inferInstanceAs (Decidable (_ ∨ _))

/-- The ids that are not settled, each with the number of rounds since its issue. -/
def pending : List (Event ι) → List (ι × ℕ)
  | [] => []
  | .issue id :: log =>
    if Settled limit id log then pending log else (id, rounds log) :: pending log
  | .ack _ :: log => pending log
  | .round :: log => pending log

/-- A pending id after one more round. -/
def nextRound (p : ι × ℕ) : Option (ι × ℕ) := if limit ≤ p.2 + 1 then none else some (p.1, p.2 + 1)

variable {limit} {log : List (Event ι)}

@[simp] theorem rounds_append (log log' : List (Event ι)) :
    rounds (log ++ log') = rounds log + rounds log' := List.count_append

theorem pending_concat_issue (hlimit : 0 < limit) (id : ι) :
    pending limit (log ++ [.issue id]) = pending limit log ++ [(id, 0)] := by
  induction log with
  | nil =>
    have hnot : ¬Settled limit id [] := by
      simp [Settled, rounds]
      omega
    simp [pending, hnot, rounds]
  | cons e log ih =>
    cases e with
    | issue id' =>
      have hsame : Settled limit id' (log ++ [.issue id]) ↔ Settled limit id' log := by
        simp [Settled, rounds]
      rw [List.cons_append, pending, pending, ih, rounds_append]
      simp only [hsame]
      split_ifs <;> simp [rounds]
    | ack id' => exact ih
    | round => exact ih

theorem pending_concat_ack (id : ι) :
    pending limit (log ++ [.ack id]) = (pending limit log).filter fun p => p.1 ≠ id := by
  induction log with
  | nil => rfl
  | cons e log ih =>
    cases e with
    | issue id' =>
      have hsame : Settled limit id' (log ++ [.ack id]) ↔ id' = id ∨ Settled limit id' log := by
        simp [Settled, rounds]
        tauto
      rw [List.cons_append, pending, pending, ih, rounds_append]
      simp only [hsame]
      by_cases hid : id' = id
      · rw [if_pos (.inl hid)]
        split_ifs <;> simp [hid]
      · simp only [hid, false_or]
        split_ifs <;> simp [hid, rounds]
    | ack id' => exact ih
    | round => exact ih

theorem pending_concat_round :
    pending limit (log ++ [.round]) = (pending limit log).filterMap (nextRound limit) := by
  induction log with
  | nil => rfl
  | cons e log ih =>
    cases e with
    | issue id' =>
      have hrounds : rounds (log ++ [.round]) = rounds log + 1 := by simp [rounds]
      have hsame : Settled limit id' (log ++ [.round]) ↔
          .ack id' ∈ log ∨ limit ≤ rounds log + 1 := by
        rw [Settled, hrounds]
        simp
      rw [List.cons_append, pending, pending, ih, hrounds]
      by_cases hsettled : Settled limit id' log
      · rw [if_pos hsettled, if_pos (hsame.2 (hsettled.imp_right Nat.le_succ_of_le))]
      · obtain ⟨hack, -⟩ := not_or.1 hsettled
        rw [if_neg hsettled, List.filterMap_cons, nextRound]
        by_cases hlast : limit ≤ rounds log + 1
        · rw [if_pos (hsame.2 (.inr hlast)), if_pos hlast]
        · rw [if_neg fun h => (hsame.1 h).elim hack hlast, if_neg hlast]
    | ack id' => exact ih
    | round => exact ih

/-- The pending ids are issued ids, in the order of their issue. -/
theorem pending_sublist_issued : ((pending limit log).map Prod.fst).Sublist (issued log) := by
  induction log with
  | nil => simp [pending, issued]
  | cons e log ih =>
    cases e with
    | issue id =>
      rw [pending]
      split_ifs
      · exact ih.cons _
      · exact ih.cons_cons _
    | ack id => exact ih
    | round => exact ih

/-- A pending id has not reached the limit. -/
theorem lt_of_mem_pending {p : ι × ℕ} (h : p ∈ pending limit log) : p.2 < limit := by
  induction log with
  | nil => cases h
  | cons e log ih =>
    cases e with
    | issue id =>
      rw [pending] at h
      split_ifs at h with hsettled
      · exact ih h
      · rcases List.mem_cons.1 h with rfl | h
        · exact not_le.1 fun hle => hsettled (.inr hle)
        · exact ih h
    | ack id => exact ih h
    | round => exact ih h

/-- **An id that was issued once is pending exactly if nothing after its issue settles it**, with
the number of rounds since. -/
theorem mem_pending_iff (limit : ℕ) {log₁ log₂ : List (Event ι)} {id : ι}
    (hnodup : (issued (log₁ ++ .issue id :: log₂)).Nodup) (k : ℕ) :
    (id, k) ∈ pending limit (log₁ ++ .issue id :: log₂) ↔
      ¬Settled limit id log₂ ∧ k = rounds log₂ := by
  induction log₁ with
  | nil =>
    have hfresh : (id, k) ∉ pending limit log₂ := fun hmem =>
      (List.nodup_cons.1 hnodup).1 (pending_sublist_issued.subset (List.mem_map_of_mem hmem))
    rw [List.nil_append, pending]
    split_ifs with hsettled <;> simp [hfresh, hsettled]
  | cons e log₁ ih =>
    cases e with
    | issue id' =>
      obtain ⟨hne, hnodup⟩ := List.nodup_cons.1 hnodup
      have hid : id ≠ id' := by
        rintro rfl
        exact hne (by simp)
      rw [List.cons_append, pending]
      split_ifs
      · exact ih hnodup
      · rw [List.mem_cons, or_iff_right (fun h => hid (Prod.mk.inj h).1)]
        exact ih hnodup
    | ack id' => exact ih hnodup
    | round => exact ih hnodup

end RbProtocol.Library.Retransmission
