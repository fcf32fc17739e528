import Mathlib

/-!
# Numbers taken and lined up

Tasks take increasing numbers from a counter and join a line with them later. The line stays in
order as long as each task that joins it has the smallest number still held (`Ordered.join`), and
whoever takes a number and goes to the end of the line at once finds nobody holding one
(`Ordered.serve`).
-/

namespace RbProtocol.Library.TicketLine

variable {T : Type*}

/-- The line increases, and each number held is above the line; all are between a lower bound and
the counter. -/
structure Ordered (low counter : ℤ) (line : List ℤ) (held : T → Option ℤ) : Prop where
  increasing : line.Pairwise (· < ·)
  low_le : low ≤ counter
  line_bounds : ∀ n ∈ line, low ≤ n ∧ n < counter
  held_bounds : ∀ t, ∀ n ∈ held t, low ≤ n ∧ n < counter
  line_lt_held : ∀ t, ∀ n ∈ held t, ∀ m ∈ line, m < n

namespace Ordered

variable {low counter : ℤ} {line : List ℤ} {held : T → Option ℤ}

/-- Nobody holds a number, and nobody is in the line. -/
theorem start (h : low ≤ counter) : Ordered low counter [] fun _ : T => none :=
  ⟨.nil, h, by simp, by simp, by simp⟩

/-- A number is taken that does not matter. -/
theorem skip (h : Ordered low counter line held) {counter' : ℤ} (hle : counter ≤ counter') :
    Ordered low counter' line held where
  increasing := h.increasing
  low_le := h.low_le.trans hle
  line_bounds n hn := ⟨(h.line_bounds n hn).1, (h.line_bounds n hn).2.trans_le hle⟩
  held_bounds t n hn := ⟨(h.held_bounds t n hn).1, (h.held_bounds t n hn).2.trans_le hle⟩
  line_lt_held := h.line_lt_held

/-- Some of those in the line leave. -/
theorem leave (h : Ordered low counter line held) {line' : List ℤ} (hsub : line'.Sublist line) :
    Ordered low counter line' held where
  increasing := h.increasing.sublist hsub
  low_le := h.low_le
  line_bounds n hn := h.line_bounds n (hsub.subset hn)
  held_bounds := h.held_bounds
  line_lt_held t n hn m hm := h.line_lt_held t n hn m (hsub.subset hm)

/-- Some of the numbers held are given up. -/
theorem giveUp (h : Ordered low counter line held) {held' : T → Option ℤ}
    (hsub : ∀ t, ∀ n ∈ held' t, n ∈ held t) : Ordered low counter line held' where
  increasing := h.increasing
  low_le := h.low_le
  line_bounds := h.line_bounds
  held_bounds t n hn := h.held_bounds t n (hsub t n hn)
  line_lt_held t n hn m hm := h.line_lt_held t n (hsub t n hn) m hm

variable [DecidableEq T]

/-- A task takes a number. -/
theorem take (h : Ordered low counter line held) (t : T) :
    Ordered low (counter + 1) line (Function.update held t (some counter)) where
  increasing := h.increasing
  low_le := by
    have := h.low_le
    omega
  line_bounds n hn := by
    have := h.line_bounds n hn
    omega
  held_bounds t' n hn := by
    rw [Function.update_apply] at hn
    split_ifs at hn
    · obtain rfl := Option.some.inj hn
      have := h.low_le
      omega
    · have := h.held_bounds t' n hn
      omega
  line_lt_held t' n hn m hm := by
    rw [Function.update_apply] at hn
    split_ifs at hn
    · obtain rfl := Option.some.inj hn
      exact (h.line_bounds m hm).2
    · exact h.line_lt_held t' n hn m hm

/-- **The task with the smallest number held joins the line.** -/
theorem join (h : Ordered low counter line held) {t : T} {n : ℤ} (hn : held t = some n)
    (hleast : ∀ t', t' ≠ t → ∀ n' ∈ held t', n < n') :
    Ordered low counter (line ++ [n]) (Function.update held t none) where
  increasing := by
    refine List.pairwise_append.2 ⟨h.increasing, List.pairwise_singleton _ _, fun m hm k hk => ?_⟩
    obtain rfl := List.mem_singleton.1 hk
    exact h.line_lt_held t k hn m hm
  low_le := h.low_le
  line_bounds m hm := by
    rcases List.mem_append.1 hm with hm | hm
    · exact h.line_bounds m hm
    · obtain rfl := List.mem_singleton.1 hm
      exact h.held_bounds t m hn
  held_bounds t' m hm := by
    rw [Function.update_apply] at hm
    split_ifs at hm
    · cases hm
    · exact h.held_bounds t' m hm
  line_lt_held t' m hm k hk := by
    rw [Function.update_apply] at hm
    split_ifs at hm with hne
    · cases hm
    · rcases List.mem_append.1 hk with hk | hk
      · exact h.line_lt_held t' m hm k hk
      · obtain rfl := List.mem_singleton.1 hk
        exact hleast t' hne m hm

omit [DecidableEq T] in
/-- **A number is taken straight to the end of the line while nobody holds one.** -/
theorem serve (h : Ordered low counter line held) (hnone : ∀ t, held t = none) :
    Ordered low (counter + 1) (line ++ [counter]) held where
  increasing := by
    refine List.pairwise_append.2 ⟨h.increasing, List.pairwise_singleton _ _, fun m hm k hk => ?_⟩
    obtain rfl := List.mem_singleton.1 hk
    exact (h.line_bounds m hm).2
  low_le := by
    have := h.low_le
    omega
  line_bounds m hm := by
    have hlow := h.low_le
    rcases List.mem_append.1 hm with hm | hm
    · have := h.line_bounds m hm
      omega
    · obtain rfl := List.mem_singleton.1 hm
      omega
  held_bounds t n hn := by
    rw [hnone t] at hn
    cases hn
  line_lt_held t n hn := by
    rw [hnone t] at hn
    cases hn

end Ordered

end RbProtocol.Library.TicketLine
