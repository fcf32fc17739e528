import Mathlib

/-!
# High-water-mark filters

A filter that remembers the largest key it has let through and lets an element pass if its key is
larger. What passes has strictly increasing keys (`pairwise_passed`), so nothing passes twice. An
element passes exactly if its key exceeds all keys offered before, so every element has passed by
the time it was offered if and only if each one repeats an earlier one or exceeds them all
(`forall_mem_passed_iff`).
-/

namespace RbProtocol.Library.HighWaterMark

variable {α κ : Type*} [LinearOrder κ]

/-- The mark, and the elements that have passed. -/
structure State (α κ : Type*) where
  mark : Option κ
  passed : List α

/-- A key is above the mark. -/
def Exceeds (mark : Option κ) (k : κ) : Prop := ∀ m ∈ mark, m < k

instance (mark : Option κ) (k : κ) : Decidable (Exceeds mark k) :=
  inferInstanceAs (Decidable (∀ m ∈ mark, m < k))

variable (key : α → κ)

/-- An element is offered to the filter. -/
def offer (st : State α κ) (a : α) : State α κ :=
  if Exceeds st.mark (key a) then ⟨some (key a), st.passed ++ [a]⟩ else st

/-- The filter after a list of elements. -/
def offerAll (l : List α) : State α κ := l.foldl (offer key) ⟨none, []⟩

@[simp] theorem offerAll_nil : offerAll key [] = ⟨none, []⟩ := rfl

theorem offerAll_concat (l : List α) (a : α) :
    offerAll key (l ++ [a]) = offer key (offerAll key l) a := by
  rw [offerAll, List.foldl_append]
  rfl

/-- A key exceeds the mark if it exceeds all keys offered. -/
theorem exceeds_mark_iff (l : List α) (k : κ) :
    Exceeds (offerAll key l).mark k ↔ ∀ a ∈ l, key a < k := by
  induction l using List.reverseRecOn generalizing k with
  | nil => simp [Exceeds]
  | append_singleton l a ih =>
    rw [offerAll_concat, offer, List.forall_mem_append, List.forall_mem_singleton, ← ih]
    split_ifs with hpass
    · simp only [Exceeds, Option.mem_def, Option.some.injEq, forall_eq']
      exact ⟨fun hk => ⟨fun m hm => (hpass m hm).trans hk, hk⟩, fun h => h.2⟩
    · -- the key of a rejected element is not above the mark
      refine ⟨fun hk => ⟨hk, ?_⟩, fun h => h.1⟩
      simp only [Exceeds, not_forall, not_lt] at hpass
      obtain ⟨m, hm, hle⟩ := hpass
      exact hle.trans_lt (hk m hm)

/-- Without elements there is no mark. -/
theorem mark_eq_none_iff (l : List α) : (offerAll key l).mark = none ↔ l = [] := by
  induction l using List.reverseRecOn with
  | nil => simp
  | append_singleton l a ih =>
    rw [offerAll_concat, offer]
    split_ifs with hpass
    · simp
    · rw [ih]
      have hne : l ≠ [] := by
        rintro rfl
        exact hpass (by simp [Exceeds])
      simp [hne]

/-- The mark never decreases. -/
theorem mark_mono {l₁ : List α} (l₂ : List α) {m : κ} (h : (offerAll key l₁).mark = some m) :
    ∃ m', (offerAll key (l₁ ++ l₂)).mark = some m' ∧ m ≤ m' := by
  have hne : l₁ ≠ [] := by
    rintro rfl
    cases h
  obtain ⟨m', hm'⟩ : ∃ m', (offerAll key (l₁ ++ l₂)).mark = some m' := by
    rw [← Option.ne_none_iff_exists', ne_eq, mark_eq_none_iff]
    exact List.append_ne_nil_of_left_ne_nil hne l₂
  refine ⟨m', hm', not_lt.1 fun hlt => lt_irrefl m ?_⟩
  have habove : Exceeds (offerAll key (l₁ ++ l₂)).mark m := by
    rw [hm']
    rintro _ ⟨⟩
    exact hlt
  rw [exceeds_mark_iff, List.forall_mem_append, ← exceeds_mark_iff] at habove
  exact habove.1 m h

theorem mem_of_mem_passed {l : List α} {a : α} (h : a ∈ (offerAll key l).passed) : a ∈ l := by
  induction l using List.reverseRecOn with
  | nil => simp at h
  | append_singleton l b ih =>
    rw [offerAll_concat, offer] at h
    split_ifs at h
    · rcases List.mem_append.1 h with h | h
      · exact List.mem_append_left _ (ih h)
      · exact List.mem_append_right _ h
    · exact List.mem_append_left _ (ih h)

/-- **What passes has strictly increasing keys.** -/
theorem pairwise_passed (l : List α) :
    (offerAll key l).passed.Pairwise fun a b => key a < key b := by
  induction l using List.reverseRecOn with
  | nil => simp
  | append_singleton l b ih =>
    rw [offerAll_concat, offer]
    split_ifs with hpass
    · refine List.pairwise_append.2 ⟨ih, List.pairwise_singleton _ _, fun a ha c hc => ?_⟩
      obtain rfl := List.mem_singleton.1 hc
      exact (exceeds_mark_iff key l _).1 hpass a (mem_of_mem_passed key ha)
    · exact ih

/-- Nothing passes twice. -/
theorem nodup_passed (l : List α) : (offerAll key l).passed.Nodup :=
  (pairwise_passed key l).imp fun hlt heq => hlt.ne (congrArg key heq)

/-- What has passed stays passed. -/
theorem passed_subset_append (l₁ l₂ : List α) :
    (offerAll key l₁).passed ⊆ (offerAll key (l₁ ++ l₂)).passed := by
  induction l₂ using List.reverseRecOn with
  | nil => simp
  | append_singleton l₂ b ih =>
    rw [← List.append_assoc, offerAll_concat, offer]
    split_ifs
    · exact List.subset_append_of_subset_left _ ih
    · exact ih

/-- An element has passed after its offer if it had passed before or exceeds all earlier ones. -/
theorem mem_passed_concat_iff (l : List α) (a : α) :
    a ∈ (offerAll key (l ++ [a])).passed ↔
      a ∈ (offerAll key l).passed ∨ ∀ b ∈ l, key b < key a := by
  rw [offerAll_concat, offer, ← exceeds_mark_iff]
  split_ifs with hpass <;> simp [hpass]

/-- **Every element has passed by the time it was offered if and only if each one repeats an earlier
one or exceeds them all.** -/
theorem forall_mem_passed_iff (l : List α) :
    (∀ l₁ a l₂, l = l₁ ++ a :: l₂ → a ∈ (offerAll key (l₁ ++ [a])).passed) ↔
      ∀ l₁ a l₂, l = l₁ ++ a :: l₂ → a ∈ l₁ ∨ ∀ b ∈ l₁, key b < key a := by
  constructor
  · intro h l₁ a l₂ hl
    exact ((mem_passed_concat_iff key l₁ a).1 (h l₁ a l₂ hl)).imp_left (mem_of_mem_passed key)
  · intro h l₁ a l₂ hl
    induction hn : l₁.length using Nat.strong_induction_on generalizing l₁ a l₂ with
    | _ n ih =>
      rcases h l₁ a l₂ hl with hmem | habove
      · -- the earlier occurrence had passed already
        obtain ⟨m₁, m₂, rfl⟩ := List.append_of_mem hmem
        have hlt : m₁.length < n := by
          rw [← hn, List.length_append, List.length_cons]
          omega
        have hpassed := ih m₁.length hlt m₁ a (m₂ ++ a :: l₂) (by simpa using hl) rfl
        have hsub := passed_subset_append key (m₁ ++ [a]) (m₂ ++ [a])
        simpa using hsub hpassed
      · exact (mem_passed_concat_iff key l₁ a).2 (.inr habove)

end RbProtocol.Library.HighWaterMark
