import Mathlib

/-!
# Mutexes and deadlocks

Each task has a place in its own code, and the place says which mutexes the task holds. Taking a
free mutex and releasing a held one keep that true (`Held.lock`, `Held.unlock`).

A task may wait for a resource that only some tasks can provide. A closed set of tasks is one in
which each task waits for what only tasks of the set can provide, and some tasks are deadlocked when
they make up a nonempty closed set. Resources have bounded ranks: code takes them in increasing
order, and in a deadlock some task breaks that order (`Closed.exists_rank_le`).
-/

namespace RbProtocol.Library.Deadlock

/-! ## Mutexes -/

section Mutexes

variable {T M : Type*} {Place : T → Type*}

/-- A mutex is held by the task whose place says so. -/
def Held (holds : (t : T) → Place t → M → Prop) (place : (t : T) → Place t)
    (holder : M → Option T) : Prop :=
  ∀ m t, holder m = some t ↔ holds t (place t) m

namespace Held

variable {holds : (t : T) → Place t → M → Prop} {place : (t : T) → Place t} {holder : M → Option T}

variable [DecidableEq T]

/-- A task goes on with the mutexes it has. -/
theorem keep (h : Held holds place holder) {t : T} {p : Place t}
    (hp : ∀ m, holds t p m ↔ holds t (place t) m) :
    Held holds (Function.update place t p) holder := by
  intro m u
  by_cases hu : u = t
  · subst hu
    rw [Function.update_self, hp, h m u]
  · rw [Function.update_of_ne hu, h m u]

variable [DecidableEq M]

/-- A task takes a free mutex. -/
theorem lock (h : Held holds place holder) {t : T} {m : M} {p : Place t} (hfree : holder m = none)
    (hp : ∀ m', holds t p m' ↔ m' = m ∨ holds t (place t) m') :
    Held holds (Function.update place t p) (Function.update holder m (some t)) := by
  intro m' u
  by_cases hu : u = t
  · subst hu
    rw [Function.update_self, hp, ← h m' u]
    by_cases hm : m' = m
    · simp [hm]
    · simp [hm]
  · rw [Function.update_of_ne hu, ← h m' u]
    by_cases hm : m' = m
    · subst hm
      rw [Function.update_self, hfree]
      simp [Ne.symm hu]
    · rw [Function.update_of_ne hm]

/-- A task releases a mutex that it holds. -/
theorem unlock (h : Held holds place holder) {t : T} {m : M} {p : Place t}
    (hheld : holds t (place t) m) (hp : ∀ m', holds t p m' ↔ m' ≠ m ∧ holds t (place t) m') :
    Held holds (Function.update place t p) (Function.update holder m none) := by
  have hholder : holder m = some t := (h m t).2 hheld
  intro m' u
  by_cases hu : u = t
  · subst hu
    rw [Function.update_self, hp, ← h m' u]
    by_cases hm : m' = m
    · simp [hm]
    · simp [hm]
  · rw [Function.update_of_ne hu, ← h m' u]
    by_cases hm : m' = m
    · subst hm
      rw [Function.update_self, hholder]
      simp [Ne.symm hu]
    · rw [Function.update_of_ne hm]

end Held

end Mutexes

/-! ## Waiting -/

/-- What each task waits for, and who can provide it. -/
structure Waiting (T R : Type*) where
  waits : T → Option R
  provides : R → T → Prop

namespace Waiting

variable {T R : Type*} {w w' : Waiting T R} {B : Set T}

/-- Each task of a set waits for what only tasks of the set can provide. -/
def Closed (w : Waiting T R) (B : Set T) : Prop :=
  ∀ t ∈ B, ∃ r, w.waits t = some r ∧ ∀ u, w.provides r u → u ∈ B

/-- Some tasks wait for each other. -/
def Deadlocked (w : Waiting T R) : Prop := ∃ B : Set T, B.Nonempty ∧ w.Closed B

namespace Closed

/-- A closed set stays closed while its tasks wait and nobody else becomes able to help. -/
theorem of_waits_eq (h : w.Closed B) (hwaits : ∀ t ∈ B, w'.waits t = w.waits t)
    (hprovides : ∀ t ∈ B, ∀ r, w.waits t = some r → ∀ u, w'.provides r u → w.provides r u) :
    w'.Closed B := by
  intro t ht
  obtain ⟨r, hr, hclosed⟩ := h t ht
  exact ⟨r, (hwaits t ht).trans hr, fun u hu => hclosed u (hprovides t ht r hr u hu)⟩

/-- **In a deadlock some task waits for a resource whose provider waits for one of no higher
rank.** -/
theorem exists_rank_le (h : w.Closed B) (hne : B.Nonempty) {rank : R → ℕ} {bound : ℕ}
    (hrank : ∀ r, rank r ≤ bound) (hprovider : ∀ t r, w.waits t = some r → ∃ u, w.provides r u) :
    ∃ t ∈ B, ∃ u ∈ B, ∃ r r', w.waits t = some r ∧ w.provides r u ∧ w.waits u = some r' ∧
      rank r' ≤ rank r := by
  -- a task of the set that waits for a resource of the highest rank
  have hranks : {n | ∃ t ∈ B, ∃ r, w.waits t = some r ∧ rank r = n}.Nonempty := by
    obtain ⟨t, ht⟩ := hne
    obtain ⟨r, hr, -⟩ := h t ht
    exact ⟨rank r, t, ht, r, hr, rfl⟩
  have hbounded : BddAbove {n | ∃ t ∈ B, ∃ r, w.waits t = some r ∧ rank r = n} := by
    refine ⟨bound, ?_⟩
    rintro n ⟨-, -, r, -, rfl⟩
    exact hrank r
  obtain ⟨t, ht, r, hr, hmax⟩ := Nat.sSup_mem hranks hbounded
  obtain ⟨r₀, hr₀, hclosed⟩ := h t ht
  obtain rfl : r₀ = r := Option.some.inj (hr₀.symm.trans hr)
  obtain ⟨u, hu⟩ := hprovider t r₀ hr
  obtain ⟨r', hr', -⟩ := h u (hclosed u hu)
  exact ⟨t, ht, u, hclosed u hu, r₀, r', hr, hu, hr',
    hmax ▸ le_csSup hbounded ⟨u, hclosed u hu, r', hr', rfl⟩⟩

end Closed

end Waiting

end RbProtocol.Library.Deadlock
