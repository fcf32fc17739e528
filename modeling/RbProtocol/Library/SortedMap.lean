import Mathlib.Order.Defs.Unbundled
import Mathlib.Logic.Function.Basic
import RbProtocol.Library.Lists

/-!
# Binary search and sorted association lists

`lowerBound` is the half-interval search of the C++ standard library, driven by a test that
says whether an element lies below the searched position. On a list that the test cuts into a
lower and an upper part it returns the length of the lower part (`lowerBound_append`).

A list of records whose keys increase strictly is a finite map, `toMap`. The three ways to
edit it at a key (overwrite, insert, erase) all replace the middle of a split of the list at that
key (`SplitAt`), so each keeps the list sorted (`SplitAt.keySorted`) and acts on the map as a point
update (`SplitAt.toMap_edit`).
-/

namespace RbProtocol.Library

variable {α : Type*}

/-! ## The search -/

/-- The search loop: `first` is the start and `len` the length of the open interval. -/
def lowerBoundLoop (below : α → Bool) (l : List α) (first len : ℕ) : ℕ :=
  if len = 0 then first
  else
    match l[first + len / 2]? with
    | none => first
    | some x =>
      if below x then lowerBoundLoop below l (first + len / 2 + 1) (len - len / 2 - 1)
      else lowerBoundLoop below l first (len / 2)
termination_by len
decreasing_by all_goals omega

/-- The first position of `l` whose element is not below the searched one. -/
def lowerBound (below : α → Bool) (l : List α) : ℕ := lowerBoundLoop below l 0 l.length

theorem lowerBoundLoop_append {below : α → Bool} {l₁ l₂ : List α} (h₁ : ∀ x ∈ l₁, below x = true)
    (h₂ : ∀ x ∈ l₂, below x = false) (first len : ℕ) (hf : first ≤ l₁.length)
    (hl : l₁.length ≤ first + len) (hlen : first + len ≤ l₁.length + l₂.length) :
    lowerBoundLoop below (l₁ ++ l₂) first len = l₁.length := by
  induction len using Nat.strongRecOn generalizing first with
  | ind len ih =>
    rw [lowerBoundLoop]
    split_ifs with h0
    · omega
    · have hmid : first + len / 2 < (l₁ ++ l₂).length := by
        rw [List.length_append]
        omega
      rw [List.getElem?_eq_getElem hmid]
      -- the probe falls in the lower or in the upper part, and the interval shrinks to that side
      by_cases hside : first + len / 2 < l₁.length
      · have hb : below (l₁ ++ l₂)[first + len / 2] = true := by
          rw [List.getElem_append_left hside]
          exact h₁ _ (List.getElem_mem hside)
        simp only [hb, if_true]
        exact ih _ (by omega) _ (by omega) (by omega) (by omega)
      · have hb : below (l₁ ++ l₂)[first + len / 2] = false := by
          rw [List.getElem_append_right (by omega)]
          exact h₂ _ (List.getElem_mem _)
        simp only [hb, Bool.false_eq_true, if_false]
        exact ih _ (by omega) _ hf (by omega) (by omega)

/-- **The search returns the length of the lower part.** -/
theorem lowerBound_append {below : α → Bool} {l₁ l₂ : List α} (h₁ : ∀ x ∈ l₁, below x = true)
    (h₂ : ∀ x ∈ l₂, below x = false) : lowerBound below (l₁ ++ l₂) = l₁.length :=
  lowerBoundLoop_append h₁ h₂ 0 _ (by omega) (by simp) (by simp)

/-! ## Sorted lists of records as finite maps -/

section SortedMap

variable {κ : Type*} {key : α → κ} {k : κ} {l l₁ l₂ : List α} {mid mid' : Option α}

/-- The record filed under a key. -/
def toMap [DecidableEq κ] (key : α → κ) (l : List α) (k : κ) : Option α :=
  l.find? fun x => key x = k

theorem toMap_append [DecidableEq κ] (k : κ) :
    toMap key (l₁ ++ l₂) k = (toMap key l₁ k).or (toMap key l₂ k) := List.find?_append

theorem toMap_eq_none [DecidableEq κ] (h : ∀ x ∈ l, key x ≠ k) : toMap key l k = none := by
  rw [toMap, List.find?_eq_none]
  simpa using h

theorem toMap_cons_self [DecidableEq κ] (x : α) (l : List α) :
    toMap key (x :: l) (key x) = some x :=
  List.find?_cons_of_pos (by simp)

variable [LT κ]

/-- The keys increase strictly along the list. -/
def KeySorted (key : α → κ) (l : List α) : Prop := l.Pairwise fun x y => key x < key y

theorem KeySorted.le_of_mem {x y : α} (h : KeySorted key (x :: l)) (hy : y ∈ x :: l) :
    y = x ∨ key x < key y := by
  rcases List.mem_cons.1 hy with rfl | hy
  · exact .inl rfl
  · exact .inr ((List.pairwise_cons.1 h).1 y hy)

/-- The record at key `k`, if any, between the records below `k` and those above it. -/
structure SplitAt (key : α → κ) (k : κ) (l₁ : List α) (mid : Option α) (l₂ : List α) : Prop where
  sorted_left : KeySorted key l₁
  sorted_right : KeySorted key l₂
  below : ∀ x ∈ l₁, key x < k
  at_mid : ∀ x ∈ mid, key x = k
  above : ∀ x ∈ l₂, k < key x

/-- Overwriting, inserting or erasing the middle record keeps the split. -/
theorem SplitAt.edit (h : SplitAt key k l₁ mid l₂) (h' : ∀ x ∈ mid', key x = k) :
    SplitAt key k l₁ mid' l₂ :=
  ⟨h.sorted_left, h.sorted_right, h.below, h', h.above⟩

/-- Editing the middle record leaves every other key alone. -/
theorem SplitAt.toMap_of_ne [DecidableEq κ] (h : SplitAt key k l₁ mid l₂)
    (h' : ∀ x ∈ mid', key x = k) {k' : κ} (hk : k' ≠ k) :
    toMap key (l₁ ++ (mid'.toList ++ l₂)) k' = toMap key (l₁ ++ (mid.toList ++ l₂)) k' := by
  have hmid : ∀ m : Option α, (∀ x ∈ m, key x = k) → toMap key m.toList k' = none := by
    intro m hm
    refine toMap_eq_none fun x hx => ?_
    rw [hm x (by simpa using hx)]
    exact hk.symm
  simp only [toMap_append, hmid mid' h', hmid mid h.at_mid]

variable [IsStrictTotalOrder κ (· < ·)]

theorem ne_of_key_lt {a b : κ} (h : a < b) : a ≠ b := by
  rintro rfl
  exact irrefl_of (· < ·) _ h

theorem not_key_lt {a b : κ} (h : a < b) : ¬b < a := fun h' =>
  irrefl_of (· < ·) _ (trans_of (· < ·) h h')

/-- A record of a sorted list is filed under its key. -/
theorem KeySorted.toMap_of_mem [DecidableEq κ] {x : α} (h : KeySorted key l) (hx : x ∈ l) :
    toMap key l (key x) = some x := by
  induction l with
  | nil => cases hx
  | cons a l ih =>
    obtain ⟨ha, hl⟩ := List.pairwise_cons.1 h
    rcases List.mem_cons.1 hx with rfl | hx
    · exact toMap_cons_self x l
    · have hne : key a ≠ key x := ne_of_key_lt (ha x hx)
      rw [toMap, List.find?_cons_of_neg (by simpa using hne)]
      exact ih hl hx

/-- A sorted list splits at every key. -/
theorem KeySorted.exists_splitAt (h : KeySorted key l) (k : κ) :
    ∃ l₁ mid l₂, l = l₁ ++ (Option.toList mid ++ l₂) ∧ SplitAt key k l₁ mid l₂ := by
  induction l with
  | nil => exact ⟨[], none, [], rfl, .nil, .nil, by simp, by simp, by simp⟩
  | cons a l ih =>
    obtain ⟨ha, hl⟩ := List.pairwise_cons.1 h
    rcases trichotomous_of (· < ·) (key a) k with hak | hak | hak
    · obtain ⟨l₁, mid, l₂, rfl, hs⟩ := ih hl
      refine ⟨a :: l₁, mid, l₂, rfl, List.pairwise_cons.2 ⟨?_, hs.sorted_left⟩, hs.sorted_right,
        ?_, hs.at_mid, hs.above⟩
      · exact fun x hx => ha x (List.mem_append_left _ hx)
      · intro x hx
        rcases List.mem_cons.1 hx with rfl | hx
        · exact hak
        · exact hs.below x hx
    · refine ⟨[], some a, l, rfl, .nil, hl, by simp, by simpa using hak, ?_⟩
      exact fun x hx => hak ▸ ha x hx
    · refine ⟨[], none, a :: l, rfl, .nil, h, by simp, by simp, ?_⟩
      intro x hx
      rcases List.mem_cons.1 hx with rfl | hx
      · exact hak
      · exact trans_of (· < ·) hak (ha x hx)

/-- A split list is sorted. -/
theorem SplitAt.keySorted (h : SplitAt key k l₁ mid l₂) :
    KeySorted key (l₁ ++ (mid.toList ++ l₂)) := by
  refine List.pairwise_append.2 ⟨h.sorted_left, List.pairwise_append.2 ⟨?_, h.sorted_right, ?_⟩, ?_⟩
  · cases mid <;> simp
  · intro x hx y hy
    rw [h.at_mid x (by simpa using hx)]
    exact h.above y hy
  · intro x hx y hy
    rcases List.mem_append.1 hy with hy | hy
    · rw [h.at_mid y (by simpa using hy)]
      exact h.below x hx
    · exact trans_of (· < ·) (h.below x hx) (h.above y hy)

variable [DecidableEq κ]

/-- The record filed under `k` is the middle one. -/
theorem SplitAt.toMap_self (h : SplitAt key k l₁ mid l₂) :
    toMap key (l₁ ++ (mid.toList ++ l₂)) k = mid := by
  rw [toMap_append, toMap_append, toMap_eq_none fun x hx => ne_of_key_lt (h.below x hx),
    toMap_eq_none fun x hx => (ne_of_key_lt (h.above x hx)).symm]
  cases mid with
  | none => rfl
  | some b => simp [toMap, h.at_mid b rfl]

/-- **Editing the middle record is a point update of the map.** -/
theorem SplitAt.toMap_edit (h : SplitAt key k l₁ mid l₂) (h' : ∀ x ∈ mid', key x = k) :
    toMap key (l₁ ++ (mid'.toList ++ l₂)) =
      Function.update (toMap key (l₁ ++ (mid.toList ++ l₂))) k mid' := by
  funext k'
  by_cases hk : k' = k
  · subst hk
    rw [Function.update_self, (h.edit h').toMap_self]
  · rw [Function.update_of_ne hk, h.toMap_of_ne h' hk]

/-- A sorted list is determined by the map it stands for. -/
theorem KeySorted.ext (h₁ : KeySorted key l₁) (h₂ : KeySorted key l₂)
    (hmap : toMap key l₁ = toMap key l₂) : l₁ = l₂ := by
  induction l₁ generalizing l₂ with
  | nil =>
    cases l₂ with
    | nil => rfl
    | cons y l₂ => cases (congrFun hmap (key y)).trans (toMap_cons_self y l₂)
  | cons x l₁ ih =>
    cases l₂ with
    | nil => cases (congrFun hmap (key x)).symm.trans (toMap_cons_self x l₁)
    | cons y l₂ =>
      have hx := h₂.le_of_mem (List.mem_of_find?_eq_some
        ((congrFun hmap (key x)).symm.trans (toMap_cons_self x l₁)))
      have hy := h₁.le_of_mem (List.mem_of_find?_eq_some
        ((congrFun hmap (key y)).trans (toMap_cons_self y l₂)))
      have hxy : x = y := by
        rcases hx with hx | hx
        · exact hx
        · exact hy.elim Eq.symm fun hy => absurd hy (not_key_lt hx)
      subst hxy
      obtain ⟨hlt₁, hl₁⟩ := List.pairwise_cons.1 h₁
      obtain ⟨hlt₂, hl₂⟩ := List.pairwise_cons.1 h₂
      have htail : toMap key l₁ = toMap key l₂ := by
        funext k
        by_cases hk : key x = k
        · subst hk
          rw [toMap_eq_none fun z hz => (ne_of_key_lt (hlt₁ z hz)).symm,
            toMap_eq_none fun z hz => (ne_of_key_lt (hlt₂ z hz)).symm]
        · have hcons := congrFun hmap k
          rwa [toMap, List.find?_cons_of_neg (by simpa using hk), toMap,
            List.find?_cons_of_neg (by simpa using hk)] at hcons
      rw [ih hl₁ hl₂ htail]

end SortedMap

end RbProtocol.Library
