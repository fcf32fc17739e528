import Mathlib.Data.List.Basic

/-!
# Positions in a list

A program that walks over a list by positions is followed on the pieces of the list: what a
position reads is the head of the piece that starts there (`getElem?_of_drop`), and moving the
position behind a piece drops it (`drop_of_drop`). `lastIdx?` is a search from the end.
-/

namespace RbProtocol.Library

variable {α : Type*} {l rest : List α} {i : ℕ}

theorem getElem?_of_drop (h : l.drop i = rest) (j : ℕ) : l[i + j]? = rest[j]? := by
  rw [← h, List.getElem?_drop]

theorem drop_of_drop (h : l.drop i = rest) (j : ℕ) : l.drop (i + j) = rest.drop j := by
  rw [← h, List.drop_drop]

/-- The head of a piece is read at its position. -/
theorem getElem?_of_drop_cons {a : α} (h : l.drop i = a :: rest) : l[i]? = some a :=
  getElem?_of_drop h 0

/-- The piece behind the first `j` elements of a piece. -/
theorem drop_of_drop_append {front : List α} {n : ℕ} (h : l.drop i = front ++ rest)
    (hn : n = i + front.length) : l.drop n = rest := by
  rw [hn, drop_of_drop h, List.drop_left]

/-- The elements at a position, behind the element there. -/
theorem drop_of_getElem? {a : α} (h : l[i]? = some a) : l.drop i = a :: l.drop (i + 1) := by
  obtain ⟨hlt, rfl⟩ := List.getElem?_eq_some_iff.1 h
  exact List.drop_eq_getElem_cons hlt

theorem insertIdx_length_append (l₁ l₂ : List α) (a : α) :
    (l₁ ++ l₂).insertIdx l₁.length a = l₁ ++ a :: l₂ := by
  induction l₁ with
  | nil => rfl
  | cons b l₁ ih => simp [ih]

theorem modify_length_append (l₁ l₂ : List α) (a : α) (f : α → α) :
    (l₁ ++ a :: l₂).modify l₁.length f = l₁ ++ f a :: l₂ := by
  induction l₁ with
  | nil => rfl
  | cons b l₁ ih => simp [ih]

theorem modify_append_of_lt {l₁ : List α} (l₂ : List α) (f : α → α) (h : i < l₁.length) :
    (l₁ ++ l₂).modify i f = l₁.modify i f ++ l₂ := by
  induction l₁ generalizing i with
  | nil => simp at h
  | cons b l₁ ih =>
    cases i with
    | zero => rfl
    | succ i => simp [ih (Nat.lt_of_succ_lt_succ h)]

/-! ## Erasing one element -/

theorem concat_eq_cons_iff {a b : α} {l : List α} :
    l ++ [a] = b :: l ↔ ∀ c ∈ b :: l, c = a := by
  induction l generalizing b with
  | nil => simp [eq_comm]
  | cons c l ih =>
    rw [List.cons_append, List.cons.injEq, ih, List.forall_mem_cons (a := b)]
    constructor
    · rintro ⟨rfl, hl⟩
      exact ⟨hl c List.mem_cons_self, hl⟩
    · rintro ⟨rfl, hl⟩
      exact ⟨hl c List.mem_cons_self, hl⟩

/-- The first element that satisfies a predicate is erased; this is the element `a` exactly when the
elements from the first one on that satisfies it, up to `a`, are all equal to `a`. -/
theorem eraseP_eq_iff_of_pos {p : α → Bool} {a : α} (ha : p a = true) (l₁ l₂ : List α) :
    (l₁ ++ a :: l₂).eraseP p = l₁ ++ l₂ ↔ ∀ b ∈ l₁.dropWhile (fun b => !p b), b = a := by
  induction l₁ with
  | nil => simp [ha]
  | cons b l₁ ih =>
    cases hb : p b with
    | true =>
      rw [List.cons_append, List.eraseP_cons_of_pos hb, List.dropWhile_cons_of_neg (by simp [hb]),
        List.append_cons, List.append_left_inj]
      exact concat_eq_cons_iff
    | false =>
      rw [List.cons_append, List.eraseP_cons_of_neg (by simp [hb]),
        List.dropWhile_cons_of_pos (by simp [hb]), List.cons_append, List.cons.injEq, ih]
      exact and_iff_right rfl

/-- An element that does not satisfy the predicate is not the one that is erased. -/
theorem eraseP_ne_of_count {p q : α → Bool} {a : α} (ha : q a = true)
    (hpq : ∀ b, p b = true → q b = false) (l₁ l₂ : List α) :
    (l₁ ++ a :: l₂).eraseP p ≠ l₁ ++ l₂ := by
  have hcount (l : List α) : (l.eraseP p).countP q = l.countP q := by
    induction l with
    | nil => rfl
    | cons b l ih =>
      cases hb : p b with
      | true => rw [List.eraseP_cons_of_pos hb, List.countP_cons_of_neg (by simp [hpq b hb])]
      | false =>
        rw [List.eraseP_cons_of_neg (by simp [hb]), List.countP_cons, List.countP_cons, ih]
  intro h
  have hsame := congrArg (List.countP q) h
  rw [hcount, List.countP_append, List.countP_append, List.countP_cons_of_pos ha] at hsame
  omega

/-! ## Searching from the end -/

/-- The last position whose element satisfies `p`. -/
def lastIdx? (p : α → Bool) : List α → Option ℕ
  | [] => none
  | a :: l =>
    match lastIdx? p l with
    | some i => some (i + 1)
    | none => if p a then some 0 else none

theorem lastIdx?_eq_none {p : α → Bool} (h : ∀ a ∈ l, p a = false) : lastIdx? p l = none := by
  induction l with
  | nil => rfl
  | cons a l ih =>
    rw [lastIdx?, ih fun b hb => h b (List.mem_cons_of_mem _ hb)]
    simp [h a (List.mem_cons_self ..)]

theorem lastIdx?_append {p : α → Bool} (l₁ l₂ : List α) :
    lastIdx? p (l₁ ++ l₂) = ((lastIdx? p l₂).map (l₁.length + ·)).or (lastIdx? p l₁) := by
  induction l₁ with
  | nil => simp [lastIdx?]
  | cons a l₁ ih =>
    rw [List.cons_append, lastIdx?, lastIdx?, ih]
    cases lastIdx? p l₂ <;> cases lastIdx? p l₁ <;> simp <;> omega

/-- Elements that do not satisfy `p` do not count. -/
theorem lastIdx?_append_left {p : α → Bool} {l₁ l₂ : List α} (h : ∀ a ∈ l₂, p a = false) :
    lastIdx? p (l₁ ++ l₂) = lastIdx? p l₁ := by
  rw [lastIdx?_append, lastIdx?_eq_none h]
  simp

/-- The last element that satisfies `p`. -/
theorem lastIdx?_append_cons {p : α → Bool} {l₁ l₂ : List α} {a : α} (ha : p a = true)
    (h : ∀ b ∈ l₂, p b = false) : lastIdx? p (l₁ ++ a :: l₂) = some l₁.length := by
  rw [lastIdx?_append, lastIdx?, lastIdx?_eq_none h]
  simp [ha]

theorem lastIdx?_lt {p : α → Bool} (h : lastIdx? p l = some i) :
    i < l.length := by
  induction l generalizing i with
  | nil => cases h
  | cons a l ih =>
    rw [lastIdx?] at h
    cases hl : lastIdx? p l with
    | some j =>
      rw [hl] at h
      obtain rfl := Option.some.inj h
      exact Nat.succ_lt_succ (ih hl)
    | none =>
      rw [hl] at h
      simp only at h
      split_ifs at h
      obtain rfl := Option.some.inj h
      exact Nat.succ_pos _

/-! ## Taking an element out -/

/-- `eraseP` around an element that does not satisfy `p`. -/
theorem eraseP_append_cons {p : α → Bool} {a : α} (ha : p a = false) (l₁ l₂ : List α) :
    ∃ k₁ k₂, (l₁ ++ a :: l₂).eraseP p = k₁ ++ a :: k₂ ∧ k₁ ⊆ l₁ ∧ k₂ ⊆ l₂ := by
  rw [List.eraseP_append]
  split_ifs
  · exact ⟨l₁.eraseP p, l₂, rfl, List.eraseP_sublist.subset, List.Subset.refl _⟩
  · refine ⟨l₁, l₂.eraseP p, ?_, List.Subset.refl _, List.eraseP_sublist.subset⟩
    rw [List.eraseP_cons_of_neg (by simp [ha])]

/-- `eraseP`, seen by a function of the elements. -/
theorem map_eraseP_eq_eraseIdx {β : Type*} (p : α → Bool) (f : α → β) (l : List α) :
    (l.eraseP p).map f = (l.map f).eraseIdx (l.findIdx p) := by
  induction l with
  | nil => rfl
  | cons a l ih =>
    rw [List.eraseP_cons, List.findIdx_cons]
    cases hp : p a with
    | true => rfl
    | false => simpa using ih

theorem map_snd_zip_sublist {β : Type*} (l₁ : List α) (l₂ : List β) :
    ((l₁.zip l₂).map Prod.snd).Sublist l₂ := by
  induction l₁ generalizing l₂ with
  | nil => exact List.nil_sublist l₂
  | cons a l₁ ih =>
    cases l₂ with
    | nil => exact List.Sublist.refl []
    | cons b l₂ => exact (ih l₂).cons_cons b

/-! ## Mapping -/

/-- A map that is injective on the elements of two lists. -/
theorem eq_of_map_eq_map {β : Type*} {f : α → β} {l l' : List α} (h : l.map f = l'.map f)
    (hinj : ∀ x ∈ l, ∀ y ∈ l', f x = f y → x = y) : l = l' := by
  induction l generalizing l' with
  | nil => exact (List.map_eq_nil_iff.1 h.symm).symm
  | cons x l ih =>
    obtain ⟨y, l', rfl, hxy, hl⟩ := List.map_eq_cons_iff.1 h.symm
    rw [hinj x List.mem_cons_self y List.mem_cons_self hxy.symm, ih hl.symm fun a ha b hb =>
      hinj a (List.mem_cons_of_mem _ ha) b (List.mem_cons_of_mem _ hb)]

end RbProtocol.Library
