import Mathlib

/-!
# Bounds-checked buffers

A buffer is a list of cells of fixed length, which only `resize` changes. `readAt?` and `writeAt?`
fail when a cell they name is outside; `moveWithin?` is an overlapping copy, which reads its source
before it writes. On a buffer
given as a concatenation each of them works on the pieces (`readAt?_append`, `writeAt?_append`).
-/

namespace RbProtocol.Library

variable {α : Type*}

/-- The `n` cells from position `i` on. -/
def readAt? (buf : List α) (i n : ℕ) : Option (List α) :=
  if i + n ≤ buf.length then some ((buf.drop i).take n) else none

/-- The buffer with the cells from position `i` on overwritten. -/
def writeAt? (buf : List α) (i : ℕ) (cells : List α) : Option (List α) :=
  if i + cells.length ≤ buf.length then
    some (buf.take i ++ (cells ++ buf.drop (i + cells.length)))
  else none

/-- `memmove`: `n` cells from `src` to `dst`, which may overlap. -/
def moveWithin? (buf : List α) (dst src n : ℕ) : Option (List α) :=
  (readAt? buf src n).bind (writeAt? buf dst)

/-- The buffer with `n` cells: cells at the end are dropped, or cells `a` added. -/
def resize (buf : List α) (n : ℕ) (a : α) : List α :=
  buf.take n ++ List.replicate (n - buf.length) a

@[simp] theorem length_resize (buf : List α) (n : ℕ) (a : α) : (resize buf n a).length = n := by
  rw [resize, List.length_append, List.length_take, List.length_replicate]
  omega

theorem readAt?_append (a b c : List α) : readAt? (a ++ (b ++ c)) a.length b.length = some b := by
  rw [readAt?, if_pos (by simp), List.drop_left, List.take_left]

theorem writeAt?_append {b b' : List α} (a c : List α) (h : b'.length = b.length) :
    writeAt? (a ++ (b ++ c)) a.length b' = some (a ++ (b' ++ c)) := by
  rw [writeAt?, if_pos (by simp [h]), List.take_left, h, ← List.drop_drop, List.drop_left,
    List.drop_left]

/-- A write behind the first `n` cells leaves them alone. -/
theorem take_writeAt? {buf buf' cells : List α} {i n : ℕ} (h : writeAt? buf i cells = some buf')
    (hn : n ≤ i) : buf'.take n = buf.take n := by
  rw [writeAt?] at h
  split_ifs at h with hi
  obtain rfl := Option.some.inj h
  rw [List.take_append_of_le_length (by rw [List.length_take]; omega), List.take_take,
    min_eq_left hn]

theorem length_writeAt? {buf buf' cells : List α} {i : ℕ} (h : writeAt? buf i cells = some buf') :
    buf'.length = buf.length := by
  rw [writeAt?] at h
  split_ifs at h with hi
  obtain rfl := Option.some.inj h
  simp only [List.length_append, List.length_take, List.length_drop]
  omega

theorem writeAt?_isSome_iff (buf : List α) (i : ℕ) (cells : List α) :
    (writeAt? buf i cells).isSome ↔ i + cells.length ≤ buf.length := by
  rw [writeAt?]
  split_ifs with h <;> simp [h]

/-- A move succeeds exactly when both ranges are inside. -/
theorem moveWithin?_isSome_iff (buf : List α) (dst src n : ℕ) :
    (moveWithin? buf dst src n).isSome ↔ src + n ≤ buf.length ∧ dst + n ≤ buf.length := by
  rw [moveWithin?, readAt?]
  split_ifs with h
  · have hlen : ((buf.drop src).take n).length = n := by
      rw [List.length_take, List.length_drop]
      omega
    rw [Option.bind_some, writeAt?_isSome_iff, hlen]
    simp [h]
  · simp [h]

/-- Moving what lies behind a piece `b` over `b`, in the length of `b`. -/
theorem moveWithin?_append (a b c : List α) :
    moveWithin? (a ++ (b ++ c)) a.length (a.length + b.length) b.length =
      if b.length ≤ c.length then some (a ++ (c.take b.length ++ c)) else none := by
  have hlen : (a ++ (b ++ c)).length = a.length + b.length + c.length := by
    rw [List.length_append, List.length_append, Nat.add_assoc]
  rw [moveWithin?, readAt?]
  split_ifs with hread hc
  · rw [← List.drop_drop, List.drop_left, List.drop_left, Option.bind_some]
    exact writeAt?_append a c (by rw [List.length_take, min_eq_left hc])
  all_goals first
    | rfl
    | omega

/-- What a slide over `n` cells by too few cells leaves: the moved cells repeat exactly when the
piece continues with itself. -/
theorem take_take_append_iff (a b : List α) (n : ℕ) :
    ((a ++ b).take n ++ (a ++ b)).take a.length = a ↔ a.length ≤ n ∨ a.drop n <+: a := by
  rcases le_or_gt a.length n with hn | hn
  · have hlen : a.length ≤ ((a ++ b).take n).length := by
      rw [List.length_take, List.length_append]
      omega
    rw [List.take_append_of_le_length hlen, List.take_take, min_eq_left hn, List.take_left]
    simp [hn]
  · have htake : (a.take n).length = n := List.length_take_of_le hn.le
    have hleft : ((a ++ b).take n ++ (a ++ b)).take a.length =
        a.take n ++ a.take (a.length - n) := by
      rw [List.take_append_of_le_length hn.le, List.take_append, htake, List.take_take,
        min_eq_right hn.le, List.take_append_of_le_length (Nat.sub_le _ _)]
    rw [hleft, List.prefix_iff_eq_take, List.length_drop]
    constructor
    · intro h
      have happ : a.take n ++ a.drop n = a.take n ++ a.take (a.length - n) := by
        rw [List.take_append_drop, h]
      exact .inr (List.append_cancel_left happ)
    · rintro (h | h)
      · omega
      · rw [← h, List.take_append_drop]

end RbProtocol.Library
