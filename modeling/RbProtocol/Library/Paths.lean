import Mathlib.Data.List.Basic

/-!
# Paths

A directory is given by the names on the way to it from the root, which is its own parent. A path
leads from one directory to another (`resolve`), segment by segment. Wherever it starts, it goes
some levels up and then down along some names (`resolve_eq`), so it stays inside of the directory
where it starts exactly if it comes back along the names that it has gone up
(`isPrefix_resolve_iff`).
-/

namespace RbProtocol.Library

variable {α : Type*}

/-- A segment of a path. -/
inductive Segment (α : Type*)
  /-- `"."`, or nothing. -/
  | here
  /-- `".."`. -/
  | parent
  | name (a : α)
  deriving DecidableEq

/-- Where a segment leads from a directory. -/
def enter (dir : List α) : Segment α → List α
  | .here => dir
  | .parent => dir.dropLast
  | .name a => dir ++ [a]

/-- Where a path leads from a directory. -/
def resolve (dir : List α) (path : List (Segment α)) : List α := path.foldl enter dir

theorem resolve_append (dir : List α) (path₁ path₂ : List (Segment α)) :
    resolve dir (path₁ ++ path₂) = resolve (resolve dir path₁) path₂ := List.foldl_append ..

/-- A path from a directory that is not known: some levels up, and then some names down. -/
structure Walk (α : Type*) where
  ups : ℕ
  names : List α

namespace Walk

/-- A path with one more segment. -/
def step (w : Walk α) : Segment α → Walk α
  | .here => w
  | .parent => if w.names.isEmpty then ⟨w.ups + 1, []⟩ else ⟨w.ups, w.names.dropLast⟩
  | .name a => ⟨w.ups, w.names ++ [a]⟩

/-- A path without its detours. -/
def ofPath (path : List (Segment α)) : Walk α := path.foldl step ⟨0, []⟩

/-- Where a path leads from a directory. -/
def target (w : Walk α) (dir : List α) : List α := dir.take (dir.length - w.ups) ++ w.names

theorem enter_target (w : Walk α) (dir : List α) (s : Segment α) :
    enter (w.target dir) s = (w.step s).target dir := by
  cases s with
  | here => rfl
  | name a => exact List.append_assoc ..
  | parent =>
    rw [enter, step]
    split_ifs with hempty
    · rw [target, target, List.isEmpty_iff.1 hempty, List.append_nil, List.append_nil,
        List.dropLast_eq_take, List.take_take, List.length_take]
      refine congrArg (List.take · dir) ?_
      show min (min _ _ - 1) _ = dir.length - (w.ups + 1)
      omega
    · have hne : w.names ≠ [] := fun hnil => hempty (List.isEmpty_iff.2 hnil)
      exact List.dropLast_append_of_ne_nil hne

theorem target_ofPath_nil (dir : List α) : (ofPath []).target dir = dir := by
  rw [ofPath, List.foldl_nil, target, Nat.sub_zero, List.take_length, List.append_nil]

end Walk

/-- **A path goes up and then down.** -/
theorem resolve_eq (dir : List α) (path : List (Segment α)) :
    resolve dir path = (Walk.ofPath path).target dir := by
  suffices h : ∀ w : Walk α, resolve (w.target dir) path = (path.foldl Walk.step w).target dir by
    have hstart := h (Walk.ofPath [])
    rwa [Walk.target_ofPath_nil] at hstart
  intro w
  induction path generalizing w with
  | nil => rfl
  | cons s path ih => exact (congrArg (path.foldl enter) (w.enter_target dir s)).trans (ih _)

/-- **A path stays inside** if it comes back along the names that it has gone up. -/
theorem isPrefix_resolve_iff (dir : List α) (path : List (Segment α)) :
    dir <+: resolve dir path ↔
      dir.drop (dir.length - (Walk.ofPath path).ups) <+: (Walk.ofPath path).names := by
  rw [resolve_eq, Walk.target]
  nth_rewrite 1 [← List.take_append_drop (dir.length - (Walk.ofPath path).ups) dir]
  exact List.prefix_append_right_inj _

end RbProtocol.Library
