import Mathlib

/-!
# Bytes and C strings

Byte buffers are lists of `UInt8`, compared lexicographically as unsigned bytes. The C library
functions the code calls on them are written here as their documentation describes them.
-/

namespace RbProtocol

/-- The bytes of a buffer, a string or a packet. -/
abbrev Bytes := List UInt8

instance : IsStrictTotalOrder Bytes (· < ·) where
  irrefl := List.lt_irrefl
  trans _ _ _ := List.lt_trans
  trichotomous := Std.Trichotomous.trichotomous

/-! ## C strings -/

/-- A string literal of the source. -/
def literal (s : String) : Bytes := s.toList.map fun c => UInt8.ofNat c.toNat

/-- The C string at the start of a buffer: the bytes before the first NUL. -/
def cstr (s : Bytes) : Bytes := s.takeWhile (· ≠ 0)

/-- `strncmp` on two NUL-terminated strings, given without their terminators: past its end a
string reads as NUL. -/
def strncmp : ℕ → Bytes → Bytes → ℤ
  | 0, _, _ => 0
  | n + 1, a, b =>
    let x := a.headD 0
    let y := b.headD 0
    if x = y then
      if x = 0 then 0 else strncmp n a.tail b.tail
    else (x.toNat : ℤ) - y.toNat

@[simp] theorem cstr_eq_self {s : Bytes} (h : 0 ∉ s) : cstr s = s := by
  rw [cstr, List.takeWhile_eq_self_iff]
  intro x hx
  rw [decide_eq_true_iff]
  rintro rfl
  exact h hx

/-- **Limited to a prefix of the second string, `strncmp` is the order of the first one against
that prefix.** -/
theorem strncmp_neg_iff {n : ℕ} {a b : Bytes} (ha : 0 ∉ a) (hb : 0 ∉ b) (hn : n ≤ b.length) :
    strncmp n a b < 0 ↔ a < b.take n := by
  induction n generalizing a b with
  | zero => simp [strncmp]
  | succ n ih =>
    obtain _ | ⟨y, b⟩ := b
    · simp at hn
    obtain ⟨hy, hyb⟩ := not_or.1 (List.mem_cons.not.1 hb)
    rcases a with _ | ⟨x, a⟩
    · -- the terminator of the shorter string decides
      have hpos : y.toNat ≠ 0 := fun h => hy (UInt8.toNat_inj.1 h.symm)
      simp [strncmp, hy]
      omega
    · obtain ⟨hx, hxa⟩ := not_or.1 (List.mem_cons.not.1 ha)
      rw [List.take_succ_cons, List.cons_lt_cons_iff]
      by_cases hxy : x = y
      · subst hxy
        simp [strncmp, Ne.symm hx, ih hxa hyb (by simpa using hn)]
      · simp [strncmp, hxy, UInt8.lt_iff_toNat_lt]

end RbProtocol
