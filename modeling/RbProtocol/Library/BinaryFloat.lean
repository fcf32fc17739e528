import Mathlib

/-!
# Binary floating point

A floating-point value is a rational number, an infinity or no number; the sign of zero is not kept.
`BinaryFloat.round` rounds a rational to a format, to nearest with ties to even. Integers of at most
`2 ^ prec` are not changed by it (`BinaryFloat.round_intCast`), and neither is their conversion back
(`BinaryFloat.toInt?_intCast`). `BinaryFloat.toInt?_signed` says which values convert to a signed
integer at all.
-/

namespace RbProtocol.Library

/-- A binary format: the number of significand bits and the largest exponent. -/
structure FloatFormat where
  prec : ℕ
  emax : ℤ
  prec_pos : 0 < prec
  prec_le : (prec : ℤ) ≤ emax

/-- The smallest exponent of a normal number. -/
def FloatFormat.emin (fmt : FloatFormat) : ℤ := 1 - fmt.emax

/-- IEEE 754 `binary32`. -/
def binary32 : FloatFormat := ⟨24, 127, by decide, by decide⟩

/-- IEEE 754 `binary64`. -/
def binary64 : FloatFormat := ⟨53, 1023, by decide, by decide⟩

/-- A floating-point value. -/
inductive BinaryFloat
  | finite (q : ℚ)
  | infinite (negative : Bool)
  | nan
  deriving DecidableEq

/-- The nearest integer, the even one of two. -/
def roundHalfEven (q : ℚ) : ℤ :=
  let diff := q - ⌊q⌋
  if diff < 1 / 2 then ⌊q⌋
  else if 1 / 2 < diff then ⌊q⌋ + 1
  else if Even ⌊q⌋ then ⌊q⌋ else ⌊q⌋ + 1

/-- The integer part, towards zero. -/
def truncate (q : ℚ) : ℤ := if q < 0 then ⌈q⌉ else ⌊q⌋

namespace BinaryFloat

/-- The distance of the values of a format around `q`. -/
def ulp (fmt : FloatFormat) (q : ℚ) : ℚ :=
  2 ^ (max (Int.log 2 |q|) fmt.emin - fmt.prec + 1)

/-- The value of a format nearest to `q`. -/
def round (fmt : FloatFormat) (q : ℚ) : BinaryFloat :=
  let r := roundHalfEven (q / ulp fmt q) * ulp fmt q
  if 2 ^ (fmt.emax + 1) ≤ |r| then infinite (r < 0) else finite r

/-- The conversion of a value to a format. -/
def convert (fmt : FloatFormat) : BinaryFloat → BinaryFloat
  | finite q => round fmt q
  | infinite negative => infinite negative
  | nan => nan

/-- The conversion to an integer type, which is defined for values whose integer part is in its
range. -/
def toInt? (lo hi : ℤ) : BinaryFloat → Option ℤ
  | finite q => if lo ≤ truncate q ∧ truncate q ≤ hi then some (truncate q) else none
  | infinite _ => none
  | nan => none

/-- The comparison `==`. -/
def eq : BinaryFloat → BinaryFloat → Bool
  | finite p, finite q => p = q
  | infinite a, infinite b => a = b
  | _, _ => false

end BinaryFloat

/-! ## Integers -/

@[simp] theorem roundHalfEven_intCast (n : ℤ) : roundHalfEven n = n := by
  simp [roundHalfEven]

@[simp] theorem truncate_intCast (n : ℤ) : truncate n = n := by
  simp [truncate]

/-- Rounding keeps the sign apart. -/
theorem roundHalfEven_neg (q : ℚ) : roundHalfEven (-q) = -roundHalfEven q := by
  obtain ⟨n, hn⟩ : ∃ n, ⌊q⌋ = n := ⟨_, rfl⟩
  obtain ⟨hle, hlt⟩ := Int.floor_eq_iff.1 hn
  rcases hle.eq_or_lt with rfl | hpos
  · rw [← Int.cast_neg, roundHalfEven_intCast, roundHalfEven_intCast]
  · -- the distances to the integer below add up to one
    have hfloor : ⌊-q⌋ = -(n + 1) := by
      rw [Int.floor_eq_iff]
      push_cast
      constructor <;> linarith
    have heven : Even (-(n + 1)) ↔ ¬Even n := by rw [even_neg, Int.even_add_one]
    have hdiff : -q - ((-(n + 1) : ℤ) : ℚ) = 1 - (q - n) := by
      push_cast
      ring
    rw [roundHalfEven, roundHalfEven, hfloor, hn]
    simp only [hdiff, heven]
    split_ifs <;> first | omega | (exfalso; linarith)

/-- The integer part is in a range around zero if the value is less than one outside of it. -/
theorem truncate_mem_iff {lo hi : ℤ} (hlo : lo ≤ 0) (hhi : 0 ≤ hi) (q : ℚ) :
    (lo ≤ truncate q ∧ truncate q ≤ hi) ↔ (lo - 1 : ℚ) < q ∧ q < hi + 1 := by
  have hlo' : (lo : ℚ) ≤ 0 := by exact_mod_cast hlo
  have hhi' : (0 : ℚ) ≤ hi := by exact_mod_cast hhi
  rw [truncate]
  split_ifs with hq
  · have hceil : ⌈q⌉ ≤ hi := (Int.ceil_nonpos.2 hq.le).trans hhi
    have hupper : q < hi + 1 := by linarith
    rw [Int.le_ceil_iff]
    exact ⟨fun h => ⟨h.1, hupper⟩, fun h => ⟨h.1, hceil⟩⟩
  · have hfloor : lo ≤ ⌊q⌋ := hlo.trans (Int.floor_nonneg.2 (not_lt.1 hq))
    have hlower : (lo - 1 : ℚ) < q := by linarith
    rw [Int.floor_le_iff]
    exact ⟨fun h => ⟨hlower, h.2⟩, fun h => ⟨hfloor, h.2⟩⟩

namespace BinaryFloat

theorem toInt?_intCast {lo hi n : ℤ} (hlo : lo ≤ n) (hhi : n ≤ hi) :
    toInt? lo hi (finite n) = some n := by
  rw [toInt?, truncate_intCast, if_pos ⟨hlo, hhi⟩]

/-- The integer part of a finite value. -/
def integerPart : BinaryFloat → ℤ
  | finite q => truncate q
  | infinite _ => 0
  | nan => 0

/-- The value is finite and its integer part is a signed integer of `w + 1` bits. -/
def FitsSigned (w : ℕ) : BinaryFloat → Prop
  | finite q => -2 ^ w - 1 < q ∧ q < 2 ^ w
  | infinite _ => False
  | nan => False

instance (w : ℕ) : DecidablePred (FitsSigned w)
  | finite _ => inferInstanceAs (Decidable (_ ∧ _))
  | infinite _ => inferInstanceAs (Decidable False)
  | nan => inferInstanceAs (Decidable False)

theorem fitsSigned_iff {w : ℕ} {q : ℚ} :
    (finite q).FitsSigned w ↔ -2 ^ w ≤ truncate q ∧ truncate q ≤ 2 ^ w - 1 := by
  have hpow : (0 : ℤ) < 2 ^ w := by positivity
  rw [truncate_mem_iff (by omega) (by omega), FitsSigned]
  push_cast
  rw [sub_add_cancel]

/-- **The conversion to a signed integer**, in bounds on the value itself. -/
theorem toInt?_signed (w : ℕ) (x : BinaryFloat) :
    x.toInt? (-2 ^ w) (2 ^ w - 1) = if x.FitsSigned w then some x.integerPart else none := by
  cases x with
  | finite q => simp only [toInt?, fitsSigned_iff, integerPart]
  | infinite negative => rfl
  | nan => rfl

/-- A value fits into an integer exactly if it fits into a wider one and its integer part into the
narrower one. -/
theorem fitsSigned_iff_of_le {w w' : ℕ} {x : BinaryFloat} (hw : w ≤ w') :
    x.FitsSigned w ↔ x.FitsSigned w' ∧ -2 ^ w ≤ x.integerPart ∧ x.integerPart < 2 ^ w := by
  cases x with
  | finite q =>
    have hpow : (2 : ℤ) ^ w ≤ 2 ^ w' := pow_le_pow_right₀ one_le_two hw
    rw [fitsSigned_iff, fitsSigned_iff, integerPart]
    constructor
    · rintro ⟨hlo, hhi⟩
      exact ⟨⟨by linarith, by linarith⟩, hlo, by linarith⟩
    · rintro ⟨-, hlo, hhi⟩
      exact ⟨hlo, Int.le_sub_one_of_lt hhi⟩
  | infinite negative => exact ⟨False.elim, fun h => h.1⟩
  | nan => exact ⟨False.elim, fun h => h.1⟩

theorem ulp_pos (fmt : FloatFormat) (q : ℚ) : 0 < ulp fmt q := by
  rw [ulp]
  positivity

/-- A multiple of the distance of the values around it is a value of the format. -/
theorem round_eq_self {fmt : FloatFormat} {q : ℚ} {m : ℤ} (hm : q = m * ulp fmt q)
    (hlt : |q| < 2 ^ (fmt.emax + 1)) : round fmt q = finite q := by
  have hr : roundHalfEven (q / ulp fmt q) * ulp fmt q = q := by
    nth_rewrite 1 [hm]
    rw [mul_div_cancel_right₀ _ (ulp_pos fmt q).ne', roundHalfEven_intCast, ← hm]
  rw [round]
  simp only [hr]
  rw [if_neg (not_le.2 hlt)]

/-- A significand and an exponent make a multiple of the distance of the values around it. -/
theorem exists_mul_ulp {fmt : FloatFormat} {k E : ℤ} {r : ℚ} (hk : |k| ≤ 2 ^ fmt.prec)
    (hE : fmt.emin ≤ E) (hr : k * 2 ^ (E - fmt.prec + 1) = r) : ∃ m : ℤ, r = m * ulp fmt r := by
  rcases eq_or_ne r 0 with rfl | h0
  · exact ⟨0, by simp⟩
  have habs : |r| = |k| * 2 ^ (E - fmt.prec + 1) := by
    rw [← hr, abs_mul, abs_of_pos (by positivity : (0 : ℚ) < 2 ^ (E - fmt.prec + 1)), Int.cast_abs]
  have hpos : 0 < |r| := abs_pos.2 h0
  rcases hk.lt_or_eq with hsmall | hlarge
  · -- the exponent of `r` is not above `E`
    have hlog : Int.log 2 |r| ≤ E := by
      have hr' : |r| < 2 ^ (E + 1) := by
        rw [habs]
        calc ((|k| : ℤ) : ℚ) * 2 ^ (E - fmt.prec + 1)
            < 2 ^ (fmt.prec : ℤ) * 2 ^ (E - fmt.prec + 1) :=
              mul_lt_mul_of_pos_right (by rw [zpow_natCast]; exact_mod_cast hsmall) (by positivity)
          _ = 2 ^ (E + 1) := by
              rw [← zpow_add₀ two_ne_zero]
              congr 1
              omega
      have := (zpow_lt_zpow_iff_right₀ (one_lt_two (α := ℚ))).1
        ((Int.zpow_log_le_self one_lt_two hpos).trans_lt hr')
      omega
    obtain ⟨n, hn⟩ : ∃ n : ℕ, E - max (Int.log 2 |r|) fmt.emin = n :=
      ⟨(E - max (Int.log 2 |r|) fmt.emin).toNat, by omega⟩
    refine ⟨k * 2 ^ n, ?_⟩
    have hexp : E - fmt.prec + 1 = n + (max (Int.log 2 |r|) fmt.emin - fmt.prec + 1) := by omega
    rw [ulp]
    push_cast
    rw [mul_assoc, ← zpow_natCast, ← zpow_add₀ two_ne_zero, ← hexp, hr]
  · -- `r` is a power of two, and its significand is even
    have hlog : Int.log 2 |r| = E + 1 := by
      have hpow : |r| = 2 ^ (E + 1) := by
        rw [habs, hlarge]
        push_cast
        rw [← zpow_natCast, ← zpow_add₀ two_ne_zero]
        congr 1
        omega
      rw [hpow]
      exact Int.log_zpow one_lt_two _
    obtain ⟨p, hp⟩ : ∃ p, fmt.prec = p + 1 := ⟨fmt.prec - 1, by have := fmt.prec_pos; omega⟩
    obtain ⟨m, hm⟩ : ∃ m : ℤ, k = m * 2 := by
      rcases (abs_eq (by positivity)).1 hlarge with hk | hk
      · exact ⟨2 ^ p, by rw [hk, hp, pow_succ]⟩
      · exact ⟨-2 ^ p, by rw [hk, hp, pow_succ]; ring⟩
    refine ⟨m, ?_⟩
    rw [ulp, hlog, max_eq_left (by omega), ← hr, hm]
    push_cast
    rw [mul_assoc, ← zpow_one_add₀ two_ne_zero]
    congr 2
    omega

/-- **Integers of at most `2 ^ prec` are values of the format.** -/
theorem round_intCast {fmt : FloatFormat} {n : ℤ} (hn : |n| ≤ 2 ^ fmt.prec) :
    round fmt n = finite n := by
  have hprec := fmt.prec_pos
  have hemax := fmt.prec_le
  have hE : fmt.emin ≤ fmt.prec - 1 := by
    rw [FloatFormat.emin]
    omega
  obtain ⟨m, hm⟩ := exists_mul_ulp (r := n) hn hE (by simp)
  refine round_eq_self hm ?_
  have hle : |(n : ℚ)| ≤ 2 ^ (fmt.prec : ℤ) := by
    rw [zpow_natCast]
    exact_mod_cast hn
  exact hle.trans_lt ((zpow_lt_zpow_iff_right₀ one_lt_two).2 (by omega))

/-! ## Rounding twice -/

theorem abs_roundHalfEven_le {q : ℚ} {k : ℕ} (h : |q| < k) : |roundHalfEven q| ≤ k := by
  obtain ⟨hlo, hhi⟩ := abs_lt.1 h
  have hle : ⌊q⌋ < k := Int.floor_lt.2 (by exact_mod_cast hhi)
  have hge : -(k : ℤ) ≤ ⌊q⌋ := Int.le_floor.2 (by push_cast; exact hlo.le)
  rw [abs_le, roundHalfEven]
  split_ifs <;> omega

/-- The quotient that is rounded has at most as many bits as the significand. -/
theorem abs_div_ulp_lt (fmt : FloatFormat) (q : ℚ) : |q / ulp fmt q| < (2 ^ fmt.prec : ℕ) := by
  rw [abs_div, abs_of_pos (ulp_pos fmt q), div_lt_iff₀ (ulp_pos fmt q), ulp]
  push_cast
  rw [← zpow_natCast, ← zpow_add₀ two_ne_zero]
  calc |q| < 2 ^ (Int.log 2 |q| + 1) := Int.lt_zpow_succ_log_self one_lt_two _
    _ ≤ _ := (zpow_le_zpow_iff_right₀ one_lt_two).2 (by omega)

/-- **What is rounded is a value of the format.** -/
theorem round_round {fmt : FloatFormat} {q r : ℚ} (h : round fmt q = finite r) :
    round fmt r = finite r := by
  have hk := abs_roundHalfEven_le (abs_div_ulp_lt fmt q)
  rw [round] at h
  split_ifs at h with hmax
  have hr := finite.inj h
  rw [hr] at hmax
  obtain ⟨m, hm⟩ := exists_mul_ulp (by exact_mod_cast hk) (le_max_right _ fmt.emin) hr
  exact round_eq_self hm (not_le.1 hmax)

/-- The conversion of a value of the format. -/
theorem convert_convert (fmt : FloatFormat) (x : BinaryFloat) :
    (x.convert fmt).convert fmt = x.convert fmt := by
  cases x with
  | finite q =>
    cases h : round fmt q with
    | finite r =>
      rw [convert, h, convert, round_round h]
    | infinite negative => rw [convert, h, convert]
    | nan => rw [convert, h, convert]
  | infinite negative => rfl
  | nan => rfl

/-! ## Natural numbers beyond the significand -/

/-- The exponent of the distance of the values around a natural number. -/
def spacing (fmt : FloatFormat) (n : ℕ) : ℕ := Nat.log 2 n + 1 - fmt.prec

theorem ulp_natCast {fmt : FloatFormat} {n : ℕ} (hn : fmt.prec ≤ Nat.log 2 n + 1) :
    ulp fmt n = 2 ^ spacing fmt n := by
  have hemin : fmt.emin ≤ 0 := by
    have hpos := fmt.prec_pos
    have hle := fmt.prec_le
    rw [FloatFormat.emin]
    omega
  have hlog : Int.log 2 |((n : ℕ) : ℚ)| = Nat.log 2 n := by
    rw [abs_of_nonneg (Nat.cast_nonneg n)]
    exact Int.log_natCast 2 n
  rw [ulp, hlog, max_eq_left (by omega), ← zpow_natCast]
  congr 1
  rw [spacing]
  omega

/-- The quotient that is rounded has at most as many bits as the significand. -/
theorem div_spacing_lt {fmt : FloatFormat} {n : ℕ} :
    (n : ℚ) / 2 ^ spacing fmt n < 2 ^ fmt.prec := by
  rw [div_lt_iff₀ (by positivity), ← pow_add]
  have hlt : n < 2 ^ (Nat.log 2 n + 1) := Nat.lt_pow_succ_log_self one_lt_two n
  have hle : 2 ^ (Nat.log 2 n + 1) ≤ 2 ^ (fmt.prec + spacing fmt n) :=
    Nat.pow_le_pow_right (by decide) (by rw [spacing]; omega)
  exact_mod_cast hlt.trans_le hle

theorem roundHalfEven_natCast_le {q : ℚ} {k : ℕ} (h0 : 0 ≤ q) (hq : q < k) :
    ∃ j : ℕ, j ≤ k ∧ roundHalfEven q = j := by
  have hfloor : 0 ≤ ⌊q⌋ := Int.floor_nonneg.2 h0
  have hlt : ⌊q⌋ < k := Int.floor_lt.2 (by exact_mod_cast hq)
  have hbound : 0 ≤ roundHalfEven q ∧ roundHalfEven q ≤ k := by
    rw [roundHalfEven]
    split_ifs <;> omega
  obtain ⟨j, hj⟩ := Int.eq_ofNat_of_zero_le hbound.1
  exact ⟨j, by omega, hj⟩

/-- A natural number is rounded to a multiple of the distance of the values around it. -/
theorem round_natCast {fmt : FloatFormat} {n : ℕ} (hn : fmt.prec ≤ Nat.log 2 n + 1)
    (hmax : (Nat.log 2 n : ℤ) < fmt.emax) :
    ∃ j : ℕ, j ≤ 2 ^ fmt.prec ∧ round fmt n = finite (j * 2 ^ spacing fmt n : ℕ) := by
  obtain ⟨j, hj, hround⟩ := roundHalfEven_natCast_le (k := 2 ^ fmt.prec)
    (show (0 : ℚ) ≤ (n : ℚ) / 2 ^ spacing fmt n by positivity)
    (by exact_mod_cast div_spacing_lt)
  refine ⟨j, hj, ?_⟩
  have hlt : ((j * 2 ^ spacing fmt n : ℕ) : ℚ) < 2 ^ (fmt.emax + 1) := by
    have hle : j * 2 ^ spacing fmt n ≤ 2 ^ (Nat.log 2 n + 1) := by
      have hsum : fmt.prec + spacing fmt n = Nat.log 2 n + 1 := by
        rw [spacing]
        omega
      rw [← hsum, pow_add]
      exact Nat.mul_le_mul_right _ hj
    have hcast : ((j * 2 ^ spacing fmt n : ℕ) : ℚ) ≤ 2 ^ ((Nat.log 2 n + 1 : ℕ) : ℤ) := by
      rw [zpow_natCast]
      exact_mod_cast hle
    refine hcast.trans_lt ((zpow_lt_zpow_iff_right₀ one_lt_two).2 ?_)
    push_cast
    omega
  have heq : (roundHalfEven ((n : ℚ) / ulp fmt n) : ℚ) * ulp fmt n =
      ((j * 2 ^ spacing fmt n : ℕ) : ℚ) := by
    rw [ulp_natCast hn, hround]
    push_cast
    rfl
  rw [round]
  simp only [heq]
  rw [if_neg (not_le.2 ?_)]
  rwa [abs_of_nonneg (Nat.cast_nonneg _)]

/-- **A natural number is a value of the format** exactly when it is a multiple of the distance of
the values around it. -/
theorem round_natCast_eq_self_iff {fmt : FloatFormat} {n : ℕ}
    (hmax : (Nat.log 2 n : ℤ) < fmt.emax) :
    round fmt n = finite n ↔ 2 ^ spacing fmt n ∣ n := by
  rcases lt_or_ge (Nat.log 2 n + 1) fmt.prec with hsmall | hlarge
  · have hn : n < 2 ^ fmt.prec :=
      (Nat.lt_pow_succ_log_self one_lt_two n).trans (Nat.pow_lt_pow_right (by decide) hsmall)
    have hspacing : spacing fmt n = 0 := by
      rw [spacing]
      omega
    have hround : round fmt ((n : ℤ) : ℚ) = finite ((n : ℤ) : ℚ) :=
      round_intCast (by rw [Nat.abs_cast]; exact_mod_cast hn.le)
    rw [hspacing, pow_zero]
    exact ⟨fun _ => one_dvd n, fun _ => by exact_mod_cast hround⟩
  · constructor
    · intro hround
      obtain ⟨j, -, hj⟩ := round_natCast hlarge hmax
      rw [hround, finite.injEq, Nat.cast_inj] at hj
      exact ⟨j, by rw [Nat.mul_comm]; exact hj⟩
    · rintro ⟨j, hj⟩
      have hmul : (n : ℚ) = (j : ℤ) * ulp fmt n := by
        have hcast : (n : ℚ) = ((2 ^ spacing fmt n * j : ℕ) : ℚ) := congrArg _ hj
        rw [ulp_natCast hlarge, hcast]
        push_cast
        ring
      have hlt : (n : ℚ) < 2 ^ (fmt.emax + 1) := by
        have hle : (n : ℚ) < 2 ^ ((Nat.log 2 n + 1 : ℕ) : ℤ) := by
          rw [zpow_natCast]
          exact_mod_cast Nat.lt_pow_succ_log_self one_lt_two n
        refine hle.trans ((zpow_lt_zpow_iff_right₀ one_lt_two).2 ?_)
        push_cast
        omega
      exact round_eq_self hmul (by rwa [abs_of_nonneg (Nat.cast_nonneg n)])

/-- What a natural number is rounded to is not rounded again. -/
theorem exists_round_natCast {fmt : FloatFormat} {n k : ℕ} (hn : n < 2 ^ k)
    (hk : fmt.prec ≤ k) (hmax : (k : ℤ) < fmt.emax) :
    ∃ m : ℕ, m ≤ 2 ^ k ∧ (n = 0 → m = 0) ∧ round fmt n = finite m ∧ round fmt m = finite m := by
  rcases lt_or_ge (Nat.log 2 n + 1) fmt.prec with hsmall | hlarge
  · have hdvd : 2 ^ spacing fmt n ∣ n := by
      have hzero : spacing fmt n = 0 := by
        rw [spacing]
        omega
      rw [hzero]
      exact one_dvd n
    have hself := (@round_natCast_eq_self_iff fmt n (by omega)).2 hdvd
    exact ⟨n, hn.le, fun h => h, hself, hself⟩
  · rcases Nat.eq_zero_or_pos n with rfl | hpos
    · have hself := (@round_natCast_eq_self_iff fmt 0 (by
        rw [Nat.log_zero_right]
        omega)).2 (dvd_zero _)
      exact ⟨0, Nat.zero_le _, fun h => h, hself, hself⟩
    · have hlog : Nat.log 2 n < k := (Nat.log_lt_iff_lt_pow one_lt_two hpos.ne').2 hn
      obtain ⟨j, hj, hround⟩ := round_natCast hlarge (by omega)
      have hsum : fmt.prec + spacing fmt n = Nat.log 2 n + 1 := by
        rw [spacing]
        omega
      have hle : j * 2 ^ spacing fmt n ≤ 2 ^ (Nat.log 2 n + 1) := by
        rw [← hsum, pow_add]
        exact Nat.mul_le_mul_right _ hj
      exact ⟨j * 2 ^ spacing fmt n, hle.trans (Nat.pow_le_pow_right (by decide) hlog),
        fun h => absurd h hpos.ne', hround, round_round hround⟩

@[simp] theorem convert_finite (fmt : FloatFormat) (q : ℚ) : convert fmt (finite q) = round fmt q :=
  rfl

end BinaryFloat

end RbProtocol.Library
