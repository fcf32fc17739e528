import RbProtocol.Foundations.Bytes

/-!
# Integers in network byte order

`htons`, `htonl` and `ntohs` as the memory they write and read. The host is little-endian, as the
ESP32 is, so a `uint32_t` that already is in network order lies in memory with its lowest byte
first (`rawBytes`).
-/

namespace RbProtocol

/-- The two bytes of `htons (n)` in memory. -/
def htons (n : ℕ) : Bytes := [UInt8.ofNat (n / 256), UInt8.ofNat n]

/-- The four bytes of `htonl (n)` in memory. -/
def htonl (n : ℕ) : Bytes :=
  [UInt8.ofNat (n / 2 ^ 24), UInt8.ofNat (n / 2 ^ 16), UInt8.ofNat (n / 2 ^ 8), UInt8.ofNat n]

/-- `ntohs` of the `uint16_t` whose two bytes are in memory. -/
def ntohs (bs : Bytes) : ℕ := (bs.getD 0 0).toNat * 256 + (bs.getD 1 0).toNat

/-- The bytes of a `uint32_t` in memory. -/
def rawBytes (x : UInt32) : Bytes :=
  [UInt8.ofNat x.toNat, UInt8.ofNat (x.toNat / 2 ^ 8), UInt8.ofNat (x.toNat / 2 ^ 16),
    UInt8.ofNat (x.toNat / 2 ^ 24)]

@[simp] theorem length_htons (n : ℕ) : (htons n).length = 2 := rfl

@[simp] theorem length_htonl (n : ℕ) : (htonl n).length = 4 := rfl

@[simp] theorem length_rawBytes (x : UInt32) : (rawBytes x).length = 4 := rfl

/-- Reading back what `htons` wrote. -/
@[simp] theorem ntohs_htons_append {n : ℕ} (h : n < 2 ^ 16) (bs : Bytes) :
    ntohs (htons n ++ bs) = n := by
  simp only [ntohs, htons, List.cons_append, List.nil_append, List.getD_cons_zero,
    List.getD_cons_succ, UInt8.toNat_ofNat']
  omega

@[simp] theorem ntohs_htons {n : ℕ} (h : n < 2 ^ 16) : ntohs (htons n) = n := by
  simpa using ntohs_htons_append h []

/-- Writing back what `ntohs` read. -/
@[simp] theorem htons_ntohs (a b : UInt8) (bs : Bytes) : htons (ntohs (a :: b :: bs)) = [a, b] := by
  have ha := a.toNat_lt
  have hb := b.toNat_lt
  simp only [htons, ntohs, List.getD_cons_zero, List.getD_cons_succ, List.cons.injEq, and_true,
    ← UInt8.toNat_inj, UInt8.toNat_ofNat']
  omega

theorem ntohs_lt (bs : Bytes) : ntohs bs < 2 ^ 16 := by
  have h0 := (bs.getD 0 0).toNat_lt
  have h1 := (bs.getD 1 0).toNat_lt
  rw [ntohs]
  omega

/-- A `uint16_t` field that was read is written as it was. -/
theorem htons_ofNat_ntohs (a b : UInt8) : htons (UInt16.ofNat (ntohs [a, b])).toNat = [a, b] := by
  rw [UInt16.toNat_ofNat', Nat.mod_eq_of_lt (ntohs_lt _), htons_ntohs]

end RbProtocol
