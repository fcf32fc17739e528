import RbProtocol.Web.Range

/-!
# The transfer of a file

`sendfile` with all its variables. The number that is taken off `count` in a round is the number of
bytes that were to be read, what is added to `*offset` and `res` is the number that was written, and
the position of the file moves by the number that was read; and `res` is not initialized.

So the transfer is exact if and only if no read and no write is short and `res` happened to be 0
(`transferExact_iff`).
-/

namespace RbProtocol.Web

/-- The variables of `sendfile`: what is left of the file from its position on, `*offset`, `count`
and `res`; and what has been written. -/
structure Transfer where
  rest : Bytes
  offset : ℤ
  count : ℕ
  res : ℤ
  written : Bytes

namespace Transfer

/-- Before the loop. -/
def start (file : Bytes) (offset : ℤ) (count : ℕ) (res : ℤ) : Transfer :=
  ⟨file.drop offset.toNat, offset, count, res, []⟩

/-- `chunk`. -/
def chunk (t : Transfer) : ℕ := min t.count bufsize

/-- A round of the loop, in which `read` returns at most `n` bytes and `write` takes at most `k`. -/
def next (t : Transfer) (n k : ℕ) : Transfer :=
  let bytes := t.rest.take (min n t.chunk)
  let sent := bytes.take k
  { rest := t.rest.drop bytes.length
    offset := Int.bmod (t.offset + sent.length) (2 ^ 32)
    count := t.count - t.chunk
    res := Int.bmod (t.res + sent.length) (2 ^ 32)
    written := t.written ++ sent }

@[simp] theorem count_next (t : Transfer) (n k : ℕ) : (t.next n k).count = t.count - t.chunk := rfl

theorem chunk_le (t : Transfer) : t.chunk ≤ t.count := min_le_left _ _

theorem count_next_lt {t : Transfer} (h : t.count ≠ 0) (n k : ℕ) :
    (t.next n k).count < t.count := by
  rw [count_next, chunk, bufsize]
  omega

/-- The file goes on at least as long as there are bytes to transfer. -/
theorem count_next_le {t : Transfer} (h : t.count ≤ t.rest.length) (n k : ℕ) :
    (t.next n k).count ≤ (t.next n k).rest.length := by
  have hrest : (t.next n k).rest = t.rest.drop (t.rest.take (min n t.chunk)).length := rfl
  rw [count_next, hrest, List.length_drop, List.length_take]
  omega

/-- The bytes of a round. -/
theorem length_written_next (t : Transfer) (n k : ℕ) :
    (t.next n k).written.length = t.written.length + min k (min (min n t.chunk) t.rest.length) := by
  rw [next, List.length_append, List.length_take, List.length_take]

end Transfer

/-- The loop of `sendfile` from its `i`-th chunk on: its result, and the variables at the end. -/
def sendfileRun (io : ℕ → ChunkIo) (i : ℕ) (t : Transfer) : ℤ × Transfer :=
  if _h : t.count = 0 then (t.res, t)
  else
    match (io i).read with
    | none => (-1, t)
    | some n =>
      match (io i).write with
      | none => (-1, { t with rest := t.rest.drop (min n t.chunk) })
      | some k => sendfileRun io (i + 1) (t.next n k)
termination_by t.count
decreasing_by exact Transfer.count_next_lt _h _ _

/-- What is sent and returned does not depend on `*offset`. -/
theorem sendfileLoop_eq (io : ℕ → ChunkIo) (i : ℕ) (t : Transfer) :
    (sendfileLoop io t.rest i t.count t.res).1 = (sendfileRun io i t).1 ∧
      t.written ++ sent (sendfileLoop io t.rest i t.count t.res).2 =
        (sendfileRun io i t).2.written := by
  fun_induction sendfileRun io i t with
  | case1 i t h =>
    rw [sendfileLoop, if_pos h]
    exact ⟨rfl, List.append_nil _⟩
  | case2 i t h hread =>
    rw [sendfileLoop, if_neg h, hread]
    exact ⟨rfl, List.append_nil _⟩
  | case3 i t h n hread hwrite =>
    rw [sendfileLoop, if_neg h, hread, hwrite]
    exact ⟨rfl, List.append_nil _⟩
  | case4 i t h n hread k hwrite ih =>
    rw [sendfileLoop, if_neg h, hread, hwrite]
    refine ⟨ih.1, ?_⟩
    rw [← ih.2]
    exact (List.append_assoc ..).symm

/-- What `sendfile` sends and returns. -/
theorem sendfile_eq (io : ℕ → ChunkIo) (res : ℤ) (file : Bytes) (offset : ℤ) (count : ℕ) :
    (sendfile io res file offset count).1 =
        (sendfileRun io 0 (.start file offset count res)).1 ∧
      sent (sendfile io res file offset count).2 =
        (sendfileRun io 0 (.start file offset count res)).2.written :=
  sendfileLoop_eq io 0 (.start file offset count res)

/-! ## Short reads and writes -/

/-- Calls that do not fail: the `i`-th `read` and `write` transfer at most so many bytes. -/
def shortIo (reads writes : ℕ → ℕ) (i : ℕ) : ChunkIo := ⟨some (reads i), some (writes i)⟩

/-- No call from the `i`-th chunk on is short, with `count` bytes to go. -/
def Full (reads writes : ℕ → ℕ) (i count : ℕ) : Prop :=
  ∀ j, bufsize * j < count → min (count - bufsize * j) bufsize ≤ reads (i + j) ∧
    min (count - bufsize * j) bufsize ≤ writes (i + j)

section Run

variable {reads writes : ℕ → ℕ} {i : ℕ} {t : Transfer}

theorem sendfileRun_zero (h : t.count = 0) :
    sendfileRun (shortIo reads writes) i t = (t.res, t) := by
  rw [sendfileRun, dif_pos h]

theorem sendfileRun_next (h : t.count ≠ 0) : sendfileRun (shortIo reads writes) i t =
    sendfileRun (shortIo reads writes) (i + 1) (t.next (reads i) (writes i)) := by
  rw [sendfileRun, dif_neg h]
  rfl

/-- The first chunk and the others. -/
theorem full_iff {count : ℕ} (h : count ≠ 0) : Full reads writes i count ↔
    (min count bufsize ≤ reads i ∧ min count bufsize ≤ writes i) ∧
      Full reads writes (i + 1) (count - min count bufsize) := by
  have hpos : 0 < bufsize := by decide
  constructor
  · intro hfull
    refine ⟨?_, fun j hj => ?_⟩
    · have h0 := hfull 0 (by omega)
      simpa using h0
    · have hlong : bufsize < count := by
        by_contra hle
        rw [min_eq_left (not_lt.1 hle), Nat.sub_self] at hj
        exact absurd hj (Nat.not_lt_zero _)
      rw [min_eq_right hlong.le] at hj ⊢
      have hnext := hfull (j + 1) (by rw [Nat.mul_succ]; omega)
      rwa [Nat.mul_succ, Nat.add_comm (bufsize * j), ← Nat.sub_sub, ← Nat.add_assoc,
        Nat.add_right_comm] at hnext
  · rintro ⟨hfirst, hrest⟩ j hj
    cases j with
    | zero => simpa using hfirst
    | succ j =>
      rw [Nat.mul_succ] at hj
      have hlong : bufsize < count := by omega
      rw [min_eq_right hlong.le] at hrest
      have hnext := hrest j (by omega)
      rwa [Nat.mul_succ, Nat.add_comm (bufsize * j), ← Nat.sub_sub, ← Nat.add_assoc,
        Nat.add_right_comm]

/-- The bytes of a round are added to `res`. -/
theorem Transfer.res_next (n k : ℕ) : (t.next n k).res =
    Int.bmod (t.res + ((t.next n k).written.length - t.written.length)) (2 ^ 32) := by
  simp [next]

/-- A round of full calls. -/
theorem Transfer.next_full {n k : ℕ} (hread : t.chunk ≤ n) (hwrite : t.chunk ≤ k)
    (hrest : t.count ≤ t.rest.length) : t.next n k =
      { rest := t.rest.drop t.chunk
        offset := Int.bmod (t.offset + t.chunk) (2 ^ 32)
        count := t.count - t.chunk
        res := Int.bmod (t.res + t.chunk) (2 ^ 32)
        written := t.written ++ t.rest.take t.chunk } := by
  have hlength : (t.rest.take t.chunk).length = t.chunk :=
    List.length_take_of_le (t.chunk_le.trans hrest)
  have htake : (t.rest.take t.chunk).take k = t.rest.take t.chunk :=
    List.take_of_length_le (hlength.trans_le hwrite)
  rw [next, min_eq_right hread, htake, hlength]

/-- Numbers that a `long` can hold. -/
theorem bmod_of_lt {n : ℤ} (h : 0 ≤ n ∧ n < 2 ^ 31) : Int.bmod n (2 ^ 32) = n := by
  rw [Int.bmod]
  omega

theorem bmod_eq_add (n : ℤ) : ∃ q, Int.bmod n (2 ^ 32) = n + 2 ^ 32 * q := by
  refine ⟨-Int.bdiv n (2 ^ 32), ?_⟩
  rw [Int.bmod_eq_self_sub_mul_bdiv, mul_neg, ← sub_eq_add_neg]
  rfl

/-- **Full calls transfer everything.** -/
theorem sendfileRun_full (hfull : Full reads writes i t.count) (hrest : t.count ≤ t.rest.length)
    (hoffset : 0 ≤ t.offset ∧ t.offset + t.count < 2 ^ 31)
    (hres : 0 ≤ t.res ∧ t.res + t.count < 2 ^ 31) :
    (sendfileRun (shortIo reads writes) i t).1 = t.res + t.count ∧
      (sendfileRun (shortIo reads writes) i t).2.offset = t.offset + t.count ∧
      (sendfileRun (shortIo reads writes) i t).2.written = t.written ++ t.rest.take t.count := by
  induction hn : t.count using Nat.strong_induction_on generalizing i t with
  | _ n ih =>
    subst hn
    by_cases h0 : t.count = 0
    · rw [sendfileRun_zero h0, h0]
      simp
    · obtain ⟨⟨hread, hwrite⟩, hmore⟩ := (full_iff h0).1 hfull
      have hle := t.chunk_le
      have hnext := Transfer.next_full hread hwrite hrest
      have hoffsetNext : (t.next (reads i) (writes i)).offset = t.offset + t.chunk := by
        rw [hnext]
        exact bmod_of_lt (by omega)
      have hresNext : (t.next (reads i) (writes i)).res = t.res + t.chunk := by
        rw [hnext]
        exact bmod_of_lt (by omega)
      have hcount := t.count_next (reads i) (writes i)
      obtain ⟨hresult, hend, hwritten⟩ := ih _ (Transfer.count_next_lt h0 (reads i) (writes i))
        hmore (Transfer.count_next_le hrest _ _) (by omega) (by omega) rfl
      rw [sendfileRun_next h0]
      refine ⟨by omega, by omega, hwritten.trans ?_⟩
      rw [hnext, List.append_assoc, ← List.take_add, Nat.add_sub_cancel' hle]

/-- At most as many bytes are written as should be, and as many only if all calls are full. -/
theorem length_written_le (hrest : t.count ≤ t.rest.length) :
    (sendfileRun (shortIo reads writes) i t).2.written.length ≤ t.written.length + t.count ∧
      ((sendfileRun (shortIo reads writes) i t).2.written.length = t.written.length + t.count →
        Full reads writes i t.count) := by
  induction hn : t.count using Nat.strong_induction_on generalizing i t with
  | _ n ih =>
    subst hn
    by_cases h0 : t.count = 0
    · rw [sendfileRun_zero h0, h0]
      exact ⟨le_rfl, fun _ j hj => absurd hj (Nat.not_lt_zero _)⟩
    · have hle := t.chunk_le
      have hlength := t.length_written_next (reads i) (writes i)
      have hcount := t.count_next (reads i) (writes i)
      obtain ⟨hbound, hfull⟩ := @ih _ (Transfer.count_next_lt h0 (reads i) (writes i)) (i + 1) _
        (Transfer.count_next_le hrest _ _) rfl
      rw [sendfileRun_next h0, full_iff h0]
      refine ⟨by omega, fun heq => ?_⟩
      -- neither this chunk nor a later one can be short
      have hthis : t.chunk ≤ reads i ∧ t.chunk ≤ writes i := by omega
      exact ⟨hthis, hfull (by omega)⟩

/-- What is returned is what was in `res` and the number of bytes written, up to an overflow. -/
theorem sendfileRun_res : ∃ m : ℤ, (sendfileRun (shortIo reads writes) i t).1 =
    t.res + ((sendfileRun (shortIo reads writes) i t).2.written.length - t.written.length) +
      2 ^ 32 * m := by
  induction hn : t.count using Nat.strong_induction_on generalizing i t with
  | _ n ih =>
    subst hn
    by_cases h0 : t.count = 0
    · rw [sendfileRun_zero h0]
      exact ⟨0, by simp⟩
    · obtain ⟨m, hm⟩ := @ih _ (Transfer.count_next_lt h0 (reads i) (writes i)) (i + 1) _ rfl
      obtain ⟨q, hq⟩ := bmod_eq_add
        (t.res + ((t.next (reads i) (writes i)).written.length - t.written.length))
      rw [← Transfer.res_next] at hq
      rw [sendfileRun_next h0]
      exact ⟨m + q, by rw [hm, hq]; ring⟩

end Run

/-! ## The transfer -/

/-- The transfer of `count` bytes of a file from `offset` on, as it should be. -/
structure TransferExact (io : ℕ → ChunkIo) (res : ℤ) (file : Bytes) (offset count : ℕ) : Prop where
  written_eq : (sendfileRun io 0 (.start file offset count res)).2.written =
    (file.drop offset).take count
  offset_eq : (sendfileRun io 0 (.start file offset count res)).2.offset = offset + count
  result_eq : (sendfileRun io 0 (.start file offset count res)).1 = count

/-- **A transfer is exact if and only if no call is short and `res` was 0.** The size of a file is
an `off_t`, and `res` is an `ssize_t`. -/
theorem transferExact_iff (reads writes : ℕ → ℕ) (res : ℤ) (hres : -2 ^ 31 ≤ res ∧ res < 2 ^ 31)
    (file : Bytes) (hfile : file.length < 2 ^ 31) (offset count : ℕ)
    (hcount : offset + count ≤ file.length) :
    TransferExact (shortIo reads writes) res file offset count ↔
      res = 0 ∧ Full reads writes 0 count := by
  have hrest : count ≤ (file.drop offset).length := by
    rw [List.length_drop]
    omega
  have hlength := @length_written_le reads writes 0 (.start file offset count res) hrest
  constructor
  · intro h
    have hall : (sendfileRun (shortIo reads writes) 0
        (.start file offset count res)).2.written.length = count := by
      rw [h.written_eq, List.length_take_of_le hrest]
    have hfull := hlength.2 (hall.trans (Nat.zero_add count).symm)
    obtain ⟨m, hm⟩ := @sendfileRun_res reads writes 0 (.start file offset count res)
    rw [h.result_eq, hall] at hm
    refine ⟨?_, hfull⟩
    have hstart : (count : ℤ) = res + (count - (0 : ℕ)) + 2 ^ 32 * m := hm
    omega
  · rintro ⟨rfl, hfull⟩
    obtain ⟨hresult, hoffset, hwritten⟩ := @sendfileRun_full reads writes 0
      (.start file offset count 0) hfull hrest
      ⟨Int.natCast_nonneg offset, by show (offset : ℤ) + count < 2 ^ 31; omega⟩
      ⟨le_rfl, by show (0 : ℤ) + count < 2 ^ 31; omega⟩
    exact ⟨hwritten, hoffset, hresult.trans (zero_add _)⟩

/-- Two bytes of a file with full calls. -/
theorem transferExact_two : TransferExact (shortIo (fun _ => 2) fun _ => 2) 0 [1, 2, 3] 1 2 :=
  (transferExact_iff _ _ 0 (by decide) [1, 2, 3] (by decide) 1 2 (by decide)).2
    ⟨rfl, (full_iff (by decide)).2 ⟨by decide, fun j hj => absurd hj (Nat.not_lt_zero _)⟩⟩

/-- A `write` that takes one byte of two: the other one is lost. -/
theorem not_transferExact_write :
    ¬TransferExact (shortIo (fun _ => 2) fun _ => 1) 0 [1, 2] 0 2 := by
  intro h
  exact absurd h.written_eq (by decide +kernel)

end RbProtocol.Web
