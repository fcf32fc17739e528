import RbProtocol.Dns.Questions

/-!
# The header of a request and of its reply

`Header` is a `dns_header_t` in memory. On a buffer that starts with a header `processDnsQuestion`
is the opcode test, the size test, and the question loop on the same buffer under the header
`Header.query` (`processDnsQuestion_header`); the end of the function puts the answer count into
that header (`finishReply_header`).
-/

namespace RbProtocol.Dns

open Library

/-- A `dns_header_t`. The two bytes of `flags` are kept apart, in the order of the message. -/
structure Header where
  id : UInt16
  flagsHi : UInt8
  flagsLo : UInt8
  qdCount : UInt16
  anCount : UInt16
  nsCount : UInt16
  arCount : UInt16

/-- The 12 bytes of a header. -/
def Header.encode (h : Header) : Bytes :=
  htons h.id.toNat ++ ([h.flagsHi, h.flagsLo] ++ (htons h.qdCount.toNat ++
    (htons h.anCount.toNat ++ (htons h.nsCount.toNat ++ htons h.arCount.toNat))))

/-- The opcode bits of the flags. -/
def Header.opcode (h : Header) : ℕ := ntohs [h.flagsHi, h.flagsLo] &&& opcodeMask

/-- The header while the questions are walked over: the response flag set, no authority and no
additional records. -/
def Header.query (h : Header) : Header :=
  { h with flagsHi := h.flagsHi ||| qrFlag, nsCount := 0, arCount := 0 }

/-- The header of the reply. -/
def Header.reply (h : Header) (answerCount : ℕ) : Header :=
  { h.query with anCount := UInt16.ofNat answerCount }

@[simp] theorem Header.length_encode (h : Header) : h.encode.length = headerSize := rfl

/-- The bytes at the start of a buffer are a header. -/
theorem exists_header {buff : Bytes} (hlen : headerSize ≤ buff.length) :
    ∃ (h : Header) (tail : Bytes), buff = h.encode ++ tail := by
  obtain ⟨a, b, c, d, e, f, g, i, j, k, l, m, tail, rfl⟩ :
      ∃ a b c d e f g i j k l m tail, buff = a :: b :: c :: d :: e :: f :: g :: i :: j :: k :: l ::
        m :: tail := by
    rcases buff with _ | ⟨a, _ | ⟨b, _ | ⟨c, _ | ⟨d, _ | ⟨e, _ | ⟨f, _ | ⟨g, _ | ⟨i, _ | ⟨j, _ |
      ⟨k, _ | ⟨l, _ | ⟨m, tail⟩⟩⟩⟩⟩⟩⟩⟩⟩⟩⟩⟩
    all_goals first
      | exact ⟨_, _, _, _, _, _, _, _, _, _, _, _, _, rfl⟩
      | simp [headerSize] at hlen
  refine ⟨⟨UInt16.ofNat (ntohs [a, b]), c, d, UInt16.ofNat (ntohs [e, f]),
    UInt16.ofNat (ntohs [g, i]), UInt16.ofNat (ntohs [j, k]), UInt16.ofNat (ntohs [l, m])⟩,
    tail, ?_⟩
  simp only [Header.encode, htons_ofNat_ntohs]
  rfl

/-! ## The fields that `processDnsQuestion` reads and writes -/

section Fields

variable (h : Header) (tail : Bytes)

/-- The bytes behind the flags. -/
def Header.counts (h : Header) : Bytes :=
  htons h.qdCount.toNat ++ (htons h.anCount.toNat ++
    (htons h.nsCount.toNat ++ htons h.arCount.toNat))

theorem readAt?_flags : readAt? (h.encode ++ tail) 2 2 = some [h.flagsHi, h.flagsLo] :=
  readAt?_append (htons h.id.toNat) [h.flagsHi, h.flagsLo] (h.counts ++ tail)

theorem readAt?_qdCount : readAt? (h.encode ++ tail) 4 2 = some (htons h.qdCount.toNat) :=
  readAt?_append (htons h.id.toNat ++ [h.flagsHi, h.flagsLo]) (htons h.qdCount.toNat)
    (htons h.anCount.toNat ++ (htons h.nsCount.toNat ++ htons h.arCount.toNat) ++ tail)

theorem writeAt?_flagsHi (b : UInt8) :
    writeAt? (h.encode ++ tail) 2 [b] = some ({ h with flagsHi := b }.encode ++ tail) :=
  writeAt?_append (b := [h.flagsHi]) (htons h.id.toNat) (h.flagsLo :: h.counts ++ tail) rfl

theorem writeAt?_anCount (c : UInt16) :
    writeAt? (h.encode ++ tail) 6 (htons c.toNat) = some ({ h with anCount := c }.encode ++ tail) :=
  writeAt?_append (b := htons h.anCount.toNat)
    (htons h.id.toNat ++ ([h.flagsHi, h.flagsLo] ++ htons h.qdCount.toNat))
    (htons h.nsCount.toNat ++ htons h.arCount.toNat ++ tail) rfl

theorem writeAt?_nsCount (c : UInt16) :
    writeAt? (h.encode ++ tail) 8 (htons c.toNat) = some ({ h with nsCount := c }.encode ++ tail) :=
  writeAt?_append (b := htons h.nsCount.toNat)
    (htons h.id.toNat ++ ([h.flagsHi, h.flagsLo] ++
      (htons h.qdCount.toNat ++ htons h.anCount.toNat)))
    (htons h.arCount.toNat ++ tail) rfl

theorem writeAt?_arCount (c : UInt16) :
    writeAt? (h.encode ++ tail) 10 (htons c.toNat) =
      some ({ h with arCount := c }.encode ++ tail) :=
  writeAt?_append (b := htons h.arCount.toNat)
    (htons h.id.toNat ++ ([h.flagsHi, h.flagsLo] ++
      (htons h.qdCount.toNat ++ (htons h.anCount.toNat ++ htons h.nsCount.toNat))))
    tail rfl

end Fields

/-! ## `processDnsQuestion` around its loop -/

/-- The length of the largest reply to the questions a header announces. -/
def Header.fullReplyLen (h : Header) (reqSize : ℕ) : ℕ := h.qdCount.toNat * answerSize + reqSize

/-- The buffer behind the header once it has room for the largest reply. -/
def Header.room (h : Header) (reqSize : ℕ) (tail : Bytes) : Bytes :=
  tail ++ List.replicate (h.fullReplyLen reqSize - (headerSize + tail.length)) 0

/-- `processDnsQuestion` on a buffer that starts with a header. -/
theorem processDnsQuestion_header (h : Header) (tail : Bytes) (reqSize : ℕ) (espIp : UInt32) :
    processDnsQuestion (h.encode ++ tail) reqSize espIp =
      if h.opcode ≠ 0 then .ok (h.encode ++ tail, -1)
      else if dnsMsgSizeLimit < h.fullReplyLen reqSize then .ok (h.query.encode ++ tail, -1)
      else
        answerQuestions reqSize espIp h.qdCount.toNat
          ⟨h.query.encode ++ h.room reqSize tail, headerSize, reqSize, 0⟩ >>= fun
          | none => .ok (h.query.encode ++ h.room reqSize tail, -1)
          | some s => finishReply reqSize s := by
  have hzero : ([0, 0] : Bytes) = htons (0 : UInt16).toNat := rfl
  rw [processDnsQuestion, hzero]
  simp only [readAt?_flags, orFault, bind, Except.bind, List.headD_cons, writeAt?_flagsHi,
    writeAt?_nsCount, writeAt?_arCount, readAt?_qdCount, ntohs_htons h.qdCount.toNat_lt,
    List.append_assoc, List.length_append, Header.length_encode]
  rfl

/-- The answer count goes into the header. -/
theorem finishReply_header (h : Header) (body : Bytes) (reqSize curQuestion curAns : ℕ) {count : ℕ}
    (hcount : count < 2 ^ 16) :
    finishReply reqSize ⟨h.encode ++ body, curQuestion, curAns, count⟩ =
      if curQuestion < reqSize then
        (orFault .bufferRead (moveWithin? ({ h with anCount := UInt16.ofNat count }.encode ++ body)
          curQuestion reqSize (reqSize - curQuestion))).map fun buff =>
            (buff, ((count * answerSize + curQuestion : ℕ) : ℤ))
      else .ok ({ h with anCount := UInt16.ofNat count }.encode ++ body,
        ((count * answerSize + reqSize : ℕ) : ℤ)) := by
  have hofNat : (UInt16.ofNat count).toNat = count := by
    rw [UInt16.toNat_ofNat', Nat.mod_eq_of_lt hcount]
  have hwrite := writeAt?_anCount h body (UInt16.ofNat count)
  rw [hofNat] at hwrite
  rw [finishReply]
  simp only [hwrite, orFault, bind, Except.bind]
  split_ifs with hcur
  · rw [Nat.sub_sub_self hcur.le]
    cases moveWithin? ({ h with anCount := UInt16.ofNat count }.encode ++ body) curQuestion reqSize
      (reqSize - curQuestion) <;> simp [pure, Except.pure, Except.map]
  · simp [pure, Except.pure]

end RbProtocol.Dns
