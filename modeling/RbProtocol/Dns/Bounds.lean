import RbProtocol.Dns.Header

/-!
# Where the DNS server stays in bounds

The accesses of `processDnsQuestion` are all legal exactly when the request is refused before its
questions are read, or when its questions are complete up to the announced count or to a name that
is rejected, and the bytes behind them can be copied (`Received.Parseable`,
`processDnsQuestion_inBounds_iff`). A length byte that is equal to the remaining length is accepted
by the test of the label loop and breaks three bounds at once.
-/

namespace RbProtocol.Dns

open Library

/-- A packet as `taskBody` hands it over: the buffer never shrinks below its first size, the
received bytes lie in it, and longer packets are dropped by `receivePacket`. -/
structure Received where
  buff : Bytes
  reqSize : ℕ
  length_ge : 64 ≤ buff.length
  size_le : reqSize ≤ buff.length
  size_limit : reqSize ≤ dnsMsgSizeLimit

/-- The bytes behind the header that were received. -/
def Received.body (r : Received) : Bytes := (r.buff.take r.reqSize).drop headerSize

/-- `header->qd_count` of the packet. -/
def Received.questionCount (r : Received) : ℕ := ntohs ((r.buff.drop 4).take 2)

/-- The opcode bits of `header->flags` of the packet. -/
def Received.opcode (r : Received) : ℕ := ntohs ((r.buff.drop 2).take 2) &&& opcodeMask

/-- The length of the largest reply to the packet. -/
def Received.fullReplyLen (r : Received) : ℕ := r.questionCount * answerSize + r.reqSize

/-- The questions of a packet can be walked over: behind `qs` comes either the end of the announced
questions, with the bytes left over not more than lie between the request and the end of the
buffer, or a name that is rejected. -/
def Received.Parseable (r : Received) : Prop :=
  ∃ qs rest, r.body = encodeQuestions qs ++ rest ∧ (∀ q ∈ qs, q.Fits) ∧
    ((qs.length = r.questionCount ∧ r.reqSize + rest.length ≤ max r.buff.length r.fullReplyLen) ∨
      (qs.length < r.questionCount ∧ RejectedName (min rest.length outBufSize) rest))

/-! ## One round -/

variable {reqSize k : ℕ} {espIp : UInt32} {s s' : Loop} {rest : Bytes} {res : Option Loop}

/-- A complete question keeps the request, and moves the cursor behind it. -/
theorem Loop.afterQuestion_ok {q : Question} (h : s.afterQuestion q espIp = .ok s')
    (hans : reqSize ≤ s.curAns) :
    s'.buff.take reqSize = s.buff.take reqSize ∧ s'.buff.length = s.buff.length ∧
      reqSize ≤ s'.curAns ∧ s'.curQuestion = s.curQuestion + q.encode.length ∧
      s'.answerCount ≤ s.answerCount + 1 := by
  rw [Loop.afterQuestion] at h
  split_ifs at h with hA
  · rcases hw : writeAt? s.buff s.curAns
      (dnsAnswer s.curQuestion q.type.toNat q.clazz.toNat espIp) with _ | buff
    · simp [hw, orFault, bind, Except.bind] at h
    · simp only [hw, orFault, bind, Except.bind, pure, Except.pure, Except.ok.injEq] at h
      subst h
      exact ⟨take_writeAt? hw hans, length_writeAt? hw, by simp only; omega, rfl, le_rfl⟩
  · obtain rfl := Except.ok.inj h
    exact ⟨rfl, rfl, hans, rfl, by simp⟩

/-- The question behind a name that ends inside the request. -/
theorem exists_question {req tail question : Bytes} {label : ℕ} {ls : List Label}
    (h : req.drop label = encodeLabels ls ++ 0 :: tail)
    (hread : readAt? req (label + (encodeLabels ls).length + 1) questionSize = some question) :
    ∃ q rest, q.labels = ls ∧ req.drop label = Question.encode q ++ rest := by
  have hdrop := drop_of_drop h ((encodeLabels ls).length + 1)
  rw [List.drop_length_add_append, List.drop_succ_cons, List.drop_zero] at hdrop
  rw [readAt?] at hread
  split_ifs at hread with hle
  have hlen := congrArg List.length hdrop
  rw [List.length_drop] at hlen
  obtain ⟨a, b, c, d, rest, rfl⟩ : ∃ a b c d rest, tail = a :: b :: c :: d :: rest := by
    rcases tail with _ | ⟨a, _ | ⟨b, _ | ⟨c, _ | ⟨d, rest⟩⟩⟩⟩
    all_goals first
      | exact ⟨_, _, _, _, _, rfl⟩
      | simp only [List.length_cons, List.length_nil, questionSize] at hlen hle
        omega
  refine ⟨⟨ls, UInt16.ofNat (ntohs [a, b]), UInt16.ofNat (ntohs [c, d])⟩, rest, rfl, ?_⟩
  rw [h, Question.encode, htons_ofNat_ntohs, htons_ofNat_ntohs]
  simp

/-- A round without a fault met a name it rejects or a complete question. -/
theorem answerQuestions_succ_ok (h : answerQuestions reqSize espIp (k + 1) s = .ok res)
    (hreq : reqSize ≤ s.buff.length) (hlimit : reqSize ≤ dnsMsgSizeLimit)
    (hrest : (s.buff.take reqSize).drop s.curQuestion = rest) :
    (res = none ∧ RejectedName (min rest.length outBufSize) rest) ∨
      ∃ q rest', q.Fits ∧ rest = q.encode ++ rest' ∧
        s.afterQuestion q espIp >>= answerQuestions reqSize espIp k = .ok res := by
  have hround := h
  rw [answerQuestions] at h
  have hne : rest ≠ [] := by
    rintro rfl
    have hnone : (s.buff.take reqSize)[s.curQuestion]? = none := getElem?_of_drop hrest 0
    rw [parseDnsName, parseDnsLabels, hnone] at h
    simp [bind, Except.bind] at h
  rw [parseDnsName_eq hreq hlimit hrest hne] at h
  rcases hp : parseDnsLabels (s.buff.take reqSize) s.curQuestion [] (min rest.length outBufSize)
    with fault | name
  · simp [hp, bind, Except.bind] at h
  rcases parseDnsLabels_ok hp with ⟨rfl, hrej⟩ | ⟨ls, tail, name, hls, hname, hfit, rfl⟩
  · rw [hrest] at hrej
    simp only [hp, bind, Except.bind, pure, Except.pure, Except.ok.injEq] at h
    exact .inl ⟨h.symm, hrej⟩
  · simp only [hp, bind, Except.bind] at h
    rcases hread : readAt? (s.buff.take reqSize) (s.curQuestion + (encodeLabels ls).length + 1)
      questionSize with _ | question
    · simp [hread, orFault] at h
    obtain ⟨q, rest', rfl, hq⟩ := exists_question hname hread
    have hfits : q.Fits := ⟨hls, hfit.trans (min_le_right _ _)⟩
    refine .inr ⟨q, rest', hfits, hrest ▸ hq, ?_⟩
    rw [← answerQuestions_question q hfits hreq hlimit hq]
    exact hround

/-! ## The whole loop -/

/-- **The loop returns without a fault only behind complete questions**: all of them, or those
before a rejected name. -/
theorem answerQuestions_ok (h : answerQuestions reqSize espIp k s = .ok res)
    (hreq : reqSize ≤ s.buff.length) (hlimit : reqSize ≤ dnsMsgSizeLimit)
    (hans : reqSize ≤ s.curAns) :
    ∃ qs rest, (s.buff.take reqSize).drop s.curQuestion = encodeQuestions qs ++ rest ∧
      (∀ q ∈ qs, q.Fits) ∧
      ((qs.length = k ∧ ∃ s', res = some s' ∧ s'.buff.length = s.buff.length ∧
          s'.buff.take reqSize = s.buff.take reqSize ∧
          s'.curQuestion = s.curQuestion + (encodeQuestions qs).length ∧
          s'.answerCount ≤ s.answerCount + k) ∨
        (qs.length < k ∧ res = none ∧ RejectedName (min rest.length outBufSize) rest)) := by
  induction k generalizing s with
  | zero =>
    obtain rfl := Except.ok.inj h
    exact ⟨[], _, rfl, by simp, .inl ⟨rfl, s, rfl, rfl, rfl, rfl, le_rfl⟩⟩
  | succ k ih =>
    rcases answerQuestions_succ_ok h hreq hlimit rfl with ⟨rfl, hrej⟩ | ⟨q, rest, hq, hrest, hstep⟩
    · exact ⟨[], _, rfl, by simp, .inr ⟨Nat.succ_pos k, rfl, hrej⟩⟩
    rcases hs : s.afterQuestion q espIp with fault | s₁
    · rw [hs] at hstep
      cases hstep
    obtain ⟨htake, hlen, hans₁, hcur, hcount⟩ := Loop.afterQuestion_ok hs hans
    rw [hs] at hstep
    obtain ⟨qs, rest', hqs, hfits, hend⟩ := ih hstep (hreq.trans_eq hlen.symm) hans₁
    rw [htake, hcur, drop_of_drop hrest, List.drop_left] at hqs
    refine ⟨q :: qs, rest', ?_, ?_, ?_⟩
    · rw [hrest, hqs, encodeQuestions_cons, List.append_assoc]
    · rintro q' (_ | ⟨_, hq'⟩)
      · exact hq
      · exact hfits q' hq'
    · rcases hend with ⟨rfl, s', rfl, hlen', htake', hcur', hcount'⟩ | ⟨hlt, rfl, hrej⟩
      · refine .inl ⟨rfl, s', rfl, hlen'.trans hlen, htake'.trans htake, ?_, by omega⟩
        rw [hcur', hcur, encodeQuestions_cons, List.length_append, Nat.add_assoc]
      · exact .inr ⟨Nat.succ_lt_succ hlt, rfl, hrej⟩

/-! ## The whole request -/

/-- The end of the reply is in bounds exactly when the bytes behind the questions, taken once more
behind the request, lie in the buffer. -/
theorem finishReply_ok_iff (hreq : reqSize ≤ s.buff.length) (hlen : headerSize ≤ s.buff.length) :
    (∃ out, finishReply reqSize s = .ok out) ↔
      reqSize + (reqSize - s.curQuestion) ≤ s.buff.length := by
  obtain ⟨buff, hbuff⟩ := Option.isSome_iff_exists.1
    ((writeAt?_isSome_iff s.buff 6 (htons s.answerCount)).2
      (by simp only [length_htons, headerSize] at *; omega))
  have hmove := moveWithin?_isSome_iff buff s.curQuestion reqSize (reqSize - s.curQuestion)
  rw [length_writeAt? hbuff] at hmove
  rw [finishReply]
  simp only [hbuff, orFault, bind, Except.bind, pure, Except.pure]
  split_ifs with hcur
  · rcases hm : moveWithin? buff s.curQuestion reqSize (reqSize - s.curQuestion) with _ | moved
    · simp only [hm, Option.isSome_none, Bool.false_eq_true, false_iff] at hmove
      simp only [reduceCtorEq, exists_false, false_iff]
      omega
    · simp only [hm, Option.isSome_some, true_iff] at hmove
      simp only [Except.ok.injEq, exists_eq', true_iff]
      omega
  · simp only [Except.ok.injEq, exists_eq', true_iff]
    omega

/-- A packet starts with a header, and its fields are those of the packet. -/
theorem Received.exists_header (r : Received) : ∃ (h : Header) (tail : Bytes),
    r.buff = h.encode ++ tail ∧ r.opcode = h.opcode ∧ r.questionCount = h.qdCount.toNat ∧
      r.fullReplyLen = h.fullReplyLen r.reqSize := by
  obtain ⟨h, tail, hbuff⟩ := Dns.exists_header
    (show headerSize ≤ r.buff.length by have := r.length_ge; simp only [headerSize]; omega)
  have hqd : r.questionCount = h.qdCount.toNat := by
    rw [Received.questionCount, hbuff]
    exact ntohs_htons h.qdCount.toNat_lt
  refine ⟨h, tail, hbuff, ?_, hqd, ?_⟩
  · rw [Received.opcode, hbuff]
    rfl
  · rw [Received.fullReplyLen, hqd, Header.fullReplyLen]

/-- The walk over the questions starts on the received bytes, with the buffer grown to the largest
reply. -/
theorem Received.room_spec (r : Received) {h : Header} {tail : Bytes}
    (hbuff : r.buff = h.encode ++ tail) (hfull : r.fullReplyLen = h.fullReplyLen r.reqSize) :
    ((h.query.encode ++ h.room r.reqSize tail).take r.reqSize).drop headerSize = r.body ∧
      (h.query.encode ++ h.room r.reqSize tail).length = max r.buff.length r.fullReplyLen := by
  have hsize := r.size_le
  have hlen : r.buff.length = headerSize + tail.length := by
    rw [hbuff, List.length_append, Header.length_encode]
  constructor
  · rw [Received.body, hbuff, List.drop_take, List.drop_take, ← h.length_encode, List.drop_left,
      h.length_encode, ← h.query.length_encode, List.drop_left, Header.room,
      List.take_append_of_le_length (by rw [h.query.length_encode]; omega)]
  · simp only [Header.room, List.length_append, List.length_replicate, Header.length_encode]
    omega

/-- The walk over complete questions, on a buffer with room for their answers. -/
theorem answerQuestions_walk (espIp : UInt32) {buff : Bytes} (qs : List Question)
    (hqs : ∀ q ∈ qs, q.Fits)
    (hreq : reqSize ≤ buff.length) (hlimit : reqSize ≤ dnsMsgSizeLimit)
    (h : (buff.take reqSize).drop headerSize = encodeQuestions qs ++ rest)
    (hroom : reqSize + qs.length * answerSize ≤ buff.length) :
    answerQuestions reqSize espIp (qs.length + k) ⟨buff, headerSize, reqSize, 0⟩ =
      answerQuestions reqSize espIp k
        ⟨buff.take reqSize ++ (answers espIp headerSize qs ++
            buff.drop (reqSize + countA qs * answerSize)),
          headerSize + (encodeQuestions qs).length, reqSize + countA qs * answerSize,
            countA qs⟩ := by
  have hlen : (buff.take reqSize).length = reqSize := List.length_take_of_le hreq
  have hwalk := answerQuestions_complete (k := k) espIp qs hqs (buff.take reqSize)
    (buff.drop reqSize) headerSize 0 hlen.ge hlimit (by rw [List.take_take, min_self, h])
    (by rw [List.length_drop]; omega)
  rw [List.take_append_drop, hlen] at hwalk
  rw [hwalk, List.drop_drop, List.length_append, hlen, length_answers, List.append_assoc,
    Nat.zero_add]

/-- The buffer after the walk is as long as before. -/
theorem length_walk (espIp : UInt32) {buff : Bytes} (qs : List Question)
    (hroom : reqSize + qs.length * answerSize ≤ buff.length) :
    (buff.take reqSize ++ (answers espIp headerSize qs ++
      buff.drop (reqSize + countA qs * answerSize))).length = buff.length := by
  have hcount := Nat.mul_le_mul_right answerSize (countA_le_length qs)
  rw [List.length_append, List.length_append, List.length_take, List.length_drop, length_answers]
  omega

/-- The loop and the end of the reply are in bounds exactly on questions that can be walked over. -/
theorem walk_inBounds_iff (espIp : UInt32) (buff refused : Bytes)
    (hheader : headerSize ≤ buff.length)
    (hlimit : reqSize ≤ dnsMsgSizeLimit) (hroom : reqSize + k * answerSize ≤ buff.length) :
    (∃ out, (answerQuestions reqSize espIp k ⟨buff, headerSize, reqSize, 0⟩ >>= fun
        | none => .ok (refused, -1)
        | some s => finishReply reqSize s) = .ok out) ↔
      ∃ qs rest, (buff.take reqSize).drop headerSize = encodeQuestions qs ++ rest ∧
        (∀ q ∈ qs, q.Fits) ∧
        ((qs.length = k ∧ reqSize + rest.length ≤ buff.length) ∨
          (qs.length < k ∧ RejectedName (min rest.length outBufSize) rest)) := by
  have hreq : reqSize ≤ buff.length := by omega
  have hleft : ∀ {qs : List Question} {rest : Bytes},
      (buff.take reqSize).drop headerSize = encodeQuestions qs ++ rest →
        reqSize - (headerSize + (encodeQuestions qs).length) = rest.length := fun hqs => by
    have hlen := congrArg List.length hqs
    rw [List.length_drop, List.length_take, List.length_append] at hlen
    omega
  constructor
  · -- the walk tells which questions there were
    rintro ⟨out, hout⟩
    rcases hloop : answerQuestions reqSize espIp k ⟨buff, headerSize, reqSize, 0⟩ with fault | res
    · rw [hloop] at hout
      cases hout
    obtain ⟨qs, rest, hqs, hfits, hend⟩ := answerQuestions_ok hloop hreq hlimit le_rfl
    refine ⟨qs, rest, hqs, hfits, ?_⟩
    rcases hend with ⟨hk, s', rfl, hlen, -, hcur, -⟩ | ⟨hk, rfl, hrej⟩
    · rw [hloop] at hout
      have hfinish := (finishReply_ok_iff (hreq.trans_eq hlen.symm)
        (hheader.trans_eq hlen.symm)).1 ⟨out, hout⟩
      rw [hcur, hleft hqs, hlen] at hfinish
      exact .inl ⟨hk, hfinish⟩
    · exact .inr ⟨hk, hrej⟩
  · rintro ⟨qs, rest, hqs, hfits, hend⟩
    have hle : qs.length ≤ k := by
      rcases hend with ⟨hk, -⟩ | ⟨hk, -⟩ <;> omega
    have hanswers : reqSize + qs.length * answerSize ≤ buff.length := by
      have := Nat.mul_le_mul_right answerSize hle
      omega
    have hlen := length_walk espIp qs hanswers
    have hwalk := answerQuestions_walk (k := k - qs.length) espIp qs hfits hreq hlimit
      hqs hanswers
    rw [Nat.add_sub_cancel' hle] at hwalk
    rw [hwalk]
    rcases hend with ⟨rfl, hend⟩ | ⟨hk, hrej⟩
    · rw [Nat.sub_self]
      refine (finishReply_ok_iff (hreq.trans_eq hlen.symm) (hheader.trans_eq hlen.symm)).2 ?_
      rwa [hleft hqs, hlen]
    · obtain ⟨j, hj⟩ : ∃ j, k - qs.length = j + 1 := ⟨k - qs.length - 1, by omega⟩
      have htake : (buff.take reqSize ++ (answers espIp headerSize qs ++
          buff.drop (reqSize + countA qs * answerSize))).take reqSize = buff.take reqSize := by
        rw [List.take_append_of_le_length (by rw [List.length_take]; omega), List.take_take,
          min_self]
      rw [hj, answerQuestions_rejected (hreq.trans_eq hlen.symm) hlimit
        (by simp only [htake]; rw [drop_of_drop hqs, List.drop_left]) hrej]
      exact ⟨_, rfl⟩

/-- **All accesses of `processDnsQuestion` are in bounds exactly when** the packet is refused for
its opcode or its number of questions, or its questions can be walked over. -/
theorem processDnsQuestion_inBounds_iff (r : Received) (espIp : UInt32) :
    (∃ out, processDnsQuestion r.buff r.reqSize espIp = .ok out) ↔
      r.opcode ≠ 0 ∨ dnsMsgSizeLimit < r.fullReplyLen ∨ r.Parseable := by
  obtain ⟨h, tail, hbuff, hop, hqd, hfull⟩ := r.exists_header
  obtain ⟨hbody, hlen⟩ := r.room_spec hbuff hfull
  have hwalk := walk_inBounds_iff (k := h.qdCount.toNat) espIp
    (h.query.encode ++ h.room r.reqSize tail) (h.query.encode ++ h.room r.reqSize tail) (by simp)
    r.size_limit (by rw [hlen, hfull, Header.fullReplyLen]; omega)
  rw [hbody, hlen, ← hqd] at hwalk
  rw [hbuff, processDnsQuestion_header, hop, hfull, ← hqd]
  split_ifs with hopcode hlimit
  · simp [hopcode]
  · simp [hlimit]
  · simp only [hopcode, hlimit, false_or]
    exact hwalk

/-- A query whose name is cut off: the length byte 3 is followed by the two last bytes of the
packet. -/
def truncatedQuery : Received where
  buff := [0, 1, 1, 0, 0, 1, 0, 0, 0, 0, 0, 0, 3, 97, 98] ++ List.replicate 49 0
  reqSize := 15
  length_ge := by decide
  size_le := by decide
  size_limit := by decide

/-- On the cut-off name the label loop reads behind the request. -/
theorem truncatedQuery_requestRead : ¬∀ (r : Received) (espIp : UInt32),
    ∃ out, processDnsQuestion r.buff r.reqSize espIp = .ok out := by
  intro h
  obtain ⟨out, hout⟩ := h truncatedQuery 0
  have hfault : processDnsQuestion truncatedQuery.buff truncatedQuery.reqSize 0 =
      .error .requestRead := by decide +kernel
  rw [hfault] at hout
  cases hout

end RbProtocol.Dns
