import RbProtocol.Dns.Bounds

/-!
# What the DNS server replies

`Query.reply` is the reply to a well-formed query: its header, its questions and one record for each
question of type A. The code writes the records behind the request and then slides them over the
bytes that follow the questions, but in the length of these bytes instead of the length of the
records. So the reply is the right one exactly when nothing follows the questions, or what follows
is at least as long as the records and can be copied; a shorter rest never is right, up to an
address that looks like the start of a record (`Query.replied_iff`).
-/

namespace RbProtocol.Dns

open Library

/-! ## Records -/

/-- A name offset of one byte lands in the low byte of the pointer. -/
theorem htons_ptrOffset {off : ℕ} (h : off < 256) :
    htons (0xC000 ||| off) = [0xC0, UInt8.ofNat off] := by
  have hor := Nat.two_pow_add_eq_or_of_lt (i := 8) (b := off) h 0xC0
  have hsum : 0xC000 ||| off = 0xC000 + off := hor.symm
  simp only [htons, hsum, List.cons.injEq, and_true, ← UInt8.toNat_inj, UInt8.toNat_ofNat']
  constructor
  · change (0xC000 + off) / 256 % 2 ^ 8 = 192
    omega
  · omega

/-- A record, byte by byte. -/
theorem dnsAnswer_eq {off : ℕ} (h : off < 256) (clazz : ℕ) (espIp : UInt32) :
    dnsAnswer off qdTypeA clazz espIp =
      0xC0 :: UInt8.ofNat off :: 0 :: 1 :: UInt8.ofNat (clazz / 256) :: UInt8.ofNat clazz ::
        0 :: 0 :: 1 :: 44 :: 0 :: 4 :: rawBytes espIp := by
  rw [dnsAnswer, htons_ptrOffset h]
  rfl

theorem drop_dnsAnswer (off type clazz : ℕ) (espIp : UInt32) (rest : Bytes) :
    (dnsAnswer off type clazz espIp ++ rest).drop answerSize = rest := rfl

/-- Records for names at increasing offsets, from `lo` on. -/
inductive Records (espIp : UInt32) : ℕ → Bytes → Prop
  | nil (lo : ℕ) : Records espIp lo []
  | cons {lo off : ℕ} (clazz : ℕ) {rest : Bytes} (hlo : lo ≤ off) (hoff : off < 256)
      (hrest : Records espIp (off + 1) rest) :
      Records espIp lo (dnsAnswer off qdTypeA clazz espIp ++ rest)

variable {espIp : UInt32} {lo t : ℕ} {recs : Bytes}

theorem Records.mono {lo' : ℕ} (h : Records espIp lo recs) (hle : lo' ≤ lo) :
    Records espIp lo' recs := by
  cases h with
  | nil => exact .nil _
  | cons clazz hlo hoff hrest => exact .cons clazz (hle.trans hlo) hoff hrest

/-- The answers to questions in the first 256 bytes are records. -/
theorem records_answers (espIp : UInt32) (off : ℕ) (qs : List Question)
    (h : off + (encodeQuestions qs).length ≤ 256) : Records espIp off (answers espIp off qs) := by
  induction qs generalizing off with
  | nil => exact .nil _
  | cons q qs ih =>
    rw [encodeQuestions_cons, List.length_append] at h
    have hpos : 0 < q.encode.length := by
      rw [q.length_encode]
      omega
    have hrest := ih (off + q.encode.length) (by omega)
    rw [answers]
    split_ifs with hA
    · rw [of_decide_eq_true hA]
      exact .cons _ le_rfl (by omega) (hrest.mono (by omega))
    · exact hrest.mono (by omega)

/-- Behind whole records there are records for later names. -/
theorem Records.drop (h : Records espIp lo recs) (j : ℕ) :
    Records espIp (lo + j) (recs.drop (answerSize * j)) := by
  induction h generalizing j with
  | nil => simpa using .nil _
  | @cons lo off clazz rest hlo hoff hrest ih =>
    cases j with
    | zero => exact .cons clazz hlo hoff hrest
    | succ j =>
      rw [Nat.mul_succ, Nat.add_comm _ answerSize, ← List.drop_drop, drop_dnsAnswer]
      exact (ih j).mono (by omega)

theorem Records.length_pos (h : Records espIp lo recs) :
    recs.length = 0 ∨ answerSize ≤ recs.length := by
  cases h with
  | nil => exact .inl rfl
  | cons =>
    rw [List.length_append, length_dnsAnswer]
    omega

/-- The last bytes of records are the end of the address. -/
theorem Records.drop_last (h : Records espIp lo recs) (ht : t < recs.length)
    (hlast : recs.length - t ≤ 4) :
    recs.drop t = (rawBytes espIp).drop (4 - (recs.length - t)) := by
  induction h generalizing t with
  | nil => simp at ht
  | @cons lo off clazz rest hlo hoff hrest ih =>
    have hlen : (dnsAnswer off qdTypeA clazz espIp ++ rest).length = answerSize + rest.length := by
      rw [List.length_append, length_dnsAnswer]
    rw [hlen, answerSize] at ht hlast
    rw [hlen, answerSize]
    rcases hrest.length_pos with h0 | hpos
    · -- the last record ends with the address
      obtain rfl := List.length_eq_zero_iff.1 h0
      obtain ⟨r, rfl⟩ : ∃ r, t = 12 + r := ⟨t - 12, by simp at hlast; omega⟩
      have haddr : (dnsAnswer off qdTypeA clazz espIp ++ []).drop 12 = rawBytes espIp := by
        rw [List.append_nil, dnsAnswer_eq hoff]
        rfl
      rw [← List.drop_drop, haddr]
      congr 1
      simp only [List.length_nil] at ht ⊢
      omega
    · rw [answerSize] at hpos
      obtain ⟨t', rfl⟩ : ∃ t', t = answerSize + t' := ⟨t - 16, by simp only [answerSize]; omega⟩
      rw [← List.drop_drop, drop_dnsAnswer]
      simp only [answerSize] at ht hlast ⊢
      rw [ih (by omega) (by omega)]
      congr 1
      omega

/-- Two offsets of one byte are told apart by it. -/
theorem ofNat_inj_of_lt {a b : ℕ} (ha : a < 256) (hb : b < 256) :
    UInt8.ofNat a = UInt8.ofNat b ↔ a = b := by
  rw [← UInt8.toNat_inj, UInt8.toNat_ofNat', UInt8.toNat_ofNat']
  omega

/-- Records cut at byte `r` of the first one do not start like a record with an offset before
theirs, but for the last bytes of the address. -/
theorem Records.cut_prefix {cut rest : Bytes} {off clazz r : ℕ} (h : Records espIp lo cut)
    (hoff : off < 256) (hlo : r = 0 → off < lo) (hr : r < 16) (hlen : r < cut.length)
    (hstart : cut.drop r <+: dnsAnswer off qdTypeA clazz espIp ++ rest) : cut.length - r ≤ 4 := by
  cases h with
  | nil => simp at hlen
  | @cons _ off' clazz' rest' hlo' hoff' hrest' =>
    -- cut between records, the offsets differ; cut inside of one, constant bytes do
    have hne : r = 0 → UInt8.ofNat off' ≠ UInt8.ofNat off := fun h0 hbyte => by
      have := (ofNat_inj_of_lt hoff' hoff).1 hbyte
      have := hlo h0
      omega
    rw [dnsAnswer_eq hoff, dnsAnswer_eq hoff'] at hstart
    rw [List.length_append, length_dnsAnswer, answerSize]
    cases hrest' with
    | nil =>
      interval_cases r <;> simp [rawBytes] at hstart ⊢
      exact (hne rfl hstart.1).elim
    | @cons _ off'' clazz'' rest'' hlo'' hoff'' hrest'' =>
      rw [dnsAnswer_eq hoff''] at hstart
      interval_cases r <;> simp [rawBytes] at hstart ⊢
      exact (hne rfl hstart.1).elim

/-- **Records do not repeat**: shifted by some bytes they do not start like themselves, but for the
last bytes of the address. -/
theorem Records.shift_prefix (h : Records espIp lo recs) (ht : 0 < t)
    (htlen : t < recs.length) (hstart : recs.drop t <+: recs) : recs.length - t ≤ 4 := by
  -- the record that the shift cuts, and the place where it does
  obtain ⟨j, r, hr, rfl⟩ : ∃ j r, r < 16 ∧ t = answerSize * j + r :=
    ⟨t / 16, t % 16, Nat.mod_lt _ (by omega), (Nat.div_add_mod t 16).symm⟩
  have hlen : (recs.drop (answerSize * j)).length = recs.length - answerSize * j := List.length_drop
  rw [← List.drop_drop] at hstart
  cases h with
  | nil => simp at htlen
  | @cons _ off clazz rest hloff hoff hrest =>
    have hcut : ∃ lo', Records espIp lo'
        ((dnsAnswer off qdTypeA clazz espIp ++ rest).drop (answerSize * j)) ∧
          (r = 0 → off < lo') := by
      cases j with
      | zero =>
        refine ⟨lo, .cons clazz hloff hoff hrest, ?_⟩
        omega
      | succ j =>
        refine ⟨off + 1 + j, ?_, fun _ => by omega⟩
        rw [Nat.mul_succ, Nat.add_comm _ answerSize, ← List.drop_drop, drop_dnsAnswer]
        exact hrest.drop j
    obtain ⟨lo', hcut, hlo'⟩ := hcut
    have := hcut.cut_prefix hoff hlo' hr (by omega) hstart
    omega

/-! ## Queries and their replies -/

/-- A standard query in the receive buffer: its questions, `extra` records that follow them, and
whatever the buffer holds behind the packet. The names fit `out_buf`, and the largest reply fits the
message size. -/
structure Query where
  header : Header
  questions : List Question
  extra : Bytes
  junk : Bytes
  standard : header.opcode = 0
  qdCount : header.qdCount.toNat = questions.length
  fits : ∀ q ∈ questions, (encodeLabels q.labels).length ≤ outBufSize
  size_limit : (header.encode ++ (encodeQuestions questions ++ extra)).length +
    questions.length * answerSize ≤ dnsMsgSizeLimit

/-- The bytes of a query. -/
def Query.request (q : Query) : Bytes := q.header.encode ++ (encodeQuestions q.questions ++ q.extra)

/-- The receive buffer. -/
def Query.buff (q : Query) : Bytes := q.request ++ q.junk

/-- The records of the reply. -/
def Query.answers (q : Query) (espIp : UInt32) : Bytes := Dns.answers espIp headerSize q.questions

/-- The reply: the header, the questions byte for byte, and a record for each question of type A. -/
def Query.reply (q : Query) (espIp : UInt32) : Bytes :=
  (q.header.reply (countA q.questions)).encode ++ (encodeQuestions q.questions ++ q.answers espIp)

/-- The code replies to a query as it should. -/
def Query.Replied (q : Query) (espIp : UInt32) : Prop :=
  ∃ buff, processDnsQuestion q.buff q.request.length espIp = .ok (buff, (q.reply espIp).length) ∧
    buff.take (q.reply espIp).length = q.reply espIp

/-- What follows the questions is as long as the answers, or repeats them by chance: fewer than four
bytes are missing, and the address ends like the first record starts. -/
def Query.Slides (q : Query) (espIp : UInt32) : Prop :=
  let missing := countA q.questions * answerSize - q.extra.length
  missing = 0 ∨ missing ≤ 4 ∧ (rawBytes espIp).drop (4 - missing) = (q.answers espIp).take missing

theorem Query.length_answers (q : Query) (espIp : UInt32) :
    (q.answers espIp).length = countA q.questions * answerSize := Dns.length_answers _ _ _

theorem Query.length_reply (q : Query) (espIp : UInt32) : (q.reply espIp).length =
    countA q.questions * answerSize + (headerSize + (encodeQuestions q.questions).length) := by
  simp only [Query.reply, List.length_append, Header.length_encode, q.length_answers]
  omega

theorem Query.records_answers (q : Query) (espIp : UInt32) :
    Records espIp headerSize (q.answers espIp) := by
  have hsize := q.size_limit
  rw [List.length_append, List.length_append, Header.length_encode, dnsMsgSizeLimit] at hsize
  exact Dns.records_answers _ _ _ (by omega)

/-- The slide leaves the answers exactly when what it moves over is long enough, or repeats. -/
theorem Query.slide_iff (q : Query) (tail : Bytes) (hextra : q.extra ≠ []) :
    ((q.answers espIp ++ tail).take q.extra.length ++ (q.answers espIp ++ tail)).take
      (q.answers espIp).length = q.answers espIp ↔ q.Slides espIp := by
  have hlen := q.length_answers espIp
  have hpos := List.length_pos_iff.2 hextra
  rw [take_take_append_iff, Query.Slides]
  rw [← hlen, Nat.sub_eq_zero_iff_le]
  refine or_congr_right' fun hlt => ?_
  rw [not_le] at hlt
  have hrecs := q.records_answers espIp
  constructor
  · intro hstart
    have hle := hrecs.shift_prefix hpos hlt hstart
    refine ⟨hle, ?_⟩
    rw [← hrecs.drop_last hlt hle, List.prefix_iff_eq_take.1 hstart, List.length_drop]
  · rintro ⟨hle, haddr⟩
    rw [List.prefix_iff_eq_take, hrecs.drop_last hlt hle, haddr, List.length_take]
    congr 1
    omega

/-! ## The run on a query -/

/-- The end of the reply, on a buffer with the answers behind the request. -/
theorem finishReply_slide (h : Header) (questions extra body : Bytes) {count curAns : ℕ}
    (hcount : count < 2 ^ 16) :
    finishReply (headerSize + questions.length + extra.length)
        ⟨h.encode ++ (questions ++ (extra ++ body)), headerSize + questions.length, curAns, count⟩ =
      if extra.length ≤ body.length then
        .ok ({ h with anCount := UInt16.ofNat count }.encode ++
          (questions ++ (body.take extra.length ++ body)),
            ((count * answerSize + (headerSize + questions.length) : ℕ) : ℤ))
      else .error .bufferRead := by
  rw [finishReply_header _ _ _ _ _ hcount]
  rcases eq_or_ne extra [] with rfl | hextra
  · simp
  · have hpos := List.length_pos_iff.2 hextra
    rw [if_pos (by omega), Nat.add_sub_cancel_left]
    have hmove := moveWithin?_append ({ h with anCount := UInt16.ofNat count }.encode ++ questions)
      extra body
    rw [List.length_append, Header.length_encode, List.append_assoc] at hmove
    rw [hmove]
    split_ifs <;> simp [orFault, Except.map]

/-- The buffer behind the header, with room for the largest reply. -/
def Query.room (q : Query) : Bytes :=
  q.header.room q.request.length (encodeQuestions q.questions ++ q.extra ++ q.junk)

/-- The length of the buffer with room for the largest reply. -/
def Query.roomSize (q : Query) : ℕ :=
  max q.buff.length (q.request.length + q.questions.length * answerSize)

theorem Query.length_room (q : Query) : (q.header.query.encode ++ q.room).length = q.roomSize := by
  simp only [Query.room, Query.roomSize, Query.buff, Query.request, Header.room,
    Header.fullReplyLen, q.qdCount, List.length_append, Header.length_encode, List.length_replicate]
  omega

/-- A query gets to its questions, on a buffer that starts with the request. -/
theorem Query.processDnsQuestion_eq (q : Query) (espIp : UInt32) :
    processDnsQuestion q.buff q.request.length espIp =
      answerQuestions q.request.length espIp q.questions.length
          ⟨q.header.query.encode ++ q.room, headerSize, q.request.length, 0⟩ >>= fun
        | none => .ok (q.header.query.encode ++ q.room, -1)
        | some s => finishReply q.request.length s := by
  have hbuff : q.buff = q.header.encode ++ (encodeQuestions q.questions ++ q.extra ++ q.junk) := by
    simp only [Query.buff, Query.request, List.append_assoc]
  have hlimit : ¬dnsMsgSizeLimit < q.header.fullReplyLen q.request.length := by
    have hsize := q.size_limit
    rw [Header.fullReplyLen, q.qdCount, Query.request]
    omega
  rw [hbuff, processDnsQuestion_header, if_neg (not_not.2 q.standard), if_neg hlimit, q.qdCount]
  rfl

theorem Query.take_room (q : Query) : (q.header.query.encode ++ q.room).take q.request.length =
    q.header.query.encode ++ (encodeQuestions q.questions ++ q.extra) := by
  have hlen : q.request.length =
      (q.header.query.encode ++ (encodeQuestions q.questions ++ q.extra)).length := by
    simp only [Query.request, List.length_append, Header.length_encode]
  have hsplit : q.header.query.encode ++ q.room =
      (q.header.query.encode ++ (encodeQuestions q.questions ++ q.extra)) ++ (q.junk ++
        List.replicate (q.header.fullReplyLen q.request.length -
          (headerSize + (encodeQuestions q.questions ++ q.extra ++ q.junk).length)) 0) := by
    simp only [Query.room, Header.room, List.append_assoc]
  rw [hsplit, hlen, List.take_left]

/-- The questions of a query, behind the header. -/
theorem Query.drop_room (q : Query) :
    ((q.header.query.encode ++ q.room).take q.request.length).drop headerSize =
      encodeQuestions q.questions ++ q.extra := by
  rw [q.take_room, ← q.header.query.length_encode, List.drop_left]

theorem Query.limits (q : Query) : q.request.length ≤ dnsMsgSizeLimit ∧
    q.request.length + q.questions.length * answerSize ≤
      (q.header.query.encode ++ q.room).length := by
  have hsize := q.size_limit
  rw [q.length_room, Query.roomSize]
  refine ⟨?_, le_max_right _ _⟩
  rw [Query.request]
  omega

/-- Without a root name the run writes the answers behind the request and slides them. -/
theorem Query.processDnsQuestion_complete (q : Query) (espIp : UInt32)
    (hnames : ∀ x ∈ q.questions, x.labels ≠ []) :
    ∃ tail, q.request.length + (q.answers espIp ++ tail).length = q.roomSize ∧
      processDnsQuestion q.buff q.request.length espIp =
        if q.extra.length ≤ (q.answers espIp ++ tail).length then
          .ok ((q.header.reply (countA q.questions)).encode ++ (encodeQuestions q.questions ++
            ((q.answers espIp ++ tail).take q.extra.length ++ (q.answers espIp ++ tail))),
            (q.reply espIp).length)
        else .error .bufferRead := by
  obtain ⟨hlimit, hroom⟩ := q.limits
  have hcount := countA_le_length q.questions
  have hsize : q.request.length =
      headerSize + (encodeQuestions q.questions).length + q.extra.length := by
    simp only [Query.request, List.length_append, Header.length_encode]
    omega
  have hwalk := answerQuestions_walk (k := 0) espIp q.questions
    (fun x hx => ⟨hnames x hx, q.fits x hx⟩) (by omega) hlimit q.drop_room hroom
  refine ⟨(q.header.query.encode ++ q.room).drop
    (q.request.length + countA q.questions * answerSize), ?_, ?_⟩
  · have := Nat.mul_le_mul_right answerSize hcount
    rw [List.length_append, q.length_answers, List.length_drop, q.length_room]
    rw [q.length_room] at hroom
    omega
  · rw [q.processDnsQuestion_eq, ← Nat.add_zero q.questions.length, hwalk]
    simp only [answerQuestions, bind, Except.bind]
    rw [q.take_room, List.append_assoc, List.append_assoc, hsize,
      finishReply_slide _ _ _ _ (by have := q.header.qdCount.toNat_lt; have := q.qdCount; omega)]
    rw [q.length_reply]
    rfl

/-- A root name makes the run give up. -/
theorem Query.processDnsQuestion_root (q : Query) (espIp : UInt32)
    (hroot : ∃ x ∈ q.questions, x.labels = []) :
    ∃ buff, processDnsQuestion q.buff q.request.length espIp = .ok (buff, -1) := by
  obtain ⟨hlimit, hroom⟩ := q.limits
  have hdrop := q.drop_room
  -- the questions before the first root name are walked over
  obtain ⟨pre, x, post, hpre, hx, hqs⟩ : ∃ pre x post, (∀ y ∈ pre, y.labels ≠ []) ∧
      x.labels = [] ∧ q.questions = pre ++ x :: post := by
    have hsome : (q.questions.find? fun x => x.labels.isEmpty).isSome := by simpa using hroot
    obtain ⟨x, hfind⟩ := Option.isSome_iff_exists.1 hsome
    obtain ⟨hx, pre, post, hqs, hpre⟩ := List.find?_eq_some_iff_append.1 hfind
    exact ⟨pre, x, post, by simpa using hpre, by simpa using hx, hqs⟩
  have hlen : q.questions.length = pre.length + (post.length + 1) := by
    rw [hqs, List.length_append, List.length_cons]
  have hpreRoom : q.request.length + pre.length * answerSize ≤
      (q.header.query.encode ++ q.room).length := by
    rw [hlen, Nat.add_mul] at hroom
    omega
  rw [hqs, encodeQuestions_append, encodeQuestions_cons, List.append_assoc] at hdrop
  have hwalk := answerQuestions_walk (k := post.length + 1) espIp pre
    (fun y hy => ⟨hpre y hy, q.fits y (by rw [hqs]; exact List.mem_append_left _ hy)⟩) (by omega)
    hlimit hdrop hpreRoom
  have htake : ∀ tail : Bytes,
      ((q.header.query.encode ++ q.room).take q.request.length ++ tail).take
      q.request.length = (q.header.query.encode ++ q.room).take q.request.length := fun tail => by
    rw [List.take_append_of_le_length (by rw [List.length_take]; omega), List.take_take, min_self]
  rw [q.processDnsQuestion_eq, hlen, hwalk, answerQuestions_rejected _ hlimit
    (by simp only [htake]; rw [drop_of_drop hdrop, List.drop_left])]
  · exact ⟨_, rfl⟩
  · refine ⟨[], 0, htons x.type.toNat ++ htons x.clazz.toNat ++ (encodeQuestions post ++ q.extra),
      ?_, by simp, .inr ⟨rfl, rfl⟩⟩
    simp [Question.encode, hx]
  · exact (length_walk espIp pre hpreRoom).ge.trans' (by omega)

/-- **The reply is the right one exactly when** no question is for the root name, and either nothing
follows the questions, or what follows can be copied and is as long as the records (or repeats). -/
theorem Query.replied_iff (q : Query) (espIp : UInt32) :
    q.Replied espIp ↔ (∀ x ∈ q.questions, x.labels ≠ []) ∧
      (q.extra = [] ∨ q.request.length + q.extra.length ≤ q.roomSize ∧ q.Slides espIp) := by
  by_cases hnames : ∀ x ∈ q.questions, x.labels ≠ []
  · obtain ⟨tail, htail, hrun⟩ := q.processDnsQuestion_complete espIp hnames
    rw [and_iff_right hnames, Query.Replied, hrun]
    split_ifs with hcopy
    · have htake : ∀ slid : Bytes, ((q.header.reply (countA q.questions)).encode ++
          (encodeQuestions q.questions ++ slid)).take (q.reply espIp).length = q.reply espIp ↔
            slid.take (q.answers espIp).length = q.answers espIp := fun slid => by
        rw [Query.reply, List.length_append, List.take_length_add_append, List.length_append,
          List.take_length_add_append, List.append_cancel_left_eq, List.append_cancel_left_eq]
      simp only [Except.ok.injEq, Prod.mk.injEq, and_true, exists_eq_left', htake]
      by_cases hextra : q.extra = []
      · simp [hextra]
      · rw [q.slide_iff tail hextra, or_iff_right hextra, and_iff_right (by omega)]
    · have hextra : q.extra ≠ [] := fun h => hcopy (by simp [h])
      simp only [false_and, exists_false, hextra, false_or, false_iff, not_and]
      omega
  · obtain ⟨buff, hbuff⟩ := q.processDnsQuestion_root espIp (by simpa using hnames)
    simp only [hnames, false_and, iff_false]
    rintro ⟨buff', hbuff', -⟩
    rw [hbuff, Except.ok.injEq, Prod.mk.injEq] at hbuff'
    omega

/-- A query for `a` with an additional record of 11 bytes, as a resolver with EDNS sends it. -/
def ednsQuery : Query where
  header := ⟨7, 1, 0, 1, 0, 0, 1⟩
  questions := [⟨[⟨[97], by decide, by decide⟩], 1, 1⟩]
  extra := [0, 0, 41, 16, 0, 0, 0, 0, 0, 0, 0]
  junk := List.replicate 34 0
  standard := by decide
  qdCount := by decide
  fits := by decide
  size_limit := by decide

/-- The reply to a query with an additional record is not the right one. -/
theorem ednsQuery_not_replied : ¬∀ (q : Query) (espIp : UInt32), q.Replied espIp := by
  intro h
  obtain ⟨buff, hrun, htake⟩ := h ednsQuery 0x0104A8C0
  have hreply :
      ((processDnsQuestion ednsQuery.buff ednsQuery.request.length 0x0104A8C0).toOption.map
      fun out => out.1.take (ednsQuery.reply 0x0104A8C0).length) ≠
        some (ednsQuery.reply 0x0104A8C0) := by decide +kernel
  rw [hrun] at hreply
  exact hreply (congrArg some htake)

end RbProtocol.Dns
