import RbProtocol.Json.RoundTrip
import RbProtocol.Protocol.MustArrive

/-!
# The number of a must-arrive packet, there and back

The device puts the id of a must-arrive packet into its member `e`, where it is kept as a `float`,
and writes it with `%lld`; the peer repeats the number, the parser makes a `float` of it again, and
`handle_msg` removes the entry with this id. A `float` has 24 bits of significand, so two ids above
`2 ^ 24` can have the same number.

* `numbered_final`: in every reachable state each entry carries the number of its id.
* `ack_identity_iff`: the answer to an entry removes it and no other exactly when its id is a
  multiple of the distance of the `float` values around it, and no other entry with the same id
  stands in front of it.
-/

namespace RbProtocol.Protocol

open Library Json

/-! ## The number of an entry -/

/-- Each entry of the queue carries the number of its id. -/
def Numbered (queue : List MustArrive) : Prop :=
  ∀ it ∈ queue, it.pkt.get keyE = some (intNumber it.id.toNat)

section Numbered

variable {outOfRange : BinaryFloat → ℤ} {s : Protocol} {op : Op}

theorem Numbered.sublist {queue queue' : List MustArrive} (h : Numbered queue)
    (hsub : queue'.Sublist queue) : Numbered queue' := fun it hit => h it (hsub.subset hit)

theorem get_keyE_set_keyN (pkt : Packet) (value : Value) :
    (pkt.set keyN value).get keyE = pkt.get keyE := by
  rw [Packet.get_set, if_neg]
  simp [storedName, keyE, keyN, keyLimit]

theorem numbered_sendMustarrive (h : Numbered s.mustarriveQueue) (cmd : Bytes) (params : Packet) :
    Numbered (s.sendMustarrive cmd params).1.mustarriveQueue := by
  unfold sendMustarrive
  split_ifs
  · intro it hit
    rcases List.mem_append.1 (hit : it ∈ s.mustarriveQueue ++ _) with hit | hit
    · exact h it hit
    · obtain rfl := List.mem_singleton.1 hit
      refine (get_keyE_set_keyN _ _).trans ?_
      rw [Packet.get_set, if_pos rfl]
  · exact h

theorem numbered_deliver (h : Numbered s.mustarriveQueue) (pkt : Packet) :
    Numbered (s.deliver pkt).1.mustarriveQueue := by
  unfold deliver
  by_cases hcmd : command pkt = cmdPossess
  · rw [if_pos hcmd]
    exact numbered_sendMustarrive h _ _
  · rw [if_neg hcmd]
    exact h

theorem numbered_process (h : Numbered s.mustarriveQueue) (addr : ProtocolAddr) (pkt : Packet) :
    Numbered (s.process outOfRange addr pkt).1.mustarriveQueue := by
  unfold process
  split_ifs
  · simp only
    split_ifs
    · exact h
    · refine numbered_deliver ?_ pkt
      exact h
  · exact h.sublist List.eraseP_sublist
  · exact numbered_deliver h pkt

theorem numbered_resendEntries (addr : ProtocolAddr) {its : List MustArrive} (h : Numbered its)
    (s : Protocol) : Numbered (resendEntries addr s its).2.1 := by
  induction its generalizing s with
  | nil => exact h
  | cons it its ih =>
    obtain ⟨hit, hits⟩ := List.forall_mem_cons.1 h
    have hsame : (s.retransmit addr it).2.1.pkt.get keyE = it.pkt.get keyE ∧
        (s.retransmit addr it).2.1.id = it.id := by
      unfold retransmit
      split
      · exact ⟨get_keyE_set_keyN _ _, rfl⟩
      · exact ⟨rfl, rfl⟩
    rw [resendEntries]
    intro it' hit'
    rcases List.mem_append.1 hit' with hit' | hit'
    · rw [countAttempt] at hit'
      split_ifs at hit'
      · cases hit'
      · obtain rfl := List.mem_singleton.1 hit'
        rw [hsame.1, hsame.2]
        exact hit
    · exact ih hits _ it' hit'

/-- **Each operation keeps the numbers of the entries.** -/
theorem numbered_step (h : Numbered s.mustarriveQueue) :
    Numbered (step outOfRange s op).1.mustarriveQueue := by
  cases op with
  | handleMsg addr pkt =>
    rcases hacc : accepted outOfRange s (.handleMsg addr pkt) with _ | ⟨s₁, pkt'⟩
    · rw [(handleMsg_of_not_accepted hacc).1]
      exact h
    · obtain ⟨addr', -, hstep, -⟩ := step_of_accepted hacc
      have hsender := accepted_sender hacc
      have hs₁ : Numbered s₁.mustarriveQueue := by
        split_ifs at hsender
        · rw [hsender.1]
          intro it hit
          cases hit
        · have hqueue : s₁.mustarriveQueue = s.mustarriveQueue := congrArg Prod.fst hsender
          rwa [hqueue]
      rw [hstep]
      exact numbered_process hs₁ addr' pkt'
  | send cmd obj =>
    rw [step]
    unfold Protocol.send
    split_ifs <;> exact h
  | sendMustarrive cmd params => exact numbered_sendMustarrive h cmd params
  | resend uninit => exact numbered_resendEntries _ h s

/-- In every reachable state each entry carries the number of its id. -/
theorem numbered_final (ops : List Op) (h : Numbered s.mustarriveQueue) :
    Numbered ((step outOfRange).final s ops).mustarriveQueue := by
  induction ops generalizing s with
  | nil => exact h
  | cons op ops ih => exact ih (numbered_step h)

end Numbered

/-! ## The number on its way -/

section Way

variable {outOfRange : BinaryFloat → ℤ}

/-- What becomes of an id on its way: it is rounded when it is stored, and not again. -/
theorem exists_readBack {n : ℕ} (hn : n < 2 ^ 32) :
    ∃ m : ℕ, m ≤ 2 ^ 32 ∧ (n = 0 → m = 0) ∧ BinaryFloat.round binary32 n = .finite m ∧
      parsePrimitive ((intNumber n).serialize outOfRange) = some (.number (.finite m)) ∧
      toLongLong outOfRange (.finite m) = m := by
  obtain ⟨m, hm, hzero, hround, hself⟩ :=
    @BinaryFloat.exists_round_natCast binary32 n 32 hn (by decide) (by decide)
  have hdouble : BinaryFloat.round binary64 ((n : ℤ) : ℚ) = .finite ((n : ℤ) : ℚ) := by
    refine BinaryFloat.round_intCast ?_
    rw [Nat.abs_cast]
    exact_mod_cast hn.le.trans (by decide)
  have hnumber : intNumber n = .number (.finite ((m : ℤ) : ℚ)) := by
    rw [intNumber, mkNumber, hdouble, BinaryFloat.convert_finite, Int.cast_natCast, hround,
      Int.cast_natCast]
  have hm53 : |(m : ℤ)| ≤ 2 ^ 53 := by
    rw [Nat.abs_cast]
    exact_mod_cast hm.trans (by decide)
  have hlong : toLongLong outOfRange (.finite ((m : ℤ) : ℚ)) = m := by
    rw [toLongLong, BinaryFloat.toInt?_intCast (by omega) (by omega), Option.getD_some]
  have hserialize : (Value.number (.finite ((m : ℤ) : ℚ))).serialize outOfRange =
      formatLongLong m := by
    rw [Value.serialize, serializeNumber, truncate_intCast, sub_self, abs_zero,
      if_pos (by norm_num [fracLimit]), hlong]
  refine ⟨m, hm, hzero, hround, ?_, by rwa [Int.cast_natCast] at hlong⟩
  rw [hnumber, hserialize, parsePrimitive_formatLongLong_round hm53, Int.cast_natCast, hself]

/-- The id that `handle_msg` reads is the one that was issued exactly when a `float` holds it. -/
theorem ofInt_eq_iff {id : UInt32} {m : ℕ} (hm : m ≤ 2 ^ 32) (hzero : id.toNat = 0 → m = 0)
    (hround : BinaryFloat.round binary32 (id.toNat : ℚ) = .finite m) :
    UInt32.ofInt m = id ↔ 2 ^ (Nat.log 2 id.toNat - 23) ∣ id.toNat := by
  have hlt := id.toNat_lt
  have hlog : (Nat.log 2 id.toNat : ℤ) < binary32.emax := by
    have hle : Nat.log 2 id.toNat < 32 := Nat.log_lt_of_lt_pow' (by decide) hlt
    change (_ : ℤ) < 127
    omega
  have hspacing : BinaryFloat.spacing binary32 id.toNat = Nat.log 2 id.toNat - 23 := by
    change Nat.log 2 id.toNat + 1 - 24 = _
    omega
  rw [← hspacing, ← BinaryFloat.round_natCast_eq_self_iff hlog, hround,
    BinaryFloat.finite.injEq, Nat.cast_inj, ← UInt32.toNat_inj]
  have hmod : (UInt32.ofInt m).toNat = m % 2 ^ 32 := by
    rw [UInt32.ofInt, UInt32.toNat_ofNat']
    omega
  rw [hmod]
  omega

end Way

/-! ## The answer to an entry -/

/-- An answer of the peer to an entry: it gets past the counter test without opening a session, has
no number of the peer, and repeats in its member `e` the text that was sent. -/
structure Answers (outOfRange : BinaryFloat → ℤ) (s : Protocol) (addr : ProtocolAddr)
    (reply : Packet) (it : MustArrive) : Prop where
  accepted : (accepted outOfRange s (.handleMsg addr reply)).isSome
  inSession : startsSession outOfRange s (.handleMsg addr reply) = false
  noF : reply.contains keyF = false
  repeats : ∃ e, it.pkt.get keyE = some e ∧
    reply.get keyE = parsePrimitive (e.serialize outOfRange)

section Answer

variable {outOfRange : BinaryFloat → ℤ} {s : Protocol} {addr : ProtocolAddr} {reply : Packet}
  {it : MustArrive}

/-- What an answer does to the queue. -/
theorem Answers.queue (h : Answers outOfRange s addr reply it) (hit : Numbered [it]) :
    ∃ m : ℕ, m ≤ 2 ^ 32 ∧ (it.id.toNat = 0 → m = 0) ∧
      BinaryFloat.round binary32 (it.id.toNat : ℚ) = .finite m ∧
      (s.handleMsg outOfRange addr reply).1.mustarriveQueue =
        s.mustarriveQueue.eraseP fun other => other.id = .ofInt m := by
  obtain ⟨m, hm, hzero, hround, hparse, hlong⟩ := @exists_readBack outOfRange _ it.id.toNat_lt
  obtain ⟨e, he, hreply⟩ := h.repeats
  obtain rfl := Option.some.inj (he.symm.trans (hit it (List.mem_singleton_self it)))
  rw [hparse] at hreply
  have hcontains : reply.contains keyE = true := by
    rw [Packet.contains_eq_isSome_get, hreply]
    rfl
  have hget : reply.getInt outOfRange keyE = m := by
    rw [Packet.getInt, hreply]
    exact hlong
  obtain ⟨⟨s₁, pkt⟩, hacc⟩ := Option.isSome_iff_exists.1 h.accepted
  obtain ⟨addr', heq, hstep, -⟩ := step_of_accepted hacc
  obtain ⟨rfl, rfl⟩ := Op.handleMsg.inj heq
  have hsender := accepted_sender hacc
  rw [h.inSession, if_neg Bool.false_ne_true] at hsender
  have hqueue : s₁.mustarriveQueue = s.mustarriveQueue := congrArg Prod.fst hsender
  refine ⟨m, hm, hzero, hround, ?_⟩
  rw [← hqueue]
  refine (congrArg (fun r => r.1.mustarriveQueue) hstep).trans ?_
  rw [process, if_neg (by rw [h.noF]; exact Bool.false_ne_true), if_pos hcontains, hget]
  rfl

/-- An answer in a state whose entries carry their numbers. -/
theorem Answers.removes_iff (h : Answers outOfRange s addr reply it) {l₁ l₂ : List MustArrive}
    (hqueue : s.mustarriveQueue = l₁ ++ it :: l₂) (hnumbered : Numbered s.mustarriveQueue) :
    (s.handleMsg outOfRange addr reply).1.mustarriveQueue = l₁ ++ l₂ ↔
      2 ^ (Nat.log 2 it.id.toNat - 23) ∣ it.id.toNat ∧
        ∀ other ∈ l₁.dropWhile (fun other => other.id ≠ it.id), other = it := by
  have hit : Numbered [it] := by
    intro other hother
    obtain rfl := List.mem_singleton.1 hother
    exact hnumbered other (hqueue ▸ List.mem_append_right _ List.mem_cons_self)
  obtain ⟨m, hm, hzero, hround, hafter⟩ := h.queue hit
  have hid := ofInt_eq_iff hm hzero hround
  rw [hafter, hqueue, ← hid]
  by_cases hsame : UInt32.ofInt m = it.id
  · rw [hsame, eraseP_eq_iff_of_pos (by simp)]
    simp
  · have hother : (l₁ ++ it :: l₂).eraseP (fun other => other.id = .ofInt m) ≠ l₁ ++ l₂ := by
      apply eraseP_ne_of_count (q := fun other => other.id = it.id)
      · exact decide_eq_true rfl
      · intro other hp
        rw [decide_eq_false_iff_not, of_decide_eq_true hp]
        exact hsame
    exact ⟨fun heq => absurd heq hother, fun heq => absurd heq.1 hsame⟩

end Answer

/-- **Acknowledgement identity.** In every reachable state the answer to an entry removes this entry
and no other exactly when its id is a multiple of the distance of the `float` values around it, and
no other entry with the same id stands in front of it. -/
theorem ack_identity_iff (outOfRange : BinaryFloat → ℤ) (owner name desc : Bytes)
    (callback udp ws : Bool) (ops : List Op) :
    let s := (step outOfRange).final (init owner name desc callback udp ws) ops
    ∀ l₁ it l₂, s.mustarriveQueue = l₁ ++ it :: l₂ →
      ∀ addr reply, Answers outOfRange s addr reply it →
        ((s.handleMsg outOfRange addr reply).1.mustarriveQueue = l₁ ++ l₂ ↔
          2 ^ (Nat.log 2 it.id.toNat - 23) ∣ it.id.toNat ∧
            ∀ other ∈ l₁.dropWhile (fun other => other.id ≠ it.id), other = it) := by
  intro s l₁ it l₂ hqueue addr reply h
  exact h.removes_iff hqueue (numbered_final ops (by simp [Numbered, init]))

/-! ## Two ids with one number -/

/-- A `possess` of a UDP peer. -/
def possessOp : Op :=
  .handleMsg (.udp 1 42424) ((Packet.empty.set keyC (.string cmdPossess)).set keyN (intNumber 0))

/-- A must-arrive packet of the device. -/
def stateOp : Op := .sendMustarrive (literal "state") .empty

/-- The answer of the peer with a number in its member `e`. -/
def answerWith (n : ℤ) : Packet := (Packet.empty.set keyE (intNumber n)).set keyN (intNumber 0)

/-- A possession, and as many must-arrive packets. -/
def possessedRun (k : ℕ) : List Op := possessOp :: List.replicate k stateOp

/-- A device before its first possession. -/
def freshDevice : Protocol := init [] [] [] true true true

theorem final_possessedRun (k : ℕ) :
    let s := (step fun _ => 0).final freshDevice (possessedRun k)
    s.isPossessed = true ∧ s.readCounter = -1 ∧ s.mustarriveE = 1 + UInt32.ofNat k := by
  intro s
  induction k with
  | zero => decide +kernel
  | succ k ih =>
    obtain ⟨hposs, hread, hid⟩ := ih
    have hs : s = (((step fun _ => 0).final freshDevice (possessedRun k)).sendMustarrive
        (literal "state") .empty).1 := by
      change (step fun _ => 0).final freshDevice (possessedRun (k + 1)) = _
      rw [possessedRun, List.replicate_succ', ← List.cons_append, Machine.final_append]
      rfl
    rw [sendMustarrive, if_pos hposs] at hs
    rw [hs]
    refine ⟨hposs, hread, ?_⟩
    change ((step fun _ => 0).final freshDevice (possessedRun k)).mustarriveE + 1 = _
    rw [hid, UInt32.ofNat_add, UInt32.add_assoc]
    rfl

theorem queue_possessedRun (k : ℕ) : ∃ l₁ it,
    ((step fun _ => 0).final freshDevice (possessedRun (k + 1))).mustarriveQueue = l₁ ++ [it] ∧
      it.id = 1 + UInt32.ofNat k := by
  obtain ⟨hposs, -, hid⟩ := final_possessedRun k
  rw [possessedRun, List.replicate_succ', ← List.cons_append, Machine.final_append]
  change ∃ l₁ it, (((step fun _ => 0).final freshDevice (possessedRun k)).sendMustarrive
    (literal "state") .empty).1.mustarriveQueue = l₁ ++ [it] ∧ _
  rw [sendMustarrive, if_pos hposs]
  exact ⟨_, _, rfl, hid⟩

section AnswerWith

variable (n : ℤ)

theorem get_answerWith (key : Key) : (answerWith n).get key =
    if storedName key.bytes = storedName keyN.bytes then some (intNumber 0)
    else if storedName key.bytes = storedName keyE.bytes then some (intNumber n) else none := by
  rw [answerWith, Packet.get_set, Packet.get_set, Packet.get_empty]

theorem command_answerWith : command (answerWith n) = [] := by
  rw [command, Packet.getString, get_answerWith]
  rfl

theorem getInt_answerWith : (answerWith n).getInt (fun _ => 0) keyN = 0 := by
  rw [Packet.getInt, get_answerWith, if_pos rfl, intNumber_eq (by norm_num)]
  exact toLongLong_intCast _ (by norm_num)

/-- The counter test lets the answer through. -/
theorem admission_answerWith {s : Protocol} {addr : ProtocolAddr} (hposs : s.isPossessed = true)
    (hread : s.readCounter = -1) :
    s.admission (fun _ => 0) addr (answerWith n) = some { s with readCounter := 0 } := by
  have hcontains : (answerWith n).contains keyN = true := by
    rw [Packet.contains_eq_isSome_get, get_answerWith]
    rfl
  have hcmd : command (answerWith n) ≠ cmdPossess := by
    rw [command_answerWith]
    decide
  have haccept : s.acceptCounter 0 (decide (command (answerWith n) = cmdPossess)) =
      some { s with readCounter := 0 } := by
    rw [decide_eq_false hcmd, acceptCounter, hread, if_neg (by decide), if_neg (by decide)]
  have hreset : ({ s with readCounter := 0 } : Protocol).isReset (answerWith n) = false := by
    rw [isReset, decide_eq_false hcmd, Bool.or_false]
    simpa [isPossessed] using hposs
  rw [admission, if_pos hcontains, getInt_answerWith]
  change (s.acceptCounter 0 _).map _ = _
  rw [haccept, Option.map_some, hreset]
  rfl

/-- An answer in a possessed device that has not seen a counter yet. -/
theorem answers_answerWith {s : Protocol} {it : MustArrive} (hposs : s.isPossessed = true)
    (hread : s.readCounter = -1) (addr : ProtocolAddr) (hit : Numbered [it])
    (hn : some (intNumber n) =
      parsePrimitive ((intNumber it.id.toNat).serialize fun _ => 0)) :
    Answers (fun _ => 0) s addr (answerWith n) it := by
  have hdiscover : command (answerWith n) ≠ cmdDiscover := by
    rw [command_answerWith]
    decide
  have hcmd : command (answerWith n) ≠ cmdPossess := by
    rw [command_answerWith]
    decide
  have hacc : accepted (fun _ => 0) s (.handleMsg addr (answerWith n)) =
      some ({ s with readCounter := 0 }, answerWith n) := by
    rw [accepted, if_neg hdiscover, admission_answerWith n hposs hread, Option.map_some]
  constructor
  · rw [hacc]
    rfl
  · rw [startsSession, hacc, Option.any_some, isReset, decide_eq_false hcmd, Bool.or_false]
    simpa [isPossessed] using hposs
  · rw [Packet.contains_eq_isSome_get, get_answerWith]
    rfl
  · refine ⟨_, hit it (List.mem_singleton_self it), ?_⟩
    rw [← hn, get_answerWith]
    rfl

end AnswerWith

/-- The number that the peer reads and repeats. -/
theorem intNumber_eq_parsePrimitive {id m : ℕ} (hid : id < 2 ^ 32) (hm : m ≤ 2 ^ 24)
    (hround : BinaryFloat.round binary32 id = .finite m) :
    some (intNumber m) = parsePrimitive ((intNumber id).serialize fun _ => 0) := by
  obtain ⟨m', -, -, hround', hparse, -⟩ := @exists_readBack (fun _ => 0) _ hid
  rw [hparse, intNumber_eq (by rw [Nat.abs_cast]; exact_mod_cast hm), Int.cast_natCast, ← hround,
    hround']

/-- The only packet of a new possession, and its answer. -/
theorem ack_identity_first :
    ∃ it, ((step fun _ => 0).final freshDevice [possessOp]).mustarriveQueue = [it] ∧
      (((step fun _ => 0).final freshDevice [possessOp]).handleMsg (fun _ => 0) (.udp 1 42424)
        (answerWith 0)).1.mustarriveQueue = [] := by
  have hids : ((step fun _ => 0).final freshDevice [possessOp]).mustarriveQueue.map
      MustArrive.id = [0] := by
    decide +kernel
  obtain ⟨it, hqueue, hid⟩ := List.map_eq_singleton_iff.1 hids
  have hnumbered : Numbered [it] :=
    hqueue ▸ numbered_final [possessOp] (by simp [Numbered, freshDevice, init])
  obtain ⟨hposs, hread, -⟩ := final_possessedRun 0
  have htoNat : it.id.toNat = 0 := by rw [hid]; rfl
  have hanswers : Answers (fun _ => 0) ((step fun _ => 0).final freshDevice [possessOp])
      (.udp 1 42424) (answerWith 0) it := by
    apply answers_answerWith 0 hposs hread _ hnumbered
    rw [htoNat]
    exact intNumber_eq_parsePrimitive (by norm_num) (by norm_num) (by decide +kernel)
  refine ⟨it, hqueue, ?_⟩
  refine (ack_identity_iff _ [] [] [] true true true [possessOp] [] it [] hqueue _ _ hanswers).2 ?_
  rw [htoNat]
  exact ⟨dvd_zero _, by simp⟩

theorem round_collision :
    BinaryFloat.round binary32 ((16777217 : ℕ) : ℚ) = .finite ((16777216 : ℕ) : ℚ) := by
  decide +kernel

/-- The answer to the id `2 ^ 24 + 1` in front of which the id `2 ^ 24` stands. -/
theorem answers_collision {s : Protocol} {l₁ : List MustArrive} {it : MustArrive}
    (hposs : s.isPossessed = true) (hread : s.readCounter = -1)
    (hqueue : s.mustarriveQueue = l₁ ++ [it]) (hid : it.id = 16777217)
    (hnumbered : Numbered s.mustarriveQueue) :
    Answers (fun _ => 0) s (.udp 1 42424) (answerWith 16777216) it ∧
      (s.handleMsg (fun _ => 0) (.udp 1 42424) (answerWith 16777216)).1.mustarriveQueue ≠ l₁ := by
  have htoNat : it.id.toNat = 16777217 := by rw [hid]; rfl
  have hanswers : Answers (fun _ => 0) s (.udp 1 42424) (answerWith 16777216) it := by
    apply answers_answerWith 16777216 hposs hread
    · intro other hother
      exact hnumbered other (hqueue ▸ List.mem_append_right _ hother)
    · rw [htoNat]
      exact intNumber_eq_parsePrimitive (by norm_num) (by norm_num) round_collision
  refine ⟨hanswers, fun hafter => ?_⟩
  have hdvd := ((hanswers.removes_iff hqueue hnumbered).1 (by rw [hafter, List.append_nil])).1
  rw [htoNat] at hdvd
  exact absurd hdvd (by norm_num)

/-- The answer to the id `2 ^ 24 + 1` does not remove the entry with this id. -/
theorem ack_identity_collision : ∃ l₁ it,
    ((step fun _ => 0).final freshDevice (possessedRun (2 ^ 24 + 1))).mustarriveQueue =
        l₁ ++ [it] ∧
      it.id = 16777217 ∧
      Answers (fun _ => 0) ((step fun _ => 0).final freshDevice (possessedRun (2 ^ 24 + 1)))
        (.udp 1 42424) (answerWith 16777216) it ∧
      (((step fun _ => 0).final freshDevice (possessedRun (2 ^ 24 + 1))).handleMsg (fun _ => 0)
        (.udp 1 42424) (answerWith 16777216)).1.mustarriveQueue ≠ l₁ := by
  obtain ⟨l₁, it, hqueue, hid⟩ := queue_possessedRun (2 ^ 24)
  obtain ⟨hposs, hread, -⟩ := final_possessedRun (2 ^ 24 + 1)
  have hnumbered := @numbered_final (fun _ => 0) freshDevice (possessedRun (2 ^ 24 + 1))
    (by simp [Numbered, freshDevice, init])
  exact ⟨l₁, it, hqueue, hid, answers_collision hposs hread hqueue hid hnumbered⟩

end RbProtocol.Protocol
