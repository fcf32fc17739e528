import RbProtocol.Library.Retransmission
import RbProtocol.Protocol.Sessions

/-!
# Must-arrive packets of the device

The log of a session lists what happened to the must-arrive packets of the device: the ids issued,
the acknowledgements processed and the resend rounds. The must-arrive queue holds exactly the ids
that are pending according to this log, in the order of their issue, each with the number of rounds
since (`Tracks`, `tracks_final`). The life of a packet follows from it (`mustarrive_lifecycle`).
-/

namespace RbProtocol.Protocol

open Library Json Retransmission

variable (outOfRange : BinaryFloat → ℤ)

/-! ## The log of a session -/

/-- The must-arrive packet that a possession sends. -/
def deliverEvents (s : Protocol) (pkt : Packet) : List (Event UInt32) :=
  if command pkt = cmdPossess ∧ s.isPossessed then [.issue s.mustarriveE] else []

/-- What `process` does to the must-arrive packets. -/
def processEvents (s : Protocol) (pkt : Packet) : List (Event UInt32) :=
  if pkt.contains keyF then
    if s.isRepeated (int32 (pkt.getInt outOfRange keyF)) then [] else s.deliverEvents pkt
  else if pkt.contains keyE then [.ack (.ofInt (pkt.getInt outOfRange keyE))]
  else s.deliverEvents pkt

/-- What an operation does to the must-arrive packets. -/
def events (s : Protocol) : Op → List (Event UInt32)
  | .handleMsg addr pkt =>
    match accepted outOfRange s (.handleMsg addr pkt) with
    | some a => a.1.processEvents outOfRange a.2
    | none => []
  | .send _ _ => []
  | .sendMustarrive cmd params =>
    if s.isPossessed then [.issue (s.sendMustarrive cmd params).2.2] else []
  | .resend _ => [.round]

/-- The log of the current session after one more operation. -/
def extendLog (log : List (Event UInt32)) (c : Protocol × Op) : List (Event UInt32) :=
  (if startsSession outOfRange c.1 c.2 then [] else log) ++ events outOfRange c.1 c.2

/-- The log of the current session. -/
def sessionLog (t : List (Protocol × Op)) : List (Event UInt32) := t.foldl (extendLog outOfRange) []

/-- The id and the attempts of an entry. -/
def progress (it : MustArrive) : UInt32 × ℤ := (it.id, it.attempts)

/-- The must-arrive packets of a state are those of a log. -/
structure Tracks (s : Protocol) (log : List (Event UInt32)) : Prop where
  queue : s.mustarriveQueue.map progress = (pending 15 log).map fun p => (p.1, (p.2 : ℤ))
  issued : issued log = (List.range s.mustarriveE.toNat).map UInt32.ofNat
  possessed : s.mustarriveQueue ≠ [] → s.isPossessed = true

/-! ## Ids -/

section Ids

variable {s s' : Protocol} {log : List (Event UInt32)}

/-- The members that decide about must-arrive packets of the device. -/
def sender (s : Protocol) : List MustArrive × UInt32 × ProtocolAddr :=
  (s.mustarriveQueue, s.mustarriveE, s.possessedAddr)

theorem Tracks.congr (h : Tracks s log) (heq : s'.sender = s.sender) : Tracks s' log := by
  obtain ⟨hqueue, hrest⟩ := Prod.mk.inj heq
  obtain ⟨hid, haddr⟩ := Prod.mk.inj hrest
  refine ⟨?_, ?_, ?_⟩
  · rw [hqueue]
    exact h.queue
  · rw [hid]
    exact h.issued
  · rw [hqueue, isPossessed, haddr]
    exact h.possessed

/-- A session starts without must-arrive packets. -/
theorem tracks_nil (hqueue : s.mustarriveQueue = []) (hid : s.mustarriveE = 0) : Tracks s [] := by
  refine ⟨by rw [hqueue]; rfl, by rw [hid]; rfl, fun h => absurd hqueue h⟩

theorem Tracks.length_issued (h : Tracks s log) :
    (Retransmission.issued log).length = s.mustarriveE.toNat := by
  rw [h.issued, List.length_map, List.length_range]

/-- Issued ids increase. -/
theorem Tracks.pairwise_issued (h : Tracks s log) :
    (Retransmission.issued log).Pairwise (· < ·) := by
  rw [h.issued, List.pairwise_map]
  refine (List.pairwise_lt_range (n := _)).imp_of_mem fun {a b} ha hb hlt => ?_
  have hbound := s.mustarriveE.toNat_lt
  have ha' := List.mem_range.1 ha
  have hb' := List.mem_range.1 hb
  rw [UInt32.lt_iff_toNat_lt, UInt32.toNat_ofNat', UInt32.toNat_ofNat']
  omega

theorem Tracks.lt_of_mem_issued (h : Tracks s log) {id : UInt32}
    (hid : id ∈ Retransmission.issued log) : id < s.mustarriveE := by
  rw [h.issued] at hid
  obtain ⟨k, hk, rfl⟩ := List.mem_map.1 hid
  have hbound := s.mustarriveE.toNat_lt
  have hk' := List.mem_range.1 hk
  rw [UInt32.lt_iff_toNat_lt, UInt32.toNat_ofNat']
  omega

/-- The ids of the queue are the pending ones. -/
theorem Tracks.map_id (h : Tracks s log) :
    s.mustarriveQueue.map MustArrive.id = (pending 15 log).map Prod.fst := by
  have hfst := congrArg (List.map Prod.fst) h.queue
  rwa [List.map_map, List.map_map] at hfst

/-- The ids of the queue increase. -/
theorem Tracks.pairwise_queue (h : Tracks s log) :
    s.mustarriveQueue.Pairwise fun a b => a.id < b.id := by
  refine List.pairwise_map.1 ?_
  rw [h.map_id]
  exact h.pairwise_issued.sublist pending_sublist_issued

end Ids

/-! ## One operation -/

section Step

variable {outOfRange} {s : Protocol} {log : List (Event UInt32)} {op : Op} {pkt : Packet}

/-- A packet that was sent is pending. -/
theorem Tracks.sendMustarrive (h : Tracks s log) (cmd : Bytes) (params : Packet)
    (hposs : s.isPossessed = true)
    (hbound : (Retransmission.issued (log ++ [.issue s.mustarriveE])).length < 2 ^ 32) :
    Tracks (s.sendMustarrive cmd params).1 (log ++ [.issue s.mustarriveE]) := by
  rw [issued_append, List.length_append, h.length_issued] at hbound
  have hlt : s.mustarriveE.toNat + 1 < 2 ^ 32 := hbound
  have hnext : (s.mustarriveE + 1).toNat = s.mustarriveE.toNat + 1 := by
    rw [UInt32.toNat_add]
    exact Nat.mod_eq_of_lt hlt
  rw [Protocol.sendMustarrive, if_pos hposs]
  refine ⟨?_, ?_, fun _ => hposs⟩
  · change (s.mustarriveQueue ++ _).map progress = _
    rw [pending_concat_issue (by decide), List.map_append, List.map_append, h.queue]
    rfl
  · change Retransmission.issued _ = (List.range (s.mustarriveE + 1).toNat).map UInt32.ofNat
    rw [issued_append, hnext, List.range_succ, List.map_append, h.issued, List.map_singleton,
      UInt32.ofNat_toNat]
    rfl

/-- The end of `handle_msg` sends a must-arrive packet after a possession. -/
theorem Tracks.deliver (h : Tracks s log)
    (hbound : (Retransmission.issued (log ++ s.deliverEvents pkt)).length < 2 ^ 32) :
    Tracks (s.deliver pkt).1 (log ++ s.deliverEvents pkt) := by
  unfold Protocol.deliver sendLog
  by_cases hcmd : command pkt = cmdPossess
  · rw [if_pos hcmd]
    by_cases hposs : s.isPossessed = true
    · have hevents : s.deliverEvents pkt = [.issue s.mustarriveE] := if_pos ⟨hcmd, hposs⟩
      rw [hevents] at hbound ⊢
      exact h.sendMustarrive cmdLog _ hposs hbound
    · have hevents : s.deliverEvents pkt = [] := if_neg fun hboth => hposs hboth.2
      rw [hevents, List.append_nil, Protocol.sendMustarrive, if_neg hposs]
      exact h
  · have hevents : s.deliverEvents pkt = [] := if_neg fun hboth => hcmd hboth.1
    rw [if_neg hcmd, hevents, List.append_nil]
    exact h

/-- An acknowledged packet leaves the queue, and no other does. -/
theorem removeEntry_eq_filter {queue : List MustArrive}
    (h : queue.Pairwise fun a b => a.id < b.id) (e : UInt32) :
    removeEntry queue e = queue.filter fun it => it.id ≠ e := by
  induction queue with
  | nil => rfl
  | cons it queue ih =>
    obtain ⟨hlt, htail⟩ := List.pairwise_cons.1 h
    rw [removeEntry, List.eraseP_cons, List.filter_cons]
    by_cases hid : it.id = e
    · subst hid
      rw [decide_eq_true rfl, cond_true, if_neg (by simp)]
      refine (List.filter_eq_self.2 fun it' hit' => ?_).symm
      exact decide_eq_true (UInt32.ne_of_lt (hlt it' hit')).symm
    · rw [decide_eq_false hid, cond_false, if_pos (decide_eq_true hid)]
      exact congrArg (it :: ·) (ih htail)

theorem Tracks.removeEntry (h : Tracks s log) (e : UInt32) :
    Tracks { s with mustarriveQueue := removeEntry s.mustarriveQueue e } (log ++ [.ack e]) := by
  have hfilter := removeEntry_eq_filter h.pairwise_queue e
  refine ⟨?_, ?_, fun hne => h.possessed fun hnil => hne ?_⟩
  · rw [pending_concat_ack]
    change (Protocol.removeEntry s.mustarriveQueue e).map progress = _
    have hq := congrArg (List.filter fun p : UInt32 × ℤ => p.1 ≠ e) h.queue
    rw [List.filter_map, List.filter_map] at hq
    rw [hfilter]
    exact hq
  · rw [issued_append, h.issued]
    exact List.append_nil _
  · change Protocol.removeEntry s.mustarriveQueue e = []
    rw [hnil]
    rfl

/-- A must-arrive packet of the peer, an acknowledgement or any other packet. -/
theorem Tracks.process (h : Tracks s log) (addr : ProtocolAddr)
    (hbound : (Retransmission.issued (log ++ s.processEvents outOfRange pkt)).length < 2 ^ 32) :
    Tracks (s.process outOfRange addr pkt).1 (log ++ s.processEvents outOfRange pkt) := by
  rw [processEvents] at hbound ⊢
  rw [Protocol.process]
  by_cases hf : pkt.contains keyF = true
  · rw [if_pos hf] at hbound ⊢
    rw [if_pos hf]
    -- sending the acknowledgement only takes a counter
    have hsame : (s.sendTo addr (response (command pkt) (pkt.getInt outOfRange keyF))).1.isRepeated
        (int32 (pkt.getInt outOfRange keyF)) = s.isRepeated (int32 (pkt.getInt outOfRange keyF)) :=
          rfl
    simp only [hsame]
    split_ifs at hbound ⊢
    · rw [List.append_nil]
      exact h.congr rfl
    · exact (h.congr rfl : Tracks { (s.sendTo addr _).1 with mustarriveF := _ } log).deliver hbound
  · rw [if_neg hf] at hbound ⊢
    rw [if_neg hf]
    split_ifs at hbound ⊢
    · exact h.removeEntry _
    · exact h.deliver hbound

/-- What a round does to the progress of an entry. -/
def attempt (p : UInt32 × ℤ) : Option (UInt32 × ℤ) :=
  if 15 ≤ p.2 + 1 then none else some (p.1, p.2 + 1)

theorem countAttempt_progress (it : MustArrive) :
    (countAttempt it).map progress = attempt (progress it) := by
  unfold countAttempt attempt mustArriveAttempts progress
  split_ifs <;> rfl

theorem retransmit_sender (s : Protocol) (addr : ProtocolAddr) (it : MustArrive) :
    (s.retransmit addr it).1.sender = s.sender ∧
      progress (s.retransmit addr it).2.1 = progress it := by
  unfold retransmit
  split <;> exact ⟨rfl, rfl⟩

/-- A round counts one attempt of each entry; those that reach the limit leave. -/
theorem resendEntries_sender (s : Protocol) (addr : ProtocolAddr) (its : List MustArrive) :
    (resendEntries addr s its).1.sender = s.sender ∧
      (resendEntries addr s its).2.1.map progress = (its.map progress).filterMap attempt := by
  induction its generalizing s with
  | nil => exact ⟨rfl, rfl⟩
  | cons it its ih =>
    obtain ⟨hsender, hprogress⟩ := retransmit_sender s addr it
    obtain ⟨hsender', hrest⟩ := ih (s.retransmit addr it).1
    refine ⟨hsender'.trans hsender, ?_⟩
    rw [resendEntries, List.map_append, hrest, List.map_cons, List.filterMap_cons, ← hprogress,
      ← countAttempt_progress]
    cases countAttempt (s.retransmit addr it).2.1 <;> rfl

theorem Tracks.resend (h : Tracks s log) (uninit : ProtocolAddr) :
    Tracks (s.resendMustarriveLocked uninit).1 (log ++ [.round]) := by
  obtain ⟨hsender, hqueue⟩ := resendEntries_sender s
    (if s.isPossessed then s.possessedAddr else uninit) s.mustarriveQueue
  obtain ⟨-, hrest⟩ := Prod.mk.inj hsender
  obtain ⟨hid, haddr⟩ := Prod.mk.inj hrest
  refine ⟨?_, ?_, fun hne => ?_⟩
  · rw [pending_concat_round]
    refine hqueue.trans ?_
    rw [h.queue, List.filterMap_map, List.map_filterMap]
    refine List.filterMap_congr fun p _ => ?_
    simp only [Function.comp_apply, attempt, nextRound]
    split_ifs <;> first | rfl | omega
  · rw [issued_append, h.issued]
    refine (List.append_nil _).trans ?_
    rw [← hid]
    rfl
  · have hposs : s.isPossessed = true := by
      refine h.possessed fun hnil => hne ?_
      exact List.map_eq_nil_iff.1 (hqueue.trans (by rw [hnil]; rfl))
    refine Eq.trans ?_ hposs
    unfold isPossessed
    rw [← haddr]
    rfl

theorem acceptCounter_sender {s₁ : Protocol} {counter : ℤ} {isPossessCmd : Bool}
    (h : s.acceptCounter counter isPossessCmd = some s₁) : s₁.sender = s.sender := by
  unfold acceptCounter at h
  split_ifs at h
  all_goals
    obtain rfl := Option.some.inj h
    rfl

/-- An accepted packet meets the queue of the session, or an empty one if it starts a session. -/
theorem accepted_sender {s₁ : Protocol} (hacc : accepted outOfRange s op = some (s₁, pkt)) :
    if startsSession outOfRange s op then s₁.mustarriveQueue = [] ∧ s₁.mustarriveE = 0
    else s₁.sender = s.sender := by
  rw [startsSession, hacc, Option.any_some]
  unfold accepted at hacc
  split at hacc
  · rename_i addr pkt'
    split_ifs at hacc
    obtain ⟨s', hadmission, heq⟩ := Option.map_eq_some_iff.1 hacc
    obtain ⟨rfl, rfl⟩ := Prod.mk.inj heq
    unfold admission at hadmission
    split_ifs at hadmission
    obtain ⟨s'', hcounter, rfl⟩ := Option.map_eq_some_iff.1 hadmission
    have hsender := acceptCounter_sender hcounter
    have haddr : s''.possessedAddr = s.possessedAddr := congrArg (fun m => m.2.2) hsender
    have hreset : s''.isReset pkt' = s.isReset pkt' := by rw [isReset, isReset, haddr]
    rw [hreset]
    split_ifs
    · exact ⟨rfl, rfl⟩
    · exact hsender
  · cases hacc

theorem Tracks.of_accepted (h : Tracks s log) {s₁ : Protocol}
    (hacc : accepted outOfRange s op = some (s₁, pkt)) :
    Tracks s₁ (if startsSession outOfRange s op then [] else log) := by
  have hsender := accepted_sender hacc
  split_ifs at hsender ⊢
  · exact tracks_nil hsender.1 hsender.2
  · exact h.congr hsender

/-- **Each operation keeps the queue in step with the log.** -/
theorem Tracks.next (h : Tracks s log)
    (hbound : (Retransmission.issued (extendLog outOfRange log (s, op))).length < 2 ^ 32) :
    Tracks (step outOfRange s op).1 (extendLog outOfRange log (s, op)) := by
  unfold extendLog at hbound ⊢
  cases op with
  | handleMsg addr pkt =>
    rcases hacc : accepted outOfRange s (.handleMsg addr pkt) with _ | ⟨s₁, pkt'⟩
    · have hsame := (handleMsg_of_not_accepted hacc).1
      simp only [startsSession, events, hacc, hsame, Option.any_none]
      rw [List.append_nil]
      exact h
    · obtain ⟨addr', -, hstep, -⟩ := step_of_accepted hacc
      have hs₁ := h.of_accepted hacc
      simp only [events, hacc] at hbound ⊢
      rw [hstep]
      exact hs₁.process addr' hbound
  | send cmd obj =>
    have hsame : (s.send cmd obj).1.sender = s.sender := by
      unfold Protocol.send
      split_ifs <;> rfl
    change Tracks (s.send cmd obj).1 (log ++ [])
    rw [List.append_nil]
    exact h.congr hsame
  | sendMustarrive cmd params =>
    change Tracks (s.sendMustarrive cmd params).1 (log ++ if s.isPossessed then
      [.issue (s.sendMustarrive cmd params).2.2] else [])
    change (Retransmission.issued (log ++ if s.isPossessed then
      [.issue (s.sendMustarrive cmd params).2.2] else [])).length < 2 ^ 32 at hbound
    by_cases hposs : s.isPossessed = true
    · have hid : (s.sendMustarrive cmd params).2.2 = s.mustarriveE := by
        rw [Protocol.sendMustarrive, if_pos hposs]
      rw [if_pos hposs, hid] at hbound ⊢
      exact h.sendMustarrive cmd params hposs hbound
    · rw [if_neg hposs, List.append_nil, Protocol.sendMustarrive, if_neg hposs]
      exact h
  | resend uninit => exact h.resend uninit

end Step

/-! ## Consequences -/

section Tracks

variable {outOfRange} {s : Protocol} {log : List (Event UInt32)}

theorem Tracks.mem_progress_iff (h : Tracks s log) (id : UInt32) (k : ℤ) :
    (id, k) ∈ s.mustarriveQueue.map progress ↔ ∃ n : ℕ, (id, n) ∈ pending 15 log ∧ k = n := by
  rw [h.queue, List.mem_map]
  constructor
  · rintro ⟨⟨id', n⟩, hmem, heq⟩
    obtain ⟨rfl, rfl⟩ := Prod.mk.inj heq
    exact ⟨n, hmem, rfl⟩
  · rintro ⟨n, hmem, rfl⟩
    exact ⟨(id, n), hmem, rfl⟩

/-- The bounds of an entry. -/
theorem Tracks.bounds (h : Tracks s log) {it : MustArrive} (hit : it ∈ s.mustarriveQueue) :
    it.id < s.mustarriveE ∧ 0 ≤ it.attempts ∧ it.attempts ≤ 14 := by
  obtain ⟨n, hmem, hn⟩ := (h.mem_progress_iff it.id it.attempts).1 (List.mem_map_of_mem hit)
  have hlt : n < 15 := lt_of_mem_pending hmem
  have hissued := pending_sublist_issued.subset (List.mem_map_of_mem (f := Prod.fst) hmem)
  exact ⟨h.lt_of_mem_issued hissued, by omega, by omega⟩

/-- An issued id is complete exactly if it is settled. -/
theorem Tracks.isMustarriveComplete_iff (h : Tracks s log) {log₁ log₂ : List (Event UInt32)}
    {id : UInt32} (hlog : log = log₁ ++ .issue id :: log₂) :
    (s.isMustarriveComplete id = true ↔ .ack id ∈ log₂ ∨ 15 ≤ rounds log₂) ∧
      ∀ it ∈ s.mustarriveQueue, it.id = id → it.attempts = rounds log₂ := by
  have hnodup : (Retransmission.issued log).Nodup := h.pairwise_issued.imp UInt32.ne_of_lt
  rw [hlog] at hnodup
  have hpending := mem_pending_iff 15 hnodup
  have hqueue : ∀ it ∈ s.mustarriveQueue, it.id = id →
      ¬Settled 15 id log₂ ∧ it.attempts = rounds log₂ := by
    rintro it hit rfl
    obtain ⟨n, hmem, hn⟩ := (h.mem_progress_iff it.id it.attempts).1 (List.mem_map_of_mem hit)
    rw [hlog, hpending] at hmem
    exact ⟨hmem.1, by rw [hn, hmem.2]⟩
  refine ⟨?_, fun it hit hid => (hqueue it hit hid).2⟩
  -- an issued id is below the next one, so it is not the id of "nothing sent"
  have hid : id ≠ uint32Max := by
    have hmem : id ∈ Retransmission.issued log := by
      rw [hlog]
      simp [Retransmission.issued]
    have hlt := h.lt_of_mem_issued hmem
    rintro rfl
    have hbound := s.mustarriveE.toNat_lt
    rw [UInt32.lt_iff_toNat_lt] at hlt
    have hmax : uint32Max.toNat = 2 ^ 32 - 1 := rfl
    omega
  rw [isMustarriveComplete, decide_eq_false hid, Bool.false_or, List.all_eq_true]
  constructor
  · intro hall
    by_contra hsettled
    have hmem := (h.mem_progress_iff id (rounds log₂)).2
      ⟨rounds log₂, by rw [hlog, hpending]; exact ⟨hsettled, rfl⟩, rfl⟩
    obtain ⟨it, hit, heq⟩ := List.mem_map.1 hmem
    exact of_decide_eq_true (hall it hit) (congrArg Prod.fst heq)
  · intro hsettled it hit
    exact decide_eq_true fun heq => (hqueue it hit heq).1 hsettled

/-- Only a packet with `e` and without `f` is an acknowledgement. -/
theorem processEvents_eq_ack {pkt : Packet} {e : UInt32}
    (h : s.processEvents outOfRange pkt = [.ack e]) :
    ¬pkt.contains keyF = true ∧ pkt.contains keyE = true ∧
      .ofInt (pkt.getInt outOfRange keyE) = e := by
  have hdeliver : s.deliverEvents pkt ≠ [.ack e] := by
    unfold deliverEvents
    split_ifs <;> simp
  unfold processEvents at h
  split_ifs at h with hf hrep he
  · exact absurd h hdeliver
  · exact ⟨hf, he, Event.ack.inj (List.cons.inj h).1⟩
  · exact absurd h hdeliver

/-- An acknowledgement inside of a session removes the entry with its id and no other. -/
theorem Tracks.handleMsg_ack (h : Tracks s log) {addr : ProtocolAddr} {pkt : Packet} {e : UInt32}
    (hack : events outOfRange s (.handleMsg addr pkt) = [.ack e])
    (hno : startsSession outOfRange s (.handleMsg addr pkt) = false) :
    (s.handleMsg outOfRange addr pkt).1.mustarriveQueue =
      s.mustarriveQueue.filter fun it => it.id ≠ e := by
  rcases hacc : accepted outOfRange s (.handleMsg addr pkt) with _ | ⟨s₁, pkt'⟩
  · rw [events, hacc] at hack
    cases hack
  · obtain ⟨addr', heq, hstep, -⟩ := step_of_accepted hacc
    obtain ⟨rfl, rfl⟩ := Op.handleMsg.inj heq
    have hsender := accepted_sender hacc
    rw [hno, if_neg Bool.false_ne_true] at hsender
    have hs₁ := h.congr hsender
    rw [events, hacc] at hack
    obtain ⟨hf, he, rfl⟩ := processEvents_eq_ack hack
    have hqueue : s₁.mustarriveQueue = s.mustarriveQueue := congrArg Prod.fst hsender
    rw [← hqueue, ← removeEntry_eq_filter hs₁.pairwise_queue]
    refine (congrArg (fun r => r.1.mustarriveQueue) hstep).trans ?_
    rw [Protocol.process, if_neg hf, if_pos he]

/-- A round removes the entries with 14 attempts and counts one attempt of every other. -/
theorem resend_progress (s : Protocol) (uninit : ProtocolAddr) :
    (s.resendMustarriveLocked uninit).1.mustarriveQueue.map progress =
      (s.mustarriveQueue.filter fun it => it.attempts < 14).map fun it =>
        (it.id, it.attempts + 1) := by
  refine (resendEntries_sender s _ s.mustarriveQueue).2.trans ?_
  rw [List.filterMap_map]
  induction s.mustarriveQueue with
  | nil => rfl
  | cons it its ih =>
    by_cases hlast : it.attempts < 14
    · rw [List.filter_cons_of_pos (by simpa using hlast), List.map_cons, ← ih]
      refine List.filterMap_cons_some ?_
      exact if_neg (by change ¬15 ≤ it.attempts + 1; omega)
    · rw [List.filter_cons_of_neg (by simpa using hlast), ← ih]
      refine List.filterMap_cons_none ?_
      exact if_pos (by change 15 ≤ it.attempts + 1; omega)

end Tracks

/-! ## Runs -/

section Run

variable {outOfRange}

theorem sessionLog_concat (t : List (Protocol × Op)) (c : Protocol × Op) :
    sessionLog outOfRange (t ++ [c]) = extendLog outOfRange (sessionLog outOfRange t) c := by
  rw [sessionLog, List.foldl_append]
  rfl

/-- Fewer than 2³² must-arrive packets are sent in each session of a run. -/
def SendsBounded (outOfRange : BinaryFloat → ℤ) (t : List (Protocol × Op)) : Prop :=
  ∀ t' ∈ t.inits, (issued (sessionLog outOfRange t')).length < 2 ^ 32

instance : DecidablePred (SendsBounded outOfRange) := fun t =>
  inferInstanceAs (Decidable (∀ t' ∈ t.inits, _ < _))

/-- **In every reachable state the queue holds the pending packets of the session.** -/
theorem tracks_final {s : Protocol} (hqueue : s.mustarriveQueue = []) (hid : s.mustarriveE = 0)
    {ops : List Op} (hbound : SendsBounded outOfRange ((step outOfRange).trace s ops)) :
    Tracks ((step outOfRange).final s ops)
      (sessionLog outOfRange ((step outOfRange).trace s ops)) := by
  have hrun : (step outOfRange).EveryStep (fun _ _ => True) s ops := fun _ _ => trivial
  have hJ := hrun.invariant (t := []) (J := fun s t =>
    SendsBounded outOfRange t → Tracks s (sessionLog outOfRange t)) ?_ fun _ =>
      tracks_nil hqueue hid
  · rw [List.nil_append] at hJ
    exact hJ hbound
  · intro s t op h _ hb
    have hbefore : SendsBounded outOfRange t := fun t' ht' =>
      hb t' ((List.mem_inits ..).2 (((List.mem_inits ..).1 ht').trans (List.prefix_append ..)))
    have hafter := hb _ ((List.mem_inits ..).2 List.prefix_rfl)
    rw [sessionLog_concat] at hafter ⊢
    exact (h hbefore).next hafter

/-- **The life of a must-arrive packet.** In every reachable state: the ids of the queue increase
and are below the next id, attempts are between 0 and 14, and only a possessed device has a queue.
An id issued in the session is complete exactly if, since its issue, it was acknowledged or went
through 15 rounds, and has as many attempts as rounds until then. An acknowledgement removes the
entry with its id and no other; a round removes the entries with 14 attempts and counts one attempt
of every other, in order. -/
theorem mustarrive_lifecycle (outOfRange : BinaryFloat → ℤ) (owner name desc : Bytes)
    (callback udp ws : Bool) (ops : List Op)
    (hbound : SendsBounded outOfRange
      ((step outOfRange).trace (init owner name desc callback udp ws) ops)) :
    let start := init owner name desc callback udp ws
    let s := (step outOfRange).final start ops
    let queue := s.mustarriveQueue
    (queue.Pairwise fun a b => a.id < b.id) ∧
    (∀ it ∈ queue, it.id < s.mustarriveE ∧ 0 ≤ it.attempts ∧ it.attempts ≤ 14) ∧
    (queue ≠ [] → s.isPossessed = true) ∧
    (∀ log₁ id log₂,
      sessionLog outOfRange ((step outOfRange).trace start ops) = log₁ ++ .issue id :: log₂ →
      (s.isMustarriveComplete id = true ↔ .ack id ∈ log₂ ∨ 15 ≤ rounds log₂) ∧
      ∀ it ∈ queue, it.id = id → it.attempts = rounds log₂) ∧
    (∀ addr pkt e, events outOfRange s (.handleMsg addr pkt) = [.ack e] →
      startsSession outOfRange s (.handleMsg addr pkt) = false →
      (s.handleMsg outOfRange addr pkt).1.mustarriveQueue = queue.filter fun it => it.id ≠ e) ∧
    ∀ uninit, (s.resendMustarriveLocked uninit).1.mustarriveQueue.map progress =
      (queue.filter fun it => it.attempts < 14).map fun it => (it.id, it.attempts + 1) := by
  intro start s queue
  have h := tracks_final (s := start) rfl rfl hbound
  exact ⟨h.pairwise_queue, fun it hit => h.bounds hit, h.possessed,
    fun log₁ id log₂ hlog => h.isMustarriveComplete_iff hlog,
    fun addr pkt e hack hno => h.handleMsg_ack hack hno, s.resend_progress⟩

/-- A possession, a must-arrive packet, a round and its acknowledgement: the packet with id 1 is
complete, the log message of the possession is not. -/
theorem mustarrive_lifecycle_acknowledged :
    let possess := (Packet.empty.set keyC (.string cmdPossess)).set keyN (intNumber (-1))
    let ack := (Packet.empty.set keyE (intNumber 1)).set keyN (intNumber 0)
    let ops : List Op := [.handleMsg (.udp 1 42424) possess,
      .sendMustarrive (literal "state") .empty,
      .resend .none, .handleMsg (.udp 1 42424) ack]
    let s := (step fun _ => 0).final (init [] [] [] true true true) ops
    s.isMustarriveComplete 0 = false ∧ s.isMustarriveComplete 1 = true := by
  intro possess ack ops s
  have h := (mustarrive_lifecycle (fun _ => 0) [] [] [] true true true ops
    (by decide +kernel)).2.2.2.1
  have h0 := (h [] 0 [.issue 1, .round, .ack 1] (by decide +kernel)).1
  have h1 := (h [.issue 0] 1 [.round, .ack 1] (by decide +kernel)).1
  exact ⟨Bool.eq_false_iff.2 fun hcomplete => absurd (h0.1 hcomplete) (by decide), h1.2 (by decide)⟩

end Run

end RbProtocol.Protocol
