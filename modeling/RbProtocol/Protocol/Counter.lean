import RbProtocol.Protocol.Delivery

/-!
# The counter test

Within a session `handle_msg` compares the counter of a packet with `m_read_counter`, the counter of
the packet it accepted last, and passes over packets that are less than 25 behind. The comparison is
strict, so the packet that was accepted last is accepted again; and the reset that opens a session
sets the mark to −1, so that a packet which opens a session itself is forgotten.

* `inSession_cases`: what one operation does to the mark, and the number it accepts.
* `accepted_inOrder_iff`: the accepted numbers increase strictly exactly when no packet has the
  number of the mark and, as long as the mark is −1, none is behind the packet that opened the
  session.
-/

namespace RbProtocol.Protocol

open Library Json

/-! ## The numbers of a stream -/

section Numbers

variable (outOfRange : BinaryFloat → ℤ)

/-- The counter of a packet, the value of `int counter`. -/
def counter (pkt : Packet) : ℤ := int32 (pkt.getInt outOfRange keyN)

/-- The number of a packet of a stream: the counter of a packet that has one and is neither
`discover` nor `possess`. -/
def streamNumber : Op → Option ℤ
  | .handleMsg _ pkt =>
    if command pkt = cmdDiscover ∨ command pkt = cmdPossess ∨ ¬pkt.contains keyN then none
    else some (counter outOfRange pkt)
  | _ => none

/-- The number of a packet of the stream that gets past the counter test. -/
def acceptedNumber (c : Protocol × Op) : Option ℤ :=
  if (accepted outOfRange c.1 c.2).isSome then streamNumber outOfRange c.2 else none

/-- The numbers that get past the counter test in a run. -/
def acceptedNumbers (s : Protocol) (ops : List Op) : List ℤ :=
  ((step outOfRange).trace s ops).filterMap (acceptedNumber outOfRange)

/-- The numbers of the packets of the stream that the user callback is called with. -/
def calledNumbers (effects : List Effect) : List ℤ :=
  effects.filterMap fun
    | .callback _ pkt => streamNumber outOfRange (.handleMsg .none pkt)
    | _ => none

/-- No packet arrives 25 or more numbers behind one that was accepted before it. -/
def InWindow (s : Protocol) (nums : List ℤ) : List Op → Prop
  | [] => True
  | op :: ops =>
    (∀ n ∈ streamNumber outOfRange op, ∀ m ∈ nums, m - n < 25) ∧
      InWindow (step outOfRange s op).1 (nums ++ (acceptedNumber outOfRange (s, op)).toList) ops

instance decidableInWindow (s : Protocol) (nums : List ℤ) :
    (ops : List Op) → Decidable (InWindow outOfRange s nums ops)
  | [] => .isTrue trivial
  | op :: ops =>
    have := decidableInWindow (step outOfRange s op).1
      (nums ++ (acceptedNumber outOfRange (s, op)).toList) ops
    inferInstanceAs (Decidable (_ ∧ _))

/-- A packet does not have the number of the mark and, as long as the mark is −1, is not behind the
packet that opened the session. -/
def NotRepeated (opening : Option ℤ) (s : Protocol) (op : Op) : Prop :=
  ∀ n ∈ streamNumber outOfRange op,
    n ≠ s.readCounter ∧ (s.readCounter = -1 → ∀ k ∈ opening, k < n)

instance (opening : Option ℤ) : DecidableRel (NotRepeated outOfRange opening) := fun s op =>
  inferInstanceAs (Decidable (∀ n ∈ streamNumber outOfRange op, n ≠ s.readCounter ∧ _))

end Numbers

/-! ## The mark -/

section Mark

variable {outOfRange : BinaryFloat → ℤ} (s : Protocol)

variable {s} in
/-- Sending leaves the mark alone. -/
theorem readCounter_of_unsent {s' : Protocol} (h : s'.unsent = s.unsent) :
    s'.readCounter = s.readCounter := by
  show s'.unsent.readCounter = s.unsent.readCounter
  rw [h]

theorem process_readCounter (addr : ProtocolAddr) (pkt : Packet) :
    (s.process outOfRange addr pkt).1.readCounter = s.readCounter := by
  unfold process
  split_ifs
  · simp only
    split_ifs
    · rfl
    · refine (readCounter_of_unsent (deliver_unsent _ pkt).1).trans ?_
      rfl
  · rfl
  · exact readCounter_of_unsent (s.deliver_unsent pkt).1

variable {s} {op : Op}

/-- An accepted packet leaves the mark as it met it; no other operation changes it. -/
theorem step_readCounter : (step outOfRange s op).1.readCounter =
    ((accepted outOfRange s op).map fun a => a.1.readCounter).getD s.readCounter := by
  rcases hacc : accepted outOfRange s op with _ | ⟨s₁, pkt⟩
  · cases op with
    | handleMsg addr pkt =>
      rw [(handleMsg_of_not_accepted hacc).1]
      rfl
    | send cmd obj => exact readCounter_of_unsent (s.send_unsent cmd obj).1
    | sendMustarrive cmd params =>
      exact readCounter_of_unsent (s.sendMustarrive_unsent cmd params).1
    | resend uninit =>
      exact readCounter_of_unsent (s.resendEntries_unsent _ s.mustarriveQueue).1
  · obtain ⟨addr, -, hstep, -⟩ := step_of_accepted hacc
    rw [hstep, process_readCounter]
    rfl

/-- The packet is less than 25 behind the mark. -/
def Behind (s : Protocol) (n : ℤ) : Prop := n < s.readCounter ∧ int32 (s.readCounter - n) < 25

instance (s : Protocol) (n : ℤ) : Decidable (s.Behind n) :=
  inferInstanceAs (Decidable (_ ∧ _))

/-- What the counter test does with a packet of the stream. -/
theorem admission_of_streamNumber {addr : ProtocolAddr} {pkt : Packet} {n : ℤ}
    (h : streamNumber outOfRange (.handleMsg addr pkt) = some n) (hn : 0 ≤ n) :
    accepted outOfRange s (.handleMsg addr pkt) =
      if s.Behind n then none
      else some (if s.isReset pkt then { s with readCounter := n }.reset addr
        else { s with readCounter := n }, pkt) := by
  rw [streamNumber] at h
  split_ifs at h with hother
  rw [not_or, not_or, not_not] at hother
  obtain ⟨hdiscover, hpossess, hcontains⟩ := hother
  have hcounter : int32 (pkt.getInt outOfRange keyN) = n := Option.some.inj h
  have hspecial : ¬(n = -1 ∨ decide (command pkt = cmdPossess) = true) := by
    rw [decide_eq_true_eq]
    rintro (rfl | h)
    · exact absurd hn (by decide)
    · exact hpossess h
  rw [accepted, if_neg hdiscover, admission, if_pos hcontains, hcounter, acceptCounter,
    if_neg hspecial]
  by_cases hbehind : s.Behind n
  · rw [if_pos hbehind]
    rw [Behind] at hbehind
    rw [if_pos hbehind]
    rfl
  · rw [if_neg hbehind]
    rw [Behind] at hbehind
    rw [if_neg hbehind]
    rfl

/-- In a session only packets of the stream are accepted. -/
theorem accepted_of_streamNumber_none (hno : ¬startsSession outOfRange s op)
    (h : streamNumber outOfRange op = none) : accepted outOfRange s op = none := by
  rcases hacc : accepted outOfRange s op with _ | ⟨s₁, pkt⟩
  · rfl
  · exfalso
    rw [startsSession, hacc, Option.any_some] at hno
    obtain ⟨addr, rfl, -, -⟩ := step_of_accepted hacc
    rw [streamNumber] at h
    split_ifs at h with hother
    rw [accepted] at hacc
    split_ifs at hacc with hdiscover
    obtain ⟨s', hadmission, -⟩ := Option.map_eq_some_iff.1 hacc
    rw [admission] at hadmission
    split_ifs at hadmission with hcontains
    rcases hother with hother | hother | hother
    · exact hdiscover hother
    · exact hno (by rw [isReset, decide_eq_true hother, Bool.or_true])
    · exact hother hcontains

/-- A packet that resets the possession meets the state after the reset. -/
theorem accepted_of_isReset {pkt : Packet} {s₁ : Protocol}
    (h : accepted outOfRange s op = some (s₁, pkt)) (hreset : s.isReset pkt = true) :
    ∃ s' addr, s₁ = reset s' addr := by
  unfold accepted at h
  split at h
  · rename_i addr pkt'
    split_ifs at h
    obtain ⟨s₂, hadmission, heq⟩ := Option.map_eq_some_iff.1 h
    obtain ⟨rfl, rfl⟩ := Prod.mk.inj heq
    rw [admission] at hadmission
    split_ifs at hadmission
    obtain ⟨s', hs', rfl⟩ := Option.map_eq_some_iff.1 hadmission
    have hsame : s'.isReset pkt' = s.isReset pkt' := by
      rw [isReset, isReset, (acceptCounter_receiver hs').2]
    rw [hsame, if_pos hreset]
    exact ⟨s', addr, rfl⟩
  · cases h

/-- **One operation inside of a session**: a packet that is behind is passed over, any other packet
of the stream is accepted and becomes the mark. -/
theorem inSession_cases (hno : ¬startsSession outOfRange s op)
    (hn : ∀ n ∈ streamNumber outOfRange op, 0 ≤ n) :
    (acceptedNumber outOfRange (s, op) = none ∧
      (step outOfRange s op).1.readCounter = s.readCounter ∧
      ∀ n ∈ streamNumber outOfRange op, s.Behind n) ∨
    ∃ n, streamNumber outOfRange op = some n ∧ acceptedNumber outOfRange (s, op) = some n ∧
      (step outOfRange s op).1.readCounter = n ∧ ¬s.Behind n := by
  cases hstream : streamNumber outOfRange op with
  | none =>
    left
    rw [acceptedNumber, step_readCounter, accepted_of_streamNumber_none hno hstream]
    exact ⟨rfl, rfl, by simp⟩
  | some n =>
    cases op with
    | handleMsg addr pkt =>
      have hacc := admission_of_streamNumber (s := s) hstream (hn n hstream)
      by_cases hbehind : s.Behind n
      · left
        rw [if_pos hbehind] at hacc
        rw [acceptedNumber, step_readCounter, hacc]
        refine ⟨rfl, rfl, ?_⟩
        rintro m ⟨⟩
        exact hbehind
      · right
        rw [startsSession, hacc, if_neg hbehind, Option.any_some, Bool.not_eq_true] at hno
        rw [if_neg hbehind, if_neg (by rw [hno]; decide)] at hacc
        refine ⟨n, rfl, ?_, ?_, hbehind⟩
        · rw [acceptedNumber, hacc]
          exact hstream
        · rw [step_readCounter, hacc]
          rfl
    | send | sendMustarrive | resend => cases hstream

end Mark

/-! ## The order of the accepted numbers -/

section Order

variable {outOfRange : BinaryFloat → ℤ} {s : Protocol} {op : Op} {ops : List Op}
  {opening : Option ℤ} {nums : List ℤ} {n : ℤ}

/-- The mark against the numbers accepted so far: it is the last one, or it is −1 and only the
packet that opened the session was accepted. -/
def LastAccepted (opening : Option ℤ) (mark : ℤ) (nums : List ℤ) : Prop :=
  (mark = -1 ∧ nums = opening.toList) ∨ (0 ≤ mark ∧ mark < 2 ^ 31 ∧ nums.getLast? = some mark)

theorem streamNumber_lt (h : streamNumber outOfRange op = some n) : n < 2 ^ 31 := by
  cases op with
  | handleMsg addr pkt =>
    rw [streamNumber] at h
    split_ifs at h
    obtain rfl := Option.some.inj h
    exact (int32_bounds _).2
  | send | sendMustarrive | resend => cases h

/-- An accepted packet is newer than all before it exactly when it is not repeated. -/
theorem notRepeated_iff (hlast : LastAccepted opening s.readCounter nums)
    (hsorted : nums.Pairwise (· < ·)) (hn : streamNumber outOfRange op = some n) (hpos : 0 ≤ n)
    (hwindow : ∀ m ∈ nums, m - n < 25) (hbehind : ¬s.Behind n) :
    NotRepeated outOfRange opening s op ↔ ∀ m ∈ nums, m < n := by
  have hiff : NotRepeated outOfRange opening s op ↔
      n ≠ s.readCounter ∧ (s.readCounter = -1 → ∀ k ∈ opening, k < n) := by
    rw [NotRepeated, hn]
    simp
  rw [hiff]
  rcases hlast with ⟨hmark, rfl⟩ | ⟨hmark, hlt, hlast⟩
  · rw [hmark]
    constructor
    · intro h m hm
      exact h.2 rfl m (by simpa using hm)
    · intro h
      refine ⟨by omega, ?_⟩
      intro _ k hk
      exact h k (by simpa using hk)
  · have hmem := List.mem_of_getLast? hlast
    have hge : s.readCounter ≤ n := by
      by_contra hlt'
      have hdiff := hwindow _ hmem
      refine hbehind ⟨not_le.1 hlt', ?_⟩
      rwa [int32_eq_self (by omega) (by omega)]
    have hle : ∀ m ∈ nums, m ≤ s.readCounter := by
      obtain ⟨front, rfl⟩ := List.getLast?_eq_some_iff.1 hlast
      intro m hm
      rcases List.mem_append.1 hm with hm | hm
      · exact ((List.pairwise_append.1 hsorted).2.2 m hm _ (List.mem_singleton_self _)).le
      · exact (List.mem_singleton.1 hm).le
    constructor
    · rintro ⟨hne, -⟩ m hm
      have := hle m hm
      omega
    · intro h
      have := h _ hmem
      exact ⟨by omega, by omega⟩

/-- The rest of a session. The induction carries the mark and the numbers accepted so far. -/
theorem accepted_pairwise_iff (hlast : LastAccepted opening s.readCounter nums)
    (hsorted : nums.Pairwise (· < ·))
    (hno : (step outOfRange).EveryStep (fun s op => ¬startsSession outOfRange s op) s ops)
    (hpos : ∀ op ∈ ops, ∀ n ∈ streamNumber outOfRange op, 0 ≤ n)
    (hwindow : InWindow outOfRange s nums ops) :
    (nums ++ acceptedNumbers outOfRange s ops).Pairwise (· < ·) ↔
      (step outOfRange).EveryStep (NotRepeated outOfRange opening) s ops := by
  induction ops generalizing s nums with
  | nil =>
    rw [acceptedNumbers, Machine.trace_nil, List.filterMap_nil, List.append_nil]
    exact ⟨fun _ => by simp [Machine.EveryStep], fun _ => hsorted⟩
  | cons op ops ih =>
    obtain ⟨hop, hops⟩ := Machine.EveryStep.cons_iff.1 hno
    obtain ⟨hposop, hposops⟩ := List.forall_mem_cons.1 hpos
    obtain ⟨hwin, hwindow⟩ := hwindow
    have hnums : acceptedNumbers outOfRange s (op :: ops) =
        (acceptedNumber outOfRange (s, op)).toList ++
          acceptedNumbers outOfRange (step outOfRange s op).1 ops := by
      rw [acceptedNumbers, Machine.trace_cons, List.filterMap_cons]
      cases acceptedNumber outOfRange (s, op) <;> rfl
    rw [Machine.EveryStep.cons_iff, hnums]
    rcases inSession_cases hop hposop with ⟨hacc, hmark, hbehind⟩ | ⟨n, hn, hacc, hmark, hbehind⟩
    · rw [hacc] at hwindow ⊢
      rw [Option.toList_none, List.append_nil] at hwindow
      have hnot : NotRepeated outOfRange opening s op := by
        intro n hn
        have hlt := (hbehind n hn).1
        have h0 := hposop n hn
        exact ⟨hlt.ne, by omega⟩
      rw [Option.toList_none, List.nil_append, ih (hmark ▸ hlast) hsorted hops hposops hwindow]
      exact ⟨fun h => ⟨hnot, h⟩, fun h => h.2⟩
    · rw [hacc] at hwindow ⊢
      have hiff := notRepeated_iff hlast hsorted hn (hposop n hn) (hwin n hn) hbehind
      rw [Option.toList_some] at hwindow ⊢
      rw [← List.append_assoc, hiff]
      by_cases hnewer : ∀ m ∈ nums, m < n
      · have hsorted' : (nums ++ [n]).Pairwise (· < ·) := by
          refine List.pairwise_append.2 ⟨hsorted, List.pairwise_singleton _ _, ?_⟩
          intro m hm k hk
          exact List.mem_singleton.1 hk ▸ hnewer m hm
        have hlast' : LastAccepted opening (step outOfRange s op).1.readCounter (nums ++ [n]) := by
          rw [hmark]
          exact .inr ⟨hposop n hn, streamNumber_lt hn, List.getLast?_concat⟩
        rw [ih hlast' hsorted' hops hposops hwindow]
        exact ⟨fun h => ⟨hnewer, h⟩, fun h => h.2⟩
      · constructor
        · intro h
          refine absurd ?_ hnewer
          intro m hm
          exact (List.pairwise_append.1 (List.pairwise_append.1 h).1).2.2 m hm n
            (List.mem_singleton_self n)
        · exact fun h => absurd h.1 hnewer

end Order

/-! ## The calls of the callback -/

section Calls

variable {outOfRange : BinaryFloat → ℤ} (s : Protocol)

@[simp] theorem calledNumbers_append (es fs : List Effect) : calledNumbers outOfRange (es ++ fs) =
    calledNumbers outOfRange es ++ calledNumbers outOfRange fs := List.filterMap_append

/-- The numbers of the calls. -/
theorem calledNumbers_eq (es : List Effect) : calledNumbers outOfRange es =
    (callbacks es).filterMap fun call => streamNumber outOfRange (.handleMsg .none call.2) := by
  rw [calledNumbers, callbacks, List.filterMap_filterMap]
  apply List.filterMap_congr
  intro e _
  cases e <;> rfl

theorem calledNumbers_of_callbacks_nil {es : List Effect} (h : callbacks es = []) :
    calledNumbers outOfRange es = [] := by
  rw [calledNumbers_eq, h]
  rfl

theorem deliver_called (addr : ProtocolAddr) (pkt : Packet) :
    (calledNumbers outOfRange (s.deliver pkt).2).Sublist
      (streamNumber outOfRange (.handleMsg addr pkt)).toList := by
  have haddr : streamNumber outOfRange (.handleMsg addr pkt) =
      streamNumber outOfRange (.handleMsg .none pkt) := rfl
  rw [calledNumbers_eq, (s.deliver_unsent pkt).2, haddr]
  split_ifs
  · rw [List.filterMap_cons]
    cases streamNumber outOfRange (.handleMsg .none pkt) <;> exact List.Sublist.refl _
  · exact List.nil_sublist _

theorem process_called (addr : ProtocolAddr) (pkt : Packet) :
    (calledNumbers outOfRange (s.process outOfRange addr pkt).2).Sublist
      (streamNumber outOfRange (.handleMsg addr pkt)).toList := by
  unfold process
  split_ifs
  · simp only
    split_ifs
    · exact List.nil_sublist _
    · exact deliver_called _ addr pkt
  · exact List.nil_sublist _
  · exact s.deliver_called addr pkt

/-- The callback is called at most once, and for an accepted packet. -/
theorem step_called (op : Op) : (calledNumbers outOfRange (step outOfRange s op).2).Sublist
    (acceptedNumber outOfRange (s, op)).toList := by
  rcases hacc : accepted outOfRange s op with _ | ⟨s₁, pkt⟩
  · have hnone : calledNumbers outOfRange (step outOfRange s op).2 = [] := by
      cases op with
      | handleMsg addr pkt =>
        obtain ⟨-, hout | ⟨item, hout⟩⟩ := handleMsg_of_not_accepted hacc
        · rw [hout]
          rfl
        · rw [hout]
          rfl
      | send cmd obj => exact calledNumbers_of_callbacks_nil (s.send_unsent cmd obj).2
      | sendMustarrive cmd params =>
        exact calledNumbers_of_callbacks_nil (s.sendMustarrive_unsent cmd params).2
      | resend uninit =>
        exact calledNumbers_of_callbacks_nil (s.resendEntries_unsent _ s.mustarriveQueue).2
    rw [hnone]
    exact List.nil_sublist _
  · obtain ⟨addr, rfl, hstep, -⟩ := step_of_accepted hacc
    rw [hstep, acceptedNumber, hacc]
    exact s₁.process_called addr pkt

theorem called_sublist (ops : List Op) :
    (calledNumbers outOfRange ((step outOfRange).outputs ((step outOfRange).trace s ops))).Sublist
      (acceptedNumbers outOfRange s ops) := by
  induction ops generalizing s with
  | nil => exact List.nil_sublist _
  | cons op ops ih =>
    rw [acceptedNumbers, Machine.trace_cons, Machine.outputs_cons, calledNumbers_append,
      List.filterMap_cons]
    have hop : (calledNumbers outOfRange (step outOfRange s op).2).Sublist
        (acceptedNumber outOfRange (s, op)).toList := s.step_called op
    have happend := hop.append (ih (step outOfRange s op).1)
    cases hn : acceptedNumber outOfRange (s, op) with
    | none =>
      rw [hn] at happend
      exact happend
    | some n =>
      rw [hn] at happend
      exact happend

end Calls

/-! ## Sessions -/

/-- The accepted numbers increase strictly, and so do those that the callback is called with. -/
def StreamInOrder (outOfRange : BinaryFloat → ℤ) (s : Protocol) (ops : List Op) : Prop :=
  (acceptedNumbers outOfRange s ops).Pairwise (· < ·) ∧
    (calledNumbers outOfRange
      ((step outOfRange).outputs ((step outOfRange).trace s ops))).Pairwise (· < ·)

/-- **The stream of a session is accepted in order** exactly when no packet behind the opening one
has the number of `m_read_counter` and, as long as that is −1, none is behind the opening one. -/
theorem accepted_inOrder_iff {outOfRange : BinaryFloat → ℤ} {s : Protocol} {op : Op}
    {ops : List Op} (hs : Session outOfRange s (op :: ops))
    (hpos : ∀ op' ∈ op :: ops, ∀ n ∈ streamNumber outOfRange op', 0 ≤ n)
    (hwindow : InWindow outOfRange s [] (op :: ops)) :
    StreamInOrder outOfRange s (op :: ops) ↔
      (step outOfRange).EveryStep (NotRepeated outOfRange (streamNumber outOfRange op))
        (step outOfRange s op).1 ops := by
  obtain ⟨hstart, hno⟩ := hs
  obtain ⟨-, hpos⟩ := List.forall_mem_cons.1 hpos
  obtain ⟨-, hwindow⟩ := hwindow
  have hopening : acceptedNumber outOfRange (s, op) = streamNumber outOfRange op ∧
      (step outOfRange s op).1.readCounter = -1 := by
    rw [startsSession] at hstart
    rcases hacc : accepted outOfRange s op with _ | ⟨s₁, pkt⟩
    · rw [hacc] at hstart
      cases hstart
    · rw [hacc, Option.any_some] at hstart
      rw [acceptedNumber, step_readCounter, hacc]
      obtain ⟨s', addr, hreset⟩ := accepted_of_isReset hacc hstart
      exact ⟨rfl, congrArg readCounter hreset⟩
  rw [List.nil_append, hopening.1] at hwindow
  have hnums : acceptedNumbers outOfRange s (op :: ops) = (streamNumber outOfRange op).toList ++
      acceptedNumbers outOfRange (step outOfRange s op).1 ops := by
    rw [acceptedNumbers, Machine.trace_cons, List.filterMap_cons, hopening.1]
    cases streamNumber outOfRange op <;> rfl
  have hsorted : ((streamNumber outOfRange op).toList).Pairwise (· < ·) := by
    cases streamNumber outOfRange op <;> simp
  rw [StreamInOrder, hnums,
    ← accepted_pairwise_iff (.inl ⟨hopening.2, rfl⟩) hsorted hno hpos hwindow, ← hnums]
  constructor
  · exact fun h => h.1
  · exact fun h => ⟨h, h.sublist (s.called_sublist (op :: ops))⟩

instance (outOfRange : BinaryFloat → ℤ) (s : Protocol) (ops : List Op) :
    Decidable (StreamInOrder outOfRange s ops) := inferInstanceAs (Decidable (_ ∧ _))

/-- The packets of one peer: it possesses the device and then sends the numbers. -/
def streamOf (ns : List ℤ) : List Op :=
  .handleMsg (.udp 1 42424)
      (Packet.empty.set keyC (.string cmdPossess) |>.set keyN (intNumber 0)) ::
    ns.map fun n => .handleMsg (.udp 1 42424)
      (Packet.empty.set keyC (.string (literal "joy")) |>.set keyN (intNumber n))

/-- A packet that is overtaken is passed over. -/
theorem accepted_inOrder_overtaken :
    StreamInOrder (fun _ => 0) device (streamOf [0, 2, 1, 3]) :=
  (accepted_inOrder_iff (by decide +kernel) (by decide +kernel) (by decide +kernel)).2
    (by decide +kernel)

/-- A packet that arrives twice in a row is accepted twice. -/
theorem accepted_twice :
    Session (fun _ => 0) device (streamOf [0, 0]) ∧
      (∀ op ∈ streamOf [0, 0], ∀ n ∈ streamNumber (fun _ => 0) op, 0 ≤ n) ∧
      InWindow (fun _ => 0) device [] (streamOf [0, 0]) ∧
      acceptedNumbers (fun _ => 0) device (streamOf [0, 0]) = [0, 0] ∧
      ¬StreamInOrder (fun _ => 0) device (streamOf [0, 0]) := by
  decide +kernel

end RbProtocol.Protocol
