import RbProtocol.Protocol.Counter

/-!
# A controller and its device

A controller possesses the device and sends it numbered packets, plain or must-arrive. Whatever of
them arrives, the user callback is called with exactly that, in the order it was sent
(`callbacks_session`), while the tasks of the device send what they like. The state after a packet
that was delivered is `Ready` for the ones behind it.
-/

namespace RbProtocol.Protocol

open Library Machine Json

section Stream

variable (outOfRange : BinaryFloat → ℤ)

/-- What a controller sends behind its `possess`: the counters do not decrease, the numbers of
must-arrive packets increase, and nothing is an acknowledgement. -/
structure WellNumbered (pkts : List Packet) : Prop where
  number : ∀ pkt ∈ pkts, ∃ n, streamNumber outOfRange (.handleMsg .none pkt) = some n ∧ 0 ≤ n
  counters : pkts.Pairwise fun a b => counter outOfRange a ≤ counter outOfRange b
  noAck : ∀ pkt ∈ pkts, pkt.contains keyE → pkt.contains keyF
  marks_nonneg : ∀ f ∈ pkts.filterMap (numberF outOfRange), 0 ≤ f
  marks : (pkts.filterMap (numberF outOfRange)).Pairwise (· < ·)

/-- The packet `possess` that begins a session. -/
structure Opening (pkt : Packet) : Prop where
  possess : command pkt = cmdPossess
  number : pkt.contains keyN
  noMark : ¬pkt.contains keyF ∧ ¬pkt.contains keyE

/-- A possessed device that accepts each of some packets, when they come in turn. -/
structure Ready (s : Protocol) (pkts : List Packet) : Prop
    extends WellNumbered outOfRange pkts where
  possessed : s.isPossessed = true
  callback : s.callback = true
  readCounter_le : ∀ pkt ∈ pkts, s.readCounter ≤ counter outOfRange pkt
  notRepeated : ∀ f ∈ pkts.filterMap (numberF outOfRange), s.isRepeated f = false

variable {outOfRange}

theorem WellNumbered.tail {pkt : Packet} {pkts : List Packet}
    (h : WellNumbered outOfRange (pkt :: pkts)) : WellNumbered outOfRange pkts where
  number p hp := h.number p (List.mem_cons_of_mem _ hp)
  counters := (List.pairwise_cons.1 h.counters).2
  noAck p hp := h.noAck p (List.mem_cons_of_mem _ hp)
  marks_nonneg f hf := h.marks_nonneg f <| by
    rw [List.filterMap_cons]
    cases numberF outOfRange pkt with
    | none => exact hf
    | some => exact List.mem_cons_of_mem _ hf
  marks := by
    have hmarks := h.marks
    rw [List.filterMap_cons] at hmarks
    cases hf : numberF outOfRange pkt with
    | none => rwa [hf] at hmarks
    | some f =>
      rw [hf] at hmarks
      exact (List.pairwise_cons.1 hmarks).2

/-- The call of the user callback with a packet. -/
def callWith (pkt : Packet) : Bytes × Packet := (command pkt, pkt)

/-! ## One packet -/

section Packet

variable {s : Protocol} {pkt : Packet} {pkts : List Packet}

/-- The members that decide whether the next packets are accepted. -/
def gate (s : Protocol) : ProtocolAddr × Bool × ℤ := (s.possessedAddr, s.callback, s.readCounter)

theorem gate_of_unsent {s' : Protocol} (h : s'.unsent = s.unsent) : s'.gate = s.gate := by
  show s'.unsent.gate = s.unsent.gate
  rw [h]

variable (outOfRange) in
/-- A packet behind the counter test that is new is delivered. -/
theorem process_delivers (addr : ProtocolAddr) (hcallback : s.callback = true)
    (hnew : ∀ f ∈ numberF outOfRange pkt, s.isRepeated f = false)
    (hnoAck : pkt.contains keyE → pkt.contains keyF) :
    callbacks (s.process outOfRange addr pkt).2 = [callWith pkt] ∧
      (s.process outOfRange addr pkt).1.gate = s.gate ∧
      (s.process outOfRange addr pkt).1.mustarriveF =
        ((numberF outOfRange pkt).map UInt32.ofInt).getD s.mustarriveF := by
  have hdeliver (s' : Protocol) (hcallback : s'.callback = true) :
      callbacks (s'.deliver pkt).2 = [callWith pkt] := by
    rw [(s'.deliver_unsent pkt).2, if_pos hcallback]
    rfl
  have hmark {s₁ s₂ : Protocol} (h : s₁.unsent = s₂.unsent) : s₁.mustarriveF = s₂.mustarriveF := by
    show s₁.unsent.mustarriveF = s₂.unsent.mustarriveF
    rw [h]
  rw [process]
  by_cases hf : pkt.contains keyF = true
  · have hnumber : numberF outOfRange pkt = some (int32 (pkt.getInt outOfRange keyF)) := if_pos hf
    have hfresh : s.isRepeated (int32 (pkt.getInt outOfRange keyF)) = false :=
      hnew _ hnumber
    have hsame :
        (s.sendTo addr (response (command pkt) (pkt.getInt outOfRange keyF))).1.isRepeated
          (int32 (pkt.getInt outOfRange keyF)) = false := hfresh
    rw [if_pos hf, hnumber]
    simp only [hsame, Bool.false_eq_true, if_false]
    refine ⟨hdeliver _ hcallback, (gate_of_unsent (deliver_unsent _ pkt).1).trans ?_,
      (hmark (deliver_unsent _ pkt).1).trans ?_⟩ <;> rfl
  · have hnumber : numberF outOfRange pkt = none := if_neg hf
    rw [if_neg hf, if_neg (mt hnoAck hf), hnumber]
    exact ⟨hdeliver s hcallback, gate_of_unsent (s.deliver_unsent pkt).1,
      hmark (s.deliver_unsent pkt).1⟩

/-- After a must-arrive packet every higher number is new. -/
theorem not_isRepeated_of_lt {f g : ℤ} (hmark : s.mustarriveF = .ofInt f) (hf : 0 ≤ f) (hlt : f < g)
    (hg : int32 g = g) : s.isRepeated g = false := by
  have hbound := int32_bounds g
  rw [hg] at hbound
  have hle : ¬ UInt32.ofInt g ≤ s.mustarriveF := by
    rw [hmark, UInt32.le_iff_toNat_le]
    have hkeyF := key_eq f
    have hkeyG := key_eq g
    rw [key] at hkeyF hkeyG
    omega
  rw [isRepeated, decide_eq_false hle, Bool.false_and]

/-- **The next packet** is given to the user callback, and the device is ready for the others. -/
theorem Ready.next (h : Ready outOfRange s (pkt :: pkts)) (addr : ProtocolAddr) :
    callbacks (step outOfRange s (.handleMsg addr pkt)).2 = [callWith pkt] ∧
      Ready outOfRange (step outOfRange s (.handleMsg addr pkt)).1 pkts := by
  obtain ⟨n, hn, hpos⟩ := h.number pkt List.mem_cons_self
  have hstream : streamNumber outOfRange (.handleMsg addr pkt) = some n := hn
  have hcounter : counter outOfRange pkt = n := by
    rw [streamNumber] at hn
    split_ifs at hn
    exact Option.some.inj hn
  have hordinary : command pkt ≠ cmdPossess := by
    rw [streamNumber] at hn
    split_ifs at hn with hother
    exact fun heq => hother (.inr (.inl heq))
  -- the packet is not behind, and does not reset the possession
  have hbehind : ¬s.Behind n := fun hb =>
    absurd (hcounter ▸ h.readCounter_le pkt List.mem_cons_self) (not_le.2 hb.1)
  have hreset : s.isReset pkt = false := by
    have hposs := h.possessed
    rw [isPossessed, decide_eq_true_eq] at hposs
    rw [isReset, decide_eq_false hposs, decide_eq_false hordinary]
    rfl
  have haccepted := admission_of_streamNumber (s := s) hstream hpos
  rw [if_neg hbehind, hreset] at haccepted
  obtain ⟨addr', heq, hstep, -⟩ := step_of_accepted haccepted
  obtain ⟨rfl, -⟩ := Op.handleMsg.inj heq
  simp only [Bool.false_eq_true, if_false] at hstep
  have hnew : ∀ f ∈ numberF outOfRange pkt, s.isRepeated f = false := fun f hf =>
    h.notRepeated f (List.mem_filterMap.2 ⟨pkt, List.mem_cons_self, hf⟩)
  obtain ⟨hcalls, hgate, hmark⟩ := process_delivers outOfRange
    (s := { s with readCounter := n }) addr h.callback hnew (h.noAck pkt List.mem_cons_self)
  rw [hstep]
  obtain ⟨hposs, hrest⟩ := Prod.mk.inj hgate
  obtain ⟨hcallback, hread⟩ := Prod.mk.inj hrest
  refine ⟨hcalls, h.toWellNumbered.tail, ?_, hcallback.trans h.callback, ?_, ?_⟩
  · rw [isPossessed, hposs]
    exact h.possessed
  · intro p hp
    rw [hread, ← hcounter]
    exact (List.pairwise_cons.1 h.counters).1 p hp
  · intro f hf
    have hmarks := h.marks
    rw [List.filterMap_cons] at hmarks
    obtain ⟨p, -, hp⟩ := List.mem_filterMap.1 hf
    cases hnumber : numberF outOfRange pkt with
    | none =>
      rw [hnumber] at hmark
      rw [isRepeated, hmark]
      refine h.notRepeated f ?_
      rw [List.filterMap_cons, hnumber]
      exact hf
    | some g =>
      rw [hnumber] at hmark hmarks
      have hg : 0 ≤ g := h.marks_nonneg g (List.mem_filterMap.2 ⟨pkt, List.mem_cons_self, hnumber⟩)
      exact not_isRepeated_of_lt hmark hg ((List.pairwise_cons.1 hmarks).1 f hf) (numberF_int32 hp)

end Packet

/-! ## Runs of packets -/

section Runs

variable {s : Protocol} {pkt possess : Packet} {pkts : List Packet} {ops : List Op}

/-- The packets that come in. -/
def packetsOf (ops : List Op) : List Packet :=
  ops.filterMap fun
    | .handleMsg _ pkt => some pkt
    | _ => none

variable (outOfRange) in
/-- An operation that is no packet only sends. -/
theorem sends_unsent {op : Op} (h : ∀ addr pkt, op ≠ .handleMsg addr pkt) :
    (step outOfRange s op).1.unsent = s.unsent ∧ callbacks (step outOfRange s op).2 = [] := by
  cases op with
  | handleMsg addr pkt => exact absurd rfl (h addr pkt)
  | send cmd obj => exact s.send_unsent cmd obj
  | sendMustarrive cmd params => exact s.sendMustarrive_unsent cmd params
  | resend uninit => exact s.resendEntries_unsent _ s.mustarriveQueue

theorem Ready.of_unsent {s' : Protocol} (h : Ready outOfRange s pkts) (heq : s'.unsent = s.unsent) :
    Ready outOfRange s' pkts := by
  obtain ⟨hposs, hrest⟩ := Prod.mk.inj (gate_of_unsent heq)
  obtain ⟨hcallback, hread⟩ := Prod.mk.inj hrest
  have hmark : s'.mustarriveF = s.mustarriveF := by
    show s'.unsent.mustarriveF = s.unsent.mustarriveF
    rw [heq]
  refine ⟨h.toWellNumbered, ?_, hcallback.trans h.callback, ?_, ?_⟩
  · rw [isPossessed, hposs]
    exact h.possessed
  · rw [hread]
    exact h.readCounter_le
  · intro f hf
    rw [isRepeated, hmark]
    exact h.notRepeated f hf

/-- A device that is ready gives the packets to the user callback as they come. -/
theorem Ready.callbacks_run (h : Ready outOfRange s pkts) (hops : packetsOf ops <+: pkts) :
    callbacks (outputs (step outOfRange) (trace (step outOfRange) s ops)) =
      (packetsOf ops).map callWith := by
  induction ops generalizing s pkts with
  | nil => rfl
  | cons op ops ih =>
    rw [trace_cons, outputs_cons, callbacks_append]
    by_cases hop : ∃ addr pkt, op = .handleMsg addr pkt
    · obtain ⟨addr, pkt, rfl⟩ := hop
      have hcons : packetsOf (.handleMsg addr pkt :: ops) = pkt :: packetsOf ops := rfl
      rw [hcons] at hops ⊢
      obtain ⟨rest, rfl⟩ := hops
      have h' : Ready outOfRange s (pkt :: (packetsOf ops ++ rest)) := h
      obtain ⟨hcalls, hready⟩ := h'.next addr
      rw [hcalls, ih hready (List.prefix_append _ _)]
      rfl
    · have hsends : ∀ addr pkt, op ≠ .handleMsg addr pkt := fun addr pkt heq =>
        hop ⟨addr, pkt, heq⟩
      obtain ⟨heq, hnone⟩ := sends_unsent outOfRange (s := s) hsends
      have hskip : packetsOf (op :: ops) = packetsOf ops := by
        cases op with
        | handleMsg addr pkt => exact absurd rfl (hsends addr pkt)
        | _ => rfl
      rw [hskip] at hops ⊢
      rw [hnone, List.nil_append, ih (h.of_unsent heq) hops]

variable (outOfRange) in
/-- **The packet `possess`** is given to the user callback, and makes the device ready. -/
theorem Opening.next (h : Opening possess) (hpkts : WellNumbered outOfRange pkts)
    (hcallback : s.callback = true) {addr : ProtocolAddr} (haddr : addr ≠ .none) :
    callbacks (step outOfRange s (.handleMsg addr possess)).2 = [callWith possess] ∧
      Ready outOfRange (step outOfRange s (.handleMsg addr possess)).1 pkts := by
  have hdiscover : command possess ≠ cmdDiscover := by
    rw [h.possess]
    decide
  have hadmission : s.admission outOfRange addr possess =
      some ({ s with readCounter := 0, writeCounter := 0 }.reset addr) := by
    rw [admission, if_pos h.number, acceptCounter, if_pos (.inr (by rw [h.possess]; rfl)),
      Option.map_some, if_pos]
    rw [isReset, h.possess, decide_eq_true rfl, Bool.or_true]
  have hfree : numberF outOfRange possess = none := if_neg h.noMark.1
  have hnew : ∀ f ∈ numberF outOfRange possess,
      ({ s with readCounter := 0, writeCounter := 0 }.reset addr).isRepeated f = false := by
    simp [hfree]
  obtain ⟨hcalls, hgate, hmark⟩ := process_delivers outOfRange
    (s := { s with readCounter := 0, writeCounter := 0 }.reset addr) addr hcallback hnew
    fun he => absurd he h.noMark.2
  rw [step, handleMsg, if_neg hdiscover, hadmission]
  simp only
  obtain ⟨hposs, hrest⟩ := Prod.mk.inj hgate
  obtain ⟨hcallback', hread⟩ := Prod.mk.inj hrest
  rw [hfree] at hmark
  refine ⟨hcalls, hpkts, ?_, hcallback'.trans hcallback, ?_, ?_⟩
  · rw [isPossessed, hposs, decide_eq_true_eq]
    rw [reset]
    simp only
    split_ifs with hsame
    · exact hsame ▸ haddr
    · exact haddr
  · intro p hp
    obtain ⟨n, hn, hpos⟩ := hpkts.number p hp
    have hcounter : counter outOfRange p = n := by
      rw [streamNumber] at hn
      split_ifs at hn
      exact Option.some.inj hn
    rw [hread, hcounter]
    exact (by decide : (-1 : ℤ) ≤ 0).trans hpos
  · intro f _
    rw [isRepeated, hmark]
    exact Bool.and_false _

/-- **A session with a controller**: whatever is sent before and in between, the user callback is
called with the packets of the controller, as they come. -/
theorem callbacks_session (h : Opening possess) (hpkts : WellNumbered outOfRange pkts)
    (hcallback : s.callback = true) (haddr : ∀ addr pkt, .handleMsg addr pkt ∈ ops → addr ≠ .none)
    (hops : packetsOf ops <+: possess :: pkts) :
    callbacks (outputs (step outOfRange) (trace (step outOfRange) s ops)) =
      (packetsOf ops).map callWith := by
  induction ops generalizing s with
  | nil => rfl
  | cons op ops ih =>
    rw [trace_cons, outputs_cons, callbacks_append]
    by_cases hop : ∃ addr pkt, op = .handleMsg addr pkt
    · obtain ⟨addr, pkt, rfl⟩ := hop
      have hcons : packetsOf (.handleMsg addr pkt :: ops) = pkt :: packetsOf ops := rfl
      rw [hcons, List.cons_prefix_cons] at hops
      obtain ⟨rfl, hops⟩ := hops
      obtain ⟨hcalls, hready⟩ := h.next outOfRange (s := s) hpkts hcallback
        (haddr addr pkt List.mem_cons_self)
      rw [hcalls, hready.callbacks_run hops, hcons]
      rfl
    · have hsends : ∀ addr pkt, op ≠ .handleMsg addr pkt := fun addr pkt heq =>
        hop ⟨addr, pkt, heq⟩
      obtain ⟨-, hnone⟩ := sends_unsent outOfRange (s := s) hsends
      have hskip : packetsOf (op :: ops) = packetsOf ops := by
        cases op with
        | handleMsg addr pkt => exact absurd rfl (hsends addr pkt)
        | _ => rfl
      rw [hskip] at hops ⊢
      rw [hnone, List.nil_append]
      exact ih ((step_callback ..).trans hcallback)
        (fun addr pkt hmem => haddr addr pkt (List.mem_cons_of_mem _ hmem)) hops

end Runs

end Stream

end RbProtocol.Protocol
