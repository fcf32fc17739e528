import RbProtocol.Protocol.Counter

/-!
# Senders

`handle_msg` looks at the sender of a packet in two places: a packet that possesses the device makes
its sender the possessor, and the answer to `discover` and the acknowledgement of a must-arrive
packet go to the sender. It never compares the sender with the possessor. So the possessor stays
until the next `possess`, but the packets of others go through the same counter, the same
must-arrive numbers and the same callback as its own.

* `handleMsg_addr`: an ordinary packet has the same effects from every sender, but for the
  destination of its acknowledgement.
* `control_sender`: two runs that differ in the senders of such packets, and in packets that the
  counter test refuses, end in the same state and call the callback with the same packets.
* `not_isolated_joy`: a packet of a second sender that moves the counter and reaches the callback.
-/

namespace RbProtocol.Protocol

open Library Json Machine

/-- A packet that is neither `possess` nor `discover`. -/
def IsOrdinary (pkt : Packet) : Prop := command pkt ≠ cmdPossess ∧ command pkt ≠ cmdDiscover

instance : DecidablePred IsOrdinary := fun _ => inferInstanceAs (Decidable (_ ∧ _))

/-- The effect, with another destination for what is handed to the send queue. -/
def Effect.readdressed (addr : ProtocolAddr) : Effect → Effect
  | .enqueue item => .enqueue { item with addr := addr }
  | .transmit item => .transmit item
  | .callback cmd pkt => .callback cmd pkt

/-- The effect, without the destination of what is handed to the send queue. -/
def Effect.content : Effect → Effect := Effect.readdressed .none

/-- The packet of a sender changes nothing that the possessor depends on. -/
def Isolated (outOfRange : BinaryFloat → ℤ) (s : Protocol) (addr : ProtocolAddr) (pkt : Packet) :
    Prop :=
  let r := s.handleMsg outOfRange addr pkt
  r.1.possessedAddr = s.possessedAddr ∧ r.1.readCounter = s.readCounter ∧
    r.1.writeCounter = s.writeCounter ∧ r.1.mustarriveF = s.mustarriveF ∧
    r.1.mustarriveQueue = s.mustarriveQueue ∧ callbacks r.2 = []

/-- A packet that the counter test refuses: it has no counter, or is less than 25 behind. -/
def Refused (outOfRange : BinaryFloat → ℤ) (s : Protocol) (pkt : Packet) : Prop :=
  ¬pkt.contains keyN ∨ counter outOfRange pkt ≠ -1 ∧ s.Behind (counter outOfRange pkt)

instance (outOfRange : BinaryFloat → ℤ) (s : Protocol) : DecidablePred (Refused outOfRange s) :=
  fun _ => inferInstanceAs (Decidable (_ ∨ _))

/-- Two runs that differ, in states where the device is possessed, in the senders of ordinary
packets and in ordinary packets that are refused. -/
inductive SameButSenders (outOfRange : BinaryFloat → ℤ) : Protocol → List Op → List Op → Prop
  | nil (s : Protocol) : SameButSenders outOfRange s [] []
  | same {s : Protocol} (op : Op) {ops ops' : List Op}
      (rest : SameButSenders outOfRange (step outOfRange s op).1 ops ops') :
      SameButSenders outOfRange s (op :: ops) (op :: ops')
  | sender {s : Protocol} {pkt : Packet} (hposs : s.isPossessed = true) (hpkt : IsOrdinary pkt)
      (addr addr' : ProtocolAddr) {ops ops' : List Op}
      (rest : SameButSenders outOfRange (s.handleMsg outOfRange addr pkt).1 ops ops') :
      SameButSenders outOfRange s (.handleMsg addr pkt :: ops) (.handleMsg addr' pkt :: ops')
  | refusedLeft {s : Protocol} {pkt : Packet} (hposs : s.isPossessed = true)
      (hpkt : IsOrdinary pkt) (href : Refused outOfRange s pkt) (addr : ProtocolAddr)
      {ops ops' : List Op} (rest : SameButSenders outOfRange s ops ops') :
      SameButSenders outOfRange s (.handleMsg addr pkt :: ops) ops'
  | refusedRight {s : Protocol} {pkt : Packet} (hposs : s.isPossessed = true)
      (hpkt : IsOrdinary pkt) (href : Refused outOfRange s pkt) (addr : ProtocolAddr)
      {ops ops' : List Op} (rest : SameButSenders outOfRange s ops ops') :
      SameButSenders outOfRange s ops (.handleMsg addr pkt :: ops')

variable {outOfRange : BinaryFloat → ℤ} {s : Protocol} {pkt : Packet}

/-! ## One packet -/

/-- In a possessed device the admission of an ordinary packet is a matter of its counter. -/
theorem admission_of_isOrdinary (hposs : s.isPossessed = true) (hpkt : IsOrdinary pkt)
    (addr : ProtocolAddr) : s.admission outOfRange addr pkt =
      if pkt.contains keyN then s.acceptCounter (int32 (pkt.getInt outOfRange keyN)) false
      else none := by
  rw [admission, decide_eq_false hpkt.1]
  split_ifs with hn
  · cases hcounter : s.acceptCounter (int32 (pkt.getInt outOfRange keyN)) false with
    | none => rfl
    | some s₁ =>
      obtain ⟨-, haddr⟩ := acceptCounter_receiver hcounter
      have hreset : s₁.isReset pkt = false := by
        rw [isPossessed, decide_eq_true_iff] at hposs
        rw [isReset, haddr, decide_eq_false hposs, decide_eq_false hpkt.1, Bool.or_self]
      rw [Option.map_some, hreset]
      rfl
  · rfl

/-- An ordinary packet is delivered to the callback and to nothing else. -/
theorem deliver_of_isOrdinary (hpkt : IsOrdinary pkt) :
    s.deliver pkt = (s, if s.callback then [.callback (command pkt) pkt] else []) := by
  rw [deliver, if_neg hpkt.1, List.nil_append]

/-- **The sender of an ordinary packet does not matter**, but for the destination of the
acknowledgement. -/
theorem process_addr (hpkt : IsOrdinary pkt) (addr addr' : ProtocolAddr) :
    s.process outOfRange addr' pkt = ((s.process outOfRange addr pkt).1,
      (s.process outOfRange addr pkt).2.map (Effect.readdressed addr')) := by
  have hcallback (s : Protocol) : (s.deliver pkt).2.map (Effect.readdressed addr') =
      (s.deliver pkt).2 := by
    rw [deliver_of_isOrdinary hpkt]
    split_ifs <;> rfl
  rw [process, process]
  split_ifs
  · have hsame : (s.sendTo addr' (response (command pkt) (pkt.getInt outOfRange keyF))).1 =
        (s.sendTo addr (response (command pkt) (pkt.getInt outOfRange keyF))).1 := rfl
    simp only [hsame]
    split_ifs
    · rfl
    · rw [List.map_cons, hcallback]
      rfl
  · rfl
  · rw [hcallback]

/-- **An ordinary packet of another sender** has the same effects in a possessed device. -/
theorem handleMsg_addr (hposs : s.isPossessed = true) (hpkt : IsOrdinary pkt)
    (addr addr' : ProtocolAddr) : s.handleMsg outOfRange addr' pkt =
      ((s.handleMsg outOfRange addr pkt).1,
        (s.handleMsg outOfRange addr pkt).2.map (Effect.readdressed addr')) := by
  rw [handleMsg, handleMsg, if_neg hpkt.2, if_neg hpkt.2, admission_of_isOrdinary hposs hpkt,
    admission_of_isOrdinary hposs hpkt]
  generalize (if pkt.contains keyN then
    s.acceptCounter (int32 (pkt.getInt outOfRange keyN)) false else none) = admitted
  cases admitted with
  | none => rfl
  | some s₁ => exact process_addr hpkt addr addr'

/-- The counter test refuses a packet exactly if it does not admit it. -/
theorem admission_eq_none_iff (hposs : s.isPossessed = true) (hpkt : IsOrdinary pkt)
    (addr : ProtocolAddr) :
    s.admission outOfRange addr pkt = none ↔ Refused outOfRange s pkt := by
  rw [admission_of_isOrdinary hposs hpkt, Refused]
  by_cases hn : pkt.contains keyN = true
  · rw [if_pos hn, acceptCounter, counter, Behind]
    by_cases hreset : int32 (pkt.getInt outOfRange keyN) = -1
    · simp [hn, hreset]
    · by_cases hbehind : int32 (pkt.getInt outOfRange keyN) < s.readCounter ∧
          int32 (s.readCounter - int32 (pkt.getInt outOfRange keyN)) < 25
      · simp [hreset, hbehind]
      · simp [hn, hreset, hbehind]
  · rw [if_neg hn]
    exact ⟨fun _ => .inl hn, fun _ => rfl⟩

theorem handleMsg_of_refused (hposs : s.isPossessed = true) (hpkt : IsOrdinary pkt)
    (href : Refused outOfRange s pkt) (addr : ProtocolAddr) :
    s.handleMsg outOfRange addr pkt = (s, []) := by
  rw [handleMsg, if_neg hpkt.2, (admission_eq_none_iff hposs hpkt addr).2 href]

theorem process_possessedAddr (hpkt : IsOrdinary pkt) (addr : ProtocolAddr) :
    (s.process outOfRange addr pkt).1.possessedAddr = s.possessedAddr := by
  unfold process
  split_ifs
  · simp only [deliver_of_isOrdinary hpkt]
    split_ifs <;> rfl
  · rfl
  · rw [deliver_of_isOrdinary hpkt]

/-- An ordinary packet leaves the possessor alone. -/
theorem handleMsg_possessedAddr (hposs : s.isPossessed = true) (hpkt : IsOrdinary pkt)
    (addr : ProtocolAddr) :
    (s.handleMsg outOfRange addr pkt).1.possessedAddr = s.possessedAddr := by
  rw [handleMsg, if_neg hpkt.2, admission_of_isOrdinary hposs hpkt]
  split_ifs
  · cases hcounter : s.acceptCounter (int32 (pkt.getInt outOfRange keyN)) false with
    | none => rfl
    | some s₁ =>
      obtain ⟨-, haddr⟩ := acceptCounter_receiver hcounter
      exact (process_possessedAddr hpkt addr).trans haddr
  · rfl

/-! ## Runs -/

section Contents

variable (addr : ProtocolAddr) (es : List Effect)

theorem content_readdressed (e : Effect) :
    Effect.content (Effect.readdressed addr e) = Effect.content e := by
  cases e <;> rfl

theorem map_content_readdressed :
    (es.map (Effect.readdressed addr)).map Effect.content = es.map Effect.content := by
  rw [List.map_map]
  apply List.map_congr_left
  intro e _
  exact content_readdressed addr e

/-- Destinations do not matter to the callback. -/
theorem callbacks_content : callbacks (es.map Effect.content) = callbacks es := by
  rw [callbacks, callbacks, List.filterMap_map]
  apply List.filterMap_congr
  intro e _
  cases e <;> rfl

end Contents

/-- The effects of a run. -/
def effects (outOfRange : BinaryFloat → ℤ) (s : Protocol) (ops : List Op) : List Effect :=
  (step outOfRange).outputs ((step outOfRange).trace s ops)

theorem effects_cons (op : Op) (ops : List Op) : effects outOfRange s (op :: ops) =
    (step outOfRange s op).2 ++ effects outOfRange (step outOfRange s op).1 ops := rfl

/-- Two runs end in the same state and have the same effects, up to destinations. -/
def SameOutcome (outOfRange : BinaryFloat → ℤ) (s : Protocol) (ops ops' : List Op) : Prop :=
  (step outOfRange).final s ops' = (step outOfRange).final s ops ∧
    callbacks (effects outOfRange s ops') = callbacks (effects outOfRange s ops) ∧
    (effects outOfRange s ops').map Effect.content = (effects outOfRange s ops).map Effect.content

/-- One step of the two runs, with the same next state and the same messages. -/
theorem SameOutcome.cons {op op' : Op} {ops ops' : List Op}
    (hstate : (step outOfRange s op').1 = (step outOfRange s op).1)
    (hcontent : (step outOfRange s op').2.map Effect.content =
      (step outOfRange s op).2.map Effect.content)
    (h : SameOutcome outOfRange (step outOfRange s op).1 ops ops') :
    SameOutcome outOfRange s (op :: ops) (op' :: ops') := by
  obtain ⟨hfinal, hcallbacks, hcontents⟩ := h
  have hcalls : callbacks (step outOfRange s op').2 = callbacks (step outOfRange s op).2 := by
    rw [← callbacks_content, hcontent, callbacks_content]
  refine ⟨?_, ?_, ?_⟩
  · rw [final_cons, final_cons, hstate, hfinal]
  · rw [effects_cons, effects_cons, callbacks_append, callbacks_append, hcalls, hstate, hcallbacks]
  · rw [effects_cons, effects_cons, List.map_append, List.map_append, hcontent, hstate, hcontents]

/-- The run without a packet that changes nothing. -/
theorem outcome_cons_of_step {op : Op} (ops : List Op) (h : step outOfRange s op = (s, [])) :
    (step outOfRange).final s (op :: ops) = (step outOfRange).final s ops ∧
      effects outOfRange s (op :: ops) = effects outOfRange s ops := by
  rw [final_cons, effects_cons, h]
  exact ⟨rfl, rfl⟩

/-- By induction on how the runs differ; the state is the same in both at every step. -/
theorem SameButSenders.sameOutcome {ops ops' : List Op}
    (h : SameButSenders outOfRange s ops ops') : SameOutcome outOfRange s ops ops' := by
  induction h with
  | nil s => exact ⟨rfl, rfl, rfl⟩
  | same op _ ih => exact ih.cons rfl rfl
  | sender hposs hpkt addr addr' _ ih =>
    have haddr := @handleMsg_addr outOfRange _ _ hposs hpkt addr addr'
    refine SameOutcome.cons ?_ ?_ ih
    · rw [step, haddr]
      rfl
    · rw [step, haddr]
      exact map_content_readdressed addr' _
  | refusedLeft hposs hpkt href addr _ ih =>
    have hstep : step outOfRange _ (.handleMsg addr _) = (_, []) :=
      handleMsg_of_refused hposs hpkt href addr
    obtain ⟨hfinal, heffects⟩ := outcome_cons_of_step _ hstep
    rw [SameOutcome, hfinal, heffects]
    exact ih
  | refusedRight hposs hpkt href addr _ ih =>
    have hstep : step outOfRange _ (.handleMsg addr _) = (_, []) :=
      handleMsg_of_refused hposs hpkt href addr
    obtain ⟨hfinal, heffects⟩ := outcome_cons_of_step _ hstep
    rw [SameOutcome, hfinal, heffects]
    exact ih

/-- **Senders do not matter.** In a possessed device an ordinary packet leaves the possessor alone,
and everything if it is refused; the same packet of another sender has the same effects, but for the
destination of the acknowledgement; and two runs that differ in the senders of such packets have the
same outcome. -/
theorem control_sender (hposs : s.isPossessed = true) :
    (∀ pkt, IsOrdinary pkt → ∀ addr,
      (s.handleMsg outOfRange addr pkt).1.possessedAddr = s.possessedAddr ∧
      (Refused outOfRange s pkt → s.handleMsg outOfRange addr pkt = (s, [])) ∧
      ∀ addr', s.handleMsg outOfRange addr' pkt = ((s.handleMsg outOfRange addr pkt).1,
        (s.handleMsg outOfRange addr pkt).2.map (Effect.readdressed addr'))) ∧
    ∀ ops ops', SameButSenders outOfRange s ops ops' → SameOutcome outOfRange s ops ops' := by
  constructor
  · intro pkt hpkt addr
    exact ⟨handleMsg_possessedAddr hposs hpkt addr,
      fun href => handleMsg_of_refused hposs hpkt href addr,
      fun addr' => handleMsg_addr hposs hpkt addr addr'⟩
  · intro ops ops' h
    exact h.sameOutcome

/-- A device that was possessed, and then sent a packet with the counter 3. -/
def possessedDevice : Protocol := (step fun _ => 0).final device (streamOf [3])

/-- A must-arrive packet of the possessor that another sender sends. -/
theorem control_sender_joy :
    SameOutcome (fun _ => 0) possessedDevice
      [.handleMsg (.udp 1 42424) (peerCommand (literal "joy") 5 0)]
      [.handleMsg (.udp 2 42424) (peerCommand (literal "joy") 5 0)] :=
  (control_sender (by decide +kernel)).2 _ _
    (.sender (by decide +kernel) (by decide +kernel) _ _ (.nil _))

/-- **A packet of a second sender interferes**: a command of the second sender moves the counter and
reaches the callback, and the next command of the possessor is lost, which would have reached it. -/
theorem not_isolated_joy :
    let joy := peerCommand (literal "joy") 20 7
    let fire := Op.handleMsg (.udp 1 42424) (peerCommand (literal "fire") 4 0)
    let called (ops : List Op) :=
      (callbacks (effects (fun _ => 0) possessedDevice ops)).map Prod.fst
    possessedDevice.possessedAddr = .udp 1 42424 ∧ IsOrdinary joy ∧
      ¬Isolated (fun _ => 0) possessedDevice (.udp 2 42424) joy ∧
      called [fire] = [literal "fire"] ∧
      called [.handleMsg (.udp 2 42424) joy, fire] = [literal "joy"] := by
  intro joy fire called
  have hcounter : (possessedDevice.handleMsg (fun _ => 0) (.udp 2 42424) joy).1.readCounter ≠
      possessedDevice.readCounter := by decide +kernel
  refine ⟨by decide +kernel, by decide +kernel, ?_, by decide +kernel, by decide +kernel⟩
  intro hisolated
  exact hcounter hisolated.2.1

end RbProtocol.Protocol
