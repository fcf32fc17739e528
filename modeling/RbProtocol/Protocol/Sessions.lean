import RbProtocol.Library.Runs
import RbProtocol.Protocol.HandleMsg

/-!
# Sessions

The operations of a protocol object as one machine. A packet is accepted when it is not `discover`
and gets past the counter test; only accepted packets change the must-arrive mark `m_mustarrive_f`
or reach the user callback (`step_of_not_accepted`, `step_of_accepted`). A session begins with an
accepted packet that resets the possession and lasts until the next one.
-/

namespace RbProtocol.Protocol

open Library Json

variable (outOfRange : BinaryFloat → ℤ)

/-- An operation, as a whole. -/
inductive Op
  | handleMsg (addr : ProtocolAddr) (pkt : Packet)
  | send (cmd : Bytes) (obj : Packet)
  | sendMustarrive (cmd : Bytes) (params : Packet)
  | resend (uninit : ProtocolAddr)

/-- An operation on the state, with its effects. -/
def step : Machine Protocol Op Effect
  | s, .handleMsg addr pkt => s.handleMsg outOfRange addr pkt
  | s, .send cmd obj => s.send cmd obj
  | s, .sendMustarrive cmd params =>
    ((s.sendMustarrive cmd params).1, (s.sendMustarrive cmd params).2.1)
  | s, .resend uninit => s.resendMustarriveLocked uninit

/-- The state in which the must-arrive numbers of an accepted packet are looked at, and the
packet. -/
def accepted (s : Protocol) : Op → Option (Protocol × Packet)
  | .handleMsg addr pkt =>
    if command pkt = cmdDiscover then none else (s.admission outOfRange addr pkt).map fun s =>
      (s, pkt)
  | _ => none

/-- The operation is an accepted packet that resets the possession. -/
def startsSession (s : Protocol) (op : Op) : Bool :=
  (accepted outOfRange s op).any fun a => s.isReset a.2

/-- The operations of a session: the first one resets the possession, and no other does. -/
def Session (s : Protocol) : List Op → Prop
  | [] => False
  | op :: ops => startsSession outOfRange s op ∧
      (step outOfRange).EveryStep (fun s op => ¬startsSession outOfRange s op)
        (step outOfRange s op).1 ops

instance (s : Protocol) (ops : List Op) : Decidable (Session outOfRange s ops) :=
  match ops with
  | [] => inferInstanceAs (Decidable False)
  | _ :: _ => inferInstanceAs (Decidable (_ ∧ _))

/-- The must-arrive number of a packet, the value of `int f`. -/
def numberF (pkt : Packet) : Option ℤ :=
  if pkt.contains keyF then some (int32 (pkt.getInt outOfRange keyF)) else none

/-- The must-arrive number of an accepted packet. -/
def acceptedF (c : Protocol × Op) : Option ℤ :=
  (accepted outOfRange c.1 c.2).bind fun a => numberF outOfRange a.2

/-- The must-arrive numbers of the packets the user callback was called with. -/
def deliveredF (effects : List Effect) : List ℤ :=
  effects.filterMap fun
    | .callback _ pkt => numberF outOfRange pkt
    | _ => none

/-- The calls of the user callback. -/
def callbacks (es : List Effect) : List (Bytes × Packet) :=
  es.filterMap fun
    | .callback cmd pkt => some (cmd, pkt)
    | _ => none

/-! ## What the operations leave alone -/

section Frame

variable {outOfRange} (s : Protocol)

theorem callbacks_append (es fs : List Effect) :
    callbacks (es ++ fs) = callbacks es ++ callbacks fs := List.filterMap_append

/-- The state without the members that sending changes. -/
def unsent (s : Protocol) : Protocol :=
  { s with writeCounter := 0, mustarriveE := 0, mustarriveQueue := [] }

theorem sendMustarrive_unsent (cmd : Bytes) (params : Packet) :
    (s.sendMustarrive cmd params).1.unsent = s.unsent ∧
      callbacks (s.sendMustarrive cmd params).2.1 = [] := by
  unfold sendMustarrive
  split_ifs <;> exact ⟨rfl, rfl⟩

theorem send_unsent (cmd : Bytes) (obj : Packet) :
    (s.send cmd obj).1.unsent = s.unsent ∧ callbacks (s.send cmd obj).2 = [] := by
  unfold send
  split_ifs <;> exact ⟨rfl, rfl⟩

theorem retransmit_unsent (addr : ProtocolAddr) (it : MustArrive) :
    (s.retransmit addr it).1.unsent = s.unsent ∧ callbacks (s.retransmit addr it).2.2 = [] := by
  unfold retransmit
  split <;> exact ⟨rfl, rfl⟩

theorem resendEntries_unsent (addr : ProtocolAddr) (its : List MustArrive) :
    (resendEntries addr s its).1.unsent = s.unsent ∧
      callbacks (resendEntries addr s its).2.2 = [] := by
  induction its generalizing s with
  | nil => exact ⟨rfl, rfl⟩
  | cons it its ih =>
    obtain ⟨hs, hout⟩ := s.retransmit_unsent addr it
    obtain ⟨hs', hout'⟩ := ih (s.retransmit addr it).1
    exact ⟨hs'.trans hs, by rw [resendEntries, callbacks_append, hout, hout', List.append_nil]⟩

/-- The end of `handle_msg` calls the user callback once, if there is one. -/
theorem deliver_unsent (pkt : Packet) : (s.deliver pkt).1.unsent = s.unsent ∧
    callbacks (s.deliver pkt).2 = if s.callback then [(command pkt, pkt)] else [] := by
  obtain ⟨hs, hout⟩ :=
    s.sendMustarrive_unsent cmdLog (Packet.empty.set keyMsg (.string s.possessedText))
  have hcall : callbacks (if s.callback then [.callback (command pkt) pkt] else []) =
      if s.callback then [(command pkt, pkt)] else [] := by
    split_ifs <;> rfl
  unfold deliver sendLog
  by_cases hcmd : command pkt = cmdPossess
  · simp only [if_pos hcmd, callbacks_append, hout, List.nil_append]
    exact ⟨hs, hcall⟩
  · simp only [if_neg hcmd, List.nil_append]
    exact ⟨trivial, hcall⟩

variable (outOfRange)

/-- The numbers that are delivered are those of the calls. -/
theorem deliveredF_eq (es : List Effect) :
    deliveredF outOfRange es = (callbacks es).filterMap fun call => numberF outOfRange call.2 := by
  rw [deliveredF, callbacks, List.filterMap_filterMap]
  apply List.filterMap_congr
  intro e _
  cases e <;> rfl

@[simp] theorem deliveredF_append (es fs : List Effect) :
    deliveredF outOfRange (es ++ fs) = deliveredF outOfRange es ++ deliveredF outOfRange fs :=
  List.filterMap_append

@[simp] theorem deliveredF_enqueue (item : QueueItem) (es : List Effect) :
    deliveredF outOfRange (.enqueue item :: es) = deliveredF outOfRange es := rfl

/-- The members that decide about must-arrive packets of the peer: the mark and the callback. -/
def receiver (s : Protocol) : UInt32 × Bool := (s.mustarriveF, s.callback)

@[simp] theorem receiver_sendTo (addr : ProtocolAddr) (obj : Packet) :
    (s.sendTo addr obj).1.receiver = s.receiver := rfl

/-- An operation that only sends leaves the mark alone and delivers nothing. -/
theorem receiver_of_unsent {s s' : Protocol} {es : List Effect}
    (h : s'.unsent = s.unsent ∧ callbacks es = []) :
    s'.receiver = s.receiver ∧ deliveredF outOfRange es = [] := by
  obtain ⟨hs, hout⟩ := h
  constructor
  · show s'.unsent.receiver = s.unsent.receiver
    rw [hs]
  · rw [deliveredF_eq, hout]
    rfl

theorem deliver_receiver (pkt : Packet) :
    (s.deliver pkt).1.receiver = s.receiver ∧ deliveredF outOfRange (s.deliver pkt).2 =
      if s.callback then (numberF outOfRange pkt).toList else [] := by
  obtain ⟨hs, hout⟩ := s.deliver_unsent pkt
  constructor
  · show (s.deliver pkt).1.unsent.receiver = s.unsent.receiver
    rw [hs]
  · rw [deliveredF_eq, hout]
    split_ifs
    · rw [List.filterMap_cons]
      cases numberF outOfRange pkt <;> rfl
    · rfl

end Frame

/-! ## Accepted packets -/

section Accepted

variable {outOfRange} {s s₁ : Protocol} {op : Op} {pkt : Packet}

/-- The counter test leaves the mark and the possession alone. -/
theorem acceptCounter_receiver {counter : ℤ} {isPossessCmd : Bool}
    (h : s.acceptCounter counter isPossessCmd = some s₁) :
    s₁.receiver = s.receiver ∧ s₁.possessedAddr = s.possessedAddr := by
  unfold acceptCounter at h
  split_ifs at h
  all_goals
    obtain rfl := Option.some.inj h
    exact ⟨rfl, rfl⟩

/-- An admitted packet, with the mark it meets. -/
theorem admission_receiver {addr : ProtocolAddr} (h : s.admission outOfRange addr pkt = some s₁) :
    s₁.receiver = (if s.isReset pkt then uint32Max else s.mustarriveF, s.callback) := by
  unfold admission at h
  split_ifs at h
  obtain ⟨s', hs', rfl⟩ := Option.map_eq_some_iff.1 h
  obtain ⟨hrec, haddr⟩ := acceptCounter_receiver hs'
  have hreset : s'.isReset pkt = s.isReset pkt := by rw [isReset, isReset, haddr]
  rw [hreset]
  obtain ⟨hmark, hcallback⟩ := Prod.mk.inj hrec
  split_ifs
  · exact Prod.ext rfl hcallback
  · exact Prod.ext hmark hcallback

/-- An accepted packet goes on to its must-arrive number. -/
theorem step_of_accepted (h : accepted outOfRange s op = some (s₁, pkt)) :
    ∃ addr, op = .handleMsg addr pkt ∧ step outOfRange s op = s₁.process outOfRange addr pkt ∧
      s₁.receiver = (if s.isReset pkt then uint32Max else s.mustarriveF, s.callback) := by
  unfold accepted at h
  split at h
  · rename_i addr pkt'
    split_ifs at h with hcmd
    obtain ⟨s', hs', heq⟩ := Option.map_eq_some_iff.1 h
    obtain ⟨rfl, rfl⟩ := Prod.mk.inj heq
    refine ⟨addr, rfl, ?_, admission_receiver hs'⟩
    rw [step, handleMsg, if_neg hcmd, hs']
  · cases h

/-- A packet that is not accepted changes nothing, and is answered at most. -/
theorem handleMsg_of_not_accepted {addr : ProtocolAddr}
    (h : accepted outOfRange s (.handleMsg addr pkt) = none) :
    (step outOfRange s (.handleMsg addr pkt)).1 = s ∧
      ((step outOfRange s (.handleMsg addr pkt)).2 = [] ∨
        ∃ item, (step outOfRange s (.handleMsg addr pkt)).2 = [.enqueue item]) := by
  rw [accepted] at h
  rw [step, handleMsg]
  split_ifs at h ⊢
  · exact ⟨rfl, .inr ⟨_, rfl⟩⟩
  · rw [Option.map_eq_none_iff.1 h]
    exact ⟨rfl, .inl rfl⟩

/-- An operation that is not an accepted packet leaves the mark alone and delivers nothing. -/
theorem step_of_not_accepted (h : accepted outOfRange s op = none) :
    (step outOfRange s op).1.receiver = s.receiver ∧
      deliveredF outOfRange (step outOfRange s op).2 = [] := by
  cases op with
  | handleMsg addr pkt =>
    obtain ⟨hstate, hout | ⟨item, hout⟩⟩ := handleMsg_of_not_accepted h
    · rw [hstate, hout]
      exact ⟨rfl, rfl⟩
    · rw [hstate, hout]
      exact ⟨rfl, rfl⟩
  | send cmd obj => exact receiver_of_unsent outOfRange (s.send_unsent cmd obj)
  | sendMustarrive cmd params =>
    exact receiver_of_unsent outOfRange (s.sendMustarrive_unsent cmd params)
  | resend uninit =>
    exact receiver_of_unsent outOfRange (s.resendEntries_unsent _ s.mustarriveQueue)

/-- What `process` does with a packet without must-arrive number. -/
theorem process_of_numberF_none (addr : ProtocolAddr) (h : numberF outOfRange pkt = none) :
    (s.process outOfRange addr pkt).1.receiver = s.receiver ∧
      deliveredF outOfRange (s.process outOfRange addr pkt).2 = [] := by
  have hf : ¬pkt.contains keyF = true := by
    intro hf
    rw [numberF, if_pos hf] at h
    cases h
  rw [process, if_neg hf]
  split_ifs
  · exact ⟨rfl, rfl⟩
  · obtain ⟨hrec, hout⟩ := s.deliver_receiver outOfRange pkt
    exact ⟨hrec, by rw [hout, h]; exact ite_self _⟩

/-- What `process` does with a must-arrive packet: one that is not above the mark changes nothing,
any other is delivered and becomes the mark. -/
theorem process_of_numberF (addr : ProtocolAddr) {f : ℤ} (h : numberF outOfRange pkt = some f) :
    (s.process outOfRange addr pkt).1.receiver =
        (if s.isRepeated f then s.mustarriveF else .ofInt f, s.callback) ∧
      deliveredF outOfRange (s.process outOfRange addr pkt).2 =
        if s.isRepeated f then [] else if s.callback then [f] else [] := by
  obtain ⟨hf, hval⟩ : pkt.contains keyF = true ∧ int32 (pkt.getInt outOfRange keyF) = f := by
    rw [numberF] at h
    split_ifs at h with hf
    exact ⟨hf, Option.some.inj h⟩
  have hsame :
      (s.sendTo addr (response (command pkt) (pkt.getInt outOfRange keyF))).1.isRepeated f =
        s.isRepeated f := rfl
  rw [process, if_pos hf, hval]
  simp only [hsame]
  split_ifs with hrep hcall
  · exact ⟨rfl, rfl⟩
  all_goals
    rw [deliveredF_enqueue]
    refine ⟨(deliver_receiver outOfRange _ pkt).1,
      (deliver_receiver outOfRange _ pkt).2.trans ?_⟩
    rw [h]
  · exact if_pos hcall
  · exact if_neg hcall

/-- No operation changes the callback. -/
theorem step_callback : (step outOfRange s op).1.callback = s.callback := by
  rcases hacc : accepted outOfRange s op with _ | ⟨s₁, pkt⟩
  · exact congrArg Prod.snd (step_of_not_accepted hacc).1
  · obtain ⟨addr, -, hstep, hrec⟩ := step_of_accepted hacc
    have hcallback : s₁.callback = s.callback := congrArg Prod.snd hrec
    rw [hstep, ← hcallback]
    rcases hf : numberF outOfRange pkt with _ | f
    · exact congrArg Prod.snd (s₁.process_of_numberF_none addr hf).1
    · exact congrArg Prod.snd (s₁.process_of_numberF addr hf).1

theorem final_callback (ops : List Op) :
    ((step outOfRange).final s ops).callback = s.callback := by
  induction ops generalizing s with
  | nil => rfl
  | cons op ops ih => rw [Machine.final_cons, ih, step_callback]

end Accepted

/-! ## Parts of a session -/

/-- The beginning of a session is a session. -/
theorem Session.of_append {s : Protocol} {ops₁ : List Op} (ops₂ : List Op)
    (h : Session outOfRange s (ops₁ ++ ops₂)) (hne : ops₁ ≠ []) : Session outOfRange s ops₁ := by
  obtain ⟨op, ops, rfl⟩ := List.exists_cons_of_ne_nil hne
  exact ⟨h.1, (Machine.EveryStep.append_iff.1 h.2).1⟩

end RbProtocol.Protocol
