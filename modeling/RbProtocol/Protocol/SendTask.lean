import RbProtocol.Library.Runs
import RbProtocol.Protocol.HandleMsg

/-!
# The send task among the other tasks

Any number of tasks send while `send_task` empties the queue. A step is what happens in one critical
section or in one queue operation: a task takes its counter in one step and hands its item to the
queue in a later one, `send_task` receives an item in one step and writes it to the socket in a
later one, and each entry of a resend round takes its counter and is written in one step. The
outputs of a step are the calls of `sendto` on the UDP socket. Taken together, the steps of an
operation do what the whole operation does (`step_send_enqueue`, `final_resendRound`).

`send_mustarrive` holds `m_mustarrive_mutex` from its id to the queue, and a resend round holds it
throughout. The possession does not change; a reset of it starts another run.
-/

namespace RbProtocol.Protocol

open Library Json

/-- The length of the send queue, in `xQueueCreate`. -/
def sendQueueLength : ℕ := 32

/-- The number of items `send_task` takes in a round. -/
def itemsPerRound : ℕ := 16

/-- A `send` that has its item and not yet handed it to the queue. -/
structure Sending where
  item : QueueItem
  mustarrive : Bool

/-- Where `send_task` is. -/
inductive SendTask
  /-- Before the next `xQueueReceive`, with the items taken in this round. -/
  | receive (i : ℕ)
  /-- Before it locks `m_mutex` to send an item. -/
  | transmit (i : ℕ) (item : QueueItem)
  /-- In `resend_mustarrive_locked`: the address, the entries kept and those to come. -/
  | resend (addr : ProtocolAddr) (kept todo : List MustArrive)
  | exited

/-- A call of `sendto` of the UDP backend: the object, its destination and the bytes of its text. -/
structure Transmission where
  item : QueueItem
  data : Bytes

/-- The protocol object, the send queue and the tasks. -/
structure SendSystem (T : Type*) where
  protocol : Protocol
  sendQueue : List QueueItem
  mustarriveMutex : Bool
  sending : T → Option Sending
  sendTask : SendTask

/-- What can happen next. -/
inductive Action (T : Type*)
  /-- A task takes a counter in `send(addr, obj)`. -/
  | send (t : T) (addr : ProtocolAddr) (obj : Packet)
  /-- The answer to `discover`, which has no counter. -/
  | discover (t : T) (addr : ProtocolAddr)
  /-- A task takes an id and a counter in `send_mustarrive`. -/
  | sendMustarrive (t : T) (cmd : Bytes) (params : Packet)
  /-- `xQueueSend` succeeds. -/
  | enqueue (t : T)
  /-- `xQueueSend` times out. -/
  | drop (t : T)
  /-- `handle_msg` meets the counter −1. -/
  | resetCounter
  /-- `handle_msg` meets an acknowledgement. -/
  | acknowledge (e : UInt32)
  /-- `xQueueReceive` succeeds. -/
  | receive
  /-- The received item is sent. -/
  | transmit
  /-- The test of the timer at the end of a round. -/
  | poll (due : Bool) (uninit : ProtocolAddr)
  /-- The next entry of a resend round, or its end. -/
  | resendNext

namespace SendSystem

variable {T : Type*} [DecidableEq T]

/-- A task has its item. -/
def startSending (sys : SendSystem T) (t : T) (r : Protocol × QueueItem) (mustarrive : Bool) :
    SendSystem T :=
  { sys with
    protocol := r.1
    sending := Function.update sys.sending t (some ⟨r.2, mustarrive⟩) }

/-- A task has handed its item to the queue, or given up. -/
def stopSending (sys : SendSystem T) (t : T) (s : Sending) : SendSystem T :=
  { sys with
    mustarriveMutex := if s.mustarrive then false else sys.mustarriveMutex
    sending := Function.update sys.sending t none }

/-- The end of a round of `send_task`. -/
def endRound (sys : SendSystem T) (due : Bool) (uninit : ProtocolAddr) : Option (SendSystem T) :=
  if due then
    if sys.mustarriveMutex then none
    else if sys.protocol.mustarriveQueue.isEmpty then some { sys with sendTask := .receive 0 }
    else
      let addr := if sys.protocol.isPossessed then sys.protocol.possessedAddr else uninit
      some { sys with
        mustarriveMutex := true
        sendTask := .resend addr [] sys.protocol.mustarriveQueue }
  else some { sys with sendTask := .receive 0 }

section Code

variable (outOfRange : BinaryFloat → ℤ)

/-- The calls of `sendto` among some effects of a resend round. `resend_mustarrive` sends the text
itself, whatever its length. -/
def transmitted (effects : List Effect) : List Transmission :=
  effects.filterMap fun
    | .transmit item => some ⟨item, item.pkt.str outOfRange⟩
    | _ => none

/-- The call of `sendto` in `send_from_queue` of the UDP backend. -/
def sendFromQueue (s : Protocol) (item : QueueItem) : List Transmission :=
  match item.addr, s.udp with
  | .udp _ _, true => [⟨item, item.sent outOfRange⟩]
  | _, _ => []

/-- An action in a state where it can happen. -/
def act (sys : SendSystem T) : Action T → Option (SendSystem T × List Transmission)
  | .send t addr obj =>
    if (sys.sending t).isSome then none
    else some (sys.startSending t (sys.protocol.sendTo addr obj) false, [])
  | .discover t addr =>
    if (sys.sending t).isSome then none
    else some (sys.startSending t (sys.protocol, ⟨addr, sys.protocol.found⟩) false, [])
  | .sendMustarrive t cmd params =>
    if (sys.sending t).isSome || sys.mustarriveMutex || !sys.protocol.isPossessed then none
    else some ({ sys.startSending t (sys.protocol.sendEntry cmd params) true with
      mustarriveMutex := true }, [])
  | .enqueue t =>
    if sys.sendQueue.length < sendQueueLength then
      (sys.sending t).map fun s =>
        ({ sys.stopSending t s with sendQueue := sys.sendQueue ++ [s.item] }, [])
    else none
  | .drop t =>
    if sys.sendQueue.length < sendQueueLength then none
    else (sys.sending t).map fun s => (sys.stopSending t s, [])
  | .resetCounter =>
    some ({ sys with protocol := { sys.protocol with readCounter := 0, writeCounter := 0 } }, [])
  | .acknowledge e =>
    if sys.mustarriveMutex then none
    else some ({ sys with protocol := { sys.protocol with
      mustarriveQueue := removeEntry sys.protocol.mustarriveQueue e } }, [])
  | .receive =>
    match sys.sendTask, sys.sendQueue with
    | .receive i, item :: queue =>
      if i < itemsPerRound then
        some ({ sys with
          sendQueue := queue
          sendTask := if item.addr = .none then .exited else .transmit i item }, [])
      else none
    | _, _ => none
  | .transmit =>
    match sys.sendTask with
    | .transmit i item =>
      some ({ sys with sendTask := .receive (i + 1) }, sendFromQueue outOfRange sys.protocol item)
    | _ => none
  | .poll due uninit =>
    match sys.sendTask with
    | .receive i =>
      if i = itemsPerRound ∨ sys.sendQueue = [] then (sys.endRound due uninit).map fun sys =>
        (sys, [])
      else none
    | _ => none
  | .resendNext =>
    match sys.sendTask with
    | .resend addr kept (it :: todo) =>
      let r := sys.protocol.retransmit addr it
      some ({ sys with
        protocol := r.1
        sendTask := .resend addr (kept ++ (countAttempt r.2.1).toList) todo },
        transmitted outOfRange r.2.2)
    | .resend _ kept [] =>
      some ({ sys with
        protocol := { sys.protocol with mustarriveQueue := kept }
        mustarriveMutex := false
        sendTask := .receive 0 }, [])
    | _ => none

/-- The system as a machine; an action that cannot happen changes nothing. -/
def step : Machine (SendSystem T) (Action T) Transmission := fun sys a =>
  (sys.act outOfRange a).getD (sys, [])

end Code

/-- The items on their way through the queue: the one `send_task` holds, and the queue. -/
def ahead (sys : SendSystem T) : List QueueItem :=
  match sys.sendTask with
  | .transmit _ item => item :: sys.sendQueue
  | _ => sys.sendQueue

/-! ## Steps and whole operations -/

section Whole

variable {outOfRange : BinaryFloat → ℤ} {sys : SendSystem T}

/-- The two steps of a `send` to the possessing address. -/
theorem step_send_enqueue {t : T} (hidle : sys.sending t = none)
    (hroom : sys.sendQueue.length < sendQueueLength) (hposs : sys.protocol.isPossessed = true)
    (cmd : Bytes) (obj : Packet) : ∃ item,
      (step outOfRange).final sys
          [.send t sys.protocol.possessedAddr (obj.set keyC (.string cmd)), .enqueue t] =
        { sys with
          protocol := (sys.protocol.send cmd obj).1
          sendQueue := sys.sendQueue ++ [item] } ∧
      (sys.protocol.send cmd obj).2 = [.enqueue item] := by
  refine ⟨(sys.protocol.sendTo sys.protocol.possessedAddr (obj.set keyC (.string cmd))).2, ?_, ?_⟩
  · have hsending : Function.update sys.sending t none = sys.sending :=
      Function.update_eq_self_iff.2 hidle.symm
    simp [step, act, hidle, startSending, stopSending, hroom, Protocol.send, hposs, hsending]
  · rw [Protocol.send, if_pos hposs]

/-- The steps of a resend round from some entry on. -/
theorem final_resendNext {addr : ProtocolAddr} {kept todo : List MustArrive}
    (hsend : sys.sendTask = .resend addr kept todo) :
    let r := resendEntries addr sys.protocol todo
    let actions := List.replicate (todo.length + 1) Action.resendNext
    (step outOfRange).final sys actions =
        { sys with
          protocol := { r.1 with mustarriveQueue := kept ++ r.2.1 }
          mustarriveMutex := false
          sendTask := .receive 0 } ∧
      (step outOfRange).outputs ((step outOfRange).trace sys actions) =
        transmitted outOfRange r.2.2 := by
  induction todo generalizing sys kept with
  | nil =>
    have hstep : step outOfRange sys .resendNext = ({ sys with
        protocol := { sys.protocol with mustarriveQueue := kept }
        mustarriveMutex := false
        sendTask := .receive 0 }, []) := by
      rw [step, act, hsend]
      rfl
    simp [hstep, resendEntries, transmitted]
  | cons it todo ih =>
    have hstep : step outOfRange sys .resendNext = ({ sys with
        protocol := (sys.protocol.retransmit addr it).1
        sendTask := .resend addr
          (kept ++ (countAttempt (sys.protocol.retransmit addr it).2.1).toList) todo },
        transmitted outOfRange (sys.protocol.retransmit addr it).2.2) := by
      rw [step, act, hsend]
      rfl
    obtain ⟨hfinal, hout⟩ := @ih (step outOfRange sys .resendNext).1 _ (by rw [hstep])
    rw [hstep] at hfinal hout
    intro r actions
    have hactions : actions = .resendNext :: List.replicate (todo.length + 1) .resendNext := rfl
    rw [hactions, Machine.final_cons, Machine.trace_cons, Machine.outputs_cons, hstep, hfinal, hout]
    simp only [r, resendEntries, List.append_assoc, transmitted, List.filterMap_append, and_self]

/-- **The steps of a resend round are the whole operation.** -/
theorem final_resendRound {i : ℕ} (hsend : sys.sendTask = .receive i)
    (hround : i = itemsPerRound ∨ sys.sendQueue = []) (hmutex : sys.mustarriveMutex = false)
    (hqueue : sys.protocol.mustarriveQueue ≠ []) (uninit : ProtocolAddr) :
    let r := sys.protocol.resendMustarriveLocked uninit
    let actions := .poll true uninit ::
      List.replicate (sys.protocol.mustarriveQueue.length + 1) Action.resendNext
    (step outOfRange).final sys actions = { sys with protocol := r.1, sendTask := .receive 0 } ∧
      (step outOfRange).outputs ((step outOfRange).trace sys actions) =
        transmitted outOfRange r.2 := by
  intro r actions
  have hstep : step outOfRange sys (.poll true uninit) = ({ sys with
      mustarriveMutex := true
      sendTask := .resend (if sys.protocol.isPossessed then sys.protocol.possessedAddr else uninit)
        []
        sys.protocol.mustarriveQueue }, []) := by
    rw [step, act, hsend]
    simp [hround, endRound, hmutex, hqueue]
  obtain ⟨hfinal, hout⟩ := final_resendNext (congrArg (fun r => r.1.sendTask) hstep)
  rw [hstep] at hfinal hout
  rw [Machine.final_cons, Machine.trace_cons, Machine.outputs_cons, hstep, hfinal, hout]
  exact ⟨by rw [← hmutex]; rfl, rfl⟩

end Whole

end SendSystem

end RbProtocol.Protocol
