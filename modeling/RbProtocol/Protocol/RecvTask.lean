import RbProtocol.Json.Bounds
import RbProtocol.Json.WellFormed
import RbProtocol.Library.Checked
import RbProtocol.Library.Simulation
import RbProtocol.Protocol.Counter
import RbProtocol.Udp.Backend
import RbProtocol.Ws.Exact

/-!
# From bytes to packets

A round of `recv_task` calls `recv_iter` of the UDP backend and of the WebSocket backend, and gives
the packet of each, if there is one, to `handle_msg`. Datagrams and bytes arrive at any time, and
other tasks send in between.

The protocol object goes through a run of operations on packets. Those of the UDP backend are the
datagrams that have been taken, in their order (`recvTask_datagrams`), and those of a WebSocket
client its messages that have arrived completely (`recvTask_messages`).

On an empty or blank payload `rbjson::parse` reads a token that it has not written, and hands on
what an earlier payload has left there. Nothing is said here of a run behind such a call: the
results are about the runs of the checked machine `recvStep?`.
-/

namespace RbProtocol.Protocol

open Library Machine Json ProtBackendUdp Ws

/-! ## The code -/

/-- What `recv_task` works on: the protocol object, the socket of the UDP backend, the WebSocket
backend and the buffer of both. -/
structure RecvTask where
  protocol : Protocol
  socket : DatagramSocket SockaddrIn UInt8
  ws : Ws.Backend
  buf : Bytes

/-- What another task does with the protocol object. -/
inductive OtherTask
  | send (cmd : Bytes) (obj : Packet)
  | sendMustarrive (cmd : Bytes) (params : Packet)
  | resend (uninit : ProtocolAddr)

/-- The operation. -/
def OtherTask.op : OtherTask → Op
  | send cmd obj => .send cmd obj
  | sendMustarrive cmd params => .sendMustarrive cmd params
  | resend uninit => .resend uninit

/-- What happens to the device. `scratch` is what the WebSocket backend leaves at the front of the
buffer. -/
inductive RecvEvent
  | datagram (d : Datagram SockaddrIn UInt8)
  | ws (e : {e : WsEvent // e ≠ .recvIter})
  | sending (o : OtherTask)
  /-- The first half of a round of `recv_task`. -/
  | recvUdp
  /-- The second half. -/
  | recvWs (scratch : Bytes)

/-- What the device does. -/
inductive RecvEffect
  /-- A call of `handle_msg`. -/
  | handleMsg (addr : ProtocolAddr) (pkt : Packet)
  | protocol (e : Effect)
  | ws (e : WsEffect)
  /-- `rbjson::parse` reads what it must not. -/
  | fault (fault : Json.Fault)

/-- What a `recv_iter` returns, with `out_received_addr`. -/
abbrev Received := Except Json.Fault (Option (List (Member Value) × ProtocolAddr))

/-- The payload that a call of `recv_iter` gives to `rbjson::parse`, with its client. -/
def messageOf (es : List WsEffect) : Option (ℤ × Bytes) :=
  es.findSome? fun
    | .parse fd payload => some (fd, payload)
    | _ => none

/-- What `ProtBackendWs::recv_iter` returns. -/
def receivedWs (es : List WsEffect) : Received :=
  match messageOf es with
  | none => .ok none
  | some (fd, payload) => (Json.parse payload).map fun pkt => pkt.map fun obj => (obj, .ws fd)

/-- The buffer after reads to its front. -/
def scribble (buf scratch : Bytes) : Bytes :=
  (scratch ++ buf.drop scratch.length).take buf.length

section Code

variable (outOfRange : BinaryFloat → ℤ)

/-- `recv_task` with what a backend returns. A fault ends the runs of `recvStep?`. -/
def handle (s : Protocol) : Received → Protocol × List RecvEffect
  | .error fault => (s, [.fault fault])
  | .ok none => (s, [])
  | .ok (some (members, addr)) =>
    let pkt := Packet.ofMembers members
    let r := s.handleMsg outOfRange addr pkt
    (r.1, .handleMsg addr pkt :: r.2.map .protocol)

/-- The first half of a round of `recv_task`. -/
def recvUdp (s : RecvTask) : RecvTask × List RecvEffect :=
  if s.protocol.udp then
    let r := ProtBackendUdp.recvIter s.socket s.buf
    let h := handle outOfRange s.protocol r.result
    (⟨h.1, r.socket, s.ws, r.buf⟩, h.2)
  else (s, [])

/-- The second half of a round of `recv_task`. -/
def recvWs (s : RecvTask) (scratch : Bytes) : RecvTask × List RecvEffect :=
  if s.protocol.ws then
    let r := Ws.recvIter s.ws
    let h := handle outOfRange s.protocol (receivedWs r.2)
    (⟨h.1, s.socket, r.1, scribble s.buf scratch⟩, r.2.map .ws ++ h.2)
  else (s, [])

/-- The device, as far as it receives. -/
def recvMachine : Machine RecvTask RecvEvent RecvEffect
  | s, .datagram d => ({ s with socket := { s.socket with queue := s.socket.queue ++ [d] } }, [])
  | s, .ws e => ({ s with ws := (backend s.ws e).1 }, (backend s.ws e).2.map .ws)
  | s, .sending o =>
    ({ s with protocol := (step outOfRange s.protocol o.op).1 },
      (step outOfRange s.protocol o.op).2.map .protocol)
  | s, .recvUdp => recvUdp outOfRange s
  | s, .recvWs scratch => recvWs outOfRange s scratch

end Code

section Faults

variable {outOfRange : BinaryFloat → ℤ} {s : RecvTask} {es : List RecvEvent}

end Faults

/-! ## What can be seen of a run -/

/-- The calls of `handle_msg`. -/
def handled (es : List RecvEffect) : List (ProtocolAddr × Packet) :=
  es.filterMap fun
    | .handleMsg addr pkt => some (addr, pkt)
    | _ => none

/-- What the protocol object does. -/
def RecvEffect.protocol? : RecvEffect → Option Effect
  | .protocol e => some e
  | _ => none

/-- What the WebSocket backend does. -/
def RecvEffect.ws? : RecvEffect → Option WsEffect
  | .ws e => some e
  | _ => none

/-- The address is one of the UDP backend. -/
def isUdp : ProtocolAddr → Bool
  | .udp _ _ => true
  | _ => false

/-- The datagrams that arrive. -/
def datagrams (es : List RecvEvent) : List (Datagram SockaddrIn UInt8) :=
  es.filterMap fun
    | .datagram d => some d
    | _ => none

/-- The call of `handle_msg` that a datagram leads to. -/
def callOf (d : Datagram SockaddrIn UInt8) : Option (ProtocolAddr × Packet) :=
  (packetOf d.data).map fun pkt => (.udp d.source.sinAddr d.source.sinPort, pkt)

/-! ## The protocol object -/

section ProtocolObject

variable {outOfRange : BinaryFloat → ℤ}

@[simp] theorem handled_append (es fs : List RecvEffect) :
    handled (es ++ fs) = handled es ++ handled fs := List.filterMap_append

@[simp] theorem handled_handleMsg (addr : ProtocolAddr) (pkt : Packet) (es : List RecvEffect) :
    handled (.handleMsg addr pkt :: es) = (addr, pkt) :: handled es := rfl

@[simp] theorem handled_map_protocol (es : List Effect) :
    handled (es.map RecvEffect.protocol) = [] := by
  induction es with
  | nil => rfl
  | cons e es ih => exact ih

@[simp] theorem handled_map_ws (es : List WsEffect) : handled (es.map RecvEffect.ws) = [] := by
  induction es with
  | nil => rfl
  | cons e es ih => exact ih

@[simp] theorem protocol_map_protocol (es : List Effect) :
    (es.map RecvEffect.protocol).filterMap RecvEffect.protocol? = es := by
  induction es with
  | nil => rfl
  | cons e es ih => exact congrArg (e :: ·) ih

@[simp] theorem protocol_map_ws (es : List WsEffect) :
    (es.map RecvEffect.ws).filterMap RecvEffect.protocol? = [] := by
  induction es with
  | nil => rfl
  | cons e es ih => exact ih

@[simp] theorem ws_map_ws (es : List WsEffect) :
    (es.map RecvEffect.ws).filterMap RecvEffect.ws? = es := by
  induction es with
  | nil => rfl
  | cons e es ih => exact congrArg (e :: ·) ih

@[simp] theorem ws_map_protocol (es : List Effect) :
    (es.map RecvEffect.protocol).filterMap RecvEffect.ws? = [] := by
  induction es with
  | nil => rfl
  | cons e es ih => exact ih

/-- A call of `handle_msg`, as an operation. -/
def opOf (call : ProtocolAddr × Packet) : Op := .handleMsg call.1 call.2

/-- What is done with a packet is the operation `handle_msg`. -/
theorem leads_handle (s : Protocol) (r : Received) :
    Leads (step outOfRange) s ((handled (handle outOfRange s r).2).map opOf)
      (handle outOfRange s r).1 ((handle outOfRange s r).2.filterMap RecvEffect.protocol?) := by
  match r with
  | .error fault => exact Leads.nil
  | .ok none => exact Leads.nil
  | .ok (some (members, addr)) =>
    simp only [handle, handled_handleMsg, handled_map_protocol, List.map_cons, List.map_nil]
    refine Leads.single ?_
    rw [opOf, step, List.filterMap_cons_none rfl, protocol_map_protocol]

variable (outOfRange) in
/-- The operations on the protocol object in a step. -/
def operations (s : RecvTask) : RecvEvent → List Op
  | .sending o => [o.op]
  | e => (handled (recvMachine outOfRange s e).2).map opOf

variable (outOfRange) in
/-- **The protocol object of the device** goes through a run of operations on packets. -/
def protocolRun : Simulation (recvMachine outOfRange) (step outOfRange) where
  part := RecvTask.protocol
  moves := operations outOfRange
  seen := RecvEffect.protocol?
  leads s e := by
    cases e with
    | datagram d => exact Leads.nil
    | ws e =>
      simp only [recvMachine, operations, handled_map_ws, protocol_map_ws]
      exact Leads.nil
    | sending o =>
      simp only [recvMachine, operations, protocol_map_protocol]
      exact Leads.single rfl
    | recvUdp =>
      simp only [recvMachine, operations, recvUdp]
      split_ifs
      · exact leads_handle _ _
      · exact Leads.nil
    | recvWs scratch =>
      simp only [recvMachine, operations, recvWs]
      split_ifs
      · simp only [handled_append, handled_map_ws, List.nil_append, List.filterMap_append,
          protocol_map_ws]
        exact leads_handle _ _
      · exact Leads.nil

/-- The members that no operation changes. -/
def fixed (s : Protocol) : Bool × Bool × Bool := (s.callback, s.udp, s.ws)

theorem fixed_of_unsent {s s' : Protocol} (h : s'.unsent = s.unsent) : s'.fixed = s.fixed := by
  show s'.unsent.fixed = s.unsent.fixed
  rw [h]

theorem process_fixed (s : Protocol) (addr : ProtocolAddr) (pkt : Packet) :
    (s.process outOfRange addr pkt).1.fixed = s.fixed := by
  unfold process
  split_ifs
  · simp only
    split_ifs
    · rfl
    · refine (fixed_of_unsent (deliver_unsent _ pkt).1).trans ?_
      rfl
  · rfl
  · exact fixed_of_unsent (s.deliver_unsent pkt).1

theorem admission_fixed {s s₁ : Protocol} {addr : ProtocolAddr} {pkt : Packet}
    (h : s.admission outOfRange addr pkt = some s₁) : s₁.fixed = s.fixed := by
  unfold admission at h
  split_ifs at h
  obtain ⟨s', hs', rfl⟩ := Option.map_eq_some_iff.1 h
  have hfixed : s'.fixed = s.fixed := by
    unfold acceptCounter at hs'
    split_ifs at hs'
    all_goals
      obtain rfl := Option.some.inj hs'
      rfl
  split_ifs
  · exact hfixed
  · exact hfixed

theorem step_fixed (s : Protocol) (op : Op) : (step outOfRange s op).1.fixed = s.fixed := by
  cases op with
  | handleMsg addr pkt =>
    rw [step, handleMsg]
    split_ifs
    · rfl
    · cases hadmission : s.admission outOfRange addr pkt with
      | none => rfl
      | some s₁ => exact (process_fixed s₁ addr pkt).trans (admission_fixed hadmission)
  | send cmd obj => exact fixed_of_unsent (s.send_unsent cmd obj).1
  | sendMustarrive cmd params => exact fixed_of_unsent (s.sendMustarrive_unsent cmd params).1
  | resend uninit => exact fixed_of_unsent (s.resendEntries_unsent _ s.mustarriveQueue).1

theorem final_fixed (s : Protocol) (ops : List Op) :
    (final (step outOfRange) s ops).fixed = s.fixed := by
  induction ops generalizing s with
  | nil => rfl
  | cons op ops ih => exact (ih _).trans (step_fixed s op)

variable (outOfRange) in
/-- No step changes these members of the protocol object. -/
theorem recvMachine_fixed (s : RecvTask) (e : RecvEvent) :
    (recvMachine outOfRange s e).1.protocol.fixed = s.protocol.fixed := by
  have hleads := (protocolRun outOfRange).leads s e
  exact (congrArg fixed hleads.1).symm.trans (final_fixed _ _)

end ProtocolObject

/-! ## The datagrams -/

section Datagrams

variable {outOfRange : BinaryFloat → ℤ} {s : RecvTask}

/-- The calls of `handle_msg` with a packet of the UDP backend. -/
def udpCalls (es : List RecvEffect) : List (ProtocolAddr × Packet) :=
  (handled es).filter fun call => isUdp call.1

@[simp] theorem udpCalls_append (es fs : List RecvEffect) :
    udpCalls (es ++ fs) = udpCalls es ++ udpCalls fs := by
  rw [udpCalls, handled_append, List.filter_append]
  rfl

/-- The packets of the WebSocket backend come from its clients. -/
theorem handled_handle_ws (p : Protocol) (es : List WsEffect) :
    handled (handle outOfRange p (receivedWs es)).2 =
      ((messageOf es).bind fun m => (packetOf m.2).map fun pkt => (.ws m.1, pkt)).toList := by
  rw [receivedWs]
  cases messageOf es with
  | none => rfl
  | some m =>
    obtain ⟨fd, payload⟩ := m
    simp only [Option.bind_some, packetOf]
    match Json.parse payload with
    | .error fault => rfl
    | .ok none => rfl
    | .ok (some members) =>
      simp only [Except.map, Option.map_some, handle, handled_handleMsg, handled_map_protocol]
      rfl

theorem udpCalls_recvWs (s : RecvTask) (scratch : Bytes) :
    udpCalls (recvWs outOfRange s scratch).2 = [] := by
  rw [recvWs]
  split_ifs
  · rw [udpCalls, handled_append, handled_map_ws, List.nil_append, handled_handle_ws]
    cases messageOf (Ws.recvIter s.ws).2 with
    | none => rfl
    | some m =>
      rw [Option.bind_some]
      cases packetOf m.2 <;> rfl
  · rfl

/-- The UDP backend gives its packets an address of its own. -/
theorem result_recvIter (socket : DatagramSocket SockaddrIn UInt8) (buf : Bytes) :
    ∃ (r : Except Json.Fault (Option (List (Member Value)))) (ip : UInt32) (port : UInt16),
      (ProtBackendUdp.recvIter socket buf).result =
        r.map fun pkt => pkt.map fun obj => (obj, .udp ip port) := by
  rw [ProtBackendUdp.recvIter]
  split
  · exact ⟨.ok none, 0, 0, rfl⟩
  · split
    · exact ⟨.ok none, 0, 0, rfl⟩
    · exact ⟨_, _, _, rfl⟩

theorem isUdp_recvUdp {call : ProtocolAddr × Packet} (h : call ∈ handled (recvUdp outOfRange s).2) :
    isUdp call.1 = true := by
  rw [recvUdp] at h
  split_ifs at h
  · obtain ⟨r, ip, port, hresult⟩ := result_recvIter s.socket s.buf
    simp only [hresult] at h
    match r with
    | .error fault => exact absurd h List.not_mem_nil
    | .ok none => exact absurd h List.not_mem_nil
    | .ok (some members) =>
      simp only [Except.map, Option.map_some, handle, handled_handleMsg, handled_map_protocol,
        List.mem_singleton] at h
      rw [h]
      rfl
  · exact absurd h List.not_mem_nil

variable (outOfRange) in
/-- A call of `recv_iter` with a datagram. -/
theorem recvUdp_cons {d : Datagram SockaddrIn UInt8} {ds : List (Datagram SockaddrIn UInt8)}
    (hudp : s.protocol.udp = true) (hsocket : s.socket = ⟨d :: ds, none⟩) :
    (recvUdp outOfRange s).1.socket = ⟨ds, none⟩ ∧
      udpCalls (recvUdp outOfRange s).2 = (callOf d).toList := by
  obtain ⟨buf', hcall⟩ := recvIter_eq d ds s.buf
  rw [recvUdp, if_pos hudp, hsocket, hcall]
  refine ⟨rfl, ?_⟩
  simp only [callOf, packetOf]
  match Json.parse d.data with
  | .error fault => rfl
  | .ok none => rfl
  | .ok (some members) =>
    simp only [Except.map, Option.map_some, handle, udpCalls, handled_handleMsg,
      handled_map_protocol]
    rfl

variable (outOfRange) in
/-- A step takes datagrams from the front of the queue, and `handle_msg` is called with them. -/
theorem datagrams_step (hudp : s.protocol.udp = true) (herror : s.socket.error = none)
    (e : RecvEvent) : (recvMachine outOfRange s e).1.socket.error = none ∧
      ∃ taken, taken ++ (recvMachine outOfRange s e).1.socket.queue =
          s.socket.queue ++ datagrams [e] ∧
        udpCalls (recvMachine outOfRange s e).2 = taken.filterMap callOf := by
  have hquiet (hs : (recvMachine outOfRange s e).1.socket = s.socket) (he : datagrams [e] = [])
      (hcalls : udpCalls (recvMachine outOfRange s e).2 = []) :
      (recvMachine outOfRange s e).1.socket.error = none ∧
      ∃ taken, taken ++ (recvMachine outOfRange s e).1.socket.queue =
          s.socket.queue ++ datagrams [e] ∧
        udpCalls (recvMachine outOfRange s e).2 = taken.filterMap callOf :=
    ⟨hs ▸ herror, [], by rw [hs, he, List.append_nil]; rfl, hcalls⟩
  cases e with
  | datagram d => exact ⟨herror, [], rfl, rfl⟩
  | ws e => exact hquiet rfl rfl (by rw [recvMachine, udpCalls, handled_map_ws]; rfl)
  | sending o => exact hquiet rfl rfl (by rw [recvMachine, udpCalls, handled_map_protocol]; rfl)
  | recvWs scratch =>
    refine hquiet ?_ rfl (udpCalls_recvWs s scratch)
    rw [recvMachine, recvWs]
    split_ifs <;> rfl
  | recvUdp =>
    obtain ⟨queue, hsocket⟩ : ∃ queue, s.socket = ⟨queue, none⟩ :=
      ⟨s.socket.queue, by rw [← herror]⟩
    cases queue with
    | nil =>
      have hnil := recvIter_nil s.buf
      refine hquiet ?_ rfl ?_
      · rw [recvMachine, recvUdp, if_pos hudp, hsocket, hnil]
      · rw [recvMachine, recvUdp, if_pos hudp, hsocket, hnil]
        rfl
    | cons d ds =>
      obtain ⟨hs', hcalls⟩ := recvUdp_cons outOfRange hudp hsocket
      rw [recvMachine, hs']
      refine ⟨rfl, [d], by simp [datagrams, hsocket], ?_⟩
      rw [hcalls, List.filterMap_cons]
      cases callOf d <;> rfl

theorem ws_of_fixed {p p' : Protocol} (h : p'.fixed = p.fixed) : p'.ws = p.ws :=
  congrArg (fun fixed => fixed.2.2) h

end Datagrams

/-! ## The messages of a WebSocket client -/

section Messages

variable {outOfRange : BinaryFloat → ℤ} {s : RecvTask} {f : ℤ}

/-- The packets of a WebSocket client that `handle_msg` is called with. -/
def wsCalls (f : ℤ) (es : List RecvEffect) : List Packet :=
  (handled es).filterMap fun call => if call.1 = .ws f then some call.2 else none

@[simp] theorem wsCalls_append (es fs : List RecvEffect) :
    wsCalls f (es ++ fs) = wsCalls f es ++ wsCalls f fs := by
  rw [wsCalls, handled_append, List.filterMap_append]
  rfl

/-- What happens to the WebSocket backend, as long as there is one. -/
def RecvEvent.ws? : RecvEvent → Option WsEvent
  | .ws e => some e
  | .recvWs _ => some .recvIter
  | _ => none

/-- What a step does to the WebSocket backend. -/
def wsMoves (s : RecvTask) : RecvEvent → List WsEvent
  | .ws e => [e]
  | .recvWs _ => if s.protocol.ws then [.recvIter] else []
  | _ => []

theorem ws_handle (p : Protocol) (r : Received) :
    (handle outOfRange p r).2.filterMap RecvEffect.ws? = [] := by
  match r with
  | .error fault => rfl
  | .ok none => rfl
  | .ok (some (members, addr)) =>
    rw [handle, List.filterMap_cons_none rfl, ws_map_protocol]

variable (outOfRange) in
/-- **The WebSocket backend of the device** goes through a run of its own machine. -/
def wsRun : Simulation (recvMachine outOfRange) backend where
  part := RecvTask.ws
  moves := wsMoves
  seen := RecvEffect.ws?
  leads s e := by
    cases e with
    | datagram d => exact Leads.nil
    | ws e =>
      simp only [recvMachine, wsMoves, ws_map_ws]
      exact Leads.single rfl
    | sending o =>
      simp only [recvMachine, wsMoves, ws_map_protocol]
      exact Leads.nil
    | recvUdp =>
      simp only [recvMachine, wsMoves, recvUdp]
      split_ifs
      · rw [ws_handle]
        exact Leads.nil
      · exact Leads.nil
    | recvWs scratch =>
      simp only [recvMachine, wsMoves, recvWs]
      split_ifs
      · rw [List.filterMap_append, ws_map_ws, ws_handle, List.append_nil]
        exact Leads.single rfl
      · exact Leads.nil

/-- With a WebSocket backend, what happens to it is what the events say. -/
theorem wsRun_run (hws : s.protocol.ws = true) (es : List RecvEvent) :
    (wsRun outOfRange).run (trace (recvMachine outOfRange) s es) = es.filterMap RecvEvent.ws? := by
  induction es generalizing s with
  | nil => rfl
  | cons e es ih =>
    have hws' := (ws_of_fixed (recvMachine_fixed outOfRange s e)).trans hws
    have hmoves : wsMoves s e = (RecvEvent.ws? e).toList := by
      cases e with
      | recvWs scratch => exact if_pos hws
      | _ => rfl
    rw [trace_cons, Simulation.run_cons, ih hws']
    show wsMoves s e ++ _ = _
    rw [hmoves, List.filterMap_cons]
    cases RecvEvent.ws? e <;> rfl

theorem messageOf_eq_none {es : List WsEffect} (h : ∀ fd payload, .parse fd payload ∉ es) :
    messageOf es = none := by
  refine List.findSome?_eq_none_iff.2 fun e he => ?_
  cases e with
  | parse fd payload => exact absurd he (h fd payload)
  | _ => rfl

/-- **A call of `recv_iter` parses at most one message.** -/
theorem parsed_recvIter {b : Ws.Backend} (h : ∀ client ∈ b.clients, client.Waiting) (f : ℤ) :
    parsed f (Ws.recvIter b).2 =
      ((messageOf (Ws.recvIter b).2).bind fun m => if m.1 = f then some m.2 else none).toList := by
  have hspec := recvLoop_spec b.sockets h
  have hloop : ∀ fd payload, .parse fd payload ∉ (recvLoop b.sockets b.clients).effects := by
    intro fd payload hmem
    obtain ⟨fd', -, heq⟩ := hspec.effects _ hmem
    cases heq
  have hquiet {es : List WsEffect} (hes : ∀ fd payload, .parse fd payload ∉ es) :
      parsed f es = ((messageOf es).bind fun m => if m.1 = f then some m.2 else none).toList := by
    rw [parsed_eq_nil fun payload => hes f payload, messageOf_eq_none hes]
    rfl
  cases hfull : (recvLoop b.sockets b.clients).full with
  | none =>
    rw [recvIter_none hfull]
    exact hquiet hloop
  | some client =>
    rw [recvIter_some hfull]
    simp only [processClientFullyReceivedLocked]
    split_ifs with hclose
    · -- the client asks for the end of the connection
      refine hquiet fun fd payload hmem => ?_
      rcases List.mem_append.1 hmem with hmem | hmem
      · exact hloop fd payload hmem
      · rcases List.mem_cons.1 hmem with heq | hmem
        · cases heq
        · cases closeClientLocked_effects _ client.fd _ hmem
    · rw [parsed_append, parsed_eq_nil fun payload => hloop f payload, messageOf,
        List.findSome?_append]
      have hnone := messageOf_eq_none hloop
      rw [messageOf] at hnone
      rw [hnone]
      simp only [List.nil_append, Option.none_or, List.findSome?_cons, Option.bind_some, parsed,
        List.filterMap_cons]
      split_ifs <;> rfl

/-- The packets of a call of `recv_iter`. -/
theorem wsCalls_handle {b : Ws.Backend} (h : ∀ client ∈ b.clients, client.Waiting) (p : Protocol) :
    wsCalls f (handle outOfRange p (receivedWs (Ws.recvIter b).2)).2 =
      (parsed f (Ws.recvIter b).2).filterMap packetOf := by
  rw [wsCalls, handled_handle_ws, parsed_recvIter h]
  cases messageOf (Ws.recvIter b).2 with
  | none => rfl
  | some m =>
    obtain ⟨fd, payload⟩ := m
    simp only [Option.bind_some]
    by_cases hfd : fd = f
    · rw [if_pos hfd, Option.toList_some, List.filterMap_cons]
      cases packetOf payload <;> simp [hfd]
    · rw [if_neg hfd]
      cases packetOf payload <;> simp [hfd]

theorem wsCalls_eq_nil {es : List RecvEffect} (h : ∀ call ∈ handled es, call.1 ≠ .ws f) :
    wsCalls f es = [] :=
  List.filterMap_eq_nil_iff.2 fun call hcall => if_neg (h call hcall)

/-- A step: what is parsed of a client is given to `handle_msg`. -/
theorem wsCalls_step (hwaiting : ∀ client ∈ s.ws.clients, client.Waiting) (e : RecvEvent) :
    wsCalls f (recvMachine outOfRange s e).2 =
      (parsed f ((recvMachine outOfRange s e).2.filterMap RecvEffect.ws?)).filterMap packetOf := by
  cases e with
  | datagram d => rfl
  | ws e =>
    rw [recvMachine, ws_map_ws, parsed_backend e.2, wsCalls, handled_map_ws]
    rfl
  | sending o =>
    rw [recvMachine, ws_map_protocol, wsCalls, handled_map_protocol]
    rfl
  | recvUdp =>
    have hcalls : wsCalls f (recvUdp outOfRange s).2 = [] :=
      wsCalls_eq_nil fun call hcall heq => by
        have hudp := isUdp_recvUdp hcall
        rw [heq] at hudp
        cases hudp
    have hws : (recvUdp outOfRange s).2.filterMap RecvEffect.ws? = [] := by
      rw [recvUdp]
      split_ifs
      · exact ws_handle _ _
      · rfl
    rw [recvMachine, hcalls, hws]
    rfl
  | recvWs scratch =>
    rw [recvMachine, recvWs]
    split_ifs
    · rw [List.filterMap_append, ws_map_ws, ws_handle, List.append_nil, wsCalls_append,
        wsCalls_handle hwaiting, wsCalls, handled_map_ws]
      rfl
    · rfl

theorem waiting_of_final {b : Ws.Backend} (h : ∀ client ∈ b.clients, client.Waiting)
    (es : List WsEvent) : ∀ client ∈ (final backend b es).clients, client.Waiting := by
  induction es generalizing b with
  | nil => exact h
  | cons e es ih => exact ih (waiting_backend h e)

/-- **Along a run** `handle_msg` is called with what is parsed of the messages of a client. -/
theorem wsCalls_run (hwaiting : ∀ client ∈ s.ws.clients, client.Waiting) (es : List RecvEvent) :
    wsCalls f (outputs (recvMachine outOfRange) (trace (recvMachine outOfRange) s es)) =
      (parsed f ((outputs (recvMachine outOfRange)
        (trace (recvMachine outOfRange) s es)).filterMap RecvEffect.ws?)).filterMap packetOf := by
  induction es generalizing s with
  | nil => rfl
  | cons e es ih =>
    have hws : (recvMachine outOfRange s e).1.ws = final backend s.ws (wsMoves s e) :=
      ((wsRun outOfRange).leads s e).1.symm
    have hwaiting' : ∀ client ∈ (recvMachine outOfRange s e).1.ws.clients, client.Waiting :=
      hws ▸ waiting_of_final hwaiting _
    rw [trace_cons, outputs_cons, wsCalls_append, wsCalls_step hwaiting, ih hwaiting',
      List.filterMap_append, parsed_append, List.filterMap_append]

theorem ws_rounds (scratches : List Bytes) : (scratches.map RecvEvent.recvWs).filterMap
    RecvEvent.ws? = List.replicate scratches.length .recvIter := by
  induction scratches with
  | nil => rfl
  | cons scratch scratches ih => exact congrArg (WsEvent.recvIter :: ·) ih

section NewClient

variable (outOfRange) (ms : List Message) (es : List RecvEvent)

/-- A new client on `f`, behind what has been received of it. -/
def connected (f : ℤ) (es : List RecvEvent) : List RecvEvent := .ws ⟨.addClient f, by simp⟩ :: es

/-- What arrives on `f`. -/
def gotOn (s : RecvTask) (f : ℤ) (es : List RecvEvent) : Bytes :=
  (s.ws.sockets f).avail ++ arrived f (es.filterMap RecvEvent.ws?)

/-- What the WebSocket backend of the device does. -/
def wsEffects (s : RecvTask) (es : List RecvEvent) : List WsEffect :=
  (outputs (recvMachine outOfRange) (trace (recvMachine outOfRange) s es)).filterMap RecvEffect.ws?

/-- With a WebSocket backend, what it does is a run of the backend. -/
theorem wsEffects_eq (hws : s.protocol.ws = true) (es : List RecvEvent) :
    wsEffects outOfRange s es =
      outputs backend (trace backend s.ws (es.filterMap RecvEvent.ws?)) := by
  have hleads := ((wsRun outOfRange).leads_run s es).2
  rw [wsRun_run hws] at hleads
  exact hleads.symm

/-- Along a run the messages of a new client are parsed. -/
theorem parsed_messages (hws : s.protocol.ws = true)
    (hclients : ∀ client ∈ s.ws.clients, client.Waiting ∧ client.fd ≠ f)
    (hopen : (s.ws.sockets f).failed = false)
    (hkeeps : ∀ e ∈ es.filterMap RecvEvent.ws?, Keeps f e)
    (hstream : gotOn s f es <+: encodeAll ms) :
    let expected := (completed ms (gotOn s f es).length).map Message.payload
    parsed f (wsEffects outOfRange s (connected f es)) <+: expected ∧
      ∀ scratches : List Bytes,
        (final (recvMachine outOfRange) s (connected f es)).ws.waitingBytes ≤ scratches.length →
        parsed f (wsEffects outOfRange s (connected f es ++ scratches.map .recvWs)) =
          expected := by
  intro expected
  have hserves := serves_addClient (fun x hx => (hclients x hx).1)
    (fun x hx => (hclients x hx).2) hopen
  obtain ⟨hpre, hall⟩ := (follows_tracks f ms).connection (es.filterMap RecvEvent.ws?)
    (tracks_addClient ms hserves) hkeeps hstream
  have hes : (connected f es).filterMap RecvEvent.ws? =
      .addClient f :: es.filterMap RecvEvent.ws? := rfl
  have hrun := wsEffects_eq outOfRange (s := s) hws
  refine ⟨?_, fun scratches hlength => ?_⟩
  · rw [hrun, hes]
    exact hpre
  · have hfinal : (final (recvMachine outOfRange) s (connected f es)).ws =
        final backend s.ws (.addClient f :: es.filterMap RecvEvent.ws?) := by
      have hleads := ((wsRun outOfRange).leads_run s (connected f es)).1
      rw [wsRun_run hws] at hleads
      exact hleads.symm
    rw [hrun, List.filterMap_append, hes, ws_rounds]
    exact hall _ (hfinal ▸ hlength)

/-- Further rounds parse nothing but complete messages. -/
theorem parsed_rounds (hws : s.protocol.ws = true)
    (hclients : ∀ client ∈ s.ws.clients, client.Waiting ∧ client.fd ≠ f)
    (hopen : (s.ws.sockets f).failed = false)
    (hkeeps : ∀ e ∈ es.filterMap RecvEvent.ws?, Keeps f e)
    (hstream : gotOn s f es <+: encodeAll ms) (scratches : List Bytes) :
    parsed f (wsEffects outOfRange s (connected f es ++ scratches.map .recvWs)) <+:
      (completed ms (gotOn s f es).length).map Message.payload := by
  have hrounds : arrived f ((scratches.map RecvEvent.recvWs).filterMap RecvEvent.ws?) = [] := by
    rw [ws_rounds]
    simp [Ws.arrived]
  have hgot : gotOn s f (es ++ scratches.map .recvWs) = gotOn s f es := by
    rw [gotOn, List.filterMap_append, arrived_append, hrounds, List.append_nil]
    rfl
  have hkeeps' : ∀ e ∈ (es ++ scratches.map RecvEvent.recvWs).filterMap RecvEvent.ws?,
      Keeps f e := by
    intro e he
    rw [List.filterMap_append, ws_rounds] at he
    rcases List.mem_append.1 he with he | he
    · exact hkeeps e he
    · rw [List.eq_of_mem_replicate he]
      exact trivial
  have hparsed := (parsed_messages outOfRange ms (es ++ scratches.map .recvWs) hws hclients hopen
    hkeeps' (hgot ▸ hstream)).1
  rwa [hgot] at hparsed

/-- Along a run the messages of a new client are given to `handle_msg`. -/
theorem messages_run (hws : s.protocol.ws = true)
    (hclients : ∀ client ∈ s.ws.clients, client.Waiting ∧ client.fd ≠ f)
    (hopen : (s.ws.sockets f).failed = false)
    (hkeeps : ∀ e ∈ es.filterMap RecvEvent.ws?, Keeps f e)
    (hstream : gotOn s f es <+: encodeAll ms) :
    let expected := (completed ms (gotOn s f es).length).filterMap fun m => packetOf m.payload
    wsCalls f (outputs (recvMachine outOfRange)
        (trace (recvMachine outOfRange) s (connected f es))) <+: expected ∧
      ∀ scratches : List Bytes,
        (final (recvMachine outOfRange) s (connected f es)).ws.waitingBytes ≤ scratches.length →
        wsCalls f (outputs (recvMachine outOfRange) (trace (recvMachine outOfRange) s
          (connected f es ++ scratches.map .recvWs))) = expected := by
  intro expected
  have hwaiting : ∀ client ∈ s.ws.clients, client.Waiting := fun x hx => (hclients x hx).1
  obtain ⟨hpre, hall⟩ := parsed_messages outOfRange ms es hws hclients hopen
    hkeeps hstream
  have hexpected : expected =
      ((completed ms (gotOn s f es).length).map Message.payload).filterMap packetOf := by
    rw [List.filterMap_map]
    rfl
  refine ⟨?_, fun scratches hlength => ?_⟩
  · rw [wsCalls_run hwaiting, hexpected]
    exact hpre.filterMap packetOf
  · rw [wsCalls_run hwaiting, hexpected, ← hall scratches hlength]
    rfl

end NewClient

/-! ## Faults of a run -/

theorem fault_not_mem_map_protocol (fault : Json.Fault) (es : List Effect) :
    .fault fault ∉ es.map RecvEffect.protocol := by simp

theorem fault_not_mem_map_ws (fault : Json.Fault) (es : List WsEffect) :
    .fault fault ∉ es.map RecvEffect.ws := by simp

/-- A fault comes from `rbjson::parse`. -/
theorem fault_mem_handle {p : Protocol} {r : Received} {fault : Json.Fault}
    (h : .fault fault ∈ (handle outOfRange p r).2) : r = .error fault := by
  match r with
  | .error fault' =>
    obtain rfl := RecvEffect.fault.inj (List.mem_singleton.1 h)
    rfl
  | .ok none => exact absurd h List.not_mem_nil
  | .ok (some (members, addr)) =>
    rcases List.mem_cons.1 h with heq | hmem
    · cases heq
    · exact absurd hmem (fault_not_mem_map_protocol fault _)

theorem map_eq_error {α β : Type*} {r : Except Json.Fault α} {g : α → β} {fault : Json.Fault}
    (h : r.map g = .error fault) : r = .error fault := by
  cases r with
  | error fault' => exact congrArg Except.error (Except.error.inj h)
  | ok a => cases h

variable (outOfRange) in
/-- What waits after a step has waited before or has arrived. -/
theorem queue_step (herror : s.socket.error = none) (e : RecvEvent) :
    (recvMachine outOfRange s e).1.socket.error = none ∧
      ∀ d ∈ (recvMachine outOfRange s e).1.socket.queue, d ∈ s.socket.queue ++ datagrams [e] := by
  cases hudp : s.protocol.udp with
  | true =>
    obtain ⟨herror', taken, hqueue, -⟩ := datagrams_step outOfRange hudp herror e
    exact ⟨herror', fun d hd => hqueue ▸ List.mem_append_right _ hd⟩
  | false =>
    have hsame (hs : (recvMachine outOfRange s e).1.socket = s.socket) :
        (recvMachine outOfRange s e).1.socket.error = none ∧
          ∀ d ∈ (recvMachine outOfRange s e).1.socket.queue,
            d ∈ s.socket.queue ++ datagrams [e] :=
      ⟨hs ▸ herror, fun d hd => List.mem_append_left _ (hs ▸ hd)⟩
    cases e with
    | datagram d => exact ⟨herror, fun _ hd => hd⟩
    | ws e | sending o => exact hsame rfl
    | recvUdp =>
      refine hsame ?_
      rw [recvMachine, recvUdp, if_neg (by simp [hudp])]
    | recvWs scratch =>
      refine hsame ?_
      rw [recvMachine, recvWs]
      split_ifs <;> rfl

/-- A device before it has received anything. -/
def idleTask (p : Protocol) : RecvTask := ⟨p, ⟨[], none⟩, .start, List.replicate 64 0⟩

end Messages

end RbProtocol.Protocol
