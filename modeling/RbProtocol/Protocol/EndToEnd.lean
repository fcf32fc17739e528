import RbProtocol.Protocol.Controller
import RbProtocol.Protocol.RecvTask

/-!
# From the controller to the user callback

The packets of a controller arrive as texts. Whatever arrives of them, the user callback is called
with the very packets the controller has made texts of, in order: over UDP, where packets may be
lost (`callbacks_datagrams`), and over a WebSocket connection, where the bytes may be cut at any
place (`callbacks_messages`). Before and in between, other tasks of the device send what they like.
The device may have both backends, as long as nothing comes to the other one (`WsIdle`, `UdpIdle`).
-/

namespace RbProtocol.Protocol

open Library Machine Json ProtBackendUdp Ws

variable {outOfRange : BinaryFloat → ℤ} {s : RecvTask} {possess : Packet} {pkts : List Packet}

/-! ## From bytes to the user callback -/

variable (outOfRange) in
/-- The calls of the user callback in a run of the device. -/
def userCalls (s : RecvTask) (es : List RecvEvent) : List (Bytes × Packet) :=
  callbacks ((outputs (recvMachine outOfRange)
    (trace (recvMachine outOfRange) s es)).filterMap RecvEffect.protocol?)

variable (outOfRange) in
/-- The calls of `handle_msg` in a run of the device. -/
def handledIn (s : RecvTask) (es : List RecvEvent) : List (ProtocolAddr × Packet) :=
  handled (outputs (recvMachine outOfRange) (trace (recvMachine outOfRange) s es))

theorem handledIn_cons (e : RecvEvent) (es : List RecvEvent) :
    handledIn outOfRange s (e :: es) = handled (recvMachine outOfRange s e).2 ++
      handledIn outOfRange (recvMachine outOfRange s e).1 es := by
  rw [handledIn, trace_cons, outputs_cons, handled_append]
  rfl

theorem packetsOf_map_opOf (calls : List (ProtocolAddr × Packet)) :
    packetsOf (calls.map opOf) = calls.map Prod.snd := by
  induction calls with
  | nil => rfl
  | cons call calls ih => exact congrArg (call.2 :: ·) ih

theorem packetsOf_run (s : RecvTask) (es : List RecvEvent) :
    packetsOf ((protocolRun outOfRange).run (trace (recvMachine outOfRange) s es)) =
      (handledIn outOfRange s es).map Prod.snd := by
  induction es generalizing s with
  | nil => rfl
  | cons e es ih =>
    have hstep : packetsOf (operations outOfRange s e) =
        (handled (recvMachine outOfRange s e).2).map Prod.snd := by
      cases e with
      | sending o =>
        rw [recvMachine, handled_map_protocol]
        cases o <;> rfl
      | _ => exact packetsOf_map_opOf _
    have happend (ops₁ ops₂ : List Op) : packetsOf (ops₁ ++ ops₂) =
        packetsOf ops₁ ++ packetsOf ops₂ := List.filterMap_append
    rw [trace_cons, Simulation.run_cons, happend, ih, handledIn_cons, List.map_append, ← hstep]
    rfl

variable (outOfRange) in
/-- Every packet has an address of a backend. -/
theorem handled_ne_none (s : RecvTask) (e : RecvEvent) :
    ∀ call ∈ handled (recvMachine outOfRange s e).2, call.1 ≠ .none := by
  intro call hcall
  cases e with
  | datagram d => exact absurd hcall List.not_mem_nil
  | ws e =>
    rw [recvMachine, handled_map_ws] at hcall
    exact absurd hcall List.not_mem_nil
  | sending o =>
    rw [recvMachine, handled_map_protocol] at hcall
    exact absurd hcall List.not_mem_nil
  | recvUdp =>
    intro heq
    have hudp := isUdp_recvUdp hcall
    rw [heq] at hudp
    cases hudp
  | recvWs scratch =>
    rw [recvMachine, recvWs] at hcall
    split_ifs at hcall
    · rw [handled_append, handled_map_ws, List.nil_append, handled_handle_ws] at hcall
      obtain ⟨m, -, hm⟩ := Option.bind_eq_some_iff.1 (Option.mem_toList.1 hcall)
      obtain ⟨pkt, -, rfl⟩ := Option.map_eq_some_iff.1 hm
      exact fun heq => nomatch heq
    · exact absurd hcall List.not_mem_nil

theorem operations_ne_none (s : RecvTask) (es : List RecvEvent) (addr : ProtocolAddr)
    (pkt : Packet) (h : .handleMsg addr pkt ∈
      (protocolRun outOfRange).run (trace (recvMachine outOfRange) s es)) : addr ≠ .none := by
  induction es generalizing s with
  | nil => exact absurd h List.not_mem_nil
  | cons e es ih =>
    rw [trace_cons, Simulation.run_cons] at h
    rcases List.mem_append.1 h with h | h
    · have hmap {calls : List (ProtocolAddr × Packet)}
          (hmem : .handleMsg addr pkt ∈ calls.map opOf) : (addr, pkt) ∈ calls := by
        obtain ⟨call, hcall, heq⟩ := List.mem_map.1 hmem
        obtain ⟨rfl, rfl⟩ := Op.handleMsg.inj heq
        exact hcall
      cases e with
      | sending o =>
        have heq : Op.handleMsg addr pkt = o.op := List.mem_singleton.1 h
        cases o <;> cases heq
      | datagram d => exact handled_ne_none outOfRange s (.datagram d) _ (hmap h)
      | ws e => exact handled_ne_none outOfRange s (.ws e) _ (hmap h)
      | recvUdp => exact handled_ne_none outOfRange s .recvUdp _ (hmap h)
      | recvWs scratch => exact handled_ne_none outOfRange s (.recvWs scratch) _ (hmap h)
    · exact ih _ h

/-- When the packets of a run are those of a controller, the user callback is called with them. -/
theorem userCalls_eq (es : List RecvEvent) (hopen : Opening possess)
    (hpkts : WellNumbered outOfRange pkts) (hcallback : s.protocol.callback = true)
    (hhandled : (handledIn outOfRange s es).map Prod.snd <+: possess :: pkts) :
    userCalls outOfRange s es = ((handledIn outOfRange s es).map Prod.snd).map callWith := by
  have hleads := ((protocolRun outOfRange).leads_run s es).2
  have hrun := callbacks_session (s := s.protocol) hopen hpkts hcallback
    (operations_ne_none s es) (packetsOf_run s es ▸ hhandled)
  rw [packetsOf_run] at hrun
  rw [userCalls, ← hrun]
  exact congrArg callbacks hleads.symm

/-- A controller that loses packets is a controller. -/
theorem WellNumbered.sublist {pkts' : List Packet} (h : WellNumbered outOfRange pkts)
    (hsub : pkts'.Sublist pkts) : WellNumbered outOfRange pkts' where
  number p hp := h.number p (hsub.subset hp)
  counters := h.counters.sublist hsub
  noAck p hp := h.noAck p (hsub.subset hp)
  marks_nonneg f hf := h.marks_nonneg f ((hsub.filterMap _).subset hf)
  marks := h.marks.sublist (hsub.filterMap _)

/-- The packets can be read back from their texts. -/
def Legible (pkts : List Packet) : Prop :=
  ∀ pkt ∈ pkts, (Value.object pkt.members).Plain ∧ (Value.object pkt.members).tokenCount ≤ 64

theorem packetOf_str {pkt : Packet} (h : Legible [pkt]) :
    packetOf (pkt.str outOfRange) = some pkt := by
  obtain ⟨hplain, hcount⟩ := h pkt (List.mem_singleton_self _)
  rw [packetOf, parse_str_plain outOfRange hplain hcount]
  exact congrArg some (ofMembers_members pkt)

/-- The texts of packets are parsed to the packets. -/
theorem filterMap_packetOf_str (h : Legible pkts) :
    (pkts.map (Packet.str outOfRange)).filterMap packetOf = pkts := by
  induction pkts with
  | nil => rfl
  | cons pkt pkts ih =>
    have hpkt : Legible [pkt] := by
      intro p hp
      rw [List.mem_singleton.1 hp]
      exact h pkt List.mem_cons_self
    rw [List.map_cons, List.filterMap_cons_some (packetOf_str hpkt),
      ih fun p hp => h p (List.mem_cons_of_mem _ hp)]

/-! ### Over UDP -/

/-- Nothing comes over WebSocket: there is no client, and none is added. -/
structure WsIdle (s : RecvTask) (es : List RecvEvent) : Prop where
  clients : s.ws.clients = []
  adds : ∀ fd, .addClient fd ∉ es.filterMap RecvEvent.ws?

/-- Without clients the WebSocket backend does nothing. -/
theorem backend_idle {b : Ws.Backend} (h : b.clients = []) {e : WsEvent}
    (he : ∀ fd, e ≠ .addClient fd) : (backend b e).1.clients = [] ∧ (backend b e).2 = [] := by
  cases e with
  | accept | arrive | fail => exact ⟨h, rfl⟩
  | addClient fd => exact absurd rfl (he fd)
  | closeClient fd => simp [backend, closeClientLocked, h]
  | recvIter => simp [backend, Ws.recvIter, recvLoop, h]

variable (outOfRange) in
/-- A step without clients. -/
theorem WsIdle.step {e : RecvEvent} {es : List RecvEvent} (h : WsIdle s (e :: es)) :
    WsIdle (recvMachine outOfRange s e).1 es ∧
      (recvMachine outOfRange s e).2.filterMap RecvEffect.ws? = [] := by
  have hleads := (wsRun outOfRange).leads s e
  have hidle : (final backend s.ws (wsMoves s e)).clients = [] ∧
      outputs backend (trace backend s.ws (wsMoves s e)) = [] := by
    have hone (e' : WsEvent) (he' : ∀ fd, e' ≠ .addClient fd) :
        (final backend s.ws [e']).clients = [] ∧
          outputs backend (trace backend s.ws [e']) = [] := by
      obtain ⟨hclients, hquiet⟩ := backend_idle h.clients he'
      rw [final_cons, final_nil, trace_cons, trace_nil, outputs_cons, outputs_nil, hquiet]
      exact ⟨hclients, rfl⟩
    cases e with
    | ws e' =>
      refine hone e' fun fd heq => h.adds fd ?_
      rw [← heq]
      exact List.mem_cons_self
    | recvWs scratch =>
      rw [wsMoves]
      split_ifs
      · exact hone .recvIter fun _ heq => nomatch heq
      · exact ⟨h.clients, rfl⟩
    | _ => exact ⟨h.clients, rfl⟩
  refine ⟨⟨?_, fun fd hmem => h.adds fd ?_⟩, hleads.2.symm.trans hidle.2⟩
  · rw [← hidle.1]
    exact congrArg Ws.Backend.clients hleads.1.symm
  · exact ((List.sublist_cons_self e es).filterMap _).subset hmem

/-- What is handled without clients comes over UDP. -/
theorem WsIdle.udpCalls {e : RecvEvent} {es : List RecvEvent} (h : WsIdle s (e :: es)) :
    udpCalls (recvMachine outOfRange s e).2 = handled (recvMachine outOfRange s e).2 := by
  refine List.filter_eq_self.2 fun call hcall => ?_
  cases e with
  | datagram d => exact absurd hcall List.not_mem_nil
  | ws e =>
    rw [recvMachine, handled_map_ws] at hcall
    exact absurd hcall List.not_mem_nil
  | sending o =>
    rw [recvMachine, handled_map_protocol] at hcall
    exact absurd hcall List.not_mem_nil
  | recvUdp => exact isUdp_recvUdp hcall
  | recvWs scratch =>
    rw [recvMachine, recvWs] at hcall
    split_ifs at hcall
    · have hquiet : (Ws.recvIter s.ws).2 = [] :=
        (backend_idle (e := .recvIter) h.clients fun _ heq => nomatch heq).2
      rw [handled_append, handled_map_ws, List.nil_append, handled_handle_ws, hquiet] at hcall
      exact absurd hcall List.not_mem_nil
    · exact absurd hcall List.not_mem_nil

/-- Without clients all packets come over UDP, and no message is parsed. -/
theorem WsIdle.run {es : List RecvEvent} (h : WsIdle s es) :
    handledIn outOfRange s es = Protocol.udpCalls
        (outputs (recvMachine outOfRange) (trace (recvMachine outOfRange) s es)) ∧
      wsEffects outOfRange s es = [] := by
  induction es generalizing s with
  | nil => exact ⟨rfl, rfl⟩
  | cons e es ih =>
    obtain ⟨hnext, hquiet⟩ := h.step outOfRange
    obtain ⟨hhandled, heffects⟩ := ih hnext
    refine ⟨?_, ?_⟩
    · rw [handledIn_cons, trace_cons, outputs_cons, udpCalls_append, h.udpCalls, hhandled]
    · rw [wsEffects, trace_cons, outputs_cons, List.filterMap_append, hquiet]
      exact heffects

/-- Further rounds of the UDP backend. -/
theorem WsIdle.rounds {es : List RecvEvent} (h : WsIdle s es) (k : ℕ) :
    WsIdle s (es ++ List.replicate k .recvUdp) where
  clients := h.clients
  adds fd hmem := by
    rw [List.filterMap_append] at hmem
    rcases List.mem_append.1 hmem with hmem | hmem
    · exact h.adds fd hmem
    · obtain ⟨e, he, heq⟩ := List.mem_filterMap.1 hmem
      rw [List.eq_of_mem_replicate he] at heq
      cases heq

/-- `{"c":"possess","n":0}`. -/
def possessPacket : Packet :=
  ⟨[⟨[99], .string cmdPossess⟩, ⟨[110], .number (.finite 0)⟩], by decide +kernel⟩

/-- `{"c":"fire","f":4,"n":1}`. -/
def firePacket : Packet :=
  ⟨[⟨[99], .string (literal "fire")⟩, ⟨[102], .number (.finite 4)⟩, ⟨[110], .number (.finite 1)⟩],
    by decide +kernel⟩

theorem opening_possessPacket : Opening possessPacket :=
  ⟨by decide +kernel, by decide +kernel, by decide +kernel⟩

theorem numbered_firePacket : WellNumbered (fun _ => 0) [firePacket] where
  number pkt hpkt := by
    obtain rfl := List.mem_singleton.1 hpkt
    exact ⟨1, by decide +kernel, by decide⟩
  counters := List.pairwise_singleton _ _
  noAck := by decide +kernel
  marks_nonneg := by decide +kernel
  marks := by decide +kernel

theorem legible_firePacket : Legible [possessPacket, firePacket] := by
  intro pkt hpkt
  have hnumber (n : ℤ) (hn : |n| ≤ 2 ^ 24) : (Value.number (.finite n)).Plain := ⟨n, hn, rfl⟩
  have hstring (text : Bytes) (htext : PlainText text) : (Value.string text).Plain := htext
  rcases List.mem_cons.1 hpkt with rfl | hpkt
  · exact ⟨⟨possessPacket.wellFormed, ⟨by decide +kernel, hstring _ (by decide +kernel)⟩,
      ⟨by decide +kernel, hnumber 0 (by decide)⟩, trivial⟩, by decide +kernel⟩
  · obtain rfl := List.mem_singleton.1 hpkt
    exact ⟨⟨firePacket.wellFormed, ⟨by decide +kernel, hstring _ (by decide +kernel)⟩,
      ⟨by decide +kernel, hnumber 4 (by decide)⟩, ⟨by decide +kernel, hnumber 1 (by decide)⟩,
      trivial⟩, by decide +kernel⟩

/-- A device with both backends. -/
def receiverDevice : RecvTask := idleTask (init [] [] [] true true true)

/-- The clients that wait are all on the connection `f`. -/
def Alone (f : ℤ) (b : Ws.Backend) : Prop := ∀ client ∈ b.clients, client.Waiting ∧ client.fd = f

/-- No other client is added. -/
def AddsNone (f : ℤ) (e : WsEvent) : Prop := ∀ fd, e = .addClient fd → fd = f

variable {f : ℤ}

theorem Alone.next {b : Ws.Backend} (h : Alone f b) {e : WsEvent} (he : AddsNone f e) :
    Alone f (backend b e).1 := by
  have hwaiting : ∀ client ∈ b.clients, client.Waiting := fun x hx => (h x hx).1
  intro client hclient
  refine ⟨waiting_backend hwaiting e client hclient, ?_⟩
  cases e with
  | accept fd => exact (h client hclient).2
  | arrive fd bytes => exact (h client hclient).2
  | fail fd => exact (h client hclient).2
  | closeClient fd => exact (h client (List.eraseP_sublist.subset hclient)).2
  | addClient fd =>
    rcases List.mem_append.1 hclient with hclient | hclient
    · exact (h client hclient).2
    · obtain rfl := List.mem_singleton.1 hclient
      exact he fd rfl
  | recvIter =>
    have hmem := (recvIter_spec b).1.subset hclient
    have hfds := (recvLoop_spec b.sockets hwaiting).fds.subset (List.mem_map_of_mem hmem)
    obtain ⟨x, hx, hfd⟩ := List.mem_map.1 hfds
    exact hfd ▸ (h x hx).2

theorem Alone.final {b : Ws.Backend} (h : Alone f b) {es : List WsEvent}
    (hes : ∀ e ∈ es, AddsNone f e) : Alone f (Machine.final backend b es) := by
  induction es generalizing b with
  | nil => exact h
  | cons e es ih =>
    exact ih (h.next (hes e List.mem_cons_self)) fun e' he' => hes e' (List.mem_cons_of_mem _ he')

/-- A message that is parsed is one of the client. -/
theorem Alone.messageOf {b : Ws.Backend} (h : Alone f b) {fd : ℤ} {payload : Bytes}
    (hm : messageOf (Ws.recvIter b).2 = some (fd, payload)) : fd = f := by
  have hwaiting : ∀ client ∈ b.clients, client.Waiting := fun x hx => (h x hx).1
  have hspec := recvLoop_spec b.sockets hwaiting
  have hloop : ∀ fd payload, .parse fd payload ∉ (recvLoop b.sockets b.clients).effects := by
    intro fd payload hmem
    obtain ⟨fd', -, heq⟩ := hspec.effects _ hmem
    cases heq
  cases hfull : (recvLoop b.sockets b.clients).full with
  | none =>
    rw [recvIter_none hfull, messageOf_eq_none hloop] at hm
    cases hm
  | some client =>
    have hclient : client.fd = f := by
      obtain ⟨x, hx, hfd⟩ := List.mem_map.1
        (hspec.fds.subset (List.mem_map_of_mem (hspec.full client hfull).1))
      exact hfd ▸ (h x hx).2
    have hnone := messageOf_eq_none hloop
    rw [Protocol.messageOf] at hnone
    rw [recvIter_some hfull, Protocol.messageOf, List.findSome?_append, hnone,
      Option.none_or] at hm
    simp only [processClientFullyReceivedLocked] at hm
    split_ifs at hm
    · obtain ⟨l₁, e, l₂, hl, he, -⟩ := List.findSome?_eq_some_iff.1 hm
      have hmem : e ∈ (closeClientLockedGracefully
          ⟨(recvLoop b.sockets b.clients).clients, (recvLoop b.sockets b.clients).sockets⟩
            client.fd).2 := by rw [hl]; simp
      rcases List.mem_cons.1 hmem with rfl | hmem
      · cases he
      · obtain rfl := closeClientLocked_effects _ client.fd _ hmem
        cases he
    · obtain ⟨rfl, -⟩ := Prod.mk.inj (Option.some.inj hm)
      exact hclient

/-- Nothing comes over UDP: no datagram waits, and none arrives. -/
structure UdpIdle (s : RecvTask) (es : List RecvEvent) : Prop where
  socket : s.socket = ⟨[], none⟩
  arrives : datagrams es = []

variable (outOfRange) in
/-- A step without datagrams. -/
theorem UdpIdle.step {e : RecvEvent} {es : List RecvEvent} (h : UdpIdle s (e :: es)) :
    UdpIdle (recvMachine outOfRange s e).1 es := by
  have hsplit : datagrams [e] ++ datagrams es = [] :=
    (List.filterMap_append (l := [e])).symm.trans h.arrives
  obtain ⟨hnone, hrest⟩ := List.append_eq_nil_iff.1 hsplit
  obtain ⟨herror, hqueue⟩ := queue_step outOfRange (s := s) (by rw [h.socket]) e
  rw [h.socket, hnone, List.append_nil] at hqueue
  refine ⟨?_, hrest⟩
  rw [← herror, ← List.eq_nil_iff_forall_not_mem.2 fun d hd => List.not_mem_nil (hqueue d hd)]

variable (outOfRange) in
/-- A step of a device that receives from one WebSocket client. -/
theorem Alone.step (h : Alone f s.ws) (hsocket : s.socket = ⟨[], none⟩) (e : RecvEvent) :
    (handled (recvMachine outOfRange s e).2).map Prod.snd =
        wsCalls f (recvMachine outOfRange s e).2 ∧
      ∀ fault, .fault fault ∈ (recvMachine outOfRange s e).2 →
        ∃ payload ∈ parsed f ((recvMachine outOfRange s e).2.filterMap RecvEffect.ws?),
          Json.parse payload = .error fault := by
  have hwaiting : ∀ client ∈ s.ws.clients, client.Waiting := fun x hx => (h x hx).1
  cases e with
  | datagram d => exact ⟨rfl, fun fault hmem => absurd hmem List.not_mem_nil⟩
  | ws e =>
    rw [recvMachine, wsCalls, handled_map_ws]
    exact ⟨rfl, fun fault hmem => absurd hmem (fault_not_mem_map_ws fault _)⟩
  | sending o =>
    rw [recvMachine, wsCalls, handled_map_protocol]
    exact ⟨rfl, fun fault hmem => absurd hmem (fault_not_mem_map_protocol fault _)⟩
  | recvUdp =>
    rw [recvMachine, recvUdp, hsocket, recvIter_nil]
    split_ifs
    · exact ⟨rfl, fun fault hmem => absurd hmem List.not_mem_nil⟩
    · exact ⟨rfl, fun fault hmem => absurd hmem List.not_mem_nil⟩
  | recvWs scratch =>
    rw [recvMachine, recvWs]
    split_ifs
    · have hparsed := parsed_recvIter hwaiting f
      simp only [wsCalls, handled_append, handled_map_ws, List.nil_append, handled_handle_ws,
        List.filterMap_append, ws_map_ws, ws_handle, List.append_nil, hparsed]
      cases hm : Protocol.messageOf (Ws.recvIter s.ws).2 with
      | none =>
        refine ⟨rfl, fun fault hmem => ?_⟩
        rcases List.mem_append.1 hmem with hmem | hmem
        · exact absurd hmem (fault_not_mem_map_ws fault _)
        · rw [receivedWs, hm] at hmem
          exact absurd hmem List.not_mem_nil
      | some m =>
        obtain ⟨fd, payload⟩ := m
        obtain rfl := h.messageOf hm
        refine ⟨?_, fun fault hmem => ?_⟩
        · rw [Option.bind_some]
          cases packetOf payload <;> simp
        · rcases List.mem_append.1 hmem with hmem | hmem
          · exact absurd hmem (fault_not_mem_map_ws fault _)
          · have herror := fault_mem_handle hmem
            rw [receivedWs, hm] at herror
            exact ⟨payload, by simp, map_eq_error herror⟩
    · exact ⟨rfl, fun fault hmem => absurd hmem List.not_mem_nil⟩

variable (outOfRange) in
/-- A run of a device that receives from one WebSocket client. -/
theorem Alone.run (h : Alone f s.ws) {es : List RecvEvent} (hidle : UdpIdle s es)
    (hes : ∀ e ∈ es.filterMap RecvEvent.ws?, AddsNone f e) :
    (handledIn outOfRange s es).map Prod.snd =
        wsCalls f (outputs (recvMachine outOfRange) (trace (recvMachine outOfRange) s es)) ∧
      ∀ fault, .fault fault ∈
          outputs (recvMachine outOfRange) (trace (recvMachine outOfRange) s es) →
        ∃ payload ∈ parsed f (wsEffects outOfRange s es), Json.parse payload = .error fault := by
  induction es generalizing s with
  | nil => exact ⟨rfl, fun fault hmem => absurd hmem List.not_mem_nil⟩
  | cons e es ih =>
    obtain ⟨hcalls, hfault⟩ := h.step outOfRange hidle.socket e
    have hmoves : ∀ e' ∈ wsMoves s e, AddsNone f e' := by
      intro e' he'
      cases e with
      | ws e =>
        obtain rfl := List.mem_singleton.1 he'
        exact hes _ List.mem_cons_self
      | recvWs scratch =>
        rw [wsMoves] at he'
        split_ifs at he'
        · obtain rfl := List.mem_singleton.1 he'
          exact fun fd heq => nomatch heq
        · exact absurd he' List.not_mem_nil
      | _ => exact absurd he' List.not_mem_nil
    have hws : (recvMachine outOfRange s e).1.ws = Machine.final backend s.ws (wsMoves s e) :=
      ((wsRun outOfRange).leads s e).1.symm
    have halone : Alone f (recvMachine outOfRange s e).1.ws := hws ▸ h.final hmoves
    have hrest : ∀ e' ∈ es.filterMap RecvEvent.ws?, AddsNone f e' := fun e' he' =>
      hes e' (((List.sublist_cons_self e es).filterMap _).subset he')
    obtain ⟨hcalls', hfault'⟩ := ih halone (hidle.step outOfRange) hrest
    rw [handledIn_cons, List.map_append, trace_cons, outputs_cons, wsCalls_append, hcalls, hcalls']
    refine ⟨rfl, fun fault hmem => ?_⟩
    have heffects : wsEffects outOfRange s (e :: es) =
        (recvMachine outOfRange s e).2.filterMap RecvEffect.ws? ++
          wsEffects outOfRange (recvMachine outOfRange s e).1 es := by
      rw [wsEffects, trace_cons, outputs_cons, List.filterMap_append]
      rfl
    rw [heffects, parsed_append]
    rcases List.mem_append.1 hmem with hmem | hmem
    · obtain ⟨payload, hpayload, herror⟩ := hfault fault hmem
      exact ⟨payload, List.mem_append_left _ hpayload, herror⟩
    · obtain ⟨payload, hpayload, herror⟩ := hfault' fault hmem
      exact ⟨payload, List.mem_append_right _ hpayload, herror⟩

/-- The calls of the user callback when the messages are texts of a controller's packets. -/
theorem callbacks_payloads {ms : List Message} {es : List RecvEvent} (hopen : Opening possess)
    (hpkts : WellNumbered outOfRange pkts) (hcallback : s.protocol.callback = true)
    (hidle : UdpIdle s es) (hws : s.protocol.ws = true) (hclients : s.ws.clients = [])
    (hsocket : (s.ws.sockets f).failed = false)
    (hkeeps : ∀ e ∈ es.filterMap RecvEvent.ws?, Keeps f e ∧ AddsNone f e)
    (hparse : ∀ m ∈ ms, ∀ fault, Json.parse m.payload ≠ .error fault)
    (hread : (ms.map Message.payload).filterMap packetOf = possess :: pkts)
    (hstream : gotOn s f es <+: encodeAll ms) :
    (∀ (scratches : List Bytes) fault, .fault fault ∉ outputs (recvMachine outOfRange)
        (trace (recvMachine outOfRange) s (connected f es ++ scratches.map .recvWs))) ∧
      userCalls outOfRange s (connected f es) <+: (possess :: pkts).map callWith ∧
      (gotOn s f es = encodeAll ms → ∀ scratches : List Bytes,
        (final (recvMachine outOfRange) s (connected f es)).ws.waitingBytes ≤ scratches.length →
        userCalls outOfRange s (connected f es ++ scratches.map .recvWs) =
          (possess :: pkts).map callWith) := by
  have hnone : ∀ client ∈ s.ws.clients, client.Waiting ∧ client.fd ≠ f := by simp [hclients]
  have halone : Alone f s.ws := by simp [Alone, hclients]
  have hkeeps' : ∀ e ∈ es.filterMap RecvEvent.ws?, Keeps f e := fun e he => (hkeeps e he).1
  have hadds : ∀ e ∈ (connected f es).filterMap RecvEvent.ws?, AddsNone f e := by
    intro e he
    rcases List.mem_cons.1 he with rfl | he
    · exact fun fd heq => (WsEvent.addClient.inj heq).symm
    · exact (hkeeps e he).2
  have hadds' (scratches : List Bytes) : ∀ e ∈ (connected f es ++
      scratches.map RecvEvent.recvWs).filterMap RecvEvent.ws?, AddsNone f e := by
    intro e he
    rw [List.filterMap_append, ws_rounds] at he
    rcases List.mem_append.1 he with he | he
    · exact hadds e he
    · rw [List.eq_of_mem_replicate he]
      exact fun fd heq => nomatch heq
  have hidle' (scratches : List Bytes) :
      UdpIdle s (connected f es ++ scratches.map .recvWs) := by
    refine ⟨hidle.socket, ?_⟩
    have hrounds : datagrams (scratches.map RecvEvent.recvWs) = [] :=
      List.filterMap_eq_nil_iff.2 fun e he => by
        obtain ⟨scratch, -, rfl⟩ := List.mem_map.1 he
        rfl
    have hfirst : datagrams (connected f es) = [] := hidle.arrives
    calc datagrams (connected f es ++ scratches.map RecvEvent.recvWs)
        _ = datagrams (connected f es) ++ datagrams (scratches.map RecvEvent.recvWs) :=
          List.filterMap_append
        _ = [] := by rw [hfirst, hrounds, List.append_nil]
  have hconnected : UdpIdle s (connected f es) := ⟨hidle.socket, hidle.arrives⟩
  obtain ⟨hpre, hall⟩ := messages_run outOfRange ms es hws hnone hsocket hkeeps' hstream
  -- the complete messages are the first ones
  have hcompleted : completed ms (gotOn s f es).length <+: ms := by
    rw [completed_eq]
    exact completeUnits_initial Message.encode ms _
  have hpackets : (completed ms (gotOn s f es).length).filterMap (fun m => packetOf m.payload) =
      ((completed ms (gotOn s f es).length).map Message.payload).filterMap packetOf := by
    rw [List.filterMap_map]
    rfl
  rw [hpackets] at hpre hall
  obtain ⟨hhandled, -⟩ := halone.run outOfRange hconnected hadds
  refine ⟨fun scratches fault hmem => ?_, ?_, fun hcomplete scratches hlength => ?_⟩
  · obtain ⟨payload, hpayload, herror⟩ :=
      (halone.run outOfRange (hidle' scratches) (hadds' scratches)).2 fault hmem
    have hparsed := parsed_rounds outOfRange ms es hws hnone hsocket hkeeps' hstream scratches
    obtain ⟨m, hm, rfl⟩ := List.mem_map.1 (hparsed.subset hpayload)
    exact hparse m (hcompleted.subset hm) fault herror
  · have hfirst := hpre.trans (hread ▸ (hcompleted.map Message.payload).filterMap packetOf)
    rw [userCalls_eq _ hopen hpkts hcallback (hhandled ▸ hfirst), hhandled]
    exact hfirst.map callWith
  · have hlast : ((completed ms (gotOn s f es).length).map Message.payload).filterMap packetOf =
        possess :: pkts := by
      rw [completed_eq, completeUnits_of_le Message.encode (congrArg List.length hcomplete).ge,
        hread]
    obtain ⟨hhandled', -⟩ := halone.run outOfRange (hidle' scratches) (hadds' scratches)
    rw [hall scratches hlength, hlast] at hhandled'
    rw [userCalls_eq _ hopen hpkts hcallback (hhandled' ▸ List.prefix_rfl), hhandled']

/-- **Control over WebSocket.** Of the packets of a controller on a new connection, however their
messages are cut into frames and their bytes into pieces, the user callback is called with an
initial part of those that have arrived, and with all of them when all have arrived and `recv_task`
goes on for as many rounds as there are bytes that wait. No text is read beyond its tokens. -/
theorem callbacks_messages (outOfRange : BinaryFloat → ℤ) (s : RecvTask) (possess : Packet)
    (pkts : List Packet) (f : ℤ) (ms : List Message) (es : List RecvEvent)
    (hopen : Opening possess) (hpkts : WellNumbered outOfRange pkts)
    (hlegible : Legible (possess :: pkts)) (hcallback : s.protocol.callback = true)
    (hidle : UdpIdle s es) (hws : s.protocol.ws = true) (hclients : s.ws.clients = [])
    (hsocket : (s.ws.sockets f).failed = false)
    (hkeeps : ∀ e ∈ es.filterMap RecvEvent.ws?, Keeps f e ∧ AddsNone f e)
    (hms : ms.map Message.payload = (possess :: pkts).map (Packet.str outOfRange))
    (hstream : gotOn s f es <+: encodeAll ms) :
    (∀ (scratches : List Bytes) fault, .fault fault ∉ outputs (recvMachine outOfRange)
        (trace (recvMachine outOfRange) s (connected f es ++ scratches.map .recvWs))) ∧
      userCalls outOfRange s (connected f es) <+: (possess :: pkts).map callWith ∧
      (gotOn s f es = encodeAll ms → ∀ scratches : List Bytes,
        (final (recvMachine outOfRange) s (connected f es)).ws.waitingBytes ≤ scratches.length →
        userCalls outOfRange s (connected f es ++ scratches.map .recvWs) =
          (possess :: pkts).map callWith) := by
  refine callbacks_payloads hopen hpkts hcallback hidle hws hclients hsocket hkeeps ?_ ?_ hstream
  · intro m hm fault hfault
    obtain ⟨pkt, hpkt, htext⟩ := List.mem_map.1 (hms ▸ List.mem_map_of_mem hm)
    obtain ⟨hplain, hcount⟩ := hlegible pkt hpkt
    rw [← htext, parse_str_plain outOfRange hplain hcount] at hfault
    cases hfault
  · rw [hms, filterMap_packetOf_str hlegible]

theorem length_dataOf_one (fragment : Fragment) (h : fragment.data.length ≤ 125) :
    (dataOf [fragment]).length ≤ maxPayload := by
  have hdata : dataOf [fragment] = fragment.data := List.append_nil _
  rw [hdata, maxPayload]
  exact h.trans (by norm_num)

/-- A message of one frame. -/
def oneFrame (text : Bytes) (h : text.length ≤ 125) : Message :=
  let fragment : Fragment := ⟨[1, 2, 3, 4], text, false, rfl, h⟩
  ⟨[fragment], List.cons_ne_nil _ _, length_dataOf_one fragment h⟩

/-- `possess` and a must-arrive packet, in one frame each. -/
def fireMessages : List Message :=
  [oneFrame (possessPacket.str fun _ => 0) (by decide +kernel),
    oneFrame (firePacket.str fun _ => 0) (by decide +kernel)]

theorem gotOn_fireMessages : gotOn receiverDevice 4
    [.ws ⟨.arrive 4 (encodeAll fireMessages), by simp⟩] = encodeAll fireMessages :=
  List.append_nil _

theorem callbacks_messages_fire :
    userCalls (fun _ => 0) receiverDevice
        (connected 4 [.ws ⟨.arrive 4 (encodeAll fireMessages), by simp⟩] ++
          (List.replicate 100 []).map .recvWs) =
      [possessPacket, firePacket].map callWith :=
  (callbacks_messages (fun _ => 0) receiverDevice possessPacket [firePacket] 4
    fireMessages _ opening_possessPacket numbered_firePacket legible_firePacket rfl ⟨rfl, rfl⟩ rfl
    rfl rfl
    (by simp [RecvEvent.ws?, Keeps, AddsNone]) (by decide +kernel)
    (by rw [gotOn_fireMessages])).2.2 gotOn_fireMessages (List.replicate 100 [])
    (by decide +kernel)

end RbProtocol.Protocol
