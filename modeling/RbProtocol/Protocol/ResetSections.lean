import RbProtocol.Library.Lists
import RbProtocol.Protocol.MustArrive

/-!
# The possession reset among the senders

`handle_msg` resets the ids of the must-arrive packets in a section of `m_mutex`, and clears their
queue in a later section of `m_mustarrive_mutex`; `send_mustarrive` takes an id and puts its packet
into the queue in one section of `m_mustarrive_mutex`, in which it locks `m_mutex` for the counter.
A step is one such section of one task: `recv_task`, which alone calls `handle_msg`, any number of
others that call `send_mustarrive`, or the resend round of `send_task`. A step that would have to
wait changes nothing. The sections of a call taken one after the other do what the call does
(`leads_handleMsg`, `leads_sendMustarrive`).

* `queueStep_step`: what a section does to the queue and to the ids.
* `reset_atomic`: the ids of the queue stay distinct, and a reset discards no packet whose id was
  taken after it, as long as no id is taken between the two sections of a reset and the ids do not
  come round while packets are pending.
-/

namespace RbProtocol.Protocol

open Library Json

/-! ## The sections -/

/-- Where `recv_task` is in `handle_msg`. -/
inductive HandleMsgPlace
  | outside
  /-- Before the section that resets the ids. -/
  | resetIds (addr : ProtocolAddr) (pkt : Packet)
  /-- Before the section that clears the queue. -/
  | clearQueue (addr : ProtocolAddr) (pkt : Packet)
  /-- After the reset. -/
  | process (addr : ProtocolAddr) (pkt : Packet)
  /-- After the must-arrive numbers. -/
  | deliver (pkt : Packet)
  /-- After the log message of a possession. -/
  | callback (pkt : Packet)

/-- Where a task is in `send_mustarrive`. -/
inductive IssuePlace
  | outside
  /-- With the address, before it locks `m_mustarrive_mutex`. -/
  | takeId (addr : ProtocolAddr) (cmd : Bytes) (params : Packet)
  /-- With `m_mustarrive_mutex`, before `send(addr, params)`. -/
  | send (addr : ProtocolAddr) (params : Packet)

/-- The protocol object and its tasks; `none` is `recv_task`. -/
structure ResetSystem (T : Type*) where
  protocol : Protocol
  handleMsg : HandleMsgPlace
  issuing : Option T → IssuePlace
  mustarriveMutex : Bool

/-- What can happen next. -/
inductive Section (T : Type*)
  /-- `recv_task` calls `handle_msg`, up to the test of the possession. -/
  | receive (addr : ProtocolAddr) (pkt : Packet)
  /-- The next section of `handle_msg`. -/
  | handleMsg
  /-- A task calls `send_mustarrive`, up to `get_possessed_addr`. -/
  | call (t : Option T) (cmd : Bytes) (params : Packet)
  /-- The next section of `send_mustarrive`. -/
  | sendMustarrive (t : Option T)
  /-- A resend round of `send_task`. -/
  | resend (uninit : ProtocolAddr)

namespace ResetSystem

variable {T : Type*}

/-- The tasks before the first call. -/
def initial (owner name desc : Bytes) (callback udp ws : Bool) : ResetSystem T where
  protocol := .init owner name desc callback udp ws
  handleMsg := .outside
  issuing _ := .outside
  mustarriveMutex := false

/-- The section of the possession reset with `m_mutex`. -/
def resetIds (s : Protocol) (addr : ProtocolAddr) : Protocol :=
  { s.reset addr with mustarriveQueue := s.mustarriveQueue }

/-- `send_mustarrive` up to the queue. The entry and what is sent share their object. -/
def takeId (s : Protocol) (cmd : Bytes) (params : Packet) : Protocol × Packet :=
  let id := s.mustarriveE
  let params := (params.set keyC (.string cmd)).set keyE (intNumber id.toNat)
  ({ s with mustarriveE := id + 1, mustarriveQueue := s.mustarriveQueue ++ [⟨params, id, 0⟩] },
    params)

/-- `send(addr, params)` in `send_mustarrive`: the object of the last entry gets its counter. -/
def sendLast (s : Protocol) (addr : ProtocolAddr) (params : Packet) : Protocol × QueueItem :=
  let r := s.sendTo addr params
  ({ r.1 with
      mustarriveQueue := s.mustarriveQueue.modify (s.mustarriveQueue.length - 1) fun it =>
        { it with pkt := r.2.pkt } },
    r.2)

section Step

variable [DecidableEq T] (outOfRange : BinaryFloat → ℤ) (sys : ResetSystem T)

/-- A task with the address of the possession, or without one. -/
def enter (t : Option T) (cmd : Bytes) (params : Packet) : ResetSystem T :=
  { sys with
    issuing := Function.update sys.issuing t <|
      if sys.protocol.isPossessed then .takeId sys.protocol.possessedAddr cmd params
      else .outside }

/-- `recv_task` is in no call. -/
def idle : Bool :=
  match sys.handleMsg, sys.issuing none with
  | .outside, .outside => true
  | _, _ => false

/-- `handle_msg` up to the test of the possession. -/
def receive (addr : ProtocolAddr) (pkt : Packet) : ResetSystem T × List Effect :=
  if sys.idle then
    if command pkt = cmdDiscover then (sys, [.enqueue ⟨addr, sys.protocol.found⟩])
    else if pkt.contains keyN then
      match sys.protocol.acceptCounter (int32 (pkt.getInt outOfRange keyN))
        (command pkt = cmdPossess) with
      | some s =>
        ({ sys with
            protocol := s
            handleMsg := if s.isReset pkt then .resetIds addr pkt else .process addr pkt }, [])
      | none => (sys, [])
    else (sys, [])
  else (sys, [])

/-- The must-arrive numbers `f` and `e`. -/
def processNumbers (addr : ProtocolAddr) (pkt : Packet) : ResetSystem T × List Effect :=
  if pkt.contains keyF then
    let ack := sys.protocol.sendTo addr (response (command pkt) (pkt.getInt outOfRange keyF))
    let f := int32 (pkt.getInt outOfRange keyF)
    if ack.1.isRepeated f then
      ({ sys with protocol := ack.1, handleMsg := .outside }, [.enqueue ack.2])
    else
      ({ sys with protocol := { ack.1 with mustarriveF := .ofInt f }, handleMsg := .deliver pkt },
        [.enqueue ack.2])
  else if pkt.contains keyE then
    if sys.mustarriveMutex then (sys, [])
    else
      let e := UInt32.ofInt (pkt.getInt outOfRange keyE)
      ({ sys with
          protocol := { sys.protocol with
            mustarriveQueue := removeEntry sys.protocol.mustarriveQueue e }
          handleMsg := .outside }, [])
  else ({ sys with handleMsg := .deliver pkt }, [])

/-- The next section of `handle_msg`. -/
def handleMsgSection : ResetSystem T × List Effect :=
  match sys.handleMsg with
  | .outside => (sys, [])
  | .resetIds addr pkt =>
    ({ sys with
        protocol := resetIds sys.protocol addr
        handleMsg := .clearQueue addr pkt }, [])
  | .clearQueue addr pkt =>
    if sys.mustarriveMutex then (sys, [])
    else
      ({ sys with
          protocol := { sys.protocol with mustarriveQueue := [] }
          handleMsg := .process addr pkt }, [])
  | .process addr pkt => sys.processNumbers outOfRange addr pkt
  | .deliver pkt =>
    let sys := { sys with handleMsg := .callback pkt }
    (if command pkt = cmdPossess then
      sys.enter none cmdLog (Packet.empty.set keyMsg (.string sys.protocol.possessedText))
    else sys, [])
  | .callback pkt =>
    match sys.issuing none with
    | .outside =>
      ({ sys with handleMsg := .outside },
        if sys.protocol.callback then [.callback (command pkt) pkt] else [])
    | _ => (sys, [])

/-- The next section of `send_mustarrive`. -/
def sendMustarriveSection (t : Option T) : ResetSystem T × List Effect :=
  match sys.issuing t with
  | .outside => (sys, [])
  | .takeId addr cmd params =>
    if sys.mustarriveMutex then (sys, [])
    else
      let r := takeId sys.protocol cmd params
      ({ sys with
          protocol := r.1
          issuing := Function.update sys.issuing t (.send addr r.2)
          mustarriveMutex := true }, [])
  | .send addr params =>
    let r := sendLast sys.protocol addr params
    ({ sys with
        protocol := r.1
        issuing := Function.update sys.issuing t .outside
        mustarriveMutex := false }, [.enqueue r.2])

/-- A task can call `send_mustarrive`; `recv_task` does so in the user callback, at the end of
`handle_msg`. -/
def canCall (t : Option T) : Bool :=
  match t, sys.issuing t with
  | none, _ => sys.idle
  | some _, .outside => true
  | some _, _ => false

/-- A step of the tasks. -/
def step : Machine (ResetSystem T) (Section T) Effect
  | sys, .receive addr pkt => sys.receive outOfRange addr pkt
  | sys, .handleMsg => sys.handleMsgSection outOfRange
  | sys, .call t cmd params => (if sys.canCall t then sys.enter t cmd params else sys, [])
  | sys, .sendMustarrive t => sys.sendMustarriveSection t
  | sys, .resend uninit =>
    if sys.mustarriveMutex then (sys, [])
    else
      let r := sys.protocol.resendMustarriveLocked uninit
      ({ sys with protocol := r.1 }, r.2)

end Step

/-! ## Calls without other tasks between their sections -/

section Whole

variable {outOfRange : BinaryFloat → ℤ} {sys : ResetSystem T}

theorem idle_iff : sys.idle = true ↔ sys.handleMsg = .outside ∧ sys.issuing none = .outside := by
  unfold idle
  cases sys.handleMsg <;> cases sys.issuing none <;> simp

theorem sendLast_takeId (s : Protocol) (cmd : Bytes) (params : Packet) :
    sendLast (takeId s cmd params).1 s.possessedAddr (takeId s cmd params).2 =
      s.sendEntry cmd params := by
  unfold sendLast takeId sendEntry
  simp only [List.length_append, List.length_singleton, Nat.add_sub_cancel]
  rw [modify_length_append]
  rfl

variable [DecidableEq T]

theorem step_outside {t : Option T} (ht : sys.issuing t = .outside) :
    step outOfRange sys (.sendMustarrive t) = (sys, []) := by
  rw [step, sendMustarriveSection, ht]

/-- The sections of `send_mustarrive` behind its call. -/
theorem leads_enter {t : Option T} (ht : sys.issuing t = .outside)
    (hmutex : sys.mustarriveMutex = false) (cmd : Bytes) (params : Packet) :
    (step outOfRange).Leads (sys.enter t cmd params) [.sendMustarrive t, .sendMustarrive t]
      { sys with protocol := (sys.protocol.sendMustarrive cmd params).1 }
      (sys.protocol.sendMustarrive cmd params).2.1 := by
  obtain ⟨s, place, issuing, mutex⟩ := sys
  obtain rfl : mutex = false := hmutex
  have hself : Function.update issuing t .outside = issuing := by
    rw [← (ht : issuing t = .outside), Function.update_eq_self]
  by_cases hposs : s.isPossessed = true
  · have hentry := sendLast_takeId s cmd params
    simp [Machine.Leads, step, enter, sendMustarriveSection, hposs, sendMustarrive, hentry, hself]
  · have henter : enter ⟨s, place, issuing, false⟩ t cmd params = ⟨s, place, issuing, false⟩ := by
      simp [enter, hposs, hself]
    have hstep := @step_outside T outOfRange ⟨s, place, issuing, false⟩ _ t ht
    rw [sendMustarrive, if_neg hposs, henter]
    exact .silent hstep (.silent hstep .nil)

/-- **`send_mustarrive`, its sections taken one after the other.** -/
theorem leads_sendMustarrive {t : T} (ht : sys.issuing (some t) = .outside)
    (hmutex : sys.mustarriveMutex = false) (cmd : Bytes) (params : Packet) :
    (step outOfRange).Leads sys
      [.call (some t) cmd params, .sendMustarrive (some t), .sendMustarrive (some t)]
      { sys with protocol := (sys.protocol.sendMustarrive cmd params).1 }
      (sys.protocol.sendMustarrive cmd params).2.1 := by
  have hcall : step outOfRange sys (.call (some t) cmd params) =
      (sys.enter (some t) cmd params, []) := by
    simp [step, canCall, ht]
  exact .silent hcall (leads_enter ht hmutex cmd params)

/-- The sections of `handle_msg` after the must-arrive numbers. -/
theorem leads_deliver {pkt : Packet} (hplace : sys.handleMsg = .deliver pkt)
    (hnone : sys.issuing none = .outside) (hmutex : sys.mustarriveMutex = false) :
    (step outOfRange).Leads sys
      [.handleMsg, .sendMustarrive none, .sendMustarrive none, .handleMsg]
      { sys with protocol := (sys.protocol.deliver pkt).1, handleMsg := .outside }
      (sys.protocol.deliver pkt).2 := by
  have hcallback : ∀ s : Protocol, (step outOfRange).Leads
      { sys with protocol := s, handleMsg := .callback pkt } [.handleMsg]
      { sys with protocol := s, handleMsg := .outside }
      (if s.callback then [.callback (command pkt) pkt] else []) := by
    intro s
    apply Machine.Leads.single
    rw [step, handleMsgSection]
    simp only [hnone]
  have hdeliver : step outOfRange sys .handleMsg =
      (if command pkt = cmdPossess then
        ({ sys with handleMsg := .callback pkt } : ResetSystem T).enter none cmdLog
          (Packet.empty.set keyMsg (.string sys.protocol.possessedText))
      else { sys with handleMsg := .callback pkt }, []) := by
    rw [step, handleMsgSection, hplace]
  unfold deliver sendLog
  by_cases hcmd : command pkt = cmdPossess
  · rw [if_pos hcmd] at hdeliver ⊢
    have hlog := @leads_enter T outOfRange { sys with handleMsg := .callback pkt } _ none hnone
      hmutex cmdLog (Packet.empty.set keyMsg (.string sys.protocol.possessedText))
    have hsame := (receiver_of_unsent outOfRange (sys.protocol.sendMustarrive_unsent cmdLog
      (Packet.empty.set keyMsg (.string sys.protocol.possessedText)))).1
    have hboth := hlog.append (hcallback _)
    rw [(Prod.mk.inj hsame).2] at hboth
    exact .silent hdeliver hboth
  · rw [if_neg hcmd] at hdeliver ⊢
    have hstep := @step_outside T outOfRange { sys with handleMsg := .callback pkt } _ none hnone
    exact .silent hdeliver (.silent hstep (.silent hstep (hcallback sys.protocol)))

/-- The sections of `handle_msg` after the reset. -/
def processSections : List (Section T) :=
  [.handleMsg, .handleMsg, .sendMustarrive none, .sendMustarrive none, .handleMsg]

/-- The sections of `handle_msg`. -/
def handleMsgSections (s : Protocol) (addr : ProtocolAddr) (pkt : Packet) : List (Section T) :=
  .receive addr pkt :: ((if s.isReset pkt then [.handleMsg, .handleMsg] else []) ++ processSections)

/-- Outside of `handle_msg` its sections do nothing. -/
theorem leads_idle (hidle : sys.idle = true) {secs : List (Section T)}
    (hsecs : ∀ sec ∈ secs, sec = .handleMsg ∨ sec = .sendMustarrive none) :
    (step outOfRange).Leads sys secs sys [] := by
  obtain ⟨hplace, hnone⟩ := idle_iff.1 hidle
  induction secs with
  | nil => exact .nil
  | cons sec secs ih =>
    obtain ⟨hsec, hsecs⟩ := List.forall_mem_cons.1 hsecs
    refine .silent ?_ (ih hsecs)
    rcases hsec with rfl | rfl
    · rw [step, handleMsgSection, hplace]
    · exact step_outside hnone

theorem leads_process {addr : ProtocolAddr} {pkt : Packet}
    (hplace : sys.handleMsg = .process addr pkt) (hnone : sys.issuing none = .outside)
    (hmutex : sys.mustarriveMutex = false) :
    (step outOfRange).Leads sys processSections
      { sys with
        protocol := (sys.protocol.process outOfRange addr pkt).1
        handleMsg := .outside }
      (sys.protocol.process outOfRange addr pkt).2 := by
  have hstep : step outOfRange sys .handleMsg = sys.processNumbers outOfRange addr pkt := by
    rw [step, handleMsgSection, hplace]
  have hend : ∀ s : Protocol, (step outOfRange).Leads
      { sys with protocol := s, handleMsg := .outside }
      [.handleMsg, .sendMustarrive none, .sendMustarrive none, .handleMsg]
      { sys with protocol := s, handleMsg := .outside } [] := by
    intro s
    apply leads_idle
    · exact idle_iff.2 ⟨rfl, hnone⟩
    · simp
  have hdeliver : ∀ s : Protocol, (step outOfRange).Leads
      { sys with protocol := s, handleMsg := .deliver pkt }
      [.handleMsg, .sendMustarrive none, .sendMustarrive none, .handleMsg]
      { sys with protocol := (s.deliver pkt).1, handleMsg := .outside } (s.deliver pkt).2 :=
    fun s => leads_deliver rfl hnone hmutex
  unfold processNumbers at hstep
  unfold process processSections
  by_cases hf : pkt.contains keyF = true
  · simp only [if_pos hf] at hstep ⊢
    split_ifs at hstep ⊢
    · exact .cons hstep (hend _)
    · exact .cons hstep (hdeliver _)
  · have hfree : ¬sys.mustarriveMutex = true := by rw [hmutex]; exact Bool.false_ne_true
    rw [if_neg hf, if_neg hfree] at hstep
    rw [if_neg hf]
    split_ifs at hstep ⊢
    · exact .silent hstep (hend _)
    · exact .silent hstep (hdeliver sys.protocol)

/-- **`handle_msg`, its sections taken one after the other.** -/
theorem leads_handleMsg (hidle : sys.idle = true) (hmutex : sys.mustarriveMutex = false)
    (addr : ProtocolAddr) (pkt : Packet) :
    (step outOfRange).Leads sys (handleMsgSections sys.protocol addr pkt)
      { sys with protocol := (sys.protocol.handleMsg outOfRange addr pkt).1 }
      (sys.protocol.handleMsg outOfRange addr pkt).2 := by
  obtain ⟨hplace, hnone⟩ := idle_iff.1 hidle
  have hstep : step outOfRange sys (.receive addr pkt) = sys.receive outOfRange addr pkt := rfl
  have hrest : (step outOfRange).Leads sys
      ((if sys.protocol.isReset pkt then [.handleMsg, .handleMsg] else []) ++ processSections)
      sys [] := by
    apply leads_idle hidle
    unfold processSections
    split_ifs <;> simp
  unfold receive at hstep
  rw [if_pos hidle] at hstep
  unfold handleMsgSections Protocol.handleMsg admission
  by_cases hdiscover : command pkt = cmdDiscover
  · rw [if_pos hdiscover] at hstep ⊢
    exact .cons hstep hrest
  rw [if_neg hdiscover] at hstep ⊢
  by_cases hcounter : pkt.contains keyN = true
  · rw [if_pos hcounter] at hstep ⊢
    cases haccept : sys.protocol.acceptCounter (int32 (pkt.getInt outOfRange keyN))
      (command pkt = cmdPossess) with
    | none =>
      rw [haccept] at hstep
      exact .silent hstep hrest
    | some s =>
      rw [haccept] at hstep
      have haddr : s.possessedAddr = sys.protocol.possessedAddr :=
        congrArg (fun m => m.2.2) (acceptCounter_sender haccept)
      have hreset : s.isReset pkt = sys.protocol.isReset pkt := by rw [isReset, isReset, haddr]
      rw [← hreset, hplace]
      refine .silent hstep ?_
      simp only [Option.map_some]
      split_ifs
      · have hids : step outOfRange { sys with protocol := s, handleMsg := .resetIds addr pkt }
            .handleMsg =
            ({ sys with protocol := resetIds s addr, handleMsg := .clearQueue addr pkt }, []) :=
          rfl
        have hclear : step outOfRange
            { sys with protocol := resetIds s addr, handleMsg := .clearQueue addr pkt } .handleMsg =
            ({ sys with protocol := s.reset addr, handleMsg := .process addr pkt }, []) := by
          rw [step, handleMsgSection]
          simp only [hmutex]
          rfl
        exact .silent hids (.silent hclear (leads_process rfl hnone hmutex))
      · exact leads_process rfl hnone hmutex
  · rw [if_neg hcounter] at hstep ⊢
    exact .silent hstep hrest

end Whole

/-! ## What a section does to the queue -/

/-- `recv_task` is between the two sections of the reset. -/
def betweenSections (sys : ResetSystem T) : Bool :=
  match sys.handleMsg with
  | .clearQueue _ _ => true
  | _ => false

/-- The section resets the ids. -/
def resetsIds (sys : ResetSystem T) : Section T → Bool
  | .handleMsg =>
    match sys.handleMsg with
    | .resetIds _ _ => true
    | _ => false
  | _ => false

/-- The section clears the queue. -/
def clearsQueue (sys : ResetSystem T) : Section T → Bool
  | .handleMsg => sys.betweenSections && !sys.mustarriveMutex
  | _ => false

/-- The section takes an id. -/
def takesId (sys : ResetSystem T) : Section T → Bool
  | .sendMustarrive t =>
    match sys.issuing t with
    | .takeId _ _ _ => !sys.mustarriveMutex
    | _ => false
  | _ => false

/-- The id that the section acknowledges. -/
def acknowledges (outOfRange : BinaryFloat → ℤ) (sys : ResetSystem T) :
    Section T → Option UInt32
  | .handleMsg =>
    match sys.handleMsg with
    | .process _ pkt =>
      if !pkt.contains keyF && pkt.contains keyE && !sys.mustarriveMutex then
        some (.ofInt (pkt.getInt outOfRange keyE))
      else none
    | _ => none
  | _ => none

/-- The section is a resend round. -/
def resends (sys : ResetSystem T) : Section T → Bool
  | .resend _ => !sys.mustarriveMutex
  | _ => false

/-- The ids of the queue. -/
def ids (sys : ResetSystem T) : List UInt32 := sys.protocol.mustarriveQueue.map MustArrive.id

section Queue

variable {α : Type*} (outOfRange : BinaryFloat → ℤ)

/-- What stays of a list with one element for each entry of the queue. -/
def kept (sys : ResetSystem T) (sec : Section T) (l : List α) : List α :=
  if sys.clearsQueue sec then []
  else if sys.resends sec then
    ((sys.protocol.mustarriveQueue.zip l).filter fun p => (countAttempt p.1).isSome).map Prod.snd
  else
    match sys.acknowledges outOfRange sec with
    | some e => l.eraseIdx (sys.protocol.mustarriveQueue.findIdx fun it => it.id = e)
    | none => l

variable {outOfRange} {sys : ResetSystem T} {sec : Section T}

theorem kept_sublist {l : List α} : (sys.kept outOfRange sec l).Sublist l := by
  unfold kept
  split_ifs
  · exact List.nil_sublist l
  · exact (List.filter_sublist.map Prod.snd).trans (map_snd_zip_sublist _ _)
  · split
    · exact List.eraseIdx_sublist l _
    · exact List.Sublist.refl l

theorem ids_resendEntries (addr : ProtocolAddr) (s : Protocol) (its : List MustArrive) :
    (resendEntries addr s its).2.1.map MustArrive.id =
      ((its.zip (its.map MustArrive.id)).filter fun p => (countAttempt p.1).isSome).map
        Prod.snd := by
  induction its generalizing s with
  | nil => rfl
  | cons it its ih =>
    have hfirst : (countAttempt (s.retransmit addr it).2.1).toList.map MustArrive.id =
        if (countAttempt it).isSome then [it.id] else [] := by
      unfold retransmit countAttempt
      split <;> split_ifs <;> simp_all
    rw [resendEntries, List.map_append, ih, hfirst, List.map_cons, List.zip_cons_cons,
      List.filter_cons]
    split_ifs <;> rfl

theorem ids_modify (queue : List MustArrive) (i : ℕ) (pkt : Packet) :
    (queue.modify i fun it => { it with pkt := pkt }).map MustArrive.id =
      queue.map MustArrive.id := by
  induction queue generalizing i with
  | nil => cases i <;> rfl
  | cons it queue ih =>
    cases i with
    | zero => rfl
    | succ i => exact congrArg (it.id :: ·) (ih i)

/-- A section that leaves the queue and the ids alone. -/
structure Quiet (outOfRange : BinaryFloat → ℤ) (sys : ResetSystem T) (sec : Section T) : Prop where
  clears : sys.clearsQueue sec = false
  resends : sys.resends sec = false
  acknowledges : sys.acknowledges outOfRange sec = none
  takesId : sys.takesId sec = false
  resetsIds : sys.resetsIds sec = false

/-- The queue and the ids before and after a section. -/
structure QueueStep (outOfRange : BinaryFloat → ℤ) (sys sys' : ResetSystem T) (sec : Section T) :
    Prop where
  ids : sys'.ids = sys.kept outOfRange sec sys.ids ++
    if sys.takesId sec then [sys.protocol.mustarriveE] else []
  mustarriveE : sys'.protocol.mustarriveE =
    if sys.resetsIds sec then 0
    else if sys.takesId sec then sys.protocol.mustarriveE + 1
    else sys.protocol.mustarriveE
  between : sys'.betweenSections =
    (sys.resetsIds sec || sys.betweenSections && !sys.clearsQueue sec)

theorem Quiet.queueStep (h : Quiet outOfRange sys sec) {sys' : ResetSystem T}
    (hids : sys'.ids = sys.ids) (hid : sys'.protocol.mustarriveE = sys.protocol.mustarriveE)
    (hbetween : sys'.betweenSections = sys.betweenSections) :
    QueueStep outOfRange sys sys' sec := by
  obtain ⟨hclears, hresends, hacknowledges, htakes, hresets⟩ := h
  constructor
  · rw [kept, hclears, hresends, hacknowledges, htakes, hids]
    exact (List.append_nil _).symm
  · rw [hresets, htakes, hid]
    rfl
  · rw [hresets, hclears, hbetween, Bool.false_or, Bool.not_false, Bool.and_true]

theorem queueStep_receive (addr : ProtocolAddr) (pkt : Packet) :
    QueueStep outOfRange sys (sys.receive outOfRange addr pkt).1 (.receive addr pkt) := by
  have hquiet : Quiet outOfRange sys (.receive addr pkt) := ⟨rfl, rfl, rfl, rfl, rfl⟩
  unfold receive
  by_cases hidle : sys.idle = true
  · obtain ⟨houtside, -⟩ := idle_iff.1 hidle
    rw [if_pos hidle]
    split_ifs
    · exact hquiet.queueStep rfl rfl rfl
    · split
      · rename_i s haccept
        have hsender := acceptCounter_sender haccept
        refine hquiet.queueStep (congrArg (fun m => m.1.map MustArrive.id) hsender)
          (congrArg (fun m => m.2.1) hsender) ?_
        unfold betweenSections
        rw [houtside]
        simp only
        split_ifs <;> rfl
      · exact hquiet.queueStep rfl rfl rfl
    · exact hquiet.queueStep rfl rfl rfl
  · rw [if_neg hidle]
    exact hquiet.queueStep rfl rfl rfl

theorem queueStep_processNumbers {addr : ProtocolAddr} {pkt : Packet}
    (hplace : sys.handleMsg = .process addr pkt) :
    QueueStep outOfRange sys (sys.processNumbers outOfRange addr pkt).1 .handleMsg := by
  have hbetween : sys.betweenSections = false := by rw [betweenSections, hplace]
  have hclears : sys.clearsQueue .handleMsg = false := by rw [clearsQueue, hbetween]; rfl
  have hresets : sys.resetsIds .handleMsg = false := by rw [resetsIds, hplace]
  have hquiet : (pkt.contains keyF = true ∨ pkt.contains keyE = false ∨
      sys.mustarriveMutex = true) → Quiet outOfRange sys .handleMsg := by
    refine fun hno => ⟨hclears, rfl, ?_, rfl, hresets⟩
    simp only [acknowledges, hplace]
    rw [if_neg]
    rcases hno with hno | hno | hno <;> simp [hno]
  unfold processNumbers
  by_cases hf : pkt.contains keyF = true
  · rw [if_pos hf]
    simp only
    split_ifs
    · exact (hquiet (.inl hf)).queueStep rfl rfl hbetween.symm
    · exact (hquiet (.inl hf)).queueStep rfl rfl hbetween.symm
  · rw [if_neg hf]
    split_ifs with he hmutex
    · exact (hquiet (.inr (.inr hmutex))).queueStep rfl rfl rfl
    · have hack : sys.acknowledges outOfRange .handleMsg =
          some (.ofInt (pkt.getInt outOfRange keyE)) := by
        simp only [acknowledges, hplace]
        rw [if_pos (by simp [hf, he, hmutex])]
      constructor
      · rw [kept, hclears, hack]
        exact (map_eraseP_eq_eraseIdx _ _ _).trans (List.append_nil _).symm
      · rw [hresets]
        rfl
      · rw [hresets, hbetween]
        rfl
    · refine (hquiet (.inr (.inl ?_))).queueStep rfl rfl hbetween.symm
      exact Bool.not_eq_true _ ▸ he

/-- Before the resets and after the must-arrive numbers `handle_msg` is quiet. -/
theorem quiet_handleMsg (hbetween : sys.betweenSections = false)
    (hresets : sys.resetsIds .handleMsg = false)
    (hprocess : ∀ addr pkt, sys.handleMsg ≠ .process addr pkt) :
    Quiet outOfRange sys .handleMsg := by
  refine ⟨by rw [clearsQueue, hbetween]; rfl, rfl, ?_, rfl, hresets⟩
  rw [acknowledges]
  cases hplace : sys.handleMsg with
  | process addr pkt => exact absurd hplace (hprocess addr pkt)
  | _ => rfl

theorem queueStep_handleMsgSection [DecidableEq T] :
    QueueStep outOfRange sys (sys.handleMsgSection outOfRange).1 .handleMsg := by
  unfold handleMsgSection
  cases hplace : sys.handleMsg with
  | outside =>
    apply Quiet.queueStep _ rfl rfl rfl
    apply quiet_handleMsg <;> simp [betweenSections, resetsIds, hplace]
  | resetIds addr pkt =>
    have hbetween : sys.betweenSections = false := by rw [betweenSections, hplace]
    have hresets : sys.resetsIds .handleMsg = true := by rw [resetsIds, hplace]
    constructor
    · rw [kept, clearsQueue, hbetween, acknowledges, hplace]
      exact (List.append_nil _).symm
    · rw [hresets]
      rfl
    · rw [hresets]
      rfl
  | clearQueue addr pkt =>
    have hbetween : sys.betweenSections = true := by rw [betweenSections, hplace]
    have hresets : sys.resetsIds .handleMsg = false := by rw [resetsIds, hplace]
    simp only
    split_ifs with hmutex
    · apply Quiet.queueStep _ rfl rfl rfl
      refine ⟨?_, rfl, ?_, rfl, hresets⟩
      · rw [clearsQueue, hbetween, hmutex]
        rfl
      · rw [acknowledges, hplace]
    · have hclears : sys.clearsQueue .handleMsg = true := by
        rw [clearsQueue, hbetween, Bool.eq_false_iff.2 hmutex]
        rfl
      constructor
      · rw [kept, hclears]
        rfl
      · rw [hresets]
        rfl
      · rw [hresets, hbetween, hclears]
        rfl
  | process addr pkt => exact queueStep_processNumbers hplace
  | deliver pkt =>
    have hbetween : sys.betweenSections = false := by rw [betweenSections, hplace]
    have hquiet : Quiet outOfRange sys .handleMsg := by
      apply quiet_handleMsg <;> simp [betweenSections, resetsIds, hplace]
    simp only
    split_ifs
    · exact hquiet.queueStep rfl rfl hbetween.symm
    · exact hquiet.queueStep rfl rfl hbetween.symm
  | callback pkt =>
    have hbetween : sys.betweenSections = false := by rw [betweenSections, hplace]
    have hquiet : Quiet outOfRange sys .handleMsg := by
      apply quiet_handleMsg <;> simp [betweenSections, resetsIds, hplace]
    simp only
    split
    · exact hquiet.queueStep rfl rfl hbetween.symm
    · exact hquiet.queueStep rfl rfl rfl

theorem queueStep_sendMustarriveSection [DecidableEq T] (t : Option T) :
    QueueStep outOfRange sys (sys.sendMustarriveSection t).1 (.sendMustarrive t) := by
  unfold sendMustarriveSection
  cases hplace : sys.issuing t with
  | outside =>
    apply Quiet.queueStep _ rfl rfl rfl
    exact ⟨rfl, rfl, rfl, by rw [takesId, hplace], rfl⟩
  | takeId addr cmd params =>
    simp only
    split_ifs with hmutex
    · apply Quiet.queueStep _ rfl rfl rfl
      exact ⟨rfl, rfl, rfl, by simp [takesId, hplace, hmutex], rfl⟩
    · have htakes : sys.takesId (.sendMustarrive t) = true := by simp [takesId, hplace, hmutex]
      constructor
      · rw [htakes]
        exact List.map_append
      · rw [htakes]
        rfl
      · exact (Bool.and_true _).symm
  | send addr params =>
    have hquiet : Quiet outOfRange sys (.sendMustarrive t) :=
      ⟨rfl, rfl, rfl, by rw [takesId, hplace], rfl⟩
    exact hquiet.queueStep (ids_modify _ _ _) rfl rfl

/-- **What a section does to the queue and to the ids.** -/
theorem queueStep_step [DecidableEq T] (sys : ResetSystem T) (sec : Section T) :
    QueueStep outOfRange sys (step outOfRange sys sec).1 sec := by
  cases sec with
  | receive addr pkt => exact queueStep_receive addr pkt
  | handleMsg => exact queueStep_handleMsgSection
  | call t cmd params =>
    have hquiet : Quiet outOfRange sys (.call t cmd params) := ⟨rfl, rfl, rfl, rfl, rfl⟩
    unfold step
    simp only
    split_ifs
    · exact hquiet.queueStep rfl rfl rfl
    · exact hquiet.queueStep rfl rfl rfl
  | sendMustarrive t => exact queueStep_sendMustarriveSection t
  | resend uninit =>
    unfold step
    simp only
    split_ifs with hmutex
    · apply Quiet.queueStep _ rfl rfl rfl
      exact ⟨rfl, by simp [ResetSystem.resends, hmutex], rfl, rfl, rfl⟩
    · have hresends : sys.resends (.resend uninit) = true := by
        simp [ResetSystem.resends, hmutex]
      constructor
      · rw [kept, hresends]
        exact (ids_resendEntries _ _ _).trans (List.append_nil _).symm
      · exact congrArg (fun m => m.2.1) (resendEntries_sender sys.protocol _ _).1
      · exact (Bool.and_true _).symm

end Queue

/-! ## The history of the queue -/

/-- The number of steps so far, the last reset of the ids, and the step in which the id of each
entry of the queue was taken. -/
structure History where
  now : ℕ
  resetAt : ℕ
  takenAt : List ℕ

variable (outOfRange : BinaryFloat → ℤ)

/-- The history after one more section. -/
def History.next (h : History) (c : ResetSystem T × Section T) : History where
  now := h.now + 1
  resetAt := if c.1.resetsIds c.2 then h.now else h.resetAt
  takenAt := c.1.kept outOfRange c.2 h.takenAt ++ if c.1.takesId c.2 then [h.now] else []

/-- The history of a run. -/
def history (t : List (ResetSystem T × Section T)) : History :=
  t.foldl (History.next outOfRange) ⟨0, 0, []⟩

/-- No id is taken between the two sections of a reset, and none is taken when the next id is 0 and
packets are pending: the ids have come round. -/
def Undisturbed (sys : ResetSystem T) (sec : Section T) : Prop :=
  sys.takesId sec = true →
    sys.betweenSections = false ∧ (sys.protocol.mustarriveE = 0 → sys.protocol.mustarriveQueue = [])

instance (sys : ResetSystem T) (sec : Section T) : Decidable (Undisturbed sys sec) :=
  inferInstanceAs (Decidable (_ → _ ∧ (_ → _)))

/-- What holds in every state of a run. -/
structure Atomic (sys : ResetSystem T) (h : History) : Prop where
  nodup : sys.ids.Nodup
  below : sys.betweenSections = false → sys.protocol.mustarriveE = 0 ∨
    ∀ id ∈ sys.ids, id < sys.protocol.mustarriveE
  past : ∀ k ∈ h.takenAt, k < h.now
  taken : sys.betweenSections = true → ∀ k ∈ h.takenAt, k < h.resetAt

section Run

variable {outOfRange} {sys : ResetSystem T} {sec : Section T} {h : History}

/-- A section that takes an id resets nothing. -/
theorem resetsIds_of_takesId (htakes : sys.takesId sec = true) : sys.resetsIds sec = false := by
  cases sec with
  | sendMustarrive t => rfl
  | _ => cases htakes

/-- The next id is new. -/
theorem Atomic.fresh (hatomic : Atomic sys h) (hbetween : sys.betweenSections = false)
    (hround : sys.protocol.mustarriveE = 0 → sys.protocol.mustarriveQueue = []) :
    sys.protocol.mustarriveE ∉ sys.ids := by
  intro hmem
  rcases hatomic.below hbetween with hzero | hbelow
  · rw [ids, hround hzero] at hmem
    cases hmem
  · exact absurd (hbelow _ hmem) (UInt32.lt_irrefl _)

/-- The ids of the queue are below the one after the next, unless the ids come round. -/
theorem Atomic.below_succ (hatomic : Atomic sys h) (hbetween : sys.betweenSections = false)
    (hround : sys.protocol.mustarriveE = 0 → sys.protocol.mustarriveQueue = []) :
    sys.protocol.mustarriveE + 1 = 0 ∨
      ∀ id ∈ sys.ids ++ [sys.protocol.mustarriveE], id < sys.protocol.mustarriveE + 1 := by
  by_cases hlast : sys.protocol.mustarriveE + 1 = 0
  · exact .inl hlast
  · refine .inr fun id hid => ?_
    have hnext : (sys.protocol.mustarriveE + 1).toNat = sys.protocol.mustarriveE.toNat + 1 := by
      rw [← UInt32.toNat_inj, UInt32.toNat_add] at hlast
      rw [UInt32.toNat_add]
      change ¬(sys.protocol.mustarriveE.toNat + 1) % 2 ^ 32 = 0 at hlast
      change (sys.protocol.mustarriveE.toNat + 1) % 2 ^ 32 = _
      have hbound := sys.protocol.mustarriveE.toNat_lt
      omega
    rw [UInt32.lt_iff_toNat_lt, hnext]
    rcases List.mem_append.1 hid with hid | hid
    · rcases hatomic.below hbetween with hzero | hbelow
      · rw [ids, hround hzero] at hid
        cases hid
      · exact Nat.lt_succ_of_lt (UInt32.lt_iff_toNat_lt.1 (hbelow id hid))
    · obtain rfl := List.mem_singleton.1 hid
      exact Nat.lt_succ_self _

/-- **Each section that takes no id at the wrong time keeps the reset atomic.** -/
theorem Atomic.step [DecidableEq T] (hatomic : Atomic sys h)
    (hundisturbed : Undisturbed sys sec) :
    Atomic (step outOfRange sys sec).1 (h.next outOfRange (sys, sec)) := by
  obtain ⟨hids, hid, hbetween⟩ := @queueStep_step T outOfRange _ sys sec
  have hsub : (sys.kept outOfRange sec sys.ids).Sublist sys.ids := kept_sublist
  have hsub' : (sys.kept outOfRange sec h.takenAt).Sublist h.takenAt := kept_sublist
  by_cases htakes : sys.takesId sec = true
  · obtain ⟨hno, hround⟩ := hundisturbed htakes
    rw [if_pos htakes] at hids
    rw [resetsIds_of_takesId htakes, if_neg Bool.false_ne_true, if_pos htakes] at hid
    rw [resetsIds_of_takesId htakes, hno] at hbetween
    constructor
    · rw [hids]
      refine List.Nodup.append (hatomic.nodup.sublist hsub) (List.nodup_singleton _) ?_
      rw [List.disjoint_singleton]
      exact fun hmem => hatomic.fresh hno hround (hsub.subset hmem)
    · intro _
      rw [hid, hids]
      refine (hatomic.below_succ hno hround).imp_right fun hbelow id hmem => hbelow id ?_
      exact (hsub.append_right _).subset hmem
    · intro k hk
      rw [History.next, if_pos htakes] at hk
      rcases List.mem_append.1 hk with hk | hk
      · exact Nat.lt_succ_of_lt (hatomic.past k (hsub'.subset hk))
      · obtain rfl := List.mem_singleton.1 hk
        exact Nat.lt_succ_self _
    · intro hafter
      rw [hbetween] at hafter
      cases hafter
  · rw [if_neg htakes, List.append_nil] at hids
    rw [if_neg htakes] at hid
    have htaken : (h.next outOfRange (sys, sec)).takenAt = sys.kept outOfRange sec h.takenAt := by
      rw [History.next, if_neg htakes, List.append_nil]
    constructor
    · rw [hids]
      exact hatomic.nodup.sublist hsub
    · intro hafter
      rw [hids, hid]
      by_cases hresets : sys.resetsIds sec = true
      · exact .inl (if_pos hresets)
      · rw [if_neg hresets]
        rw [hbetween, Bool.eq_false_iff.2 hresets, Bool.false_or] at hafter
        by_cases hclears : sys.clearsQueue sec = true
        · rw [kept, if_pos hclears]
          exact .inr fun id hmem => absurd hmem List.not_mem_nil
        · rw [Bool.eq_false_iff.2 hclears, Bool.not_false, Bool.and_true] at hafter
          exact (hatomic.below hafter).imp_right fun hbelow id hmem => hbelow id (hsub.subset hmem)
    · intro k hk
      rw [htaken] at hk
      exact Nat.lt_succ_of_lt (hatomic.past k (hsub'.subset hk))
    · intro hafter k hk
      rw [htaken] at hk
      rw [hbetween] at hafter
      change k < if sys.resetsIds sec then h.now else h.resetAt
      by_cases hresets : sys.resetsIds sec = true
      · rw [if_pos hresets]
        exact hatomic.past k (hsub'.subset hk)
      · rw [if_neg hresets]
        rw [Bool.eq_false_iff.2 hresets, Bool.false_or, Bool.and_eq_true] at hafter
        exact hatomic.taken hafter.1 k (hsub'.subset hk)

variable [DecidableEq T]

/-- **An undisturbed run keeps the reset atomic.** -/
theorem Atomic.final (hatomic : Atomic sys h) {secs : List (Section T)}
    (hrun : (ResetSystem.step outOfRange).EveryStep Undisturbed sys secs) :
    Atomic ((ResetSystem.step outOfRange).final sys secs)
      (((ResetSystem.step outOfRange).trace sys secs).foldl (History.next outOfRange) h) := by
  have hfinal := hrun.invariant (t := [])
    (J := fun sys t => Atomic sys (t.foldl (History.next outOfRange) h)) ?_ hatomic
  · exact hfinal
  · intro sys t sec hJ hsec
    rw [List.foldl_append]
    exact hJ.step hsec

omit [DecidableEq T] in
theorem atomic_initial (owner name desc : Bytes) (callback udp ws : Bool) :
    Atomic (initial owner name desc callback udp ws : ResetSystem T) ⟨0, 0, []⟩ where
  nodup := List.nodup_nil
  below _ := .inl rfl
  past := by simp
  taken := by simp

end Run

/-- **The possession reset is atomic.** In a run in which no id is taken between the two sections of
a reset, and none when the ids have come round to 0 with packets pending, the ids of the queue are
distinct in every state, and no reset discards a packet whose id was taken after it. -/
theorem reset_atomic [DecidableEq T] (owner name desc : Bytes) (callback udp ws : Bool)
    (secs : List (Section T))
    (hrun : (step outOfRange).EveryStep Undisturbed (initial owner name desc callback udp ws)
      secs) :
    let start : ResetSystem T := initial owner name desc callback udp ws
    (∀ before after, secs = before ++ after → ((step outOfRange).final start before).ids.Nodup) ∧
      ∀ before c after, (step outOfRange).trace start secs = before ++ c :: after →
        c.1.clearsQueue c.2 = true →
          ∀ k ∈ (history outOfRange before).takenAt, k < (history outOfRange before).resetAt := by
  intro start
  have hatomic : ∀ before after, secs = before ++ after →
      Atomic ((step outOfRange).final start before)
        (history outOfRange ((step outOfRange).trace start before)) := by
    rintro before after rfl
    exact (atomic_initial owner name desc callback udp ws).final
      (Machine.EveryStep.append_iff.1 hrun).1
  refine ⟨fun before after hsecs => (hatomic before after hsecs).nodup, ?_⟩
  intro before c after htrace hclears k hk
  obtain ⟨secs₁, secs₂, hsecs, rfl, hfinal⟩ := Machine.trace_eq_append_cons htrace
  apply (hatomic secs₁ _ hsecs).taken _ k hk
  rw [hfinal]
  cases hsec : c.2 with
  | handleMsg =>
    rw [hsec] at hclears
    exact (Bool.and_eq_true_iff.1 hclears).1
  | _ =>
    rw [hsec] at hclears
    cases hclears

/-! ## Two possessions -/

/-- A `possess` of a UDP peer. -/
def possessPacket : Packet := (Packet.empty.set keyC (.string cmdPossess)).set keyN (intNumber 0)

/-- A possession without other tasks between its sections. -/
def possession : List (Section Unit) :=
  handleMsgSections (.init [] [] [] true true true) (.udp 1 42424) possessPacket

/-- A task has the address of the possession, when the next one has reset the ids. -/
def nextReset : List (Section Unit) :=
  possession ++ [.call (some ()) (literal "state") .empty, .receive (.udp 1 42424) possessPacket,
    .handleMsg]

/-- The packet of the first possession is discarded by the second one. -/
theorem reset_atomic_twice :
    let start : ResetSystem Unit := initial [] [] [] true true true
    let before := (step fun _ => 0).trace start nextReset
    ∀ k ∈ (history (fun _ => 0) before).takenAt, k < (history (fun _ => 0) before).resetAt := by
  intro start before
  have hrun : (step fun _ => 0).EveryStep Undisturbed start (nextReset ++ [.handleMsg]) := by
    decide +kernel
  refine (reset_atomic (fun _ => 0) [] [] [] true true true (nextReset ++ [.handleMsg]) hrun).2
    before ((step fun _ => 0).final start nextReset, .handleMsg) [] ?_ ?_
  · rw [Machine.trace_append]
    rfl
  · decide +kernel

/-- The task takes its id between the two sections of the second reset: the id is in the queue
twice, and the reset discards both packets. -/
theorem reset_not_atomic :
    let start : ResetSystem Unit := initial [] [] [] true true true
    let secs := nextReset ++ [.sendMustarrive (some ()), .sendMustarrive (some ())]
    let sys := (step fun _ => 0).final start secs
    let past := history (fun _ => 0) ((step fun _ => 0).trace start secs)
    sys.ids = [0, 0] ∧ sys.clearsQueue .handleMsg = true ∧
      ∃ k ∈ past.takenAt, past.resetAt < k := by
  decide +kernel

end ResetSystem

end RbProtocol.Protocol
