import RbProtocol.Library.Runs
import RbProtocol.Protocol.SendTask

/-!
# Starting and stopping

`stop()` waits for no task: it puts an empty item in front of the send queue, notifies the receiving
task and deletes the backends, and a task of an earlier start may go on for a while beside that of a
later one. The empty items are in front of all others, and there are as many of them as sending
tasks that are still to end. So no two tasks hold an item at the same time, and over any number of
starts and stops the items leave the queue in their order and none is lost or repeated, but for one
at most that each stop leaves without a backend (`queue_restarts`). Every task that was created and
every socket that was opened is accounted for (`lifecycle_ledger`).

Memory does not run out: `xTaskCreate` makes every task. The web server hands a connection over in
one step, from reading `ws_protocol` to `addClient`, so no `stop()` comes in between.
-/

namespace RbProtocol.Protocol

open Library

/-- `ProtocolConfig`. -/
structure ProtocolConfig where
  enableUdp : Bool
  enableWs : Bool
  wsRegisterWithWebserver : Bool
  udpPort : UInt16

/-- `Protocol::DEFAULT_CONFIG`. -/
def defaultConfig : ProtocolConfig := ⟨true, true, true, 42424⟩

/-- `esp_err_t`, as far as `start` returns it. -/
inductive EspErr
  | ok
  | invalidState
  | invalidArg
  deriving DecidableEq

/-- What the calls of `ProtBackendUdp::start` answer. -/
structure UdpCalls where
  socket : Option ℤ
  setsockopt : Bool
  bind : Bool

/-- A task in the loop of `recv_task`. -/
structure Receiving where
  handle : ℕ
  /-- A notification that it has not looked at. -/
  notified : Bool

/-- The object between its tasks and those that start and stop it. -/
structure Lifecycle where
  /-- `m_task_send` is set. -/
  taskSend : Bool
  /-- `m_task_recv`. -/
  taskRecv : Option ℕ
  /-- The socket of `m_udp`. -/
  udp : Option ℤ
  /-- The sockets of the clients of `m_ws`. -/
  ws : Option (List ℤ)
  /-- `ws_protocol` of the web server is set. -/
  wsProtocol : Bool
  sendQueue : List QueueItem
  /-- The tasks in the loop of `send_task`, with the item that each of them has received and not yet
  handed on. -/
  sendTasks : List (Option QueueItem)
  recvTasks : List Receiving
  /-- The number of receiving tasks that were created. -/
  created : ℕ

namespace Lifecycle

/-- `QueueItem{}`, which ends a sending task. -/
def stopItem : QueueItem := ⟨.none, .empty⟩

/-- What happens to the object. -/
inductive Event
  | start (cfg : ProtocolConfig) (calls : UdpCalls)
  | stop
  /-- `xQueueSend` of an item; its address comes from a backend. -/
  | send (item : {item : QueueItem // item.addr ≠ .none})
  /-- `xQueueReceive` of the `k`-th sending task. -/
  | receive (k : ℕ)
  /-- The critical section of the `k`-th sending task behind it. -/
  | transmit (k : ℕ)
  /-- The condition of the loop of a receiving task. -/
  | recvLoop (handle : ℕ)
  /-- `rb_web_ws_new_connection`. -/
  | newConnection (fd : ℤ)
  /-- `close_client`. -/
  | closeClient (fd : ℤ)

/-- What is seen of it. -/
inductive Output
  | returned (err : EspErr)
  | opened (fd : ℤ)
  | bound (fd : ℤ) (port : UInt16)
  | closed (fd : ℤ)
  /-- An item in the queue, and one that the queue has no room for. -/
  | queued (item : QueueItem)
  | refused (item : QueueItem)
  /-- An item that a backend is given, and one that there is no backend for. -/
  | handed (item : QueueItem)
  | dropped (item : QueueItem)

/-- `ProtBackendUdp::start`: the socket when it returns `ESP_OK`. -/
def udpStart (calls : UdpCalls) (port : UInt16) : Option ℤ × List Output :=
  match calls.socket with
  | none => (none, [])
  | some fd =>
    if !calls.setsockopt then (none, [.opened fd, .closed fd])
    else if !calls.bind then (none, [.opened fd, .closed fd])
    else (some fd, [.opened fd, .bound fd port])

/-- The UDP backend of `start`. -/
def startUdp (cfg : ProtocolConfig) (calls : UdpCalls) : Option ℤ × List Output :=
  if cfg.enableUdp then udpStart calls cfg.udpPort else (none, [])

/-- The end of `start`, with the socket of the UDP backend. -/
def started (s : Lifecycle) (cfg : ProtocolConfig) (udp : Option ℤ) : Lifecycle where
  taskSend := true
  taskRecv := some s.created
  udp := udp
  ws := if cfg.enableWs then some [] else none
  wsProtocol := s.wsProtocol || cfg.enableWs && cfg.wsRegisterWithWebserver
  sendQueue := s.sendQueue
  sendTasks := s.sendTasks ++ [none]
  recvTasks := s.recvTasks ++ [⟨s.created, false⟩]
  created := s.created + 1

/-- `Protocol::start`. -/
def start (s : Lifecycle) (cfg : ProtocolConfig) (calls : UdpCalls) : Lifecycle × List Output :=
  if s.taskSend then (s, [.returned .invalidState])
  else if !cfg.enableUdp && !cfg.enableWs then (s, [.returned .invalidArg])
  else if cfg.enableUdp && (startUdp cfg calls).1.isNone then
    (s, (startUdp cfg calls).2 ++ [.returned .invalidState])
  else (s.started cfg (startUdp cfg calls).1, (startUdp cfg calls).2 ++ [.returned .ok])

/-- The sockets of the backends. -/
def sockets (s : Lifecycle) : List ℤ := s.udp.toList ++ s.ws.getD []

/-- `xTaskNotify`. -/
def notify (handle : ℕ) (r : Receiving) : Receiving :=
  if r.handle = handle then { r with notified := true } else r

/-- `Protocol::stop`. It waits while the queue is full. -/
def stop (s : Lifecycle) : Lifecycle × List Output :=
  if !s.taskSend then (s, [])
  else if s.sendQueue.length = sendQueueLength then (s, [])
  else
    ({ taskSend := false
       taskRecv := none
       udp := none
       ws := none
       wsProtocol := s.wsProtocol && s.ws.isNone
       sendQueue := stopItem :: s.sendQueue
       sendTasks := s.sendTasks
       recvTasks := s.taskRecv.elim s.recvTasks fun handle => s.recvTasks.map (notify handle)
       created := s.created },
      s.sockets.map .closed)

/-- The end of `Protocol::send`. -/
def send (s : Lifecycle) (item : QueueItem) : Lifecycle × List Output :=
  if s.sendQueue.length = sendQueueLength then (s, [.refused item])
  else ({ s with sendQueue := s.sendQueue ++ [item] }, [.queued item])

/-- `xQueueReceive` in `send_task`, and the test behind it. -/
def receive (s : Lifecycle) (k : ℕ) : Lifecycle × List Output :=
  match s.sendTasks[k]?, s.sendQueue with
  | some none, item :: queue =>
    if item.addr = .none then
      ({ s with sendQueue := queue, sendTasks := s.sendTasks.eraseIdx k }, [])
    else ({ s with sendQueue := queue, sendTasks := s.sendTasks.set k (some item) }, [])
  | _, _ => (s, [])

/-- There is a backend for an address. -/
def hasBackend (s : Lifecycle) : ProtocolAddr → Bool
  | .udp .. => s.udp.isSome
  | .ws _ => s.ws.isSome
  | .none => false

/-- The critical section of `send_task`. -/
def transmit (s : Lifecycle) (k : ℕ) : Lifecycle × List Output :=
  match s.sendTasks[k]? with
  | some (some item) =>
    ({ s with sendTasks := s.sendTasks.set k none },
      [if s.hasBackend item.addr then .handed item else .dropped item])
  | _ => (s, [])

/-- The condition of the loop in `recv_task`. -/
def recvLoop (s : Lifecycle) (handle : ℕ) : Lifecycle × List Output :=
  ({ s with recvTasks := s.recvTasks.filter fun r => !(r.handle = handle && r.notified) }, [])

/-- `rb_web_ws_new_connection`. -/
def newConnection (s : Lifecycle) (fd : ℤ) : Lifecycle × List Output :=
  match s.wsProtocol, s.ws with
  | true, some clients => ({ s with ws := some (clients ++ [fd]) }, [.opened fd])
  | _, _ => (s, [.opened fd, .closed fd])

/-- `ProtBackendWs::close_client`. -/
def closeClient (s : Lifecycle) (fd : ℤ) : Lifecycle × List Output :=
  match s.ws with
  | some clients =>
    if fd ∈ clients then ({ s with ws := some (clients.erase fd) }, [.closed fd]) else (s, [])
  | none => (s, [])

/-- A step. -/
def lifecycle : Machine Lifecycle Event Output
  | s, .start cfg calls => s.start cfg calls
  | s, .stop => s.stop
  | s, .send item => s.send item
  | s, .receive k => s.receive k
  | s, .transmit k => s.transmit k
  | s, .recvLoop handle => s.recvLoop handle
  | s, .newConnection fd => s.newConnection fd
  | s, .closeClient fd => s.closeClient fd

/-- `Protocol::Protocol`. -/
def initial : Lifecycle := ⟨false, none, none, none, false, [], [], [], 0⟩

/-! ## The queue -/

/-- The items that sending tasks hold. -/
def held (s : Lifecycle) : List QueueItem := s.sendTasks.reduceOption

/-- The items in the queue that are not empty. -/
def waiting (s : Lifecycle) : List QueueItem := s.sendQueue.filter fun item => item.addr ≠ .none

/-- The items that were queued. -/
def accepted (out : List Output) : List QueueItem :=
  out.filterMap fun
    | .queued item => some item
    | _ => none

/-- The items that left the object. -/
def released (out : List Output) : List QueueItem :=
  out.filterMap fun
    | .handed item | .dropped item => some item
    | _ => none

/-- Those that were not given to a backend. -/
def lost (out : List Output) : List QueueItem :=
  out.filterMap fun
    | .dropped item => some item
    | _ => none

/-- The empty items are in front, one for each sending task but that of the current start; and one
task at most holds an item. -/
structure QueueSound (s : Lifecycle) : Prop where
  tasks : ∃ k items, s.sendQueue = List.replicate k stopItem ++ items ∧
    (∀ item ∈ items, item.addr ≠ .none) ∧ s.sendTasks.length = k + s.taskSend.toNat
  held_length : s.held.length ≤ 1
  held_addr : ∀ item ∈ s.held, item.addr ≠ .none

/-- What a step does to the queue: items leave it in their order. -/
structure Flows (s : Lifecycle) (r : Lifecycle × List Output) : Prop where
  sound : r.1.QueueSound
  order : released r.2 ++ (r.1.held ++ r.1.waiting) = s.held ++ s.waiting ++ accepted r.2

section Queue

variable {α : Type*} {s : Lifecycle} {k : ℕ}

theorem reduceOption_eraseIdx {l : List (Option α)} (h : l[k]? = some none) :
    (l.eraseIdx k).reduceOption = l.reduceOption := by
  induction l generalizing k with
  | nil => cases h
  | cons o l ih =>
    cases k with
    | zero =>
      obtain rfl : o = none := Option.some.inj h
      rfl
    | succ k =>
      have hrest := ih (show l[k]? = some none from h)
      cases o with
      | none => exact hrest
      | some a => exact congrArg (a :: ·) hrest

/-- The only item of a list is taken. -/
theorem reduceOption_set_none {l : List (Option α)} {a : α} (h : l[k]? = some (some a))
    (hone : l.reduceOption.length ≤ 1) :
    l.reduceOption = [a] ∧ (l.set k none).reduceOption = [] := by
  induction l generalizing k with
  | nil => cases h
  | cons o l ih =>
    cases k with
    | zero =>
      obtain rfl : o = some a := Option.some.inj h
      have hnil : l.reduceOption = [] := by
        rw [List.reduceOption_cons_of_some, List.length_cons] at hone
        exact List.length_eq_zero_iff.1 (by omega)
      exact ⟨by rw [List.reduceOption_cons_of_some, hnil], hnil⟩
    | succ k =>
      have hrest : l[k]? = some (some a) := h
      cases o with
      | none => exact ih hrest hone
      | some b =>
        -- there would be two items
        rw [List.reduceOption_cons_of_some, List.length_cons] at hone
        obtain ⟨hsame, -⟩ := ih hrest (by omega)
        rw [hsame] at hone
        exact absurd hone (by simp)

theorem waiting_of_items {items : List QueueItem} {n : ℕ}
    (hqueue : s.sendQueue = List.replicate n stopItem ++ items)
    (hitems : ∀ item ∈ items, item.addr ≠ .none) : s.waiting = items := by
  have hstops : (List.replicate n stopItem).filter (fun item => item.addr ≠ .none) = [] :=
    List.filter_eq_nil_iff.2 fun item hitem => by
      rw [List.eq_of_mem_replicate hitem]
      simp [stopItem]
  have hkept : items.filter (fun item => item.addr ≠ .none) = items :=
    List.filter_eq_self.2 fun item hitem => decide_eq_true (hitems item hitem)
  unfold waiting
  rw [hqueue, List.filter_append, hstops, hkept, List.nil_append]

/-- Nothing happens to the queue and to the sending tasks. -/
theorem Flows.of_same (h : s.QueueSound) {r : Lifecycle × List Output}
    (hqueue : r.1.sendQueue = s.sendQueue) (htasks : r.1.sendTasks = s.sendTasks)
    (hrunning : r.1.taskSend = s.taskSend) (hreleased : released r.2 = [])
    (haccepted : accepted r.2 = []) : Flows s r := by
  have hheld : r.1.held = s.held := congrArg List.reduceOption htasks
  have hwaiting : r.1.waiting = s.waiting := congrArg (List.filter _) hqueue
  refine ⟨⟨?_, hheld ▸ h.held_length, hheld ▸ h.held_addr⟩, ?_⟩
  · rw [hqueue, htasks, hrunning]
    exact h.tasks
  · rw [hreleased, haccepted, hheld, hwaiting, List.append_nil, List.nil_append]

/-- The queue and the sending tasks after a step. -/
theorem Flows.intro {r : Lifecycle × List Output} (n : ℕ) (items hold : List QueueItem)
    (hqueue : r.1.sendQueue = List.replicate n stopItem ++ items)
    (hitems : ∀ item ∈ items, item.addr ≠ .none)
    (hlength : r.1.sendTasks.length = n + r.1.taskSend.toNat)
    (hheld : r.1.held = hold) (hone : hold.length ≤ 1) (haddr : ∀ item ∈ hold, item.addr ≠ .none)
    (horder : released r.2 ++ (hold ++ items) = s.held ++ s.waiting ++ accepted r.2) :
    Flows s r := by
  subst hheld
  refine ⟨⟨⟨n, items, hqueue, hitems, hlength⟩, hone, haddr⟩, ?_⟩
  rw [waiting_of_items hqueue hitems]
  exact horder

/-- **What a sending task receives**: nothing, an empty item, which ends it, or an item when it is
the only sending task. -/
theorem receive_cases (h : s.QueueSound) (k : ℕ) :
    s.receive k = (s, []) ∨
      (∃ n items, s.sendQueue = List.replicate (n + 1) stopItem ++ items ∧
        (∀ item ∈ items, item.addr ≠ .none) ∧ s.sendTasks.length = n + 1 + s.taskSend.toNat ∧
        s.sendTasks[k]? = some none ∧
        s.receive k = ({ s with
          sendQueue := List.replicate n stopItem ++ items
          sendTasks := s.sendTasks.eraseIdx k }, [])) ∨
      ∃ item items, s.sendQueue = item :: items ∧ (∀ i ∈ item :: items, i.addr ≠ .none) ∧
        s.sendTasks = [none] ∧ s.taskSend = true ∧
        s.receive k = ({ s with sendQueue := items, sendTasks := [some item] }, []) := by
  obtain ⟨n, items, hqueue, hitems, hlength⟩ := h.tasks
  rcases htask : s.sendTasks[k]? with _ | _ | held
  · exact .inl (by unfold receive; rw [htask])
  · rcases n with _ | n
    · rcases items with _ | ⟨item, items⟩
      · exact .inl (by unfold receive; rw [htask, hqueue]; rfl)
      · -- no empty item is left, so there is no other sending task
        have hcons : s.sendQueue = item :: items := hqueue
        have hlt : k < s.sendTasks.length := (List.getElem?_eq_some_iff.1 htask).1
        have hbool := s.taskSend.toNat_le
        obtain rfl : k = 0 := by omega
        obtain ⟨o, hsingle⟩ : ∃ o, s.sendTasks = [o] := List.length_eq_one_iff.1 (by omega)
        have hnone : o = none := by
          rw [hsingle] at htask
          exact Option.some.inj htask
        subst hnone
        have hrunning : s.taskSend = true := Bool.toNat_eq_one.1 (by omega)
        refine .inr (.inr ⟨item, items, hcons, hitems, hsingle, hrunning, ?_⟩)
        have haddr : item.addr ≠ .none := hitems item List.mem_cons_self
        unfold receive
        rw [htask, hcons]
        simp only [if_neg haddr, hsingle, List.set_cons_zero]
    · refine .inr (.inl ⟨n, items, hqueue, hitems, hlength, rfl, ?_⟩)
      unfold receive
      rw [htask, hqueue]
      rfl
  · exact .inl (by unfold receive; rw [htask])

theorem flows_receive (h : s.QueueSound) (k : ℕ) : Flows s (s.receive k) := by
  rcases receive_cases h k with hreceive |
    ⟨n, items, hqueue, hitems, hlength, htask, hreceive⟩ |
    ⟨item, items, hqueue, hitems, hsingle, hrunning, hreceive⟩
  · rw [hreceive]
    exact .of_same h rfl rfl rfl rfl rfl
  · rw [hreceive]
    have hlt : k < s.sendTasks.length := (List.getElem?_eq_some_iff.1 htask).1
    have hrest : (s.sendTasks.eraseIdx k).length = n + s.taskSend.toNat := by
      rw [List.length_eraseIdx_of_lt hlt]
      omega
    refine .intro n items _ rfl hitems hrest (reduceOption_eraseIdx htask) h.held_length
      h.held_addr ?_
    rw [waiting_of_items hqueue hitems]
    exact (List.append_nil _).symm
  · rw [hreceive]
    have hlength : [some item].length = 0 + s.taskSend.toNat := by
      rw [hrunning]
      rfl
    have hnone : s.held = [] := by
      unfold held
      rw [hsingle]
      rfl
    refine .intro 0 items [item] rfl (fun i hi => hitems i (List.mem_cons_of_mem _ hi)) hlength rfl
      le_rfl (fun i hi => hitems i (List.mem_singleton.1 hi ▸ List.mem_cons_self)) ?_
    rw [waiting_of_items (n := 0) hqueue hitems, hnone]
    exact (List.append_nil _).symm

/-- The item that a task holds leaves the object. -/
theorem flows_transmit (h : s.QueueSound) (k : ℕ) : Flows s (s.transmit k) := by
  obtain ⟨n, items, hqueue, hitems, hlength⟩ := h.tasks
  unfold transmit
  split
  · rename_i item htask
    obtain ⟨hheld, hset⟩ := reduceOption_set_none htask h.held_length
    refine .intro n items _ hqueue hitems ?_ hset (Nat.zero_le _) (fun i hi => by cases hi) ?_
    · rw [List.length_set]
      exact hlength
    · have hsame : s.held = [item] := hheld
      rw [waiting_of_items hqueue hitems, hsame]
      split_ifs <;> exact (List.append_nil _).symm
  · exact .of_same h rfl rfl rfl rfl rfl

/-- An item goes to the end of the queue. -/
theorem flows_send (h : s.QueueSound) {item : QueueItem} (haddr : item.addr ≠ .none) :
    Flows s (s.send item) := by
  obtain ⟨n, items, hqueue, hitems, hlength⟩ := h.tasks
  unfold send
  split_ifs with hfull
  · exact .of_same h rfl rfl rfl rfl rfl
  · refine .intro n (items ++ [item]) _ ?_ ?_ hlength rfl h.held_length h.held_addr ?_
    · rw [hqueue, List.append_assoc]
    · intro i hi
      rcases List.mem_append.1 hi with hi | hi
      · exact hitems i hi
      · rw [List.mem_singleton.1 hi]
        exact haddr
    · rw [waiting_of_items hqueue hitems, List.append_assoc]
      rfl

/-- No item leaves the queue at a stop. -/
theorem flows_stop (h : s.QueueSound) : Flows s s.stop := by
  obtain ⟨n, items, hqueue, hitems, hlength⟩ := h.tasks
  have hclosed : ∀ fds : List ℤ,
      released (fds.map .closed) = [] ∧ accepted (fds.map .closed) = [] :=
    fun fds => ⟨List.filterMap_eq_nil_iff.2 fun o ho => by
        obtain ⟨fd, -, rfl⟩ := List.mem_map.1 ho
        rfl,
      List.filterMap_eq_nil_iff.2 fun o ho => by
        obtain ⟨fd, -, rfl⟩ := List.mem_map.1 ho
        rfl⟩
  unfold stop
  split_ifs with hrunning hfull
  · exact .of_same h rfl rfl rfl rfl rfl
  · exact .of_same h rfl rfl rfl rfl rfl
  · rw [Bool.not_eq_true, Bool.not_eq_false'] at hrunning
    refine .intro (n + 1) items _ ?_ hitems ?_ rfl h.held_length h.held_addr ?_
    · rw [hqueue]
      rfl
    · rw [hlength, hrunning]
      rfl
    · rw [(hclosed _).1, (hclosed _).2, waiting_of_items hqueue hitems, List.append_nil]
      rfl

/-- What the UDP backend does with its socket: it has none, it has closed it, or it keeps it. -/
theorem startUdp_cases (cfg : ProtocolConfig) (calls : UdpCalls) :
    startUdp cfg calls = (none, []) ∨
      (∃ fd, startUdp cfg calls = (none, [.opened fd, .closed fd])) ∨
      ∃ fd, startUdp cfg calls = (some fd, [.opened fd, .bound fd cfg.udpPort]) := by
  unfold startUdp udpStart
  by_cases hudp : cfg.enableUdp = true
  · rw [if_pos hudp]
    cases calls.socket with
    | none => exact .inl rfl
    | some fd =>
      simp only
      split_ifs
      · exact .inr (.inl ⟨fd, rfl⟩)
      · exact .inr (.inl ⟨fd, rfl⟩)
      · exact .inr (.inr ⟨fd, rfl⟩)
  · rw [if_neg hudp]
    exact .inl rfl

/-- **What a start does**: nothing, when it returns an error, or it starts the tasks with all the
backends that are asked for. -/
theorem start_cases (s : Lifecycle) (cfg : ProtocolConfig) (calls : UdpCalls) :
    (∃ err, s.start cfg calls = (s, [.returned err])) ∨
      ((startUdp cfg calls).1 = none ∧
        ∃ err, s.start cfg calls = (s, (startUdp cfg calls).2 ++ [.returned err])) ∨
      s.taskSend = false ∧ (cfg.enableUdp = true → (startUdp cfg calls).1.isSome = true) ∧
        s.start cfg calls =
          (s.started cfg (startUdp cfg calls).1, (startUdp cfg calls).2 ++ [.returned .ok]) := by
  unfold start
  split_ifs with hrunning hnone hfails
  · exact .inl ⟨_, rfl⟩
  · exact .inl ⟨_, rfl⟩
  · rw [Bool.and_eq_true] at hfails
    exact .inr (.inl ⟨Option.isNone_iff_eq_none.1 hfails.2, _, rfl⟩)
  · refine .inr (.inr ⟨Bool.eq_false_of_not_eq_true hrunning, fun hudp => ?_, rfl⟩)
    rw [hudp, Bool.true_and, Bool.not_eq_true, Option.isNone_eq_false_iff] at hfails
    exact hfails

/-- The outputs of a start are no items. -/
theorem startUdp_outputs (cfg : ProtocolConfig) (calls : UdpCalls) (err : EspErr) :
    released ((startUdp cfg calls).2 ++ [.returned err]) = [] ∧
      accepted ((startUdp cfg calls).2 ++ [.returned err]) = [] ∧
      lost ((startUdp cfg calls).2 ++ [.returned err]) = [] := by
  rcases startUdp_cases cfg calls with h | ⟨fd, h⟩ | ⟨fd, h⟩ <;> rw [h] <;> exact ⟨rfl, rfl, rfl⟩

/-- Nor at a start. -/
theorem flows_start (h : s.QueueSound) (cfg : ProtocolConfig) (calls : UdpCalls) :
    Flows s (s.start cfg calls) := by
  obtain ⟨n, items, hqueue, hitems, hlength⟩ := h.tasks
  rcases start_cases s cfg calls with ⟨err, hstart⟩ | ⟨-, err, hstart⟩ | ⟨hrunning, -, hstart⟩
  · rw [hstart]
    exact .of_same h rfl rfl rfl rfl rfl
  · obtain ⟨hreleased, haccepted, -⟩ := startUdp_outputs cfg calls err
    rw [hstart]
    exact .of_same h rfl rfl rfl hreleased haccepted
  · obtain ⟨hreleased, haccepted, -⟩ := startUdp_outputs cfg calls .ok
    rw [hstart]
    have hheld : (s.sendTasks ++ [none]).reduceOption = s.held := by
      rw [List.reduceOption_append]
      exact List.append_nil _
    refine .intro n items _ hqueue hitems ?_ hheld h.held_length h.held_addr ?_
    · unfold started
      rw [List.length_append, hlength, hrunning]
      rfl
    · rw [hreleased, haccepted, waiting_of_items hqueue hitems, List.append_nil]
      rfl

/-- **What a step does to the queue.** -/
theorem flows_step (h : s.QueueSound) (e : Event) : Flows s (lifecycle s e) := by
  cases e with
  | start cfg calls => exact flows_start h cfg calls
  | stop => exact flows_stop h
  | send item => exact flows_send h item.2
  | receive k => exact flows_receive h k
  | transmit k => exact flows_transmit h k
  | recvLoop handle => exact .of_same h rfl rfl rfl rfl rfl
  | newConnection fd =>
    unfold lifecycle newConnection
    simp only
    split <;> exact .of_same h rfl rfl rfl rfl rfl
  | closeClient fd =>
    unfold lifecycle closeClient
    simp only
    split
    · split_ifs <;> exact .of_same h rfl rfl rfl rfl rfl
    · exact .of_same h rfl rfl rfl rfl rfl

/-- The backends are all there while the tasks run. -/
def Full (s : Lifecycle) : Prop := s.taskSend = true → s.udp.isSome = true ∧ s.ws.isSome = true

/-- The item that a task has taken before the last stop. -/
def overdue (s : Lifecycle) : List QueueItem := if s.taskSend then [] else s.held

/-- A call of `stop`. -/
def Event.isStop : Event → Bool
  | .stop => true
  | _ => false

theorem overdue_of_running (h : s.taskSend = true) : s.overdue = [] := if_pos h

theorem overdue_of_stopped (h : s.taskSend = false) : s.overdue = s.held :=
  if_neg (by rw [h]; exact Bool.false_ne_true)

/-- What `Full` and the item of a stop depend on. -/
theorem lost_of_same {s' : Lifecycle} {n : ℕ} (hfull : s.Full) (hrunning : s'.taskSend = s.taskSend)
    (hudp : s'.udp = s.udp) (hws : s'.ws.isSome = s.ws.isSome) (hheld : s'.held = s.held) :
    s'.Full ∧ (lost []).length + s'.overdue.length ≤ s.overdue.length + n := by
  have hoverdue : s'.overdue = s.overdue := by
    unfold overdue
    rw [hrunning, hheld]
  refine ⟨?_, ?_⟩
  · unfold Full
    rw [hrunning, hudp, hws]
    exact hfull
  · rw [hoverdue]
    exact (Nat.zero_add _).trans_le (Nat.le_add_right _ _)

/-- **Only at a stop** an item may lose its backend. -/
theorem lost_step (h : s.QueueSound) (hfull : s.Full) {e : Event}
    (he : ∀ cfg calls, e = .start cfg calls → cfg.enableUdp = true ∧ cfg.enableWs = true) :
    (lifecycle s e).1.Full ∧
      (lost (lifecycle s e).2).length + (lifecycle s e).1.overdue.length ≤
        s.overdue.length + e.isStop.toNat := by
  cases e with
  | start cfg calls =>
    have hlost := fun err => (startUdp_outputs cfg calls err).2.2
    have hstep : lifecycle s (.start cfg calls) = s.start cfg calls := rfl
    rw [hstep]
    rcases start_cases s cfg calls with ⟨err, hstart⟩ | ⟨-, err, hstart⟩ | ⟨-, hsome, hstart⟩
    · rw [hstart]
      exact lost_of_same hfull rfl rfl rfl rfl
    · rw [hstart, hlost]
      exact lost_of_same hfull rfl rfl rfl rfl
    · obtain ⟨hudp, hws⟩ := he cfg calls rfl
      rw [hstart, hlost, overdue_of_running rfl]
      refine ⟨fun _ => ⟨hsome hudp, ?_⟩, Nat.zero_le _⟩
      unfold started
      rw [hws]
      rfl
  | stop =>
    have hstep : lifecycle s .stop = s.stop := rfl
    rw [hstep]
    unfold stop
    split_ifs with hrunning hfullQueue
    · exact lost_of_same hfull rfl rfl rfl rfl
    · exact lost_of_same hfull rfl rfl rfl rfl
    · have hlost : lost (s.sockets.map .closed) = [] :=
        List.filterMap_eq_nil_iff.2 fun o ho => by
          obtain ⟨fd, -, rfl⟩ := List.mem_map.1 ho
          rfl
      rw [hlost, overdue_of_stopped rfl]
      refine ⟨fun hrun => absurd hrun Bool.false_ne_true, ?_⟩
      -- one item at most is held
      have hone := h.held_length
      calc
        _ = s.held.length := Nat.zero_add _
        _ ≤ 1 := hone
        _ ≤ _ := Nat.le_add_left _ _
  | send item =>
    have hstep : lifecycle s (.send item) = s.send item := rfl
    rw [hstep]
    unfold send
    split_ifs
    · exact lost_of_same hfull rfl rfl rfl rfl
    · exact lost_of_same hfull rfl rfl rfl rfl
  | receive k =>
    have hstep : lifecycle s (.receive k) = s.receive k := rfl
    rw [hstep]
    rcases receive_cases h k with hreceive | ⟨n, items, -, -, -, htask, hreceive⟩ |
      ⟨item, items, -, -, -, hrunning, hreceive⟩
    · rw [hreceive]
      exact lost_of_same hfull rfl rfl rfl rfl
    · rw [hreceive]
      exact lost_of_same hfull rfl rfl rfl (reduceOption_eraseIdx htask)
    · have hafter : overdue { s with sendQueue := items, sendTasks := [some item] } = [] :=
        overdue_of_running hrunning
      rw [hreceive, hafter]
      exact ⟨hfull, Nat.zero_le _⟩
  | transmit k =>
    have hstep : lifecycle s (.transmit k) = s.transmit k := rfl
    rw [hstep]
    unfold transmit
    split
    · rename_i item htask
      obtain ⟨hheld, hset⟩ := reduceOption_set_none htask h.held_length
      have hitem : item.addr ≠ .none := h.held_addr item (by
        unfold held
        rw [hheld]
        exact List.mem_singleton_self item)
      refine ⟨hfull, ?_⟩
      by_cases hrunning : s.taskSend = true
      · -- there is a backend
        obtain ⟨hudp, hws⟩ := hfull hrunning
        have hbackend : s.hasBackend item.addr = true := by
          unfold hasBackend
          split
          · exact hudp
          · exact hws
          · exact absurd (by assumption) hitem
        have hafter : overdue { s with sendTasks := s.sendTasks.set k none } = [] :=
          overdue_of_running hrunning
        rw [hafter, if_pos hbackend]
        exact Nat.zero_le _
      · rw [Bool.not_eq_true] at hrunning
        have hbefore : s.overdue = [item] := (overdue_of_stopped hrunning).trans hheld
        have hafter : overdue { s with sendTasks := s.sendTasks.set k none } = [] :=
          (@overdue_of_stopped { s with sendTasks := s.sendTasks.set k none } hrunning).trans hset
        rw [hafter, hbefore]
        split_ifs
        · exact Nat.zero_le _
        · exact le_rfl
    · exact lost_of_same hfull rfl rfl rfl rfl
  | recvLoop handle => exact lost_of_same hfull rfl rfl rfl rfl
  | newConnection fd =>
    unfold lifecycle newConnection
    simp only
    split
    · rename_i clients hws
      exact lost_of_same hfull rfl rfl (congrArg Option.isSome hws).symm rfl
    · exact lost_of_same hfull rfl rfl rfl rfl
  | closeClient fd =>
    unfold lifecycle closeClient
    simp only
    split
    · rename_i clients hws
      split_ifs
      · exact lost_of_same hfull rfl rfl (congrArg Option.isSome hws).symm rfl
      · exact lost_of_same hfull rfl rfl rfl rfl
    · exact lost_of_same hfull rfl rfl rfl rfl

end Queue

/-! ## Tasks and sockets -/

/-- The sockets that were opened. -/
def openedFds (out : List Output) : List ℤ :=
  out.filterMap fun
    | .opened fd => some fd
    | _ => none

/-- The sockets that were closed. -/
def closedFds (out : List Output) : List ℤ :=
  out.filterMap fun
    | .closed fd => some fd
    | _ => none

/-- Behind a stop there are neither backends nor a current task; and the receiving tasks are all
notified, but for the current one. -/
structure TasksSound (s : Lifecycle) : Prop where
  stopped : s.taskSend = false → s.udp = none ∧ s.ws = none ∧ s.taskRecv = none
  receiving : s.recvTasks.filter (fun r => !r.notified) =
    s.taskRecv.toList.map fun handle => ⟨handle, false⟩

/-- What a step does to the sockets. -/
structure Accounts (s : Lifecycle) (r : Lifecycle × List Output) : Prop where
  sound : r.1.TasksSound
  sockets : List.Perm (openedFds r.2 ++ s.sockets) (closedFds r.2 ++ r.1.sockets)

section Sockets

variable {s : Lifecycle}

/-- A step that leaves tasks and sockets alone. -/
theorem Accounts.of_same (h : s.TasksSound) {s' : Lifecycle} {out : List Output}
    (hrunning : s'.taskSend = s.taskSend) (htask : s'.taskRecv = s.taskRecv)
    (hudp : s'.udp = s.udp) (hws : s'.ws = s.ws)
    (hreceiving : s'.recvTasks.filter (fun r => !r.notified) =
      s.recvTasks.filter fun r => !r.notified)
    (hout : openedFds out = closedFds out) : Accounts s (s', out) := by
  refine ⟨⟨?_, ?_⟩, ?_⟩
  · rw [hrunning, hudp, hws, htask]
    exact h.stopped
  · rw [hreceiving, htask]
    exact h.receiving
  · have hsockets : s'.sockets = s.sockets := by
      unfold Lifecycle.sockets
      rw [hudp, hws]
    rw [hout, hsockets]

/-- A start that fails has closed its socket. -/
theorem openedFds_startUdp {cfg : ProtocolConfig} {calls : UdpCalls} (err : EspErr)
    (h : (startUdp cfg calls).1 = none) :
    openedFds ((startUdp cfg calls).2 ++ [.returned err]) =
      closedFds ((startUdp cfg calls).2 ++ [.returned err]) := by
  rcases startUdp_cases cfg calls with hudp | ⟨fd, hudp⟩ | ⟨fd, hudp⟩
  · rw [hudp]
    rfl
  · rw [hudp]
    rfl
  · rw [hudp] at h
    cases h

theorem accounts_start (h : s.TasksSound) (cfg : ProtocolConfig) (calls : UdpCalls) :
    Accounts s (s.start cfg calls) := by
  rcases start_cases s cfg calls with ⟨err, hstart⟩ | ⟨hnone, err, hstart⟩ |
    ⟨hstopped, -, hstart⟩
  · rw [hstart]
    exact .of_same h rfl rfl rfl rfl rfl rfl
  · rw [hstart]
    exact .of_same h rfl rfl rfl rfl rfl (openedFds_startUdp err hnone)
  · obtain ⟨hudp, hws, htask⟩ := h.stopped hstopped
    have hsockets : s.sockets = [] := by
      unfold sockets
      rw [hudp, hws]
      rfl
    have hclients : (s.started cfg (startUdp cfg calls).1).sockets =
        (startUdp cfg calls).1.toList := by
      unfold sockets started
      cases cfg.enableWs <;> exact List.append_nil _
    rw [hstart]
    refine ⟨⟨(fun hrun => by cases hrun), ?_⟩, ?_⟩
    · have hreceiving := h.receiving
      rw [htask] at hreceiving
      unfold started
      rw [List.filter_append, hreceiving]
      rfl
    · rw [hsockets, hclients]
      rcases startUdp_cases cfg calls with hudp | ⟨fd, hudp⟩ | ⟨fd, hudp⟩ <;> rw [hudp] <;>
        exact List.Perm.refl _

theorem accounts_stop (h : s.TasksSound) : Accounts s s.stop := by
  unfold stop
  split_ifs with hrunning hfull
  · exact .of_same h rfl rfl rfl rfl rfl rfl
  · exact .of_same h rfl rfl rfl rfl rfl rfl
  refine ⟨⟨fun _ => ⟨rfl, rfl, rfl⟩, ?_⟩, ?_⟩
  · -- the only task without a notification gets it
    have hall : ∀ r ∈ s.recvTasks, r.notified = false → s.taskRecv = some r.handle := by
      intro r hr hnot
      have hmem : r ∈ s.recvTasks.filter fun r => !r.notified :=
        List.mem_filter.2 ⟨hr, by rw [hnot]; rfl⟩
      rw [h.receiving] at hmem
      obtain ⟨handle, hhandle, rfl⟩ := List.mem_map.1 hmem
      exact Option.mem_toList.1 hhandle
    refine List.filter_eq_nil_iff.2 fun r hr => ?_
    rcases htask : s.taskRecv with _ | handle
    · rw [htask] at hr hall
      rcases hnot : r.notified with _ | _
      · cases hall r hr hnot
      · exact Bool.false_ne_true
    · rw [htask] at hr hall
      obtain ⟨before, hbefore, rfl⟩ := List.mem_map.1 hr
      unfold notify
      split_ifs with hsame
      · exact Bool.false_ne_true
      · rcases hnot : before.notified with _ | _
        · exact absurd (Option.some.inj (hall before hbefore hnot)).symm hsame
        · exact Bool.false_ne_true
  · have hopened : openedFds (s.sockets.map .closed) = [] :=
      List.filterMap_eq_nil_iff.2 fun o ho => by
        obtain ⟨fd, -, rfl⟩ := List.mem_map.1 ho
        rfl
    have hclosed : closedFds (s.sockets.map .closed) = s.sockets := by
      unfold closedFds
      rw [List.filterMap_map]
      exact List.filterMap_some
    rw [hopened, hclosed]
    exact (List.append_nil _).symm ▸ List.Perm.refl _

/-- **Every socket is accounted for.** -/
theorem accounts_step (h : s.TasksSound) (e : Event) : Accounts s (lifecycle s e) := by
  cases e with
  | start cfg calls => exact accounts_start h cfg calls
  | stop => exact accounts_stop h
  | send item =>
    have hstep : lifecycle s (.send item) = s.send item := rfl
    rw [hstep]
    unfold send
    split_ifs <;> exact .of_same h rfl rfl rfl rfl rfl rfl
  | receive k =>
    have hstep : lifecycle s (.receive k) = s.receive k := rfl
    rw [hstep]
    unfold receive
    split
    · split_ifs <;> exact .of_same h rfl rfl rfl rfl rfl rfl
    · exact .of_same h rfl rfl rfl rfl rfl rfl
  | transmit k =>
    have hstep : lifecycle s (.transmit k) = s.transmit k := rfl
    rw [hstep]
    unfold transmit
    split
    · split_ifs <;> exact .of_same h rfl rfl rfl rfl rfl rfl
    · exact .of_same h rfl rfl rfl rfl rfl rfl
  | recvLoop handle =>
    refine .of_same h rfl rfl rfl rfl ?_ rfl
    rw [List.filter_filter]
    congr 1
    funext r
    cases r.notified <;> simp
  | newConnection fd =>
    have hstep : lifecycle s (.newConnection fd) = s.newConnection fd := rfl
    rw [hstep]
    unfold newConnection
    split
    · rename_i clients hprotocol hws
      refine ⟨⟨fun hstopped => ?_, h.receiving⟩, ?_⟩
      · have hnone := (h.stopped hstopped).2.1
        rw [hws] at hnone
        cases hnone
      · have hsockets : s.sockets = s.udp.toList ++ clients := by
          unfold sockets
          rw [hws]
          rfl
        rw [hsockets]
        have hmoved : List.Perm ([fd] ++ (s.udp.toList ++ clients))
            ((s.udp.toList ++ clients) ++ [fd]) := List.perm_append_comm
        rw [List.append_assoc] at hmoved
        exact hmoved
    · exact .of_same h rfl rfl rfl rfl rfl rfl
  | closeClient fd =>
    have hstep : lifecycle s (.closeClient fd) = s.closeClient fd := rfl
    rw [hstep]
    unfold closeClient
    split
    · rename_i clients hws
      split_ifs with hmem
      · refine ⟨⟨fun hstopped => ?_, h.receiving⟩, ?_⟩
        · have hnone := (h.stopped hstopped).2.1
          rw [hws] at hnone
          cases hnone
        · have hsockets : s.sockets = s.udp.toList ++ clients := by
            unfold sockets
            rw [hws]
            rfl
          rw [hsockets]
          exact ((List.perm_cons_erase hmem).append_left _).trans List.perm_middle
      · exact .of_same h rfl rfl rfl rfl rfl rfl
    · exact .of_same h rfl rfl rfl rfl rfl rfl

end Sockets

/-! ## Runs -/

theorem queueSound_initial : initial.QueueSound :=
  ⟨⟨0, [], rfl, (fun item hitem => by cases hitem), rfl⟩, Nat.zero_le _,
    (fun item hitem => by cases hitem)⟩

theorem tasksSound_initial : initial.TasksSound := ⟨fun _ => ⟨rfl, rfl, rfl⟩, rfl⟩

section Runs

variable {s : Lifecycle}

/-- The outputs of a run. -/
def outputs (s : Lifecycle) (es : List Event) : List Output :=
  Machine.outputs lifecycle (Machine.trace lifecycle s es)

theorem outputs_cons (s : Lifecycle) (e : Event) (es : List Event) :
    s.outputs (e :: es) = (lifecycle s e).2 ++ (lifecycle s e).1.outputs es := rfl

/-- Items leave the queue in their order. -/
theorem flows_run (h : s.QueueSound) (es : List Event) :
    (Machine.final lifecycle s es).QueueSound ∧
      released (s.outputs es) ++ ((Machine.final lifecycle s es).held ++
        (Machine.final lifecycle s es).waiting) =
        s.held ++ s.waiting ++ accepted (s.outputs es) := by
  induction es generalizing s with
  | nil => exact ⟨h, (List.append_nil _).symm⟩
  | cons e es ih =>
    have hstep := flows_step h e
    obtain ⟨hsound, horder⟩ := ih hstep.sound
    have hreleased : released (s.outputs (e :: es)) = released (lifecycle s e).2 ++
        released ((lifecycle s e).1.outputs es) := List.filterMap_append
    have haccepted : accepted (s.outputs (e :: es)) = accepted (lifecycle s e).2 ++
        accepted ((lifecycle s e).1.outputs es) := List.filterMap_append
    refine ⟨hsound, ?_⟩
    rw [Machine.final_cons, hreleased, haccepted, List.append_assoc, horder,
      ← List.append_assoc, hstep.order, List.append_assoc]

/-- No more items are lost than there are stops. -/
theorem lost_run (h : s.QueueSound) (hfull : s.Full) {es : List Event}
    (hes : ∀ cfg calls, Event.start cfg calls ∈ es →
      cfg.enableUdp = true ∧ cfg.enableWs = true) :
    (lost (s.outputs es)).length ≤ s.overdue.length + es.countP Event.isStop := by
  induction es generalizing s with
  | nil => exact Nat.zero_le _
  | cons e es ih =>
    obtain ⟨hfull', hstep⟩ := lost_step h hfull fun cfg calls he =>
      hes cfg calls (he ▸ List.mem_cons_self)
    have hrest := ih (flows_step h e).sound hfull' fun cfg calls he =>
      hes cfg calls (List.mem_cons_of_mem _ he)
    have hlost : lost (s.outputs (e :: es)) = lost (lifecycle s e).2 ++
        lost ((lifecycle s e).1.outputs es) := List.filterMap_append
    have hcount : (e :: es).countP Event.isStop = es.countP Event.isStop + e.isStop.toNat := by
      rw [List.countP_cons]
      cases e.isStop <;> rfl
    rw [hlost, List.length_append, hcount]
    omega

/-- **The queue over any number of starts and stops.** The items that were queued have left it in
their order, each once, or are still there, one of them at most in the hands of a task; and when all
backends are started, no more items are lost than there are stops. -/
theorem queue_restarts (es : List Event) :
    let s := Machine.final lifecycle initial es
    released (initial.outputs es) ++ (s.held ++ s.waiting) = accepted (initial.outputs es) ∧
      s.held.length ≤ 1 ∧
      ((∀ cfg calls, Event.start cfg calls ∈ es → cfg.enableUdp = true ∧ cfg.enableWs = true) →
        (lost (initial.outputs es)).length ≤ es.countP Event.isStop) := by
  intro s
  obtain ⟨hsound, horder⟩ := flows_run queueSound_initial es
  refine ⟨horder, hsound.held_length, fun hes => ?_⟩
  have hlost := lost_run queueSound_initial (fun hrun => by cases hrun) hes
  rwa [show initial.overdue = [] from rfl, List.length_nil, Nat.zero_add] at hlost

/-- Behind a stop and a start the task of the first start is still there. -/
example : (Machine.final lifecycle initial [.start defaultConfig ⟨some 3, true, true⟩, .stop,
    .start defaultConfig ⟨some 4, true, true⟩]).sendTasks.length = 2 := rfl

/-- The sockets over a run. -/
theorem accounts_run (h : s.TasksSound) (es : List Event) :
    (Machine.final lifecycle s es).TasksSound ∧
      List.Perm (openedFds (s.outputs es) ++ s.sockets)
        (closedFds (s.outputs es) ++ (Machine.final lifecycle s es).sockets) := by
  induction es generalizing s with
  | nil => exact ⟨h, List.Perm.refl _⟩
  | cons e es ih =>
    have hstep := accounts_step h e
    obtain ⟨hsound, hsockets⟩ := ih hstep.sound
    have hopened : openedFds (s.outputs (e :: es)) = openedFds (lifecycle s e).2 ++
        openedFds ((lifecycle s e).1.outputs es) := List.filterMap_append
    have hclosed : closedFds (s.outputs (e :: es)) = closedFds (lifecycle s e).2 ++
        closedFds ((lifecycle s e).1.outputs es) := List.filterMap_append
    refine ⟨hsound, ?_⟩
    rw [Machine.final_cons, hopened, hclosed]
    calc
      List.Perm _ (openedFds (lifecycle s e).2 ++ s.sockets ++
          openedFds ((lifecycle s e).1.outputs es)) := by
        rw [List.append_assoc, List.append_assoc]
        exact List.perm_append_comm.append_left _
      List.Perm _ (closedFds (lifecycle s e).2 ++ (openedFds ((lifecycle s e).1.outputs es) ++
          (lifecycle s e).1.sockets)) := by
        refine (hstep.sockets.append_right _).trans ?_
        rw [List.append_assoc]
        exact List.perm_append_comm.append_left _
      List.Perm _ _ := by
        rw [List.append_assoc]
        exact hsockets.append_left _

/-- Each task goes on to the end of its loop. -/
def drain (s : Lifecycle) : List Event :=
  (List.replicate s.sendTasks.length [Event.transmit 0, Event.receive 0]).flatten ++
    s.recvTasks.map fun r => .recvLoop r.handle

/-- Behind a stop the first sending task ends with the next item that it receives. -/
theorem drain_one (h : s.QueueSound) (hstopped : s.taskSend = false) {n : ℕ}
    (hn : s.sendTasks.length = n + 1) :
    let r := Machine.final lifecycle s [.transmit 0, .receive 0]
    r.QueueSound ∧ r.taskSend = false ∧ r.sendTasks.length = n ∧ r.recvTasks = s.recvTasks := by
  have htransmit : (s.transmit 0).1.sendQueue = s.sendQueue ∧
      (s.transmit 0).1.taskSend = false ∧ (s.transmit 0).1.recvTasks = s.recvTasks ∧
      (s.transmit 0).1.sendTasks.length = n + 1 ∧
      (s.transmit 0).1.sendTasks[0]? = some none := by
    obtain ⟨o, rest, hcons⟩ : ∃ o rest, s.sendTasks = o :: rest :=
      List.exists_cons_of_length_eq_add_one hn
    have hhead : s.sendTasks[0]? = some o := by
      rw [hcons]
      rfl
    unfold transmit
    rw [hhead]
    cases o with
    | none => exact ⟨rfl, hstopped, rfl, hn, hhead⟩
    | some item =>
      refine ⟨rfl, hstopped, rfl, List.length_set.trans hn, ?_⟩
      rw [hcons]
      rfl
  have hsound := (flows_transmit h 0).sound
  obtain ⟨k, items, hqueue, -, hlength⟩ := h.tasks
  obtain rfl : k = n + 1 := by
    rw [hn, hstopped] at hlength
    exact hlength.symm
  obtain ⟨hsame, hstopped', hrecv, hlength', hfirst⟩ := htransmit
  have hreceive : ((s.transmit 0).1.receive 0).1 = { (s.transmit 0).1 with
      sendQueue := List.replicate n stopItem ++ items
      sendTasks := (s.transmit 0).1.sendTasks.eraseIdx 0 } := by
    unfold receive
    rw [hfirst, hsame, hqueue]
    rfl
  have hfinal : Machine.final lifecycle s [.transmit 0, .receive 0] =
      ((s.transmit 0).1.receive 0).1 := rfl
  refine ⟨(flows_receive hsound 0).sound, ?_, ?_, ?_⟩
  · rw [hfinal, hreceive]
    exact hstopped'
  · rw [hfinal, hreceive]
    simp only [List.length_eraseIdx_of_lt (show 0 < (s.transmit 0).1.sendTasks.length by omega)]
    omega
  · rw [hfinal, hreceive]
    exact hrecv

theorem drain_sendTasks (h : s.QueueSound) (hstopped : s.taskSend = false) {n : ℕ}
    (hn : s.sendTasks.length = n) :
    let r := Machine.final lifecycle s
      (List.replicate n [Event.transmit 0, Event.receive 0]).flatten
    r.sendTasks = [] ∧ r.recvTasks = s.recvTasks := by
  induction n generalizing s with
  | zero => exact ⟨List.length_eq_zero_iff.1 hn, rfl⟩
  | succ n ih =>
    obtain ⟨hsound, hstopped', hlength, hrecv⟩ := drain_one h hstopped hn
    obtain ⟨hsend, hrecv'⟩ := ih hsound hstopped' hlength
    simp only [List.replicate_succ, List.flatten_cons, Machine.final_append]
    exact ⟨hsend, hrecv'.trans hrecv⟩

/-- A receiving task that is notified ends at the condition of its loop. -/
theorem final_recvLoop (handles : List ℕ) (s : Lifecycle) :
    let r := Machine.final lifecycle s (handles.map Event.recvLoop)
    r.sendTasks = s.sendTasks ∧
      r.recvTasks = s.recvTasks.filter fun r => !(r.handle ∈ handles && r.notified) := by
  induction handles generalizing s with
  | nil =>
    refine ⟨rfl, (List.filter_eq_self.2 fun r hr => ?_).symm⟩
    simp
  | cons handle handles ih =>
    obtain ⟨hsend, hrecv⟩ := ih (s.recvLoop handle).1
    refine ⟨hsend, hrecv.trans ?_⟩
    unfold recvLoop
    rw [List.filter_filter]
    congr 1
    funext r
    by_cases hsame : r.handle = handle <;> cases r.notified <;> simp [hsame]

/-- **Tasks and sockets over any number of starts and stops.** Every socket that was opened has been
closed once or belongs to a backend. There are as many sending tasks as empty items in the queue,
and one more while the object runs; of the receiving tasks all but the current one are notified.
Behind a stop no socket is left, and every task ends when it goes on. -/
theorem lifecycle_ledger (es : List Event) :
    let s := Machine.final lifecycle initial es
    List.Perm (openedFds (initial.outputs es)) (closedFds (initial.outputs es) ++ s.sockets) ∧
      s.sendTasks.length = s.sendQueue.countP (fun item => item.addr = .none) +
        s.taskSend.toNat ∧
      s.recvTasks.filter (fun r => !r.notified) =
        s.taskRecv.toList.map (fun handle => ⟨handle, false⟩) ∧
      (s.taskSend = false → s.sockets = [] ∧
        (Machine.final lifecycle s s.drain).sendTasks = [] ∧
        (Machine.final lifecycle s s.drain).recvTasks = []) := by
  intro s
  obtain ⟨htasks, hsockets⟩ := accounts_run tasksSound_initial es
  obtain ⟨hqueueSound, -⟩ := flows_run queueSound_initial es
  have hnone : initial.sockets = [] := rfl
  rw [hnone, List.append_nil] at hsockets
  refine ⟨hsockets, ?_, htasks.receiving, fun hstopped => ?_⟩
  · obtain ⟨k, items, hqueue, hitems, hlength⟩ := hqueueSound.tasks
    have hstops : (List.replicate k stopItem).countP (fun item => item.addr = .none) = k := by
      rw [List.countP_replicate]
      exact if_pos rfl
    have hnoStops : items.countP (fun item => item.addr = .none) = 0 :=
      List.countP_eq_zero.2 fun item hitem => by simpa using hitems item hitem
    rw [hlength, hqueue, List.countP_append, hstops, hnoStops]
    rfl
  · obtain ⟨hudp, hws, htask⟩ := htasks.stopped hstopped
    have hnoSockets : s.sockets = [] := by
      unfold sockets
      rw [hudp, hws]
      rfl
    have hnotified : ∀ r ∈ s.recvTasks, r.notified = true := by
      have hreceiving := htasks.receiving
      rw [htask] at hreceiving
      intro r hr
      have hnot := List.filter_eq_nil_iff.1 hreceiving r hr
      rwa [Bool.not_eq_true, Bool.not_eq_false'] at hnot
    obtain ⟨hsend, hrecv⟩ := drain_sendTasks hqueueSound hstopped rfl
    have hmap : s.recvTasks.map (fun r => Event.recvLoop r.handle) =
        (s.recvTasks.map Receiving.handle).map Event.recvLoop := List.map_map.symm
    obtain ⟨hsend', hrecv'⟩ := final_recvLoop (s.recvTasks.map Receiving.handle)
      (Machine.final lifecycle s
        (List.replicate s.sendTasks.length [Event.transmit 0, Event.receive 0]).flatten)
    unfold drain
    rw [Machine.final_append, hmap, hsend', hrecv', hsend, hrecv]
    refine ⟨hnoSockets, rfl, List.filter_eq_nil_iff.2 fun r hr => ?_⟩
    rw [hnotified r hr, decide_eq_true (List.mem_map_of_mem hr)]
    exact Bool.false_ne_true

end Runs

end Lifecycle

end RbProtocol.Protocol
