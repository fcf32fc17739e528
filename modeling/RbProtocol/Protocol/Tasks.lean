import RbProtocol.Library.Deadlock
import RbProtocol.Library.Runs
import RbProtocol.Protocol.SendTask

/-!
# The tasks, their mutexes and the send queue

Four kinds of tasks share `m_mutex`, `m_mustarrive_mutex` and the send queue: `send_task`,
`recv_task`, the task inside `stop()`, and any number of others that call the public functions. The
code of a task is what it does with these three from each place on, with a choice where the rest of
the state decides. A step is one operation of one task. `lock` on a mutex that is held and
`xQueueSendToFront` on a full queue change nothing: both wait without a limit. The other queue
operations have a timeout, and a step of one that cannot be served is the timeout. `m_clients_mu` is
left out: it is locked only around sections that wait for nothing.

What a task waits for is read off its code (`Tasks.waiting`). The mutexes that a task holds are
those its place says (`Tasks.Sound`).
-/

namespace RbProtocol.Protocol

open Library Library.Deadlock

/-- The tasks. -/
inductive Task (C : Type*)
  | sendTask
  | recvTask
  /-- The one inside `stop()`. -/
  | stop
  /-- One that calls `send`, `send_mustarrive`, `is_possessed` or `is_mustarrive_complete`. -/
  | caller (c : C)
  deriving DecidableEq

/-- The mutexes of a protocol object. -/
inductive Mutex
  | mutex
  | mustarriveMutex
  deriving DecidableEq

/-- What the send queue holds: a packet to send, or the empty item of `stop()`. -/
inductive Queued
  | packet
  | stop
  deriving DecidableEq

/-- An operation on what the tasks share, with the place after it. -/
inductive Instr (P : Type*)
  /-- None. -/
  | goto (p : P)
  | lock (m : Mutex) (p : P)
  | unlock (m : Mutex) (p : P)
  /-- A packet; the timeout is 200 ms. -/
  | xQueueSend (p : P)
  /-- The empty item; there is no timeout. -/
  | xQueueSendToFront (p : P)
  /-- The places after the timeout of 10 ms, after the empty item and after a packet. -/
  | xQueueReceive (timeout stop packet : P)
  | xTaskNotify (p : P)
  /-- The places after a notification and without one. -/
  | xTaskNotifyWait (notified p : P)

/-- An operation in the middle of a longer code. -/
def Instr.map {P Q : Type*} (f : P → Q) : Instr P → Instr Q
  | goto p => goto (f p)
  | lock m p => lock m (f p)
  | unlock m p => unlock m (f p)
  | xQueueSend p => xQueueSend (f p)
  | xQueueSendToFront p => xQueueSendToFront (f p)
  | xQueueReceive timeout stop packet => xQueueReceive (f timeout) (f stop) (f packet)
  | xTaskNotify p => xTaskNotify (f p)
  | xTaskNotifyWait notified p => xTaskNotifyWait (f notified) (f p)

/-- The mutex that an operation locks. -/
def Instr.locks? {P : Type*} : Instr P → Option Mutex
  | lock m _ => some m
  | _ => none

/-! ## The code of the tasks -/

/-- What a task can call; from `found` on, what only `handle_msg` does. -/
inductive Call
  | send
  | sendMustarrive
  | isPossessed
  | isMustarriveComplete
  /-- The answer to `discover`. -/
  | found
  | resetCounters
  | possess
  | clearMustarrive
  /-- The acknowledgement of an `f`. -/
  | respond
  | acknowledge

/-- The function is public. -/
def Call.isPublic : Call → Bool
  | send | sendMustarrive | isPossessed | isMustarriveComplete => true
  | _ => false

/-- What the rest of the state decides: the next call of a task, or a test. -/
inductive Choice
  | call (c : Call)
  | yes
  | no

/-- Where a task is in a call. `mustarrive` tells `send_mustarrive` from `send`. -/
inductive CallPlace
  | outside
  /-- `get_possessed_addr`. -/
  | lockAddr (mustarrive : Bool)
  | readAddr (mustarrive : Bool)
  /-- `send_mustarrive` before the counter. -/
  | lockEntry
  | addEntry
  /-- The counter in `send(addr, obj)`. -/
  | lockCounter (mustarrive : Bool)
  | takeCounter (mustarrive : Bool)
  | enqueue (mustarrive : Bool)
  | unlockEntry
  /-- A section with nothing but reads and writes. -/
  | lockSection (m : Mutex)
  | inSection (m : Mutex)
  deriving DecidableEq

/-- Where a call starts. -/
def Call.entry : Call → CallPlace
  | send => .lockAddr false
  | sendMustarrive => .lockAddr true
  | found => .enqueue false
  | respond => .lockCounter false
  | isPossessed | resetCounters | possess => .lockSection .mutex
  | isMustarriveComplete | clearMustarrive | acknowledge => .lockSection .mustarriveMutex

/-- The code of the calls, for `recv_task` or for another task. -/
def callCode (recv : Bool) : CallPlace → Choice → Instr CallPlace
  | .outside, .call c => .goto (if recv || c.isPublic then c.entry else .outside)
  | .outside, _ => .goto .outside
  | .lockAddr m, _ => .lock .mutex (.readAddr m)
  | .readAddr m, .yes => .unlock .mutex (if m then .lockEntry else .lockCounter false)
  | .readAddr _, _ => .unlock .mutex .outside
  | .lockEntry, _ => .lock .mustarriveMutex .addEntry
  | .addEntry, _ => .goto (.lockCounter true)
  | .lockCounter m, _ => .lock .mutex (.takeCounter m)
  | .takeCounter m, _ => .unlock .mutex (.enqueue m)
  | .enqueue m, _ => .xQueueSend (if m then .unlockEntry else .outside)
  | .unlockEntry, _ => .unlock .mustarriveMutex .outside
  | .lockSection m, _ => .lock m (.inSection m)
  | .inSection m, _ => .unlock m .outside

/-- Where `recv_task` is. `ws` tells the second backend from the first. -/
inductive RecvPlace
  | notifyWait
  | lockRecv (ws : Bool)
  | recvIter (ws : Bool)
  | handleMsg (ws : Bool) (p : CallPlace)
  | exited
  deriving DecidableEq

/-- The code of `recv_task`. The mutex stays locked between the backends when there is no packet. -/
def recvCode : RecvPlace → Choice → Instr RecvPlace
  | .notifyWait, _ => .xTaskNotifyWait .exited (.lockRecv false)
  | .lockRecv ws, _ => .lock .mutex (.recvIter ws)
  | .recvIter ws, .yes => .unlock .mutex (.handleMsg ws .outside)
  | .recvIter false, _ => .goto (.recvIter true)
  | .recvIter true, _ => .unlock .mutex .notifyWait
  | .handleMsg ws .outside, .no => .goto (if ws then .notifyWait else .lockRecv true)
  | .handleMsg ws p, c => (callCode true p c).map (.handleMsg ws)
  | .exited, _ => .goto .exited

/-- Where `send_task` is, with the items received in this round. -/
inductive SendPlace
  | receive (i : ℕ)
  | lockTransmit (i : ℕ)
  | transmit (i : ℕ)
  | timer
  /-- `m_mustarrive_mutex` around a resend round. -/
  | lockResend
  | resend
  /-- `get_possessed_addr`. -/
  | lockAddr
  | readAddr
  /-- The loop of `resend_mustarrive_locked`. -/
  | nextEntry
  | lockEntry
  | retransmit
  | exited
  deriving DecidableEq

/-- The code of `send_task`. -/
def sendCode : SendPlace → Choice → Instr SendPlace
  | .receive i, _ =>
    if i < itemsPerRound then .xQueueReceive .timer .exited (.lockTransmit i) else .goto .timer
  | .lockTransmit i, _ => .lock .mutex (.transmit i)
  | .transmit i, _ => .unlock .mutex (.receive (i + 1))
  | .timer, .yes => .goto .lockResend
  | .timer, _ => .goto (.receive 0)
  | .lockResend, _ => .lock .mustarriveMutex .resend
  | .resend, .yes => .goto .lockAddr
  | .resend, _ => .unlock .mustarriveMutex (.receive 0)
  | .lockAddr, _ => .lock .mutex .readAddr
  | .readAddr, _ => .unlock .mutex .nextEntry
  | .nextEntry, .yes => .goto .lockEntry
  | .nextEntry, _ => .unlock .mustarriveMutex (.receive 0)
  | .lockEntry, _ => .lock .mutex .retransmit
  | .retransmit, _ => .unlock .mutex .nextEntry
  | .exited, _ => .goto .exited

/-- Where the task of `stop()` is. `stopped` is whether `m_task_send` is null; only `stop()` makes
it so. -/
inductive StopPlace
  | outside (stopped : Bool)
  | lockStop (stopped : Bool)
  | test (stopped : Bool)
  | insertFront
  | notify
  | delete
  deriving DecidableEq

/-- The code of `stop()`, which may be called again. -/
def stopCode : StopPlace → Choice → Instr StopPlace
  | .outside stopped, .yes => .goto (.lockStop stopped)
  | .outside stopped, _ => .goto (.outside stopped)
  | .lockStop stopped, _ => .lock .mutex (.test stopped)
  | .test true, _ => .unlock .mutex (.outside true)
  | .test false, _ => .goto .insertFront
  | .insertFront, _ => .xQueueSendToFront .notify
  | .notify, _ => .xTaskNotify .delete
  | .delete, _ => .unlock .mutex (.outside true)

section

variable {C : Type*}

/-- The places of a task. -/
abbrev Place : Task C → Type
  | .sendTask => SendPlace
  | .recvTask => RecvPlace
  | .stop => StopPlace
  | .caller _ => CallPlace

/-- The code of a task. -/
def code : (t : Task C) → Place t → Choice → Instr (Place t)
  | .sendTask => sendCode
  | .recvTask => recvCode
  | .stop => stopCode
  | .caller _ => callCode false

end

/-! ## The system -/

/-- The tasks and what they share. -/
structure Tasks (C : Type*) where
  holder : Mutex → Option (Task C)
  place : (t : Task C) → Place t
  sendQueue : List Queued
  /-- `recv_task` has a notification. -/
  notified : Bool

/-- What a task can wait for without a limit. -/
inductive Resource
  | mutex (m : Mutex)
  /-- Room in the send queue. -/
  | room

namespace Tasks

variable {C : Type*}

/-- The tasks after `start()`. -/
def initial : Tasks C where
  holder _ := none
  place
    | .sendTask => SendPlace.receive 0
    | .recvTask => RecvPlace.notifyWait
    | .stop => StopPlace.outside false
    | .caller _ => CallPlace.outside
  sendQueue := []
  notified := false

/-- What a task waits for before an operation. -/
def waitsFor {P : Type*} (s : Tasks C) : Instr P → Option Resource
  | .lock m _ => if (s.holder m).isSome then some (.mutex m) else none
  | .xQueueSendToFront _ => if s.sendQueue.length < sendQueueLength then none else some .room
  | _ => none

/-- Who waits for what: a mutex is released by its holder, and only `send_task` takes items from the
queue. -/
def waiting (s : Tasks C) : Waiting (Task C) Resource where
  waits t := s.waitsFor (code t (s.place t) .no)
  provides
    | .mutex m, u => s.holder m = some u
    | .room, u => u = .sendTask ∧ s.place .sendTask ≠ SendPlace.exited

/-- The mutex that a task is about to lock. -/
def wants (s : Tasks C) (t : Task C) : Option Mutex := (code t (s.place t) .no).locks?

variable [DecidableEq C]

/-- A task goes to another place. -/
def move (s : Tasks C) (t : Task C) (p : Place t) : Tasks C :=
  { s with place := Function.update s.place t p }

/-- A task is at its operation. -/
def perform (s : Tasks C) (t : Task C) : Instr (Place t) → Tasks C
  | .goto p => s.move t p
  | .lock m p =>
    if (s.holder m).isSome then s
    else { s.move t p with holder := Function.update s.holder m (some t) }
  | .unlock m p => { s.move t p with holder := Function.update s.holder m none }
  | .xQueueSend p =>
    if s.sendQueue.length < sendQueueLength then
      { s.move t p with sendQueue := s.sendQueue ++ [.packet] }
    else s.move t p
  | .xQueueSendToFront p =>
    if s.sendQueue.length < sendQueueLength then
      { s.move t p with sendQueue := .stop :: s.sendQueue }
    else s
  | .xQueueReceive timeout stop packet =>
    match s.sendQueue with
    | [] => s.move t timeout
    | .stop :: queue => { s.move t stop with sendQueue := queue }
    | .packet :: queue => { s.move t packet with sendQueue := queue }
  | .xTaskNotify p => { s.move t p with notified := true }
  | .xTaskNotifyWait notified p =>
    if s.notified then { s.move t notified with notified := false } else s.move t p

/-- A step of a task. -/
def step : Machine (Tasks C) (Task C × Choice) Empty := fun s a =>
  (s.perform a.1 (code a.1 (s.place a.1) a.2), [])

end Tasks

/-! ## The mutexes that the tasks hold -/

/-- The mutexes held at a place of a call. -/
def CallPlace.held : CallPlace → List Mutex
  | readAddr _ | takeCounter false => [.mutex]
  | addEntry | lockCounter true | enqueue true | unlockEntry => [.mustarriveMutex]
  | takeCounter true => [.mutex, .mustarriveMutex]
  | inSection m => [m]
  | _ => []

/-- The mutexes that `recv_task` holds. -/
def RecvPlace.held : RecvPlace → List Mutex
  | recvIter _ => [.mutex]
  | handleMsg _ p => p.held
  | _ => []

/-- The mutexes that `send_task` holds. -/
def SendPlace.held : SendPlace → List Mutex
  | transmit _ => [.mutex]
  | resend | lockAddr | nextEntry | lockEntry => [.mustarriveMutex]
  | readAddr | retransmit => [.mutex, .mustarriveMutex]
  | _ => []

/-- The mutexes that the task of `stop()` holds. -/
def StopPlace.held : StopPlace → List Mutex
  | test _ | insertFront | notify | delete => [.mutex]
  | _ => []

/-- The mutexes that a task holds at a place. -/
def heldAt {C : Type*} : (t : Task C) → Place t → List Mutex
  | .sendTask => SendPlace.held
  | .recvTask => RecvPlace.held
  | .stop => StopPlace.held
  | .caller _ => CallPlace.held

/-- `stop()` has inserted its item. -/
def StopPlace.Inserted : StopPlace → Prop
  | outside stopped | lockStop stopped | test stopped => stopped = true
  | insertFront => False
  | notify | delete => True

/-- An operation from a place on takes the mutexes as the places say. -/
def Instr.Respects {P : Type*} (held : P → List Mutex) (p : P) : Instr P → Prop
  | lock m q => ∀ m', m' ∈ held q ↔ m' = m ∨ m' ∈ held p
  | unlock m q => m ∈ held p ∧ ∀ m', m' ∈ held q ↔ m' ≠ m ∧ m' ∈ held p
  | goto q | xQueueSend q | xQueueSendToFront q | xTaskNotify q => ∀ m, m ∈ held q ↔ m ∈ held p
  | xQueueReceive timeout stop packet =>
    ∀ q ∈ [timeout, stop, packet], ∀ m, m ∈ held q ↔ m ∈ held p
  | xTaskNotifyWait notified q => ∀ r ∈ [notified, q], ∀ m, m ∈ held r ↔ m ∈ held p

theorem Mutex.forall {Q : Mutex → Prop} : (∀ m, Q m) ↔ Q .mutex ∧ Q .mustarriveMutex :=
  ⟨fun h => ⟨h _, h _⟩, fun ⟨hmutex, hmustarrive⟩ m => by cases m <;> assumption⟩

theorem Instr.Respects.map {P Q : Type*} {held : P → List Mutex} {held' : Q → List Mutex}
    {f : P → Q}
    (hf : ∀ p, held' (f p) = held p) {p : P} {op : Instr P} (h : op.Respects held p) :
    (op.map f).Respects held' (f p) := by
  cases op <;> simpa [Instr.map, Instr.Respects, hf] using h

theorem callCode_respects (recv : Bool) (p : CallPlace) (c : Choice) :
    (callCode recv p c).Respects CallPlace.held p := by
  cases p with
  | outside =>
    cases c with
    | call c =>
      cases c <;> cases recv <;>
        simp [callCode, Instr.Respects, CallPlace.held, Call.entry, Call.isPublic]
    | _ => simp [callCode, Instr.Respects]
  | readAddr b => cases c <;> cases b <;> simp [callCode, Instr.Respects, CallPlace.held]
  | lockCounter b | takeCounter b | enqueue b | lockAddr b =>
    cases b <;> simp [callCode, Instr.Respects, CallPlace.held, Mutex.forall]
  | _ => simp [callCode, Instr.Respects, CallPlace.held]

theorem recvCode_respects (p : RecvPlace) (c : Choice) :
    (recvCode p c).Respects RecvPlace.held p := by
  cases p with
  | handleMsg ws p =>
    have hcall : ((callCode true p c).map (RecvPlace.handleMsg ws)).Respects RecvPlace.held
        (.handleMsg ws p) :=
      Instr.Respects.map (f := RecvPlace.handleMsg ws) (fun _ => rfl) (callCode_respects true p c)
    cases p with
    | outside =>
      cases c with
      | no => cases ws <;> simp [recvCode, Instr.Respects, RecvPlace.held, CallPlace.held]
      | _ => exact hcall
    | _ => exact hcall
  | recvIter ws =>
    cases c <;> cases ws <;> simp [recvCode, Instr.Respects, RecvPlace.held, CallPlace.held]
  | _ => simp [recvCode, Instr.Respects, RecvPlace.held]

theorem sendCode_respects (p : SendPlace) (c : Choice) :
    (sendCode p c).Respects SendPlace.held p := by
  cases p with
  | receive i =>
    rw [sendCode]
    split_ifs <;> simp [Instr.Respects, SendPlace.held]
  | timer | resend | nextEntry => cases c <;> simp [sendCode, Instr.Respects, SendPlace.held]
  | _ => simp [sendCode, Instr.Respects, SendPlace.held, Mutex.forall]

theorem stopCode_respects (p : StopPlace) (c : Choice) :
    (stopCode p c).Respects StopPlace.held p := by
  cases p with
  | outside stopped => cases c <;> simp [stopCode, Instr.Respects, StopPlace.held]
  | test stopped => cases stopped <;> simp [stopCode, Instr.Respects, StopPlace.held]
  | _ => simp [stopCode, Instr.Respects, StopPlace.held]

/-- **The code of each task takes and releases the mutexes as its places say.** -/
theorem code_respects {C : Type*} (t : Task C) (p : Place t) (c : Choice) :
    (code t p c).Respects (heldAt t) p := by
  cases t with
  | sendTask => exact sendCode_respects p c
  | recvTask => exact recvCode_respects p c
  | stop => exact stopCode_respects p c
  | caller _ => exact callCode_respects false p c

namespace Tasks

section Steps

variable {C : Type*} {s : Tasks C} {t : Task C}

/-- The place after an operation. -/
def placeAfter {P : Type*} (s : Tasks C) (p : P) : Instr P → P
  | .goto q | .unlock _ q | .xQueueSend q | .xTaskNotify q => q
  | .lock m q => if (s.holder m).isSome then p else q
  | .xQueueSendToFront q => if s.sendQueue.length < sendQueueLength then q else p
  | .xQueueReceive timeout stop packet =>
    match s.sendQueue with
    | [] => timeout
    | .stop :: _ => stop
    | .packet :: _ => packet
  | .xTaskNotifyWait notified q => if s.notified then notified else q

/-- The send queue after an operation. -/
def queueAfter {P : Type*} (s : Tasks C) : Instr P → List Queued
  | .xQueueSend _ =>
    if s.sendQueue.length < sendQueueLength then s.sendQueue ++ [.packet] else s.sendQueue
  | .xQueueSendToFront _ =>
    if s.sendQueue.length < sendQueueLength then .stop :: s.sendQueue else s.sendQueue
  | .xQueueReceive _ _ _ => s.sendQueue.tail
  | _ => s.sendQueue

theorem length_queueAfter_le {P : Type*} (h : s.sendQueue.length ≤ sendQueueLength) (op : Instr P) :
    (s.queueAfter op).length ≤ sendQueueLength := by
  cases op with
  | xQueueSend p | xQueueSendToFront p =>
    rw [queueAfter]
    split_ifs
    · simpa using ‹_›
    · exact h
  | xQueueReceive timeout stop packet =>
    have htail : s.sendQueue.tail.length ≤ s.sendQueue.length := by simp
    exact htail.trans h
  | _ => exact h

theorem placeAfter_map {P Q : Type*} (f : P → Q) (p : P) (op : Instr P) :
    s.placeAfter (f p) (op.map f) = f (s.placeAfter p op) := by
  cases op with
  | lock | xQueueSendToFront | xTaskNotifyWait => simp only [Instr.map, placeAfter, apply_ite f]
  | xQueueReceive timeout stop packet =>
    simp only [Instr.map, placeAfter]
    split <;> rfl
  | _ => rfl

theorem queueAfter_map {P Q : Type*} (f : P → Q) (op : Instr P) :
    s.queueAfter (op.map f) = s.queueAfter op := by
  cases op <;> rfl

/-- The empty item comes from `xQueueSendToFront`. -/
theorem mem_queueAfter {P : Type*} {op : Instr P} (h : Queued.stop ∈ s.queueAfter op) :
    Queued.stop ∈ s.sendQueue ∨
      s.sendQueue.length < sendQueueLength ∧ ∃ p, op = .xQueueSendToFront p := by
  cases op with
  | xQueueSend p =>
    rw [queueAfter] at h
    split_ifs at h
    · exact .inl (by simpa using h)
    · exact .inl h
  | xQueueSendToFront p =>
    rw [queueAfter] at h
    split_ifs at h with hroom
    · exact .inr ⟨hroom, p, rfl⟩
    · exact .inl h
  | xQueueReceive timeout stop packet => exact .inl (List.mem_of_mem_tail h)
  | _ => exact .inl h

/-- The tasks hold the mutexes that their places say. -/
def LocksHeld (s : Tasks C) : Prop := Held (fun t p m => m ∈ heldAt t p) s.place s.holder

theorem callCode_ne_front {recv : Bool} {p q : CallPlace} {c : Choice} :
    callCode recv p c ≠ .xQueueSendToFront q := by
  cases p <;> cases c <;> simp [callCode]

theorem recvCode_ne_front {p q : RecvPlace} {c : Choice} : recvCode p c ≠ .xQueueSendToFront q := by
  intro h
  cases p with
  | handleMsg ws p => cases p <;> cases c <;> simp [recvCode, callCode, Instr.map] at h
  | recvIter ws => cases ws <;> cases c <;> simp [recvCode] at h
  | _ => simp [recvCode] at h

theorem sendCode_ne_front {p q : SendPlace} {c : Choice} : sendCode p c ≠ .xQueueSendToFront q := by
  intro h
  cases p with
  | receive i =>
    rw [sendCode] at h
    split_ifs at h
  | _ => cases c <;> simp [sendCode] at h

/-- Only `stop()` inserts to the front. -/
theorem code_ne_front (ht : t ≠ .stop) {p q : Place t} {c : Choice} :
    code t p c ≠ .xQueueSendToFront q := by
  cases t with
  | sendTask => exact sendCode_ne_front
  | recvTask => exact recvCode_ne_front
  | stop => exact absurd rfl ht
  | caller _ => exact callCode_ne_front

theorem stopCode_eq_front {p q : StopPlace} {c : Choice} (h : stopCode p c = .xQueueSendToFront q) :
    p = .insertFront ∧ q = .notify := by
  cases p with
  | insertFront => exact ⟨rfl, (Instr.xQueueSendToFront.inj h).symm⟩
  | outside stopped => cases c <;> cases h
  | test stopped => cases stopped <;> cases h
  | _ => cases h

/-- What holds in every state. -/
structure Sound (s : Tasks C) : Prop where
  held : s.LocksHeld
  room : s.sendQueue.length ≤ sendQueueLength
  inserted : Queued.stop ∈ s.sendQueue ∨ s.place .sendTask = SendPlace.exited →
    StopPlace.Inserted (s.place .stop)

theorem sound_initial : (initial : Tasks C).Sound where
  held := by
    intro m t
    cases t <;> simp [initial, heldAt, SendPlace.held, RecvPlace.held, StopPlace.held,
      CallPlace.held]
  room := Nat.zero_le _
  inserted := by simp [initial]

/-- After the insert `stop()` stays after it. -/
theorem inserted_placeAfter {p : StopPlace} (h : p.Inserted) (c : Choice) :
    (s.placeAfter p (stopCode p c)).Inserted := by
  cases p with
  | outside stopped => cases c <;> exact h
  | lockStop stopped =>
    rw [stopCode, placeAfter]
    split_ifs
    · exact h
    · exact h
  | test stopped =>
    obtain rfl : stopped = true := h
    rfl
  | insertFront => exact h.elim
  | notify => trivial
  | delete => rfl

/-- `send_task` exits on the empty item. -/
theorem stop_mem_of_exited {p : SendPlace} {c : Choice}
    (h : s.placeAfter p (sendCode p c) = .exited) :
    Queued.stop ∈ s.sendQueue ∨ p = .exited := by
  cases p with
  | receive i =>
    rw [sendCode] at h
    split_ifs at h
    · simp only [placeAfter] at h
      split at h
      · cases h
      · rename_i hqueue
        exact .inl (by simp [hqueue])
      · cases h
    · cases h
  | lockTransmit i | lockResend | lockAddr | lockEntry =>
    simp only [sendCode, placeAfter] at h
    split_ifs at h
  | exited => exact .inr rfl
  | _ => cases c <;> cases h

variable [DecidableEq C]

theorem place_perform (op : Instr (Place t)) :
    (s.perform t op).place = Function.update s.place t (s.placeAfter (s.place t) op) := by
  cases op with
  | xQueueReceive timeout stop packet =>
    rw [perform, placeAfter]
    split <;> rfl
  | lock m p | xQueueSendToFront p | xTaskNotifyWait n p =>
    rw [perform, placeAfter]
    split_ifs <;> simp [move]
  | xQueueSend p =>
    rw [perform, placeAfter]
    split_ifs <;> rfl
  | _ => rfl

theorem sendQueue_perform (op : Instr (Place t)) : (s.perform t op).sendQueue =
    s.queueAfter op := by
  cases op with
  | xQueueReceive timeout stop packet =>
    rw [perform, queueAfter]
    split <;> simp_all [move]
  | lock m p | xQueueSendToFront p | xTaskNotifyWait n p | xQueueSend p =>
    simp only [perform, queueAfter]
    split_ifs <;> rfl
  | _ => rfl

@[simp] theorem place_perform_self (op : Instr (Place t)) :
    (s.perform t op).place t = s.placeAfter (s.place t) op := by
  rw [place_perform, Function.update_self]

theorem place_perform_of_ne {u : Task C} (hne : u ≠ t) (op : Instr (Place t)) :
    (s.perform t op).place u = s.place u := by
  rw [place_perform, Function.update_of_ne hne]

theorem LocksHeld.perform (h : s.LocksHeld) {op : Instr (Place t)}
    (hop : op.Respects (heldAt t) (s.place t)) : (s.perform t op).LocksHeld := by
  cases op with
  | lock m q =>
    rw [Tasks.perform]
    split_ifs with hm
    · exact h
    · exact Held.lock h (Option.not_isSome_iff_eq_none.1 hm) hop
  | unlock m q => exact Held.unlock h hop.1 hop.2
  | xQueueReceive timeout stop packet =>
    simp only [Instr.Respects, List.forall_mem_cons] at hop
    obtain ⟨htimeout, hstop, hpacket, -⟩ := hop
    rw [Tasks.perform]
    split
    · exact Held.keep h htimeout
    · exact Held.keep h hstop
    · exact Held.keep h hpacket
  | xTaskNotifyWait notified q =>
    simp only [Instr.Respects, List.forall_mem_cons] at hop
    obtain ⟨hnotified, hq, -⟩ := hop
    rw [Tasks.perform]
    split_ifs
    · exact Held.keep h hnotified
    · exact Held.keep h hq
  | xQueueSendToFront q =>
    rw [Tasks.perform]
    split_ifs
    · exact Held.keep h hop
    · exact h
  | xQueueSend q =>
    rw [Tasks.perform]
    split_ifs <;> exact Held.keep h hop
  | goto q => exact Held.keep h hop
  | xTaskNotify q => exact Held.keep h hop

/-- Every step keeps what holds in every state. -/
theorem Sound.step (h : s.Sound) (a : Task C × Choice) : (step s a).1.Sound := by
  obtain ⟨t, c⟩ := a
  refine ⟨h.held.perform (code_respects t _ c), ?_, ?_⟩
  · change (s.perform t _).sendQueue.length ≤ _
    rw [sendQueue_perform]
    exact length_queueAfter_le h.room _
  -- the item is in the queue, or `send_task` has received it, only after the insert
  · intro hafter
    change Queued.stop ∈ (s.perform t _).sendQueue ∨ (s.perform t _).place _ = _ at hafter
    change StopPlace.Inserted ((s.perform t _).place .stop)
    rw [sendQueue_perform] at hafter
    by_cases ht : t = .stop
    · subst ht
      rw [place_perform_self]
      rw [place_perform_of_ne (by nofun)] at hafter
      rcases hafter with hmem | hexited
      · rcases mem_queueAfter hmem with hmem | ⟨hroom, p, hp⟩
        · exact inserted_placeAfter (h.inserted (.inl hmem)) c
        · obtain ⟨-, rfl⟩ := stopCode_eq_front hp
          rw [hp, placeAfter, if_pos hroom]
          trivial
      · exact inserted_placeAfter (h.inserted (.inr hexited)) c
    · rw [place_perform_of_ne (Ne.symm ht)]
      refine h.inserted ?_
      rcases hafter with hmem | hexited
      · rcases mem_queueAfter hmem with hmem | ⟨-, p, hp⟩
        · exact .inl hmem
        · exact absurd hp (code_ne_front ht)
      · by_cases hsend : t = .sendTask
        · subst hsend
          rw [place_perform_self] at hexited
          exact stop_mem_of_exited hexited
        · rw [place_perform_of_ne (Ne.symm hsend)] at hexited
          exact .inr hexited

/-- What holds in every state holds at the end of every run. -/
theorem sound_final (h : s.Sound) (as : List (Task C × Choice)) :
    (Machine.final Tasks.step s as).Sound := by
  induction as generalizing s with
  | nil => exact h
  | cons a as ih => exact ih (h.step a)

end Steps

end Tasks

end RbProtocol.Protocol
