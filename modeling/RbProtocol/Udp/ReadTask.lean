import RbProtocol.Foundations.Inet
import RbProtocol.Udp.Backend
import RbProtocol.Udp.Registry

/-!
# The reading task of `Udp`

`readTask` goes round the open sockets with the mutex locked. It peeks at the oldest datagram of a
socket with a buffer that grows up to some 1024 bytes, takes it, and gives what is in the buffer to
the callbacks of the port. A socket that is no longer valid is closed and opened again. `send` uses
the open socket of its port, or opens one for itself and closes it again.

* `callback_datagrams`: a callback gets every datagram of its port once and in order, whole or at
  least the first 1024 bytes of it, whatever happens to other ports and other callbacks.
* `descriptors_run`: what has been opened has been closed or is the socket of a port.
-/

namespace RbProtocol.Udp

open Library Machine ProtBackendUdp Protocol

/-! ## Opening -/

/-- What the system answers in a call of `openSocket`: the descriptor, or −1, and whether
`setsockopt` and `bind` succeed. -/
structure SocketCalls where
  fd : ℤ
  setsockopt : Bool
  bind : Bool

/-- What happens outside of the maps. -/
inductive Effect
  /-- A call of the API, and what it closes. -/
  | event (e : Event)
  | opened (fd : ℤ)
  | sent (fd : ℤ) (data : Bytes) (dest : SockaddrIn)
  /-- `send` returns. -/
  | returned (res : ℤ)
  | called (handle : ℤ) (callback : ℕ) (data sourceIp : Bytes)

/-- `Udp::openSocket`. -/
def openSocket (calls : SocketCalls) : ℤ × List Effect :=
  if calls.fd = -1 then (-1, [])
  else if calls.setsockopt = false then (-1, [.opened calls.fd, .event (.close calls.fd)])
  else if calls.bind = false then (-1, [.opened calls.fd, .event (.close calls.fd)])
  else (calls.fd, [.opened calls.fd])

/-- The answers to the calls of `openSocket` in `reopenSocketLocked`, the first that succeeds
last. -/
structure Reopening where
  failures : List SocketCalls
  success : SocketCalls
  fails : ∀ calls ∈ failures, (openSocket calls).1 = -1
  succeeds : (openSocket success).1 ≠ -1

/-- All answers. -/
def Reopening.all (r : Reopening) : List SocketCalls := r.failures ++ [r.success]

/-- What a `std::vector` takes as its capacity when a `resize` needs more than it has. -/
structure Growth where
  capacity : ℕ → ℕ → ℕ
  le_capacity : ∀ size n, n ≤ capacity size n

/-- The capacity after a `resize` of a vector. -/
def Growth.resize (g : Growth) (capacity size n : ℕ) : ℕ :=
  if n ≤ capacity then capacity else g.capacity size n

/-! ## The state -/

/-- `Udp`, the sockets of the system under their descriptors, the variables of `readTask`, and the
ports that a round of it has still to visit while it holds the mutex. -/
structure System where
  udp : Udp
  sockets : ℤ → DatagramSocket SockaddrIn UInt8
  buf : Bytes
  capacity : ℕ
  ip : Bytes
  round : Option (List UInt16)

/-- What happens next. Calls of the API wait as long as a round has the mutex. -/
inductive SystemEvent
  | onReceive (port : UInt16) (callback : ℕ) (calls : SocketCalls)
  | removeCallback (handle stale : ℤ)
  | send (data : Bytes) (port : UInt16) (ip : Bytes) (calls : SocketCalls) (res : ℤ)
  | arrive (fd : ℤ) (d : Datagram SockaddrIn UInt8)
  /-- A socket fails from now on. -/
  | fail (fd : ℤ) (e : Errno)
  /-- A round of `readTask` begins. -/
  | lock
  /-- The next port of the round. A socket may fail between the two reads. -/
  | visit (broken : Option (ℤ × Errno)) (reopening : Reopening)
  /-- The round ends. -/
  | unlock

/-- The socket that `socket` returns, or that is left when a descriptor was closed. -/
def Effect.apply (sockets : ℤ → DatagramSocket SockaddrIn UInt8) :
    Effect → ℤ → DatagramSocket SockaddrIn UInt8
  | .opened fd => Function.update sockets fd ⟨[], none⟩
  | .event (.close fd) => Function.update sockets fd ⟨[], some .badf⟩
  | _ => sockets

/-- The sockets after some effects. -/
def applyAll (sockets : ℤ → DatagramSocket SockaddrIn UInt8) (es : List Effect) :
    ℤ → DatagramSocket SockaddrIn UInt8 := es.foldl Effect.apply sockets

/-- The state after a call that leaves `udp`. -/
def System.after (s : System) (udp : Udp) (es : List Effect) : System × List Effect :=
  ({ s with udp, sockets := applyAll s.sockets es }, es)

/-! ## The calls of the API -/

/-- The effects of `openSocket`, if the port has no socket. -/
def System.opening (s : System) (port : UInt16) (calls : SocketCalls) : List Effect :=
  if port ∈ s.udp.openSockets then [] else (openSocket calls).2

/-- `Udp::onReceive`. -/
def System.onReceive (s : System) (port : UInt16) (callback : ℕ) (calls : SocketCalls) :
    System × List Effect :=
  let r := s.udp.onReceive port callback (openSocket calls).1
  s.after r.1 (s.opening port calls ++ r.2.map .event)

/-- `Udp::removeCallback`. -/
def System.removeCallback (s : System) (handle stale : ℤ) : System × List Effect :=
  let r := s.udp.removeCallback handle stale
  s.after r.1 (r.2.map .event)

/-- `htons (port)`, as a number of the little-endian host. -/
def swapBytes (port : UInt16) : UInt16 := port <<< 8 ||| port >>> 8

/-- `Udp::send`, where `sendto` answers `res`. The address stays zero if the text is none. -/
def System.send (s : System) (data : Bytes) (port : UInt16) (ip : Bytes) (calls : SocketCalls)
    (res : ℤ) : System × List Effect :=
  let dest : SockaddrIn := ⟨swapBytes port, (inetPton (cstr ip)).getD 0⟩
  match s.udp.openSockets.lookup port with
  | some fd => s.after s.udp <|
    if fd = -1 then [.returned (-1)] else [.sent fd data dest, .returned res]
  | none =>
    let fd := (openSocket calls).1
    s.after s.udp <| (openSocket calls).2 ++
      if fd = -1 then [.returned (-1)]
      else [.sent fd data dest, .event (.close fd), .returned res]

/-! ## The rounds -/

/-- The ports in the order of the map. -/
def ports (openSockets : AList fun _ : UInt16 => ℤ) : List UInt16 :=
  openSockets.keys.mergeSort (· ≤ ·)

/-- The callbacks in the order of the map. -/
def inOrder (callbacks : AList fun _ : ℤ => CallbackInfo) :
    List (Sigma fun _ : ℤ => CallbackInfo) :=
  callbacks.entries.mergeSort (·.1 ≤ ·.1)

/-- The inner loop of `readTask`: the error, if there is one, the buffer and its capacity. -/
def peekDatagram (g : Growth) (socket : DatagramSocket SockaddrIn UInt8) (buf : Bytes)
    (capacity : ℕ) : Option Errno × Bytes × ℕ :=
  match (socket.recvfrom buf buf.length true).1 with
  | .error e => (some e, buf, capacity)
  | .ok answer =>
    if _h : answer.size < buf.length ∨ 1024 ≤ buf.length then
      (none, answer.buf.take answer.size, capacity)
    else
      peekDatagram g socket (resize answer.buf (buf.length + 16) 0)
        (g.resize capacity buf.length (buf.length + 16))
termination_by 1024 - buf.length
decreasing_by
  rw [length_resize]
  omega

/-- `reopenSocketLocked`, for the socket of a port: the new descriptor, and what happens. -/
def reopenSocketLocked (fd : ℤ) (r : Reopening) : ℤ × List Effect :=
  ((openSocket r.success).1,
    .event (.close fd) :: r.all.flatMap fun calls => (openSocket calls).2)

/-- What `readTask` does about an error. -/
def System.failed (s : System) (port : UInt16) (fd : ℤ) (e : Errno) (r : Reopening) :
    System × List Effect :=
  if e = .badf then
    let reopened := reopenSocketLocked fd r
    s.after { s.udp with openSockets := s.udp.openSockets.insert port reopened.1 } reopened.2
  else (s, [])

/-- The buffer of the address, after `ip.resize (17)` and `inet_ntop`. -/
def writeIp (ip : Bytes) (addr : UInt32) : Bytes :=
  inetNtop addr ++ 0 :: (resize ip 17 0).drop ((inetNtop addr).length + 1)

/-- The loop over the callbacks. -/
def callAll (udp : Udp) (port : UInt16) (data sourceIp : Bytes) : List Effect :=
  (inOrder udp.callbacks).filterMap fun c =>
    if c.2.port = port then some (.called c.1 c.2.callback data sourceIp) else none

/-- A datagram arrives. -/
def addDatagram (sockets : ℤ → DatagramSocket SockaddrIn UInt8) (fd : ℤ)
    (d : Datagram SockaddrIn UInt8) : ℤ → DatagramSocket SockaddrIn UInt8 :=
  Function.update sockets fd { sockets fd with queue := (sockets fd).queue ++ [d] }

/-- A socket fails. -/
def breakSocket (sockets : ℤ → DatagramSocket SockaddrIn UInt8) :
    Option (ℤ × Errno) → ℤ → DatagramSocket SockaddrIn UInt8
  | none => sockets
  | some (fd, e) => Function.update sockets fd { sockets fd with error := some e }

/-- The second read of `readTask`, and the loop over the callbacks. -/
def System.take (s : System) (port : UInt16) (fd : ℤ) (broken : Option (ℤ × Errno))
    (r : Reopening) : System × List Effect :=
  let s := { s with sockets := breakSocket s.sockets broken }
  match (s.sockets fd).recvfrom s.buf 0 false with
  | (.error e, _) => s.failed port fd e r
  | (.ok answer, socket) =>
    let ip := writeIp s.ip answer.source.sinAddr
    ({ s with sockets := Function.update s.sockets fd socket, buf := answer.buf, ip },
      callAll s.udp port answer.buf ip)

/-- The visit of a port in a round of `readTask`. -/
def System.visit (g : Growth) (s : System) (port : UInt16) (broken : Option (ℤ × Errno))
    (r : Reopening) : System × List Effect :=
  match s.udp.openSockets.lookup port with
  | none => (s, [])
  | some fd =>
    let peeked := peekDatagram g (s.sockets fd) (resize s.buf s.capacity 0) s.capacity
    let s := { s with buf := peeked.2.1, capacity := peeked.2.2 }
    match peeked.1 with
    | some e => s.failed port fd e r
    | none => s.take port fd broken r

/-- The system. -/
def system (g : Growth) : Machine System SystemEvent Effect
  | s, .onReceive port callback calls =>
    if s.round.isSome then (s, []) else s.onReceive port callback calls
  | s, .removeCallback handle stale =>
    if s.round.isSome then (s, []) else s.removeCallback handle stale
  | s, .send data port ip calls res =>
    if s.round.isSome then (s, []) else s.send data port ip calls res
  | s, .arrive fd d => ({ s with sockets := addDatagram s.sockets fd d }, [])
  | s, .fail fd e => ({ s with sockets := breakSocket s.sockets (some (fd, e)) }, [])
  | s, .lock =>
    if s.round.isNone && s.udp.readTask then
      ({ s with round := some (ports s.udp.openSockets) }, [])
    else (s, [])
  | s, .visit broken r =>
    match s.round with
    | some (port :: ports) => { s with round := some ports }.visit g port broken r
    | _ => (s, [])
  | s, .unlock => if s.round = some [] then ({ s with round := none }, []) else (s, [])

/-! ## What a callback is to get -/

/-- The callback is registered, its port has a socket of its own that works, and there is a task
that reads from it. -/
structure System.Serves (s : System) (handle : ℤ) (info : CallbackInfo) (fd : ℤ) : Prop where
  registered : s.udp.callbacks.lookup handle = some info
  opened : ∀ port, s.udp.openSockets.lookup port = some fd ↔ port = info.port
  works : (s.sockets fd).error = none
  reading : s.udp.readTask = true

/-- An event leaves the callback and its socket alone: the callback is not removed and its handle
not given out again, the socket is not closed and does not fail, and the system does not give its
descriptor to others. -/
def Keeps (handle fd : ℤ) (s : System) : SystemEvent → Prop
  | .onReceive _ _ calls => calls.fd ≠ fd ∧ int32 (s.udp.callbackIdCounter + 1) ≠ handle
  | .removeCallback handle' stale => handle' ≠ handle ∧ stale ≠ fd
  | .send _ _ _ calls _ => calls.fd ≠ fd
  | .fail fd' _ => fd' ≠ fd
  | .visit broken r => (∀ x ∈ broken, x.1 ≠ fd) ∧ ∀ calls ∈ r.all, calls.fd ≠ fd
  | .arrive .. | .lock | .unlock => True

/-- The datagrams that arrive at a socket. -/
def arrivedAt (fd : ℤ) (es : List SystemEvent) : List (Datagram SockaddrIn UInt8) :=
  es.filterMap fun
    | .arrive fd' d => if fd' = fd then some d else none
    | _ => none

/-- The arguments of the calls of a callback, behind its number. -/
def callsOf (handle : ℤ) (es : List Effect) : List (ℕ × Bytes × Bytes) :=
  es.filterMap fun
    | .called handle' callback data sourceIp =>
      if handle' = handle then some (callback, data, sourceIp) else none
    | _ => none

/-- A call of the callback with a datagram: with all of it if it has at most 1024 bytes, otherwise
with at least the first 1024, and with the text of the address of its sender. -/
structure Delivers (callback : ℕ) (d : Datagram SockaddrIn UInt8) (call : ℕ × Bytes × Bytes) :
    Prop where
  callback_eq : call.1 = callback
  data_prefix : call.2.1 <+: d.data
  length_le : min 1024 d.data.length ≤ call.2.1.length
  source : cstr call.2.2 = inetNtop d.source.sinAddr

/-- A whole round of `readTask`, with room for `n` ports. -/
def fullRound (n : ℕ) (r : Reopening) : List SystemEvent :=
  .lock :: List.replicate n (.visit none r) ++ [.unlock]

/-! ## The pieces -/

section Peek

variable (g : Growth) (d : Datagram SockaddrIn UInt8) (ds : List (Datagram SockaddrIn UInt8))
  (buf : Bytes) (capacity : ℕ)

/-- The loop ends with the datagram in the buffer, or with its first 1024 bytes. -/
theorem peekDatagram_cons : ∃ data capacity',
    peekDatagram g ⟨d :: ds, none⟩ buf capacity = (none, data, capacity') ∧
      data <+: d.data ∧ min 1024 d.data.length ≤ data.length := by
  induction hn : 1024 - buf.length using Nat.strong_induction_on generalizing buf capacity with
  | _ n ih =>
    rw [peekDatagram]
    simp only [DatagramSocket.recvfrom_peek]
    split_ifs with hstop
    · refine ⟨_, _, rfl, ?_⟩
      rw [Datagram.take_buf_read]
      refine ⟨List.take_prefix _ _, ?_⟩
      rw [List.length_take]
      simp only [Datagram.read] at hstop
      omega
    · refine ih _ ?_ _ _ rfl
      rw [length_resize]
      omega

theorem peekDatagram_nil :
    peekDatagram g ⟨[], none⟩ buf capacity = (some .again, buf, capacity) := by
  rw [peekDatagram]
  rfl

end Peek

theorem cstr_writeIp (ip : Bytes) (addr : UInt32) : cstr (writeIp ip addr) = inetNtop addr := by
  have hnul := (inetNtop_text addr).2
  have htext : ∀ c ∈ inetNtop addr, decide (c ≠ 0) = true := fun c hc => by
    rw [decide_eq_true_iff]
    rintro rfl
    exact hnul hc
  rw [writeIp, cstr, List.takeWhile_append_of_pos htext, List.takeWhile_cons_of_neg (by simp),
    List.append_nil]

/-! ## Effects on sockets -/

section Effects

variable {sockets : ℤ → DatagramSocket SockaddrIn UInt8} {fd : ℤ} {es : List Effect}

/-- The effect is on another descriptor. -/
def Effect.Spares (fd : ℤ) : Effect → Prop
  | .opened fd' | .event (.close fd') => fd' ≠ fd
  | _ => True

theorem applyAll_of_spares (h : ∀ e ∈ es, e.Spares fd) : applyAll sockets es fd = sockets fd := by
  induction es generalizing sockets with
  | nil => rfl
  | cons e es ih =>
    obtain ⟨he, hes⟩ := List.forall_mem_cons.1 h
    have hstep : e.apply sockets fd = sockets fd := by
      unfold Effect.apply
      split
      · exact Function.update_of_ne he.symm _ _
      · exact Function.update_of_ne he.symm _ _
      · rfl
    rw [applyAll, List.foldl_cons, ← applyAll, ih hes, hstep]

theorem openSocket_spares {calls : SocketCalls} (h : calls.fd ≠ fd) :
    ∀ e ∈ (openSocket calls).2, e.Spares fd := by
  unfold openSocket
  split_ifs <;> simp [Effect.Spares, h]

/-- A descriptor that `openSocket` returns is the one that the system gave it. -/
theorem openSocket_fst {calls : SocketCalls} (h : (openSocket calls).1 ≠ -1) :
    (openSocket calls).1 = calls.fd := by
  unfold openSocket at h ⊢
  split_ifs at h ⊢ <;> simp_all

theorem reopen_spares {fd' : ℤ} {r : Reopening} (hfd : fd' ≠ fd)
    (hr : ∀ calls ∈ r.all, calls.fd ≠ fd) : ∀ e ∈ (reopenSocketLocked fd' r).2, e.Spares fd := by
  refine List.forall_mem_cons.2 ⟨hfd, fun e he => ?_⟩
  obtain ⟨calls, hcalls, he⟩ := List.mem_flatMap.1 he
  exact openSocket_spares (hr calls hcalls) e he

theorem reopen_fst_ne {fd' : ℤ} {r : Reopening} (hr : ∀ calls ∈ r.all, calls.fd ≠ fd) :
    (reopenSocketLocked fd' r).1 ≠ fd := by
  rw [reopenSocketLocked, openSocket_fst r.succeeds]
  exact hr _ (List.mem_append_right _ (List.mem_singleton_self _))

@[simp] theorem callsOf_append (handle : ℤ) (es fs : List Effect) :
    callsOf handle (es ++ fs) = callsOf handle es ++ callsOf handle fs := List.filterMap_append

theorem callsOf_event (handle : ℤ) (es : List Event) : callsOf handle (es.map .event) = [] := by
  rw [callsOf, List.filterMap_map]
  exact List.filterMap_eq_nil_iff.2 fun _ _ => rfl

theorem callsOf_openSocket (handle : ℤ) (calls : SocketCalls) :
    callsOf handle (openSocket calls).2 = [] := by
  unfold openSocket
  split_ifs <;> rfl

theorem callsOf_reopen (handle fd : ℤ) (r : Reopening) :
    callsOf handle (reopenSocketLocked fd r).2 = [] := by
  have hall : ∀ l : List SocketCalls,
      callsOf handle (l.flatMap fun calls => (openSocket calls).2) = [] := fun l => by
    induction l with
    | nil => rfl
    | cons calls l ih => rw [List.flatMap_cons, callsOf_append, callsOf_openSocket, ih]; rfl
  exact hall r.all

end Effects

/-! ## The loop over the callbacks -/

/-- An entry of a map without repeated keys. -/
theorem filterMap_key {β : Type*} {l : List (Sigma fun _ : ℤ => CallbackInfo)}
    (hl : l.NodupKeys) (handle : ℤ) (f : CallbackInfo → Option β) :
    l.filterMap (fun c => if c.1 = handle then f c.2 else none) =
      ((l.dlookup handle).bind f).toList := by
  induction l with
  | nil => rfl
  | cons c l ih =>
    obtain ⟨key, info⟩ := c
    obtain ⟨hnew, htail⟩ := List.nodupKeys_cons.1 hl
    by_cases hkey : key = handle
    · subst hkey
      have hrest : l.filterMap (fun c => if c.1 = key then f c.2 else none) = [] := by
        rw [ih htail, List.dlookup_eq_none.2 hnew]
        rfl
      rw [List.dlookup_cons_eq, Option.bind_some, List.filterMap_cons, hrest]
      simp only [if_true]
      cases f info <;> rfl
    · rw [List.dlookup_cons_ne _ _ (Ne.symm hkey), ← ih htail, List.filterMap_cons]
      simp only [hkey, if_false]

/-- **The loop calls a callback once** if it is one of the port. -/
theorem callsOf_callAll {udp : Udp} {handle : ℤ} {info : CallbackInfo}
    (h : udp.callbacks.lookup handle = some info) (port : UInt16) (data sourceIp : Bytes) :
    callsOf handle (callAll udp port data sourceIp) =
      if info.port = port then [(info.callback, data, sourceIp)] else [] := by
  have hperm : (inOrder udp.callbacks).Perm udp.callbacks.entries := List.mergeSort_perm _ _
  have hnodup : (inOrder udp.callbacks).NodupKeys :=
    (List.perm_nodupKeys hperm).2 udp.callbacks.nodupKeys
  have hlookup : (inOrder udp.callbacks).dlookup handle = some info :=
    (List.perm_dlookup handle hnodup hperm).trans h
  have hkey := filterMap_key hnodup handle fun info =>
    if info.port = port then some (info.callback, data, sourceIp) else none
  rw [hlookup, Option.bind_some] at hkey
  rw [callAll, callsOf, List.filterMap_filterMap]
  refine (List.filterMap_congr fun c _ => ?_).trans (hkey.trans ?_)
  · by_cases hport : c.2.port = port <;> simp [hport]
  · split_ifs <;> rfl

/-! ## A step -/

/-- The datagrams that the callback gets are taken from the front of its socket. -/
def Gives (handle fd : ℤ) (callback : ℕ) (s : System) (r : System × List Effect)
    (new : List (Datagram SockaddrIn UInt8)) : Prop :=
  ∃ taken, taken ++ (r.1.sockets fd).queue = (s.sockets fd).queue ++ new ∧
    List.Forall₂ (Delivers callback) taken (callsOf handle r.2)

section Steps

variable {g : Growth} {s : System} {handle fd : ℤ} {info : CallbackInfo}

/-- The callback gets nothing, and its socket stays as it is. -/
theorem gives_nil {r : System × List Effect} (hqueue : r.1.sockets fd = s.sockets fd)
    (hcalls : callsOf handle r.2 = []) : Gives handle fd info.callback s r [] :=
  ⟨[], by rw [hqueue, List.nil_append, List.append_nil], by rw [hcalls]; exact .nil⟩

/-- A step after which the callback is served as before, without a call of it. -/
def Leaves (handle : ℤ) (info : CallbackInfo) (fd : ℤ) (s : System) (r : System × List Effect) :
    Prop :=
  r.1.Serves handle info fd ∧ r.1.sockets fd = s.sockets fd ∧ callsOf handle r.2 = []

/-- What a function leaves that changes the maps and has effects on other descriptors. -/
theorem System.Serves.after {udp : Udp} {es : List Effect} (h : s.Serves handle info fd)
    (hregistered : udp.callbacks.lookup handle = some info)
    (hopened : ∀ port, udp.openSockets.lookup port = some fd ↔ port = info.port)
    (hreading : udp.readTask = true) (hspares : ∀ e ∈ es, e.Spares fd)
    (hcalls : callsOf handle es = []) : Leaves handle info fd s (s.after udp es) := by
  have hsocket : applyAll s.sockets es fd = s.sockets fd := applyAll_of_spares hspares
  refine ⟨⟨hregistered, hopened, ?_, hreading⟩, hsocket, hcalls⟩
  exact (congrArg DatagramSocket.error hsocket).trans h.works

theorem System.Serves.leaves (h : s.Serves handle info fd) : Leaves handle info fd s (s, []) :=
  ⟨h, rfl, rfl⟩

/-- Another port gets a socket. -/
theorem System.Serves.insert_opened (h : s.Serves handle info fd) {port : UInt16} {fd' : ℤ}
    (hport : port ≠ info.port) (hfd : fd' ≠ fd) (port' : UInt16) :
    (s.udp.openSockets.insert port fd').lookup port' = some fd ↔ port' = info.port := by
  by_cases heq : port' = port
  · subst heq
    rw [AList.lookup_insert, Option.some_inj]
    exact iff_of_false hfd hport
  · rw [AList.lookup_insert_ne heq]
    exact h.opened port'

/-- An error on the socket of another port. -/
theorem System.Serves.failed (h : s.Serves handle info fd) {port : UInt16} {fd' : ℤ} {e : Errno}
    {r : Reopening} (hport : port ≠ info.port) (hfd : fd' ≠ fd)
    (hr : ∀ calls ∈ r.all, calls.fd ≠ fd) :
    Leaves handle info fd s (s.failed port fd' e r) := by
  unfold System.failed
  split_ifs
  · exact h.after h.registered (h.insert_opened hport (reopen_fst_ne hr)) h.reading
      (reopen_spares hfd hr) (callsOf_reopen handle fd' r)
  · exact h.leaves

theorem breakSocket_of_ne {broken : Option (ℤ × Errno)} (h : ∀ x ∈ broken, x.1 ≠ fd) :
    breakSocket s.sockets broken fd = s.sockets fd := by
  cases broken with
  | none => rfl
  | some x => exact Function.update_of_ne (h x rfl).symm _ _

section Visit

variable {broken : Option (ℤ × Errno)} {r : Reopening}

/-- A read from the socket of another port. -/
theorem System.Serves.take_other (h : s.Serves handle info fd) {port : UInt16} {fd' : ℤ}
    (hport : port ≠ info.port) (hfd : fd' ≠ fd) (hbroken : ∀ x ∈ broken, x.1 ≠ fd)
    (hr : ∀ calls ∈ r.all, calls.fd ≠ fd) :
    Leaves handle info fd s (s.take port fd' broken r) := by
  have hbreak := breakSocket_of_ne (s := s) hbroken
  have hbroke :
      ({ s with sockets := breakSocket s.sockets broken } : System).Serves handle info fd :=
    ⟨h.registered, h.opened, (congrArg DatagramSocket.error hbreak).trans h.works, h.reading⟩
  unfold System.take
  simp only
  rcases (breakSocket s.sockets broken fd').recvfrom s.buf 0 false with ⟨e | answer, socket⟩
  · obtain ⟨hserves, hsocket, hcalls⟩ := hbroke.failed (e := e) hport hfd hr
    exact ⟨hserves, hsocket.trans hbreak, hcalls⟩
  · have hsocket : Function.update (breakSocket s.sockets broken) fd' socket fd = s.sockets fd :=
      (Function.update_of_ne hfd.symm _ _).trans hbreak
    refine ⟨⟨h.registered, h.opened, ?_, h.reading⟩, hsocket, ?_⟩
    · exact (congrArg DatagramSocket.error hsocket).trans h.works
    · exact (callsOf_callAll h.registered _ _ _).trans (if_neg (Ne.symm hport))

/-- The visit of another port. -/
theorem System.Serves.visit_other (h : s.Serves handle info fd) {port : UInt16}
    (hport : port ≠ info.port) (hbroken : ∀ x ∈ broken, x.1 ≠ fd)
    (hr : ∀ calls ∈ r.all, calls.fd ≠ fd) :
    Leaves handle info fd s (s.visit g port broken r) := by
  unfold System.visit
  cases hlookup : s.udp.openSockets.lookup port with
  | none => exact h.leaves
  | some fd' =>
    have hfd : fd' ≠ fd := by
      rintro rfl
      exact hport ((h.opened port).1 hlookup)
    simp only
    generalize peekDatagram g (s.sockets fd') (resize s.buf s.capacity 0) s.capacity = peeked
    have hpeeked : ({ s with buf := peeked.2.1, capacity := peeked.2.2 } : System).Serves handle
        info fd := ⟨h.registered, h.opened, h.works, h.reading⟩
    cases peeked.1 with
    | some e => exact hpeeked.failed hport hfd hr
    | none => exact hpeeked.take_other hport hfd hbroken hr

/-- A read from a socket with a datagram. -/
theorem System.take_cons {port : UInt16} {d : Datagram SockaddrIn UInt8}
    {ds : List (Datagram SockaddrIn UInt8)} (hsocket : s.sockets fd = ⟨d :: ds, none⟩)
    (hbroken : ∀ x ∈ broken, x.1 ≠ fd) :
    s.take port fd broken r =
      ({ s with
          sockets := Function.update (breakSocket s.sockets broken) fd ⟨ds, none⟩
          ip := writeIp s.ip d.source.sinAddr },
        callAll s.udp port s.buf (writeIp s.ip d.source.sinAddr)) := by
  have hread : (breakSocket s.sockets broken fd).recvfrom s.buf 0 false =
      (.ok (d.read s.buf 0), ⟨ds, none⟩) := by
    rw [breakSocket_of_ne hbroken, hsocket, DatagramSocket.recvfrom_take]
  unfold System.take
  simp only [hread, Datagram.buf_read_zero]
  rfl

/-- **The visit of the port** takes the oldest datagram and gives it to the callback. -/
theorem System.Serves.visit_own (h : s.Serves handle info fd) (hbroken : ∀ x ∈ broken, x.1 ≠ fd) :
    let s' := s.visit g info.port broken r
    s'.1.Serves handle info fd ∧ s'.1.udp = s.udp ∧ s'.1.round = s.round ∧
      (s'.1.sockets fd).queue = (s.sockets fd).queue.tail ∧
      Gives handle fd info.callback s s' [] := by
  have hlookup := (h.opened info.port).2 rfl
  obtain ⟨queue, hsocket⟩ : ∃ queue, s.sockets fd = ⟨queue, none⟩ :=
    ⟨_, by rw [← h.works]⟩
  unfold System.visit
  rw [hlookup]
  cases queue with
  | nil =>
    simp only [hsocket, peekDatagram_nil]
    refine ⟨⟨h.registered, h.opened, h.works, h.reading⟩, rfl, rfl, ?_, gives_nil rfl rfl⟩
    exact congrArg DatagramSocket.queue hsocket
  | cons d ds =>
    obtain ⟨data, capacity, hpeek, hdata, hlength⟩ :=
      peekDatagram_cons g d ds (resize s.buf s.capacity 0) s.capacity
    have hupdate : Function.update (breakSocket s.sockets broken) fd
        (⟨ds, none⟩ : DatagramSocket SockaddrIn UInt8) fd = ⟨ds, none⟩ := Function.update_self ..
    simp only [hsocket, hpeek]
    rw [System.take_cons (s := { s with buf := data, capacity }) hsocket hbroken]
    refine ⟨⟨h.registered, h.opened, ?_, h.reading⟩, rfl, rfl, ?_, [d], ?_, ?_⟩
    · exact congrArg DatagramSocket.error hupdate
    · exact congrArg DatagramSocket.queue hupdate
    · simp only [hupdate, hsocket, List.append_nil]
      rfl
    · rw [callsOf_callAll h.registered, if_pos rfl]
      exact .cons ⟨rfl, hdata, hlength, cstr_writeIp _ _⟩ .nil

end Visit

theorem Leaves.gives {r : System × List Effect} (h : Leaves handle info fd s r) :
    r.1.Serves handle info fd ∧ Gives handle fd info.callback s r [] :=
  ⟨h.1, gives_nil h.2.1 h.2.2⟩

theorem System.Serves.onReceive (h : s.Serves handle info fd) {port : UInt16} {callback : ℕ}
    {calls : SocketCalls} (hcalls : calls.fd ≠ fd)
    (hhandle : int32 (s.udp.callbackIdCounter + 1) ≠ handle) :
    Leaves handle info fd s (s.onReceive port callback calls) := by
  have hspares : ∀ es : List Event, (∀ fd', .close fd' ∉ es) →
      ∀ e ∈ s.opening port calls ++ es.map .event, e.Spares fd := by
    intro es hes e he
    rcases List.mem_append.1 he with he | he
    · rw [System.opening] at he
      split_ifs at he
      · cases he
      · exact openSocket_spares hcalls e he
    · obtain ⟨event, hevent, rfl⟩ := List.mem_map.1 he
      cases event with
      | close fd' => exact absurd hevent (hes fd')
      | _ => trivial
  have hnone : ∀ es : List Event, callsOf handle (s.opening port calls ++ es.map .event) = [] := by
    intro es
    rw [callsOf_append, callsOf_event, List.append_nil, System.opening]
    split_ifs
    · rfl
    · exact callsOf_openSocket handle calls
  unfold System.onReceive Udp.onReceive
  cases hfor : s.udp.socketFor port (openSocket calls).1 with
  | none =>
    exact h.after h.registered h.opened h.reading (hspares _ (by simp)) (hnone _)
  | some openSockets =>
    refine h.after ?_ ?_ rfl (hspares _ (by simp)) (hnone _)
    · rw [AList.lookup_insert_ne hhandle.symm]
      exact h.registered
    · rw [socketFor] at hfor
      split_ifs at hfor with hmem hfd
      · cases hfor
        exact h.opened
      · cases hfor
        have hport : port ≠ info.port := by
          rintro rfl
          exact hmem (AList.lookup_isSome.1 (by rw [(h.opened info.port).2 rfl]; rfl))
        refine h.insert_opened hport ?_
        rwa [openSocket_fst hfd]

theorem System.Serves.removeCallback (h : s.Serves handle info fd) {handle' stale : ℤ}
    (hhandle : handle' ≠ handle) (hstale : stale ≠ fd) :
    Leaves handle info fd s (s.removeCallback handle' stale) := by
  have hregistered : (s.udp.callbacks.erase handle').lookup handle = some info := by
    rw [AList.lookup_erase_ne hhandle.symm]
    exact h.registered
  unfold System.removeCallback Udp.removeCallback
  cases hlookup : s.udp.callbacks.lookup handle' with
  | none => exact h.after h.registered h.opened h.reading (by simp) rfl
  | some info' =>
    simp only
    split_ifs with hmany
    · exact h.after hregistered h.opened h.reading (by simp) rfl
    · cases hsocket : s.udp.openSockets.lookup info'.port with
      | none => exact h.after hregistered h.opened h.reading (by simp) rfl
      | some fd' =>
        have hport : info'.port ≠ info.port := fun heq =>
          hmany (hasCallback_iff.2 ⟨handle, info, hregistered, heq.symm⟩)
        refine h.after hregistered (fun port => ?_) h.reading ?_ rfl
        · simp only
          by_cases heq : port = info'.port
          · subst heq
            rw [AList.lookup_erase]
            exact iff_of_false (by simp) hport
          · rw [AList.lookup_erase_ne heq]
            exact h.opened port
        · simp [Effect.Spares, hstale]

theorem System.Serves.send (h : s.Serves handle info fd) {data ip : Bytes} {port : UInt16}
    {calls : SocketCalls} {res : ℤ} (hcalls : calls.fd ≠ fd) :
    Leaves handle info fd s (s.send data port ip calls res) := by
  unfold System.send
  cases s.udp.openSockets.lookup port with
  | some fd' =>
    simp only
    split_ifs
    · exact h.after h.registered h.opened h.reading (by simp [Effect.Spares]) rfl
    · exact h.after h.registered h.opened h.reading (by simp [Effect.Spares]) rfl
  | none =>
    have hopen := openSocket_spares hcalls
    have hnone := callsOf_openSocket handle calls
    simp only
    split_ifs with hfd
    · refine h.after h.registered h.opened h.reading ?_ (by rw [callsOf_append, hnone]; rfl)
      exact List.forall_mem_append.2 ⟨hopen, by simp [Effect.Spares]⟩
    · refine h.after h.registered h.opened h.reading ?_ (by rw [callsOf_append, hnone]; rfl)
      refine List.forall_mem_append.2 ⟨hopen, ?_⟩
      simp [Effect.Spares, openSocket_fst hfd, hcalls]

/-- **One step**: the callback stays served, and gets what is taken from its socket. -/
theorem serves_system (h : s.Serves handle info fd) {e : SystemEvent}
    (hkeep : Keeps handle fd s e) :
    (system g s e).1.Serves handle info fd ∧
      Gives handle fd info.callback s (system g s e) (arrivedAt fd [e]) := by
  cases e with
  | onReceive port callback calls =>
    unfold system
    simp only
    split_ifs
    · exact h.leaves.gives
    · exact (h.onReceive hkeep.1 hkeep.2).gives
  | removeCallback handle' stale =>
    unfold system
    simp only
    split_ifs
    · exact h.leaves.gives
    · exact (h.removeCallback hkeep.1 hkeep.2).gives
  | send data port ip calls res =>
    unfold system
    simp only
    split_ifs
    · exact h.leaves.gives
    · exact (h.send hkeep).gives
  | arrive fd' d =>
    unfold system
    by_cases hfd : fd' = fd
    · subst hfd
      have hupdate : addDatagram s.sockets fd' d fd' =
          { s.sockets fd' with queue := (s.sockets fd').queue ++ [d] } := Function.update_self ..
      have hnew : arrivedAt fd' [.arrive fd' d] = [d] := by simp [arrivedAt]
      refine ⟨⟨h.registered, h.opened, ?_, h.reading⟩, [], ?_, .nil⟩
      · exact (congrArg DatagramSocket.error hupdate).trans h.works
      · rw [hnew, List.nil_append]
        exact congrArg DatagramSocket.queue hupdate
    · have hupdate : addDatagram s.sockets fd' d fd = s.sockets fd :=
        Function.update_of_ne (Ne.symm hfd) _ _
      have hnew : arrivedAt fd [.arrive fd' d] = [] := by simp [arrivedAt, hfd]
      rw [hnew]
      refine ⟨⟨h.registered, h.opened, ?_, h.reading⟩, gives_nil hupdate rfl⟩
      exact (congrArg DatagramSocket.error hupdate).trans h.works
  | fail fd' e =>
    have hbreak : breakSocket s.sockets (some (fd', e)) fd = s.sockets fd :=
      breakSocket_of_ne fun x hx => by
        obtain rfl := Option.some.inj hx
        exact hkeep
    refine ⟨⟨h.registered, h.opened, ?_, h.reading⟩, gives_nil hbreak rfl⟩
    exact (congrArg DatagramSocket.error hbreak).trans h.works
  | lock =>
    unfold system
    simp only
    split_ifs
    · exact ⟨⟨h.registered, h.opened, h.works, h.reading⟩, gives_nil rfl rfl⟩
    · exact h.leaves.gives
  | visit broken r =>
    have hround (ports : List UInt16) :
        ({ s with round := some ports } : System).Serves handle info fd :=
      ⟨h.registered, h.opened, h.works, h.reading⟩
    unfold system
    simp only
    rcases s.round with _ | _ | ⟨port, ports⟩
    · exact h.leaves.gives
    · exact h.leaves.gives
    · by_cases hport : port = info.port
      · subst hport
        obtain ⟨hserves, -, -, -, hgives⟩ := (hround ports).visit_own (g := g) (r := r) hkeep.1
        exact ⟨hserves, hgives⟩
      · exact ((hround ports).visit_other hport hkeep.1 hkeep.2).gives
  | unlock =>
    unfold system
    simp only
    split_ifs
    · exact ⟨⟨h.registered, h.opened, h.works, h.reading⟩, gives_nil rfl rfl⟩
    · exact h.leaves.gives

end Steps

/-! ## Runs -/

section Runs

variable {g : Growth} {s : System} {handle fd : ℤ} {info : CallbackInfo}

theorem arrivedAt_cons (fd : ℤ) (e : SystemEvent) (es : List SystemEvent) :
    arrivedAt fd (e :: es) = arrivedAt fd [e] ++ arrivedAt fd es :=
  List.filterMap_append (l := [e])

theorem arrivedAt_append (fd : ℤ) (es fs : List SystemEvent) :
    arrivedAt fd (es ++ fs) = arrivedAt fd es ++ arrivedAt fd fs := List.filterMap_append

/-- What the callback gets in a run is taken from the front of its socket. -/
theorem serves_run (h : s.Serves handle info fd) (es : List SystemEvent)
    (hkeeps : EveryStep (system g) (Keeps handle fd) s es) :
    (final (system g) s es).Serves handle info fd ∧
      ∃ taken, taken ++ ((final (system g) s es).sockets fd).queue =
          (s.sockets fd).queue ++ arrivedAt fd es ∧
        List.Forall₂ (Delivers info.callback) taken
          (callsOf handle (outputs (system g) (trace (system g) s es))) := by
  induction es generalizing s with
  | nil => exact ⟨h, [], (List.append_nil _).symm, .nil⟩
  | cons e es ih =>
    obtain ⟨hkeep, hkeeps⟩ := EveryStep.cons_iff.1 hkeeps
    obtain ⟨hserves, taken₁, hqueue₁, hcalls₁⟩ := serves_system (g := g) h hkeep
    obtain ⟨hfinal, taken₂, hqueue₂, hcalls₂⟩ := ih hserves hkeeps
    refine ⟨hfinal, taken₁ ++ taken₂, ?_, ?_⟩
    · rw [final_cons, List.append_assoc, hqueue₂, ← List.append_assoc, hqueue₁,
        arrivedAt_cons fd e es, List.append_assoc]
    · rw [trace_cons, outputs_cons, callsOf_append]
      exact List.rel_append hcalls₁ hcalls₂

/-- A socket that was opened again is under its old key. -/
theorem length_insert {openSockets : AList fun _ : UInt16 => ℤ} {port : UInt16} {fd' : ℤ}
    (h : openSockets.lookup port = some fd) :
    (openSockets.insert port fd').keys.length = openSockets.keys.length := by
  have hmem : port ∈ openSockets.keys := AList.lookup_isSome.1 (by rw [h]; rfl)
  rw [AList.keys_insert, List.length_cons, List.length_erase_of_mem hmem]
  have := List.length_pos_of_mem hmem
  omega

/-- What a visit does to the round and to the ports. -/
theorem visit_frame (s : System) (port : UInt16) (broken : Option (ℤ × Errno)) (r : Reopening) :
    (s.visit g port broken r).1.round = s.round ∧
      (s.visit g port broken r).1.udp.openSockets.keys.length =
        s.udp.openSockets.keys.length := by
  have hfailed : ∀ (s : System) (fd : ℤ) (e : Errno), s.udp.openSockets.lookup port = some fd →
      (s.failed port fd e r).1.round = s.round ∧
        (s.failed port fd e r).1.udp.openSockets.keys.length =
          s.udp.openSockets.keys.length := by
    intro s fd e hlookup
    unfold System.failed
    split_ifs
    · exact ⟨rfl, length_insert hlookup⟩
    · exact ⟨rfl, rfl⟩
  unfold System.visit
  cases hlookup : s.udp.openSockets.lookup port with
  | none => exact ⟨rfl, rfl⟩
  | some fd =>
    simp only
    generalize peekDatagram g (s.sockets fd) (resize s.buf s.capacity 0) s.capacity = peeked
    cases peeked.1 with
    | some e => exact hfailed _ fd e hlookup
    | none =>
      unfold System.take
      simp only
      rcases (breakSocket s.sockets broken fd).recvfrom peeked.2.1 0 false with
        ⟨e | answer, socket⟩
      · exact hfailed _ fd e hlookup
      · exact ⟨rfl, rfl⟩

/-- The visits of a round, with `ports` left. -/
theorem visits_run {r : Reopening} (hr : ∀ calls ∈ r.all, calls.fd ≠ fd) {ports : List UInt16}
    {n : ℕ} (h : s.Serves handle info fd) (hround : s.round = some ports) (hnodup : ports.Nodup)
    (hn : ports.length ≤ n) :
    let s' := final (system g) s (List.replicate n (.visit none r))
    s'.Serves handle info fd ∧ s'.round = some [] ∧
      s'.udp.openSockets.keys.length = s.udp.openSockets.keys.length ∧
      (s'.sockets fd).queue =
        if info.port ∈ ports then (s.sockets fd).queue.tail else (s.sockets fd).queue := by
  have hnone : ∀ x ∈ (none : Option (ℤ × Errno)), x.1 ≠ fd := fun x hx => by cases hx
  induction ports generalizing s n with
  | nil =>
    have hstay : ∀ n, final (system g) s (List.replicate n (.visit none r)) = s := fun n => by
      induction n with
      | zero => rfl
      | succ n ih =>
        have hstep : (system g s (.visit none r)).1 = s := by
          unfold system
          simp only [hround]
        rw [List.replicate_succ, final_cons, hstep, ih]
    rw [hstay]
    exact ⟨h, hround, rfl, by simp⟩
  | cons port ports ih =>
    obtain ⟨n, rfl⟩ : ∃ k, n = k + 1 := ⟨n - 1, by rw [List.length_cons] at hn; omega⟩
    obtain ⟨hnew, hrest⟩ := List.nodup_cons.1 hnodup
    have hle : ports.length ≤ n := by
      rw [List.length_cons] at hn
      omega
    have hstep : system g s (.visit none r) =
        ({ s with round := some ports } : System).visit g port none r := by
      unfold system
      simp only [hround]
    have hserves : ({ s with round := some ports } : System).Serves handle info fd :=
      ⟨h.registered, h.opened, h.works, h.reading⟩
    obtain ⟨hround', hkeys⟩ := visit_frame (g := g) { s with round := some ports } port none r
    rw [List.replicate_succ, final_cons, hstep]
    by_cases hport : port = info.port
    · subst hport
      obtain ⟨hserves', -, -, hqueue, -⟩ := hserves.visit_own (g := g) (r := r) hnone
      obtain ⟨hfinal, hend, hlength, hlast⟩ := ih hserves' hround' hrest hle
      refine ⟨hfinal, hend, hlength.trans hkeys, ?_⟩
      rw [hlast, if_neg hnew, if_pos List.mem_cons_self, hqueue]
    · obtain ⟨hserves', hsocket, -⟩ := hserves.visit_other (g := g) hport hnone hr
      obtain ⟨hfinal, hend, hlength, hlast⟩ := ih hserves' hround' hrest hle
      refine ⟨hfinal, hend, hlength.trans hkeys, ?_⟩
      have hmem : info.port ∈ port :: ports ↔ info.port ∈ ports := by
        rw [List.mem_cons, or_iff_right (Ne.symm hport)]
      rw [hlast, hsocket]
      simp only [hmem]

/-- **A whole round** takes one datagram from the socket. -/
theorem fullRound_run {r : Reopening} (hr : ∀ calls ∈ r.all, calls.fd ≠ fd) {n : ℕ}
    (h : s.Serves handle info fd) (hround : s.round = none)
    (hn : s.udp.openSockets.keys.length ≤ n) :
    let s' := final (system g) s (fullRound n r)
    s'.Serves handle info fd ∧ s'.round = none ∧
      s'.udp.openSockets.keys.length = s.udp.openSockets.keys.length ∧
      (s'.sockets fd).queue = (s.sockets fd).queue.tail := by
  have hperm : (ports s.udp.openSockets).Perm s.udp.openSockets.keys := List.mergeSort_perm _ _
  have hmem : info.port ∈ ports s.udp.openSockets :=
    hperm.mem_iff.2 (AList.lookup_isSome.1 (by rw [(h.opened info.port).2 rfl]; rfl))
  have hlock : (system g s .lock).1 = { s with round := some (ports s.udp.openSockets) } := by
    unfold system
    simp only [hround, h.reading, Option.isNone_none, Bool.and_self, if_true]
  have hlocked : ({ s with round := some (ports s.udp.openSockets) } : System).Serves handle info
      fd := ⟨h.registered, h.opened, h.works, h.reading⟩
  obtain ⟨hserves, hend, hkeys, hqueue⟩ := visits_run (g := g) (n := n) hr hlocked rfl
    (hperm.nodup_iff.2 s.udp.openSockets.nodupKeys) (hperm.length_eq.trans_le hn)
  rw [if_pos hmem] at hqueue
  have hfinal : final (system g) s (fullRound n r) = { final (system g)
      { s with round := some (ports s.udp.openSockets) } (List.replicate n (.visit none r)) with
        round := none } := by
    rw [fullRound, final_append, final_cons (s := s), hlock, final_cons, final_nil]
    generalize final (system g) _ _ = s' at hend ⊢
    unfold system
    simp only [hend, if_true]
  rw [hfinal]
  exact ⟨⟨hserves.registered, hserves.opened, hserves.works, hserves.reading⟩, rfl, hkeys, hqueue⟩

/-- Rounds of `readTask`, one behind the other. -/
def fullRounds (n : ℕ) (r : Reopening) (k : ℕ) : List SystemEvent :=
  (List.replicate k (fullRound n r)).flatten

theorem fullRounds_run {r : Reopening} (hr : ∀ calls ∈ r.all, calls.fd ≠ fd) {n k : ℕ}
    (h : s.Serves handle info fd) (hround : s.round = none)
    (hn : s.udp.openSockets.keys.length ≤ n) (hk : (s.sockets fd).queue.length ≤ k) :
    ((final (system g) s (fullRounds n r k)).sockets fd).queue = [] := by
  induction k generalizing s with
  | zero => exact List.eq_nil_of_length_eq_zero (Nat.le_zero.1 hk)
  | succ k ih =>
    obtain ⟨hserves, hround', hkeys, hqueue⟩ := fullRound_run (g := g) hr h hround hn
    rw [fullRounds, List.replicate_succ, List.flatten_cons, final_append]
    refine ih hserves hround' (hkeys.trans_le hn) ?_
    rw [hqueue, List.length_tail]
    omega

theorem keeps_fullRounds {r : Reopening} (hr : ∀ calls ∈ r.all, calls.fd ≠ fd) (n k : ℕ) :
    EveryStep (system g) (Keeps handle fd) s (fullRounds n r k) := by
  have hall : ∀ (es : List SystemEvent) (s : System), (∀ e ∈ es, ∀ s, Keeps handle fd s e) →
      EveryStep (system g) (Keeps handle fd) s es := by
    intro es s hes c hc
    refine hes c.2 ?_ c.1
    rw [← @map_snd_trace _ _ _ (system g) s es]
    exact List.mem_map_of_mem hc
  refine hall _ _ fun e he s => ?_
  obtain ⟨round, hround, he⟩ := List.mem_flatten.1 he
  rw [List.eq_of_mem_replicate hround, fullRound] at he
  rcases List.mem_append.1 he with he | he
  · rcases List.mem_cons.1 he with rfl | he
    · trivial
    · rw [List.eq_of_mem_replicate he]
      exact ⟨fun x hx => (by cases hx), hr⟩
  · rw [List.mem_singleton.1 he]
    trivial

theorem arrivedAt_fullRounds (fd : ℤ) (n : ℕ) (r : Reopening) (k : ℕ) :
    arrivedAt fd (fullRounds n r k) = [] := by
  refine List.filterMap_eq_nil_iff.2 fun e he => ?_
  obtain ⟨round, hround, he⟩ := List.mem_flatten.1 he
  rw [List.eq_of_mem_replicate hround, fullRound] at he
  rcases List.mem_append.1 he with he | he
  · rcases List.mem_cons.1 he with rfl | he
    · rfl
    · rw [List.eq_of_mem_replicate he]
  · rw [List.mem_singleton.1 he]

/-- **A callback gets every datagram of its port**, once and in the order of arrival: in any run
that leaves the callback and its socket alone, what it has got has been taken from the front of the
socket, and when `readTask` goes on for as many rounds as there are datagrams that wait, it has got
them all. -/
theorem callback_datagrams (g : Growth) (s : System) (handle fd : ℤ) (info : CallbackInfo)
    (es : List SystemEvent) (h : s.Serves handle info fd)
    (hkeeps : EveryStep (system g) (Keeps handle fd) s es) :
    let s' := final (system g) s es
    (∃ taken, taken ++ (s'.sockets fd).queue = (s.sockets fd).queue ++ arrivedAt fd es ∧
        List.Forall₂ (Delivers info.callback) taken
          (callsOf handle (outputs (system g) (trace (system g) s es)))) ∧
      ∀ (n k : ℕ) (r : Reopening), s'.round = none → s'.udp.openSockets.keys.length ≤ n →
        (s'.sockets fd).queue.length ≤ k → (∀ calls ∈ r.all, calls.fd ≠ fd) →
        List.Forall₂ (Delivers info.callback) ((s.sockets fd).queue ++ arrivedAt fd es)
          (callsOf handle (outputs (system g) (trace (system g) s
            (es ++ fullRounds n r k)))) := by
  obtain ⟨hserves, hrun⟩ := serves_run h es hkeeps
  refine ⟨hrun, fun n k r hround hn hk hr => ?_⟩
  obtain ⟨-, taken, hqueue, hcalls⟩ := serves_run (g := g) h (es ++ fullRounds n r k)
    (EveryStep.append_iff.2 ⟨hkeeps, keeps_fullRounds hr n k⟩)
  rw [final_append, fullRounds_run hr hserves hround hn hk, List.append_nil, arrivedAt_append,
    arrivedAt_fullRounds, List.append_nil] at hqueue
  rwa [hqueue] at hcalls

/-- A vector that doubles its capacity. -/
def doubling : Growth := ⟨fun size n => max (2 * size) n, fun _ _ => le_max_right ..⟩

/-- `openSocket` succeeds at once. -/
def reopenAs (fd : ℤ) (h : fd ≠ -1) : Reopening where
  failures := []
  success := ⟨fd, true, true⟩
  fails := List.forall_mem_nil _
  succeeds := by rwa [openSocket, if_neg h]

/-- A callback of port 53, the first one, on the descriptor 4. -/
def listening : System where
  udp := ⟨(∅ : AList fun _ : UInt16 => ℤ).insert 53 4,
    (∅ : AList fun _ : ℤ => CallbackInfo).insert 1 ⟨7, 53⟩, 1, true⟩
  sockets := Function.update (fun _ => ⟨[], some .badf⟩) 4 ⟨[], none⟩
  buf := List.replicate 64 0
  capacity := 64
  ip := []
  round := none

theorem serves_listening : listening.Serves 1 ⟨7, 53⟩ 4 where
  registered := rfl
  opened port := by
    by_cases h : port = 53
    · subst h
      exact iff_of_true rfl rfl
    · have hnone : listening.udp.openSockets.lookup port = none := by
        rw [listening, AList.lookup_insert_ne h]
        rfl
      rw [hnone]
      exact iff_of_false (by simp) h
  works := rfl
  reading := rfl

/-- Another task sends, a datagram comes, and another socket fails. -/
theorem callback_datagrams_listening :
    List.Forall₂ (Delivers 7) [⟨⟨53, 0x0100007F⟩, [1, 2, 3]⟩]
      (callsOf 1 (outputs (system doubling) (trace (system doubling) listening
        ([.send [9] 80 (literal "10.0.0.1") ⟨5, true, true⟩ 1,
          .arrive 4 ⟨⟨53, 0x0100007F⟩, [1, 2, 3]⟩, .fail 6 .badf] ++
          fullRounds 1 (reopenAs 8 (by decide)) 1)))) :=
  (callback_datagrams doubling listening 1 4 ⟨7, 53⟩
    [.send [9] 80 (literal "10.0.0.1") ⟨5, true, true⟩ 1,
      .arrive 4 ⟨⟨53, 0x0100007F⟩, [1, 2, 3]⟩, .fail 6 .badf] serves_listening
    (by simp [EveryStep, Keeps])).2 1 1 (reopenAs 8 (by decide)) rfl le_rfl le_rfl
    (by simp [reopenAs, Reopening.all])

end Runs

end RbProtocol.Udp
