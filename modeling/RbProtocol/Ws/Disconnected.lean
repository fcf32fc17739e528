import RbProtocol.Ws.Dropped

/-!
# Clients that are gone

When a peer has ended its side of a connection and all its bytes are read, `recv` answers 0.
`read_at_least` takes every answer that is too short for bytes that have not come yet, also this one
(`Stream.readAtLeast_eq`), so `process_client` goes on waiting, and `recv_iter` never takes the
client out (`EndReported.run`). A client whose peer ends its side is taken out and closed only if it
is dropped before that, at one of its frames or since the connection has failed (`released_iff`).

A client that is taken out is closed, and only then: the descriptors that have been closed and those
of the clients are together the ones that have been added (`Connections.final_perm`).
-/

namespace RbProtocol.Ws

open Library Machine

/-! ## The end of a stream -/

/-- What `recv` answers. -/
inductive Received
  | error
  | wouldBlock
  | bytes (bytes : Bytes)

/-- What can be read from a connection, and whether the peer has ended its side behind it. -/
structure Stream where
  socket : Socket
  ended : Bool

namespace Stream

/-- `recv` of up to `n` bytes, with `MSG_PEEK | MSG_DONTWAIT`. -/
def recv (stream : Stream) (n : ℕ) : Received :=
  if stream.socket.failed then .error
  else if stream.socket.avail = [] ∧ stream.ended = false then .wouldBlock
  else .bytes (stream.socket.avail.take n)

/-- `read_at_least`, on what `recv` answers. -/
def readAtLeast (stream : Stream) (n : ℕ) : Option (Bytes × Stream) :=
  match stream.recv n with
  | .error => none
  | .wouldBlock => some ([], stream)
  | .bytes bytes =>
    if bytes.length < n then some ([], stream)
    else some (bytes, { stream with
      socket := { stream.socket with avail := stream.socket.avail.drop n } })

/-- **`read_at_least` sees no end of the stream.** -/
theorem readAtLeast_eq (stream : Stream) (n : ℕ) :
    (stream.readAtLeast n).map (fun r => (r.1, r.2.socket)) = Ws.readAtLeast stream.socket n := by
  obtain ⟨⟨avail, failed⟩, ended⟩ := stream
  cases failed with
  | true => rfl
  | false =>
    have hlen : (avail.take n).length < n ↔ avail.length < n := by
      rw [List.length_take]
      omega
    rw [readAtLeast, recv, Ws.readAtLeast]
    simp only [Bool.false_eq_true, if_false]
    by_cases hnone : avail = [] ∧ ended = false
    · obtain ⟨rfl, rfl⟩ := hnone
      simp
    · simp only [hnone, if_false, hlen]
      by_cases hshort : avail.length < n
      · simp only [hshort, if_true, Option.map_some]
      · simp only [hshort, if_false, Option.map_some]

end Stream

/-! ## Connections that end -/

/-- The backend, and the connections whose peers have ended their side. -/
structure Connections where
  backend : Backend
  ended : ℤ → Bool

/-- What happens to the backend and the connections. -/
inductive ConnectionEvent
  | backend (e : WsEvent)
  /-- The peer ends its side. -/
  | finish (fd : ℤ)

namespace Connections

/-- The machine of the backend, where no bytes come behind the end of a connection. By
`Stream.readAtLeast_eq` the backend itself does not depend on the ends. -/
def machine : Machine Connections ConnectionEvent WsEffect
  | c, .finish fd => ({ c with ended := Function.update c.ended fd true }, [])
  | c, .backend (.accept fd) =>
    (⟨(Ws.backend c.backend (.accept fd)).1, Function.update c.ended fd false⟩, [])
  | c, .backend (.arrive fd bytes) =>
    if c.ended fd then (c, [])
    else ({ c with backend := (Ws.backend c.backend (.arrive fd bytes)).1 }, [])
  | c, .backend e =>
    ({ c with backend := (Ws.backend c.backend e).1 }, (Ws.backend c.backend e).2)

def start : Connections := ⟨.start, fun _ => false⟩

/-- The peer on `f` has ended its side, and the next read of the client asks for more than is
left: `recv` reports the end. -/
def EndReported (c : Connections) (f : ℤ) : Prop :=
  c.ended f = true ∧ ∃ client avail, Serves c.backend f client avail ∧
    avail.length < client.needs

/-- `recv_iter` gets as far as the client on `f`. -/
def Reaches (c : Connections) (f : ℤ) : Prop :=
  ∃ l₁ client l₂, c.backend.clients = l₁ ++ client :: l₂ ∧ client.fd = f ∧
    (recvLoop c.backend.sockets l₁).full = none

/-- `recv_iter` takes the client on `f` out and closes its descriptor. -/
def Releases (c : Connections) (f : ℤ) : Prop :=
  f ∉ (machine c (.backend .recvIter)).1.backend.fds ∧
    .close f ∈ (machine c (.backend .recvIter)).2

/-- An event that leaves the connection alone. -/
def KeepsOn (f : ℤ) : ConnectionEvent → Prop
  | .backend e => Keeps f e
  | .finish _ => True

instance (f : ℤ) : DecidablePred (KeepsOn f)
  | .backend e => inferInstanceAs (Decidable (Keeps f e))
  | .finish _ => inferInstanceAs (Decidable True)

/-- However things go on, when the end is reported a call of `recv_iter` that gets as far as the
client releases it. -/
def ReleasedNext (c : Connections) (f : ℤ) : Prop :=
  ∀ more, (∀ e ∈ more, KeepsOn f e) → (final machine c more).EndReported f →
    (final machine c more).Reaches f → (final machine c more).Releases f

/-- The client on `f` is released behind a run: at the next call of `recv_iter` that gets as far as
it when the end is reported, and by some number of calls it is taken out and its descriptor is
closed. -/
def Released (c : Connections) (f : ℤ) (es : List ConnectionEvent) : Prop :=
  (final machine c es).ReleasedNext f ∧ ∃ k,
    f ∉ (final machine c (es ++ List.replicate k (.backend .recvIter))).backend.fds ∧
      .close f ∈ outputs machine (trace machine c (es ++ List.replicate k (.backend .recvIter)))

/-- The descriptor is not given out again. -/
def KeepsDescriptor (f : ℤ) : ConnectionEvent → Prop
  | .backend (.accept fd) | .backend (.addClient fd) => fd ≠ f
  | _ => True

/-- `recv` fails from now on, or a `send` has failed. -/
def Breaks (f : ℤ) : ConnectionEvent → Prop
  | .backend (.fail fd) | .backend (.closeClient fd) => fd = f
  | _ => False

/-- The bytes that come on a connection before its end. -/
def received (f : ℤ) (t : List (Connections × ConnectionEvent)) : Bytes :=
  t.flatMap fun s =>
    match s.2 with
    | .backend e => if s.1.ended f then [] else arrived f [e]
    | .finish _ => []

end Connections

/-! ## A client is closed once -/

/-- The descriptors that the backend closes. -/
def closed (es : List WsEffect) : List ℤ :=
  es.filterMap fun
    | .close fd => some fd
    | _ => none

/-- The descriptors that the web server hands over. -/
def added (es : List ConnectionEvent) : List ℤ :=
  es.filterMap fun
    | .backend (.addClient fd) => some fd
    | _ => none

@[simp] theorem closed_append (es₁ es₂ : List WsEffect) :
    closed (es₁ ++ es₂) = closed es₁ ++ closed es₂ := List.filterMap_append

theorem mem_closed {es : List WsEffect} {fd : ℤ} : fd ∈ closed es ↔ .close fd ∈ es := by
  rw [closed, List.mem_filterMap]
  constructor
  · rintro ⟨e, he, hfd⟩
    cases e with
    | close fd' => exact Option.some.inj hfd ▸ he
    | parse | send | fault => cases hfd
  · exact fun h => ⟨_, h, rfl⟩

/-- The clients of a round stay or are closed. -/
theorem recvLoop_perm (sockets : ℤ → Socket) {clients : List Client}
    (h : ∀ client ∈ clients, client.Waiting) :
    (closed (recvLoop sockets clients).effects ++
      (recvLoop sockets clients).clients.map Client.fd).Perm (clients.map Client.fd) := by
  induction clients generalizing sockets with
  | nil => exact List.Perm.refl _
  | cons client rest ih =>
    obtain ⟨hclient, hrest⟩ := List.forall_mem_cons.1 h
    have hturn := goodTurn_processClient (sockets client.fd) hclient
    rw [recvLoop]
    cases hrun : processClient client (sockets client.fd) with
    | closed => exact (ih sockets hrest).cons client.fd
    | fault =>
      rw [hrun] at hturn
      exact hturn.elim
    | running client' socket =>
      rw [hrun] at hturn
      obtain ⟨-, hfd, -, -⟩ := hturn
      simp only
      split_ifs
      · rw [closed, List.filterMap_nil, List.nil_append, List.map_cons, List.map_cons, hfd]
      · rw [List.map_cons, List.map_cons, hfd]
        exact List.perm_middle.trans ((ih _ hrest).cons client.fd)

theorem closeClientLocked_perm (b : Backend) (fd : ℤ) :
    (closed (closeClientLocked b fd).2 ++ (closeClientLocked b fd).1.fds).Perm b.fds := by
  rw [fds_closeClientLocked]
  by_cases hmem : fd ∈ b.fds
  · have hclosed : closed (closeClientLocked b fd).2 = [fd] := by
      obtain ⟨client, hclient, hfd⟩ := List.mem_map.1 hmem
      rw [closeClientLocked, if_pos (List.any_eq_true.2 ⟨client, hclient, by simpa using hfd⟩)]
      rfl
    rw [hclosed]
    exact (List.perm_cons_erase hmem).symm
  · have hclosed : closed (closeClientLocked b fd).2 = [] := by
      refine List.eq_nil_iff_forall_not_mem.2 fun fd' hfd' => hmem ?_
      exact (close_mem_closeClientLocked.1 (mem_closed.1 hfd')).2
    rw [hclosed, List.erase_of_not_mem hmem, List.nil_append]

theorem recvIter_perm {b : Backend} (h : ∀ client ∈ b.clients, client.Waiting) :
    (closed (recvIter b).2 ++ (recvIter b).1.fds).Perm b.fds := by
  have hloop := recvLoop_perm b.sockets h
  cases hfull : (recvLoop b.sockets b.clients).full with
  | none =>
    rw [recvIter_none hfull]
    exact hloop
  | some client =>
    rw [recvIter_some hfull]
    simp only [closed_append, List.append_assoc]
    refine (List.Perm.append_left _ ?_).trans hloop
    rw [processClientFullyReceivedLocked]
    split_ifs
    · exact closeClientLocked_perm _ client.fd
    · exact List.Perm.refl _

namespace Connections

variable {c : Connections}

/-- **A client that goes is closed**, and none is closed that does not go. -/
theorem machine_perm (h : ∀ client ∈ c.backend.clients, client.Waiting) (e : ConnectionEvent) :
    (closed (machine c e).2 ++ (machine c e).1.backend.fds).Perm
      (c.backend.fds ++ added [e]) := by
  have hquiet : (closed [] ++ c.backend.fds).Perm (c.backend.fds ++ []) := by
    rw [List.append_nil]
    exact List.Perm.refl _
  cases e with
  | finish fd => exact hquiet
  | backend e =>
    cases e with
    | accept fd | fail fd => exact hquiet
    | arrive fd bytes =>
      rw [machine]
      split_ifs <;> exact hquiet
    | addClient fd =>
      have hfds := Host.fds_addClient c.backend fd
      simp only [machine, hfds]
      exact List.Perm.refl _
    | closeClient fd =>
      exact (closeClientLocked_perm c.backend fd).trans (by simp [added])
    | recvIter => exact (recvIter_perm h).trans (by simp [added])

theorem waiting_machine (h : ∀ client ∈ c.backend.clients, client.Waiting) (e : ConnectionEvent) :
    ∀ client ∈ (machine c e).1.backend.clients, client.Waiting := by
  cases e with
  | finish fd => exact h
  | backend e =>
    have hnext := waiting_backend h e
    cases e with
    | arrive fd bytes =>
      rw [machine]
      split_ifs <;> exact h
    | accept | fail | addClient | closeClient | recvIter => exact hnext

/-- The descriptors of a run: those that were handed over are closed, or they are still those of
clients. -/
theorem final_perm (h : ∀ client ∈ c.backend.clients, client.Waiting)
    (es : List ConnectionEvent) :
    (closed (outputs machine (trace machine c es)) ++ (final machine c es).backend.fds).Perm
      (c.backend.fds ++ added es) := by
  induction es generalizing c with
  | nil =>
    rw [final_nil, trace_nil, outputs_nil, added, List.filterMap_nil, List.append_nil]
    exact List.Perm.refl _
  | cons e es ih =>
    have hadded : added (e :: es) = added [e] ++ added es := List.filterMap_append (l := [e])
    rw [final_cons, trace_cons, outputs_cons, closed_append, hadded, List.append_assoc,
      ← List.append_assoc c.backend.fds]
    calc closed (machine c e).2 ++ (closed (outputs machine (trace machine (machine c e).1 es)) ++
          (final machine (machine c e).1 es).backend.fds)
        |>.Perm (closed (machine c e).2 ++ ((machine c e).1.backend.fds ++ added es)) :=
          (ih (waiting_machine h e)).append_left _
      _ |>.Perm (c.backend.fds ++ added [e] ++ added es) := by
          rw [← List.append_assoc]
          exact (machine_perm h e).append_right _

/-! ## The end of a connection is not seen -/

variable {f : ℤ}

/-- **A client whose connection has ended stays.** -/
theorem EndReported.step (h : c.EndReported f) {e : ConnectionEvent} (he : KeepsOn f e) :
    (machine c e).1.EndReported f := by
  obtain ⟨hended, client, avail, hserves, hshort⟩ := h
  have hnext (e : WsEvent) (he : Keeps f e) (hcall : e ≠ .recvIter) (hnone : arrived f [e] = []) :
      Serves (Ws.backend c.backend e).1 f client avail := by
    have hserves' := hserves.next he hcall
    rwa [hnone, List.append_nil] at hserves'
  cases e with
  | finish fd =>
    refine ⟨?_, client, avail, hserves, hshort⟩
    rcases eq_or_ne f fd with rfl | hne
    · exact Function.update_self ..
    · exact (Function.update_of_ne hne _ _).trans hended
  | backend e =>
    cases e with
    | accept fd =>
      have hne : f ≠ fd := fun heq => he heq.symm
      exact ⟨(Function.update_of_ne hne _ _).trans hended, client, avail,
        hnext (.accept fd) he (by simp) rfl, hshort⟩
    | arrive fd bytes =>
      rw [machine]
      split_ifs with hfd
      · exact ⟨hended, client, avail, hserves, hshort⟩
      · have hne : fd ≠ f := by
          rintro rfl
          exact hfd hended
        exact ⟨hended, client, avail,
          hnext (.arrive fd bytes) he (by simp) (by simp [arrived, hne]), hshort⟩
    | fail fd => exact ⟨hended, client, avail, hnext (.fail fd) he (by simp) rfl, hshort⟩
    | addClient fd => exact ⟨hended, client, avail, hnext (.addClient fd) he (by simp) rfl, hshort⟩
    | closeClient fd =>
      exact ⟨hended, client, avail, hnext (.closeClient fd) he (by simp) rfl, hshort⟩
    | recvIter =>
      obtain ⟨-, -, -, -, -, hfd, -, hwaiting⟩ := id hserves
      have hwait : client.Waiting := by
        obtain ⟨l₁, l₂, hclients, -⟩ := hserves
        exact hwaiting client (hclients ▸ List.mem_append_right _ List.mem_cons_self)
      refine ⟨hended, client, avail, ?_, hshort⟩
      have hcalled := recvIter_serves hserves (processClient_short hwait hshort) hfd
      generalize parsed f (Ws.recvIter c.backend).2 = payloads at hcalled
      cases hcalled with
      | other hserves' => exact hserves'
      | turn _ hserves' => exact hserves'
      | message hstate => exact absurd hstate hwait.state_ne
      | closed hstate => exact absurd hstate hwait.state_ne

theorem EndReported.run (h : c.EndReported f) {es : List ConnectionEvent}
    (hes : ∀ e ∈ es, KeepsOn f e) : (final machine c es).EndReported f := by
  induction es generalizing c with
  | nil => exact h
  | cons e es ih =>
    obtain ⟨he, hes⟩ := List.forall_mem_cons.1 hes
    exact ih (h.step he) hes

theorem EndReported.mem_fds (h : c.EndReported f) : f ∈ c.backend.fds := by
  obtain ⟨-, client, avail, hserves, -⟩ := h
  exact hserves.mem_fds

theorem EndReported.not_releases (h : c.EndReported f) : ¬c.Releases f := fun hreleases =>
  hreleases.1 (h.step (e := .backend .recvIter) trivial).mem_fds

/-- A call of `recv_iter` that ends before the client leaves fewer bytes. -/
theorem EndReported.reaches_or_lt (h : c.EndReported f) : c.Reaches f ∨
    (machine c (.backend .recvIter)).1.backend.waitingBytes < c.backend.waitingBytes := by
  obtain ⟨-, client, avail, ⟨l₁, l₂, hclients, -, -, hfd, -, hwaiting⟩, -⟩ := h
  cases hfull : (recvLoop c.backend.sockets l₁).full with
  | none => exact .inl ⟨l₁, client, l₂, hclients, hfd, hfull⟩
  | some x =>
    have hloop : (recvLoop c.backend.sockets c.backend.clients).full = some x := by
      rw [hclients, recvLoop_append]
      simp [hfull]
    exact .inr (waitingBytes_recvIter_lt hwaiting hloop)

/-- **Some call of `recv_iter` gets as far as the client.** -/
theorem EndReported.exists_reaches (h : c.EndReported f) :
    ∃ k, (final machine c
      (List.replicate k (.backend .recvIter))).Reaches f := by
  induction hn : c.backend.waitingBytes using Nat.strong_induction_on generalizing c with
  | _ n ih =>
    rcases h.reaches_or_lt with hreaches | hlt
    · exact ⟨0, hreaches⟩
    · obtain ⟨k, hk⟩ := ih _ (hn ▸ hlt) (h.step (e := .backend .recvIter) trivial) rfl
      exact ⟨k + 1, by rwa [List.replicate_succ, final_cons]⟩

theorem keepsOn_replicate (f : ℤ) (k : ℕ) :
    ∀ e ∈ List.replicate k (ConnectionEvent.backend .recvIter), KeepsOn f e :=
  fun _ he => (List.eq_of_mem_replicate he) ▸ trivial

theorem EndReported.not_releasedNext (h : c.EndReported f) : ¬c.ReleasedNext f := by
  intro hnext
  obtain ⟨k, hk⟩ := h.exists_reaches
  have hreported := h.run (keepsOn_replicate f k)
  exact hreported.not_releases (hnext _ (keepsOn_replicate f k) hreported hk)

theorem waiting_final (es : List ConnectionEvent) :
    ∀ client ∈ (final machine start es).backend.clients, client.Waiting := by
  suffices h : ∀ c : Connections, (∀ client ∈ c.backend.clients, client.Waiting) →
      ∀ client ∈ (final machine c es).backend.clients, client.Waiting from
    h start fun _ hclient => absurd hclient List.not_mem_nil
  induction es with
  | nil => exact fun _ h => h
  | cons e es ih => exact fun c h => ih _ (waiting_machine h e)

/-- No client of a run is closed more than once. -/
theorem count_closed_le (es : List ConnectionEvent) (f : ℤ) :
    (closed (outputs machine (trace machine start es))).count f ≤ (added es).count f := by
  have hperm := (@final_perm start (List.forall_mem_nil _) es).count_eq f
  have hnone : start.backend.fds = [] := rfl
  rw [hnone, List.nil_append, List.count_append] at hperm
  omega

/-- The peer ends its side behind the first byte of a frame. -/
theorem not_releasedNext_cut :
    ¬(final machine start [.backend (.accept 4), .backend (.addClient 4),
      .backend (.arrive 4 [0x81]), .finish 4]).ReleasedNext 4 :=
  EndReported.not_releasedNext ⟨rfl, Client.new 4, [0x81],
    ⟨[], [], rfl, List.forall_mem_nil _, List.forall_mem_nil _, rfl, rfl,
      waiting_final [.backend (.accept 4), .backend (.addClient 4), .backend (.arrive 4 [0x81]),
        .finish 4]⟩, by decide⟩

/-! ## Which clients are released -/

/-- A broken connection stays broken as long as the descriptor is not given out again. -/
theorem broken_machine (h : Broken c.backend f) {e : ConnectionEvent} (he : KeepsDescriptor f e) :
    Broken (machine c e).1.backend f := by
  have hwaiting := waiting_machine h.waiting e
  have hsame (hsocket : (machine c e).1.backend.sockets f = c.backend.sockets f)
      (hfds : f ∈ (machine c e).1.backend.fds → f ∈ c.backend.fds) :
      Broken (machine c e).1.backend f :=
    ⟨hwaiting, fun hmem => hsocket ▸ h.failed (hfds hmem)⟩
  cases e with
  | finish fd => exact h
  | backend e =>
    cases e with
    | accept fd => exact hsame (Function.update_of_ne (Ne.symm he) _ _) id
    | arrive fd bytes =>
      rw [machine] at hwaiting ⊢
      split_ifs at hwaiting ⊢
      · exact h
      · refine ⟨hwaiting, fun hmem => ?_⟩
        have hfailed := h.failed hmem
        simp only [Ws.backend, Function.update_apply]
        split_ifs with hfd
        · exact hfd ▸ hfailed
        · exact hfailed
    | fail fd =>
      refine ⟨hwaiting, fun hmem => ?_⟩
      have hfailed := h.failed hmem
      simp only [machine, Ws.backend, Function.update_apply]
      split_ifs
      · rfl
      · exact hfailed
    | addClient fd =>
      refine hsame rfl fun hmem => ?_
      have hfds := Host.fds_addClient c.backend fd
      rcases List.mem_append.1 (hfds ▸ hmem) with hmem | hmem
      · exact hmem
      · exact absurd (List.mem_singleton.1 hmem).symm he
    | closeClient fd => exact hsame rfl fun hmem => (List.eraseP_sublist.map _).subset hmem
    | recvIter => exact h.recvIter

theorem broken_final (h : Broken c.backend f) {es : List ConnectionEvent}
    (hes : ∀ e ∈ es, KeepsDescriptor f e) : Broken (final machine c es).backend f := by
  induction es generalizing c with
  | nil => exact h
  | cons e es ih =>
    obtain ⟨he, hes⟩ := List.forall_mem_cons.1 hes
    exact ih (broken_machine h he) hes

theorem received_cons (f : ℤ) (s : Connections × ConnectionEvent)
    (t : List (Connections × ConnectionEvent)) :
    received f (s :: t) = received f [s] ++ received f t :=
  @List.flatMap_append _ _ [s] t _

/-- **A step keeps the place in the stream.** -/
theorem reading_machine {got : Bytes} (h : Reading c.backend f got) {e : ConnectionEvent}
    (he : KeepsOn f e) : Reading (machine c e).1.backend f (got ++ received f [(c, e)]) := by
  have hquiet {b : Backend} (h : Reading b f got) (hnone : received f [(c, e)] = []) :
      Reading b f (got ++ received f [(c, e)]) := by
    rwa [hnone, List.append_nil]
  cases e with
  | finish fd => exact hquiet h rfl
  | backend e =>
    have hnext (hcall : e ≠ .recvIter) := h.next he hcall
    cases e with
    | arrive fd bytes =>
      rw [machine]
      by_cases hended : c.ended fd
      · rw [if_pos hended]
        refine hquiet h ?_
        rcases eq_or_ne fd f with rfl | hne
        · simp [received, hended]
        · simp [received, arrived, hne]
      · rw [if_neg hended]
        have hgot : received f [(c, .backend (.arrive fd bytes))] =
            arrived f [.arrive fd bytes] := by
          rcases eq_or_ne fd f with rfl | hne
          · simp [received, hended]
          · simp [received, arrived, hne]
        rw [hgot]
        exact hnext (by simp)
    | recvIter => exact hquiet h.recvIter (by simp [received, arrived])
    | accept fd | fail fd | addClient fd | closeClient fd =>
      have hnone : ∀ e : WsEvent, arrived f [e] = [] → received f [(c, .backend e)] = [] := by
        intro e he
        simp [received, he]
      refine hquiet ?_ (hnone _ rfl)
      have hreading := hnext (by simp)
      rwa [show arrived f [_] = [] from rfl, List.append_nil] at hreading

theorem reading_final {got : Bytes} (h : Reading c.backend f got) {es : List ConnectionEvent}
    (hes : ∀ e ∈ es, KeepsOn f e) :
    Reading (final machine c es).backend f (got ++ received f (trace machine c es)) := by
  induction es generalizing c got with
  | nil => simpa [received] using h
  | cons e es ih =>
    obtain ⟨he, hes⟩ := List.forall_mem_cons.1 hes
    rw [trace_cons, received_cons, ← List.append_assoc]
    exact ih (reading_machine h he) hes

theorem keepsOn_of {e : ConnectionEvent} (h : KeepsDescriptor f e) (hbreaks : ¬Breaks f e) :
    KeepsOn f e := by
  cases e with
  | finish => exact trivial
  | backend e =>
    cases e with
    | accept | addClient => exact h
    | fail | closeClient => exact hbreaks
    | arrive | recvIter => exact trivial

/-- A run in which the connection breaks. -/
theorem reading_broken {got : Bytes} (h : Reading c.backend f got) {es : List ConnectionEvent}
    (hes : ∀ e ∈ es, KeepsDescriptor f e) (hbreaks : ∃ e ∈ es, Breaks f e) :
    Broken (final machine c es).backend f := by
  induction es generalizing c got with
  | nil =>
    obtain ⟨e, he, -⟩ := hbreaks
    cases he
  | cons e es ih =>
    obtain ⟨he, hes⟩ := List.forall_mem_cons.1 hes
    by_cases hbreak : Breaks f e
    · show Broken (final machine (machine c e).1 es).backend f
      refine broken_final ?_ hes
      cases e with
      | finish => exact hbreak.elim
      | backend e =>
        cases e with
        | fail fd =>
          obtain rfl : fd = f := hbreak
          exact h.broken_fail
        | closeClient fd =>
          obtain rfl : fd = f := hbreak
          exact h.broken_closeClient
        | accept | arrive | addClient | recvIter => exact hbreak.elim
    · have hkeeps : KeepsOn f e := keepsOn_of he hbreak
      refine ih (reading_machine h hkeeps) hes ?_
      obtain ⟨x, hx, hxbreaks⟩ := hbreaks
      rcases List.mem_cons.1 hx with rfl | hx
      · exact absurd hxbreaks hbreak
      · exact ⟨x, hx, hxbreaks⟩

/-- Calls of `recv_iter` alone. -/
theorem final_recvIter (c : Connections) (k : ℕ) :
    final machine c (List.replicate k (.backend .recvIter)) =
      ⟨final Ws.backend c.backend (List.replicate k .recvIter), c.ended⟩ := by
  induction k generalizing c with
  | zero => rfl
  | succ k ih => exact ih _

/-- No end is reported of a connection that is broken. -/
theorem Broken.not_endReported (h : Broken c.backend f) : ¬c.EndReported f := by
  intro hend
  obtain ⟨-, client, avail, ⟨-, -, -, -, -, -, hsocket, -⟩, -⟩ := id hend
  have hfailed := h.failed hend.mem_fds
  rw [hsocket] at hfailed
  cases hfailed

/-- Behind the end of a connection nothing comes. -/
theorem ended_final (h : c.ended f = true) {es : List ConnectionEvent}
    (hes : ∀ e ∈ es, KeepsDescriptor f e) :
    (final machine c es).ended f = true ∧ received f (trace machine c es) = [] := by
  induction es generalizing c with
  | nil => exact ⟨h, rfl⟩
  | cons e es ih =>
    obtain ⟨he, hes⟩ := List.forall_mem_cons.1 hes
    have hnext : (machine c e).1.ended f = true := by
      cases e with
      | finish fd =>
        rcases eq_or_ne f fd with rfl | hne
        · exact Function.update_self ..
        · exact (Function.update_of_ne hne _ _).trans h
      | backend e =>
        cases e with
        | accept fd => exact (Function.update_of_ne (Ne.symm he) _ _).trans h
        | arrive fd bytes =>
          rw [machine]
          split_ifs <;> exact h
        | fail | addClient | closeClient | recvIter => exact h
    obtain ⟨hended, hnone⟩ := ih hnext hes
    refine ⟨hended, ?_⟩
    rw [trace_cons, received_cons, hnone, List.append_nil]
    cases e <;> simp [received, h]

theorem keepsDescriptor_of {e : ConnectionEvent} (h : KeepsOn f e) : KeepsDescriptor f e := by
  cases e with
  | finish => exact trivial
  | backend e =>
    cases e with
    | accept | addClient => exact h
    | arrive | fail | closeClient | recvIter => exact trivial

/-- **Behind the end the stream tells** whether the client is released. -/
theorem releasedNext_iff {got : Bytes} (h : Reading c.backend f got) (hend : c.ended f = true) :
    c.ReleasedNext f ↔ Drops 0 got := by
  constructor
  · intro hnext
    obtain ⟨k, ⟨hdrops, -⟩ | ⟨-, client, avail, hserves, hshort⟩⟩ := h.exists_settled
    · exact hdrops
    · have hreported : (final machine c (List.replicate k (.backend .recvIter))).EndReported f := by
        rw [final_recvIter]
        exact ⟨hend, client, avail, hserves, hshort⟩
      refine absurd (fun more hmore => ?_) hreported.not_releasedNext
      have hrun := hnext (List.replicate k (.backend .recvIter) ++ more)
        (List.forall_mem_append.2 ⟨keepsOn_replicate f k, hmore⟩)
      rw [final_append] at hrun
      exact hrun
  · intro hdrops more hmore hreported
    have hkeeps : ∀ e ∈ more, KeepsDescriptor f e := fun e he => keepsDescriptor_of (hmore e he)
    have hreading := reading_final h hmore
    rw [(ended_final hend hkeeps).2, List.append_nil] at hreading
    obtain ⟨k, ⟨-, hout⟩ | ⟨hnot, -⟩⟩ := hreading.exists_settled
    · have hmem := (hreported.run (keepsOn_replicate f k)).mem_fds
      rw [final_recvIter] at hmem
      exact absurd hmem hout
    · exact absurd hdrops hnot

/-- A client that is out has been closed. -/
theorem close_mem_of_not_mem {c : Connections} (hwaiting : ∀ x ∈ c.backend.clients, x.Waiting)
    (hmem : f ∈ c.backend.fds) {es : List ConnectionEvent}
    (hout : f ∉ (final machine c es).backend.fds) :
    .close f ∈ outputs machine (trace machine c es) := by
  have hperm := final_perm hwaiting es
  have hall : f ∈ c.backend.fds ++ added es := List.mem_append_left _ hmem
  rcases List.mem_append.1 (hperm.mem_iff.2 hall) with hclosed | hin
  · exact mem_closed.1 hclosed
  · exact absurd hin hout

/-- **Which clients are released.** A client whose peer has ended its side is released if and only
if one of the frames before the end makes the backend drop it, or the connection has failed; all
other clients stay for ever. No client is closed more than once. -/
theorem released_iff (before after : List ConnectionEvent) (f : ℤ)
    (hnew : f ∉ (final machine start before).backend.fds)
    (hafter : ∀ e ∈ after, KeepsDescriptor f e)
    (hend : (final machine start (before ++ .backend (.addClient f) :: after)).ended f = true) :
    let c := final machine start (before ++ [.backend (.addClient f)])
    let dropped := Drops 0 ((c.backend.sockets f).avail ++ received f (trace machine c after)) ∨
      (c.backend.sockets f).failed = true ∨ ∃ e ∈ after, Breaks f e
    (c.Released f after ↔ dropped) ∧
      (¬dropped → ∀ more, (∀ e ∈ more, KeepsOn f e) →
        f ∈ (final machine c (after ++ more)).backend.fds) ∧
      ∀ es g, (closed (outputs machine (trace machine start es))).count g ≤ (added es).count g := by
  intro c dropped
  have hc : c = (machine (final machine start before) (.backend (.addClient f))).1 :=
    final_append ..
  have hwaiting : ∀ x ∈ c.backend.clients, x.Waiting := waiting_final _
  have hmem : f ∈ c.backend.fds := by
    have hfds := Host.fds_addClient (final machine start before).backend f
    rw [hc]
    exact hfds ▸ List.mem_append_right _ (List.mem_singleton_self f)
  rw [List.append_cons, final_append] at hend
  have hreleased (hnext : (final machine c after).ReleasedNext f) {k : ℕ}
      (hout : f ∉ (final Ws.backend (final machine c after).backend
        (List.replicate k .recvIter)).fds) : c.Released f after := by
    have hout' : f ∉ (final machine c
        (after ++ List.replicate k (.backend .recvIter))).backend.fds := by
      rw [final_append, final_recvIter]
      exact hout
    exact ⟨hnext, k, hout', close_mem_of_not_mem hwaiting hmem hout'⟩
  -- a connection that has failed
  have hbroken (h : Broken (final machine c after).backend f) : c.Released f after := by
    obtain ⟨k, hk⟩ := h.exists_not_mem
    refine hreleased (fun more hmore hreported => ?_) hk
    have hkeeps : ∀ e ∈ more, KeepsDescriptor f e := fun e he => keepsDescriptor_of (hmore e he)
    exact absurd hreported (Broken.not_endReported (broken_final h hkeeps))
  by_cases hfailed : (c.backend.sockets f).failed = true
  · have hdropped : dropped := .inr (.inl hfailed)
    refine ⟨iff_of_true ?_ hdropped, absurd hdropped, count_closed_le⟩
    exact hbroken (broken_final ⟨hwaiting, fun _ => hfailed⟩ hafter)
  have hserves : Serves c.backend f (Client.new f) (c.backend.sockets f).avail := by
    rw [hc] at hfailed ⊢
    exact serves_addClient (waiting_final before)
      (fun x hx hxfd => hnew (List.mem_map.2 ⟨x, hx, hxfd⟩)) (Bool.eq_false_iff.2 hfailed)
  by_cases hbreaks : ∃ e ∈ after, Breaks f e
  · have hdropped : dropped := .inr (.inr hbreaks)
    refine ⟨iff_of_true ?_ hdropped, absurd hdropped, count_closed_le⟩
    exact hbroken (reading_broken (reading_new hserves) hafter hbreaks)
  -- the client is somewhere in the stream
  have hkeeps : ∀ e ∈ after, KeepsOn f e := fun e he =>
    keepsOn_of (hafter e he) fun hbreak => hbreaks ⟨e, he, hbreak⟩
  have hreading := reading_final (reading_new hserves) hkeeps
  have hiff := releasedNext_iff hreading hend
  have hdropped : dropped ↔
      Drops 0 ((c.backend.sockets f).avail ++ received f (trace machine c after)) :=
    or_iff_left fun h => h.elim hfailed hbreaks
  refine ⟨⟨fun h => hdropped.2 (hiff.1 h.1), fun h => ?_⟩, fun hnot more hmore => ?_,
    count_closed_le⟩
  · obtain ⟨k, ⟨-, hout⟩ | ⟨hnot, -⟩⟩ := hreading.exists_settled
    · exact hreleased (hiff.2 (hdropped.1 h)) hout
    · exact absurd (hdropped.1 h) hnot
  · have hmore' := reading_final hreading hmore
    rw [(ended_final hend fun e he => keepsDescriptor_of (hmore e he)).2, List.append_nil] at hmore'
    rw [final_append]
    exact hmore'.mem_fds (mt hdropped.2 hnot)

/-- A client that sends a CLOSE frame before the end is released. -/
theorem released_close :
    (final machine start ([.backend (.accept 4)] ++ [.backend (.addClient 4)])).Released 4
      [.backend (.arrive 4 [0x88, 0x80]), .backend .recvIter,
        .backend (.arrive 4 [1, 2, 3, 4]), .finish 4] := by
  refine (released_iff _ _ 4 List.not_mem_nil (by simp [KeepsDescriptor]) rfl).1.2 (.inl ?_)
  exact .now rfl

end Connections

end RbProtocol.Ws
