import RbProtocol.Library.Lists
import RbProtocol.Ws.Backend
import RbProtocol.Ws.Decode

/-!
# WebSocket messages are received exactly

A client sends messages, and the bytes arrive in any pieces between the calls of `recv_iter`. What
`rbjson::parse` is given for this client is at any time an initial part of the messages that have
arrived completely, and after as many calls as there are bytes that wait it is all of them
(`websocket_exact`). The other clients may send anything, come and go.

Along a run the stream of the client stays cut into the messages that are done, the part of the next
message that the decoder has read, the bytes that wait, and the rest (`Tracks`).
-/

namespace RbProtocol.Ws

open Library Machine

/-- The payloads given to `rbjson::parse` for a client. -/
def parsed (f : ℤ) (es : List WsEffect) : List Bytes :=
  es.filterMap fun
    | .parse fd payload => if fd = f then some payload else none
    | _ => none

/-- The bytes that arrive for a client. -/
def arrived (f : ℤ) (es : List WsEvent) : Bytes :=
  es.flatMap fun
    | .arrive fd bytes => if fd = f then bytes else []
    | _ => []

/-- An event that leaves the connection of a client alone. -/
def Keeps (f : ℤ) : WsEvent → Prop
  | .accept fd | .fail fd | .addClient fd | .closeClient fd => fd ≠ f
  | .arrive .. | .recvIter => True

instance (f : ℤ) : DecidablePred (Keeps f)
  | .accept _ | .fail _ | .addClient _ | .closeClient _ => inferInstanceAs (Decidable (_ ≠ _))
  | .arrive .. | .recvIter => inferInstanceAs (Decidable True)

@[simp] theorem parsed_append (f : ℤ) (es₁ es₂ : List WsEffect) :
    parsed f (es₁ ++ es₂) = parsed f es₁ ++ parsed f es₂ := List.filterMap_append

@[simp] theorem arrived_append (f : ℤ) (es₁ es₂ : List WsEvent) :
    arrived f (es₁ ++ es₂) = arrived f es₁ ++ arrived f es₂ := List.flatMap_append

theorem parsed_eq_nil {f : ℤ} {es : List WsEffect} (h : ∀ payload, .parse f payload ∉ es) :
    parsed f es = [] := by
  refine List.filterMap_eq_nil_iff.2 fun e he => ?_
  cases e with
  | parse fd payload =>
    refine if_neg fun hfd => h payload ?_
    rwa [← hfd]
  | send | close | fault => rfl

/-! ## A client of the backend -/

/-- The backend has one client on the connection `f`, and `avail` can be read there. -/
def Serves (b : Backend) (f : ℤ) (client : Client) (avail : Bytes) : Prop :=
  ∃ l₁ l₂, b.clients = l₁ ++ client :: l₂ ∧ (∀ x ∈ l₁, x.fd ≠ f) ∧ (∀ x ∈ l₂, x.fd ≠ f) ∧
    client.fd = f ∧ b.sockets f = .open avail ∧ ∀ x ∈ b.clients, x.Waiting

/-- Closing another client. -/
theorem Serves.closeClientLocked {b : Backend} {f fd : ℤ} {client : Client} {avail : Bytes}
    (h : Serves b f client avail) (hfd : fd ≠ f) :
    Serves (closeClientLocked b fd).1 f client avail := by
  obtain ⟨l₁, l₂, hclients, h₁, h₂, hclient, hsocket, hwaiting⟩ := h
  have hp : decide (client.fd = fd) = false := decide_eq_false (hclient ▸ hfd.symm)
  obtain ⟨k₁, k₂, herase, hk₁, hk₂⟩ := eraseP_append_cons
    (p := fun x : Client => decide (x.fd = fd)) hp l₁ l₂
  exact ⟨k₁, k₂, by rw [← herase, ← hclients]; rfl, fun x hx => h₁ x (hk₁ hx),
    fun x hx => h₂ x (hk₂ hx), hclient, hsocket,
    fun x hx => hwaiting x (List.eraseP_sublist.subset hx)⟩

/-- The backend has no client on the connection `f`. -/
def Gone (b : Backend) (f : ℤ) : Prop := ∀ client ∈ b.clients, client.fd ≠ f ∧ client.Waiting

/-- Closing the client. -/
theorem Serves.gone {b : Backend} {f : ℤ} {client : Client} {avail : Bytes}
    (h : Serves b f client avail) : Gone (closeClientLockedGracefully b f).1 f := by
  obtain ⟨l₁, l₂, hclients, h₁, h₂, hclient, -, hwaiting⟩ := h
  have herase : b.clients.eraseP (fun x => decide (x.fd = f)) = l₁ ++ l₂ := by
    rw [hclients, List.eraseP_append_right _ fun x hx => by simpa using h₁ x hx,
      List.eraseP_cons_of_pos (by simpa using hclient)]
  intro x hx
  have hmem : x ∈ b.clients.eraseP (fun x => decide (x.fd = f)) := hx
  refine ⟨?_, hwaiting x (List.eraseP_sublist.subset hmem)⟩
  rw [herase] at hmem
  rcases List.mem_append.1 hmem with hx | hx
  · exact h₁ x hx
  · exact h₂ x hx

theorem parsed_closeClientLockedGracefully (b : Backend) (f fd : ℤ) :
    parsed f (closeClientLockedGracefully b fd).2 = [] := by
  refine parsed_eq_nil fun payload hmem => ?_
  rcases List.mem_cons.1 hmem with heq | hmem
  · cases heq
  · cases closeClientLocked_effects b fd _ hmem

/-- What `recv_iter` does at a complete message of another client. -/
theorem Serves.processClientFullyReceivedLocked {b : Backend} {f : ℤ} {client x : Client}
    {avail : Bytes} (h : Serves b f client avail) (hx : x.fd ≠ f) :
    Serves (processClientFullyReceivedLocked b x).1 f client avail ∧
      parsed f (processClientFullyReceivedLocked b x).2 = [] := by
  rw [Ws.processClientFullyReceivedLocked]
  split_ifs
  · exact ⟨h.closeClientLocked hx, parsed_closeClientLockedGracefully b f x.fd⟩
  · refine ⟨h, ?_⟩
    simp [parsed, hx]

section RecvIter

variable {b : Backend} {f : ℤ} {client client' : Client} {avail avail' : Bytes}

/-- The loop of `recv_iter` with a client on `f`: it ends before this client, or the client has had
its turn. -/
theorem recvLoop_serves (h : Serves b f client avail)
    (hrun : processClient client (.open avail) = .running client' (.open avail'))
    (hfd : client'.fd = f) :
    let r := recvLoop b.sockets b.clients
    parsed f r.effects = [] ∧ ∃ next availNext, Serves ⟨r.clients, r.sockets⟩ f next availNext ∧
      ((next = client ∧ availNext = avail ∧ ∃ x, r.full = some x ∧ x.fd ≠ f) ∨
        (client'.state = .fullyReceived ∧ next = { client' with state := .initial } ∧
          availNext = avail' ∧ r.full = some next) ∨
        (client'.state ≠ .fullyReceived ∧ next = client' ∧ availNext = avail' ∧
          ∀ x, r.full = some x → x.fd ≠ f)) := by
  obtain ⟨l₁, l₂, hclients, h₁, h₂, hclient, hsocket, hwaiting⟩ := h
  have hspec := recvLoop_spec b.sockets hwaiting
  have hspec₁ := recvLoop_spec b.sockets fun x hx =>
    hwaiting x (hclients ▸ List.mem_append_left _ hx)
  have hne₁ {fd : ℤ} (hmem : fd ∈ l₁.map Client.fd) : fd ≠ f := by
    obtain ⟨x, hx, rfl⟩ := List.mem_map.1 hmem
    exact h₁ x hx
  have hne₂ {fd : ℤ} (hmem : fd ∈ l₂.map Client.fd) : fd ≠ f := by
    obtain ⟨x, hx, rfl⟩ := List.mem_map.1 hmem
    exact h₂ x hx
  refine ⟨parsed_eq_nil fun payload hmem => ?_, ?_⟩
  · obtain ⟨fd, -, heq⟩ := hspec.effects _ hmem
    cases heq
  have hclients₁ : ∀ x ∈ (recvLoop b.sockets l₁).clients, x.fd ≠ f := fun x hx =>
    hne₁ (hspec₁.fds.subset (List.mem_map_of_mem hx))
  have hsocket₁ : (recvLoop b.sockets l₁).sockets f = .open avail :=
    (hspec₁.frame f fun hmem => hne₁ hmem rfl).trans hsocket
  have hwaitingNext := hspec.waiting
  rw [hclients, recvLoop_append] at hwaitingNext ⊢
  cases hfull : (recvLoop b.sockets l₁).full with
  | some x =>
    -- the loop ends before the client
    simp only [hfull, Option.isSome_some, if_true] at hwaitingNext ⊢
    have hx := (hspec₁.full x hfull).1
    exact ⟨client, avail, ⟨_, l₂, rfl, hclients₁, h₂, hclient, hsocket₁, hwaitingNext⟩,
      .inl ⟨rfl, rfl, x, rfl, hclients₁ x hx⟩⟩
  | none =>
    simp only [hfull, Option.isSome_none, Bool.false_eq_true, if_false] at hwaitingNext ⊢
    rw [recvLoop, hclient, hsocket₁, hrun] at hwaitingNext ⊢
    simp only at hwaitingNext ⊢
    split_ifs at hwaitingNext ⊢ with hstate
    · -- the client has a complete message
      exact ⟨_, avail', ⟨_, l₂, rfl, hclients₁, h₂, hfd, Function.update_self .., hwaitingNext⟩,
        .inr (.inl ⟨hstate, rfl, rfl, rfl⟩)⟩
    · -- the client goes on, and so do those behind it
      have hspec₂ := recvLoop_spec
        (Function.update (recvLoop b.sockets l₁).sockets f (.open avail')) fun x hx =>
          hwaiting x (hclients ▸ List.mem_append_right _ (List.mem_cons_of_mem _ hx))
      have hclients₂ : ∀ x ∈ (recvLoop (Function.update (recvLoop b.sockets l₁).sockets f
          (.open avail')) l₂).clients, x.fd ≠ f := fun x hx =>
        hne₂ (hspec₂.fds.subset (List.mem_map_of_mem hx))
      refine ⟨client', avail', ⟨_, _, rfl, hclients₁, hclients₂, hfd, ?_, hwaitingNext⟩,
        .inr (.inr ⟨hstate, rfl, rfl, fun x hx => hclients₂ x (hspec₂.full x hx).1⟩)⟩
      exact (hspec₂.frame f fun hmem => hne₂ hmem rfl).trans (Function.update_self ..)

/-- The result of a call of `recv_iter`, which leads from `b` to `b'`, with a client on `f` whose
turn would end with `client'` and `avail'`: what is given to `rbjson::parse` for it. -/
inductive Called (b b' : Backend) (f : ℤ) (client client' : Client) (avail avail' : Bytes) :
    List Bytes → Prop
  /-- Another client has taken bytes. -/
  | other (hserves : Serves b' f client avail) (hw : b'.waitingBytes < b.waitingBytes) :
      Called b b' f client client' avail avail' []
  /-- The client goes on. -/
  | turn (hstate : client'.state ≠ .fullyReceived) (hserves : Serves b' f client' avail')
      (hw : avail'.length < avail.length → b'.waitingBytes < b.waitingBytes) :
      Called b b' f client client' avail avail' []
  /-- The client has a complete message. -/
  | message (hstate : client'.state = .fullyReceived) (hopcode : client'.opcode ≠ opcodeClose)
      (hserves : Serves b' f { client' with state := .initial } avail')
      (hw : avail'.length < avail.length → b'.waitingBytes < b.waitingBytes) :
      Called b b' f client client' avail avail' [client'.payload]
  /-- The client has asked for the end of the connection. -/
  | closed (hstate : client'.state = .fullyReceived) (hopcode : client'.opcode = opcodeClose)
      (hgone : Gone b' f) : Called b b' f client client' avail avail' []

/-- **A call of `recv_iter` with a client on `f`.** Either another client has taken bytes, or this
one has had its turn; a complete message goes to `rbjson::parse`. If bytes were taken, fewer
wait. -/
theorem recvIter_serves (h : Serves b f client avail)
    (hrun : processClient client (.open avail) = .running client' (.open avail'))
    (hfd : client'.fd = f) :
    Called b (recvIter b).1 f client client' avail avail' (parsed f (recvIter b).2) := by
  obtain ⟨hparsed, next, availNext, hserves, hcases⟩ := recvLoop_serves h hrun hfd
  obtain ⟨hclients, hsockets⟩ := recvIter_spec b
  obtain ⟨l₁, l₂, hb, -, -, hclient, hsocket, hwaiting⟩ := h
  have hspec := recvLoop_spec b.sockets hwaiting
  have hless {fd : ℤ} (hmem : fd ∈ b.clients.map Client.fd)
      (hlt : ((recvLoop b.sockets b.clients).sockets fd).avail.length <
        (b.sockets fd).avail.length) : (recvIter b).1.waitingBytes < b.waitingBytes :=
    waitingBytes_lt ((hclients.map _).trans hspec.fds) (hsockets ▸ hspec.avail_le) hmem
      (hsockets ▸ hlt)
  have hmemF : f ∈ b.clients.map Client.fd := by
    rw [hb, ← hclient]
    simp
  have hlessF (hsock : (recvLoop b.sockets b.clients).sockets f = .open avail')
      (hlt : avail'.length < avail.length) : (recvIter b).1.waitingBytes < b.waitingBytes :=
    hless hmemF (by rwa [hsock, hsocket])
  have hsockF : (recvLoop b.sockets b.clients).sockets f = .open availNext := by
    obtain ⟨-, -, -, -, -, -, hsock, -⟩ := hserves
    exact hsock
  rcases hcases with ⟨rfl, rfl, x, hfull, hx⟩ | ⟨hstate, hnext, rfl, hfull⟩ |
    ⟨hstate, rfl, rfl, hfull⟩
  · -- the loop ended before the client
    obtain ⟨hx', hlt⟩ := hspec.full x hfull
    have hlater := hserves.processClientFullyReceivedLocked hx
    have hw := hless (hspec.fds.subset (List.mem_map_of_mem hx')) hlt
    rw [recvIter_some hfull] at hw ⊢
    rw [parsed_append, hparsed, hlater.2]
    exact .other hlater.1 hw
  · -- the message of the client is complete
    have hw := hlessF hsockF
    rw [recvIter_some hfull, processClientFullyReceivedLocked] at hw ⊢
    by_cases hopcode : client'.opcode = opcodeClose
    · have hopcodeNext : next.opcode = opcodeClose := hnext ▸ hopcode
      rw [if_pos hopcodeNext, parsed_append, hparsed, parsed_closeClientLockedGracefully]
      have hnextFd : next.fd = f := hnext ▸ hfd
      exact .closed hstate hopcode (hnextFd ▸ hserves.gone)
    · have hopcodeNext : next.opcode ≠ opcodeClose := hnext ▸ hopcode
      have hmessage : parsed f [.parse next.fd next.payload] = [client'.payload] := by
        simp [parsed, hnext, hfd]
      rw [if_neg hopcodeNext] at hw ⊢
      rw [parsed_append, hparsed, hmessage]
      exact .message hstate hopcode (hnext ▸ hserves) hw
  · -- the client goes on
    have hw := hlessF hsockF
    cases hend : (recvLoop b.sockets b.clients).full with
    | none =>
      rw [recvIter_none hend] at hw ⊢
      rw [hparsed]
      exact .turn hstate hserves hw
    | some x =>
      have hlater := hserves.processClientFullyReceivedLocked (hfull x hend)
      rw [recvIter_some hend] at hw ⊢
      rw [parsed_append, hparsed, hlater.2]
      exact .turn hstate hlater.1 hw

end RecvIter

/-! ## Following a connection -/

section Follows

variable {b : Backend} {f : ℤ} {client : Client} {avail : Bytes}

/-- Another socket. -/
theorem Serves.update {fd : ℤ} (h : Serves b f client avail) (hfd : fd ≠ f) (socket : Socket) :
    Serves { b with sockets := Function.update b.sockets fd socket } f client avail := by
  obtain ⟨l₁, l₂, hclients, h₁, h₂, hclient, hsocket, hwaiting⟩ := h
  exact ⟨l₁, l₂, hclients, h₁, h₂, hclient, (Function.update_of_ne hfd.symm _ _).trans hsocket,
    hwaiting⟩

/-- Another client. -/
theorem Serves.addClient {fd : ℤ} (h : Serves b f client avail) (hfd : fd ≠ f) :
    Serves (backend b (.addClient fd)).1 f client avail := by
  obtain ⟨l₁, l₂, hclients, h₁, h₂, hclient, hsocket, hwaiting⟩ := h
  refine ⟨l₁, l₂ ++ [Client.new fd], ?_, h₁, ?_, hclient, hsocket,
    waiting_backend hwaiting (.addClient fd)⟩
  · rw [backend, hclients, List.append_assoc, List.cons_append]
  · intro x hx
    rcases List.mem_append.1 hx with hx | hx
    · exact h₂ x hx
    · obtain rfl := List.mem_singleton.1 hx
      exact hfd

/-- A new connection. -/
theorem serves_addClient (hwaiting : ∀ client ∈ b.clients, client.Waiting)
    (hnew : ∀ client ∈ b.clients, client.fd ≠ f) (hopen : (b.sockets f).failed = false) :
    Serves (backend b (.addClient f)).1 f (Client.new f) (b.sockets f).avail := by
  refine ⟨b.clients, [], rfl, hnew, nofun, rfl, ?_, waiting_backend hwaiting _⟩
  show b.sockets f = ⟨(b.sockets f).avail, false⟩
  rw [← hopen]

/-- Bytes that arrive for the client wait. -/
theorem Serves.arrive (h : Serves b f client avail) (bytes : Bytes) :
    Serves (backend b (.arrive f bytes)).1 f client (avail ++ bytes) := by
  obtain ⟨l₁, l₂, hclients, h₁, h₂, hclient, hsocket, hwaiting⟩ := h
  refine ⟨l₁, l₂, hclients, h₁, h₂, hclient, ?_, hwaiting⟩
  have hself : (backend b (.arrive f bytes)).1.sockets f = (b.sockets f).push bytes :=
    Function.update_self ..
  rw [hself, hsocket]
  rfl

/-- **An event that leaves the connection alone** and is not a call of `recv_iter`. -/
theorem Serves.next (h : Serves b f client avail) {e : WsEvent} (he : Keeps f e)
    (hcall : e ≠ .recvIter) :
    Serves (backend b e).1 f client (avail ++ arrived f [e]) := by
  have hquiet (hgot : arrived f [e] = []) (hserves : Serves (backend b e).1 f client avail) :
      Serves (backend b e).1 f client (avail ++ arrived f [e]) := by
    rwa [hgot, List.append_nil]
  cases e with
  | accept fd | fail fd => exact hquiet rfl (h.update he _)
  | addClient fd => exact hquiet rfl (h.addClient he)
  | closeClient fd => exact hquiet rfl (h.closeClientLocked he)
  | arrive fd bytes =>
    rcases eq_or_ne fd f with rfl | hne
    · have hall : arrived fd [.arrive fd bytes] = bytes := by simp [arrived]
      rw [hall]
      exact h.arrive bytes
    · exact hquiet (by simp [arrived, hne]) (h.update hne _)
  | recvIter => exact absurd rfl hcall

/-- Only `recv_iter` parses. -/
theorem parsed_backend {e : WsEvent} (hcall : e ≠ .recvIter) : parsed f (backend b e).2 = [] := by
  cases e with
  | accept | fail | addClient | arrive => rfl
  | closeClient fd =>
    refine parsed_eq_nil fun payload hmem => ?_
    cases closeClientLocked_effects b fd _ hmem
  | recvIter => exact absurd rfl hcall

/-- What can be followed along the runs that leave the connection `f` alone, where a part of
`stream` arrives: what has been parsed is at any time an initial part of what is expected, and
a call of `recv_iter` takes bytes unless it is all of it. -/
structure Follows (f : ℤ) (stream : Bytes) (expected : Bytes → List Bytes)
    (T : Backend → Bytes → List Bytes → Prop) : Prop where
  payloads_prefix : ∀ {b got payloads}, T b got payloads → payloads <+: expected got
  next : ∀ {b got payloads e}, T b got payloads → Keeps f e → e ≠ .recvIter →
    T (backend b e).1 (got ++ arrived f [e]) payloads
  recvIter : ∀ {b got payloads}, T b got payloads → got <+: stream →
    T (recvIter b).1 got (payloads ++ parsed f (recvIter b).2) ∧
      (payloads = expected got ∨ (recvIter b).1.waitingBytes < b.waitingBytes)

namespace Follows

variable {stream got : Bytes} {expected : Bytes → List Bytes} {payloads : List Bytes}
  {T : Backend → Bytes → List Bytes → Prop}

/-- The step of a run: what has arrived so far is a part of the stream. -/
theorem final (hT : Follows f stream expected T) (es : List WsEvent) (h : T b got payloads)
    (hes : ∀ e ∈ es, Keeps f e) (hstream : got ++ arrived f es <+: stream) :
    T (Machine.final backend b es) (got ++ arrived f es)
      (payloads ++ parsed f (outputs backend (trace backend b es))) := by
  induction es generalizing b got payloads with
  | nil => simpa [arrived, parsed] using h
  | cons e es ih =>
    obtain ⟨he, hes⟩ := List.forall_mem_cons.1 hes
    have hcons : arrived f (e :: es) = arrived f [e] ++ arrived f es := arrived_append f [e] es
    rw [hcons, ← List.append_assoc] at hstream ⊢
    have hnext : T (backend b e).1 (got ++ arrived f [e])
        (payloads ++ parsed f (backend b e).2) := by
      by_cases hcall : e = .recvIter
      · subst hcall
        have hgot : got ++ arrived f [.recvIter] = got := List.append_nil got
        rw [hgot] at hstream ⊢
        exact (hT.recvIter h ((List.prefix_append _ _).trans hstream)).1
      · rw [parsed_backend hcall, List.append_nil]
        exact hT.next h he hcall
    rw [trace_cons, outputs_cons, parsed_append, ← List.append_assoc]
    exact ih hnext hes hstream

/-- **Calls of `recv_iter`, as many as bytes wait, settle everything.** -/
theorem settled {k : ℕ} (hT : Follows f stream expected T) (h : T b got payloads)
    (hstream : got <+: stream) (hk : b.waitingBytes ≤ k) :
    payloads ++ parsed f (outputs backend (trace backend b (List.replicate k .recvIter))) =
      expected got := by
  induction k generalizing b payloads with
  | zero =>
    rcases (hT.recvIter h hstream).2 with hall | hlt
    · simpa [parsed] using hall
    · omega
  | succ k ih =>
    obtain ⟨hnext, hall | hlt⟩ := hT.recvIter h hstream
    · -- nothing can be added any more
      have hnone : arrived f (List.replicate (k + 1) .recvIter) = [] := by simp [arrived]
      have hkeeps : ∀ e ∈ List.replicate (k + 1) WsEvent.recvIter, Keeps f e := by simp [Keeps]
      have hfinal := hT.final _ h hkeeps (by rwa [hnone, List.append_nil])
      rw [hnone, List.append_nil] at hfinal
      refine (hT.payloads_prefix hfinal).eq_of_length (le_antisymm ?_ ?_)
      · exact (hT.payloads_prefix hfinal).length_le
      · rw [← hall, List.length_append]
        exact Nat.le_add_right ..
    · rw [List.replicate_succ, trace_cons, outputs_cons, parsed_append, ← List.append_assoc]
      exact ih hnext (Nat.le_of_lt_succ (hlt.trans_le hk))

/-- **A run on a new connection.** -/
theorem connection (hT : Follows f stream expected T) (after : List WsEvent)
    (hnew : T (backend b (.addClient f)).1 (b.sockets f).avail [])
    (hafter : ∀ e ∈ after, Keeps f e)
    (hstream : (b.sockets f).avail ++ arrived f after <+: stream) :
    parsed f (outputs backend (trace backend b (.addClient f :: after))) <+:
        expected ((b.sockets f).avail ++ arrived f after) ∧
      ∀ k, (Machine.final backend b (.addClient f :: after)).waitingBytes ≤ k →
        parsed f (outputs backend
          (trace backend b (.addClient f :: after ++ List.replicate k .recvIter))) =
        expected ((b.sockets f).avail ++ arrived f after) := by
  have hfinal := hT.final after hnew hafter hstream
  refine ⟨hT.payloads_prefix hfinal, fun k hk => ?_⟩
  have hsettled := hT.settled hfinal hstream hk
  rw [trace_append, outputs_append, parsed_append]
  exact hsettled

end Follows

end Follows

/-! ## A stream of messages -/

/-- The client has read `part` of the first of the messages, and `left` is the rest of it. -/
inductive Expects (client : Client) : (part left : Bytes) → List Message → Prop
  | idle (hstate : client.state = .initial) : Expects client [] [] []
  | within {m : Message} {ms : List Message} {part left : Bytes}
      (h : Within client left m.payload) (hsplit : m.encode = part ++ left) :
      Expects client part left (m :: ms)

section Expects

variable {client : Client} {part left avail future : Bytes} {ms : List Message}

/-- Before a message. -/
theorem expects_initial (client : Client) (hstate : client.state = .initial) (ms : List Message) :
    ∃ left, Expects client [] left ms := by
  cases ms with
  | nil => exact ⟨[], .idle hstate⟩
  | cons m ms => exact ⟨m.encode, .within (.start hstate m.fragments_ne_nil) rfl⟩

theorem Expects.encodeAll_eq (h : Expects client part left ms) :
    encodeAll ms = part ++ (left ++ encodeAll ms.tail) := by
  cases h with
  | idle => rfl
  | within h hsplit => rw [encodeAll_cons, hsplit, List.append_assoc, List.tail_cons]

/-- The first message is not there yet. -/
theorem Expects.completed_eq_nil (h : Expects client part left ms)
    (hshort : ms = [] ∨ avail.length < left.length) :
    completed ms (part.length + avail.length) = [] := by
  cases h with
  | idle => rfl
  | within h hsplit =>
    have hlt : avail.length < left.length := hshort.resolve_left (List.cons_ne_nil _ _)
    rw [completed, hsplit, List.length_append, if_neg (by omega)]

/-- A turn of a client that expects messages: it reads `used` and goes on in the message, or it has
the message. It reads something if the message is there. -/
theorem Expects.turn (h : Expects client part left ms)
    (hstream : avail ++ future = left ++ encodeAll ms.tail) :
    ∃ client' used avail', processClient client (.open avail) = .running client' (.open avail') ∧
      avail = used ++ avail' ∧ client'.fd = client.fd ∧
      (used = [] → ms = [] ∨ avail.length < left.length) ∧
      ((client'.state ≠ .fullyReceived ∧ ∃ left', Expects client' (part ++ used) left' ms) ∨
        ∃ m ms', ms = m :: ms' ∧ m.encode = part ++ used ∧ client'.state = .fullyReceived ∧
          client'.payload = m.payload ∧ client'.opcode ≠ opcodeClose) := by
  cases h with
  | idle hstate =>
    obtain ⟨rfl, rfl⟩ := List.append_eq_nil_iff.1 hstream
    refine ⟨client, [], [], ?_, rfl, rfl, fun _ => .inl rfl, .inl ⟨?_, [], .idle hstate⟩⟩
    · have hread : readAtLeast (.open []) 2 = some ([], .open []) := readAtLeast_short (by decide)
      simp only [processClient, hstate, hread, List.length_nil, if_true]
    · simp [hstate]
  | @within m ms part left h hsplit =>
    obtain ⟨client', used, avail', hrun, havail, hfd, hadv, hwait⟩ :=
      processClient_within h m.size_le hstream
    refine ⟨client', used, avail', hrun, havail, hfd, fun hused => .inr (hwait hused).2, ?_⟩
    rcases hadv with ⟨hstate, hpayload, hopcode, rfl⟩ | ⟨left', hleft', rfl⟩
    · exact .inr ⟨m, ms, rfl, hsplit, hstate, hpayload, hopcode⟩
    · refine .inl ⟨hleft'.state_ne, left', .within hleft' ?_⟩
      rw [hsplit, List.append_assoc]

end Expects

/-! ## A run -/

/-- Of the messages `ms` that come on the connection `f`, and of which `got` has arrived, those that
are done have been given to `rbjson::parse`; the client has read a part of the next one. -/
def Tracks (f : ℤ) (ms : List Message) (b : Backend) (got : Bytes) (payloads : List Bytes) : Prop :=
  ∃ done rest client part left avail, ms = done ++ rest ∧ payloads = done.map Message.payload ∧
    Serves b f client avail ∧ Expects client part left rest ∧
    got = encodeAll done ++ (part ++ avail)

/-- All the messages that have arrived have been given to `rbjson::parse`. -/
def Settled (ms : List Message) (got : Bytes) (payloads : List Bytes) : Prop :=
  payloads = (completed ms got.length).map Message.payload

section Tracks

variable {f : ℤ} {ms : List Message} {b : Backend} {got : Bytes} {payloads : List Bytes}

theorem Tracks.payloads_prefix (h : Tracks f ms b got payloads) :
    payloads <+: (completed ms got.length).map Message.payload := by
  obtain ⟨done, rest, client, part, left, avail, rfl, rfl, -, -, rfl⟩ := h
  rw [List.length_append, completed_append, List.map_append]
  exact List.prefix_append _ _

/-- A call of `recv_iter` keeps the messages apart, and takes bytes unless all is settled. -/
theorem Tracks.recvIter (h : Tracks f ms b got payloads) (hstream : got <+: encodeAll ms) :
    Tracks f ms (recvIter b).1 got (payloads ++ parsed f (recvIter b).2) ∧
      (Settled ms got payloads ∨ (recvIter b).1.waitingBytes < b.waitingBytes) := by
  obtain ⟨done, rest, client, part, left, avail, rfl, rfl, hserves, hexpects, rfl⟩ := h
  obtain ⟨future, hfuture⟩ := hstream
  have hleft : avail ++ future = left ++ encodeAll rest.tail := by
    have hall : encodeAll (done ++ rest) = encodeAll done ++ encodeAll rest := List.flatMap_append
    rw [hall, hexpects.encodeAll_eq] at hfuture
    simpa using hfuture
  obtain ⟨client', used, avail', hrun, havail, hfd, hused, hcases⟩ := hexpects.turn hleft
  have hfdClient : client'.fd = f := by
    obtain ⟨-, -, -, -, -, hclient, -, -⟩ := hserves
    exact hfd.trans hclient
  -- either the next message is not there, or the turn of the client takes bytes
  have hprogress : Settled (done ++ rest) (encodeAll done ++ (part ++ avail))
      (done.map Message.payload) ∨ avail'.length < avail.length := by
    rcases List.eq_nil_or_concat' used with rfl | ⟨front, byte, rfl⟩
    · refine .inl ?_
      rw [Settled, List.length_append, completed_append, List.length_append,
        hexpects.completed_eq_nil (hused rfl), List.append_nil]
    · refine .inr ?_
      rw [havail, List.length_append, List.length_append, List.length_singleton]
      omega
  have hcalled := recvIter_serves hserves hrun hfdClient
  generalize hparsed : parsed f (Ws.recvIter b).2 = more at hcalled
  cases hcalled with
  | other hserves' hw =>
    rw [List.append_nil]
    exact ⟨⟨done, rest, client, part, left, avail, rfl, rfl, hserves', hexpects, rfl⟩, .inr hw⟩
  | turn hstate hserves' hw =>
    -- the decoder is further on in the message
    rcases hcases with ⟨-, left', hexpects'⟩ | ⟨-, -, -, -, hfull, -⟩
    · rw [List.append_nil]
      refine ⟨⟨done, rest, client', part ++ used, left', avail', rfl, rfl, hserves', hexpects', ?_⟩,
        hprogress.imp_right hw⟩
      rw [havail, List.append_assoc]
    · exact absurd hfull hstate
  | message hstate hopcode hserves' hw =>
    -- the first of the messages is done
    rcases hcases with ⟨hne, -⟩ | ⟨m, ms', rfl, hsplit, -, hpayload, -⟩
    · exact absurd hstate hne
    obtain ⟨left', hexpects'⟩ :=
      expects_initial { client' with state := .initial } rfl ms'
    refine ⟨⟨done ++ [m], ms', _, [], left', avail', ?_, ?_, hserves', hexpects', ?_⟩,
      hprogress.imp_right hw⟩
    · rw [List.append_assoc, List.singleton_append]
    · rw [hpayload, List.map_append, List.map_singleton]
    · have hone : encodeAll [m] = part ++ used := (List.append_nil _).trans hsplit
      have hall : encodeAll (done ++ [m]) = encodeAll done ++ encodeAll [m] := List.flatMap_append
      rw [hall, hone, havail]
      simp
  | closed hstate hopcode =>
    rcases hcases with ⟨hne, -⟩ | ⟨-, -, -, -, -, -, hne⟩
    · exact absurd hstate hne
    · exact absurd hopcode hne

/-- **The messages can be followed.** -/
theorem follows_tracks (f : ℤ) (ms : List Message) :
    Follows f (encodeAll ms) (fun got => (completed ms got.length).map Message.payload)
      (Tracks f ms) where
  payloads_prefix h := h.payloads_prefix
  next h he hcall := by
    obtain ⟨done, rest, client, part, left, avail, hms, hpayloads, hs, hexpects, rfl⟩ := h
    refine ⟨done, rest, client, part, left, _, hms, hpayloads, hs.next he hcall, hexpects, ?_⟩
    simp only [List.append_assoc]
  recvIter h hstream := h.recvIter hstream

/-- A new connection: nothing has been read. -/
theorem tracks_addClient (ms : List Message) (hserves : Serves b f (Client.new f) got) :
    Tracks f ms b got [] := by
  obtain ⟨left, hexpects⟩ := expects_initial (Client.new f) rfl ms
  exact ⟨[], ms, Client.new f, [], left, got, rfl, rfl, hserves, hexpects, rfl⟩

end Tracks

/-- **WebSocket messages are received exactly**, however their bytes are cut: what `rbjson::parse`
is given for a connection is an initial part of the messages that have arrived completely, and all
of them when `recv_iter` is called as often as there are bytes that wait. -/
theorem websocket_exact (before after : List WsEvent) (f : ℤ) (ms : List Message)
    (hnew : ∀ client ∈ (final backend .start before).clients, client.fd ≠ f)
    (hopen : ((final backend .start before).sockets f).failed = false)
    (hafter : ∀ e ∈ after, Keeps f e)
    (hstream : ((final backend .start before).sockets f).avail ++ arrived f after <+:
      encodeAll ms) :
    let b := final backend .start before
    let expected := (completed ms ((b.sockets f).avail ++ arrived f after).length).map
      Message.payload
    parsed f (outputs backend (trace backend b (.addClient f :: after))) <+: expected ∧
      ∀ k, (final backend b (.addClient f :: after)).waitingBytes ≤ k →
        parsed f (outputs backend
          (trace backend b (.addClient f :: after ++ List.replicate k .recvIter))) = expected := by
  have hserves := serves_addClient (waiting_final before) hnew hopen
  exact (follows_tracks f ms).connection after (tracks_addClient ms hserves) hafter hstream

/-- The message of three fragments `"{"`, `""` and `"}"`, cut in a masking key and in a length, next
to a client that has sent a part of a header. -/
theorem websocket_exact_cut :
    parsed 4 (outputs backend (trace backend
      (final backend .start [.accept 3, .addClient 3, .arrive 3 [0x81], .recvIter, .accept 4])
      (.addClient 4 :: [.arrive 4 [0x01, 0x81, 1, 2], .recvIter,
        .arrive 4 [3, 4, 0x7A, 0x00, 0xFE, 0], .recvIter, .arrive 3 [0x7F], .recvIter,
        .arrive 4 [0, 1, 2, 3, 4, 0x80, 0x81, 1, 2, 3, 4, 0x7C]] ++
        List.replicate 20 .recvIter))) = [[0x7B, 0x7D]] :=
  (websocket_exact _ _ 4 [{
      fragments := [⟨[1, 2, 3, 4], [0x7B], false, rfl, by decide⟩,
        ⟨[1, 2, 3, 4], [], true, rfl, by decide⟩,
        ⟨[1, 2, 3, 4], [0x7D], false, rfl, by decide⟩]
      fragments_ne_nil := nofun
      size_le := by decide }]
    (by decide +kernel) rfl (by decide +kernel) (by decide +kernel)).2 20 (by decide +kernel)

end RbProtocol.Ws
