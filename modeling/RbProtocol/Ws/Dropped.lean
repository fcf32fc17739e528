import RbProtocol.Ws.Control
import RbProtocol.Ws.Descriptors

/-!
# Streams at which a client is dropped

The bytes of a connection alone tell whether the decoder drops the client: at the header of a frame
without a mask or with a 64-bit length, at a masking key behind which the message would be longer
than `maxPayload`, or at the end of a CLOSE frame (`Drops`). A frame that is cut off drops nothing.

Every turn of a client keeps what its place in the stream and the bytes from there on tell
(`Goes`, `goes_processClient`), so it does not matter in which pieces the bytes come. Between any
other events a client is somewhere in its stream, or it is out since it was to be dropped
(`Reading`), and calls of `recv_iter` come to the end of the bytes (`Reading.exists_settled`). When
`recv` fails, or a `send` has failed, the client is taken out in any case (`Broken`).
-/

namespace RbProtocol.Ws

open Library Machine

/-! ## The frame in front of a stream -/

/-- What is in front of a stream. -/
inductive Front
  /-- A frame is not complete. -/
  | part
  /-- The client is dropped. -/
  | dropped
  /-- A frame that leaves a payload of `len` bytes, and the stream behind it. -/
  | frame (len : ℕ) (rest : Bytes)

/-- The end of a frame: `flags` is the first byte of its header, and `len` the length of the payload
with the data of the frame. -/
def frontEnd (flags : UInt8) (len : ℕ) (rest : Bytes) : Front :=
  if flags >>> 7 ≠ 0 ∧ flags &&& 0xF = opcodeClose then .dropped else .frame len rest

/-- In the data of a frame, of which `remaining` bytes are missing. -/
def frontData (flags : UInt8) (len remaining : ℕ) (bytes : Bytes) : Front :=
  if bytes.length < remaining then .part else frontEnd flags len (bytes.drop remaining)

/-- Before a masking key. -/
def frontMask (flags : UInt8) (len remaining : ℕ) : Bytes → Front
  | _ :: _ :: _ :: _ :: bytes =>
    if remaining ≠ 0 ∧ maxPayload < len + remaining then .dropped
    else frontData flags (len + remaining) remaining bytes
  | _ => .part

/-- Before a 16-bit length. -/
def frontLen1 (flags : UInt8) (len : ℕ) : Bytes → Front
  | hi :: lo :: bytes => frontMask flags len (hi.toNat * 256 + lo.toNat) bytes
  | _ => .part

/-- Before a frame, with a payload of `len` bytes. -/
def front (len : ℕ) : Bytes → Front
  | flags :: len0 :: bytes =>
    let remaining := (len0 &&& 0x7F).toNat
    let len := if flags &&& 0xF ≠ opcodeContinue then 0 else len
    if len0 >>> 7 = 0 ∨ 127 ≤ remaining then .dropped
    else if remaining < 126 then frontMask flags len remaining bytes
    else frontLen1 flags len bytes
  | _ => .part

/-- One of the frames of a stream makes the backend drop the client, which has a payload of `len`
bytes in front of the stream. -/
inductive Drops : (len : ℕ) → Bytes → Prop
  | now {len : ℕ} {bytes : Bytes} (h : front len bytes = .dropped) : Drops len bytes
  | later {len len' : ℕ} {bytes rest : Bytes} (h : front len bytes = .frame len' rest)
      (hrest : Drops len' rest) : Drops len bytes

/-- The client is dropped, here or behind the frame. -/
def Front.Drops : Front → Prop
  | part => False
  | dropped => True
  | frame len rest => Ws.Drops len rest

theorem drops_iff {len : ℕ} {bytes : Bytes} : Drops len bytes ↔ (front len bytes).Drops := by
  constructor
  · rintro (h | ⟨h, hrest⟩)
    · rw [h]
      trivial
    · rw [h]
      exact hrest
  · intro h
    cases hfront : front len bytes with
    | part =>
      rw [hfront] at h
      exact h.elim
    | dropped => exact .now hfront
    | frame len' rest =>
      rw [hfront] at h
      exact .later hfront h

/-- Some of the data of a frame. -/
theorem frontData_drop {flags : UInt8} {len remaining k : ℕ} {bytes future : Bytes}
    (hk : k ≤ remaining) (hbytes : k ≤ bytes.length) :
    frontData flags len remaining (bytes ++ future) =
      frontData flags len (remaining - k) (bytes.drop k ++ future) := by
  have hlen : (bytes ++ future).length < remaining ↔
      (bytes.drop k ++ future).length < remaining - k := by
    rw [List.length_append, List.length_append, List.length_drop]
    omega
  have hdrop : (bytes ++ future).drop remaining =
      (bytes.drop k ++ future).drop (remaining - k) := by
    rw [← List.drop_append_of_le_length hbytes, List.drop_drop, Nat.add_sub_cancel' hk]
  simp only [frontData, hlen, hdrop]

theorem exists_cons_cons {bytes : Bytes} (h : 2 ≤ bytes.length) :
    ∃ b₀ b₁ rest, bytes = b₀ :: b₁ :: rest := by
  rcases bytes with _ | ⟨b₀, _ | ⟨b₁, rest⟩⟩
  · exact absurd h (by simp)
  · exact absurd h (by simp)
  · exact ⟨b₀, b₁, rest, rfl⟩

/-! ## The place of a client -/

namespace Client

/-- What is in front of a client, at its place in a frame. -/
def front (client : Client) (bytes : Bytes) : Front :=
  match client.state with
  | .initial => Ws.front client.payload.length bytes
  | .len1 => frontLen1 client.flags client.payload.length bytes
  | .mask => frontMask client.flags client.payload.length client.remainingPayloadLen bytes
  | .data => frontData client.flags client.payload.length client.remainingPayloadLen bytes
  | .fullyReceived =>
    if client.opcode = opcodeClose then .dropped else .frame client.payload.length bytes

/-- The bytes that the next read asks for. -/
def needs (client : Client) : ℕ :=
  match client.state with
  | .initial | .len1 => 2
  | .mask => 4
  | .data => min client.remainingPayloadLen chunkSize
  | .fullyReceived => 0

/-- A client that asks for more bytes than there are is not dropped. -/
theorem not_drops_short {client : Client} {avail : Bytes} (hshort : avail.length < client.needs) :
    ¬(client.front avail).Drops := by
  have hpart : client.front avail = .part := by
    rw [needs] at hshort
    rw [front]
    cases hstate : client.state with
    | initial | len1 =>
      rw [hstate] at hshort
      rcases avail with _ | ⟨_, _ | ⟨_, _⟩⟩
      · rfl
      · rfl
      · exact absurd hshort (by simp)
    | mask =>
      rw [hstate] at hshort
      rcases avail with _ | ⟨_, _ | ⟨_, _ | ⟨_, _ | ⟨_, _⟩⟩⟩⟩
      · rfl
      · rfl
      · rfl
      · rfl
      · exact absurd hshort (by simp)
    | data =>
      rw [hstate] at hshort
      exact if_pos (hshort.trans_le (min_le_left _ _))
    | fullyReceived =>
      rw [hstate] at hshort
      exact absurd hshort (Nat.not_lt_zero _)
  rw [hpart]
  exact id

end Client

/-- The end of a frame. -/
theorem drops_endOfFrame (client : Client) (bytes : Bytes) :
    ((endOfFrame client).front bytes).Drops ↔
      (frontEnd client.flags client.payload.length bytes).Drops := by
  have hfin : client.fin = true ↔ client.flags >>> 7 ≠ 0 := decide_eq_true_iff
  by_cases h : client.flags >>> 7 ≠ 0
  · have hstate : (endOfFrame client).state = .fullyReceived := if_pos (hfin.2 h)
    rw [Client.front, hstate, frontEnd]
    simp only [and_iff_right h]
    rfl
  · have hstate : (endOfFrame client).state = .initial := if_neg (mt hfin.1 h)
    have hend : frontEnd client.flags client.payload.length bytes =
        .frame client.payload.length bytes := if_neg fun hclose => h hclose.1
    rw [Client.front, hstate, hend]
    exact drops_iff.symm

/-- A turn of a client keeps what the bytes tell, whatever comes behind them; and it reads some if
there are as many as it asks for. -/
def Goes (client : Client) (avail : Bytes) : Outcome → Prop
  | .closed => ∀ future, (client.front (avail ++ future)).Drops
  | .fault => False
  | .running client' socket => ∃ avail', socket = .open avail' ∧
      (∀ future, (client.front (avail ++ future)).Drops ↔
        (client'.front (avail' ++ future)).Drops) ∧
      avail'.length ≤ avail.length ∧ (client.needs ≤ avail.length → avail'.length < avail.length)

section Turn

variable {client next : Client} {avail avail' : Bytes}

/-- A client that waits for more bytes. -/
theorem goes_short (hshort : avail.length < client.needs) :
    Goes client avail (.running client (.open avail)) :=
  ⟨avail, rfl, fun _ => Iff.rfl, le_rfl, fun hle => absurd hshort (not_lt.2 hle)⟩

/-- A client that has read some bytes. -/
theorem goes_read (hfront : ∀ future,
      (client.front (avail ++ future)).Drops ↔ (next.front (avail' ++ future)).Drops)
    (hlt : avail'.length < avail.length) : Goes client avail (.running next (.open avail')) :=
  ⟨avail', rfl, hfront, hlt.le, fun _ => hlt⟩

/-- The rest of a turn, behind a part that has read some bytes. -/
theorem Goes.trans {o : Outcome} (h : Goes next avail' o)
    (hfront : ∀ future, client.front (avail ++ future) = next.front (avail' ++ future))
    (hlt : avail'.length < avail.length) : Goes client avail o := by
  cases o with
  | closed => exact fun future => hfront future ▸ h future
  | fault => exact h
  | running client' socket =>
    obtain ⟨avail'', rfl, hiff, hle, -⟩ := h
    exact goes_read (fun future => (hfront future) ▸ hiff future) (hle.trans_lt hlt)

/-- The loop of the state `DATA`. The induction is on what remains of the frame. -/
theorem goes_processData (h : client.Bounded) (hstate : client.state = .data) :
    Goes client avail (processData client (.open avail)) := by
  induction hn : client.remainingPayloadLen using Nat.strong_induction_on
    generalizing client avail with
  | _ n ih =>
    obtain ⟨hpos, hle⟩ := h.data_le hstate
    have hmax := h.payload_le
    rw [maxPayload] at hmax
    have hneeds : client.needs = min client.remainingPayloadLen chunkSize := by
      rw [Client.needs, hstate]
    obtain ⟨k, hk⟩ : ∃ k, k = min client.remainingPayloadLen chunkSize := ⟨_, rfl⟩
    have hk0 : 0 < k := hk ▸ lt_min hpos (by decide)
    have hkle : k ≤ client.remainingPayloadLen := hk ▸ min_le_left _ _
    rw [processData_eq, ← hk]
    rw [← hk] at hneeds
    by_cases hshort : avail.length < k
    · rw [readAtLeast_short hshort]
      exact goes_short (hneeds ▸ hshort)
    · have hread : readAtLeast (.open avail) k = some (avail.take k, .open (avail.drop k)) := by
        rw [readAtLeast, if_neg Bool.false_ne_true, if_neg hshort]
      have hchunk : (avail.take k).length = k := List.length_take_of_le (not_lt.1 hshort)
      obtain ⟨payload, hwrite⟩ := Option.isSome_iff_exists.1 <|
        (writeAt?_isSome_iff client.payload
          ((client.payload.length + 2 ^ 16 - client.remainingPayloadLen) % 2 ^ 16)
          (unmask client.maskingKey (avail.take k))).2 <| by
            rw [unmask, List.length_mapIdx]
            omega
      have hpayload := length_writeAt? hwrite
      have hlt : (avail.drop k).length < avail.length := by
        rw [List.length_drop]
        omega
      have hfront (future : Bytes) : client.front (avail ++ future) =
          frontData client.flags payload.length (client.remainingPayloadLen - k)
            (avail.drop k ++ future) := by
        rw [Client.front, hstate, hpayload]
        exact frontData_drop hkle (not_lt.1 hshort)
      simp only [hread, hchunk, hk0.ne', if_false, hwrite]
      split_ifs with hlast
      · refine goes_read (fun future => ?_) hlt
        rw [drops_endOfFrame, hfront, hlast, frontData, if_neg (Nat.not_lt_zero _), List.drop_zero]
      · have hless : client.remainingPayloadLen - k < n := by omega
        refine Goes.trans (@ih _ hless { client with
            payload := payload, remainingPayloadLen := client.remainingPayloadLen - k }
          (avail.drop k) ⟨hpayload.trans_le h.payload_le, fun _ => ⟨Nat.pos_of_ne_zero hlast, ?_⟩⟩
          hstate rfl) (fun future => ?_) hlt
        · show client.remainingPayloadLen - k ≤ payload.length
          omega
        · rw [hfront, Client.front, hstate]

/-- A client that asks for more bytes than there are waits. -/
theorem processClient_short (h : client.Waiting) (hshort : avail.length < client.needs) :
    processClient client (.open avail) = .running client (.open avail) := by
  rw [Client.needs] at hshort
  rw [processClient]
  cases hstate : client.state with
  | initial | len1 | mask =>
    rw [hstate] at hshort
    rw [readAtLeast_short hshort]
    rfl
  | data =>
    rw [hstate] at hshort
    simp only
    rw [processData_eq, readAtLeast_short hshort]
    rfl
  | fullyReceived => exact absurd hstate h.state_ne

/-- The header of a frame. -/
theorem front_processClientHeader (client : Client) (flags len0 : UInt8) (bytes : Bytes) :
    front client.payload.length (flags :: len0 :: bytes) =
      ((processClientHeader client [flags, len0]).map fun next => next.front bytes).getD
        .dropped := by
  unfold processClientHeader front
  simp only [List.getD_cons_zero, List.getD_cons_succ, Client.opcode]
  by_cases hmask : len0 >>> 7 = 0
  · simp only [hmask, true_or, if_true, Option.map_none, Option.getD_none]
  by_cases hlong : 127 ≤ (len0 &&& 0x7F).toNat
  · simp only [hlong, or_true, if_true, Option.map_none, Option.getD_none, ite_self]
  simp only [hmask, hlong, or_self, if_false, Option.map_some, Option.getD_some]
  by_cases hwide : (len0 &&& 0x7F).toNat < 126 <;>
    by_cases hopcode : flags &&& 0xF = opcodeContinue
  all_goals
    simp only [hwide, hopcode, ne_eq, not_true_eq_false, not_false_eq_true, if_true, if_false]
    rfl

/-- **Each turn keeps what the stream tells**: a client that is closed is one that is to be dropped,
and the others go on to the right place. -/
theorem goes_processClient (h : client.Waiting) :
    Goes client avail (processClient client (.open avail)) := by
  by_cases hshort : avail.length < client.needs
  · rw [processClient_short h hshort]
    exact goes_short hshort
  rw [Client.needs] at hshort
  rw [processClient]
  cases hstate : client.state with
  | initial =>
    rw [hstate] at hshort
    obtain ⟨flags, len0, rest, rfl⟩ := exists_cons_cons (not_lt.1 hshort)
    have hread : readAtLeast (.open (flags :: len0 :: rest)) 2 =
        some ([flags, len0], .open rest) := readAtLeast_append [flags, len0] rest
    have hfront (future : Bytes) : client.front (flags :: len0 :: rest ++ future) =
        ((processClientHeader client [flags, len0]).map fun next =>
          next.front (rest ++ future)).getD .dropped := by
      rw [← front_processClientHeader, Client.front, hstate]
      rfl
    simp only [hread, List.length_cons, List.length_nil, Nat.succ_ne_zero, if_false]
    cases hheader : processClientHeader client [flags, len0] with
    | none =>
      intro future
      rw [hfront, hheader]
      trivial
    | some next =>
      refine goes_read (fun future => ?_) (by simp)
      rw [hfront, hheader]
      rfl
  | len1 =>
    rw [hstate] at hshort
    obtain ⟨hi, lo, rest, rfl⟩ := exists_cons_cons (not_lt.1 hshort)
    have hread : readAtLeast (.open (hi :: lo :: rest)) 2 = some ([hi, lo], .open rest) :=
      readAtLeast_append [hi, lo] rest
    simp only [hread, List.length_cons, List.length_nil, Nat.succ_ne_zero, if_false]
    refine goes_read (fun future => ?_) (by simp)
    rw [Client.front, hstate]
    rfl
  | mask =>
    rw [hstate] at hshort
    have hlen : 4 ≤ avail.length := not_lt.1 hshort
    obtain ⟨k₀, k₁, behind, rfl⟩ := exists_cons_cons (show 2 ≤ avail.length by omega)
    have hbehind : 2 ≤ behind.length := by simpa using hlen
    obtain ⟨k₂, k₃, rest, rfl⟩ := exists_cons_cons hbehind
    have hread : readAtLeast (.open (k₀ :: k₁ :: k₂ :: k₃ :: rest)) 4 =
        some ([k₀, k₁, k₂, k₃], .open rest) := readAtLeast_append [k₀, k₁, k₂, k₃] rest
    have hfront (future : Bytes) : client.front (k₀ :: k₁ :: k₂ :: k₃ :: rest ++ future) =
        if client.remainingPayloadLen ≠ 0 ∧
            maxPayload < client.payload.length + client.remainingPayloadLen then .dropped
        else frontData client.flags (client.payload.length + client.remainingPayloadLen)
          client.remainingPayloadLen (rest ++ future) := by
      rw [Client.front, hstate]
      rfl
    simp only [hread, List.length_cons, List.length_nil, Nat.succ_ne_zero, if_false]
    have hlt : rest.length < (k₀ :: k₁ :: k₂ :: k₃ :: rest).length := by
      simp only [List.length_cons]
      omega
    split_ifs with hempty hlong
    · refine goes_read (fun future => ?_) hlt
      rw [hfront, if_neg fun hlong => hlong.1 hempty, hempty, drops_endOfFrame, frontData,
        if_neg (Nat.not_lt_zero _), List.drop_zero, Nat.add_zero]
    · intro future
      rw [hfront, if_pos ⟨hempty, hlong⟩]
      trivial
    · refine goes_read (fun future => ?_) hlt
      rw [hfront, if_neg fun h => hlong h.2, Client.front]
      simp only [List.length_append, List.length_replicate]
  | data => exact goes_processData h.toBounded hstate
  | fullyReceived => exact absurd hstate h.state_ne

end Turn

/-! ## Clients that are closed -/

section Closed

variable {b : Backend} {f : ℤ} {client : Client} {avail : Bytes}

/-- The loop of `recv_iter` with a client on `f` that is to be closed: it ends before this client,
or the client is closed. -/
theorem recvLoop_closed (h : Serves b f client avail)
    (hrun : processClient client (.open avail) = .closed) :
    let r := recvLoop b.sockets b.clients
    (Serves ⟨r.clients, r.sockets⟩ f client avail ∧ ∃ x, r.full = some x ∧ x.fd ≠ f) ∨
      f ∉ r.clients.map Client.fd := by
  obtain ⟨l₁, l₂, hclients, h₁, h₂, hclient, hsocket, hwaiting⟩ := h
  have hspec := recvLoop_spec b.sockets hwaiting
  have hspec₁ := recvLoop_spec b.sockets fun x hx =>
    hwaiting x (hclients ▸ List.mem_append_left _ hx)
  have hf₁ : f ∉ l₁.map Client.fd := fun hmem => by
    obtain ⟨x, hx, hxfd⟩ := List.mem_map.1 hmem
    exact h₁ x hx hxfd
  have hsocket₁ : (recvLoop b.sockets l₁).sockets f = .open avail :=
    (hspec₁.frame f hf₁).trans hsocket
  have hclients₁ : ∀ x ∈ (recvLoop b.sockets l₁).clients, x.fd ≠ f := fun x hx hxfd =>
    hf₁ (hspec₁.fds.subset (List.mem_map.2 ⟨x, hx, hxfd⟩))
  have hwaitingNext := hspec.waiting
  rw [hclients, recvLoop_append] at hwaitingNext ⊢
  cases hfull : (recvLoop b.sockets l₁).full with
  | some x =>
    simp only [hfull, Option.isSome_some, if_true] at hwaitingNext ⊢
    exact .inl ⟨⟨_, l₂, rfl, hclients₁, h₂, hclient, hsocket₁, hwaitingNext⟩, x, rfl,
      hclients₁ x (hspec₁.full x hfull).1⟩
  | none =>
    simp only [hfull, Option.isSome_none, Bool.false_eq_true, if_false]
    rw [recvLoop, hclient, hsocket₁, hrun]
    have hspec₂ := recvLoop_spec (recvLoop b.sockets l₁).sockets fun x hx =>
      hwaiting x (hclients ▸ List.mem_append_right _ (List.mem_cons_of_mem _ hx))
    refine .inr fun hmem => ?_
    rw [List.map_append, List.mem_append] at hmem
    rcases hmem with hmem | hmem
    · exact hf₁ (hspec₁.fds.subset hmem)
    · obtain ⟨x, hx, hxfd⟩ := List.mem_map.1 (hspec₂.fds.subset hmem)
      exact h₂ x hx hxfd

/-- A call of `recv_iter` that returns at a complete message leaves fewer bytes. -/
theorem waitingBytes_recvIter_lt (hwaiting : ∀ client ∈ b.clients, client.Waiting) {x : Client}
    (hfull : (recvLoop b.sockets b.clients).full = some x) :
    (recvIter b).1.waitingBytes < b.waitingBytes := by
  have hspec := recvLoop_spec b.sockets hwaiting
  obtain ⟨hclients, hsockets⟩ := recvIter_spec b
  obtain ⟨hx, hlt⟩ := hspec.full x hfull
  exact waitingBytes_lt ((hclients.map _).trans hspec.fds) (hsockets ▸ hspec.avail_le)
    (hspec.fds.subset (List.mem_map_of_mem hx)) (hsockets ▸ hlt)

/-- **A call of `recv_iter` with a client on `f` that is to be closed.** -/
theorem recvIter_closed (h : Serves b f client avail)
    (hrun : processClient client (.open avail) = .closed) :
    (Serves (recvIter b).1 f client avail ∧ (recvIter b).1.waitingBytes < b.waitingBytes) ∨
      f ∉ (recvIter b).1.fds := by
  obtain ⟨-, -, -, -, -, -, -, hwaiting⟩ := id h
  rcases recvLoop_closed h hrun with ⟨hserves, x, hfull, hx⟩ | hgone
  · refine .inl ⟨?_, waitingBytes_recvIter_lt hwaiting hfull⟩
    rw [recvIter_some hfull]
    exact (hserves.processClientFullyReceivedLocked hx).1
  · exact .inr fun hmem => hgone (((recvIter_spec b).1.map _).subset hmem)

/-! ## Connections that break -/

/-- The connection `f` has no client, or `recv` fails on it. -/
structure Broken (b : Backend) (f : ℤ) : Prop where
  waiting : ∀ client ∈ b.clients, client.Waiting
  failed : f ∈ b.fds → (b.sockets f).failed = true

theorem readAtLeast_failed {socket : Socket} (h : socket.failed = true) (n : ℕ) :
    readAtLeast socket n = none :=
  if_pos h

/-- A client is closed when `recv` fails. -/
theorem processClient_failed {socket : Socket} (h : client.Waiting)
    (hfailed : socket.failed = true) : processClient client socket = .closed := by
  rw [processClient]
  cases hstate : client.state with
  | initial | len1 | mask => simp only [readAtLeast_failed hfailed]
  | data =>
    simp only
    rw [processData_eq, readAtLeast_failed hfailed]
  | fullyReceived => exact absurd hstate h.state_ne

/-- The loop of `recv_iter` and a connection on which `recv` fails. -/
theorem recvLoop_failed {sockets : ℤ → Socket} (hfailed : (sockets f).failed = true)
    {clients : List Client} (h : ∀ client ∈ clients, client.Waiting) :
    (recvLoop sockets clients).sockets f = sockets f ∧
      ((recvLoop sockets clients).full = none →
        f ∉ (recvLoop sockets clients).clients.map Client.fd) := by
  induction clients generalizing sockets with
  | nil => exact ⟨rfl, fun _ => List.not_mem_nil⟩
  | cons client rest ih =>
    obtain ⟨hclient, hrest⟩ := List.forall_mem_cons.1 h
    have hturn := goodTurn_processClient (sockets client.fd) hclient
    have hne (hopen : processClient client (sockets client.fd) ≠ .closed) : f ≠ client.fd := by
      rintro rfl
      exact hopen (processClient_failed hclient hfailed)
    rw [recvLoop]
    cases hrun : processClient client (sockets client.fd) with
    | closed => exact ih hfailed hrest
    | fault =>
      rw [hrun] at hturn
      exact hturn.elim
    | running client' socket =>
      rw [hrun] at hturn hne
      have hself : Function.update sockets client.fd socket f = sockets f :=
        Function.update_of_ne (hne (by simp)) _ _
      obtain ⟨hsocket, hnone⟩ := ih (hself.symm ▸ hfailed) hrest
      simp only
      split_ifs
      · exact ⟨hself, fun h => by cases h⟩
      · refine ⟨hsocket.trans hself, fun hfull hmem => ?_⟩
        rcases List.mem_cons.1 hmem with heq | hmem
        · exact hne (by simp) (heq.trans hturn.2.1)
        · exact hnone hfull hmem

/-- `recv_iter` and a connection that is broken. -/
theorem Broken.recvIter (h : Broken b f) : Broken (recvIter b).1 f where
  waiting := waiting_backend h.waiting .recvIter
  failed hmem := by
    have hbefore : f ∈ b.fds := (recvLoop_spec b.sockets h.waiting).fds.subset
      (((recvIter_spec b).1.map _).subset hmem)
    rw [(recvIter_spec b).2, (recvLoop_failed (h.failed hbefore) h.waiting).1]
    exact h.failed hbefore

/-- **A client whose connection is broken is taken out.** The induction is on the bytes that
wait. -/
theorem Broken.exists_not_mem (h : Broken b f) :
    ∃ k, f ∉ (final backend b (List.replicate k .recvIter)).fds := by
  induction hn : b.waitingBytes using Nat.strong_induction_on generalizing b with
  | _ n ih =>
    by_cases hmem : f ∈ b.fds
    · cases hfull : (recvLoop b.sockets b.clients).full with
      | none =>
        refine ⟨1, fun hmem' => ?_⟩
        refine (recvLoop_failed (h.failed hmem) h.waiting).2 hfull ?_
        exact ((recvIter_spec b).1.map _).subset hmem'
      | some x =>
        obtain ⟨k, hk⟩ := ih _ (hn ▸ waitingBytes_recvIter_lt h.waiting hfull) h.recvIter rfl
        exact ⟨k + 1, hk⟩
    · exact ⟨0, hmem⟩

end Closed

/-! ## The place in a stream -/

section Place

variable {b : Backend} {f : ℤ} {client : Client} {avail got : Bytes}

/-- A client that has got some bytes: it is somewhere in the stream, and the bytes from there on
tell whether it is dropped, or it is out because it was to be dropped. -/
inductive Reading (b : Backend) (f : ℤ) (got : Bytes) : Prop
  | serving (client : Client) (avail : Bytes) (hserves : Serves b f client avail)
      (hdrops : ∀ future, Drops 0 (got ++ future) ↔ (client.front (avail ++ future)).Drops)
  | out (hgone : Gone b f) (hdrops : ∀ future, Drops 0 (got ++ future))

/-- A new connection. -/
theorem reading_new (h : Serves b f (Client.new f) got) : Reading b f got :=
  .serving _ got h fun _ => drops_iff

/-- An event that leaves the connection alone and is not a call of `recv_iter`. -/
theorem Reading.next (h : Reading b f got) {e : WsEvent} (he : Keeps f e) (hcall : e ≠ .recvIter) :
    Reading (backend b e).1 f (got ++ arrived f [e]) := by
  cases h with
  | serving client avail hserves hdrops =>
    refine .serving client _ (hserves.next he hcall) fun future => ?_
    rw [List.append_assoc, List.append_assoc]
    exact hdrops _
  | out hgone hdrops =>
    refine .out (hgone.next he hcall) fun future => ?_
    rw [List.append_assoc]
    exact hdrops _

/-- A client that is not dropped stays, or goes on behind its message. -/
theorem front_initial {client : Client} (hstate : client.state = .fullyReceived)
    (hopcode : client.opcode ≠ opcodeClose) (bytes : Bytes) :
    (client.front bytes).Drops ↔ (Client.front { client with state := .initial } bytes).Drops := by
  rw [Client.front, hstate]
  simp only [hopcode, if_false]
  exact drops_iff

theorem front_close {client : Client} (hstate : client.state = .fullyReceived)
    (hopcode : client.opcode = opcodeClose) (bytes : Bytes) : (client.front bytes).Drops := by
  rw [Client.front, hstate]
  simp only [hopcode, if_true]
  trivial

/-- The result of a call of `recv_iter` that leads from `b` to `b'`, with a client on `f`: it is
somewhere in the stream, and fewer bytes wait if it had as many as it asks for; or it is out. -/
def Settles (b b' : Backend) (f : ℤ) (client : Client) (avail : Bytes) : Prop :=
  (∃ client' avail', Serves b' f client' avail' ∧
      (∀ future, (client.front (avail ++ future)).Drops ↔
        (client'.front (avail' ++ future)).Drops) ∧
      (client.needs ≤ avail.length → b'.waitingBytes < b.waitingBytes)) ∨
    (f ∉ b'.fds ∧ ∀ future, (client.front (avail ++ future)).Drops)

theorem recvIter_settles (h : Serves b f client avail) :
    Settles b (recvIter b).1 f client avail := by
  obtain ⟨l₁, l₂, hclients, -, -, hfd, -, hwaiting⟩ := id h
  have hwait : client.Waiting :=
    hwaiting client (hclients ▸ List.mem_append_right _ List.mem_cons_self)
  have hgoes := @goes_processClient client avail hwait
  have hturn := goodTurn_processClient (.open avail) hwait
  cases hrun : processClient client (.open avail) with
  | fault =>
    rw [hrun] at hgoes
    exact hgoes.elim
  | closed =>
    rw [hrun] at hgoes
    rcases recvIter_closed h hrun with ⟨hserves, hlt⟩ | hgone
    · exact .inl ⟨client, avail, hserves, fun _ => Iff.rfl, fun _ => hlt⟩
    · exact .inr ⟨hgone, hgoes⟩
  | running client' socket =>
    rw [hrun] at hgoes hturn
    obtain ⟨avail', rfl, hiff, -, hprogress⟩ := hgoes
    have hcalled := recvIter_serves h hrun (hturn.2.1.trans hfd)
    generalize parsed f (Ws.recvIter b).2 = payloads at hcalled
    cases hcalled with
    | other hserves hw => exact .inl ⟨client, avail, hserves, fun _ => Iff.rfl, fun _ => hw⟩
    | turn hstate hserves hw =>
      exact .inl ⟨client', avail', hserves, hiff, fun hle => hw (hprogress hle)⟩
    | message hstate hopcode hserves hw =>
      refine .inl ⟨_, avail', hserves, fun future => ?_, fun hle => hw (hprogress hle)⟩
      exact (hiff future).trans (front_initial hstate hopcode _)
    | closed hstate hopcode hgone =>
      refine .inr ⟨fun hmem => ?_, fun future => (hiff future).2 (front_close hstate hopcode _)⟩
      obtain ⟨x, hx, hxfd⟩ := List.mem_map.1 hmem
      exact (hgone x hx).1 hxfd

theorem Serves.waiting (h : Serves b f client avail) : ∀ x ∈ b.clients, x.Waiting := by
  obtain ⟨-, -, -, -, -, -, -, hwaiting⟩ := h
  exact hwaiting

theorem Serves.mem_fds (h : Serves b f client avail) : f ∈ b.fds := by
  obtain ⟨l₁, l₂, hclients, -, -, hfd, -⟩ := h
  rw [Backend.fds, hclients]
  exact List.mem_map.2 ⟨client, List.mem_append_right _ List.mem_cons_self, hfd⟩

theorem gone_of_not_mem (h : f ∉ b.fds) (hwaiting : ∀ x ∈ b.clients, x.Waiting) : Gone b f :=
  fun x hx => ⟨fun hxfd => h (List.mem_map.2 ⟨x, hx, hxfd⟩), hwaiting x hx⟩

/-- **A call of `recv_iter`** keeps the place in the stream. -/
theorem Reading.recvIter (h : Reading b f got) : Reading (recvIter b).1 f got := by
  cases h with
  | out hgone hdrops => exact .out hgone.recvIter.1 hdrops
  | serving client avail hserves hdrops =>
    rcases recvIter_settles hserves with ⟨client', avail', hserves', hiff, -⟩ | ⟨hout, hall⟩
    · exact .serving client' avail' hserves' fun future => (hdrops future).trans (hiff future)
    · exact .out (gone_of_not_mem hout (waiting_backend hserves.waiting .recvIter))
        fun future => (hdrops future).2 (hall future)

/-- **Calls of `recv_iter` come to the end of the bytes, or the client is out.** The induction is on
the bytes that wait. -/
theorem Serves.exists_settled (h : Serves b f client avail) : ∃ k,
    let b' := final backend b (List.replicate k .recvIter)
    ((client.front avail).Drops ∧ f ∉ b'.fds) ∨ (¬(client.front avail).Drops ∧
      ∃ client' avail', Serves b' f client' avail' ∧ avail'.length < client'.needs) := by
  induction hn : b.waitingBytes using Nat.strong_induction_on generalizing b client avail with
  | _ n ih =>
    by_cases hshort : avail.length < client.needs
    · exact ⟨0, .inr ⟨Client.not_drops_short hshort, client, avail, h, hshort⟩⟩
    rcases recvIter_settles h with ⟨client', avail', hserves, hiff, hlt⟩ | ⟨hout, hall⟩
    · obtain ⟨k, hk⟩ := ih _ (hn ▸ hlt (not_lt.1 hshort)) hserves rfl
      have hdrops := hiff []
      rw [List.append_nil, List.append_nil] at hdrops
      rw [← hdrops] at hk
      exact ⟨k + 1, hk⟩
    · have hdrops := hall []
      rw [List.append_nil] at hdrops
      exact ⟨1, .inl ⟨hdrops, hout⟩⟩

theorem Reading.exists_settled (h : Reading b f got) : ∃ k,
    let b' := final backend b (List.replicate k .recvIter)
    (Drops 0 got ∧ f ∉ b'.fds) ∨ (¬Drops 0 got ∧
      ∃ client' avail', Serves b' f client' avail' ∧ avail'.length < client'.needs) := by
  cases h with
  | out hgone hdrops =>
    have hall := hdrops []
    rw [List.append_nil] at hall
    refine ⟨0, .inl ⟨hall, fun hmem => ?_⟩⟩
    obtain ⟨x, hx, hxfd⟩ := List.mem_map.1 hmem
    exact (hgone x hx).1 hxfd
  | serving client avail hserves hdrops =>
    have hall := hdrops []
    rw [List.append_nil, List.append_nil] at hall
    obtain ⟨k, hk⟩ := hserves.exists_settled
    exact ⟨k, by rwa [hall]⟩

/-- A client that is not to be dropped stays. -/
theorem Reading.mem_fds (h : Reading b f got) (hnot : ¬Drops 0 got) :
    f ∈ b.fds := by
  cases h with
  | out hgone hdrops =>
    have hall := hdrops []
    rw [List.append_nil] at hall
    exact absurd hall hnot
  | serving client avail hserves => exact hserves.mem_fds

/-- A connection that breaks. -/
theorem Reading.broken_fail (h : Reading b f got) : Broken (backend b (.fail f)).1 f where
  waiting := by
    cases h with
    | serving _ _ hserves => exact hserves.waiting
    | out hgone => exact fun x hx => (hgone x hx).2
  failed _ := by
    have hself : (backend b (.fail f)).1.sockets f = { b.sockets f with failed := true } :=
      Function.update_self ..
    rw [hself]

theorem Reading.broken_closeClient (h : Reading b f got) :
    Broken (backend b (.closeClient f)).1 f := by
  have hbroken (hgone : Gone (closeClientLocked b f).1 f) :
      Broken (backend b (.closeClient f)).1 f :=
    ⟨fun x hx => (hgone x hx).2, fun hmem => by
      obtain ⟨x, hx, hxfd⟩ := List.mem_map.1 hmem
      exact absurd hxfd (hgone x hx).1⟩
  cases h with
  | serving _ _ hserves => exact hbroken hserves.gone
  | out hgone => exact hbroken fun x hx => hgone x (List.eraseP_sublist.subset hx)

end Place

end RbProtocol.Ws
