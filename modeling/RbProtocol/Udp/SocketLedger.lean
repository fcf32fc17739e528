import RbProtocol.Udp.ReadTask

/-!
# The sockets of `Udp`

Each descriptor that the system gives to `Udp` is closed again or is the socket of a port
(`descriptors_run`): `openSocket` closes what it cannot bind, `send` closes a socket of its own,
`reopenSocketLocked` closes a socket before it opens one in its place, and `removeCallback` the
last socket of a port. The ports with a socket are those with a callback, and no two of them have
the same socket.

Such a state is one in which callbacks are served (`System.Sound.serves`).
-/

namespace RbProtocol.Udp

open Library Machine ProtBackendUdp Protocol

/-! ## The descriptors -/

/-- The descriptors in a map of sockets. -/
def descriptors (openSockets : AList fun _ : UInt16 => ℤ) : List ℤ :=
  openSockets.entries.map Sigma.snd

/-- The descriptors that are open. -/
def System.held (s : System) : List ℤ := descriptors s.udp.openSockets

/-- The descriptors that the system gives. -/
def openedFds (es : List Effect) : List ℤ :=
  es.filterMap fun
    | .opened fd => some fd
    | _ => none

/-- The descriptors that are closed. -/
def closedFds (es : List Effect) : List ℤ :=
  es.filterMap fun
    | .event (.close fd) => some fd
    | _ => none

/-- A step keeps the balance: what was held and what is opened is closed or held afterwards. -/
def Balanced (s : System) (r : System × List Effect) : Prop :=
  (openedFds r.2 ++ s.held).Perm (closedFds r.2 ++ r.1.held)

/-- A step on which the balance and the maps rely: the system gives no descriptor that is open, the
counter of the handles does not wrap around, and an entry that `removeCallback` has erased still
holds its descriptor when it is read. -/
def Lawful (s : System) : SystemEvent → Prop
  | .onReceive port callback calls => calls.fd ∉ s.held ∧
      ¬s.udp.Overflows (.onReceive port callback (openSocket calls).1)
  | .removeCallback handle stale => ∀ info fd, s.udp.IsLast handle info →
      s.udp.openSockets.lookup info.port = some fd → stale = fd
  | .visit _ r => ∀ port ports, s.round = some (port :: ports) →
      ∀ calls ∈ r.all, calls.fd ∉ descriptors (s.udp.openSockets.erase port)
  | _ => True

/-- What holds of the maps in every state. -/
structure System.Sound (s : System) : Prop where
  kept : s.udp.Kept []
  distinct : s.held.Nodup
  reading : ∀ handle ∈ s.udp.callbacks, s.udp.readTask = true

/-- `Udp`, and `readTask` before its first round. -/
def System.start : System :=
  ⟨new, fun _ => ⟨[], some .badf⟩, List.replicate 64 0, 64, [], none⟩

/-! ## The pieces -/

section Pieces

variable {s : System} {openSockets : AList fun _ : UInt16 => ℤ} {port : UInt16} {fd : ℤ}

@[simp] theorem openedFds_append (es fs : List Effect) :
    openedFds (es ++ fs) = openedFds es ++ openedFds fs := List.filterMap_append

@[simp] theorem closedFds_append (es fs : List Effect) :
    closedFds (es ++ fs) = closedFds es ++ closedFds fs := List.filterMap_append

theorem openedFds_event (es : List Event) : openedFds (es.map .event) = [] := by
  rw [openedFds, List.filterMap_map]
  exact List.filterMap_eq_nil_iff.2 fun _ _ => rfl

/-- **`openSocket` closes** what it does not return. -/
theorem openedFds_openSocket (calls : SocketCalls) : openedFds (openSocket calls).2 =
    closedFds (openSocket calls).2 ++
      if (openSocket calls).1 = -1 then [] else [(openSocket calls).1] := by
  unfold openSocket
  split_ifs <;> simp_all [openedFds, closedFds]

theorem descriptors_perm (h : openSockets.lookup port = some fd) :
    (descriptors openSockets).Perm (fd :: descriptors (openSockets.erase port)) := by
  have hmem : port ∈ openSockets.entries.keys := AList.lookup_isSome.1 (by rw [h]; rfl)
  obtain ⟨fd', l₁, l₂, hnew, hentries, herase⟩ := List.exists_of_kerase hmem
  obtain rfl : fd' = fd := by
    have hlookup : ⟨port, fd'⟩ ∈ openSockets.entries := by
      rw [hentries]
      exact List.mem_append_right _ List.mem_cons_self
    exact Option.some.inj ((AList.mem_lookup_iff.2 hlookup).symm.trans h)
  have herased : (openSockets.erase port).entries = l₁ ++ l₂ := herase
  rw [descriptors, descriptors, hentries, herased, List.map_append, List.map_cons, List.map_append]
  exact List.perm_middle

theorem descriptors_insert (fd : ℤ) : descriptors (openSockets.insert port fd) =
    fd :: descriptors (openSockets.erase port) := rfl

theorem descriptors_insert_of_notMem (h : port ∉ openSockets) (fd : ℤ) :
    descriptors (openSockets.insert port fd) = fd :: descriptors openSockets := by
  rw [descriptors, AList.entries_insert_of_notMem h]
  rfl

/-- No two ports have the same socket. -/
theorem lookup_inj (h : (descriptors openSockets).Nodup) {port' : UInt16}
    (hport : openSockets.lookup port = some fd) (hport' : openSockets.lookup port' = some fd) :
    port = port' := by
  have hmem := AList.mem_lookup_iff.1 hport
  have hmem' := AList.mem_lookup_iff.1 hport'
  exact congrArg Sigma.fst (List.inj_on_of_nodup_map h hmem hmem' rfl)

theorem balanced_nil {udp : Udp} {es : List Effect}
    (hheld : udp.openSockets = s.udp.openSockets) (hes : openedFds es = closedFds es) :
    Balanced s (s.after udp es) := by
  rw [Balanced, System.after, System.held, System.held, hheld, hes]

theorem balanced_refl : Balanced s (s, []) := List.Perm.refl _

/-- **A socket that is opened again** takes the place of the one that is closed. -/
theorem balanced_reopen (h : s.udp.openSockets.lookup port = some fd) (r : Reopening) :
    Balanced s (s.after
      { s.udp with openSockets :=
          s.udp.openSockets.insert port (reopenSocketLocked fd r).1 }
      (reopenSocketLocked fd r).2) := by
  have hfailures : ∀ l : List SocketCalls, (∀ calls ∈ l, (openSocket calls).1 = -1) →
      openedFds (l.flatMap fun calls => (openSocket calls).2) =
        closedFds (l.flatMap fun calls => (openSocket calls).2) := fun l hl => by
    induction l with
    | nil => rfl
    | cons calls l ih =>
      obtain ⟨hcalls, hl⟩ := List.forall_mem_cons.1 hl
      rw [List.flatMap_cons, openedFds_append, closedFds_append, ih hl, openedFds_openSocket,
        if_pos hcalls, List.append_nil]
  have hall := hfailures r.failures r.fails
  have hopened : openedFds (reopenSocketLocked fd r).2 =
      closedFds (r.all.flatMap fun calls => (openSocket calls).2) ++
        [(openSocket r.success).1] := by
    have hsuccess := openedFds_openSocket r.success
    rw [if_neg r.succeeds] at hsuccess
    calc openedFds (reopenSocketLocked fd r).2
        = openedFds (r.all.flatMap fun calls => (openSocket calls).2) := rfl
      _ = _ := by
          rw [Reopening.all, List.flatMap_append, openedFds_append, closedFds_append, hall,
            List.flatMap_singleton, hsuccess, List.append_assoc]
  have hclosed : closedFds (reopenSocketLocked fd r).2 =
      fd :: closedFds (r.all.flatMap fun calls => (openSocket calls).2) := rfl
  rw [Balanced, System.after, System.held, System.held, hopened, hclosed, descriptors_insert]
  refine ((descriptors_perm h).append_left _).trans ?_
  rw [List.append_assoc, List.cons_append]
  exact ((List.Perm.swap fd _ _).append_left _).trans List.perm_middle

end Pieces

/-! ## The steps -/

section Steps

variable {g : Growth} {s : System}

/-- What a step does to the balance and to the maps. -/
def Accounts (s : System) (r : System × List Effect) : Prop := Balanced s r ∧ r.1.Sound

theorem System.Sound.stays (h : s.Sound) : Accounts s (s, []) := ⟨balanced_refl, h⟩

theorem System.Sound.onReceive (h : s.Sound) {port : UInt16} {callback : ℕ} {calls : SocketCalls}
    (hfresh : calls.fd ∉ s.held)
    (hover : ¬s.udp.Overflows (.onReceive port callback (openSocket calls).1)) :
    Accounts s (s.onReceive port callback calls) := by
  have hlast : ¬s.udp.RemovesLast (.onReceive port callback (openSocket calls).1) := id
  have hkept := kept_machine h.kept hlast hover
  have hopened := openedFds_openSocket calls
  unfold System.onReceive
  rw [machine, Udp.onReceive] at hkept
  rw [Udp.onReceive]
  cases hfor : s.udp.socketFor port (openSocket calls).1 with
  | none =>
    -- the port has no socket, and `openSocket` has closed what it has opened
    have hfor' := hfor
    rw [socketFor] at hfor'
    split_ifs at hfor' with hmem hfd
    rw [if_pos hfd, List.append_nil] at hopened
    refine ⟨balanced_nil rfl ?_, h.kept, h.distinct, h.reading⟩
    rw [System.opening, if_neg hmem, openedFds_append, closedFds_append, hopened]
    rfl
  | some openSockets =>
    rw [hfor] at hkept
    have hkept' : (⟨openSockets, s.udp.callbacks.insert (int32 (s.udp.callbackIdCounter + 1))
        ⟨callback, port⟩, int32 (s.udp.callbackIdCounter + 1), true⟩ : Udp).Kept [] :=
      ⟨hkept.inStep, hkept.counter_nonneg, hkept.callbacks_le, List.forall_mem_nil _,
        List.nodup_nil⟩
    rw [socketFor] at hfor
    split_ifs at hfor with hmem hfd
    · obtain rfl := Option.some.inj hfor
      refine ⟨balanced_nil rfl ?_, hkept', h.distinct, fun _ _ => rfl⟩
      rw [System.opening, if_pos hmem]
      rfl
    · obtain rfl := Option.some.inj hfor
      have hheld := descriptors_insert_of_notMem hmem (openSocket calls).1
      rw [if_neg hfd] at hopened
      refine ⟨?_, hkept', ?_, fun _ _ => rfl⟩
      · rw [Balanced, System.after, System.held, System.held, hheld, System.opening, if_neg hmem,
          openedFds_append, closedFds_append, hopened, openedFds_event, List.append_nil]
        have hnone : closedFds ([Event.registered
            (int32 (s.udp.callbackIdCounter + 1))].map .event) = [] := rfl
        rw [hnone, List.append_nil, List.append_assoc]
        exact List.Perm.refl _
      · refine (congrArg List.Nodup hheld).mpr (List.nodup_cons.2 ⟨?_, h.distinct⟩)
        rwa [openSocket_fst hfd]

/-- The last callback of a port goes with the socket of the port. -/
theorem Kept.removeLast {udp : Udp} (h : udp.Kept []) {handle : ℤ} {info : CallbackInfo}
    (hlast : udp.IsLast handle info) :
    ({ udp with
        callbacks := udp.callbacks.erase handle
        openSockets := udp.openSockets.erase info.port } : Udp).Kept [] where
  inStep port := by
    have hin := h.inStep port
    rw [hasCallback_erase hlast.1] at hin
    rw [AList.mem_erase, hin]
    constructor
    · rintro ⟨hne, heq | hhas⟩
      · exact absurd heq.symm hne
      · exact hhas
    · intro hhas
      refine ⟨?_, .inr hhas⟩
      rintro rfl
      exact hlast.2 hhas
  counter_nonneg := h.counter_nonneg
  callbacks_le handle' hmem := h.callbacks_le _ (AList.mem_erase.1 hmem).2
  returned_le := List.forall_mem_nil _
  nodup := List.nodup_nil

theorem System.Sound.removeCallback (h : s.Sound) {handle stale : ℤ}
    (hstale : ∀ info fd, s.udp.IsLast handle info →
      s.udp.openSockets.lookup info.port = some fd → stale = fd) :
    Accounts s (s.removeCallback handle stale) := by
  have hreading : ∀ handle' ∈ s.udp.callbacks.erase handle, s.udp.readTask = true :=
    fun handle' hmem => h.reading handle' (AList.mem_erase.1 hmem).2
  unfold System.removeCallback
  by_cases hlast : s.udp.RemovesLast (.removeCallback handle stale)
  · obtain ⟨info, hlookup, hno⟩ := hlast
    have hmem : info.port ∈ s.udp.openSockets :=
      (h.kept.inStep info.port).2 ((hasCallback_erase hlookup).2 (.inl rfl))
    obtain ⟨fd, hfd⟩ := Option.isSome_iff_exists.1 (AList.lookup_isSome.2 hmem)
    obtain rfl := hstale info fd ⟨hlookup, hno⟩ hfd
    have hperm := descriptors_perm hfd
    rw [Udp.removeCallback, Option.mem_def.1 hlookup]
    simp only [hno, if_false, hfd]
    refine ⟨hperm, h.kept.removeLast ⟨hlookup, hno⟩, ?_, hreading⟩
    exact (List.nodup_cons.1 (hperm.nodup_iff.1 h.distinct)).2
  · have hkept := kept_machine h.kept hlast id
    have hstep := step_machine hlast
    rw [machine] at hkept hstep
    generalize s.udp.removeCallback handle stale = r at hkept hstep
    cases hstep with
    | unknown hlookup => exact ⟨balanced_nil rfl rfl, h.kept, h.distinct, h.reading⟩
    | oneOfMany hlookup hmany => exact ⟨balanced_nil rfl rfl, hkept, h.distinct, hreading⟩

theorem System.Sound.send (h : s.Sound) (data : Bytes) (port : UInt16) (ip : Bytes)
    (calls : SocketCalls) (res : ℤ) : Accounts s (s.send data port ip calls res) := by
  have hopened := openedFds_openSocket calls
  refine ⟨?_, ?_⟩
  · unfold System.send
    cases s.udp.openSockets.lookup port with
    | some fd =>
      simp only
      split_ifs <;> exact balanced_nil rfl rfl
    | none =>
      refine balanced_nil rfl ?_
      rw [openedFds_append, closedFds_append, hopened]
      split_ifs with hfd
      · rw [List.append_nil]
        rfl
      · rw [List.append_assoc]
        rfl
  · unfold System.send
    cases s.udp.openSockets.lookup port <;> exact ⟨h.kept, h.distinct, h.reading⟩

/-- The keys stay when a socket is opened again. -/
theorem Kept.reopen {udp : Udp} (h : udp.Kept []) {port : UInt16} {fd : ℤ} (fd' : ℤ)
    (hfd : udp.openSockets.lookup port = some fd) :
    ({ udp with openSockets := udp.openSockets.insert port fd' } : Udp).Kept [] where
  inStep port' := by
    have hmem : port ∈ udp.openSockets := AList.lookup_isSome.1 (by rw [hfd]; rfl)
    rw [AList.mem_insert, or_iff_right_of_imp (fun heq => heq ▸ hmem)]
    exact h.inStep port'
  counter_nonneg := h.counter_nonneg
  callbacks_le := h.callbacks_le
  returned_le := List.forall_mem_nil _
  nodup := List.nodup_nil

theorem System.Sound.failed (h : s.Sound) {port : UInt16} {fd : ℤ} {e : Errno} {r : Reopening}
    (hfd : s.udp.openSockets.lookup port = some fd)
    (hfresh : ∀ calls ∈ r.all, calls.fd ∉ descriptors (s.udp.openSockets.erase port)) :
    Accounts s (s.failed port fd e r) := by
  unfold System.failed
  split_ifs
  · refine ⟨balanced_reopen hfd r, h.kept.reopen _ hfd, ?_, h.reading⟩
    refine List.nodup_cons.2 ⟨?_, ?_⟩
    · rw [reopenSocketLocked, openSocket_fst r.succeeds]
      exact hfresh _ (List.mem_append_right _ (List.mem_singleton_self _))
    · exact (List.nodup_cons.1 ((descriptors_perm hfd).nodup_iff.1 h.distinct)).2
  · exact h.stays

theorem balanced_callAll {udp : Udp} {port : UInt16} {data sourceIp : Bytes} :
    openedFds (callAll udp port data sourceIp) = [] ∧
      closedFds (callAll udp port data sourceIp) = [] := by
  constructor
  all_goals
    refine List.filterMap_eq_nil_iff.2 fun e he => ?_
    obtain ⟨c, -, hc⟩ := List.mem_filterMap.1 he
    split_ifs at hc
    obtain rfl := Option.some.inj hc
    rfl

theorem System.Sound.visit (h : s.Sound) {port : UInt16} {broken : Option (ℤ × Errno)}
    {r : Reopening}
    (hfresh : ∀ calls ∈ r.all, calls.fd ∉ descriptors (s.udp.openSockets.erase port)) :
    Accounts s (s.visit g port broken r) := by
  unfold System.visit
  cases hfd : s.udp.openSockets.lookup port with
  | none => exact h.stays
  | some fd =>
    simp only
    generalize peekDatagram g (s.sockets fd) (resize s.buf s.capacity 0) s.capacity = peeked
    cases peeked.1 with
    | some e =>
      exact System.Sound.failed (s := { s with buf := peeked.2.1, capacity := peeked.2.2 })
        ⟨h.kept, h.distinct, h.reading⟩ hfd hfresh
    | none =>
      unfold System.take
      simp only
      rcases (breakSocket s.sockets broken fd).recvfrom peeked.2.1 0 false with
        ⟨e | answer, socket⟩
      · exact System.Sound.failed (s := { s with
            sockets := breakSocket s.sockets broken
            buf := peeked.2.1
            capacity := peeked.2.2 }) ⟨h.kept, h.distinct, h.reading⟩ hfd hfresh
      · refine ⟨?_, h.kept, h.distinct, h.reading⟩
        rw [Balanced, balanced_callAll.1, balanced_callAll.2]
        exact List.Perm.refl _

/-- **One step** keeps the balance and the maps. -/
theorem accounts_system (h : s.Sound) {e : SystemEvent} (hlawful : Lawful s e) :
    Accounts s (system g s e) := by
  have hround (round : Option (List UInt16)) : ({ s with round } : System).Sound :=
    ⟨h.kept, h.distinct, h.reading⟩
  cases e with
  | onReceive port callback calls =>
    unfold system
    simp only
    split_ifs
    · exact h.stays
    · exact h.onReceive hlawful.1 hlawful.2
  | removeCallback handle stale =>
    unfold system
    simp only
    split_ifs
    · exact h.stays
    · exact h.removeCallback hlawful
  | send data port ip calls res =>
    unfold system
    simp only
    split_ifs
    · exact h.stays
    · exact h.send data port ip calls res
  | arrive fd d => exact ⟨balanced_refl, h.kept, h.distinct, h.reading⟩
  | fail fd e => exact ⟨balanced_refl, h.kept, h.distinct, h.reading⟩
  | lock =>
    unfold system
    simp only
    split_ifs
    · exact ⟨balanced_refl, hround _⟩
    · exact h.stays
  | visit broken r =>
    have hfresh := hlawful
    unfold system
    unfold Lawful at hfresh
    simp only at hfresh ⊢
    rcases hports : s.round with _ | _ | ⟨port, ports⟩
    · exact h.stays
    · exact h.stays
    · exact (hround (some ports)).visit (hfresh port ports hports)
  | unlock =>
    unfold system
    simp only
    split_ifs
    · exact ⟨balanced_refl, hround _⟩
    · exact h.stays

end Steps

/-! ## Runs -/

section Runs

variable {g : Growth} {s : System}

theorem sound_start : System.start.Sound where
  kept := kept_new
  distinct := List.nodup_nil
  reading _ hmem := absurd hmem (AList.notMem_empty _)

theorem accounts_run (h : s.Sound) (es : List SystemEvent)
    (hlawful : EveryStep (system g) Lawful s es) :
    (openedFds (outputs (system g) (trace (system g) s es)) ++ s.held).Perm
        (closedFds (outputs (system g) (trace (system g) s es)) ++
          (final (system g) s es).held) ∧
      (final (system g) s es).Sound := by
  induction es generalizing s with
  | nil => exact ⟨List.Perm.refl _, h⟩
  | cons e es ih =>
    obtain ⟨hstep, hrest⟩ := EveryStep.cons_iff.1 hlawful
    obtain ⟨hbalanced, hsound⟩ := accounts_system (g := g) h hstep
    obtain ⟨hrun, hfinal⟩ := ih hsound hrest
    refine ⟨?_, hfinal⟩
    rw [trace_cons, outputs_cons, openedFds_append, closedFds_append, final_cons, List.append_assoc,
      List.append_assoc]
    generalize outputs (system g) (trace (system g) (system g s e).1 es) = later at hrun ⊢
    -- what is opened later is counted in front of the balance of the first step
    calc (openedFds (system g s e).2 ++ (openedFds later ++ s.held)).Perm
          (openedFds later ++ (openedFds (system g s e).2 ++ s.held)) :=
        List.perm_append_comm_assoc ..
      List.Perm _ (openedFds later ++ (closedFds (system g s e).2 ++ (system g s e).1.held)) :=
        hbalanced.append_left _
      List.Perm _ (closedFds (system g s e).2 ++ (openedFds later ++ (system g s e).1.held)) :=
        List.perm_append_comm_assoc ..
      List.Perm _ _ := hrun.append_left _

/-- **No socket is lost**: in any run, what has been opened has been closed or is the socket of a
port. The ports with a socket are those with a callback, and each has a socket of its own; so
without a callback everything is closed. -/
theorem descriptors_run (g : Growth) (es : List SystemEvent)
    (hlawful : EveryStep (system g) Lawful System.start es) :
    let s' := final (system g) System.start es
    let es' := outputs (system g) (trace (system g) System.start es)
    (openedFds es').Perm (closedFds es' ++ s'.held) ∧ s'.held.Nodup ∧ s'.udp.InStep ∧
      (s'.udp.callbacks.entries = [] → (openedFds es').Perm (closedFds es')) := by
  obtain ⟨hbalance, hsound⟩ := accounts_run sound_start es hlawful
  have hstart : System.start.held = [] := rfl
  rw [hstart, List.append_nil] at hbalance
  refine ⟨hbalance, hsound.distinct, hsound.kept.inStep, fun hnone => ?_⟩
  have hheld : (final (system g) System.start es).held = [] := by
    refine List.map_eq_nil_iff.2 (List.eq_nil_iff_forall_not_mem.2 fun c hc => ?_)
    have hmem : c.1 ∈ (final (system g) System.start es).udp.openSockets :=
      List.mem_map_of_mem hc
    obtain ⟨entry, hentry, -⟩ := (hsound.kept.inStep c.1).1 hmem
    rw [hnone] at hentry
    cases hentry
  rwa [hheld, List.append_nil] at hbalance

/-- A port that cannot be bound, one that can, a datagram sent to another port, and the removal of
the callback. -/
def openAndClose : List SystemEvent :=
  [.onReceive 53 7 ⟨3, true, false⟩, .onReceive 53 7 ⟨4, true, true⟩,
    .send [9] 80 (literal "10.0.0.1") ⟨5, true, true⟩ 1, .removeCallback 1 4]

theorem lawful_openAndClose : EveryStep (system doubling) Lawful System.start openAndClose := by
  refine EveryStep.cons_iff.2 ⟨⟨by decide, by decide⟩, EveryStep.cons_iff.2
    ⟨⟨by decide, by decide⟩, EveryStep.cons_iff.2 ⟨trivial, EveryStep.cons_iff.2 ⟨?_, ?_⟩⟩⟩⟩
  · intro info fd hlast hfd
    obtain rfl : ⟨7, 53⟩ = info := Option.some.inj hlast.1
    exact Option.some.inj hfd
  · exact fun c hc => absurd hc List.not_mem_nil

theorem descriptors_run_openAndClose :
    (openedFds (outputs (system doubling) (trace (system doubling) System.start
      openAndClose))).Perm (closedFds (outputs (system doubling) (trace (system doubling)
        System.start openAndClose))) :=
  (descriptors_run doubling openAndClose lawful_openAndClose).2.2.2 rfl

/-- In a sound state a callback whose socket works is served. -/
theorem System.Sound.serves (h : s.Sound) {handle fd : ℤ} {info : CallbackInfo}
    (hregistered : s.udp.callbacks.lookup handle = some info)
    (hfd : s.udp.openSockets.lookup info.port = some fd) (hworks : (s.sockets fd).error = none) :
    s.Serves handle info fd where
  registered := hregistered
  opened port := by
    constructor
    · exact fun hport => lookup_inj h.distinct hport hfd
    · rintro rfl
      exact hfd
  works := hworks
  reading := h.reading handle (AList.lookup_isSome.1 (by rw [hregistered]; rfl))

end Runs

end RbProtocol.Udp
