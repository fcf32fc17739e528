import RbProtocol.Tcp.Socket

/-!
# What the callbacks get

Between two rounds of `readTask` a callback has got what `recv` has returned, in order, unless a
`recv` that would block met a buffer with bytes in it: such a round ends like one without any, and
its bytes are dropped (`lossless_iff`). What is in the buffer in the middle of a round is `pending`;
every other step moves bytes from `recv` to the buffer and from there to the callbacks
(`pending_received`).
-/

namespace RbProtocol.Tcp

open Library Machine

/-- The bytes a callback got. -/
def delivered (handle : ℕ) (effects : List TcpEffect) : Bytes :=
  effects.flatMap fun
    | .callback h data => if h = handle then data else []
    | _ => []

/-- The bytes `recv` returned. -/
def returned (effects : List TcpEffect) : Bytes :=
  effects.flatMap fun
    | .received bytes => bytes
    | _ => []

theorem delivered_append (handle : ℕ) (as bs : List TcpEffect) :
    delivered handle (as ++ bs) = delivered handle as ++ delivered handle bs :=
  List.flatMap_append

theorem returned_append (as bs : List TcpEffect) :
    returned (as ++ bs) = returned as ++ returned bs :=
  List.flatMap_append

/-- The callbacks of a round: each gets the same bytes, once. -/
theorem delivered_callbacks (handle : ℕ) {callbacks : List ℕ} (hnodup : callbacks.Nodup)
    (data : Bytes) : delivered handle (callbacks.map (TcpEffect.callback · data)) =
      if handle ∈ callbacks then data else [] := by
  induction callbacks with
  | nil => rfl
  | cons h callbacks ih =>
    obtain ⟨hnot, hnodup⟩ := List.nodup_cons.1 hnodup
    have hcons : delivered handle ((h :: callbacks).map (TcpEffect.callback · data)) =
        (if h = handle then data else []) ++
          delivered handle (callbacks.map (TcpEffect.callback · data)) := rfl
    rw [hcons, ih hnodup]
    by_cases heq : h = handle
    · subst heq
      rw [if_pos rfl, if_neg hnot, List.append_nil, if_pos (List.mem_cons_self ..)]
    · rw [if_neg heq, List.nil_append]
      simp [List.mem_cons, Ne.symm heq]

theorem returned_callbacks (callbacks : List ℕ) (data : Bytes) :
    returned (callbacks.map (TcpEffect.callback · data)) = [] := by
  rw [returned, List.flatMap_eq_nil_iff]
  intro e he
  obtain ⟨h, -, rfl⟩ := List.mem_map.1 he
  rfl

/-! ## Steps -/

namespace TcpSocketReal

/-- The bytes of a round that is not at its end. -/
def pending (s : TcpSocketReal) : Bytes :=
  if s.readTask = .recv then s.buf.data.take s.bufOff else []

/-- `recv` fails with an error other than one that would block. -/
def RecvFails (s : TcpSocketReal) : TcpEvent → Prop
  | .readTask => s.readTask = .recv ∧ s.fd < 0
  | .recvFails _ => s.readTask = .recv
  | _ => False

instance (s : TcpSocketReal) (e : TcpEvent) : Decidable (s.RecvFails e) :=
  match e with
  | .readTask => inferInstanceAs (Decidable (s.readTask = .recv ∧ s.fd < 0))
  | .recvFails _ => inferInstanceAs (Decidable (s.readTask = .recv))
  | .arrive _ | .finish | .openSocket _ | .onReceive | .removeCallback _ | .destructor =>
    inferInstanceAs (Decidable False)

/-- A `recv` would block, behind one of the same round that filled the buffer. -/
def BlocksAfterFull (s : TcpSocketReal) (e : TcpEvent) : Prop :=
  e = .readTask ∧ s.readTask = .recv ∧ 0 ≤ s.fd ∧ s.wouldBlock = true ∧ 0 < s.bufOff

instance (s : TcpSocketReal) (e : TcpEvent) : Decidable (s.BlocksAfterFull e) :=
  inferInstanceAs (Decidable (_ ∧ _))

variable {growth : ℕ → ℕ → ℕ} {s : TcpSocketReal} {handle : ℕ}

theorem pending_of_ne (h : s.readTask ≠ .recv) : s.pending = [] := if_neg h

/-- A `recv` that returns bytes: they go to the buffer, or with it to the callbacks. -/
theorem pending_received (hs : s.Sound) (hmem : handle ∈ s.callbacks) (hrecv : s.readTask = .recv) :
    s.pending ++ returned (s.received growth).2 =
      delivered handle (s.received growth).2 ++ (s.received growth).1.pending := by
  have hoff := hs.bufOff_le hrecv
  have hbytes := s.length_recvBytes
  have htake : (s.buf.write s.bufOff s.recvBytes).data.take (s.bufOff + s.recvBytes.length) =
      s.buf.data.take s.bufOff ++ s.recvBytes := ByteVector.take_write hoff
  have hwrite : (s.buf.write s.bufOff s.recvBytes).data.length = s.buf.data.length :=
    ByteVector.length_write (by omega)
  rw [pending, if_pos hrecv, received]
  simp only
  split_ifs with hlast
  · -- the end of the round: the buffer is cut behind the bytes
    have hdata : ((s.buf.write s.bufOff s.recvBytes).resize growth
        (s.bufOff + s.recvBytes.length)).data = s.buf.data.take s.bufOff ++ s.recvBytes := by
      rw [← htake, ← @ByteVector.take_resize growth _ _ _ le_rfl (by rw [hwrite]; omega)]
      exact (List.take_of_length_le (by rw [ByteVector.length_resize])).symm
    rw [← List.singleton_append, returned_append, delivered_append, returned_callbacks,
      delivered_callbacks _ hs.callbacks_nodup, if_pos hmem, hdata, pending_of_ne (by simp),
      List.append_nil]
    simp [returned, delivered]
  · rw [pending, if_pos hrecv]
    simp only
    rw [ByteVector.take_resize (by omega) (by omega), htake]
    simp [returned, delivered]

/-- **A step moves bytes** from `recv` to the buffer and on to the callbacks, except one that drops
those of the buffer. -/
theorem pending_machine (hs : s.Sound) (hmem : handle ∈ s.callbacks) {e : TcpEvent}
    (hfails : ¬ s.RecvFails e) :
    s.pending ++ returned (machine growth s e).2 =
        delivered handle (machine growth s e).2 ++ (machine growth s e).1.pending ∨
      s.BlocksAfterFull e ∧ (machine growth s e).2 = [] ∧
        (machine growth s e).1.readTask ≠ .recv := by
  -- outside of a round there is nothing pending before and behind the step
  have hidle {s' : TcpSocketReal} {out : List TcpEffect} (hat : s.readTask ≠ .recv)
      (hat' : s'.pending = []) (hret : returned out = []) (hdel : delivered handle out = []) :
      s.pending ++ returned out = delivered handle out ++ s'.pending := by
    rw [pending_of_ne hat, hat', hret, hdel]
  cases e with
  | arrive | finish => exact .inl (List.append_nil _)
  | onReceive | removeCallback =>
    rw [machine]
    simp only
    split_ifs <;> exact .inl (List.append_nil _)
  | destructor =>
    left
    rw [machine, stepDestructor]
    cases s.destructor with
    | none | locked | waiting => simp only; split_ifs <;> exact List.append_nil _
    | done => exact List.append_nil _
  | openSocket fd =>
    left
    rw [machine]
    split_ifs with hat
    · exact hidle (by simp [hat]) (pending_of_ne (by simp)) rfl rfl
    · exact hidle (by simp [hat]) (pending_of_ne (by simp [hat])) rfl rfl
    · exact List.append_nil _
  | recvFails err =>
    left
    have hat : s.readTask ≠ .recv := hfails
    rw [machine, if_neg fun h => hat h.1]
    exact List.append_nil _
  | readTask =>
    rw [machine, stepReadTask]
    cases hat : s.readTask with
    | start | test =>
      left
      simp only
      split_ifs
      · exact hidle (by simp [hat]) (pending_of_ne (by simp)) rfl rfl
      · exact hidle (by simp [hat]) (pending_of_ne (by simp [hat])) rfl rfl
    | delay =>
      left
      simp only
      split_ifs
      · exact hidle (by simp [hat]) (by rw [pending, if_pos rfl, List.take_zero]) rfl rfl
      · exact List.append_nil _
    | reopen | deleted => exact .inl (List.append_nil _)
    | recv =>
      have hfd : ¬ s.fd < 0 := fun hfd => hfails ⟨hat, hfd⟩
      simp only [hfd, if_false]
      cases hblock : s.wouldBlock with
      | false => exact .inl (pending_received hs hmem hat)
      | true =>
        simp only [if_true]
        rcases Nat.eq_zero_or_pos s.bufOff with hoff | hoff
        · left
          rw [pending, if_pos hat, hoff, List.take_zero, pending_of_ne (by simp)]
          rfl
        · exact .inr ⟨⟨rfl, hat, not_lt.1 hfd, hblock, hoff⟩, trivial, by simp⟩

/-- A callback stays until it is removed. -/
theorem mem_callbacks_machine (hmem : handle ∈ s.callbacks) {e : TcpEvent}
    (he : e ≠ .removeCallback handle) : handle ∈ (machine growth s e).1.callbacks := by
  cases e with
  | arrive | finish => exact hmem
  | onReceive =>
    rw [machine]
    simp only
    split_ifs
    · exact List.mem_append_left _ hmem
    · exact hmem
  | removeCallback h =>
    rw [machine]
    simp only
    split_ifs
    · exact (List.mem_erase_of_ne fun heq => he (congrArg _ heq.symm)).2 hmem
    · exact hmem
  | destructor =>
    rw [machine, stepDestructor]
    cases s.destructor with
    | none | waiting => simp only; split_ifs <;> exact hmem
    | locked | done => exact hmem
  | openSocket | recvFails =>
    rw [machine]
    split_ifs <;> exact hmem
  | readTask =>
    rw [machine, stepReadTask]
    cases s.readTask with
    | start | test | delay => simp only; split_ifs <;> exact hmem
    | reopen | deleted => exact hmem
    | recv =>
      simp only
      split_ifs
      · exact hmem
      · exact hmem
      · rw [received]
        simp only
        split_ifs <;> exact hmem

/-! ## Runs -/

/-- After every part of a run that does not end within a round, the callback has got what `recv`
has returned. -/
def Lossless (growth : ℕ → ℕ → ℕ) (s : TcpSocketReal) (handle : ℕ) (es : List TcpEvent) : Prop :=
  ∀ as, as <+: es → (final (machine growth) s as).readTask ≠ .recv →
    delivered handle (outputs (machine growth) (trace (machine growth) s as)) =
      returned (outputs (machine growth) (trace (machine growth) s as))

/-- A run that drops nothing. -/
theorem pending_final (hs : s.Sound) (hmem : handle ∈ s.callbacks) {es : List TcpEvent}
    (hkeep : .removeCallback handle ∉ es)
    (hfails : EveryStep (machine growth) (fun s e => ¬ s.RecvFails e) s es)
    (hblocks : EveryStep (machine growth) (fun s e => ¬ s.BlocksAfterFull e) s es) :
    s.pending ++ returned (outputs (machine growth) (trace (machine growth) s es)) =
      delivered handle (outputs (machine growth) (trace (machine growth) s es)) ++
        (final (machine growth) s es).pending := by
  induction es generalizing s with
  | nil => exact List.append_nil _
  | cons e es ih =>
    obtain ⟨he, hes⟩ := EveryStep.cons_iff.1 hfails
    obtain ⟨hb, hbs⟩ := EveryStep.cons_iff.1 hblocks
    obtain ⟨hne, hrest⟩ := not_or.1 (mt List.mem_cons.2 hkeep)
    have hstep := (@pending_machine growth _ _ hs hmem _ he).resolve_right fun h => hb h.1
    have hrun := ih (sound_machine hs e) (mem_callbacks_machine hmem (Ne.symm hne)) hrest hes hbs
    rw [trace_cons, outputs_cons, returned_append, delivered_append, final_cons,
      ← List.append_assoc,
      hstep, List.append_assoc, hrun, List.append_assoc]

/-- Bytes may get lost, but do not appear. -/
theorem length_pending_final (hs : s.Sound) (hmem : handle ∈ s.callbacks) {es : List TcpEvent}
    (hkeep : .removeCallback handle ∉ es)
    (hfails : EveryStep (machine growth) (fun s e => ¬ s.RecvFails e) s es) :
    (delivered handle (outputs (machine growth) (trace (machine growth) s es))).length +
        (final (machine growth) s es).pending.length ≤
      s.pending.length +
        (returned (outputs (machine growth) (trace (machine growth) s es))).length := by
  induction es generalizing s with
  | nil => exact (Nat.add_comm _ _).le
  | cons e es ih =>
    obtain ⟨he, hes⟩ := EveryStep.cons_iff.1 hfails
    obtain ⟨hne, hrest⟩ := not_or.1 (mt List.mem_cons.2 hkeep)
    have hrun := ih (sound_machine hs e) (mem_callbacks_machine hmem (Ne.symm hne)) hrest hes
    rw [trace_cons, outputs_cons, returned_append, delivered_append, final_cons, List.length_append,
      List.length_append]
    simp only
    rcases @pending_machine growth _ _ hs hmem _ he with hstep | ⟨-, hout, hat⟩
    · have hlen := congrArg List.length hstep
      rw [List.length_append, List.length_append] at hlen
      omega
    · rw [pending_of_ne hat, List.length_nil] at hrun
      have hdelivered : delivered handle [] = [] := rfl
      have hreturned : returned [] = [] := rfl
      rw [hout, hdelivered, hreturned, List.length_nil]
      omega

/-- Within a round that has bytes in its buffer something is pending. -/
theorem pending_pos (hs : s.Sound) (hat : s.readTask = .recv) (hoff : 0 < s.bufOff) :
    0 < s.pending.length := by
  rw [pending, if_pos hat, List.length_take, min_eq_left (hs.bufOff_le hat)]
  exact hoff

/-- **What the callbacks get.** From its registration on, a callback that is not removed gets what
`recv` returns, as long as this does not fail with an error other than one that would block, if and
only if no `recv` would block behind one of the same round that filled the buffer. -/
theorem lossless_iff (growth : ℕ → ℕ → ℕ) (fd : ℕ) (es₀ es : List TcpEvent)
    (hfree : (final (machine growth) (start growth fd) es₀).mutex = none) :
    let s := final (machine growth) (start growth fd) (es₀ ++ [.onReceive])
    ∀ (_ : .removeCallback s.cbCounter ∉ es)
      (_ : EveryStep (machine growth) (fun s e => ¬ s.RecvFails e) s es),
      Lossless growth s s.cbCounter es ↔
        EveryStep (machine growth) (fun s e => ¬ s.BlocksAfterFull e) s es := by
  intro s hkeep hfails
  have hs : s.Sound := sound_final fd _
  have hreg : (final (machine growth) (start growth fd) (es₀ ++ [.onReceive])) =
      (machine growth (final (machine growth) (start growth fd) es₀) .onReceive).1 := by
    rw [final_append]
    rfl
  have hfree' : s.mutex = none ∧ s.cbCounter ∈ s.callbacks := by
    rw [show s = _ from hreg, machine]
    simp only [hfree, if_true]
    exact ⟨trivial, List.mem_append_right _ (List.mem_singleton_self _)⟩
  have hat : s.readTask ≠ .recv := by
    intro hrecv
    have hmutex := hs.mutex_readTask.2 (by rw [hrecv]; rfl)
    rw [hfree'.1] at hmutex
    cases hmutex
  constructor
  · -- at the step that blocks, the callback has got less than `recv` has returned
    intro hlossless c hc hblocks
    obtain ⟨t, u, hsplit⟩ := List.append_of_mem hc
    obtain ⟨as, bs, rfl, rfl, hfinal⟩ := trace_eq_append_cons hsplit
    obtain ⟨hfails, -⟩ := EveryStep.append_iff.1 hfails
    have hkeep' : .removeCallback s.cbCounter ∉ as := fun h => hkeep (List.mem_append_left _ h)
    have hsound : c.1.Sound := hfinal ▸ sound_run hs as
    have hpos := pending_pos hsound hblocks.2.1 hblocks.2.2.2.2
    have hlen := length_pending_final hs hfree'.2 hkeep' hfails
    have hstep : machine growth c.1 c.2 = ({ c.1 with readTask := .test }, []) := by
      obtain ⟨he, hrecv, hfd, hblock, -⟩ := hblocks
      rw [he, machine, stepReadTask, hrecv]
      simp only [not_lt.2 hfd, hblock, if_false, if_true]
    have heq := hlossless (as ++ [c.2]) ⟨bs, by rw [List.append_assoc]; rfl⟩ (by
      rw [final_append, hfinal, final_cons, final_nil, hstep]
      simp)
    rw [trace_append, hfinal, trace_cons, trace_nil, outputs_append, outputs_cons,
      outputs_nil] at heq
    simp only [hstep, List.append_nil] at heq
    rw [heq, hfinal, pending_of_ne hat, List.length_nil] at hlen
    omega
  · intro hblocks as has hnot
    obtain ⟨bs, rfl⟩ := has
    have hrun := pending_final hs hfree'.2 (fun h => hkeep (List.mem_append_left _ h))
      (EveryStep.append_iff.1 hfails).1 (EveryStep.append_iff.1 hblocks).1
    rw [pending_of_ne hat, pending_of_ne hnot, List.nil_append, List.append_nil] at hrun
    exact hrun.symm

/-- How the vectors of the library grow. -/
def doubling (size n : ℕ) : ℕ := size + max size (n - size)

/-- `readTask` on its way to its first `recv`. -/
def toRecv : List TcpEvent := [.readTask, .readTask, .readTask]

/-- Three bytes reach the callback. -/
theorem lossless_short :
    Lossless doubling (final (machine doubling) (start doubling 7) [.onReceive]) 1
      (toRecv ++ [.arrive [1, 2, 3], .readTask]) :=
  (lossless_iff doubling 7 [] _ rfl (by decide) (by decide +kernel)).2 (by decide +kernel)

/-- 64 bytes fill the buffer, the next `recv` would block, and the callback gets nothing. -/
theorem not_lossless_full :
    ¬ Lossless doubling (final (machine doubling) (start doubling 7) [.onReceive]) 1
      (toRecv ++ [.arrive (List.replicate 64 0), .readTask, .readTask]) := by
  intro h
  have heq := h _ (List.prefix_refl _) (by decide +kernel)
  revert heq
  decide +kernel

end TcpSocketReal

end RbProtocol.Tcp
