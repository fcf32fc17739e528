import RbProtocol.Tcp.Socket

/-!
# Closing the socket

The destructor closes the socket and sets `m_fd` to −1 in its critical section. When `readTask` has
not taken the mutex before, it then meets its loop with a negative descriptor and ends. Otherwise
the destructor was in the delay of the loop: behind the delay `readTask` calls `recv` without a look
at `m_fd`, gets `EBADF` and opens the socket again (`closing_final`).
-/

namespace RbProtocol.Tcp.TcpSocketReal

open Library Machine

/-- The destructor has closed the socket. -/
def Closed (s : TcpSocketReal) : Prop := s.destructor = .waiting ∨ s.destructor = .done

/-- Once the destructor has closed the socket, none is opened, and `m_fd` stays negative. -/
def StaysClosed (growth : ℕ → ℕ → ℕ) (s : TcpSocketReal) (es : List TcpEvent) : Prop :=
  ∀ as bs, es = as ++ bs → (final (machine growth) s as).Closed →
    (final (machine growth) s es).fd < 0 ∧
      .openSocket ∉ outputs (machine growth)
        (trace (machine growth) (final (machine growth) s as) bs)

/-- The destructor takes the mutex in the delay of `readTask`. -/
def ClosesInDelay (s : TcpSocketReal) (e : TcpEvent) : Prop :=
  e = .destructor ∧ s.destructor = .none ∧ s.mutex = none ∧ s.readTask = .delay

instance (s : TcpSocketReal) (e : TcpEvent) : Decidable (s.ClosesInDelay e) :=
  inferInstanceAs (Decidable (_ ∧ _))

variable {growth : ℕ → ℕ → ℕ} {s : TcpSocketReal}

/-- `readTask` is outside of the body of its loop. -/
def Outside (s : TcpSocketReal) : Prop :=
  s.readTask = .start ∨ s.readTask = .test ∨ s.readTask = .deleted

/-- What is kept up to and behind a closing that does not come in the delay. -/
structure Ordered (s : TcpSocketReal) : Prop where
  sound : s.Sound
  locked_start : s.destructor = .locked → s.readTask = .start
  closed_outside : s.Closed → s.fd < 0 ∧ s.Outside

/-- **The steps behind the closing**, with `readTask` outside of its loop. -/
theorem closed_machine (hclosed : s.Closed) (hfd : s.fd < 0) (hout : s.Outside) (e : TcpEvent) :
    (machine growth s e).1.Closed ∧ (machine growth s e).1.fd < 0 ∧ (machine growth s e).1.Outside ∧
      .openSocket ∉ (machine growth s e).2 := by
  have hrecv : s.readTask ≠ .recv := by rcases hout with h | h | h <;> simp [h]
  have hreopen : s.readTask ≠ .reopen := by rcases hout with h | h | h <;> simp [h]
  cases e with
  | arrive | finish => exact ⟨hclosed, hfd, hout, List.not_mem_nil⟩
  | onReceive | removeCallback =>
    rw [machine]
    simp only
    split_ifs <;> exact ⟨hclosed, hfd, hout, List.not_mem_nil⟩
  | recvFails err =>
    rw [machine, if_neg fun h => hrecv h.1]
    exact ⟨hclosed, hfd, hout, List.not_mem_nil⟩
  | openSocket fd =>
    rw [machine, if_neg hreopen]
    exact ⟨hclosed, hfd, hout, List.not_mem_nil⟩
  | destructor =>
    rw [machine, stepDestructor]
    rcases hclosed with h | h
    · simp only [h]
      split_ifs
      · exact ⟨.inr rfl, hfd, hout, List.not_mem_nil⟩
      · exact ⟨.inl h, hfd, hout, List.not_mem_nil⟩
    · simp only [h]
      exact ⟨.inr h, hfd, hout, List.not_mem_nil⟩
  | readTask =>
    rw [machine, stepReadTask]
    rcases hout with h | h | h
    · simp only [h]
      split_ifs
      · exact ⟨hclosed, hfd, .inr (.inl rfl), List.not_mem_nil⟩
      · exact ⟨hclosed, hfd, .inl h, List.not_mem_nil⟩
    · simp only [h, not_le.2 hfd, if_false]
      exact ⟨hclosed, hfd, .inr (.inr rfl), List.not_mem_nil⟩
    · simp only [h]
      exact ⟨hclosed, hfd, .inr (.inr h), List.not_mem_nil⟩

theorem closed_run (hclosed : s.Closed) (hfd : s.fd < 0) (hout : s.Outside) (es : List TcpEvent) :
    (final (machine growth) s es).fd < 0 ∧
      .openSocket ∉ outputs (machine growth) (trace (machine growth) s es) := by
  induction es generalizing s with
  | nil => exact ⟨hfd, List.not_mem_nil⟩
  | cons e es ih =>
    obtain ⟨hclosed', hfd', hout', hopen⟩ := @closed_machine growth _ hclosed hfd hout e
    obtain ⟨hfinal, hrun⟩ := ih hclosed' hfd' hout'
    exact ⟨hfinal, by rw [trace_cons, outputs_cons]; exact fun h =>
      (List.mem_append.1 h).elim hopen hrun⟩

/-- Only the destructor moves the destructor. -/
theorem destructor_machine {e : TcpEvent} (he : e ≠ .destructor) :
    (machine growth s e).1.destructor = s.destructor := by
  cases e with
  | arrive | finish => rfl
  | onReceive | removeCallback =>
    rw [machine]
    simp only
    split_ifs <;> rfl
  | openSocket | recvFails =>
    rw [machine]
    split_ifs <;> rfl
  | destructor => exact absurd rfl he
  | readTask =>
    rw [machine, stepReadTask]
    cases s.readTask with
    | start | test | delay => simp only; split_ifs <;> rfl
    | reopen | deleted => rfl
    | recv =>
      simp only
      split_ifs
      · rfl
      · rfl
      · rw [received]
        simp only
        split_ifs <;> rfl

/-- While the destructor holds the mutex, `readTask` does not start. -/
theorem start_machine (hs : s.Sound) (hlocked : s.destructor = .locked)
    (hstart : s.readTask = .start)
    {e : TcpEvent} (he : e ≠ .destructor) : (machine growth s e).1.readTask = .start := by
  have hmutex := hs.mutex_destructor.2 hlocked
  cases e with
  | arrive | finish => exact hstart
  | onReceive | removeCallback =>
    rw [machine]
    simp only
    split_ifs <;> exact hstart
  | recvFails err =>
    rw [machine, if_neg (by simp [hstart])]
    exact hstart
  | openSocket fd =>
    rw [machine, if_neg (by simp [hstart])]
    exact hstart
  | destructor => exact absurd rfl he
  | readTask =>
    rw [machine, stepReadTask, hstart]
    simp only [hmutex]
    exact hstart

theorem ordered_destructor (h : s.Ordered) (hclose : ¬ s.ClosesInDelay .destructor) :
    (machine growth s .destructor).1.Ordered := by
  have hsound : (machine growth s .destructor).1.Sound := sound_machine h.sound _
  cases hat : s.destructor with
  | none =>
    by_cases hfree : s.mutex = none
    · -- the mutex is free and `readTask` is not in its delay
      have hstart : s.readTask = .start := by
        cases hread : s.readTask with
        | start => rfl
        | delay => exact absurd ⟨rfl, hat, hfree, hread⟩ hclose
        | test | recv | reopen | deleted =>
          have hmutex := h.sound.mutex_readTask.2 (by rw [hread]; rfl)
          rw [hfree] at hmutex
          cases hmutex
      refine ⟨hsound, ?_, ?_⟩ <;> rw [machine, stepDestructor, hat] <;> simp only [hfree, if_true]
      · exact fun _ => hstart
      · intro hclosed
        rcases hclosed with hclosed | hclosed <;> cases hclosed
    · have hstep : (machine growth s .destructor).1 = s := by
        rw [machine, stepDestructor, hat]
        simp only [hfree, if_false]
      rw [hstep]
      exact h
  | locked =>
    have hstart := h.locked_start hat
    refine ⟨hsound, ?_, ?_⟩ <;> rw [machine, stepDestructor, hat]
    · intro hlocked
      cases hlocked
    · exact fun _ => ⟨neg_one_lt_zero, .inl hstart⟩
  | waiting | done =>
    have hclosed : s.Closed := by first | exact .inl hat | exact .inr hat
    obtain ⟨hfd, hout⟩ := h.closed_outside hclosed
    obtain ⟨hclosed', hfd', hout', -⟩ := @closed_machine growth _ hclosed hfd hout .destructor
    exact ⟨hsound, fun hlocked => hclosed'.elim (by simp [hlocked]) (by simp [hlocked]),
      fun _ => ⟨hfd', hout'⟩⟩

theorem ordered_machine (h : s.Ordered) {e : TcpEvent} (hclose : ¬ s.ClosesInDelay e) :
    (machine growth s e).1.Ordered := by
  by_cases he : e = .destructor
  · subst he
    exact ordered_destructor h hclose
  · have hkeep := @destructor_machine growth s e he
    refine ⟨sound_machine h.sound e, fun hlocked => ?_, fun hclosed => ?_⟩
    · rw [hkeep] at hlocked
      exact start_machine h.sound hlocked (h.locked_start hlocked) he
    · rw [Closed, hkeep] at hclosed
      obtain ⟨hfd, hout⟩ := h.closed_outside hclosed
      obtain ⟨-, hfd', hout', -⟩ := @closed_machine growth _ hclosed hfd hout e
      exact ⟨hfd', hout'⟩

theorem ordered_start (fd : ℕ) : (start growth fd).Ordered := by
  refine ⟨sound_start fd, fun hlocked => ?_, fun hclosed => ?_⟩
  · cases hlocked
  · rcases hclosed with hclosed | hclosed <;> cases hclosed

theorem ordered_final {es : List TcpEvent} (h : s.Ordered)
    (hclose : EveryStep (machine growth) (fun s e => ¬ s.ClosesInDelay e) s es) :
    (final (machine growth) s es).Ordered := by
  induction es generalizing s with
  | nil => exact h
  | cons e es ih =>
    obtain ⟨he, hes⟩ := EveryStep.cons_iff.1 hclose
    exact ih (ordered_machine h he) hes

/-- The steps that open the socket again: the destructor closes it, and `readTask` goes on behind
its delay. -/
def reopening : List TcpEvent := [.destructor, .readTask, .readTask, .openSocket 0]

theorem reopens {e : TcpEvent} (hclose : s.ClosesInDelay e) :
    ¬ StaysClosed growth (machine growth s e).1 reopening := by
  obtain ⟨rfl, hnone, hfree, hdelay⟩ := hclose
  intro hstays
  have h := hstays [.destructor] _ rfl
  simp [machine, stepDestructor, stepReadTask, hnone, hfree, hdelay, Closed,
    reopenSocketLocked] at h

/-- The destructor runs in the first delay of `readTask`. -/
theorem not_staysClosed_delay : ¬ StaysClosed (fun _ n => n) (start (fun _ n => n) 7)
    [.readTask, .readTask, .destructor, .destructor, .readTask, .readTask, .openSocket 0] := by
  intro h
  obtain ⟨hfd, -⟩ := h [.readTask, .readTask, .destructor, .destructor] _ rfl (.inl rfl)
  revert hfd
  decide +kernel

/-- **Closing is final** in every run in which the destructor does not take the mutex in the delay
of `readTask`; and when it does, the run can go on so that the socket is opened again. -/
theorem closing_final (growth : ℕ → ℕ → ℕ) (fd : ℕ) :
    (∀ es, EveryStep (machine growth) (fun s e => ¬ s.ClosesInDelay e) (start growth fd) es →
      StaysClosed growth (start growth fd) es) ∧
    ∀ es e, (final (machine growth) (start growth fd) es).ClosesInDelay e →
      ∃ es', ¬ StaysClosed growth (start growth fd) (es ++ e :: es') := by
  constructor
  · rintro es hclose as bs rfl hclosed
    obtain ⟨has, -⟩ := EveryStep.append_iff.1 hclose
    obtain ⟨hfd, hout⟩ := (ordered_final (ordered_start fd) has).closed_outside hclosed
    rw [final_append]
    exact closed_run hclosed hfd hout bs
  · intro es e hclose
    refine ⟨reopening, fun hstays => @reopens growth _ e hclose fun as bs heq hclosed => ?_⟩
    have h := hstays (es ++ e :: as) bs (by rw [heq, List.append_assoc]; rfl)
    rw [final_append, final_append, final_cons, final_cons] at h
    exact h hclosed

/-- The destructor comes first, and `readTask` ends. -/
theorem staysClosed_first : StaysClosed (fun _ n => n) (start (fun _ n => n) 7)
    [.destructor, .destructor, .readTask, .readTask, .destructor] :=
  (closing_final _ 7).1 _ (by decide +kernel)

end RbProtocol.Tcp.TcpSocketReal
