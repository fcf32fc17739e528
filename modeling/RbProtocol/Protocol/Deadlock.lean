import RbProtocol.Protocol.Tasks

/-!
# Deadlocks of the tasks

Code that holds a mutex locks another one only in the order `m_mustarrive_mutex`, `m_mutex`
(`locks_of_held`), and no queue operation but the insert of `stop()` waits without a limit. `stop()`
makes that insert with `m_mutex` held, and `send_task`, which alone makes room in the queue, locks
`m_mutex` for each item. So there is one way to a deadlock (`Sound.deadlocked_iff`): the queue is
full while `stop()` is at its insert and `send_task` goes for `m_mutex`, or for `m_mustarrive_mutex`
whose holder goes for `m_mutex`. The steps that lead there can be told from the state before them
(`Sound.jammed_step_iff`), and a run is free of deadlock exactly as long as none of them is taken
(`deadlockFree_run_iff`). A deadlock is for ever (`Sound.closed_final`).
-/

namespace RbProtocol.Protocol.Tasks

open Library Library.Deadlock

variable {C : Type*} {s : Tasks C}

/-! ## What a task waits for -/

theorem waits_mutex_iff {t : Task C} {m : Mutex} :
    s.waiting.waits t = some (.mutex m) ↔ s.wants t = some m ∧ (s.holder m).isSome := by
  simp only [waiting, wants]
  cases code t (s.place t) .no with
  | lock m' p =>
    simp only [waitsFor, Instr.locks?]
    split_ifs with hheld
    · simp only [Option.some.injEq, Resource.mutex.injEq]
      constructor
      · rintro rfl
        exact ⟨rfl, hheld⟩
      · exact And.left
    · simp only [Option.some.injEq, false_iff, not_and]
      rintro rfl
      exact hheld
  | xQueueSendToFront p =>
    simp only [waitsFor, Instr.locks?]
    split_ifs <;> simp
  | _ => simp [waitsFor, Instr.locks?]

theorem waits_room_iff {t : Task C} : s.waiting.waits t = some .room ↔
    t = .stop ∧ s.place .stop = StopPlace.insertFront ∧ ¬ s.sendQueue.length < sendQueueLength := by
  constructor
  · intro h
    simp only [waiting] at h
    cases hcode : code t (s.place t) .no with
    | xQueueSendToFront p =>
      have ht : t = .stop := by
        by_contra ht
        exact code_ne_front ht hcode
      subst ht
      rw [hcode, waitsFor] at h
      split_ifs at h with hroom
      exact ⟨rfl, (stopCode_eq_front hcode).1, hroom⟩
    | lock m p =>
      rw [hcode, waitsFor] at h
      split_ifs at h
      cases h
    | _ =>
      rw [hcode] at h
      cases h
  · rintro ⟨rfl, hplace, hfull⟩
    simp only [waiting, hplace, code, stopCode, waitsFor, if_neg hfull]

theorem callCode_locks_of_held {recv : Bool} {p : CallPlace} {m m' : Mutex} (hm : m ∈ p.held)
    (hlocks : (callCode recv p .no).locks? = some m') :
    p = .lockCounter true ∧ m = .mustarriveMutex ∧ m' = .mutex := by
  cases p with
  | lockCounter b =>
    cases b with
    | true => exact ⟨rfl, List.mem_singleton.1 hm, (Option.some.inj hlocks).symm⟩
    | false => cases hm
  | lockAddr | lockEntry | lockSection => cases hm
  | _ => cases hlocks

theorem recvCode_locks_of_held {p : RecvPlace} {m m' : Mutex} (hm : m ∈ p.held)
    (hlocks : (recvCode p .no).locks? = some m') :
    (∃ ws, p = .handleMsg ws (.lockCounter true)) ∧ m = .mustarriveMutex ∧ m' = .mutex := by
  cases p with
  | handleMsg ws p =>
    have hcall : (callCode true p .no).locks? = some m' := by
      cases p <;> exact hlocks
    obtain ⟨rfl, rfl, rfl⟩ := callCode_locks_of_held hm hcall
    exact ⟨⟨ws, rfl⟩, rfl, rfl⟩
  | recvIter ws => cases ws <;> cases hlocks
  | notifyWait => cases hlocks
  | lockRecv ws => cases hm
  | exited => cases hlocks

theorem sendCode_locks_of_held {p : SendPlace} {m m' : Mutex} (hm : m ∈ p.held)
    (hlocks : (sendCode p .no).locks? = some m') :
    (p = .lockAddr ∨ p = .lockEntry) ∧ m = .mustarriveMutex ∧ m' = .mutex := by
  cases p with
  | lockAddr => exact ⟨.inl rfl, List.mem_singleton.1 hm, (Option.some.inj hlocks).symm⟩
  | lockEntry => exact ⟨.inr rfl, List.mem_singleton.1 hm, (Option.some.inj hlocks).symm⟩
  | receive | lockTransmit | lockResend => cases hm
  | _ => cases hlocks

theorem stopCode_locks_of_held {p : StopPlace} {m m' : Mutex} (hm : m ∈ p.held) :
    (stopCode p .no).locks? ≠ some m' := by
  cases p with
  | outside | lockStop => cases hm
  | test stopped => cases stopped <;> nofun
  | _ => nofun

/-- **A task that holds a mutex locks another one only in the order `m_mustarrive_mutex`,
`m_mutex`.** -/
theorem locks_of_held {t : Task C} {p : Place t} {m m' : Mutex} (hm : m ∈ heldAt t p)
    (hlocks : (code t p .no).locks? = some m') : m = .mustarriveMutex ∧ m' = .mutex := by
  cases t with
  | sendTask => exact (sendCode_locks_of_held hm hlocks).2
  | recvTask => exact (recvCode_locks_of_held hm hlocks).2
  | stop => exact absurd hlocks (stopCode_locks_of_held hm)
  | caller _ => exact (callCode_locks_of_held hm hlocks).2

/-! ## The one deadlock -/

/-- `stop()` is at its insert. -/
def Inserting (s : Tasks C) : Prop := s.place .stop = StopPlace.insertFront

instance (s : Tasks C) : Decidable s.Inserting :=
  inferInstanceAs (Decidable (s.place .stop = StopPlace.insertFront))

/-- The send queue is full. -/
def Full (s : Tasks C) : Prop := s.sendQueue.length = sendQueueLength

instance (s : Tasks C) : Decidable s.Full :=
  inferInstanceAs (Decidable (s.sendQueue.length = sendQueueLength))

/-- The holder of `m_mustarrive_mutex` is about to lock `m_mutex`. -/
def HolderStuck (s : Tasks C) : Prop :=
  ∃ u ∈ s.holder .mustarriveMutex, s.wants u = some .mutex

instance (s : Tasks C) : Decidable s.HolderStuck :=
  inferInstanceAs (Decidable (∃ u ∈ s.holder .mustarriveMutex, s.wants u = some .mutex))

/-- `send_task` is about to lock `m_mutex`, or `m_mustarrive_mutex` whose holder is. -/
def Stuck (s : Tasks C) : Prop :=
  s.wants .sendTask = some .mutex ∨ s.wants .sendTask = some .mustarriveMutex ∧ s.HolderStuck

instance (s : Tasks C) : Decidable s.Stuck :=
  inferInstanceAs (Decidable (_ ∨ _ ∧ _))

/-- `stop()` holds `m_mutex` and waits for room in the queue, and `send_task` cannot make room
before it gets `m_mutex`. -/
def Jammed (s : Tasks C) : Prop := s.Inserting ∧ s.Full ∧ s.Stuck

/-- The resources in the order in which the code takes them. -/
def rank : Resource → ℕ
  | .mutex .mustarriveMutex => 0
  | .mutex .mutex => 1
  | .room => 2

theorem rank_le (r : Resource) : rank r ≤ 2 := by
  rcases r with (_ | _) | _ <;> decide

/-- While `stop()` is at its insert it holds `m_mutex`. -/
theorem Sound.holder_of_inserting (h : s.Sound) (hins : s.Inserting) :
    s.holder .mutex = some .stop := by
  refine (h.held .mutex .stop).2 ?_
  rw [hins]
  exact List.mem_singleton_self _

theorem Jammed.deadlocked (h : s.Sound) (hjam : s.Jammed) : s.waiting.Deadlocked := by
  obtain ⟨hins, hfull, hstuck⟩ := hjam
  have hholder := h.holder_of_inserting hins
  have hmutex : ∀ u, s.wants u = some .mutex → s.waiting.waits u = some (.mutex .mutex) :=
    fun u hu => waits_mutex_iff.2 ⟨hu, by rw [hholder]; rfl⟩
  refine ⟨{.stop, .sendTask} ∪ {u | s.wants u = some .mutex}, ⟨.stop, by simp⟩, ?_⟩
  rintro t ((rfl | rfl) | ht)
  · refine ⟨.room, waits_room_iff.2 ⟨rfl, hins, by rw [hfull]; exact lt_irrefl _⟩, ?_⟩
    rintro u ⟨rfl, -⟩
    simp
  · rcases hstuck with hwants | ⟨hwants, u, hu, hwants'⟩
    · refine ⟨.mutex .mutex, hmutex _ hwants, fun u hu => ?_⟩
      obtain rfl := Option.some.inj (hholder.symm.trans hu)
      simp
    · refine ⟨.mutex .mustarriveMutex, waits_mutex_iff.2 ⟨hwants, by rw [hu]; rfl⟩, fun v hv => ?_⟩
      obtain rfl := Option.some.inj (hu.symm.trans hv)
      exact .inr hwants'
  · refine ⟨.mutex .mutex, hmutex t ht, fun u hu => ?_⟩
    obtain rfl := Option.some.inj (hholder.symm.trans hu)
    simp

/-- What is waited for can be provided. -/
theorem Sound.exists_provides (h : s.Sound) {t : Task C} {r : Resource}
    (hr : s.waiting.waits t = some r) : ∃ u, s.waiting.provides r u := by
  cases r with
  | mutex m => exact Option.isSome_iff_exists.1 (waits_mutex_iff.1 hr).2
  | room =>
    obtain ⟨-, hins, -⟩ := waits_room_iff.1 hr
    refine ⟨.sendTask, rfl, fun hexited => ?_⟩
    have hinserted := h.inserted (.inr hexited)
    rw [hins] at hinserted
    exact hinserted

/-- **Nothing but `stop()` at its insert blocks tasks on each other.** -/
theorem Sound.deadlocked_iff (h : s.Sound) : s.waiting.Deadlocked ↔ s.Jammed := by
  refine ⟨?_, Jammed.deadlocked h⟩
  rintro ⟨B, hne, hclosed⟩
  -- what the holder of a mutex waits for comes later in the order
  have hlater : ∀ m u r, s.holder m = some u → s.waiting.waits u = some r →
      rank (.mutex m) < rank r := by
    intro m u r hu hr
    cases r with
    | mutex m' =>
      obtain ⟨rfl, rfl⟩ := locks_of_held ((h.held m u).1 hu) (waits_mutex_iff.1 hr).1
      exact Nat.zero_lt_one
    | room => cases m <;> decide
  obtain ⟨t, -, u, hu, r, r', hr, hprovides, hr', hle⟩ :=
    hclosed.exists_rank_le hne rank_le fun t r => h.exists_provides
  cases r with
  | mutex m => exact absurd (hlater m u r' hprovides hr') (by omega)
  | room =>
    obtain ⟨-, hins, hfull⟩ := waits_room_iff.1 hr
    obtain ⟨rfl, -⟩ := hprovides
    refine ⟨hins, le_antisymm h.room (not_lt.1 hfull), ?_⟩
    rcases r' with (_ | _) | _
    · exact .inl (waits_mutex_iff.1 hr').1
    · obtain ⟨hwants, hheld⟩ := waits_mutex_iff.1 hr'
      obtain ⟨v, hv⟩ := Option.isSome_iff_exists.1 hheld
      -- the holder is in the set, so it waits too
      obtain ⟨r₀, hr₀, hprovider⟩ := hclosed .sendTask hu
      obtain rfl : r₀ = _ := Option.some.inj (hr₀.symm.trans hr')
      obtain ⟨r'', hr'', -⟩ := hclosed v (hprovider v hv)
      refine .inr ⟨hwants, v, hv, ?_⟩
      rcases r'' with (_ | _) | _
      · exact (waits_mutex_iff.1 hr'').1
      · exact absurd (hlater _ _ _ hv hr'') (lt_irrefl _)
      · obtain ⟨rfl, -⟩ := waits_room_iff.1 hr''
        have hmem := (h.held _ _).1 hv
        rw [hins] at hmem
        cases List.mem_singleton.1 hmem
    · obtain ⟨hstop, -⟩ := waits_room_iff.1 hr'
      cases hstop

/-! ## The steps into the deadlock -/

/-- Where a task is in a call. -/
def callAt (s : Tasks C) : Task C → Option CallPlace
  | .recvTask =>
    match s.place .recvTask with
    | .handleMsg _ p => some p
    | _ => none
  | .caller c => some (s.place (.caller c))
  | _ => none

/-- **The steps after which `stop()` waits for room that cannot come**, told from the state before:
`stop()` comes to its insert, `send_task` goes for a mutex, another task fills the queue, or it goes
for `m_mutex` with `m_mustarrive_mutex` held. -/
def Jams (s : Tasks C) : Task C × Choice → Prop
  | (.stop, _) => s.place .stop = StopPlace.test false ∧ s.Full ∧ s.Stuck
  | (.sendTask, c) => s.Inserting ∧ s.Full ∧ c = .yes ∧
      (s.place .sendTask = SendPlace.resend ∨ s.place .sendTask = SendPlace.nextEntry ∨
        s.place .sendTask = SendPlace.timer ∧ s.HolderStuck)
  | (t, _) => s.Inserting ∧
      ((∃ m, s.callAt t = some (.enqueue m)) ∧ s.sendQueue.length + 1 = sendQueueLength ∧ s.Stuck ∨
        s.callAt t = some .addEntry ∧ s.Full ∧ s.place .sendTask = SendPlace.lockResend)

theorem wants_sendTask_mustarrive :
    s.wants .sendTask = some .mustarriveMutex ↔ s.place .sendTask = SendPlace.lockResend := by
  simp only [wants, code]
  cases s.place .sendTask with
  | receive i =>
    rw [sendCode]
    split_ifs <;> simp [Instr.locks?]
  | _ => simp [sendCode, Instr.locks?]

theorem held_of_callAt {u : Task C} {p : CallPlace} (h : s.callAt u = some p) :
    heldAt u (s.place u) = p.held := by
  cases u with
  | recvTask =>
    rw [callAt] at h
    split at h
    · rename_i hplace
      obtain rfl := Option.some.inj h
      rw [hplace]
      rfl
    · cases h
  | caller c =>
    obtain rfl := Option.some.inj h
    rfl
  | _ => cases h

theorem wants_of_callAt {u : Task C} (h : s.callAt u = some (.lockCounter true)) :
    s.wants u = some .mutex := by
  cases u with
  | recvTask =>
    rw [callAt] at h
    split at h
    · rename_i hplace
      obtain rfl := Option.some.inj h
      simp only [wants, hplace]
      rfl
    · cases h
  | caller c =>
    have hplace : s.place (.caller c) = .lockCounter true := Option.some.inj h
    simp only [wants, hplace]
    rfl
  | _ => cases h

theorem Sound.holderStuck_iff (h : s.Sound) (hsend : s.holder .mustarriveMutex ≠ some .sendTask) :
    s.HolderStuck ↔ ∃ u, s.callAt u = some (.lockCounter true) := by
  constructor
  · rintro ⟨u, hu, hwants⟩
    have hmem := (h.held _ _).1 hu
    refine ⟨u, ?_⟩
    cases u with
    | sendTask => exact absurd hu hsend
    | recvTask =>
      obtain ⟨⟨ws, hplace⟩, -⟩ := recvCode_locks_of_held hmem hwants
      rw [callAt, hplace]
    | stop => exact absurd hwants (stopCode_locks_of_held hmem)
    | caller c =>
      obtain ⟨hplace, -⟩ := callCode_locks_of_held hmem hwants
      rw [callAt, hplace]
  · rintro ⟨u, hu⟩
    refine ⟨u, (h.held _ _).2 ?_, wants_of_callAt hu⟩
    change _ ∈ heldAt u (s.place u)
    rw [held_of_callAt hu]
    exact List.mem_singleton_self _

/-- `send_task` does not hold `m_mustarrive_mutex` where it goes for it. -/
theorem Sound.holder_ne_sendTask (h : s.Sound)
    (hsend : s.place .sendTask = SendPlace.timer ∨ s.place .sendTask = SendPlace.lockResend) :
    s.holder .mustarriveMutex ≠ some .sendTask := by
  intro hholder
  have hmem := (h.held _ _).1 hholder
  rcases hsend with hsend | hsend
  · rw [hsend] at hmem
    cases hmem
  · rw [hsend] at hmem
    cases hmem

theorem Sound.stuck_iff (h : s.Sound) : s.Stuck ↔ s.wants .sendTask = some .mutex ∨
    s.place .sendTask = SendPlace.lockResend ∧ ∃ u, s.callAt u = some (.lockCounter true) := by
  rw [Stuck, wants_sendTask_mustarrive]
  refine or_congr_right (and_congr_right fun hsend => ?_)
  exact h.holderStuck_iff (h.holder_ne_sendTask (.inr hsend))

/-! ### A step of a call -/

theorem callCode_lockCounter_iff {recv : Bool} {p : CallPlace} {c : Choice}
    (hheld : (s.holder .mutex).isSome) :
    s.placeAfter p (callCode recv p c) = .lockCounter true ↔
      p = .addEntry ∨ p = .lockCounter true := by
  cases p with
  | outside =>
    cases c with
    | call c => cases c <;> cases recv <;> simp [callCode, placeAfter, Call.entry, Call.isPublic]
    | _ => simp [callCode, placeAfter]
  | readAddr m => cases m <;> cases c <;> simp [callCode, placeAfter]
  | enqueue m => cases m <;> simp [callCode, placeAfter]
  | lockEntry | lockSection m =>
    simp only [callCode, placeAfter]
    split_ifs <;> simp
  | _ => simp [callCode, placeAfter, hheld]

theorem callCode_full_iff {recv : Bool} {p : CallPlace} {c : Choice}
    (hroom : s.sendQueue.length ≤ sendQueueLength) :
    (s.queueAfter (callCode recv p c)).length = sendQueueLength ↔
      s.Full ∨ (∃ m, p = .enqueue m) ∧ s.sendQueue.length + 1 = sendQueueLength := by
  cases p with
  | enqueue m =>
    rw [callCode, queueAfter, Full]
    split_ifs with hlt
    · simp
      omega
    · simp
      omega
  | outside => cases c <;> simp [callCode, queueAfter, Full]
  | readAddr m => cases c <;> simp [callCode, queueAfter, Full]
  | _ => simp [callCode, queueAfter, Full]

/-- In `handle_msg` it returns, or is in the code of the call. -/
theorem recvCode_handleMsg (ws : Bool) (p : CallPlace) (c : Choice) :
    (p = .outside ∧ recvCode (.handleMsg ws p) c =
        .goto (if ws then .notifyWait else .lockRecv true)) ∨
      recvCode (.handleMsg ws p) c = (callCode true p c).map (.handleMsg ws) := by
  cases p with
  | outside =>
    cases c with
    | no => exact .inl ⟨rfl, rfl⟩
    | _ => exact .inr rfl
  | _ => exact .inr rfl

/-- The tasks that are neither `send_task` nor in `stop()`. -/
def Calls : Task C → Prop
  | .recvTask | .caller _ => True
  | _ => False

variable [DecidableEq C]

theorem callAt_step_of_ne {t u : Task C} {c : Choice} (hne : u ≠ t) :
    (step s (t, c)).1.callAt u = s.callAt u := by
  have hplace : (step s (t, c)).1.place u = s.place u := place_perform_of_ne hne _
  cases u with
  | recvTask => rw [callAt, callAt, hplace]
  | caller c => rw [callAt, callAt, hplace]
  | _ => rfl

theorem callAt_step_iff {t : Task C} {c : Choice} (hheld : (s.holder .mutex).isSome) :
    (step s (t, c)).1.callAt t = some (.lockCounter true) ↔
      s.callAt t = some .addEntry ∨ s.callAt t = some (.lockCounter true) := by
  have hplace : (step s (t, c)).1.place t = s.placeAfter (s.place t) (code t (s.place t) c) :=
    place_perform_self _
  cases t with
  | caller c' =>
    rw [callAt, callAt, hplace]
    simp only [Option.some.injEq]
    exact callCode_lockCounter_iff hheld
  | recvTask =>
    rw [callAt, callAt, hplace]
    cases s.place .recvTask with
    | handleMsg ws p =>
      rcases recvCode_handleMsg ws p c with ⟨rfl, hcode⟩ | hcode
      · cases ws <;> simp [code, hcode, placeAfter]
      · simp only [code, hcode, placeAfter_map, Option.some.injEq]
        exact callCode_lockCounter_iff hheld
    | recvIter ws => cases ws <;> cases c <;> simp [code, recvCode, placeAfter]
    | notifyWait =>
      simp only [code, recvCode, placeAfter]
      split_ifs <;> simp
    | lockRecv ws => simp [code, recvCode, placeAfter, hheld]
    | exited => simp [code, recvCode, placeAfter]
  | _ => simp [callAt]

theorem full_step_iff {t : Task C} {c : Choice} (hroom : s.sendQueue.length ≤ sendQueueLength)
    (ht : Calls t) : (step s (t, c)).1.Full ↔
      s.Full ∨ (∃ m, s.callAt t = some (.enqueue m)) ∧
        s.sendQueue.length + 1 = sendQueueLength := by
  have hqueue : (step s (t, c)).1.sendQueue = s.queueAfter (code t (s.place t) c) :=
    sendQueue_perform _
  rw [Full, hqueue]
  cases t with
  | caller c' =>
    simp only [callAt, Option.some.injEq]
    exact callCode_full_iff hroom
  | recvTask =>
    rw [callAt]
    cases s.place .recvTask with
    | handleMsg ws p =>
      rcases recvCode_handleMsg ws p c with ⟨rfl, hcode⟩ | hcode
      · cases ws <;> simp [code, hcode, queueAfter, Full]
      · simp only [code, hcode, queueAfter_map, Option.some.injEq]
        exact callCode_full_iff hroom
    | recvIter ws => cases ws <;> cases c <;> simp [code, recvCode, queueAfter, Full]
    | _ => simp [code, recvCode, queueAfter, Full]
  | _ => exact ht.elim

/-- The calls that are about to lock the counter with the entry added. -/
theorem exists_lockCounter_step_iff {t : Task C} {c : Choice} (hheld : (s.holder .mutex).isSome) :
    (∃ u, (step s (t, c)).1.callAt u = some (.lockCounter true)) ↔
      s.callAt t = some .addEntry ∨ ∃ u, s.callAt u = some (.lockCounter true) := by
  constructor
  · rintro ⟨u, hu⟩
    by_cases hne : u = t
    · subst hne
      rcases (callAt_step_iff hheld).1 hu with hu | hu
      · exact .inl hu
      · exact .inr ⟨u, hu⟩
    · rw [callAt_step_of_ne hne] at hu
      exact .inr ⟨u, hu⟩
  · rintro (hadd | ⟨u, hu⟩)
    · exact ⟨t, (callAt_step_iff hheld).2 (.inl hadd)⟩
    · refine ⟨u, ?_⟩
      by_cases hne : u = t
      · subst hne
        exact (callAt_step_iff hheld).2 (.inr hu)
      · rw [callAt_step_of_ne hne]
        exact hu

theorem jammed_step_call_iff (h : s.Sound) {t : Task C} {c : Choice} (ht : Calls t)
    (hn : ¬ s.Jammed) : (step s (t, c)).1.Jammed ↔ s.Jams (t, c) := by
  have hsend : (step s (t, c)).1.place .sendTask = s.place .sendTask :=
    place_perform_of_ne (by rintro rfl; exact ht) _
  have hstop : (step s (t, c)).1.place .stop = s.place .stop :=
    place_perform_of_ne (by rintro rfl; exact ht) _
  have hjams : s.Jams (t, c) ↔ s.Inserting ∧
      ((∃ m, s.callAt t = some (.enqueue m)) ∧ s.sendQueue.length + 1 = sendQueueLength ∧ s.Stuck ∨
        s.callAt t = some .addEntry ∧ s.Full ∧ s.place .sendTask = SendPlace.lockResend) := by
    cases t with
    | recvTask => exact Iff.rfl
    | caller c' => exact Iff.rfl
    | _ => exact ht.elim
  have hins : (step s (t, c)).1.Inserting ↔ s.Inserting := by rw [Inserting, Inserting, hstop]
  rw [hjams, Jammed, hins]
  refine and_congr_right fun hins' => ?_
  have hheld : (s.holder .mutex).isSome := by rw [h.holder_of_inserting hins']; rfl
  have hwants : (step s (t, c)).1.wants .sendTask = s.wants .sendTask := by
    rw [wants, wants, hsend]
  have hexcl : ¬ ((∃ m, s.callAt t = some (.enqueue m)) ∧ s.callAt t = some .addEntry) := by
    rintro ⟨⟨m, henqueue⟩, hadd⟩
    cases henqueue.symm.trans hadd
  rw [Jammed] at hn
  rw [full_step_iff h.room ht, (h.step (t, c)).stuck_iff, hwants, hsend,
    exists_lockCounter_step_iff hheld]
  rw [h.stuck_iff] at hn ⊢
  constructor
  · rintro ⟨hfull | hfills, hwants | ⟨hlock, hadd | hcounter⟩⟩
    · exact absurd ⟨hins', hfull, .inl hwants⟩ hn
    · exact .inr ⟨hadd, hfull, hlock⟩
    · exact absurd ⟨hins', hfull, .inr ⟨hlock, hcounter⟩⟩ hn
    · exact .inl ⟨hfills.1, hfills.2, .inl hwants⟩
    · exact absurd ⟨hfills.1, hadd⟩ hexcl
    · exact .inl ⟨hfills.1, hfills.2, .inr ⟨hlock, hcounter⟩⟩
  · rintro (⟨henqueue, hlength, hstuck⟩ | ⟨hadd, hfull, hlock⟩)
    · exact ⟨.inr ⟨henqueue, hlength⟩, hstuck.imp_right (And.imp_right .inr)⟩
    · exact ⟨.inl hfull, .inr ⟨hlock, .inl hadd⟩⟩

/-! ### A step of `send_task` and of `stop()` -/

theorem locks_receive {i : ℕ} {c : Choice} : (sendCode (.receive i) c).locks? = none := by
  rw [sendCode]
  split_ifs <;> rfl

theorem jammed_step_send_iff (h : s.Sound) {c : Choice} (hn : ¬ s.Jammed) :
    (step s (.sendTask, c)).1.Jammed ↔ s.Jams (.sendTask, c) := by
  have hstop : (step s (.sendTask, c)).1.place .stop = s.place .stop :=
    place_perform_of_ne (by nofun) _
  have hsend : (step s (.sendTask, c)).1.place .sendTask =
      s.placeAfter (s.place .sendTask) (sendCode (s.place .sendTask) c) := place_perform_self _
  have hqueue : (step s (.sendTask, c)).1.sendQueue =
      s.queueAfter (sendCode (s.place .sendTask) c) := sendQueue_perform _
  have hins : (step s (.sendTask, c)).1.Inserting ↔ s.Inserting := by
    rw [Inserting, Inserting, hstop]
  have hcall : ∀ u, (step s (.sendTask, c)).1.callAt u = s.callAt u := by
    intro u
    by_cases hu : u = .sendTask
    · subst hu
      rfl
    · exact callAt_step_of_ne hu
  rw [Jammed, hins, Jams]
  refine and_congr_right fun hins' => ?_
  have hheld : (s.holder .mutex).isSome := by rw [h.holder_of_inserting hins']; rfl
  have hn' : ¬ (s.Full ∧ s.Stuck) := fun hfull => hn ⟨hins', hfull⟩
  rw [h.stuck_iff] at hn'
  rw [Full, hqueue, (h.step (.sendTask, c)).stuck_iff]
  simp only [hcall, wants, code, hsend]
  simp only [wants, code, Full] at hn'
  cases hplace : s.place .sendTask with
  | receive i =>
    rw [sendCode]
    split_ifs
    · have htail : s.sendQueue.length - 1 ≠ sendQueueLength := by
        have hroom := h.room
        rw [sendQueueLength] at hroom ⊢
        omega
      simp [queueAfter, htail]
    · simp [placeAfter, sendCode, Instr.locks?]
  | lockTransmit i | lockAddr | lockEntry =>
    rw [hplace] at hn'
    simpa [placeAfter, hheld, queueAfter, sendCode, Instr.locks?] using hn'
  | lockResend =>
    rw [hplace] at hn'
    simp only [sendCode, placeAfter, queueAfter]
    split_ifs
    · simpa [sendCode, Instr.locks?] using hn'
    · simp [Instr.locks?]
  | timer =>
    rw [h.holderStuck_iff (h.holder_ne_sendTask (.inl hplace))]
    cases c <;> simp [sendCode, placeAfter, queueAfter, Instr.locks?, Full, itemsPerRound]
  | transmit i =>
    have hafter : s.placeAfter (.transmit i) (sendCode (.transmit i) c) = .receive (i + 1) := rfl
    rw [hafter, locks_receive]
    simp
  | _ => cases c <;> simp [sendCode, placeAfter, queueAfter, Instr.locks?, Full, itemsPerRound]

theorem jammed_step_stop_iff (h : s.Sound) {c : Choice} (hn : ¬ s.Jammed) :
    (step s (.stop, c)).1.Jammed ↔ s.Jams (.stop, c) := by
  have hsend : (step s (.stop, c)).1.place .sendTask = s.place .sendTask :=
    place_perform_of_ne (by nofun) _
  have hstop : (step s (.stop, c)).1.place .stop =
      s.placeAfter (s.place .stop) (stopCode (s.place .stop) c) := place_perform_self _
  have hqueue : (step s (.stop, c)).1.sendQueue =
      s.queueAfter (stopCode (s.place .stop) c) := sendQueue_perform _
  have hcall : ∀ u, (step s (.stop, c)).1.callAt u = s.callAt u := by
    intro u
    by_cases hu : u = .stop
    · subst hu
      rfl
    · exact callAt_step_of_ne hu
  have hstuck : (step s (.stop, c)).1.Stuck ↔ s.Stuck := by
    rw [(h.step (.stop, c)).stuck_iff, h.stuck_iff]
    simp only [hcall, wants, hsend]
  rw [Jammed, hstuck, Jams, Inserting, Full, hstop, hqueue]
  rw [Jammed, Inserting] at hn
  cases hplace : s.place .stop with
  | insertFront =>
    rw [hplace] at hn
    have hroom := h.room
    simp only [stopCode, placeAfter, queueAfter]
    split_ifs with hlt
    · simp
    · simpa [Full] using hn
  | test stopped => cases stopped <;> simp [stopCode, placeAfter, queueAfter, Full]
  | lockStop stopped =>
    simp only [stopCode, placeAfter]
    split_ifs <;> simp
  | outside stopped => cases c <;> simp [stopCode, placeAfter]
  | _ => simp [stopCode, placeAfter]

/-- **The deadlock is reached by a step that jams, and by no other.** -/
theorem Sound.jammed_step_iff (h : s.Sound) (hn : ¬ s.Jammed) (a : Task C × Choice) :
    (Tasks.step s a).1.Jammed ↔ s.Jams a := by
  obtain ⟨t, c⟩ := a
  cases t with
  | sendTask => exact jammed_step_send_iff h hn
  | recvTask => exact jammed_step_call_iff (t := .recvTask) h trivial hn
  | stop => exact jammed_step_stop_iff h hn
  | caller c' => exact jammed_step_call_iff (t := .caller c') h trivial hn

/-! ## A deadlock is for ever -/

theorem callCode_eq_of_locks {recv : Bool} {p : CallPlace} {m : Mutex} (c : Choice)
    (h : (callCode recv p .no).locks? = some m) : callCode recv p c = callCode recv p .no := by
  cases p with
  | outside | readAddr => cases h
  | _ => rfl

theorem recvCode_eq_of_locks {p : RecvPlace} {m : Mutex} (c : Choice)
    (h : (recvCode p .no).locks? = some m) : recvCode p c = recvCode p .no := by
  cases p with
  | handleMsg ws p =>
    cases p with
    | outside | readAddr => cases h
    | _ => rfl
  | recvIter ws => cases ws <;> cases h
  | _ => rfl

theorem sendCode_eq_of_locks {p : SendPlace} {m : Mutex} (c : Choice)
    (h : (sendCode p .no).locks? = some m) : sendCode p c = sendCode p .no := by
  cases p with
  | timer | resend | nextEntry => cases h
  | _ => rfl

theorem stopCode_eq_of_locks {p : StopPlace} {m : Mutex} (c : Choice)
    (h : (stopCode p .no).locks? = some m) : stopCode p c = stopCode p .no := by
  cases p with
  | outside => cases h
  | test stopped => cases stopped <;> rfl
  | _ => rfl

omit [DecidableEq C] in
/-- A task has no choice where it locks a mutex. -/
theorem code_eq_of_wants {t : Task C} {m : Mutex} (c : Choice) (h : s.wants t = some m) :
    code t (s.place t) c = code t (s.place t) .no := by
  cases t with
  | sendTask => exact sendCode_eq_of_locks c h
  | recvTask => exact recvCode_eq_of_locks c h
  | stop => exact stopCode_eq_of_locks c h
  | caller _ => exact callCode_eq_of_locks c h

/-- A task that waits stays where it is. -/
theorem step_of_waits {t : Task C} {r : Resource} (h : s.waiting.waits t = some r) (c : Choice) :
    (step s (t, c)).1 = s := by
  cases r with
  | mutex m =>
    obtain ⟨hwants, hheld⟩ := waits_mutex_iff.1 h
    change s.perform t (code t (s.place t) c) = s
    rw [code_eq_of_wants c hwants]
    rw [wants] at hwants
    cases hcode : code t (s.place t) .no with
    | lock m' p =>
      rw [hcode] at hwants
      obtain rfl := Option.some.inj hwants
      rw [perform, if_pos hheld]
    | _ =>
      rw [hcode] at hwants
      cases hwants
  | room =>
    obtain ⟨rfl, hins, hfull⟩ := waits_room_iff.1 h
    change s.perform .stop (stopCode (s.place .stop) c) = s
    rw [hins, stopCode, perform, if_neg hfull]

theorem callCode_ne_receive {recv : Bool} {p p₁ p₂ p₃ : CallPlace} {c : Choice} :
    callCode recv p c ≠ .xQueueReceive p₁ p₂ p₃ := by
  cases p <;> cases c <;> simp [callCode]

theorem recvCode_ne_receive {p p₁ p₂ p₃ : RecvPlace} {c : Choice} :
    recvCode p c ≠ .xQueueReceive p₁ p₂ p₃ := by
  intro h
  cases p with
  | handleMsg ws p => cases p <;> cases c <;> simp [recvCode, callCode, Instr.map] at h
  | recvIter ws => cases ws <;> cases c <;> simp [recvCode] at h
  | _ => simp [recvCode] at h

theorem stopCode_ne_receive {p p₁ p₂ p₃ : StopPlace} {c : Choice} :
    stopCode p c ≠ .xQueueReceive p₁ p₂ p₃ := by
  intro h
  cases p with
  | outside stopped => cases c <;> simp [stopCode] at h
  | test stopped => cases stopped <;> simp [stopCode] at h
  | _ => simp [stopCode] at h

omit [DecidableEq C] in
/-- Only `send_task` receives. -/
theorem code_ne_receive {t : Task C} (ht : t ≠ .sendTask) {p p₁ p₂ p₃ : Place t} {c : Choice} :
    code t p c ≠ .xQueueReceive p₁ p₂ p₃ := by
  cases t with
  | sendTask => exact absurd rfl ht
  | recvTask => exact recvCode_ne_receive
  | stop => exact stopCode_ne_receive
  | caller _ => exact callCode_ne_receive

omit [DecidableEq C] in
theorem Full.queueAfter {P : Type*} {op : Instr P} (hfull : s.Full)
    (hop : ∀ p₁ p₂ p₃, op ≠ .xQueueReceive p₁ p₂ p₃) : s.queueAfter op = s.sendQueue := by
  have hroom : ¬ s.sendQueue.length < sendQueueLength := not_lt.2 hfull.ge
  cases op with
  | xQueueSend p => rw [Tasks.queueAfter, if_neg hroom]
  | xQueueSendToFront p => rw [Tasks.queueAfter, if_neg hroom]
  | xQueueReceive p₁ p₂ p₃ => exact absurd rfl (hop p₁ p₂ p₃)
  | _ => rfl

/-- **Tasks that are blocked on each other stay so, each at its place, whatever the others do.** -/
theorem Sound.closed_step (h : s.Sound) {B : Set (Task C)} (hB : s.waiting.Closed B)
    (a : Task C × Choice) : (Tasks.step s a).1.waiting.Closed B ∧
      ∀ t ∈ B, (Tasks.step s a).1.place t = s.place t := by
  obtain ⟨t, c⟩ := a
  by_cases ht : t ∈ B
  · obtain ⟨r, hr, -⟩ := hB t ht
    rw [step_of_waits hr]
    exact ⟨hB, fun _ _ => rfl⟩
  have hplace : ∀ u ∈ B, (Tasks.step s (t, c)).1.place u = s.place u := fun u hu =>
    place_perform_of_ne (by rintro rfl; exact ht hu) _
  -- the mutexes that tasks of the set wait for keep their holders
  have hholder : ∀ u ∈ B, ∀ m, s.waiting.waits u = some (.mutex m) →
      (Tasks.step s (t, c)).1.holder m = s.holder m := by
    intro u hu m hwaits
    obtain ⟨v, hv⟩ := h.exists_provides hwaits
    obtain ⟨r, hr, hclosed⟩ := hB u hu
    obtain rfl : r = _ := Option.some.inj (hr.symm.trans hwaits)
    have hheld : m ∈ heldAt v ((Tasks.step s (t, c)).1.place v) := by
      rw [hplace v (hclosed v hv)]
      exact (h.held m v).1 hv
    rw [((h.step (t, c)).held m v).2 hheld]
    exact hv.symm
  have hfull : ∀ u ∈ B, s.waiting.waits u = some .room → .sendTask ∈ B ∧
      (Tasks.step s (t, c)).1.sendQueue = s.sendQueue := by
    intro u hu hwaits
    obtain ⟨v, hv⟩ := h.exists_provides hwaits
    obtain ⟨r, hr, hclosed⟩ := hB u hu
    obtain rfl : r = _ := Option.some.inj (hr.symm.trans hwaits)
    have hsend : .sendTask ∈ B := hv.1 ▸ hclosed v hv
    refine ⟨hsend, (sendQueue_perform _).trans (Full.queueAfter ?_ fun _ _ _ => code_ne_receive ?_)⟩
    · exact le_antisymm h.room (not_lt.1 (waits_room_iff.1 hwaits).2.2)
    · rintro rfl
      exact ht hsend
  refine ⟨hB.of_waits_eq (fun u hu => ?_) fun u hu r hr v hv => ?_, hplace⟩
  · obtain ⟨r, hr, -⟩ := hB u hu
    rw [hr]
    cases r with
    | mutex m =>
      obtain ⟨hwants, hheld⟩ := waits_mutex_iff.1 hr
      refine waits_mutex_iff.2 ⟨?_, ?_⟩
      · rw [wants, hplace u hu]
        exact hwants
      · rw [hholder u hu m hr]
        exact hheld
    | room =>
      obtain ⟨rfl, hins, hroom⟩ := waits_room_iff.1 hr
      refine waits_room_iff.2 ⟨rfl, (hplace _ hu).trans hins, ?_⟩
      rw [(hfull _ hu hr).2]
      exact hroom
  · cases r with
    | mutex m => exact (hholder u hu m hr).symm.trans hv
    | room =>
      refine ⟨hv.1, ?_⟩
      rw [← hplace _ (hfull u hu hr).1]
      exact hv.2

/-- Blocked tasks stay blocked along every run. -/
theorem Sound.closed_final (h : s.Sound) {B : Set (Task C)} (hB : s.waiting.Closed B)
    (as : List (Task C × Choice)) : (Machine.final Tasks.step s as).waiting.Closed B ∧
      ∀ t ∈ B, (Machine.final Tasks.step s as).place t = s.place t := by
  induction as generalizing s with
  | nil => exact ⟨hB, fun _ _ => rfl⟩
  | cons a as ih =>
    obtain ⟨hclosed, hplace⟩ := h.closed_step hB a
    obtain ⟨hclosed', hplace'⟩ := ih (h.step a) hclosed
    exact ⟨hclosed', fun t ht => (hplace' t ht).trans (hplace t ht)⟩

/-! ## Runs -/

/-- No tasks are blocked on each other; above all `stop()` does not wait for room in the queue with
`m_mutex` held while `send_task` waits for `m_mutex`. -/
def DeadlockFree (s : Tasks C) : Prop :=
  ¬ s.waiting.Deadlocked ∧
    ¬ (s.waiting.waits .stop = some .room ∧ s.holder .mutex = some .stop ∧
      s.waiting.waits .sendTask = some (.mutex .mutex))

omit [DecidableEq C] in
theorem Sound.deadlockFree (h : s.Sound) : s.DeadlockFree ↔ ¬ s.Jammed := by
  rw [DeadlockFree, h.deadlocked_iff]
  refine and_iff_left_of_imp fun hn hblocked => hn ?_
  obtain ⟨hroom, -, hwaits⟩ := hblocked
  obtain ⟨-, hins, hfull⟩ := waits_room_iff.1 hroom
  exact ⟨hins, le_antisymm h.room (not_lt.1 hfull), .inl (waits_mutex_iff.1 hwaits).1⟩

omit [DecidableEq C] in
theorem not_jammed_initial : ¬ (initial : Tasks C).Jammed := by
  rintro ⟨hins, -⟩
  cases hins

/-- The runs without the deadlock. -/
theorem not_jammed_iff (h : s.Sound) (hn : ¬ s.Jammed) (as : List (Task C × Choice)) :
    (∀ bs, bs <+: as → ¬ (Machine.final step s bs).Jammed) ↔
      Machine.EveryStep step (fun s a => ¬ s.Jams a) s as := by
  induction as generalizing s with
  | nil => simp [Machine.EveryStep, hn]
  | cons a as ih =>
    rw [Machine.EveryStep.cons_iff, ← h.jammed_step_iff hn]
    constructor
    · intro hall
      have hstep : ¬ (step s a).1.Jammed := hall [a] ⟨as, rfl⟩
      refine ⟨hstep, (ih (h.step a) hstep).1 fun bs hbs => ?_⟩
      exact hall (a :: bs) (List.cons_prefix_cons.2 ⟨rfl, hbs⟩)
    · rintro ⟨hstep, hrest⟩ bs hbs
      cases bs with
      | nil => exact hn
      | cons b bs =>
        obtain ⟨rfl, hbs'⟩ := List.cons_prefix_cons.1 hbs
        exact (ih (h.step b) hstep).2 hrest bs hbs'

/-- **The tasks are free of deadlock in a run exactly as long as no step jams.** -/
theorem deadlockFree_run_iff (as : List (Task C × Choice)) :
    (∀ bs, bs <+: as → (Machine.final step initial bs).DeadlockFree) ↔
      Machine.EveryStep step (fun s a => ¬ s.Jams a) initial as := by
  rw [← not_jammed_iff sound_initial not_jammed_initial]
  exact forall₂_congr fun bs _ => (sound_final sound_initial bs).deadlockFree

/-- A whole call of `send`. -/
def sendSteps : List (Task Unit × Choice) :=
  [.call .send, .no, .yes, .no, .no, .no].map (Prod.mk (.caller ()))

/-- The queue is filled, `send_task` takes one packet, another fills the queue again, and `stop()`
gets `m_mutex` before `send_task` does. -/
theorem not_deadlockFree_full : ¬ ∀ as : List (Task Unit × Choice),
    (Machine.final step initial as).DeadlockFree := by
  intro h
  have hjammed : (Machine.final step (initial : Tasks Unit)
      ((List.replicate 32 sendSteps).flatten ++ (.sendTask, .no) :: sendSteps ++
        [(.stop, .yes), (.stop, .no), (.stop, .no)])).Jammed :=
    show _ ∧ _ ∧ _ by decide +kernel
  exact (sound_final sound_initial _).deadlockFree.1 (h _) hjammed

end RbProtocol.Protocol.Tasks
