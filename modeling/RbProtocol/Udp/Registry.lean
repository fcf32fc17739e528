import RbProtocol.Library.Runs
import RbProtocol.Protocol.State

/-!
# The callbacks and sockets of `Udp`

`Udp` keeps one open socket for each port that some callback is registered for. `onReceive` opens
the socket with the first callback of a port, `removeCallback` closes it with the last one. It
erases the entry of the port first, and then reads the descriptor from the entry that it has erased.

In a run that removes no last callback, the two maps stay in step (`registryKept_run`).
-/

namespace RbProtocol

open Library Machine Protocol

/-- `Udp::CallbackInfo`; functions are numbered. -/
structure Udp.CallbackInfo where
  callback : ℕ
  port : UInt16
  deriving DecidableEq

/-- The members of `Udp` that its mutex guards. -/
structure Udp where
  openSockets : AList fun _ : UInt16 => ℤ
  callbacks : AList fun _ : ℤ => Udp.CallbackInfo
  callbackIdCounter : ℤ
  readTask : Bool

namespace Udp

/-- A call, with what the environment answers: the result of `openSocket`, and what the memory of
an erased entry holds. -/
inductive Call
  | onReceive (port : UInt16) (callback : ℕ) (fd : ℤ)
  | removeCallback (handle stale : ℤ)

/-- What a call does outside of the maps. -/
inductive Event
  /-- `onReceive` returns a handle. -/
  | registered (handle : ℤ)
  /-- `onReceive` returns −1. -/
  | failed
  /-- The descriptor of an entry is read that has been erased. -/
  | readErased (port : UInt16)
  | close (fd : ℤ)
  deriving DecidableEq

/-- The handle that a call returns. -/
@[simp] def Event.handle? : Event → Option ℤ
  | .registered handle => some handle
  | _ => none

/-- The constructor. -/
def new : Udp := ⟨∅, ∅, 0, false⟩

/-- The test of the loop of `removeCallback`. -/
def HasCallback (callbacks : AList fun _ : ℤ => CallbackInfo) (port : UInt16) : Prop :=
  ∃ c ∈ callbacks.entries, c.2.port = port

instance (callbacks : AList fun _ : ℤ => CallbackInfo) (port : UInt16) :
    Decidable (HasCallback callbacks port) := inferInstanceAs (Decidable (∃ c ∈ _, _))

/-- The sockets with one for the port, unless it has to be opened and `openSocket` fails. -/
def socketFor (s : Udp) (port : UInt16) (fd : ℤ) : Option (AList fun _ : UInt16 => ℤ) :=
  if port ∈ s.openSockets then some s.openSockets
  else if fd = -1 then none
  else some (s.openSockets.insert port fd)

/-- `Udp::onReceive`. The counter is an `int`, taken to wrap at its end. -/
def onReceive (s : Udp) (port : UInt16) (callback : ℕ) (fd : ℤ) : Udp × List Event :=
  match s.socketFor port fd with
  | none => (s, [.failed])
  | some openSockets =>
    let handle := int32 (s.callbackIdCounter + 1)
    (⟨openSockets, s.callbacks.insert handle ⟨callback, port⟩, handle, true⟩, [.registered handle])

/-- `Udp::removeCallback`. -/
def removeCallback (s : Udp) (handle stale : ℤ) : Udp × List Event :=
  match s.callbacks.lookup handle with
  | none => (s, [])
  | some info =>
    let callbacks := s.callbacks.erase handle
    if HasCallback callbacks info.port then ({ s with callbacks }, [])
    else
      match s.openSockets.lookup info.port with
      | none => ({ s with callbacks }, [])
      | some _ =>
        ({ s with callbacks, openSockets := s.openSockets.erase info.port },
          [.readErased info.port, .close stale])

/-- The calls of the API, one at a time under the mutex. -/
def machine : Machine Udp Call Event
  | s, .onReceive port callback fd => s.onReceive port callback fd
  | s, .removeCallback handle stale => s.removeCallback handle stale

/-! ## What is to be kept -/

/-- A port has an open socket if some callback is registered for it, and only then. -/
def InStep (s : Udp) : Prop := ∀ port, port ∈ s.openSockets ↔ HasCallback s.callbacks port

/-- The callback of the handle is the last one of its port. -/
def IsLast (s : Udp) (handle : ℤ) (info : CallbackInfo) : Prop :=
  s.callbacks.lookup handle = some info ∧ ¬HasCallback (s.callbacks.erase handle) info.port

/-- The call removes the last callback of a port. -/
def RemovesLast (s : Udp) : Call → Prop
  | .removeCallback handle _ => ∃ info ∈ s.callbacks.lookup handle,
      ¬HasCallback (s.callbacks.erase handle) info.port
  | .onReceive .. => False

/-- The call registers a callback when the counter has come to its end. -/
def Overflows (s : Udp) : Call → Prop
  | .onReceive port _ fd => (s.socketFor port fd).isSome ∧ 2 ^ 31 - 1 ≤ s.callbackIdCounter
  | .removeCallback .. => False

instance (s : Udp) : DecidablePred s.RemovesLast
  | .removeCallback .. => inferInstanceAs (Decidable (∃ info ∈ _, _))
  | .onReceive .. => inferInstanceAs (Decidable False)

instance (s : Udp) : DecidablePred s.Overflows
  | .onReceive .. => inferInstanceAs (Decidable (_ ∧ _))
  | .removeCallback .. => inferInstanceAs (Decidable False)

/-- What one call has to do: a failing `onReceive` leaves everything as it is, and the removal of a
last callback closes the stored descriptor, once, and reads no erased entry; nothing else is
closed. -/
def StepKept (s : Udp) (call : Call) : Prop :=
  (∀ port callback, call = .onReceive port callback (-1) → port ∉ s.openSockets →
      machine s call = (s, [.failed])) ∧
    (∀ handle stale info fd, call = .removeCallback handle stale → s.IsLast handle info →
      s.openSockets.lookup info.port = some fd → (machine s call).2 = [.close fd]) ∧
    ∀ fd, .close fd ∈ (machine s call).2 → s.RemovesLast call

/-- The handles that have been returned. -/
def handles (t : List (Udp × Call)) : List ℤ :=
  (outputs machine t).filterMap Event.handle?

/-- The maps are in step in every state of the run, each call does what it has to do, and the
handles are distinct. -/
def RegistryKept (calls : List Call) : Prop :=
  (∀ as bs, calls = as ++ bs → (final machine new as).InStep) ∧
    EveryStep machine StepKept new calls ∧ (handles (trace machine new calls)).Nodup

variable {s : Udp}

/-! ## The maps -/

section Maps

variable {callbacks : AList fun _ : ℤ => CallbackInfo} {handle : ℤ} {info : CallbackInfo}
  {port : UInt16}

theorem hasCallback_iff :
    HasCallback callbacks port ↔ ∃ handle info, callbacks.lookup handle = some info ∧
      info.port = port := by
  constructor
  · rintro ⟨⟨handle, info⟩, hmem, hport⟩
    exact ⟨handle, info, AList.mem_lookup_iff.2 hmem, hport⟩
  · rintro ⟨handle, info, hlookup, hport⟩
    exact ⟨⟨handle, info⟩, AList.mem_lookup_iff.1 hlookup, hport⟩

/-- A callback with a new handle adds its port. -/
theorem hasCallback_insert (hnew : handle ∉ callbacks) :
    HasCallback (callbacks.insert handle info) port ↔
      info.port = port ∨ HasCallback callbacks port := by
  rw [AList.insert_of_notMem hnew]
  exact List.exists_mem_cons_iff ..

/-- The ports of the callbacks before one is erased. -/
theorem hasCallback_erase (hlookup : callbacks.lookup handle = some info) :
    HasCallback callbacks port ↔
      info.port = port ∨ HasCallback (callbacks.erase handle) port := by
  simp only [hasCallback_iff]
  constructor
  · rintro ⟨handle', info', hlookup', hport⟩
    by_cases hh : handle' = handle
    · subst hh
      rw [hlookup] at hlookup'
      cases hlookup'
      exact .inl hport
    · exact .inr ⟨handle', info', by rw [AList.lookup_erase_ne hh, hlookup'], hport⟩
  · rintro (hport | ⟨handle', info', hlookup', hport⟩)
    · exact ⟨handle, info, hlookup, hport⟩
    · have hh : handle' ≠ handle := by
        rintro rfl
        rw [AList.lookup_erase] at hlookup'
        cases hlookup'
      exact ⟨handle', info', by rwa [AList.lookup_erase_ne hh] at hlookup', hport⟩

end Maps

/-! ## The steps -/

/-- The sockets that `onReceive` continues with. -/
theorem socketFor_cases {port : UInt16} {fd : ℤ} {openSockets : AList fun _ : UInt16 => ℤ}
    (h : s.socketFor port fd = some openSockets) (port' : UInt16) :
    port' ∈ openSockets ↔ port' = port ∨ port' ∈ s.openSockets := by
  rw [socketFor] at h
  split_ifs at h with hmem hfd
  · cases h
    exact ⟨.inr, fun h => h.elim (fun h => h ▸ hmem) id⟩
  · cases h
    exact AList.mem_insert _

/-- What a call does that removes no last callback: `onReceive` fails or registers a callback under
the next handle, and `removeCallback` finds no callback or erases one of several of a port. -/
inductive Step (s : Udp) : Call → Udp × List Event → Prop
  | fails {port callback fd} (h : s.socketFor port fd = none) :
      Step s (.onReceive port callback fd) (s, [.failed])
  | registers {port callback fd openSockets handle}
      (h : s.socketFor port fd = some openSockets)
      (hhandle : handle = int32 (s.callbackIdCounter + 1)) :
      Step s (.onReceive port callback fd)
        (⟨openSockets, s.callbacks.insert handle ⟨callback, port⟩, handle, true⟩,
          [.registered handle])
  | unknown {handle stale} (h : s.callbacks.lookup handle = none) :
      Step s (.removeCallback handle stale) (s, [])
  | oneOfMany {handle stale info} (h : s.callbacks.lookup handle = some info)
      (hmany : HasCallback (s.callbacks.erase handle) info.port) :
      Step s (.removeCallback handle stale) ({ s with callbacks := s.callbacks.erase handle }, [])

theorem step_machine {call : Call} (hlast : ¬s.RemovesLast call) :
    s.Step call (machine s call) := by
  cases call with
  | onReceive port callback fd =>
    rw [machine, onReceive]
    cases h : s.socketFor port fd with
    | none => exact .fails h
    | some openSockets => exact .registers h rfl
  | removeCallback handle stale =>
    rw [machine, removeCallback]
    cases h : s.callbacks.lookup handle with
    | none => exact .unknown h
    | some info =>
      have hmany : HasCallback (s.callbacks.erase handle) info.port := by
        by_contra hno
        exact hlast ⟨info, h, hno⟩
      simp only [hmany, if_true]
      exact .oneOfMany h hmany

/-- **A last callback is removed** by a read of the erased entry. -/
theorem not_stepKept_of_removesLast {call : Call} (hin : s.InStep) (hlast : s.RemovesLast call) :
    ¬s.StepKept call := by
  rintro ⟨-, hclose, -⟩
  cases call with
  | onReceive => exact hlast
  | removeCallback handle stale =>
    obtain ⟨info, hlookup, hno⟩ := hlast
    have hmem : info.port ∈ s.openSockets :=
      (hin info.port).2 ((hasCallback_erase hlookup).2 (.inl rfl))
    obtain ⟨fd, hfd⟩ := Option.isSome_iff_exists.1 (AList.lookup_isSome.2 hmem)
    have h := hclose handle stale info fd rfl ⟨hlookup, hno⟩ hfd
    rw [machine, removeCallback, Option.mem_def.1 hlookup] at h
    simp [hno, hfd] at h

/-- A call that removes no last callback does what it has to do. -/
theorem stepKept_of_not_removesLast {call : Call} (hlast : ¬s.RemovesLast call) :
    s.StepKept call := by
  have hstep := step_machine hlast
  refine ⟨?_, ?_, ?_⟩
  · rintro port callback rfl hport
    have hnone : s.socketFor port (-1) = none := by
      rw [socketFor, if_neg hport, if_pos rfl]
    rw [machine, onReceive, hnone]
  · rintro handle stale info fd rfl ⟨hlookup, hno⟩
    exact absurd ⟨info, hlookup, hno⟩ hlast
  · intro fd hfd
    generalize machine s call = r at hstep hfd
    cases hstep <;> simp at hfd

/-! ## The runs -/

/-- What a run without the removal of a last callback keeps of the state and of the handles that it
has returned. -/
structure Kept (s : Udp) (returned : List ℤ) : Prop where
  inStep : s.InStep
  counter_nonneg : 0 ≤ s.callbackIdCounter
  callbacks_le : ∀ handle ∈ s.callbacks, handle ≤ s.callbackIdCounter
  returned_le : ∀ handle ∈ returned, handle ≤ s.callbackIdCounter
  nodup : returned.Nodup

theorem kept_new : Kept new [] where
  inStep port := by simp [new, HasCallback]
  counter_nonneg := le_rfl
  callbacks_le handle h := by simp [new] at h
  returned_le := List.forall_mem_nil _
  nodup := List.nodup_nil

theorem kept_machine {call : Call} {returned : List ℤ} (h : s.Kept returned)
    (hlast : ¬s.RemovesLast call) (hover : ¬s.Overflows call) :
    (machine s call).1.Kept (returned ++ (machine s call).2.filterMap Event.handle?) := by
  have hstep := step_machine hlast
  generalize machine s call = r at hstep
  cases hstep with
  | fails | unknown =>
    rw [List.filterMap_eq_nil_iff.2 (by simp), List.append_nil]
    exact h
  | @registers port callback fd openSockets handle hfor hhandle =>
    -- the counter does not wrap, so the handle is above all others
    have hcounter : s.callbackIdCounter < 2 ^ 31 - 1 := by
      by_contra hge
      exact hover ⟨by rw [hfor]; rfl, not_lt.1 hge⟩
    have hnext : handle = s.callbackIdCounter + 1 := by
      have := h.counter_nonneg
      rw [hhandle, int32]
      omega
    have hnew : handle ∉ s.callbacks := fun hmem => by
      have := h.callbacks_le _ hmem
      omega
    refine ⟨fun port' => ?_, ?_, fun handle' hmem => ?_, fun handle' hmem => ?_, ?_⟩
    · rw [socketFor_cases hfor, hasCallback_insert hnew, h.inStep, eq_comm]
    · have := h.counter_nonneg
      simp only
      omega
    · rcases (AList.mem_insert _).1 hmem with rfl | hmem
      · exact le_rfl
      · exact (h.callbacks_le _ hmem).trans (by simp only; omega)
    · rcases List.mem_append.1 hmem with hmem | hmem
      · exact (h.returned_le _ hmem).trans (by simp only; omega)
      · exact (List.mem_singleton.1 hmem).le
    · refine List.nodup_append.2 ⟨h.nodup, List.nodup_singleton _, fun a ha b hb => ?_⟩
      have hle := h.returned_le _ ha
      have hb' : b = handle := List.mem_singleton.1 hb
      omega
  | @oneOfMany handle stale info hlookup hmany =>
    rw [List.filterMap_nil, List.append_nil]
    refine ⟨fun port => ?_, h.counter_nonneg, fun handle' hmem => ?_, h.returned_le, h.nodup⟩
    · rw [h.inStep, hasCallback_erase hlookup]
      exact ⟨fun hor => hor.elim (fun hport => hport ▸ hmany) id, .inr⟩
    · exact h.callbacks_le _ (AList.mem_erase.1 hmem).2

theorem handles_concat (t : List (Udp × Call)) (call : Call) :
    handles (t ++ [(s, call)]) = handles t ++ (machine s call).2.filterMap Event.handle? := by
  rw [handles, outputs_append, List.filterMap_append, outputs_cons, outputs_nil, List.append_nil]
  rfl

theorem kept_final {calls : List Call}
    (h : EveryStep machine (fun s call => ¬s.RemovesLast call ∧ ¬s.Overflows call) new calls) :
    (final machine new calls).Kept (handles (trace machine new calls)) := by
  refine h.invariant (J := fun s t => s.Kept (handles t)) (t := [])
    (fun s t call hkept hcall => ?_) kept_new
  rw [handles_concat]
  exact kept_machine hkept hcall.1 hcall.2

/-- The callback of port 53 is registered and removed. -/
theorem not_registryKept_last :
    ¬RegistryKept [.onReceive 53 0 3, .removeCallback 1 0] := by
  rintro ⟨-, hsteps, -⟩
  have hstep := (EveryStep.cons_iff.1 (EveryStep.cons_iff.1 hsteps).2).1
  have hclose := hstep.2.1 1 0 ⟨0, 53⟩ 3 rfl ⟨rfl, by decide⟩ rfl
  revert hclose
  decide

/-- **The maps stay in step** in every run that removes no last callback of a port and ends before
the counter does; and a run goes wrong with each removal of a last callback. -/
theorem registryKept_run (calls : List Call) :
    (EveryStep machine (fun s call => ¬s.RemovesLast call ∧ ¬s.Overflows call) new calls →
      RegistryKept calls) ∧
    ∀ call, (final machine new calls).RemovesLast call → ¬RegistryKept (calls ++ [call]) := by
  constructor
  · intro h
    refine ⟨?_, fun c hc => stepKept_of_not_removesLast (h c hc).1, (kept_final h).nodup⟩
    rintro as bs rfl
    exact (kept_final (EveryStep.append_iff.1 h).1).inStep
  · rintro call hlast ⟨hin, hsteps, -⟩
    exact not_stepKept_of_removesLast (hin calls [call] rfl) hlast
      (EveryStep.cons_iff.1 (EveryStep.append_iff.1 hsteps).2).1

/-- Two callbacks of a port, of which one is removed, and one of a port that cannot be opened. -/
theorem registryKept_two : RegistryKept
    [.onReceive 53 0 3, .onReceive 53 1 0, .onReceive 80 2 (-1), .removeCallback 1 0] :=
  (registryKept_run _).1 (by decide)

end RbProtocol.Udp
