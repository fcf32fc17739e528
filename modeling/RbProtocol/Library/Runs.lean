import Mathlib

/-!
# Runs of a machine

A machine takes one input at a time and answers it with outputs. The trace of a run lists, for each
input, the state it was handled in; the outputs of a run, and every other record of what happened,
are functions of the trace.

A property of states and traces that each step keeps holds at the end of every run
(`EveryStep.invariant`), also when the steps keep it only on inputs that meet a condition.
-/

namespace RbProtocol.Library

variable {σ ι ε : Type*}

/-- A record kept of a list: a statement about each entry and the entries before it, as a statement
about the elements that leave an entry. -/
theorem forall_filterMap_split {α β : Type*} {g : α → Option β} {Q : List β → β → Prop}
    (l : List α) : (∀ l₁ b l₂, l.filterMap g = l₁ ++ b :: l₂ → Q l₁ b) ↔
      ∀ t a u, l = t ++ a :: u → ∀ b, g a = some b → Q (t.filterMap g) b := by
  constructor
  · intro h t a u hl b hb
    refine h _ b (u.filterMap g) ?_
    rw [hl, List.filterMap_append, List.filterMap_cons_some hb]
  · intro h l₁ b l₂ hl
    obtain ⟨t, rest, hl', ht, hrest⟩ := List.filterMap_eq_append_iff.1 hl
    obtain ⟨skipped, a, u, rfl, hskipped, ha, -⟩ := List.filterMap_eq_cons_iff.1 hrest
    have hnone : skipped.filterMap g = [] := List.filterMap_eq_nil_iff.2 hskipped
    have hq := h (t ++ skipped) a u (by rw [hl', List.append_assoc]) b ha
    rwa [List.filterMap_append, hnone, List.append_nil, ht] at hq

/-- A machine: the state after an input, and the outputs. -/
abbrev Machine (σ ι ε : Type*) := σ → ι → σ × List ε

namespace Machine

variable (step : Machine σ ι ε)

/-- The state at the end of a run. -/
def final (s : σ) (is : List ι) : σ := is.foldl (fun s i => (step s i).1) s

/-- The inputs of a run, each with the state it was handled in. -/
def trace (s : σ) : List ι → List (σ × ι)
  | [] => []
  | i :: is => (s, i) :: trace (step s i).1 is

/-- The outputs of the steps of a trace. -/
def outputs (t : List (σ × ι)) : List ε := t.flatMap fun c => (step c.1 c.2).2

/-- Every step of a run meets a condition on its state and its input. -/
def EveryStep (P : σ → ι → Prop) (s : σ) (is : List ι) : Prop := ∀ c ∈ trace step s is, P c.1 c.2

instance (P : σ → ι → Prop) [∀ s i, Decidable (P s i)] (s : σ) (is : List ι) :
    Decidable (EveryStep step P s is) :=
  inferInstanceAs (Decidable (∀ c ∈ trace step s is, P c.1 c.2))

variable {step} {s : σ}

@[simp] theorem final_nil : final step s [] = s := rfl

@[simp] theorem final_cons (i : ι) (is : List ι) :
    final step s (i :: is) = final step (step s i).1 is := rfl

@[simp] theorem final_append (is js : List ι) :
    final step s (is ++ js) = final step (final step s is) js := List.foldl_append ..

@[simp] theorem trace_nil : trace step s [] = [] := rfl

@[simp] theorem trace_cons (i : ι) (is : List ι) :
    trace step s (i :: is) = (s, i) :: trace step (step s i).1 is := rfl

@[simp] theorem trace_append (is js : List ι) :
    trace step s (is ++ js) = trace step s is ++ trace step (final step s is) js := by
  induction is generalizing s with
  | nil => rfl
  | cons i is ih => simp [ih]

theorem map_snd_trace (s : σ) (is : List ι) : (trace step s is).map Prod.snd = is := by
  induction is generalizing s with
  | nil => rfl
  | cons i is ih => rw [trace_cons, List.map_cons, ih]

@[simp] theorem outputs_nil : outputs step [] = [] := rfl

@[simp] theorem outputs_cons (c : σ × ι) (t : List (σ × ι)) :
    outputs step (c :: t) = (step c.1 c.2).2 ++ outputs step t := rfl

@[simp] theorem outputs_append (t u : List (σ × ι)) :
    outputs step (t ++ u) = outputs step t ++ outputs step u := List.flatMap_append

/-- A split of the trace is a split of the run. -/
theorem trace_eq_append_cons {is : List ι} {t u : List (σ × ι)} {c : σ × ι}
    (h : trace step s is = t ++ c :: u) :
    ∃ is₁ is₂, is = is₁ ++ c.2 :: is₂ ∧ trace step s is₁ = t ∧ final step s is₁ = c.1 := by
  induction is generalizing s t with
  | nil => simp at h
  | cons i is ih =>
    rcases t with _ | ⟨d, t⟩
    · obtain ⟨rfl, -⟩ := List.cons.inj h
      exact ⟨[], is, rfl, rfl, rfl⟩
    · obtain ⟨rfl, htail⟩ := List.cons.inj h
      obtain ⟨is₁, is₂, rfl, htrace, hfinal⟩ := ih htail
      exact ⟨i :: is₁, is₂, rfl, by rw [trace_cons, htrace], by rw [final_cons, hfinal]⟩

variable (step) in
/-- The inputs lead to a state, with some outputs on the way. -/
def Leads (s : σ) (is : List ι) (s' : σ) (es : List ε) : Prop :=
  final step s is = s' ∧ outputs step (trace step s is) = es

namespace Leads

variable {s₁ s₂ : σ} {is js : List ι} {es fs : List ε}

theorem nil : Leads step s [] s [] := ⟨rfl, rfl⟩

theorem cons {i : ι} (hstep : step s i = (s₁, es)) (h : Leads step s₁ is s₂ fs) :
    Leads step s (i :: is) s₂ (es ++ fs) := by
  rw [Leads, final_cons, trace_cons, outputs_cons, hstep]
  exact ⟨h.1, congrArg (es ++ ·) h.2⟩

theorem single {i : ι} (hstep : step s i = (s₁, es)) : Leads step s [i] s₁ es := by
  rw [Leads, final_cons, final_nil, trace_cons, trace_nil, outputs_cons, outputs_nil, hstep]
  exact ⟨rfl, List.append_nil es⟩

/-- An input without outputs. -/
theorem silent {i : ι} (hstep : step s i = (s₁, [])) (h : Leads step s₁ is s₂ fs) :
    Leads step s (i :: is) s₂ fs := cons hstep h

theorem append (h : Leads step s is s₁ es) (h' : Leads step s₁ js s₂ fs) :
    Leads step s (is ++ js) s₂ (es ++ fs) := by
  rw [Leads, final_append, trace_append, outputs_append, h.1, h.2]
  exact ⟨h'.1, congrArg (es ++ ·) h'.2⟩

end Leads

namespace EveryStep

variable {P : σ → ι → Prop} {is js : List ι}

@[simp] theorem cons_iff {i : ι} :
    EveryStep step P s (i :: is) ↔ P s i ∧ EveryStep step P (step s i).1 is := by
  simp [EveryStep]

@[simp] theorem append_iff :
    EveryStep step P s (is ++ js) ↔
      EveryStep step P s is ∧ EveryStep step P (final step s is) js := by
  simp [EveryStep, or_imp, forall_and]

/-- **A property of the state and the trace that each step keeps holds at the end of every run.** -/
theorem invariant {J : σ → List (σ × ι) → Prop}
    (hstep : ∀ s t i, J s t → P s i → J (step s i).1 (t ++ [(s, i)]))
    {t : List (σ × ι)} (h0 : J s t) (h : EveryStep step P s is) :
    J (final step s is) (t ++ trace step s is) := by
  induction is generalizing s t with
  | nil => simpa using h0
  | cons i is ih =>
    obtain ⟨hi, his⟩ := cons_iff.1 h
    simpa using ih (hstep s t i h0 hi) his

end EveryStep

end Machine

end RbProtocol.Library
