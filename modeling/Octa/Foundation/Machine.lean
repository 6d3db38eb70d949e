import Mathlib.Data.List.Basic

/-!
# Machines and their runs

A machine takes one atomic action at a time.  Which action comes next is open,
so a statement about every run is a statement about every interleaving.
-/

namespace Transition

open List

structure Machine (σ α : Type) where
  init : σ
  step : σ → α → Option σ

variable {σ α : Type}

inductive Machine.Run (M : Machine σ α) : List (σ × α) → σ → Prop where
  | start : M.Run [] M.init
  | step {history : List (σ × α)} {s s' : σ} {a : α} :
      M.Run history s → M.step s a = some s' → M.Run (history ++ [(s, a)]) s'

variable {M : Machine σ α} {history : List (σ × α)} {s : σ}

def Machine.Reachable (M : Machine σ α) (s : σ) : Prop := ∃ history, M.Run history s

/-- What the initial state has and every step that meets `G` keeps holds at the
end of every run whose steps meet `G`. -/
theorem Machine.Run.invariant_of {G : σ → α → Prop} {I : σ → Prop} (h : M.Run history s)
    (hG : ∀ e ∈ history, G e.1 e.2) (hinit : I M.init)
    (hstep : ∀ s a s', M.Reachable s → G s a → I s → M.step s a = some s' → I s') : I s := by
  induction h with
  | start => exact hinit
  | @step history s s' a hr hs ih =>
    have hb : ∀ e ∈ history, G e.1 e.2 := fun e he => hG e (mem_append_left _ he)
    have hl : G s a := hG (s, a) (by simp)
    exact hstep s a s' ⟨history, hr⟩ hl (ih hb) hs

theorem Machine.Reachable.invariant {I : σ → Prop} (h : M.Reachable s) (hinit : I M.init)
    (hstep : ∀ s a s', M.Reachable s → I s → M.step s a = some s' → I s') : I s := by
  obtain ⟨history, hr⟩ := h
  apply hr.invariant_of (G := fun _ _ => True) (fun _ _ => trivial) hinit
  intro s a s' hs _ hI hn
  exact hstep s a s' hs hI hn

/-- If a step from a good state reaches a good state exactly when it meets `G`,
then a run has good states only exactly when all its steps meet `G`. -/
theorem Machine.Run.good_iff {G : σ → α → Prop} {I : σ → Prop} (h : M.Run history s)
    (hinit : I M.init)
    (hstep : ∀ s a s', M.Reachable s → I s → M.step s a = some s' → (I s' ↔ G s a)) :
    ((∀ e ∈ history, I e.1) ∧ I s) ↔ ∀ e ∈ history, G e.1 e.2 := by
  induction h with
  | start => simp [hinit]
  | @step history s s' a hr hs ih =>
    have hl := fun hI => hstep s a s' ⟨history, hr⟩ hI hs
    simp only [forall_mem_append, forall_mem_singleton]
    rw [← ih]
    constructor
    · rintro ⟨⟨ha, hI⟩, hI'⟩
      exact ⟨⟨ha, hI⟩, (hl hI).mp hI'⟩
    · rintro ⟨⟨ha, hI⟩, hG⟩
      exact ⟨⟨ha, hI⟩, (hl hI).mpr hG⟩

def Machine.exec (M : Machine σ α) : List α → σ → Option σ
  | [], s => some s
  | a :: rest, s => (M.step s a).bind (M.exec rest)

/-- The history of a list of actions, up to one that cannot be taken. -/
def Machine.trace (M : Machine σ α) : List α → σ → List (σ × α)
  | [], _ => []
  | a :: rest, s => (s, a) :: ((M.step s a).map (M.trace rest)).getD []

theorem Machine.Run.exec_trace {acts : List α} {s' : σ} (h : M.Run history s)
    (hexec : M.exec acts s = some s') : M.Run (history ++ M.trace acts s) s' := by
  induction acts generalizing s history with
  | nil =>
    cases hexec
    rw [trace, append_nil]
    exact h
  | cons a rest ih =>
    obtain ⟨s₁, hs, hre⟩ := Option.bind_eq_some_iff.mp hexec
    have hr := ih (h.step hs) hre
    rw [append_assoc, singleton_append] at hr
    simpa [trace, hs] using hr

theorem Machine.trace_map_snd {actions : List α} {s' : σ} (hexec : M.exec actions s = some s') :
    (M.trace actions s).map Prod.snd = actions := by
  induction actions generalizing s with
  | nil => rfl
  | cons a rest ih =>
    obtain ⟨s₁, hs, hr⟩ := Option.bind_eq_some_iff.mp hexec
    simp [trace, hs, ih hr]

theorem Machine.Run.exec {actions : List α} {s' : σ} (h : M.Run history s)
    (hexec : M.exec actions s = some s') :
    ∃ hist', M.Run hist' s' ∧ hist'.map Prod.snd = history.map Prod.snd ++ actions :=
  ⟨_, h.exec_trace hexec, by rw [map_append, trace_map_snd hexec]⟩

theorem Machine.Reachable.exec {acts : List α} {s' : σ} (h : M.Reachable s)
    (hexec : M.exec acts s = some s') : M.Reachable s' := by
  obtain ⟨history, hr⟩ := h
  obtain ⟨hi', hr', -⟩ := hr.exec hexec
  exact ⟨hi', hr'⟩

end Transition
