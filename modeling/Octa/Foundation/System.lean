import Mathlib.Algebra.BigOperators.Group.List.Basic
import Mathlib.Algebra.GroupWithZero.Nat

/-!
# Transition systems

A system takes one labelled step at a time, and a label may leave the next state
open.  A run is kept with its history: the labels and the states they were taken
in.
-/

namespace Transition

open List

structure System (σ α : Type) where
  init : σ → Prop
  step : σ → α → σ → Prop

variable {σ α : Type}

inductive System.Run (S : System σ α) : List (σ × α) → σ → Prop where
  | start {s : σ} : S.init s → S.Run [] s
  | step {history : List (σ × α)} {s s' : σ} {a : α} :
      S.Run history s → S.step s a s' → S.Run (history ++ [(s, a)]) s'

variable {S : System σ α} {history : List (σ × α)} {s : σ}

/-- What the initial states have and every step that meets `G` keeps holds at the
end of every run whose steps meet `G`. -/
theorem System.Run.invariant {G : σ → α → Prop} {I : σ → Prop} (h : S.Run history s)
    (hG : ∀ e ∈ history, G e.1 e.2) (hinit : ∀ s, S.init s → I s)
    (hstep : ∀ s a s', G s a → I s → S.step s a s' → I s') : I s := by
  induction h with
  | start hs => exact hinit _ hs
  | @step history s s' a hr hs ih =>
    have hb : ∀ e ∈ history, G e.1 e.2 := fun e he => hG e (mem_append_left _ he)
    have hl : G s a := hG (s, a) (mem_append_right _ (mem_singleton_self _))
    exact hstep s a s' hl (ih hb) hs

theorem System.Run.of_mem (h : S.Run history s) {e : σ × α} (he : e ∈ history) :
    ∃ before s', S.Run before e.1 ∧ before <+: history ∧ S.step e.1 e.2 s' := by
  induction h with
  | start => exact absurd he not_mem_nil
  | @step history s s' a hr hs ih =>
    rcases mem_append.mp he with he | he
    · obtain ⟨before, s'', hb, hl, hst⟩ := ih he
      exact ⟨before, s'', hb, hl.trans (prefix_append _ _), hst⟩
    · rw [mem_singleton.mp he]
      exact ⟨history, s', hr, prefix_append _ _, hs⟩

theorem System.Run.extend {P : σ → α → Prop} {s' : σ} (hrun : S.Run history s)
    (h : Relation.ReflTransGen (fun s s' => ∃ a, P s a ∧ S.step s a s') s s') :
    ∃ more, S.Run (history ++ more) s' ∧ ∀ e ∈ more, P e.1 e.2 := by
  induction h with
  | refl =>
    refine ⟨[], ?_, fun _ he => absurd he not_mem_nil⟩
    rw [append_nil]
    exact hrun
  | @tail s₁ s₂ _ hs ih =>
    obtain ⟨more, hm, hal⟩ := ih
    obtain ⟨a, ha, hs⟩ := hs
    refine ⟨more ++ [(s₁, a)], ?_, ?_⟩
    · rw [← append_assoc]
      exact hm.step hs
    intro e he
    rcases mem_append.mp he with he | he
    · exact hal e he
    · rw [mem_singleton.mp he]
      exact ha

theorem System.Run.of_chain {P : σ → α → Prop} {s' : σ} (hinit : S.init s)
    (h : Relation.ReflTransGen (fun s s' => ∃ a, P s a ∧ S.step s a s') s s') :
    ∃ history, S.Run history s' ∧ ∀ e ∈ history, P e.1 e.2 :=
  (System.Run.start hinit).extend h

/-! ## Agents in a list -/

variable {β : Type}

variable {agents : List β}

theorem sum_map_set {i : ℕ} {a : β} (h : agents[i]? = some a) (f : β → ℕ)
    (a' : β) : ((agents.set i a').map f).sum + f a = (agents.map f).sum + f a' := by
  induction agents generalizing i with
  | nil => cases h
  | cons b agents ih =>
    cases i with
    | zero =>
      cases h
      simp only [set_cons_zero, map_cons, sum_cons]
      omega
    | succ i =>
      have hr := ih h
      simp only [set_cons_succ, map_cons, sum_cons]
      omega

theorem getElem?_set_cases {i j : ℕ} {a' b : β}
    (h : (agents.set i a')[j]? = some b) : j = i ∧ b = a' ∨ j ≠ i ∧ agents[j]? = some b := by
  by_cases hi : j = i
  · subst hi
    left
    by_cases hl : j < agents.length
    · rw [List.getElem?_set_self hl] at h
      exact ⟨rfl, (Option.some.inj h).symm⟩
    · rw [List.getElem?_eq_none (by simpa using hl)] at h
      cases h
  right
  rw [List.getElem?_set_ne (Ne.symm hi)] at h
  exact ⟨hi, h⟩

end Transition
