import Octa.Scheduler.Completion

/-!
# Failures of nodes that executed successfully

After its execution has succeeded, a node can still end with an error: its
terminal event is not published, a shutdown aborts it, or the receiver of the
task channel is gone when it sends a dependant.
-/

namespace Octa.Scheduler

open Transition

variable {ν : Type} [DecidableEq ν]

def SuccessKept (s : State ν) : Prop := ∀ n ∈ s.succeeded, (s.phase n).faulty = false

def Undisturbed (s : State ν) : Action ν → Prop
  | .send _ => s.receiving = true
  | .complete n published => s.phase n = .completing (.ok ()) → published = true
  | .abort n => n ∉ s.succeeded
  | _ => True

namespace ExecutionPlan

variable {plan : ExecutionPlan ν} {failfast : Bool} {s s' : State ν} {a : Action ν}

theorem Step.successKept (h : plan.Step failfast s a s') (hs : plan.Inv s)
    (hkept : SuccessKept s) (hun : Undisturbed s a) : SuccessKept s' := by
  intro m hm
  rcases apart_or_node a m with hno | hn
  · obtain ⟨hp, -, -, hsu, -⟩ := h.frame hno
    rw [hp]
    exact hkept m (hsu.mp hm)
  have hr := hs.recorded m
  cases h <;> obtain ⟨⟩ := hn
  case completeError published error hp =>
    have hn := hkept m hm
    simp [hp, Phase.faulty] at hn
  all_goals simp_all [Undisturbed, Recorded, Phase.faulty]

theorem Step.undisturbed (h : plan.Step failfast s a s') (hs : plan.Inv s)
    (hkept : SuccessKept s') : Undisturbed s a := by
  cases h
  case sendClosed n dep ready hp hc =>
    have hr := hs.recorded n
    simp only [Recorded, hp] at hr
    have hn := hkept n hr.2.1
    simp [Phase.faulty] at hn
  case lifecycle n published hp hl hb =>
    have hr := hs.recorded n
    simp only [Recorded, hp] at hr
    have hn := hkept n hr.2.1
    simp [Phase.faulty] at hn
  case abort n hma hi hd =>
    intro hm
    have hn := hkept n hm
    simp [Phase.faulty] at hn
  all_goals simp_all [Undisturbed]

/-- In every run, no node that executed successfully fails exactly when every
send finds the receiver, every terminal event of a successful node is published
and no successful node is aborted. -/
theorem success_kept_iff {history : List (State ν × Action ν)}
    (h : (plan.executor failfast).Run history s) :
    ((∀ entry ∈ history, SuccessKept entry.1) ∧ SuccessKept s) ↔
      ∀ entry ∈ history, Undisturbed entry.1 entry.2 := by
  apply h.good_iff
  · simp [SuccessKept, executor, init]
  intro s a s' hreach hkept hstep
  have hstep := Step.of_step hstep
  have hs := inv_of_reachable hreach
  exact ⟨hstep.undisturbed hs, hstep.successKept hs hkept⟩

end ExecutionPlan

def forkPlan : ExecutionPlan (Fin 3) where
  dag :=
    { nodes := Finset.univ
      edges := fun n => if n = 0 then {2} else ∅
      closed := by simp }
  deferred := fun _ => none
  failfast := fun _ => false
  requiresConcurrencyPermit := fun _ => true
  bound := fun _ => true
  deferred_mem := by simp
  order_injective := by simp

/-- The second root fails after the first one has looked at `finished`. -/
def forkRun : List (Action (Fin 3)) :=
  [.countInitial 0, .sendInitial, .countInitial 1, .sendInitial, .startProcessing, .receive 0,
    .receive 1, .begin 0, .begin 1, .finish 0 (.ok ()), .check 0, .register 0, .decrement 0,
    .poll 0 2, .finish 1 (.error .taskFailed), .fail 1, .report 1, .stopReceiving, .count 0,
    .send 0, .complete 0 true, .complete 1 true, .join]

theorem exists_forkRun : ∃ s, (forkPlan.executor false).exec forkRun forkPlan.init = some s ∧
    0 ∈ s.succeeded ∧ s.phase 0 = .done (.error .channelError) ∧ s.main = .returned :=
  ⟨_, rfl, by decide, rfl, rfl⟩

/-- The first root succeeded and ends with a channel error. -/
theorem success_lost_in_forkRun : ∃ s, (forkPlan.executor false).Reachable s ∧ s.main = .returned ∧
      0 ∈ s.succeeded ∧ s.phase 0 = .done (.error .channelError) := by
  obtain ⟨s, hexec, hmem, hphase, hmain⟩ := exists_forkRun
  exact ⟨s, Machine.Reachable.exec ⟨[], .start⟩ hexec, hmain, hmem, hphase⟩

theorem success_kept_iff_forkRun : ∃ history s, (forkPlan.executor false).Run history s ∧
      ¬∀ entry ∈ history, Undisturbed entry.1 entry.2 := by
  obtain ⟨s, hexec, hmem, hphase, -⟩ := exists_forkRun
  obtain ⟨history, hrun⟩ : (forkPlan.executor false).Reachable s :=
    Machine.Reachable.exec ⟨[], .start⟩ hexec
  refine ⟨history, s, hrun, fun hall => ?_⟩
  have hkept := ((ExecutionPlan.success_kept_iff hrun).mpr hall).2 0 hmem
  simp [hphase, Phase.faulty] at hkept

end Octa.Scheduler
