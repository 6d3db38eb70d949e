import Octa.Scheduler.Cleanup

/-!
# Registration of cleanup actions

A cleanup action is registered when the nodes it comes after are recorded as
completed.
-/

namespace Octa.Scheduler

open Transition List

variable {ν : Type}

namespace ExecutionPlan

variable (plan : ExecutionPlan ν)

def Awaited (task : ν) : Prop :=
  ∃ n action, plan.deferred n = some action ∧ task ∈ action.registeredAfter

/-- The step does not forget a success: the execution token is not cancelled when an awaited
node that succeeded checks it, a shutdown does not abort such a node before it is recorded, and
no barrier is torn out of its nested plan. -/
def Keeps (s : State ν) : Action ν → Prop
  | .check n => plan.Awaited n → s.cancelled = false
  | .abort n =>
    (plan.Awaited n → s.phase n ≠ .succeeded ∧ s.phase n ≠ .registering) ∧
      ((plan.deferred n).isSome → s.phase n ≠ .executing)
  | .unwind n => plan.deferred n = none
  | _ => True

def Kept (s : State ν) : Prop :=
  ∀ n, plan.Awaited n → n ∈ s.succeeded →
    n ∈ s.completed ∨ s.phase n = .succeeded ∨ s.phase n = .registering

variable [DecidableEq ν]

/-- Each action that `run_deferred` has passed was run, or need not be. -/
def Swept (s : State ν) : Prop :=
  s.main.swept → ∀ n, (plan.deferred n).isSome →
    n ∈ s.main.rest ∨ n ∈ s.cleaned ∨ n ∈ s.completed ∨ plan.registered s.completed n = false

variable {plan} {failfast : Bool} {s s' : State ν} {a : Action ν}

theorem Step.kept (h : plan.Step failfast s a s') (hs : plan.Inv s) (hke : plan.Keeps s a)
    (hk : plan.Kept s) : plan.Kept s' := by
  intro m ha hsu
  have hm := hk m ha
  have hsb := h.completed_subset
  rcases apart_or_node a m with hno | hn
  · obtain ⟨hp, -, -, hsa, -⟩ := h.frame hno
    rw [hp]
    exact (hm (hsa.mp hsu)).imp_left fun hc => hsb hc
  cases h <;> obtain ⟨⟩ := hn
  case succeed => exact .inr (.inl (Function.update_self ..))
  case check => exact .inr (.inr (Function.update_self ..))
  case register => exact .inl (Finset.mem_insert_self ..)
  case giveUp hca _ =>
    rw [hke ha] at hca
    cases hca
  -- in all other cases the node was recorded before
  case abort hma hi hd =>
    rcases hm hsu with hc | hp | hp
    · exact .inl hc
    · exact absurd hp (hke.1 ha).1
    · exact absurd hp (hke.1 ha).2
  case receive queue hma hq =>
    have hi := hs.idle_of_queued (n := m) (by rw [hq]; exact mem_cons_self)
    rcases hm hsu with hc | hp | hp
    · exact .inl hc
    · simp [hi] at hp
    · simp [hi] at hp
  all_goals
    rcases hm hsu with hc | hp' | hp'
    · exact .inl (hsb hc)
    · simp_all
    · simp_all

theorem Step.swept (h : plan.Step failfast s a s') (hs : plan.Inv s) (hc : plan.CleanupInv s)
    (hw : plan.Swept s) : plan.Swept s' := by
  by_cases hj : s.main.joined
  · have hnd := hc.no_node hs h hj
    cases h <;> simp only [Action.node, reduceCtorEq] at hnd
    case cancel => exact hw
    case startCleanup listing hma hno hl =>
      intro _ n hn
      apply Or.inl
      have hme : n ∈ plan.deferredNodes := by
        obtain ⟨act, ha⟩ := Option.isSome_iff_exists.mp hn
        exact Finset.mem_filter.mpr ⟨plan.deferred_mem ha, hn⟩
      rw [← hl, mem_toFinset] at hme
      exact (perm_insertionSort _ _).mem_iff.mpr hme
    case skip completed m rest hma hsk =>
      obtain rfl := hc.snapshot hma
      intro _ n hn
      rw [Swept, hma] at hw
      rcases hw rfl n hn with hr | hd
      · rcases mem_cons.mp hr with rfl | hr
        · exact .inr (.inr hsk)
        · exact .inl hr
      · exact .inr hd
    case clean completed m rest hma hm hre =>
      intro _ n hn
      rw [Swept, hma] at hw
      rcases hw rfl n hn with hr | hcl | hd
      · rcases mem_cons.mp hr with rfl | hr
        · exact .inr (.inl (mem_append_right _ mem_cons_self))
        · exact .inl hr
      · exact .inr (.inl (mem_append_left _ hcl))
      · exact .inr (.inr hd)
    case endCleanup completed hma =>
      intro _ n hn
      rw [Swept, hma] at hw
      exact hw rfl n hn
    all_goals simp_all [MainPhase.joined]
  · intro hsw
    exfalso
    cases h
    all_goals
      apply hj
      cases hma : s.main <;> simp_all [MainPhase.joined, MainPhase.swept]

theorem swept_of_reachable (h : (plan.executor failfast).Reachable s) : plan.Swept s := by
  apply h.invariant
  · intro hs
    cases hs
  · intro s a s' hr hw hst
    exact (Step.of_step hst).swept (inv_of_reachable hr) (cleanupInv_of_reachable hr) hw

variable {history : List (State ν × Action ν)}

theorem kept_of_run (h : (plan.executor failfast).Run history s)
    (hke : ∀ e ∈ history, plan.Keeps e.1 e.2) : plan.Kept s := by
  apply h.invariant_of hke
  · intro n _ hn
    exact absurd hn (Finset.notMem_empty n)
  · intro s a s' hr hke hk hs
    exact (Step.of_step hs).kept (inv_of_reachable hr) hke hk

theorem succeeded_subset_executed (h : (plan.executor failfast).Reachable s) :
    ∀ n ∈ s.succeeded, n ∈ s.executed := by
  apply h.invariant
  · intro n hn
    exact absurd hn (Finset.notMem_empty n)
  intro s a s' hrc hs hst n hn
  cases Step.of_step hst
  case succeed m hp =>
    rcases Finset.mem_insert.mp hn with rfl | hn
    · have hr := (inv_of_reachable hrc).recorded n
      rw [Recorded, hp] at hr
      exact hr.1
    · exact hs n hn
  case begin => exact mem_append_left _ (hs n hn)
  all_goals exact hs n hn

theorem finished_of_executed (h : (plan.executor failfast).Run history s)
    (hke : ∀ e ∈ history, plan.Keeps e.1 e.2) {n : ν}
    (hde : (plan.deferred n).isSome) (hn : n ∈ s.executed) :
    s.phase n = .executing ∨ ∃ outcome, .finish n outcome ∈ history.map Prod.snd := by
  induction h with
  | start => exact absurd hn not_mem_nil
  | @step history s s' a hr hs ih =>
    have hl := hke (s, a) (mem_append_right _ mem_cons_self)
    have hb := ih fun e he => hke e (mem_append_left _ he)
    have h := Step.of_step hs
    rw [map_append]
    by_cases hrc : n ∈ s.executed
    · rcases hb hrc with hp | ⟨outcome, hf⟩
      · rcases apart_or_node a n with hno | hm
        · exact .inl ((h.frame hno).1.trans hp)
        · cases h <;> obtain ⟨⟩ := hm
          case succeed => exact .inr ⟨_, mem_append_right _ mem_cons_self⟩
          case finish => exact .inr ⟨_, mem_append_right _ mem_cons_self⟩
          case abort => exact absurd hp (hl.2 hde)
          case unwind hp =>
            have hnn : plan.deferred n = none := hl
            rw [hnn] at hde
            cases hde
          case receive queue hma hq =>
            have hi := (inv_of_reachable ⟨history, hr⟩).idle_of_queued (n := n)
              (by rw [hq]; exact mem_cons_self)
            rw [hi] at hp
            cases hp
          all_goals simp_all
      · exact .inr ⟨outcome, mem_append_left _ hf⟩
    · cases h
      case begin m hp =>
        have hm : n = m := by simpa [hrc] using hn
        subst hm
        exact .inl (Function.update_self ..)
      all_goals exact absurd hn hrc

/-- No registered cleanup is lost in a run whose steps keep every success: when the executor
has finished, each action whose predecessors all succeeded has been executed at its barrier
or by `run_deferred`. -/
theorem registered_cleanup_executed (h : (plan.executor failfast).Run history s)
    (hkeeps : ∀ entry ∈ history, plan.Keeps entry.1 entry.2) (hfinished : s.main = .finished)
    {n : ν} {action : DeferredAction ν} (haction : plan.deferred n = some action)
    (hsucceeded : ∀ task ∈ action.registeredAfter, task ∈ s.succeeded) :
    n ∈ s.cleaned ∨ ∃ outcome, .finish n outcome ∈ history.map Prod.snd := by
  have hreach : (plan.executor failfast).Reachable s := ⟨history, h⟩
  have hs := inv_of_reachable hreach
  have hc := cleanupInv_of_reachable hreach
  have hdeferred : (plan.deferred n).isSome := by rw [haction]; rfl
  have hjoined : s.main.joined := by rw [hfinished]; rfl
  have hover {m : ν} (hm : s.phase m ≠ .idle) : (s.phase m).over :=
    hc.joined hjoined m ((hs.started_iff m).mpr hm)
  have hregistered : plan.registered s.completed n := by
    apply registered_iff.mpr
    refine ⟨action, haction, ?_⟩
    intro task htask
    rcases kept_of_run h hkeeps task ⟨n, action, haction, htask⟩ (hsucceeded task htask)
      with hcompleted | hphase | hphase
    · exact hcompleted
    · have hended := hover (m := task) (by simp [hphase])
      simp [hphase, Phase.over] at hended
    · have hended := hover (m := task) (by simp [hphase])
      simp [hphase, Phase.over] at hended
  rcases swept_of_reachable hreach (by rw [hfinished]; rfl) n hdeferred
    with hrest | hcleaned | hcompleted | hnot
  · rw [hfinished] at hrest
    exact absurd hrest not_mem_nil
  · exact .inl hcleaned
  · -- the action was consumed at its barrier
    have hexecuted : n ∈ s.executed := by
      rcases hc.completed n hcompleted with hsuccess | ⟨-, hexecuted⟩
      · exact succeeded_subset_executed hreach n hsuccess
      · exact hexecuted
    rcases finished_of_executed h hkeeps hdeferred hexecuted with hphase | hfinish
    · have hended := hover (m := n) (by simp [hphase])
      simp [hphase, Phase.over] at hended
    · exact .inr hfinish
  · rw [hregistered] at hnot
    cases hnot

end ExecutionPlan

/-- The step neither checks a cancelled token nor ends a node task from outside. -/
def quiet {ν : Type} (entry : State ν × Action ν) : Bool :=
  match entry.2 with
  | .check _ => !entry.1.cancelled
  | .abort _ | .unwind _ => false
  | _ => true

theorem ExecutionPlan.keeps_of_quiet {plan : ExecutionPlan ν} {e : State ν × Action ν}
    (h : quiet e) : plan.Keeps e.1 e.2 := by
  obtain ⟨s, a⟩ := e
  cases a <;> simp_all [quiet, Keeps]

theorem registered_cleanup_executed_cancelledRun :
    ∃ s, (barrierPlan.executor false).exec cancelledRun barrierPlan.init = some s ∧
      s.main = .finished ∧
      (1 ∈ s.cleaned ∨ ∃ outcome, Action.finish 1 outcome ∈ cancelledRun) := by
  obtain ⟨s, hexec, hmain, hsucceeded⟩ :
      ∃ s, (barrierPlan.executor false).exec cancelledRun barrierPlan.init = some s ∧
        s.main = .finished ∧ s.succeeded = {0} := ⟨_, rfl, rfl, rfl⟩
  have hrun : (barrierPlan.executor false).Run
      ((barrierPlan.executor false).trace cancelledRun barrierPlan.init) s :=
    Machine.Run.start.exec_trace hexec
  have hquiet : ((barrierPlan.executor false).trace cancelledRun barrierPlan.init).all quiet := rfl
  have haction : barrierPlan.deferred 1 = some ⟨0, [0]⟩ := rfl
  have hresult := ExecutionPlan.registered_cleanup_executed hrun
    (fun entry hentry => ExecutionPlan.keeps_of_quiet (all_eq_true.mp hquiet entry hentry))
    hmain haction (by simp [hsucceeded])
  rw [Machine.trace_map_snd hexec] at hresult
  exact ⟨s, hexec, hmain, hresult⟩

theorem forgottenRun_loses_cleanup : barrierPlan.deferred 1 = some ⟨0, [0]⟩ ∧
      ∃ s, (barrierPlan.executor false).exec forgottenRun barrierPlan.init = some s ∧
        s.main = .finished ∧ s.succeeded = {0} ∧ s.executed = [0] ∧ s.cleaned = [] :=
  ⟨rfl, _, rfl, rfl, rfl, rfl, rfl⟩

end Octa.Scheduler
