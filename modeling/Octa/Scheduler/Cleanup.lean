import Octa.Scheduler.Completion

/-!
# Deferred cleanup

A deferred action runs at its barrier or in `run_deferred`.
-/

namespace Octa.Scheduler

open Transition List

variable {ν : Type}

/-- The actions `run_deferred` has still to look at. -/
def MainPhase.rest : MainPhase ν → List ν
  | .cleaning _ rest => rest
  | _ => []

def MainPhase.joined : MainPhase ν → Bool
  | .returned | .cleaning _ _ | .finished => true
  | _ => false

/-- `run_deferred` has started. -/
def MainPhase.swept : MainPhase ν → Bool
  | .cleaning _ _ | .finished => true
  | _ => false

namespace ExecutionPlan

variable (plan : ExecutionPlan ν)

/-- The node was recorded as completed by its own task: it succeeded, or it is
a deferred barrier that was reached. -/
def Completed (s : State ν) (n : ν) : Prop :=
  n ∈ s.succeeded ∨ (plan.deferred n).isSome ∧ n ∈ s.executed

variable {plan} in
theorem order_ne {n m : ν} (hn : n ∈ plan.deferredNodes) (hm : m ∈ plan.deferredNodes)
    (hne : n ≠ m) : plan.order n ≠ plan.order m := by
  obtain ⟨act, ha⟩ := Option.isSome_iff_exists.mp (Finset.mem_filter.mp hn).2
  obtain ⟨act', ha'⟩ := Option.isSome_iff_exists.mp (Finset.mem_filter.mp hm).2
  intro he
  apply hne (plan.order_injective ha ha' _)
  simpa [order, ha, ha'] using he

variable {plan} in
theorem nodup_of_decreasing {l : List ν} (h : l.Pairwise fun n m => plan.order m < plan.order n) :
    l.Nodup := by
  refine h.imp ?_
  rintro n m hl rfl
  exact lt_irrefl _ hl

variable [DecidableEq ν]

structure CleanupInv (s : State ν) : Prop where
  completed : ∀ n ∈ s.completed, plan.Completed s n
  reached : ∀ n ∈ s.executed, (plan.deferred n).isSome → n ∈ s.completed
  joined : s.main.joined → ∀ n ∈ s.handles, (s.phase n).over
  snapshot : ∀ {completed rest}, s.main = .cleaning completed rest → completed = s.completed
  before : s.main.swept = false → s.cleaned = []
  order : (s.cleaned ++ s.main.rest).Pairwise fun n m => plan.order m < plan.order n
  cleaned : ∀ n ∈ s.cleaned, n ∉ s.completed ∧ plan.registered s.completed n

variable {plan} {failfast : Bool} {s s' : State ν} {a : Action ν}

theorem cleanupOrder_pairwise {listing : List ν} (hno : listing.Nodup)
    (hli : listing.toFinset = plan.deferredNodes) :
    (plan.cleanupOrder listing).Pairwise fun n m => plan.order m < plan.order n := by
  let before : ν → ν → Prop := fun n m => plan.order m ≤ plan.order n
  have ht : Std.Total before := ⟨fun n m => Nat.le_total _ _⟩
  have htr : IsTrans ν before := ⟨fun _ _ _ h h' => Nat.le_trans h' h⟩
  have hs : (plan.cleanupOrder listing).Pairwise before := pairwise_insertionSort before listing
  have hp : (plan.cleanupOrder listing).Perm listing := perm_insertionSort _ _
  have hd : (plan.cleanupOrder listing).Pairwise (· ≠ ·) := hp.nodup_iff.mpr hno
  refine (hs.and hd).imp_of_mem ?_
  intro n m hn hm hb
  have hme : ∀ {k}, k ∈ plan.cleanupOrder listing → k ∈ plan.deferredNodes := by
    intro k hk
    rw [← hli, mem_toFinset]
    exact hp.mem_iff.mp hk
  have hne := order_ne (hme hn) (hme hm) hb.2
  have hl : plan.order m ≤ plan.order n := hb.1
  omega

theorem mem_consumed {completed : Finset ν} {n m : ν} :
    m ∈ plan.consumed completed n ↔ m = n ∧ (plan.deferred n).isSome ∨ m ∈ completed := by
  unfold consumed
  split <;> simp_all

section

variable (h : plan.Step failfast s a s')
include h

theorem Step.completed_mono {n : ν} (hn : plan.Completed s n) : plan.Completed s' n := by
  unfold Completed at hn ⊢
  cases h <;> simp_all
  all_goals tauto

theorem Step.completed (hs : plan.Inv s)
    (hc : ∀ n ∈ s.completed, plan.Completed s n) {n : ν} (hn : n ∈ s'.completed) :
    plan.Completed s' n := by
  by_cases hb : n ∈ s.completed
  · exact h.completed_mono (hc n hb)
  cases h
  case begin m hp =>
    rcases mem_consumed.mp hn with ⟨rfl, hd⟩ | hn
    · exact .inr ⟨hd, by simp⟩
    · exact absurd hn hb
  case register m hp =>
    rcases Finset.mem_insert.mp hn with rfl | hn
    · have hr := hs.recorded n
      simp only [Recorded, hp] at hr
      exact .inl hr.2.1
    · exact absurd hn hb
  all_goals exact absurd hn hb

theorem Step.completed_subset : s.completed ⊆ s'.completed := by
  intro n hn
  cases h
  case begin => exact mem_consumed.mpr (.inr hn)
  case register => exact Finset.mem_insert_of_mem hn
  all_goals exact hn

theorem Step.reached
    (hc : ∀ n ∈ s.executed, (plan.deferred n).isSome → n ∈ s.completed) {n : ν}
    (hn : n ∈ s'.executed) (hde : (plan.deferred n).isSome) : n ∈ s'.completed := by
  by_cases hb : n ∈ s.executed
  · exact h.completed_subset (hc n hb hde)
  cases h
  case begin m hp =>
    have hm : n = m := by simpa [hb] using hn
    subst hm
    exact mem_consumed.mpr (.inl ⟨rfl, hde⟩)
  all_goals exact absurd hn hb

theorem Step.node_not_over (hjo : s.main.joined) {n : ν}
    (hn : n ∈ a.node) : s.phase n ≠ .idle ∧ (s.phase n).over = false := by
  cases h <;> simp only [Action.node, Option.mem_def, Option.some.injEq, reduceCtorEq] at hn
  all_goals subst hn
  case receive hm hq => simp [hm, MainPhase.joined] at hjo
  case abort hm hi hd => simp [hm, MainPhase.joined] at hjo
  all_goals simp_all [Phase.over]

end

theorem CleanupInv.no_node (hc : plan.CleanupInv s) (hs : plan.Inv s)
    (h : plan.Step failfast s a s') (hjo : s.main.joined) : a.node = none := by
  apply Option.eq_none_iff_forall_not_mem.mpr
  intro n hn
  obtain ⟨hi, ho⟩ := h.node_not_over hjo hn
  simp [hc.joined hjo n ((hs.started_iff n).mpr hi)] at ho

theorem Step.cleanupInv (h : plan.Step failfast s a s') (hs : plan.Inv s)
    (hc : plan.CleanupInv s) : plan.CleanupInv s' := by
  have hco := fun n (hn : n ∈ s'.completed) => h.completed hs hc.completed hn
  have hr := fun n (hn : n ∈ s'.executed) => h.reached hc.reached hn
  have hor := hc.order
  by_cases hj : s.main.joined
  · have hnd := hc.no_node hs h hj
    have ho := hc.joined hj
    cases h <;> simp only [Action.node, reduceCtorEq] at hnd
    case cancel => exact ⟨hco, hr, hc.joined, hc.snapshot, hc.before, hor, hc.cleaned⟩
    case startCleanup listing hma hno hl =>
      have hnn : s.cleaned = [] := hc.before (by simp [hma, MainPhase.swept])
      refine ⟨hco, hr, fun _ => ho, ?_, ?_, ?_, ?_⟩
      · rintro completed rest hcl
        cases hcl
        rfl
      · simp [MainPhase.swept]
      · simpa [hnn, MainPhase.rest] using cleanupOrder_pairwise hno hl
      · simp [hnn]
    case skip completed n rest hma hsk =>
      have hsn := hc.snapshot hma
      refine ⟨hco, hr, fun _ => ho, ?_, ?_, ?_, hc.cleaned⟩
      · intro completed' rest' hcl
        cases hcl
        exact hsn
      · simp [MainPhase.swept]
      · rw [hma] at hor
        exact hor.sublist ((sublist_cons_self n rest).append_left s.cleaned)
    case clean completed n rest hma hn hre =>
      have hsn := hc.snapshot hma
      subst hsn
      refine ⟨hco, hr, fun _ => ho, ?_, ?_, ?_, ?_⟩
      · intro completed' rest' hcl
        cases hcl
        rfl
      · simp [MainPhase.swept]
      · simpa [hma, MainPhase.rest] using hor
      intro m hm
      rcases mem_append.mp hm with hm | hm
      · exact hc.cleaned m hm
      · obtain rfl := mem_singleton.mp hm
        exact ⟨hn, hre⟩
    case endCleanup completed hma =>
      refine ⟨hco, hr, fun _ => ho, ?_, ?_, ?_, hc.cleaned⟩
      · simp
      · simp [MainPhase.swept]
      · simpa [hma, MainPhase.rest] using hor
    all_goals simp_all [MainPhase.joined]
  · -- The cleanup has not started: nothing is cleaned before and after the step.
    have hsw : s.main.swept = false := by
      cases hma : s.main <;> simp_all [MainPhase.joined, MainPhase.swept]
    have hnn := hc.before hsw
    have ha : s'.cleaned = [] ∧ s'.main.swept = false := by
      cases h
      all_goals first
        | exact ⟨hnn, hsw⟩
        | exact ⟨hnn, rfl⟩
        | simp_all [MainPhase.joined]
    have hrs : s'.main.rest = [] := by
      cases hma : s'.main <;> simp_all [MainPhase.rest, MainPhase.swept]
    refine ⟨hco, hr, ?_, ?_, fun _ => ha.1, ?_, ?_⟩
    · cases h
      case join hma ho => exact fun _ => ho
      all_goals first
        | exact fun hma => absurd hma hj
        | simp_all [MainPhase.joined]
    · intro completed rest hcl
      simp [hcl, MainPhase.swept] at ha
    · simp [ha.1, hrs]
    · simp [ha.1]

theorem cleanupInv_of_reachable (h : (plan.executor failfast).Reachable s) : plan.CleanupInv s := by
  apply h.invariant
  · constructor <;> simp [executor, init, MainPhase.joined, MainPhase.rest]
  · intro s a s' hr hc hs
    exact (Step.of_step hs).cleanupInv (inv_of_reachable hr) hc

theorem registered_iff {completed : Finset ν} {n : ν} : plan.registered completed n ↔
    ∃ act, plan.deferred n = some act ∧ ∀ task ∈ act.registeredAfter, task ∈ completed := by
  unfold registered
  split <;> simp_all

/-- In every state of every run, each deferred action was executed at most once
by the traversal and the cleanup together.  The cleanup executes an action only
if its barrier was not reached and the nodes it was registered after completed,
and in strictly decreasing declaration order. -/
theorem deferred_once_in_order (h : (plan.executor failfast).Reachable s) :
    (∀ n, (plan.deferred n).isSome → s.executed.count n + s.cleaned.count n ≤ 1) ∧
      (∀ n ∈ s.cleaned, n ∉ s.executed ∧ ∃ action, plan.deferred n = some action ∧
        ∀ task ∈ action.registeredAfter, plan.Completed s task) ∧
      s.cleaned.Pairwise fun n m => plan.order m < plan.order n := by
  have hs := inv_of_reachable h
  have hc := cleanupInv_of_reachable h
  have horder : s.cleaned.Pairwise fun n m => plan.order m < plan.order n :=
    (pairwise_append.mp hc.order).1
  have hcleaned : ∀ n ∈ s.cleaned, n ∉ s.executed ∧ ∃ action, plan.deferred n = some action ∧
      ∀ task ∈ action.registeredAfter, plan.Completed s task := by
    intro n hn
    obtain ⟨hcompleted, hregistered⟩ := hc.cleaned n hn
    obtain ⟨action, haction, hafter⟩ := registered_iff.mp hregistered
    refine ⟨?_, action, haction, fun task htask => hc.completed task (hafter task htask)⟩
    intro hexecuted
    exact hcompleted (hc.reached n hexecuted (by simp [haction]))
  refine ⟨?_, hcleaned, horder⟩
  intro n _
  have hexecutedOnce := nodup_iff_count_le_one.mp hs.executed_nodup n
  have hcleanedOnce := nodup_iff_count_le_one.mp (nodup_of_decreasing horder) n
  by_cases hn : n ∈ s.cleaned
  · have hzero := count_eq_zero_of_not_mem (hcleaned n hn).1
    omega
  · have hzero := count_eq_zero_of_not_mem hn
    omega

end ExecutionPlan

/-- A command and two deferred commands, the later declared one in front. -/
def twoDeferred : ExecutionPlan ℕ where
  dag :=
    { nodes := {0, 1, 2}
      edges := fun n => if n = 0 then {2} else if n = 2 then {1} else ∅
      closed := by
        intro n m hm
        split_ifs at hm <;> simp_all }
  deferred := fun n => if n = 1 then some ⟨0, [0]⟩ else if n = 2 then some ⟨1, [0]⟩ else none
  failfast := fun _ => false
  requiresConcurrencyPermit := fun n => n = 0
  bound := fun n => n = 0
  deferred_mem := by
    intro n action hn
    split_ifs at hn <;> simp_all
  order_injective := by
    intro n m action action' hn hm horder
    split_ifs at hn hm <;> cases hn <;> cases hm <;> simp_all

def twoDeferredRun : List (Action ℕ) :=
  [.countInitial 0, .sendInitial, .startProcessing, .receive 0, .begin 0, .finish 0 (.ok ()),
    .check 0, .register 0, .decrement 0, .poll 0 2, .count 0, .send 0, .drain 0, .retire 0,
    .complete 0 true, .cancel, .stopReceiving, .join, .startCleanup [2, 1], .sweep, .sweep,
    .endCleanup]

theorem exists_twoDeferredRun :
    ∃ s, (twoDeferred.executor false).exec twoDeferredRun twoDeferred.init = some s ∧
      s.cleaned = [2, 1] :=
  ⟨_, rfl, rfl⟩

theorem deferred_once_in_order_twoDeferred :
    ∃ s, (twoDeferred.executor false).Reachable s ∧ s.cleaned = [2, 1] ∧ 1 ∉ s.executed ∧
      twoDeferred.order 1 < twoDeferred.order 2 := by
  obtain ⟨s, hexec, hcleaned⟩ := exists_twoDeferredRun
  have hreach : (twoDeferred.executor false).Reachable s :=
    Machine.Reachable.exec ⟨[], .start⟩ hexec
  obtain ⟨-, hunreached, hordered⟩ := ExecutionPlan.deferred_once_in_order hreach
  rw [hcleaned] at hordered
  exact ⟨s, hreach, hcleaned, (hunreached 1 (by simp [hcleaned])).1,
    (pairwise_cons.mp hordered).1 1 mem_cons_self⟩

end Octa.Scheduler
