import Octa.Scheduler.Places

/-!
# A run without errors executes every node

While no node has failed and nothing is cancelled, no ready node is lost and the
active counter is exact.
-/

namespace Octa.Scheduler

open Transition List Finset

variable {ν : Type} [DecidableEq ν]

def Phase.faulty : Phase ν → Bool
  | .failing _ | .reporting _ | .completing (.error _) | .done (.error _) | .aborted => true
  | _ => false

def MainPhase.early : MainPhase ν → Bool
  | .scheduling _ | .sendingInitial _ _ => true
  | _ => false

def MainPhase.late : MainPhase ν → Bool
  | .joining _ | .returned | .cleaning _ _ | .finished => true
  | _ => false

structure Healthy (s : State ν) : Prop where
  cancelled : s.cancelled = false
  faultless : ∀ n, (s.phase n).faulty = false

variable {d : ν}

theorem Shift.located {nodes : Finset ν} {s s' : State ν} (h : Shift nodes s s')
    {x : Place ν} (hx : s.At d x) : ∃ y, s'.At d y := by
  cases h with
  | stay ha hA => exact ⟨x, (hA d x).mpr hx⟩
  | @move n x₀ y hn ha hA =>
    by_cases hd : d = n
    · exact ⟨y, (hA d y).mpr (.inl ⟨hd, rfl⟩)⟩
    · exact ⟨x, (hA d x).mpr (.inr ⟨hd, hx⟩)⟩
  | enter ha hr hA => exact ⟨x, (hA d x).mpr (.inl hx)⟩

theorem Recorded.of_ready {s : State ν} {p : ν} (h : Recorded s p)
    (hd : d ∈ (s.phase p).ready) : s.phase p ≠ .idle ∧ p ∉ s.retired := by
  unfold Recorded at h
  split at h <;> simp_all [Phase.ready]

namespace ExecutionPlan

variable (plan : ExecutionPlan ν)

structure Lively (s : State ν) : Prop where
  counted_eq : (s.counted plan.dag.nodes).card = s.active
  located : ∀ {d}, d ∈ plan.dag.nodes → s.inDegree d = 0 →
    (plan.deferred d = none ∨ (plan.dag.preds d).Nonempty) → ∃ x, s.At d x
  quiet : (s.finished ∨ ∃ n, s.phase n = .closing) → s.active = 0
  early : s.main.early → s.handles = [] ∧ s.finished = false ∧
    s.main.initial ⊆ plan.initial ∧ (plan.initial = ∅ → s.active = 0)
  late : s.main.late → s.finished

variable {plan} {failfast : Bool} {s s' : State ν} {a : Action ν}

theorem Step.faulty (h : plan.Step failfast s a s') (hs : plan.Inv s) {m : ν}
    (hm : (s.phase m).faulty) : (s'.phase m).faulty := by
  rcases apart_or_node a m with hno | hn
  · rwa [(h.frame hno).1]
  cases h <;> obtain ⟨⟩ := hn
  case receive queue hma hq =>
    simp [hs.idle_of_queued (n := m) (by simp [hq]), Phase.faulty] at hm
  all_goals simp_all [Phase.faulty]

theorem Step.healthy_before (h : plan.Step failfast s a s') (hs : plan.Inv s)
    (hs' : Healthy s') : Healthy s := by
  constructor
  · by_contra hc
    simpa [hs'.cancelled] using h.cancelled (by simpa using hc)
  intro m
  by_contra hm
  have hf := h.faulty hs (by simpa using hm)
  simp [hs'.faultless m] at hf

variable {n : ν}

theorem Inv.counted_of_unretired (hs : plan.Inv s) (hph : s.phase n ≠ .idle)
    (hn : n ∉ s.retired) : n ∈ s.counted plan.dag.nodes := by
  have hx : s.At n .running := ⟨(hs.started_iff n).mpr hph, hn⟩
  exact State.mem_counted.mpr ⟨(hs.place_free hx).1, .running, rfl, hx⟩

theorem Lively.not_counted (hl : plan.Lively s) (hqu : s.active = 0) (n : ν) :
    n ∉ s.counted plan.dag.nodes := by
  have hc := hl.counted_eq
  rw [hqu, card_eq_zero] at hc
  simp [hc]

theorem Lively.active_ne_zero (hl : plan.Lively s) (hs : plan.Inv s)
    (hph : s.phase n ≠ .idle) (hn : n ∉ s.retired) : s.active ≠ 0 :=
  fun hq => hl.not_counted hq n (hs.counted_of_unretired hph hn)

section

variable (h : plan.Step failfast s a s')
include h

theorem Step.finished (hs : s.finished) : s'.finished := by
  cases h <;> simp_all

theorem Step.shift_of_healthy (hs : plan.Inv s)
    (hl : plan.Lively s) (hs₀ : Healthy s) (hs' : Healthy s') : Shift plan.dag.nodes s s' := by
  rcases h.shift hs with hsh | ⟨hlo, -⟩
  · exact hsh
  cases h <;> simp only [Action.Lossy] at hlo
  case stopReceiving hm hst =>
    have hf : s.finished := by simpa [hs₀.cancelled] using hst
    have hq : s.queue = [] := by
      apply eq_nil_iff_forall_not_mem.mpr
      intro d hd
      have hx : s.At d .queued := hd
      exact hl.not_counted (hl.quiet (.inl hf)) d
        (State.mem_counted.mpr ⟨(hs.place_free hx).1, .queued, rfl, hx⟩)
    apply Shift.of_silent <;> simp [hm, hq, MainPhase.initial, MainPhase.outgoing]
  case drop n dep ready hp hde hf =>
    have hre : n ∉ s.retired := by
      have hr := hs.recorded n
      simp_all [Recorded]
    exact absurd (hl.quiet (.inl hf)) (hl.active_ne_zero hs (by simp [hp]) hre)
  case poll hp hde hf => simp [hf] at hlo
  case send hp ho hro => simp [ho] at hlo
  case abort n hm hi hdo =>
    have hfa := hs'.faultless n
    simp [Phase.faulty] at hfa
  case sendClosed n dep ready hp hc =>
    have hfa := hs'.faultless n
    simp [Phase.faulty] at hfa
  case unwind n hp =>
    have hfa := hs'.faultless n
    simp [Phase.faulty] at hfa

theorem Step.located_of_released
    (hb : s.inDegree d ≠ 0) (haf : s'.inDegree d = 0) : ∃ x, s'.At d x := by
  cases h
  case decrement n hp =>
    refine ⟨.ready n, ?_⟩
    simp only [decremented] at haf
    split at haf
    · simp_all [State.At, Phase.ready, newlyReady]
    · exact absurd haf hb
  all_goals exact absurd haf hb

theorem Step.located (hl : plan.Lively s)
    (hsh : Shift plan.dag.nodes s s') (hd : d ∈ plan.dag.nodes) (hzero : s'.inDegree d = 0)
    (hroot : plan.deferred d = none ∨ (plan.dag.preds d).Nonempty) : ∃ x, s'.At d x := by
  by_cases hb : s.inDegree d = 0
  · obtain ⟨x, hx⟩ := hl.located hd hb hroot
    exact hsh.located hx
  · exact h.located_of_released hb hzero

end

theorem Lively.idle_of_early (hl : plan.Lively s) (hs : plan.Inv s) (hea : s.main.early)
    (n : ν) : s.phase n = .idle := by
  by_contra hn
  have hm := (hs.started_iff n).mpr hn
  simp [(hl.early hea).1] at hm

theorem Step.early (h : plan.Step failfast s a s') (hs : plan.Inv s) (hl : plan.Lively s)
    (hea : s'.main.early) : s'.handles = [] ∧ s'.finished = false ∧
      s'.main.initial ⊆ plan.initial ∧ (plan.initial = ∅ → s'.active = 0) := by
  have hi := hl.idle_of_early hs
  have hb := hl.early
  cases h
  case countInitial n initial hm hn =>
    obtain ⟨hh, hf, hsu, -⟩ := hb (by simp [hm, MainPhase.early])
    rw [hm] at hsu
    refine ⟨hh, hf, (erase_subset n initial).trans hsu, ?_⟩
    intro he
    have hn' := hsu hn
    simp [he] at hn'
  case sendInitial n initial hm hro =>
    have hr := hb (by simp [hm, MainPhase.early])
    rwa [hm] at hr
  case cancel => exact hb hea
  all_goals simp_all [MainPhase.early]

theorem finished_or_closing_of_update {f : ν → Phase ν} {q : Phase ν} {finished : Bool}
    (hq : q ≠ .closing) (h : finished ∨ ∃ m, Function.update f n q m = .closing) :
    finished ∨ ∃ m, f m = .closing := by
  rcases h with h | ⟨m, hm⟩
  · exact .inl h
  rcases eq_or_ne m n with rfl | hne
  · simp [hq] at hm
  · exact .inr ⟨m, by simpa [hne] using hm⟩

section

variable (h : plan.Step failfast s a s')
include h

theorem Step.quiet (hs : plan.Inv s) (hl : plan.Lively s)
    (hs' : Healthy s') (hqu : s'.finished ∨ ∃ n, s'.phase n = .closing) : s'.active = 0 := by
  have hb := hl.quiet
  cases h
  case countInitial n initial hm hn =>
    have he : s.main.early := by simp [hm, MainPhase.early]
    simp [(hl.early he).2.1, hl.idle_of_early hs he] at hqu
  case startProcessing hm =>
    have he : s.main.early := by simp [hm, MainPhase.early]
    simp only [(hl.early he).2.1, hl.idle_of_early hs he] at hqu
    exact (hl.early he).2.2.2 (by simpa using hqu)
  case count n dep ready hp =>
    have hre : n ∉ s.retired := by
      have hr := hs.recorded n
      simp_all [Recorded]
    exact absurd (hb (finished_or_closing_of_update (by simp) hqu))
      (hl.active_ne_zero hs (by simp [hp]) hre)
  case retireLast hp ha => simp [ha]
  case retire hp ha =>
    simp [hb (finished_or_closing_of_update (by simp) hqu)]
  case close n hp => exact hb (.inr ⟨n, hp⟩)
  case report n error hp =>
    have hf := hs'.faultless n
    simp [Phase.faulty] at hf
  all_goals first
    | exact hb hqu
    | exact hb (finished_or_closing_of_update (by simp) hqu)

theorem Step.late (hl : plan.Lively s) (hs₀ : Healthy s)
    (hlate : s'.main.late) : s'.finished := by
  by_cases hb : s.main.late
  · exact h.finished (hl.late hb)
  cases h
  case stopReceiving hm hs => simpa [hs₀.cancelled] using hs
  all_goals simp_all [MainPhase.late]

theorem Step.lively (hs : plan.Inv s) (hl : plan.Lively s)
    (hs₀ : Healthy s) (hs' : Healthy s') : plan.Lively s' := by
  have hsh := h.shift_of_healthy hs hl hs₀ hs'
  have hc := hsh.card_counted hs.place_unique fun hx => (hs.place_free hx).1
  have hco := hl.counted_eq
  exact ⟨by omega, h.located hl hsh, h.quiet hs hl hs', h.early hs hl, h.late hl hs₀⟩

end

theorem lively_init : plan.Lively plan.init := by
  have hi : plan.Inv plan.init := inv_init
  have hl := hi.counted_le
  refine ⟨Nat.le_antisymm hl (Nat.zero_le _), ?_, ?_, ?_, ?_⟩
  · intro d hd hz hr
    have hp : plan.dag.preds d = ∅ := card_eq_zero.mp hz
    refine ⟨.initial, mem_filter.mpr ⟨hd, ?_, hz⟩⟩
    simpa [hp] using hr
  · simp [init]
  · simp [init, MainPhase.initial]
  · simp [init, MainPhase.late]

theorem lively_of_reachable (h : (plan.executor failfast).Reachable s) (hs : Healthy s) :
    plan.Lively s := by
  have ha : Healthy s → plan.Lively s := by
    apply h.invariant fun _ => lively_init
    intro s a s' hr ih hst hs'
    have hi := inv_of_reachable hr
    have hst := Step.of_step hst
    have hs₀ := hst.healthy_before hi hs'
    exact hst.lively hi (ih hs₀) hs₀ hs'
  exact ha hs

theorem cancelled_of_reachable (h : (plan.executor failfast).Reachable s) :
    s.cancelled → s.callerCancelled ∨ ∃ n, (s.phase n).faulty := by
  apply h.invariant (by simp [executor, init])
  intro s a s' hr ih hs hc
  have hs := Step.of_step hs
  by_cases hb : s.cancelled
  · rcases ih hb with hcl | ⟨n, hn⟩
    · exact .inl (by cases hs <;> first | exact hcl | rfl)
    · exact .inr ⟨n, hs.faulty (inv_of_reachable hr) hn⟩
  cases hs
  case cancel => exact .inl rfl
  case fail n error hp => exact .inr ⟨n, by simp [Phase.faulty]⟩
  all_goals exact absurd hc hb

theorem Inv.preds_released (hs : plan.Inv s) (hzero : s.inDegree d = 0) :
    plan.dag.preds d ⊆ s.released := by
  rwa [hs.degree d, card_eq_zero, sdiff_eq_empty_iff_subset] at hzero

theorem Inv.preds_succeeded (hs : plan.Inv s) (hn : n ∈ s.handles) :
    plan.dag.preds n ⊆ s.succeeded := by
  have hf : s.inDegree n = 0 := by
    by_cases hr : n ∈ s.retired
    · exact (hs.place_free (x := .retired) ⟨hn, hr⟩).2
    · exact (hs.place_free (x := .running) ⟨hn, hr⟩).2
  intro p hp
  exact (hs.recorded p).succeeded (hs.preds_released hf hp)

theorem Inv.queue_lt_capacity (hs : plan.Inv s) {x : Place ν} (hd : s.At d x)
    (hx : x ≠ .queued) : s.queue.length < plan.capacity := by
  have hn : d ∉ s.queue := fun hme => hx (hs.place_unique hd (y := .queued) hme)
  have hsu : (d :: s.queue).toFinset ⊆ plan.dag.nodes := by
    intro m hm
    rcases mem_cons.mp (mem_toFinset.mp hm) with rfl | hm
    · exact (hs.place_free hd).1
    · exact (hs.place_free (x := .queued) hm).1
  have hc := card_le_card hsu
  rw [toFinset_card_of_nodup (nodup_cons.mpr ⟨hn, hs.queue_nodup⟩)] at hc
  simp only [length_cons] at hc
  unfold capacity
  omega

theorem Lively.retired_of_quiet (hl : plan.Lively s) (hs : plan.Inv s) (hac : plan.dag.Acyclic)
    (hba : ∀ n, (plan.deferred n).isSome → (plan.dag.preds n).Nonempty) (hqu : s.active = 0)
    (hmain : s.main.initial = ∅) : plan.dag.nodes ⊆ s.retired := by
  by_contra hle
  rw [← sdiff_eq_empty_iff_subset, ← ne_eq, ← nonempty_iff_ne_empty] at hle
  obtain ⟨n, hn, hf⟩ := hac.exists_first hle
  obtain ⟨hno, hr⟩ := mem_sdiff.mp hn
  have hpr : plan.dag.preds n ⊆ s.released := by
    intro p hp
    have he := plan.dag.mem_preds.mp hp
    have hp : p ∉ plan.dag.nodes \ s.retired := fun h => hf p h (.single he)
    have hp : p ∈ s.retired := by simpa [(plan.dag.closed he).1] using hp
    exact hs.released_of_retired hp
  have hz : s.inDegree n = 0 := by
    rw [hs.degree n, sdiff_eq_empty_iff_subset.mpr hpr, card_empty]
  have hro : plan.deferred n = none ∨ (plan.dag.preds n).Nonempty := by
    rcases hd : plan.deferred n with - | action
    · exact .inl rfl
    · exact .inr (hba n (by simp [hd]))
  obtain ⟨x, hx⟩ := hl.located hno hz hro
  have hc : x.counted = false := by
    by_contra hc
    exact hl.not_counted hqu n (State.mem_counted.mpr ⟨hno, x, by simpa using hc, hx⟩)
  cases x with
  | initial => simp [State.At, hmain] at hx
  | ready owner =>
    have ho := (hs.recorded owner).of_ready hx
    exact hl.active_ne_zero hs ho.1 ho.2 hqu
  | retired => exact hr hx.2
  | _ => simp [Place.counted] at hc

theorem executed_of_returned (h : (plan.executor failfast).Reachable s) (hac : plan.dag.Acyclic)
    (hba : ∀ n, (plan.deferred n).isSome → (plan.dag.preds n).Nonempty) (hmain : s.main = .returned)
    (hdone : ∀ n ∈ s.handles, s.phase n = .done (.ok ())) (hcl : s.callerCancelled = false)
    (hn : n ∈ plan.dag.nodes) : s.executed.count n = 1 := by
  have hs := inv_of_reachable h
  have hp : ∀ m, s.phase m = .idle ∨ s.phase m = .done (.ok ()) := by
    intro m
    by_cases hi : s.phase m = .idle
    · exact .inl hi
    · exact .inr (hdone m ((hs.started_iff m).mpr hi))
  have hf : ∀ m, (s.phase m).faulty = false := by
    intro m
    rcases hp m with hm | hm <;> simp [hm, Phase.faulty]
  have hc : s.cancelled = false := by
    by_contra hc
    have hcs := cancelled_of_reachable h (by simpa using hc)
    simp [hcl, hf] at hcs
  have hl := lively_of_reachable h ⟨hc, hf⟩
  have hq : s.active = 0 := hl.quiet (.inl (hl.late (by simp [hmain, MainPhase.late])))
  have hre := hl.retired_of_quiet hs hac hba hq (by simp [hmain, MainPhase.initial]) hn
  have hr := hs.recorded n
  rcases hp n with hm | hm
  · simp [Recorded, hm, hre] at hr
  · simp only [Recorded, hm] at hr
    exact count_eq_one_of_mem hs.executed_nodup hr.1

/-- Every interleaving starts each node at most once and after its
predecessors, never takes an in-degree below zero, never blocks a sender, and
executes every node when no node fails and the caller does not cancel. -/
theorem scheduler_correct (hacyclic : plan.dag.Acyclic)
    (hbarriers : ∀ n, (plan.deferred n).isSome → (plan.dag.preds n).Nonempty)
    (h : (plan.executor failfast).Reachable s) :
    s.handles.Nodup ∧ s.executed.Nodup ∧ (∀ n ∈ s.executed, n ∈ s.handles) ∧
      (∀ n ∈ s.handles, plan.dag.preds n ⊆ s.succeeded) ∧
      (∀ n, s.phase n = .publishing → ∀ d ∈ plan.dag.edges n, 0 < s.inDegree d) ∧
      (∀ n initial, s.main = .sendingInitial n initial → s.queue.length < plan.capacity) ∧
      (∀ n dep ready, s.phase n = .sending dep ready → s.queue.length < plan.capacity) ∧
      (s.main = .returned → (∀ n ∈ s.handles, s.phase n = .done (.ok ())) →
        s.callerCancelled = false → ∀ n ∈ plan.dag.nodes, s.executed.count n = 1) := by
  have hs := inv_of_reachable h
  refine ⟨hs.handles_nodup, hs.executed_nodup, ?_, fun n hn => hs.preds_succeeded hn, ?_, ?_, ?_,
    fun hmain hdone hcaller n hn =>
      executed_of_returned h hacyclic hbarriers hmain hdone hcaller hn⟩
  · intro n hn
    rw [hs.started_iff n]
    intro hidle
    have hrecorded := hs.recorded n
    simp [Recorded, hidle, hn] at hrecorded
  · intro n hphase d hd
    have hreleased : n ∉ s.released := by
      have hrecorded := hs.recorded n
      simp_all [Recorded]
    rw [hs.degree d]
    exact Finset.card_pos.mpr ⟨n, by simp [hd, hreleased]⟩
  · intro n initial hmain
    exact hs.queue_lt_capacity (d := n) (x := .sendingInitial)
      (by simp [State.At, hmain, MainPhase.outgoing]) (by simp)
  intro n dep ready hphase
  exact hs.queue_lt_capacity (d := dep) (x := .sending n)
    (by simp [State.At, hphase, Phase.outgoing]) (by simp)

/-! ## The loop over the queue never sleeps alone -/

/-- Whoever takes the counter to zero is about to stop the loop. -/
def Attended (plan : ExecutionPlan ν) (s : State ν) : Prop :=
  s.active = 0 → s.finished ∨ s.main.late ∨ (∃ n, s.phase n = .closing) ∨
    s.main.early ∧ (plan.initial = ∅ ∨ s.main.initial.Nonempty)

theorem Step.attended (h : plan.Step failfast s a s') (hs : plan.Inv s) (ha : plan.Attended s) :
    plan.Attended s' := by
  intro hz
  by_cases hb : s.active = 0
  · rcases ha hb with hf | hla | ⟨n, hn⟩ | hea
    · exact .inl (by cases h <;> simp_all)
    · exact .inr (.inl (by cases h <;> simp_all [MainPhase.late]))
    · rcases apart_or_node a n with hno | hnode
      · exact .inr (.inr (.inl ⟨n, (h.frame hno).1.trans hn⟩))
      cases h <;> obtain ⟨⟩ := hnode
      case receive queue hm hq => simp [hs.idle_of_queued (n := n) (by simp [hq])] at hn
      all_goals simp_all [MainPhase.late]
    · cases h <;> simp_all [MainPhase.early, MainPhase.initial]
  cases h
  case retireLast n hph hac => exact .inr (.inr (.inl ⟨n, by simp⟩))
  case retire n hph hac => exact absurd hz (by simp only; omega)
  all_goals exact absurd hz (by simp [hb])

theorem attended_of_reachable (h : (plan.executor failfast).Reachable s) : plan.Attended s := by
  apply h.invariant
  · simp [executor, init, Attended, MainPhase.early, MainPhase.initial, nonempty_iff_ne_empty, em]
  · exact fun _ _ _ hr ha hst => (Step.of_step hst).attended (inv_of_reachable hr) ha

/-- While nothing has failed and the queue is empty, a started node has not ended
yet, and it will wake the loop. -/
theorem no_lost_wakeup (h : (plan.executor failfast).Reachable s) (hs : Healthy s)
    (hmain : s.main = .processing) (hfinished : s.finished = false) (hqueue : s.queue = []) :
    ∃ n ∈ s.handles, (s.phase n).over = false := by
  have hinv := inv_of_reachable h
  by_contra hnone
  have hover : ∀ n, s.phase n ≠ .idle → (s.phase n).over := by
    intro n hn
    by_contra ho
    exact hnone ⟨n, (hinv.started_iff n).mpr hn, by simpa using ho⟩
  have hzero : s.active = 0 := by
    rw [← (lively_of_reachable h hs).counted_eq, card_eq_zero, eq_empty_iff_forall_notMem]
    intro d hd
    obtain ⟨-, x, hx, hat⟩ := State.mem_counted.mp hd
    cases x with
    | sending owner =>
      have ho := hover owner
      cases hp : s.phase owner <;> simp_all [State.At, Phase.outgoing, Phase.over]
    | running =>
      -- a node that has ended without a fault has left the counter
      have ho := hover d ((hinv.started_iff d).mp hat.1)
      have hf := hs.faultless d
      have hr := hinv.recorded d
      cases hp : s.phase d with
      | done result =>
        cases result with
        | error error => simp [hp, Phase.faulty] at hf
        | ok => simp_all [State.At, Recorded, hs.cancelled]
      | _ => simp_all [Phase.over, Phase.faulty]
    | _ => simp_all [State.At, Place.counted, MainPhase.outgoing]
  rcases attended_of_reachable h hzero with hf | hla | ⟨n, hn⟩ | hea
  · simp [hfinished] at hf
  · simp [hmain, MainPhase.late] at hla
  · simpa [hn, Phase.over] using hover n (by simp [hn])
  · simp [hmain, MainPhase.early] at hea

end ExecutionPlan

def barrierPlan : ExecutionPlan (Fin 2) where
  dag :=
    { nodes := Finset.univ
      edges := fun n => if n = 0 then {1} else ∅
      closed := by simp }
  deferred := fun n => if n = 1 then some ⟨0, [0]⟩ else none
  failfast := fun _ => false
  requiresConcurrencyPermit := fun n => n = 0
  bound := fun n => n = 0
  deferred_mem := by simp
  order_injective := by
    intro n m action action' hn hm _
    split at hn <;> split at hm <;> simp_all

theorem barrierPlan_acyclic : barrierPlan.dag.Acyclic := by
  have hl : ∀ a b, barrierPlan.dag.Before a b → a < b := by
    intro a b h
    apply Relation.TransGen.trans_induction_on (motive := fun {a b} _ => a < b) h
    · intro a b he
      revert a b
      decide
    · intro a b c _ _ hab hb
      exact hab.trans hb
  exact fun a ha => lt_irrefl a (hl a a ha)

def barrierRun : List (Action (Fin 2)) :=
  [.countInitial 0, .sendInitial, .startProcessing, .receive 0, .begin 0, .finish 0 (.ok ()),
    .check 0, .register 0, .decrement 0, .poll 0 1, .count 0, .send 0, .drain 0, .retire 0,
    .complete 0 true, .receive 1, .begin 1, .finish 1 (.ok ()), .check 1, .register 1,
    .decrement 1, .drain 1, .retire 1, .close 1, .complete 1 true, .stopReceiving, .join]

/-- The caller cancels after the command, so the barrier is not reached. -/
def cancelledRun : List (Action (Fin 2)) :=
  [.countInitial 0, .sendInitial, .startProcessing, .receive 0, .begin 0, .finish 0 (.ok ()),
    .check 0, .register 0, .decrement 0, .poll 0 1, .count 0, .send 0, .drain 0, .retire 0,
    .complete 0 true, .cancel, .stopReceiving, .join, .startCleanup [1], .sweep, .endCleanup]

/-- The caller cancels after the command has returned and before it is recorded. -/
def forgottenRun : List (Action (Fin 2)) :=
  [.countInitial 0, .sendInitial, .startProcessing, .receive 0, .begin 0, .finish 0 (.ok ()),
    .cancel, .check 0, .complete 0 true, .stopReceiving, .join, .startCleanup [1], .sweep,
    .endCleanup]

theorem exists_barrierRun : ∃ s, (barrierPlan.executor false).exec barrierRun barrierPlan.init =
    some s ∧ s.main = .returned ∧ s.handles = [0, 1] ∧ s.phase 0 = .done (.ok ()) ∧
      s.phase 1 = .done (.ok ()) ∧ s.callerCancelled = false :=
  ⟨_, rfl, rfl, rfl, rfl, rfl, rfl⟩

theorem scheduler_correct_barrierPlan :
    ∃ s, (barrierPlan.executor false).Reachable s ∧ s.main = .returned ∧
      s.executed.count 0 = 1 ∧ s.executed.count 1 = 1 := by
  obtain ⟨s, hexec, hmain, hhandles, h0, h1, hcaller⟩ := exists_barrierRun
  have hreach : (barrierPlan.executor false).Reachable s :=
    Machine.Reachable.exec ⟨[], .start⟩ hexec
  have hbarriers : ∀ n, (barrierPlan.deferred n).isSome → (barrierPlan.dag.preds n).Nonempty := by
    decide
  have hresult := ExecutionPlan.scheduler_correct barrierPlan_acyclic hbarriers hreach
  have hall := hresult.2.2.2.2.2.2.2 hmain (by simp [hhandles, h0, h1]) hcaller
  exact ⟨s, hreach, hmain, hall 0 (by decide), hall 1 (by decide)⟩

theorem no_lost_wakeup_barrierPlan : ∃ s, (barrierPlan.executor false).Reachable s ∧
    s.queue = [] ∧ ∃ n ∈ s.handles, (s.phase n).over = false := by
  have hexec : (barrierPlan.executor false).exec (barrierRun.take 4) barrierPlan.init =
    some _ := rfl
  have hreach := Machine.Reachable.exec ⟨[], .start⟩ hexec
  exact ⟨_, hreach, rfl,
    ExecutionPlan.no_lost_wakeup hreach ⟨rfl, by decide⟩ rfl rfl rfl⟩

end Octa.Scheduler
