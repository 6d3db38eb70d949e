import Octa.Scheduler.Steps

/-!
# Where a node is

A node of the plan is at no place before it is ready and at one place at a time
from then on: in the set of roots, in the ready set of the predecessor that
released it, in the queue, or started.
-/

namespace Octa.Scheduler

open Transition List
open Finset hiding erase_subset

inductive Place (ν : Type) where
  | initial
  | sendingInitial
  | ready (owner : ν)
  | sending (owner : ν)
  | queued
  | running
  | retired

/-- The places whose nodes are counted in `active_tasks`. -/
def Place.counted {ν : Type} : Place ν → Bool
  | .sendingInitial | .sending _ | .queued | .running => true
  | _ => false

variable {ν : Type}

def Phase.outgoing : Phase ν → Option ν
  | .sending dep _ => some dep
  | _ => none

def MainPhase.initial : MainPhase ν → Finset ν
  | .scheduling initial | .sendingInitial _ initial => initial
  | _ => ∅

def MainPhase.outgoing : MainPhase ν → Option ν
  | .sendingInitial node _ => some node
  | _ => none

def Recorded (s : State ν) (n : ν) : Prop :=
  match s.phase n with
  | .idle | .spawned =>
    n ∉ s.executed ∧ n ∉ s.succeeded ∧ n ∉ s.released ∧ n ∉ s.retired
  | .executing => n ∈ s.executed ∧ n ∉ s.succeeded ∧ n ∉ s.released ∧ n ∉ s.retired
  | .succeeded | .registering | .publishing =>
    n ∈ s.executed ∧ n ∈ s.succeeded ∧ n ∉ s.released ∧ n ∉ s.retired
  | .releasing _ | .counting _ _ | .sending _ _ | .retiring =>
    n ∈ s.executed ∧ n ∈ s.succeeded ∧ n ∈ s.released ∧ n ∉ s.retired
  | .closing => n ∈ s.executed ∧ n ∈ s.succeeded ∧ n ∈ s.released ∧ n ∈ s.retired
  | .failing _ | .reporting _ => n ∉ s.succeeded ∧ n ∉ s.released ∧ n ∉ s.retired
  | .completing (.ok ()) | .done (.ok ()) =>
    n ∈ s.executed ∧ n ∈ s.succeeded ∧ (n ∈ s.released ∧ n ∈ s.retired ∨ s.cancelled)
  | .completing (.error _) | .done (.error _) | .aborted => n ∈ s.released → n ∈ s.succeeded

theorem Recorded.congr {s s' : State ν} {m : ν} (hm : Recorded s m) (hph : s'.phase m = s.phase m)
    (hexec : m ∈ s'.executed ↔ m ∈ s.executed) (hsucc : m ∈ s'.succeeded ↔ m ∈ s.succeeded)
    (hre : m ∈ s'.released ↔ m ∈ s.released) (hrt : m ∈ s'.retired ↔ m ∈ s.retired)
    (hca : s.cancelled → s'.cancelled) : Recorded s' m := by
  unfold Recorded at hm ⊢
  rw [hph, hexec, hsucc, hre, hrt]
  split <;> simp_all <;> tauto

variable {n d : ν}

theorem Recorded.succeeded {s : State ν} (h : Recorded s n) (hn : n ∈ s.released) :
    n ∈ s.succeeded := by
  unfold Recorded at h
  split at h <;> simp_all

variable [DecidableEq ν]

def Phase.ready : Phase ν → Finset ν
  | .releasing ready => ready
  | .counting dep ready => insert dep ready
  | .sending _ ready => ready
  | _ => ∅

def State.At (s : State ν) (d : ν) : Place ν → Prop
  | .initial => d ∈ s.main.initial
  | .sendingInitial => s.main.outgoing = some d
  | .ready owner => d ∈ (s.phase owner).ready
  | .sending owner => (s.phase owner).outgoing = some d
  | .queued => d ∈ s.queue
  | .running => d ∈ s.handles ∧ d ∉ s.retired
  | .retired => d ∈ s.handles ∧ d ∈ s.retired

variable {q : Phase ν}

theorem forall_update_ready {f : ν → Phase ν} :
    (∀ p, (Function.update f n q p).ready = (f p).ready) ↔ q.ready = (f n).ready := by
  rw [Function.forall_update_iff f fun p r => r.ready = (f p).ready]
  simp

theorem forall_update_outgoing {f : ν → Phase ν} :
    (∀ p, (Function.update f n q p).outgoing = (f p).outgoing) ↔ q.outgoing = (f n).outgoing := by
  rw [Function.forall_update_iff f fun p r => r.outgoing = (f p).outgoing]
  simp

open Classical in
/-- The nodes counted in `active_tasks`. -/
noncomputable def State.counted (s : State ν) (nodes : Finset ν) : Finset ν :=
  nodes.filter fun d => ∃ x, x.counted ∧ s.At d x

theorem State.mem_counted {s : State ν} {nodes : Finset ν} :
    d ∈ s.counted nodes ↔ d ∈ nodes ∧ ∃ x, x.counted ∧ s.At d x := by
  simp [State.counted]

theorem card_eq_erase_add {S : Finset ν} {b : Bool} (h : n ∈ S ↔ b = true) :
    S.card = (S.erase n).card + b.toNat := by
  cases b with
  | false => simp [erase_eq_of_notMem (by simpa using h)]
  | true => simp [card_erase_add_one (by simpa using h)]

/-- A step that keeps every node at some place: it leaves all where they are,
moves one, or admits the nodes that became ready. -/
inductive Shift (nodes : Finset ν) (s s' : State ν) : Prop where
  | stay (hactive : s'.active = s.active) (hAt : ∀ d x, s'.At d x ↔ s.At d x)
  | move {n : ν} {x y : Place ν} (hn : s.At n x)
      (hactive : s.active + y.counted.toNat = s'.active + x.counted.toNat)
      (hAt : ∀ d z, s'.At d z ↔ d = n ∧ z = y ∨ d ≠ n ∧ s.At d z)
  | enter {n : ν} {ready : Finset ν} (hactive : s'.active = s.active)
      (hready : ∀ d ∈ ready, d ∈ nodes ∧ s'.inDegree d = 0 ∧ ∀ x, ¬s.At d x)
      (hAt : ∀ d x, s'.At d x ↔ s.At d x ∨ x = .ready n ∧ d ∈ ready)

def Action.Lossy (s : State ν) : Action ν → Prop
  | .stopReceiving | .abort _ | .unwind _ => True
  | .poll _ _ => s.finished = true
  | .send _ => s.receiving = false
  | _ => False

structure Lost (s s' : State ν) : Prop where
  active : s'.active = s.active
  sub : ∀ {d x}, s'.At d x → s.At d x

namespace Shift

variable {nodes : Finset ν} {s s' : State ν}

theorem of_silent (hac : s'.active = s.active) (hin : s'.main.initial = s.main.initial)
    (hmain : s'.main.outgoing = s.main.outgoing) (hqu : s'.queue = s.queue)
    (hha : s'.handles = s.handles) (hre : s'.retired = s.retired)
    (hrd : ∀ p, (s'.phase p).ready = (s.phase p).ready)
    (hou : ∀ p, (s'.phase p).outgoing = (s.phase p).outgoing) : Shift nodes s s' := by
  apply stay hac
  intro d x
  cases x <;> simp only [State.At, hin, hmain, hqu, hha, hre, hrd, hou]

variable {x y : Place ν}

theorem of_moved (huniq : ∀ {d x y}, s.At d x → s.At d y → x = y)
    (hn : s.At n x) (hac : s.active + y.counted.toNat = s'.active + x.counted.toNat)
    (hAt : ∀ d z, s'.At d z ↔ d = n ∧ z = y ∨ ¬(d = n ∧ z = x) ∧ s.At d z) : Shift nodes s s' := by
  apply move hn hac
  intro d z
  rw [hAt d z]
  by_cases hd : d = n
  · subst hd
    have hl : z ≠ x → ¬s.At d z := fun hz hAt => hz (huniq hAt hn)
    simp only [true_and, ne_eq, not_true_eq_false, false_and, or_false]
    tauto
  · simp [hd]

theorem place_unique (h : Shift nodes s s') (huniq : ∀ {d x y}, s.At d x → s.At d y → x = y)
    (hx : s'.At d x) (hy : s'.At d y) : x = y := by
  cases h with
  | stay ha hA => exact huniq ((hA d x).mp hx) ((hA d y).mp hy)
  | move hn ha hA =>
    rcases (hA d x).mp hx with ⟨hd, rfl⟩ | ⟨hd, hx⟩ <;>
      rcases (hA d y).mp hy with ⟨hd', rfl⟩ | ⟨hd', hy⟩
    · rfl
    · exact absurd hd hd'
    · exact absurd hd' hd
    · exact huniq hx hy
  | enter ha hr hA =>
    rcases (hA d x).mp hx with hx | ⟨rfl, hd⟩ <;> rcases (hA d y).mp hy with hy | ⟨rfl, hd'⟩
    · exact huniq hx hy
    · exact absurd hx ((hr d hd').2.2 x)
    · exact absurd hy ((hr d hd).2.2 y)
    · rfl

theorem place_free (h : Shift nodes s s')
    (hfree : ∀ {d x}, s.At d x → d ∈ nodes ∧ s'.inDegree d = 0)
    (hx : s'.At d x) : d ∈ nodes ∧ s'.inDegree d = 0 := by
  cases h with
  | stay ha hA => exact hfree ((hA d x).mp hx)
  | move hn ha hA =>
    rcases (hA d x).mp hx with ⟨rfl, -⟩ | ⟨-, hx⟩
    · exact hfree hn
    · exact hfree hx
  | enter ha hr hA =>
    rcases (hA d x).mp hx with hx | ⟨-, hd⟩
    · exact hfree hx
    · exact ⟨(hr d hd).1, (hr d hd).2.1⟩

theorem card_counted (h : Shift nodes s s') (huniq : ∀ {d x y}, s.At d x → s.At d y → x = y)
    (hno : ∀ {d x}, s.At d x → d ∈ nodes) :
    (s'.counted nodes).card + s.active = (s.counted nodes).card + s'.active := by
  cases h with
  | stay ha hAt =>
    have hs : s'.counted nodes = s.counted nodes := by
      ext d
      simp [State.mem_counted, hAt]
    rw [hs, ha]
  | @move n x y hn ha hAt =>
    have hnd := hno hn
    have hb : n ∈ s.counted nodes ↔ x.counted := by
      rw [State.mem_counted]
      constructor
      · rintro ⟨-, z, hz, hA⟩
        rwa [huniq hn hA]
      · intro hx
        exact ⟨hnd, x, hx, hn⟩
    have haf : n ∈ s'.counted nodes ↔ y.counted := by
      simp [State.mem_counted, hAt, hnd]
    have hr : (s'.counted nodes).erase n = (s.counted nodes).erase n := by
      ext d
      by_cases hd : d = n <;> simp [State.mem_counted, hAt, hd]
    have hcr := card_eq_erase_add hb
    have hc := card_eq_erase_add haf
    rw [hr] at hc
    omega
  | @enter n ready ha hrd hAt =>
    have hs : s'.counted nodes = s.counted nodes := by
      ext d
      have hnw : ¬(∃ x : Place ν, x.counted ∧ x = .ready n ∧ d ∈ ready) := by
        rintro ⟨-, hco, rfl, -⟩
        cases hco
      simp only [State.mem_counted, hAt]
      constructor
      · rintro ⟨hd, x, hx, ho | had⟩
        · exact ⟨hd, x, hx, ho⟩
        · exact absurd ⟨x, hx, had⟩ hnw
      · rintro ⟨hd, x, hx, ho⟩
        exact ⟨hd, x, hx, .inl ho⟩
    rw [hs, ha]

end Shift

theorem Lost.of_sub {s s' : State ν} (hac : s'.active = s.active)
    (hin : s'.main.initial ⊆ s.main.initial) (hmain : s'.main.outgoing = s.main.outgoing)
    (hqu : s'.queue ⊆ s.queue) (hha : s'.handles = s.handles) (hre : s'.retired = s.retired)
    (hrd : ∀ p, (s'.phase p).ready ⊆ (s.phase p).ready) (hou : ∀ p, (s'.phase p).outgoing = none ∨
      (s'.phase p).outgoing = (s.phase p).outgoing) : Lost s s' := by
  refine ⟨hac, ?_⟩
  intro d x hx
  cases x with
  | initial => exact hin hx
  | queued => exact hqu hx
  | ready owner => exact hrd owner hx
  | sending owner =>
    rcases hou owner with hn | hs
    · simp [State.At, hn] at hx
    · simpa only [State.At, hs] using hx
  | _ => simpa only [State.At, hmain, hha, hre] using hx

theorem Lost.counted_subset {s s' : State ν} (h : Lost s s') (nodes : Finset ν) :
    s'.counted nodes ⊆ s.counted nodes := by
  intro d hd
  obtain ⟨hn, x, hx, hA⟩ := State.mem_counted.mp hd
  exact State.mem_counted.mpr ⟨hn, x, hx, h.sub hA⟩

namespace ExecutionPlan

variable (plan : ExecutionPlan ν)

structure Inv (s : State ν) : Prop where
  recorded : ∀ n, Recorded s n
  released_of_retired : s.retired ⊆ s.released
  started_iff : ∀ n, n ∈ s.handles ↔ s.phase n ≠ .idle
  handles_nodup : s.handles.Nodup
  executed_nodup : s.executed.Nodup
  queue_nodup : s.queue.Nodup
  degree : ∀ d, s.inDegree d = (plan.dag.preds d \ s.released).card
  counting_fresh : ∀ {p d ready}, s.phase p = .counting d ready → d ∉ ready
  place_unique : ∀ {d x y}, s.At d x → s.At d y → x = y
  place_free : ∀ {d x}, s.At d x → d ∈ plan.dag.nodes ∧ s.inDegree d = 0
  counted_le : (s.counted plan.dag.nodes).card ≤ s.active

variable {plan} {failfast : Bool} {s s' : State ν} {a : Action ν}

theorem Step.cancelled (h : plan.Step failfast s a s') (hs : s.cancelled) : s'.cancelled := by
  cases h <;> simp_all

theorem Inv.idle_of_queued (hs : plan.Inv s) (hn : n ∈ s.queue) : s.phase n = .idle := by
  by_contra hph
  have hsd := (hs.started_iff n).mpr hph
  have hq : s.At n .queued := hn
  by_cases hr : n ∈ s.retired
  · have hp := hs.place_unique hq (y := .retired) ⟨hsd, hr⟩
    cases hp
  · have hp := hs.place_unique hq (y := .running) ⟨hsd, hr⟩
    cases hp

theorem Step.recorded (h : plan.Step failfast s a s') (hs : plan.Inv s) (m : ν) :
    Recorded s' m := by
  have hm := hs.recorded m
  rcases apart_or_node a m with hno | hn
  · obtain ⟨hp, -, he, hsu, hr, hrt⟩ := h.frame hno
    exact hm.congr hp he hsu hr hrt h.cancelled
  cases h <;> obtain ⟨⟩ := hn
  case receive queue hma hq =>
    have hi := hs.idle_of_queued (n := m) (by simp [hq])
    simp_all [Recorded]
  case abort => simpa [Recorded] using hm.succeeded
  all_goals simp_all [Recorded]

section

variable (hs : plan.Inv s)
include hs

theorem successor_not_at (hn : n ∉ s.released)
    (hd : d ∈ plan.dag.edges n) (x : Place ν) : ¬s.At d x := by
  intro hx
  have hz := (hs.place_free hx).2
  rw [hs.degree d, card_eq_zero, sdiff_eq_empty_iff_subset] at hz
  exact hn (hz ((plan.dag.mem_preds).mpr hd))

theorem Inv.active_pos {x : Place ν} (hn : s.At n x)
    (hx : x.counted) : 0 < s.active := by
  have hm : n ∈ s.counted plan.dag.nodes := by
    exact State.mem_counted.mpr ⟨(hs.place_free hn).1, x, hx, hn⟩
  have hp := card_pos.mpr ⟨n, hm⟩
  exact hp.trans_le hs.counted_le

theorem shift_countInitial {initial : Finset ν}
    (hmain : s.main = .scheduling initial) (hn : n ∈ initial) : Shift plan.dag.nodes s { s with
      main := .sendingInitial n (initial.erase n), active := s.active + 1 } := by
  have hx : s.At n .initial := by simpa [State.At, hmain, MainPhase.initial]
  apply Shift.of_moved hs.place_unique hx (y := .sendingInitial) (by simp [Place.counted])
  intro d z
  cases z <;> simp [State.At, hmain, MainPhase.initial, MainPhase.outgoing, eq_comm]

theorem shift_sendInitial {initial : Finset ν}
    (hmain : s.main = .sendingInitial n initial) :
    Shift plan.dag.nodes s { s with main := .scheduling initial, queue := s.queue ++ [n] } := by
  have hx : s.At n .sendingInitial := by simp [State.At, hmain, MainPhase.outgoing]
  apply Shift.of_moved hs.place_unique hx (y := .queued) (by simp [Place.counted])
  intro d z
  cases z <;> simp [State.At, hmain, MainPhase.initial, MainPhase.outgoing, eq_comm, or_comm]

theorem shift_receive {queue : List ν} (hqu : s.queue = n :: queue) :
    Shift plan.dag.nodes s { s.at n .spawned with queue := queue, handles :=
        s.handles ++ [n] } := by
  have hx : s.At n .queued := by simp [State.At, hqu]
  have hi := hs.idle_of_queued hx
  have hsd : n ∉ s.handles := by simp [hs.started_iff n, hi]
  have hr : n ∉ s.retired := by
    have hn := hs.recorded n
    simp_all [Recorded]
  have hno := hs.queue_nodup
  rw [hqu, nodup_cons] at hno
  apply Shift.of_moved hs.place_unique hx (y := .running) (by simp [Place.counted])
  intro d z
  cases z with
  | ready owner => rcases eq_or_ne owner n with rfl | ho <;> simp [State.At, Phase.ready, *]
  | sending owner => rcases eq_or_ne owner n with rfl | ho <;> simp [State.At, Phase.outgoing, *]
  | queued | running | retired => rcases eq_or_ne d n with rfl | hd <;> simp [State.At, *]
  | _ => simp [State.At]

end

variable {ready : Finset ν}

theorem shift_count {dep : ν} (hs : plan.Inv s) (hph : s.phase n = .counting dep ready) :
    Shift plan.dag.nodes s { s.at n (.sending dep ready) with active := s.active + 1 } := by
  have hx : s.At dep (.ready n) := by simp [State.At, hph, Phase.ready]
  have hf := hs.counting_fresh hph
  apply Shift.of_moved hs.place_unique hx (y := .sending n) (by simp [Place.counted])
  intro d z
  cases z with
  | ready owner =>
    rcases eq_or_ne owner n with rfl | ho
    · rcases eq_or_ne d dep with rfl | hd <;> simp [State.At, Phase.ready, *]
    · simp [State.At, ho]
  | sending owner =>
    rcases eq_or_ne owner n with rfl | ho
    · simp [State.At, Phase.outgoing, hph, eq_comm]
    · simp [State.At, ho]
  | _ => simp [State.At]

theorem shift_send {dep : ν} (hs : plan.Inv s) (hph : s.phase n = .sending dep ready) :
    Shift plan.dag.nodes s { s.at n (.releasing ready) with queue := s.queue ++ [dep] } := by
  have hx : s.At dep (.sending n) := by simp [State.At, hph, Phase.outgoing]
  apply Shift.of_moved hs.place_unique hx (y := .queued) (by simp [Place.counted])
  intro d z
  cases z with
  | ready owner => rcases eq_or_ne owner n with rfl | ho <;> simp [State.At, Phase.ready, *]
  | sending owner =>
    rcases eq_or_ne owner n with rfl | ho
    · simp [State.At, Phase.outgoing, hph, eq_comm]
    · simp [State.At, ho]
  | queued => simp [State.At, or_comm]
  | _ => simp [State.At]

theorem shift_retire (hs : plan.Inv s) (hph : s.phase n = .retiring)
    (hrd : q.ready = ∅) (hou : q.outgoing = none) :
    Shift plan.dag.nodes s
      { s.at n q with active := s.active - 1, retired := insert n s.retired } := by
  have hsd : n ∈ s.handles := by simp [hs.started_iff n, hph]
  have hr : n ∉ s.retired := by
    have hn := hs.recorded n
    simp_all [Recorded]
  have hr₀ : (s.phase n).ready = ∅ := by simp [hph, Phase.ready]
  have ho₀ : (s.phase n).outgoing = none := by simp [hph, Phase.outgoing]
  have hx : s.At n .running := ⟨hsd, hr⟩
  have hp := hs.active_pos hx rfl
  clear hph
  apply Shift.of_moved hs.place_unique hx (y := .retired) (by simp [Place.counted]; omega)
  intro d z
  cases z with
  | ready owner | sending owner => rcases eq_or_ne owner n with rfl | ho <;> simp [State.At, *]
  | running | retired => rcases eq_or_ne d n with rfl | hd <;> simp [State.At, *]
  | _ => simp [State.At]

theorem lost_stopReceiving (hmain : s.main = .processing) :
    Lost s { s with main := .joining s.callerCancelled, receiving := false, queue := [] } := by
  apply Lost.of_sub <;> simp [hmain, MainPhase.initial, MainPhase.outgoing]

theorem lost_at (hrd : q.ready ⊆ (s.phase n).ready)
    (hou : q.outgoing = none) : Lost s (s.at n q) := by
  refine Lost.of_sub rfl (fun _ h => h) rfl (fun _ h => h) rfl rfl ?_ ?_
  · intro p
    rcases eq_or_ne p n with rfl | hp <;> simp [*]
  · intro p
    rcases eq_or_ne p n with rfl | hp <;> simp [*]

theorem shift_poll {dep : ν} (hph : s.phase n = .releasing ready)
    (hdep : dep ∈ ready) : Shift plan.dag.nodes s (s.at n (.counting dep (ready.erase dep))) := by
  refine Shift.of_silent rfl rfl rfl rfl rfl rfl ?_ ?_
  · exact forall_update_ready.mpr (by simp [hph, Phase.ready, insert_erase hdep])
  · exact forall_update_outgoing.mpr (by simp [hph, Phase.outgoing])

theorem shift_decrement (hs : plan.Inv s) (hph : s.phase n = .publishing) :
    Shift plan.dag.nodes s { s.at n (.releasing (plan.newlyReady s.inDegree n)) with
      inDegree := plan.decremented s.inDegree n, released := insert n s.released } := by
  have hr : n ∉ s.released := by
    have hn := hs.recorded n
    simp_all [Recorded]
  have hrd : ∀ d ∈ plan.newlyReady s.inDegree n, d ∈ plan.dag.nodes ∧
      plan.decremented s.inDegree n d = 0 ∧ ∀ x, ¬s.At d x := by
    intro d hd
    obtain ⟨he, hz⟩ := mem_filter.mp hd
    refine ⟨(plan.dag.closed he).2, ?_, successor_not_at hs hr he⟩
    simp [decremented, he, hz]
  refine Shift.enter (n := n) rfl hrd ?_
  · intro d x
    cases x with
    | ready owner => rcases eq_or_ne owner n with rfl | ho <;> simp [State.At, Phase.ready, *]
    | sending owner => rcases eq_or_ne owner n with rfl | ho <;> simp [State.At, Phase.outgoing, *]
    | _ => simp [State.At]

section

variable (h : plan.Step failfast s a s')
include h

theorem Step.shift (hs : plan.Inv s) : Shift plan.dag.nodes s s' ∨ a.Lossy s ∧ Lost s s' := by
  cases h
  case countInitial hm hn => exact .inl (shift_countInitial hs hm hn)
  case sendInitial hm hr => exact .inl (shift_sendInitial hs hm)
  case receive hm hq => exact .inl (shift_receive hs hq)
  case stopReceiving hm hst => exact .inr ⟨trivial, lost_stopReceiving hm⟩
  case abort => exact .inr ⟨trivial, lost_at (by simp [Phase.ready]) rfl⟩
  case decrement hp => exact .inl (shift_decrement hs hp)
  case drop hp hd hf =>
    exact .inr ⟨hf, lost_at (by simp [hp, Phase.ready, Finset.erase_subset]) rfl⟩
  case poll hp hd hf => exact .inl (shift_poll hp hd)
  case count hp => exact .inl (shift_count hs hp)
  case send hp ho hr => exact .inl (shift_send hs hp)
  case sendClosed hp hc => exact .inr ⟨hc, lost_at (by simp [Phase.ready]) rfl⟩
  case retireLast hp ha => exact .inl (shift_retire hs hp rfl rfl)
  case retire hp ha => exact .inl (shift_retire hs hp rfl rfl)
  case unwind => exact .inr ⟨trivial, lost_at (by simp [Phase.ready]) rfl⟩
  all_goals
    refine .inl (Shift.of_silent rfl ?_ ?_ rfl rfl rfl ?_ ?_)
    · simp_all [MainPhase.initial]
    · simp_all [MainPhase.outgoing]
    · first
      | exact fun _ => rfl
      | exact forall_update_ready.mpr (by simp_all [Phase.ready])
    · first
      | exact fun _ => rfl
      | exact forall_update_outgoing.mpr (by simp_all [Phase.outgoing])

theorem Step.started_iff (hs : plan.Inv s) (m : ν) : m ∈ s'.handles ↔ s'.phase m ≠ .idle := by
  have hm := hs.started_iff m
  rcases apart_or_node a m with hno | hn
  · obtain ⟨hp, hh, -⟩ := h.frame hno
    rw [hh, hp, hm]
  cases h <;> obtain ⟨⟩ := hn
  all_goals simp_all

theorem Step.queue_nodup (hs : plan.Inv s) : s'.queue.Nodup := by
  have hno := hs.queue_nodup
  have hu : ∀ {d x}, s.At d x → x ≠ .queued → d ∉ s.queue :=
    fun hx hne hd => hne (hs.place_unique hx hd)
  cases h
  case sendInitial n initial hm hr =>
    have hn : n ∉ s.queue :=
      hu (x := .sendingInitial) (by simp [State.At, hm, MainPhase.outgoing]) (by simp)
    exact hno.append (nodup_singleton _) (by simpa using hn)
  case send n dep ready hp ho hr =>
    have hn : dep ∉ s.queue :=
      hu (x := .sending n) (by simp [State.At, hp, Phase.outgoing]) (by simp)
    exact hno.append (nodup_singleton _) (by simpa using hn)
  case receive hq => simp_all
  all_goals simp_all

theorem Step.degree (hs : plan.Inv s) (d : ν) :
    s'.inDegree d = (plan.dag.preds d \ s'.released).card := by
  have hd := hs.degree d
  cases h
  case decrement n hp =>
    have hn : n ∉ s.released := by
      have hr := hs.recorded n
      simp_all [Recorded]
    simp only [decremented, sdiff_insert]
    by_cases he : d ∈ plan.dag.edges n
    · have hm : n ∈ plan.dag.preds d \ s.released := by simp [he, hn]
      rw [if_pos he, hd, card_erase_of_mem hm]
    · have hm : n ∉ plan.dag.preds d \ s.released := by simp [he]
      rw [if_neg he, hd, erase_eq_of_notMem hm]
  all_goals exact hd

theorem Step.inDegree_le (d : ν) : s'.inDegree d ≤ s.inDegree d := by
  cases h
  case decrement n hp =>
    simp only [decremented]
    split <;> omega
  all_goals exact le_rfl

theorem Step.counting_fresh (hs : plan.Inv s) {p : ν}
    (hp : s'.phase p = .counting d ready) : d ∉ ready := by
  rcases apart_or_node a p with hno | hn
  · rw [(h.frame hno).1] at hp
    exact hs.counting_fresh hp
  cases h <;> obtain ⟨⟩ := hn
  all_goals simp_all
  obtain ⟨rfl, rfl⟩ := hp
  exact notMem_erase _ _

theorem Step.lists_nodup (hs : plan.Inv s) : s'.handles.Nodup ∧ s'.executed.Nodup := by
  have hh := hs.handles_nodup
  have he := hs.executed_nodup
  cases h
  case receive n queue hm hq =>
    have hi := hs.idle_of_queued (n := n) (by simp [hq])
    have hn : n ∉ s.handles := by simp [hs.started_iff n, hi]
    exact ⟨hh.append (nodup_singleton _) (by simpa using hn), he⟩
  case begin n hp =>
    have hn : n ∉ s.executed := by
      have hr := hs.recorded n
      simp_all [Recorded]
    exact ⟨hh, he.append (nodup_singleton _) (by simpa using hn)⟩
  all_goals exact ⟨hh, he⟩

theorem Step.released_of_retired (hs : plan.Inv s) : s'.retired ⊆ s'.released := by
  have hsu := hs.released_of_retired
  have hm : ∀ n, s.phase n = .retiring → insert n s.retired ⊆ s.released := by
    intro n hp
    have hr := hs.recorded n
    simp_all [Recorded, insert_subset_iff]
  cases h
  case decrement => exact hsu.trans (subset_insert _ _)
  case retireLast hp ha => exact hm _ hp
  case retire hp ha => exact hm _ hp
  all_goals exact hsu

theorem Step.inv (hs : plan.Inv s) : plan.Inv s' := by
  have hf : ∀ {d x}, s.At d x → d ∈ plan.dag.nodes ∧ s'.inDegree d = 0 := by
    intro d x hx
    obtain ⟨hd, hz⟩ := hs.place_free hx
    exact ⟨hd, by have := h.inDegree_le d; omega⟩
  have hpl : (∀ {d x y}, s'.At d x → s'.At d y → x = y) ∧
      (∀ {d x}, s'.At d x → d ∈ plan.dag.nodes ∧ s'.inDegree d = 0) ∧
      (s'.counted plan.dag.nodes).card ≤ s'.active := by
    have hle := hs.counted_le
    rcases h.shift hs with hsh | ⟨-, hl⟩
    · have hc := hsh.card_counted hs.place_unique fun hx => (hs.place_free hx).1
      exact ⟨hsh.place_unique hs.place_unique, hsh.place_free hf, by omega⟩
    have hc := card_le_card (hl.counted_subset plan.dag.nodes)
    refine ⟨fun hx hy => hs.place_unique (hl.sub hx) (hl.sub hy), fun hx => hf (hl.sub hx), ?_⟩
    rw [hl.active]
    exact hc.trans hle
  obtain ⟨hu, hp, hco⟩ := hpl
  obtain ⟨hh, he⟩ := h.lists_nodup hs
  exact ⟨h.recorded hs, h.released_of_retired hs, h.started_iff hs, hh, he,
    h.queue_nodup hs, h.degree hs, h.counting_fresh hs, hu, hp, hco⟩

end

theorem inv_init : plan.Inv plan.init := by
  have hA : ∀ {d x}, plan.init.At d x → d ∈ plan.initial ∧ x = .initial := by
    intro d x hx
    cases x <;> simp_all [State.At, init, MainPhase.initial, MainPhase.outgoing, Phase.ready,
      Phase.outgoing]
  have hc : plan.init.counted plan.dag.nodes = ∅ := by
    ext d
    simp only [State.mem_counted, notMem_empty, iff_false]
    rintro ⟨-, x, hx, hd⟩
    obtain ⟨-, rfl⟩ := hA hd
    cases hx
  refine ⟨?_, ?_, ?_, ?_, ?_, ?_, ?_, ?_, ?_, ?_, ?_⟩
  case refine_9 =>
    intro d x y hx hy
    rw [(hA hx).2, (hA hy).2]
  case refine_10 =>
    intro d x hx
    obtain ⟨hd, hr⟩ := mem_filter.mp (hA hx).1
    exact ⟨hd, hr.2⟩
  case refine_11 => simp [hc]
  all_goals simp [init, Recorded]

theorem inv_of_reachable (h : (plan.executor failfast).Reachable s) : plan.Inv s := by
  apply h.invariant inv_init
  intro s a s' _ hs hst
  exact (Step.of_step hst).inv hs

end ExecutionPlan

end Octa.Scheduler
