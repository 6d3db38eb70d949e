import Octa.Dag.Dag
import Octa.Foundation.Fallible

/-!
# Cycles and linear graphs

The loops of the graph with every lookup and subtraction that can fail.  The lists of a graph
stand in the order in which its hash tables are iterated.
-/

namespace Octa.Dag

open List Fallible

inductive SortFault (ν : Type) where
  | nodeNotFound (id : ν)
  | underflow (id : ν)
  | unfinished

namespace DAG

variable {τ ν : Type} [Identifiable τ ν] [DecidableEq ν]

def getDegree (table : ν → Option ℕ) (id : ν) : Except (SortFault ν) ℕ :=
  (table id).elim (.error (.nodeNotFound id)) .ok

def countEdge (table : ν → Option ℕ) (edge : ν × ν) : Except (SortFault ν) (ν → Option ℕ) := do
  let count ← getDegree table edge.2
  return Function.update table edge.2 (some (count + 1))

def decrement (table : ν → Option ℕ) (id : ν) : Except (SortFault ν) ℕ := do
  match ← getDegree table id with
  | 0 => throw (.underflow id)
  | count + 1 => return count

def release : List ν → List ν → (ν → Option ℕ) → Except (SortFault ν) (List ν × (ν → Option ℕ))
  | [], queue, table => .ok (queue, table)
  | dep :: deps, queue, table => do
    let count ← decrement table dep
    release deps (if count = 0 then dep :: queue else queue)
      (Function.update table dep (some count))

def readyNodes (table : ν → Option ℕ) : List ν → Except (SortFault ν) (List ν)
  | [] => .ok []
  | id :: ids => do
    let count ← getDegree table id
    let ready ← readyNodes table ids
    return if count = 0 then id :: ready else ready

variable (dag : DAG τ ν)

def inDegreeTable : Except (SortFault ν) (ν → Option ℕ) :=
  dag.edges.foldlM countEdge fun id => if id ∈ dag.ids then some 0 else none

def sortLoop : ℕ → List ν → (ν → Option ℕ) → ℕ → Except (SortFault ν) Bool
  | _, [], _, visited => .ok (visited ≠ dag.nodeCount)
  | 0, _ :: _, _, _ => .error .unfinished
  | fuel + 1, node :: queue, table, visited => do
    let released ← release (dag.dependants node) queue table
    sortLoop fuel released.1 released.2 (visited + 1)

/-- `has_cycle`; a round visits one node, so there are no more rounds than nodes. -/
def tryHasCycle : Except (SortFault ν) Bool := do
  let table ← dag.inDegreeTable
  dag.sortLoop dag.nodeCount (← readyNodes table dag.ids) table 0

def linearLoop : ℕ → List ν → (ν → Option ℕ) → ℕ → Except (SortFault ν) Bool
  | _, [], _, visited => .ok (visited = dag.nodeCount)
  | _, _ :: _ :: _, _, _ => .ok false
  | 0, [_], _, _ => .error .unfinished
  | fuel + 1, [node], table, visited => do
    let released ← release (dag.dependants node) [] table
    linearLoop fuel released.1 released.2 (visited + 1)

def isLinear : Except (SortFault ν) Bool := do
  let table ← dag.inDegreeTable
  dag.linearLoop dag.nodeCount (← readyNodes table dag.ids) table 0

/-- Every node stands behind all nodes it depends on. -/
def TopologicalOrder (order : List ν) : Prop :=
  order.Perm dag.ids ∧ ∀ before n after, order = before ++ n :: after →
    ∀ p, dag.Edge p n → p ∈ before

variable {dag} {visited queue : List ν} {inDegree : ν → ℕ} {table : ν → Option ℕ}
  {q : ν}

/-! ## The table of degrees -/

/-- The table holds the degrees of all nodes. -/
def Holds (dag : DAG τ ν) (table : ν → Option ℕ) (inDegree : ν → ℕ) : Prop :=
  ∀ n ∈ dag.ids, table n = some (inDegree n)

variable {n a b : ν}

omit [DecidableEq ν] in
theorem Holds.get (h : dag.Holds table inDegree) (hn : n ∈ dag.ids) :
    getDegree table n = .ok (inDegree n) := by
  rw [getDegree, h n hn]
  rfl

theorem Holds.update (h : dag.Holds table inDegree) (n : ν) (count : ℕ) :
    dag.Holds (Function.update table n (some count)) (Function.update inDegree n count) := by
  intro m hm
  by_cases hmn : m = n
  · rw [hmn, Function.update_self, Function.update_self]
  · rw [Function.update_of_ne hmn, Function.update_of_ne hmn, h m hm]

theorem countEdges_ok {edges : List (ν × ν)} (hin : ∀ edge ∈ edges, edge.2 ∈ dag.ids)
    (h : dag.Holds table inDegree) : ∃ table', edges.foldlM countEdge table = .ok table' ∧
      ∀ n ∈ dag.ids, table' n = some (inDegree n + edges.countP fun edge => edge.2 = n) := by
  induction edges generalizing table inDegree with
  | nil => exact ⟨table, rfl, h⟩
  | cons edge edges ih =>
    obtain ⟨he, hin⟩ := forall_mem_cons.mp hin
    obtain ⟨table', hr, hh⟩ := ih hin (h.update edge.2 (inDegree edge.2 + 1))
    refine ⟨table', ?_, fun n hn => ?_⟩
    · rw [foldlM_cons, countEdge, h.get he]
      exact hr
    rw [hh n hn, countP_cons]
    by_cases hne : n = edge.2
    · subst hne
      simp only [Function.update_self, decide_true, if_true]
      congr 1
      omega
    · simp [hne, Ne.symm hne]

theorem inDegreeTable_ok (dag : DAG τ ν) : ∃ table, dag.inDegreeTable = .ok table ∧
    dag.Holds table dag.calculateInDegrees := by
  have hz : dag.Holds (fun id => if id ∈ dag.ids then some 0 else none) fun _ => 0 :=
    fun n hn => if_pos hn
  obtain ⟨table, hr, hh⟩ := countEdges_ok (fun edge h => (dag.closed edge h).2) hz
  exact ⟨table, hr, fun n hn => (hh n hn).trans (congrArg some (Nat.zero_add _))⟩

omit [DecidableEq ν] in
theorem Holds.ready (h : dag.Holds table inDegree) {ids : List ν} (hin : ids ⊆ dag.ids) :
    readyNodes table ids = .ok (ids.filter fun n => inDegree n = 0) := by
  induction ids with
  | nil => rfl
  | cons id ids ih =>
    obtain ⟨hi, hin⟩ := cons_subset.mp hin
    have hr : readyNodes table (id :: ids) = .ok (if inDegree id = 0 then
        id :: ids.filter fun n => inDegree n = 0 else ids.filter fun n => inDegree n = 0) := by
      rw [readyNodes, h.get hi, ih hin]
      rfl
    rw [hr, filter_cons]
    by_cases hz : inDegree id = 0 <;> simp [hz]

theorem Holds.release (h : dag.Holds table inDegree) {deps : List ν} (hdeps : deps.Nodup)
    (hin : deps ⊆ dag.ids) (hpos : ∀ n ∈ deps, inDegree n ≠ 0) (queue : List ν) :
    ∃ table', DAG.release deps queue table =
        .ok ((releaseDependants deps queue inDegree).1, table') ∧
      dag.Holds table' (releaseDependants deps queue inDegree).2 := by
  induction deps generalizing queue table inDegree with
  | nil => exact ⟨table, rfl, h⟩
  | cons dep deps ih =>
    obtain ⟨hd, hin⟩ := cons_subset.mp hin
    obtain ⟨hnw, hdeps⟩ := nodup_cons.mp hdeps
    obtain ⟨hf, hpos⟩ := forall_mem_cons.mp hpos
    obtain ⟨count, hc⟩ := Nat.exists_eq_succ_of_ne_zero hf
    have hr : ∀ n ∈ deps, Function.update inDegree dep count n ≠ 0 := by
      intro n hn
      rw [Function.update_of_ne (ne_of_mem_of_not_mem hn hnw)]
      exact hpos n hn
    have hde : decrement table dep = .ok count := by
      rw [decrement, h.get hd, hc]
      rfl
    rw [DAG.release, hde, releaseDependants, hc]
    exact ih (h.update dep count) hdeps hin hr _

/-! ## Visited nodes -/

/-- Visited nodes, the last one first, each behind all nodes it depends on. -/
def Settled (dag : DAG τ ν) (visited : List ν) : Prop :=
  ∀ after n before, visited = after ++ n :: before → ∀ p, dag.Edge p n → p ∈ before

omit [DecidableEq ν] in
theorem topologicalOrder_iff {order : List ν} :
    dag.TopologicalOrder order ↔ order.Perm dag.ids ∧ dag.Settled order.reverse := by
  refine and_congr_right fun _ => ⟨fun h after n before he => ?_, fun h before n after he => ?_⟩
  · have hm := h before.reverse n after.reverse (by rw [← reverse_reverse order, he]; simp)
    simpa using hm
  · have hm := h after.reverse n before.reverse (by rw [he]; simp)
    simpa using hm

omit [DecidableEq ν] in
theorem Settled.cons (h : dag.Settled visited) (hq : ∀ p, dag.Edge p q → p ∈ visited) :
    dag.Settled (q :: visited) := by
  intro after n before he
  cases after with
  | nil =>
    obtain ⟨rfl, rfl⟩ := cons.inj he
    exact hq
  | cons first after =>
    obtain ⟨-, he⟩ := cons.inj he
    exact h after n before he

omit [DecidableEq ν] in
/-- Everything before a visited node stands behind it in the list. -/
theorem Settled.before (h : dag.Settled visited) (hab : dag.Before a b)
    (hb : b ∈ visited) : ∃ after before, visited = after ++ b :: before ∧ a ∈ before := by
  induction hab generalizing visited with
  | single hed =>
    obtain ⟨after, before, he⟩ := append_of_mem hb
    exact ⟨after, before, he, h after _ before he _ hed⟩
  | @tail c b _ hed ih =>
    obtain ⟨after, before, he⟩ := append_of_mem hb
    have hs : dag.Settled before := by
      intro after' n before' he'
      exact h (after ++ b :: after') n before' (by rw [he, he']; simp)
    obtain ⟨after', before', hsp, ha⟩ := ih hs (h after _ before he _ hed)
    exact ⟨after, before, he, hsp ▸ mem_append_right _ (mem_cons_of_mem _ ha)⟩

omit [DecidableEq ν] in
theorem Settled.acyclic (h : dag.Settled visited) (hnodup : visited.Nodup)
    (hall : dag.ids ⊆ visited) : dag.Acyclic := by
  intro a ha
  obtain ⟨b, -, he⟩ := (Relation.TransGen.tail'_iff).mp ha
  obtain ⟨after, before, rfl, hb⟩ := h.before ha (hall he.mem_ids.2)
  exact (nodup_cons.mp (nodup_append.mp hnodup).2.1).1 hb

namespace Sorting

section

variable (h : Sorting dag visited queue inDegree)
include h

theorem nodup : visited.Nodup := (nodup_append.mp h.distinct).2.1

theorem subset : queue ++ visited ⊆ dag.ids := fun n hn => ((h.ready n).mp (mem_append.mp hn)).1

theorem length_le : queue.length + visited.length ≤ dag.nodeCount := by
  have hl := (subperm_of_subset h.distinct h.subset).length_le
  rwa [length_append, ids, length_map] at hl

theorem preds (hn : n ∈ dag.ids) : (n ∈ queue ∨ n ∈ visited) ↔ ∀ p, dag.Edge p n → p ∈ visited := by
  rw [h.ready n, and_iff_right hn, h.counts, remaining_eq_zero]

end

theorem settled (h : Sorting dag visited (q :: queue) inDegree) (hs : dag.Settled visited) :
    dag.Settled (q :: visited) :=
  hs.cons ((h.preds (h.subset mem_cons_self)).mp (.inl mem_cons_self))

theorem step (h : Sorting dag visited (q :: queue) inDegree) (htable : dag.Holds table inDegree) :
    ∃ table', DAG.release (dag.dependants q) queue table =
        .ok ((releaseDependants (dag.dependants q) queue inDegree).1, table') ∧
      dag.Holds table' (releaseDependants (dag.dependants q) queue inDegree).2 := by
  apply htable.release (dag.dependants_nodup q)
  · exact fun n hn => (mem_dependants.mp hn).mem_ids.2
  · exact fun n hn => h.waiting hn

/-- When no node is ready, all nodes have been visited exactly if there is no cycle. -/
theorem all_iff (h : Sorting dag visited [] inDegree) (hs : dag.Settled visited) :
    visited.length = dag.nodeCount ↔ dag.Acyclic := by
  have hp : visited.length = dag.nodeCount ↔ dag.ids ⊆ visited := by
    have hsu := subperm_of_subset h.nodup h.subset
    have hc : dag.nodeCount = dag.ids.length := (length_map _).symm
    rw [hc]
    exact ⟨fun hl => (hsu.perm_of_length_le hl.ge).symm.subset,
      fun ha => le_antisymm hsu.length_le (subperm_of_subset dag.nodes_distinct ha).length_le⟩
  rw [hp]
  exact ⟨hs.acyclic h.nodup, fun hac => h.all_visited hac⟩

theorem order_of_nil (hacyclic : dag.Acyclic) (h : Sorting dag visited [] inDegree)
    (hs : dag.Settled visited) : dag.TopologicalOrder (visited.reverse ++ []) := by
  rw [append_nil, topologicalOrder_iff, reverse_reverse]
  have hsu := subperm_of_subset h.nodup h.subset
  have hb := subperm_of_subset dag.nodes_distinct (h.all_visited hacyclic)
  exact ⟨(reverse_perm visited).trans (hsu.antisymm hb), hs⟩

variable {fuel : ℕ}

/-- The loop meets no fault, and the nodes it visits show whether there is a cycle. -/
theorem sortLoop_ok (h : Sorting dag visited queue inDegree) (hs : dag.Settled visited)
    (htable : dag.Holds table inDegree) (hfuel : fuel + visited.length = dag.nodeCount) :
    dag.sortLoop fuel queue table visited.length = .ok (decide
      (dag.performTopologicalSort fuel queue inDegree visited.length ≠ dag.nodeCount)) ∧
      (dag.performTopologicalSort fuel queue inDegree visited.length = dag.nodeCount ↔
        dag.Acyclic) := by
  induction fuel generalizing visited queue inDegree table with
  | zero =>
    have hl := h.length_le
    obtain rfl : queue = [] := length_eq_zero_iff.mp (by omega)
    exact ⟨rfl, h.all_iff hs⟩
  | succ fuel ih =>
    cases queue with
    | nil => exact ⟨rfl, h.all_iff hs⟩
    | cons q queue =>
      obtain ⟨table', hr, ht'⟩ := h.step htable
      rw [sortLoop, hr]
      exact ih h.visit (h.settled hs) ht' (by rw [length_cons]; omega)

theorem perm {queue' : List ν} (h : Sorting dag visited queue inDegree) (hp : queue.Perm queue') :
    Sorting dag visited queue' inDegree where
  counts := h.counts
  distinct := (hp.append_right visited).nodup_iff.mp h.distinct
  ready n := by rw [← hp.mem_iff, h.ready n]

/-- A topological order can go on with any ready node. -/
theorem complete (hacyclic : dag.Acyclic) (h : Sorting dag visited queue inDegree)
    (hs : dag.Settled visited) (hfuel : fuel + visited.length = dag.nodeCount) :
    ∃ rest, dag.TopologicalOrder (visited.reverse ++ rest) ∧ rest.head? = queue.head? := by
  induction fuel generalizing visited queue inDegree with
  | zero =>
    have hl := h.length_le
    obtain rfl : queue = [] := length_eq_zero_iff.mp (by omega)
    exact ⟨[], h.order_of_nil hacyclic hs, rfl⟩
  | succ fuel ih =>
    cases queue with
    | nil => exact ⟨[], h.order_of_nil hacyclic hs, rfl⟩
    | cons q queue =>
      obtain ⟨rest, ho, -⟩ := ih h.visit (h.settled hs) (by rw [length_cons]; omega)
      exact ⟨q :: rest, by simpa using ho, rfl⟩

/-- With one ready node every topological order goes on with it. -/
theorem forced (h : Sorting dag visited [q] inDegree) {order : List ν}
    (horder : dag.TopologicalOrder order) (hstart : visited.reverse <+: order) :
    (q :: visited).reverse <+: order := by
  obtain ⟨rest, rfl⟩ := hstart
  have hme : q ∈ visited.reverse ++ rest := horder.1.mem_iff.mpr (h.subset mem_cons_self)
  cases rest with
  | nil =>
    rw [append_nil, mem_reverse] at hme
    exact absurd hme h.head_not_mem
  | cons m rest =>
    have hm : m ∈ dag.ids := horder.1.mem_iff.mp (by simp)
    have hn : m ∉ visited := by
      have hno := horder.1.nodup_iff.mpr dag.nodes_distinct
      exact fun hi => (nodup_append.mp hno).2.2 m (mem_reverse.mpr hi) m mem_cons_self rfl
    have hr := (h.preds hm).mpr fun p hp =>
      mem_reverse.mp (horder.2 visited.reverse m rest rfl p hp)
    obtain rfl := mem_singleton.mp (hr.resolve_right hn)
    exact ⟨rest, by simp⟩

theorem linear_end (h : Sorting dag visited [] inDegree) (hs : dag.Settled visited)
    (hstart : ∀ order, dag.TopologicalOrder order → visited.reverse <+: order) :
    visited.length = dag.nodeCount ↔ dag.Acyclic ∧ ∃! order, dag.TopologicalOrder order := by
  rw [h.all_iff hs]
  refine ⟨fun ha => ⟨ha, visited.reverse, ?_, fun order ho => ?_⟩, And.left⟩
  · simpa using h.order_of_nil ha hs
  have hp := (h.order_of_nil ha hs).1.trans ho.1.symm
  rw [append_nil] at hp
  exact ((hstart order ho).eq_of_length hp.length_eq).symm

theorem not_unique (h : Sorting dag visited (a :: b :: queue) inDegree)
    (hs : dag.Settled visited) : ¬(dag.Acyclic ∧ ∃! order, dag.TopologicalOrder order) := by
  rintro ⟨ha, order, -, hu⟩
  have hf : dag.nodeCount - visited.length + visited.length = dag.nodeCount :=
    Nat.sub_add_cancel (le_trans (Nat.le_add_left _ _) h.length_le)
  obtain ⟨rest, ho, hh⟩ := h.complete ha hs hf
  obtain ⟨rest', ho', hh'⟩ := (h.perm (.swap b a queue)).complete ha hs hf
  have hsa := append_cancel_left ((hu _ ho).trans (hu _ ho').symm)
  rw [hsa, hh'] at hh
  have hne : a ≠ b := fun he => (nodup_cons.mp h.distinct).1 (he ▸ mem_cons_self)
  exact hne (Option.some.inj hh).symm

theorem linearLoop_ok (h : Sorting dag visited queue inDegree) (hs : dag.Settled visited)
    (htable : dag.Holds table inDegree) (hfuel : fuel + visited.length = dag.nodeCount)
    (hstart : ∀ order, dag.TopologicalOrder order → visited.reverse <+: order) : ∃ linear,
      dag.linearLoop fuel queue table visited.length = .ok linear ∧
      (linear = true ↔ dag.Acyclic ∧ ∃! order, dag.TopologicalOrder order) := by
  induction fuel generalizing visited queue inDegree table with
  | zero =>
    have hl := h.length_le
    obtain rfl : queue = [] := length_eq_zero_iff.mp (by omega)
    exact ⟨_, rfl, decide_eq_true_iff.trans (h.linear_end hs hstart)⟩
  | succ fuel ih =>
    cases queue with
    | nil => exact ⟨_, rfl, decide_eq_true_iff.trans (h.linear_end hs hstart)⟩
    | cons q queue =>
      cases queue with
      | nil =>
        obtain ⟨table', hr, ht'⟩ := h.step htable
        rw [linearLoop, hr]
        exact ih h.visit (h.settled hs) ht' (by rw [length_cons]; omega)
          fun order ho => h.forced ho (hstart order ho)
      | cons => exact ⟨false, rfl, iff_of_false Bool.false_ne_true (h.not_unique hs)⟩

end Sorting

omit [DecidableEq ν] in
theorem settled_nil : dag.Settled [] := by simp [Settled]

theorem tryHasCycle_ok (dag : DAG τ ν) :
    dag.tryHasCycle = .ok dag.hasCycle ∧ (dag.hasCycle = true ↔ ¬dag.Acyclic) := by
  obtain ⟨table, hr, ht⟩ := dag.inDegreeTable_ok
  obtain ⟨hl, hi⟩ := Sorting.sortLoop_ok Sorting.initial settled_nil ht rfl
  refine ⟨?_, decide_eq_true_iff.trans (not_congr hi)⟩
  rw [tryHasCycle, hr]
  change (readyNodes table dag.ids >>= _) = _
  rw [ht.ready (Subset.refl _)]
  exact hl

theorem hasCycle_exact (dag : DAG τ ν) : ∃ cyclic, dag.tryHasCycle = .ok cyclic ∧
    (cyclic = true ↔ ∃ a, dag.Before a a) := by
  obtain ⟨hrun, hiff⟩ := dag.tryHasCycle_ok
  refine ⟨dag.hasCycle, hrun, ?_⟩
  rw [hiff, Acyclic]
  push Not
  rfl

theorem isLinear_exact (dag : DAG τ ν) : ∃ linear, dag.isLinear = .ok linear ∧
    (linear = true ↔ dag.Acyclic ∧ ∃! order, dag.TopologicalOrder order) := by
  obtain ⟨table, hrun, htable⟩ := dag.inDegreeTable_ok
  obtain ⟨linear, hloop, hiff⟩ := Sorting.linearLoop_ok Sorting.initial settled_nil htable rfl
    fun order _ => nil_prefix
  refine ⟨linear, ?_, hiff⟩
  rw [isLinear, hrun]
  change (readyNodes table dag.ids >>= _) = _
  rw [htable.ready (Subset.refl _)]
  exact hloop

end DAG

end Octa.Dag
