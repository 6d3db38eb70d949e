import Octa.Foundation.FiniteGraph

/-!
# Task dependency graphs

The graph type that planner and executor share.  A node is known by its
identifier; identifiers and edges are distinct and an edge joins two nodes.
-/

namespace Octa.Dag

open List

/-- A value that a graph knows by an identifier. -/
class Identifiable (τ : Type) (ν : outParam Type) where
  id : τ → ν

inductive DagError (ν : Type) where
  | nodeNotFound (id : ν)
  deriving DecidableEq, Repr

structure DAG (τ ν : Type) [Identifiable τ ν] where
  nodes : List τ
  edges : List (ν × ν)
  nodes_distinct : (nodes.map Identifiable.id).Nodup
  edges_distinct : edges.Nodup
  closed : ∀ edge ∈ edges,
    edge.1 ∈ nodes.map Identifiable.id ∧ edge.2 ∈ nodes.map Identifiable.id

namespace DAG

variable {τ ν : Type} [Identifiable τ ν]

def new : DAG τ ν where
  nodes := []
  edges := []
  nodes_distinct := nodup_nil
  edges_distinct := nodup_nil
  closed := nofun

variable (dag : DAG τ ν)

def ids : List ν := dag.nodes.map Identifiable.id

def nodeCount : ℕ := dag.nodes.length

def Edge (a b : ν) : Prop := (a, b) ∈ dag.edges

def Before (a b : ν) : Prop := Relation.TransGen dag.Edge a b

def Acyclic : Prop := ∀ a, ¬dag.Before a a

variable {dag} in
theorem Edge.mem_ids {a b : ν} (h : dag.Edge a b) : a ∈ dag.ids ∧ b ∈ dag.ids := dag.closed (a, b) h

variable [DecidableEq ν]

def addNode (node : τ) : DAG τ ν :=
  if h : Identifiable.id node ∈ dag.ids then dag
  else
    { dag with
      nodes := dag.nodes ++ [node]
      nodes_distinct := by
        rw [map_append, map_singleton]
        exact nodup_append.mpr ⟨dag.nodes_distinct, nodup_singleton _, by
          intro a ha b hb hab
          rw [mem_singleton.mp hb] at hab
          exact h (hab ▸ ha)⟩
      closed := by
        intro edge hedge
        rw [map_append]
        exact ⟨mem_append_left _ (dag.closed edge hedge).1,
          mem_append_left _ (dag.closed edge hedge).2⟩ }

def addDependency (source target : ν) : Except (DagError ν) (DAG τ ν) :=
  if hsrc : source ∈ dag.ids then
    if htarget : target ∈ dag.ids then
      if hknown : (source, target) ∈ dag.edges then .ok dag
      else
        .ok { dag with
          edges := dag.edges ++ [(source, target)]
          edges_distinct := by
            refine nodup_append.mpr ⟨dag.edges_distinct, nodup_singleton _, ?_⟩
            intro a ha b hb hab
            rw [mem_singleton.mp hb] at hab
            exact hknown (hab ▸ ha)
          closed := by
            intro edge hedge
            rcases mem_append.mp hedge with hedge | hedge
            · exact dag.closed edge hedge
            · rw [mem_singleton.mp hedge]
              exact ⟨hsrc, htarget⟩ }
    else .error (.nodeNotFound target)
  else .error (.nodeNotFound source)

omit [DecidableEq ν] in
theorem not_edge_new {a b : ν} : ¬(new : DAG τ ν).Edge a b := nofun

variable {dag}

theorem nodes_addNode {node : τ} (h : Identifiable.id node ∉ dag.ids) :
    (dag.addNode node).nodes = dag.nodes ++ [node] := by
  rw [addNode, dif_neg h]

theorem ids_addNode {node : τ} (h : Identifiable.id node ∉ dag.ids) :
    (dag.addNode node).ids = dag.ids ++ [Identifiable.id node] := by
  rw [ids, nodes_addNode h, map_append, map_singleton, ids]

@[simp] theorem edges_addNode {node : τ} : (dag.addNode node).edges = dag.edges := by
  rw [addNode]
  split <;> rfl

theorem edge_addNode {node : τ} {a b : ν} : (dag.addNode node).Edge a b ↔ dag.Edge a b := by
  rw [Edge, edges_addNode, Edge]

theorem addDependency_eq_ok {source target : ν} {dag' : DAG τ ν}
    (h : dag.addDependency source target = .ok dag') :
    source ∈ dag.ids ∧ target ∈ dag.ids ∧ dag'.nodes = dag.nodes ∧
      ∀ a b, dag'.Edge a b ↔ dag.Edge a b ∨ a = source ∧ b = target := by
  unfold addDependency at h
  split at h
  · next hs =>
    split at h
    · next ht =>
      split at h
      · next hk =>
        cases h
        refine ⟨hs, ht, rfl, fun a b => ?_⟩
        constructor
        · exact .inl
        rintro (he | ⟨rfl, rfl⟩)
        · exact he
        · exact hk
      cases h
      refine ⟨hs, ht, rfl, fun a b => ?_⟩
      simp [Edge]
    · cases h
  · cases h

variable (dag)

def dependants (node : ν) : List ν :=
  (dag.edges.filter fun edge => edge.1 = node).map Prod.snd

def calculateInDegrees : ν → ℕ := fun node => dag.edges.countP fun edge => edge.2 = node

/-- Decrements every dependant and pushes those that have become ready. -/
def releaseDependants : List ν → List ν → (ν → ℕ) → List ν × (ν → ℕ)
  | [], queue, inDegree => (queue, inDegree)
  | dep :: deps, queue, inDegree =>
    let count := inDegree dep - 1
    releaseDependants deps (if count = 0 then dep :: queue else queue)
      (Function.update inDegree dep count)

/-- The number of nodes visited.  Every round visits another node, so `fuel` is
the number of nodes. -/
def performTopologicalSort : ℕ → List ν → (ν → ℕ) → ℕ → ℕ
  | 0, _, _, visited => visited
  | _, [], _, visited => visited
  | fuel + 1, node :: queue, inDegree, visited =>
    let released := releaseDependants (dag.dependants node) queue inDegree
    performTopologicalSort fuel released.1 released.2 (visited + 1)

def hasCycle : Bool :=
  let inDegree := dag.calculateInDegrees
  dag.performTopologicalSort dag.nodeCount (dag.ids.filter fun node => inDegree node = 0)
    inDegree 0 ≠ dag.nodeCount

variable {dag}

theorem mem_dependants {a b : ν} : b ∈ dag.dependants a ↔ dag.Edge a b := by
  simp [dependants, Edge]

theorem dependants_nodup (dag : DAG τ ν) (a : ν) : (dag.dependants a).Nodup := by
  refine (nodup_map_iff_inj_on (dag.edges_distinct.filter _)).mpr ?_
  intro edge he edge' he' hs
  have hf := of_decide_eq_true (mem_filter.mp he).2
  have hf' := of_decide_eq_true (mem_filter.mp he').2
  exact Prod.ext (hf.trans hf'.symm) hs

theorem releaseDependants_snd {deps : List ν} (hdeps : deps.Nodup) (queue : List ν)
    (inDegree : ν → ℕ) (n : ν) : (releaseDependants deps queue inDegree).2 n =
      if n ∈ deps then inDegree n - 1 else inDegree n := by
  induction deps generalizing queue inDegree with
  | nil => simp [releaseDependants]
  | cons dep deps ih =>
    have hd := nodup_cons.mp hdeps
    rw [releaseDependants, ih hd.2]
    by_cases hn : n = dep
    · subst hn
      simp [hd.1]
    · simp [hn]

theorem releaseDependants_fst {deps : List ν} (hdeps : deps.Nodup) (queue : List ν)
    (inDegree : ν → ℕ) : (releaseDependants deps queue inDegree).1 =
      (deps.filter fun dep => inDegree dep - 1 = 0).reverse ++ queue := by
  induction deps generalizing queue inDegree with
  | nil => simp [releaseDependants]
  | cons dep deps ih =>
    have hd := nodup_cons.mp hdeps
    have hs : deps.filter (fun n => decide
        (Function.update inDegree dep (inDegree dep - 1) n - 1 = 0)) =
        deps.filter fun n => decide (inDegree n - 1 = 0) := by
      apply filter_congr
      intro n hn
      have hne : n ≠ dep := fun h => hd.1 (h ▸ hn)
      rw [Function.update_of_ne hne]
    rw [releaseDependants, ih hd.2, hs]
    by_cases hz : inDegree dep - 1 = 0
    · simp [hz]
    · simp [hz]

def remaining (dag : DAG τ ν) (visited : List ν) (n : ν) : ℕ :=
  dag.edges.countP fun edge => decide (edge.2 = n) && !decide (edge.1 ∈ visited)

theorem remaining_cons (dag : DAG τ ν) {visited : List ν} {q : ν} (hq : q ∉ visited) (n : ν) :
    dag.remaining visited n =
      dag.remaining (q :: visited) n + if n ∈ dag.dependants q then 1 else 0 := by
  have hc : dag.edges.countP (fun edge => decide (edge = (q, n))) =
      if n ∈ dag.dependants q then 1 else 0 := by
    have hco : dag.edges.countP (fun edge => decide (edge = (q, n))) = dag.edges.count (q, n) := by
      rw [count_eq_countP]
      apply countP_congr
      intro edge _
      simp
    rw [hco]
    split
    · next hm =>
      exact count_eq_one_of_mem dag.edges_distinct (mem_dependants.mp hm)
    · next hm => exact count_eq_zero.mpr fun he => hm (mem_dependants.mpr he)
  rw [← hc, remaining, remaining]
  induction dag.edges with
  | nil => rfl
  | cons edge edges ih =>
    obtain ⟨a, b⟩ := edge
    simp only [countP_cons, ih]
    by_cases hb : b = n
    · by_cases ha : a = q
      · simp [hb, ha, hq]
        omega
      · by_cases hv : a ∈ visited
        · simp [hb, ha, hv]
        · simp [hb, ha, hv]
          omega
    · simp [hb]

theorem remaining_eq_zero {visited : List ν} {n : ν} :
    dag.remaining visited n = 0 ↔ ∀ p, dag.Edge p n → p ∈ visited := by
  rw [remaining, countP_eq_zero]
  constructor
  · intro h p hp
    simpa using h (p, n) hp
  intro h edge he
  by_cases hn : edge.2 = n
  · have hv := h edge.1 (by rw [← hn]; exact he)
    simp [hv]
  · simp [hn]

/-- What holds at the head of the loop, with the list of the nodes visited so far. -/
structure Sorting (dag : DAG τ ν) (visited queue : List ν) (inDegree : ν → ℕ) : Prop where
  counts : ∀ n, inDegree n = dag.remaining visited n
  distinct : (queue ++ visited).Nodup
  ready : ∀ n, n ∈ queue ∨ n ∈ visited ↔ n ∈ dag.ids ∧ inDegree n = 0

theorem Sorting.initial : Sorting dag [] (dag.ids.filter fun n => dag.calculateInDegrees n = 0)
      dag.calculateInDegrees where
  counts n := by simp [calculateInDegrees, remaining]
  distinct := by
    rw [append_nil]
    exact dag.nodes_distinct.filter _
  ready n := by simp

variable {visited queue : List ν} {inDegree : ν → ℕ} {q : ν}

section

variable (h : Sorting dag visited (q :: queue) inDegree)
include h

theorem Sorting.head_not_mem : q ∉ visited := by
  have hc := h.distinct
  rw [cons_append, nodup_cons] at hc
  exact fun hm => hc.1 (mem_append_right _ hm)

/-- A dependant of the next node waits for it, so it is neither queued nor visited. -/
theorem Sorting.waiting {n : ν}
    (hn : n ∈ dag.dependants q) : inDegree n ≠ 0 := by
  have hc := dag.remaining_cons h.head_not_mem n
  rw [if_pos hn] at hc
  rw [h.counts n]
  omega

theorem Sorting.visit :
    Sorting dag (q :: visited) (releaseDependants (dag.dependants q) queue inDegree).1
      (releaseDependants (dag.dependants q) queue inDegree).2 := by
  have hd := dag.dependants_nodup q
  have hcn : ∀ n, (releaseDependants (dag.dependants q) queue inDegree).2 n =
      dag.remaining (q :: visited) n := by
    intro n
    have hc := dag.remaining_cons h.head_not_mem n
    rw [releaseDependants_snd hd, h.counts n]
    split
    · next hn =>
      rw [if_pos hn] at hc
      omega
    next hn =>
    rw [if_neg hn] at hc
    omega
  refine ⟨hcn, ?_, ?_⟩
  · rw [releaseDependants_fst hd]
    have hre : (queue ++ q :: visited).Nodup := by
      have hc := h.distinct
      rw [cons_append] at hc
      exact nodup_middle.mpr hc
    rw [append_assoc]
    refine nodup_append.mpr ⟨nodup_reverse.mpr (hd.filter _), hre, ?_⟩
    intro a ha b hb hab
    subst hab
    have hm := (mem_filter.mp (mem_reverse.mp ha)).1
    apply h.waiting hm
    have ho : a ∈ q :: queue ∨ a ∈ visited := by
      simp only [mem_append, mem_cons] at hb ⊢
      tauto
    exact ((h.ready a).mp ho).2
  · intro n
    have hr := h.ready n
    have hz := releaseDependants_snd hd queue inDegree n
    rw [releaseDependants_fst hd]
    by_cases hn : n ∈ dag.dependants q
    · have hi := (Edge.mem_ids (mem_dependants.mp hn)).2
      have ho := mt hr.mp fun hbo => h.waiting hn hbo.2
      rw [if_pos hn] at hz
      rw [hz]
      simp only [mem_cons, not_or] at ho
      simp [hn, hi, ho]
    rw [if_neg hn] at hz
    rw [hz, ← hr]
    simp only [mem_append, mem_reverse, mem_filter, mem_cons, hn, false_and, false_or]
    tauto

end

def graph (dag : DAG τ ν) : FiniteGraph ν where
  nodes := dag.ids.toFinset
  edges a := (dag.dependants a).toFinset
  closed := by
    intro a b hab
    have hedge := mem_dependants.mp (mem_toFinset.mp hab)
    exact ⟨mem_toFinset.mpr hedge.mem_ids.1, mem_toFinset.mpr hedge.mem_ids.2⟩

theorem mem_graph_edges {a b : ν} : b ∈ dag.graph.edges a ↔ dag.Edge a b :=
  mem_toFinset.trans mem_dependants

theorem before_graph {a b : ν} : dag.graph.Before a b ↔ dag.Before a b := by
  unfold FiniteGraph.Before Before
  have he : (fun a b => b ∈ dag.graph.edges a) = dag.Edge := by
    funext a b
    exact propext mem_graph_edges
  rw [he]

/-- A first node outside of the visited ones would have been ready. -/
theorem Sorting.all_visited (hacyclic : dag.Acyclic) (h : Sorting dag visited [] inDegree) :
    dag.ids ⊆ visited := by
  intro n hn
  by_contra hn'
  have hg : dag.graph.Acyclic := fun a ha => hacyclic a (before_graph.mp ha)
  have hne : (dag.ids.toFinset \ visited.toFinset).Nonempty :=
    ⟨n, Finset.mem_sdiff.mpr ⟨mem_toFinset.mpr hn, fun hi => hn' (mem_toFinset.mp hi)⟩⟩
  obtain ⟨first, hf, hm⟩ := hg.exists_first hne
  rw [Finset.mem_sdiff, mem_toFinset, mem_toFinset] at hf
  apply hf.2
  have hz : inDegree first = 0 := by
    rw [h.counts, remaining_eq_zero]
    intro p hp
    by_contra hp'
    apply hm p
    · exact Finset.mem_sdiff.mpr ⟨mem_toFinset.mpr hp.mem_ids.1, fun hi => hp' (mem_toFinset.mp hi)⟩
    · exact before_graph.mpr (.single hp)
  exact ((h.ready first).mpr ⟨hf.1, hz⟩).resolve_left not_mem_nil

end DAG

end Octa.Dag
