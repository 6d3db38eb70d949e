import Octa.Planner.Soundness

/-!
# The order of an expanded invocation

What a caller of the expansion may rely on: the new nodes come after all
entries and before the terminal, in the order of their stages, and the graph
stays acyclic.
-/

namespace Octa.Planner

open Octa.Dag List
open Relation

def GraphState.Added (s s' : GraphState) (n : NodeId) : Prop := n ∈ s'.dag.ids ∧ n ∉ s.dag.ids

namespace Lowers

variable {s s' : GraphState} {P : List NodeId} {f : NodeFlow Node}

section

variable (h : Lowers s s' P f f.atoms)
include h

theorem ids_perm : s'.dag.ids.Perm (s.dag.ids ++ f.keys Node.id) := by
  have hp := h.nodes.map Node.id
  rwa [map_append] at hp

theorem ids_distinct : (s.dag.ids ++ f.keys Node.id).Nodup :=
  h.ids_perm.nodup_iff.mp s'.dag.nodes_distinct

theorem notMem_keys {n : NodeId} (hn : n ∈ s.dag.ids) : n ∉ f.keys Node.id := by
  intro hk
  exact (nodup_append.mp h.ids_distinct).2.2 n hn n hk rfl

theorem added_iff {n : NodeId} : s.Added s' n ↔ n ∈ f.keys Node.id := by
  rw [GraphState.Added, h.ids_perm.mem_iff, mem_append]
  constructor
  · intro ⟨hn, hnw⟩
    exact hn.resolve_left hnw
  · intro hn
    exact ⟨.inr hn, fun ho => h.notMem_keys ho hn⟩

theorem path {a b : NodeId}
    (hpath : TransGen (f.Edge Node.id P) a b) : s'.dag.Before a b :=
  TransGen.mono (fun a b he => (h.edges a b).mpr (.inr he)) _ _ hpath

theorem acyclic (hac : s.dag.Acyclic)
    (hes : ∀ p ∈ P, p ∈ s.dag.ids) : s'.dag.Acyclic := by
  apply NodeFlow.acyclic_extend h.edges _ hac (nodup_append.mp h.ids_distinct).2.1
  · intro p hp
    exact h.notMem_keys (hes p hp)
  · intro a b he
    exact h.notMem_keys he.mem_ids.1

end

end Lowers

namespace TaskGraphBuilder

variable {ο : Type}

/-- The subgraph of an invocation hangs between its entries and its terminal,
its stages follow each other, and it closes no cycle. -/
theorem buildInvocation_ordered (planner : TaskGraphBuilder ο) (fuel : ℕ) (command : FindResult ο)
    (request : InvocationRequest) (runParallel : Option Bool) (s s' : GraphState) (t : NodeId)
    (hacyclic : s.dag.Acyclic) (hentries : ∀ p ∈ request.entryParents, p ∈ s.dag.ids)
    (h : planner.buildInvocation fuel command request runParallel s = .ok (some t, s')) :
    (∀ n, s.Added s' n → (∀ p ∈ request.entryParents, s'.dag.Before p n) ∧
      (n = t ∨ s'.dag.Before n t) ∧ ∃ stage, n.In request.context.place stage) ∧
    (∀ a b stage stage', s.Added s' a → s.Added s' b →
      a.In request.context.place stage → b.In request.context.place stage' →
      Stage.Before (!runParallel.getD command.task.parallel) stage stage' → s'.dag.Before a b) ∧
    s'.dag.Acyclic := by
  obtain ⟨layout, hfits, hparallel, -, -, hlowers, hexits⟩ :=
    sound_buildInvocation planner fuel _ _ _ _ _ _ h
  refine ⟨fun n hn => ?_, ?_, hlowers.acyclic hacyclic hentries⟩
  · rw [hlowers.added_iff] at hn
    refine ⟨fun p hp => hlowers.path (NodeFlow.covered hp hn), ?_, ?_⟩
    · obtain ⟨q, hq, hpath⟩ := NodeFlow.drained (P := request.entryParents) (.inr hn)
      rw [← hexits] at hq
      obtain rfl := mem_singleton.mp hq
      rcases reflTransGen_iff_eq_or_transGen.mp hpath with heq | hpath
      · exact .inl heq.symm
      · exact .inr (hlowers.path hpath)
    · obtain ⟨node, hnode, rfl⟩ := mem_map.mp hn
      exact hfits.inFlow hnode
  · intro a b stage stage' ha hb hstage hstage' hbefore
    rw [hlowers.added_iff] at ha hb
    obtain ⟨x, hx, rfl⟩ := mem_map.mp ha
    obtain ⟨y, hy, rfl⟩ := mem_map.mp hb
    rw [← hparallel] at hbefore
    exact hlowers.path (hfits.ordered hx hy hstage hstage' hbefore)

/-- A task with a gated dependency, two commands and a deferred one. -/
def orderedTask : Task :=
  { deps := [{ task := "prepare" }]
    beforeDeps := some ⟨"shell", "test -d src"⟩
    cmds := some [.shell "make", .defer (.call "clean"), .shell "make install"] }

def orderedFile : TaskGraphBuilder Unit :=
  singleFile [("build", orderedTask), ("prepare", { cmds := some [.shell "configure"] }),
    ("clean", { cmds := some [.shell "make clean"] })] []

def orderedRequest : InvocationRequest :=
  { context := { depName := "build", place := [.request 0] }, entryParents := [] }

theorem buildInvocation_ordered_sample :
    ∃ t s', orderedFile.buildInvocation 3 ⟨"build", (), orderedTask⟩ orderedRequest none
      (.empty 0) = .ok (some t, s') ∧ s'.dag.Acyclic ∧
      ∀ a b, (GraphState.empty 0).Added s' a → (GraphState.empty 0).Added s' b →
        a.In [.request 0] (.command 0 0) → b.In [.request 0] (.command 2 0) →
        s'.dag.Before a b := by
  have hsome : ((orderedFile.buildInvocation 3 ⟨"build", (), orderedTask⟩ orderedRequest none
      (.empty 0)).toOption.bind Prod.fst).isSome = true := by decide +kernel
  obtain ⟨t, s', h⟩ : ∃ t s', orderedFile.buildInvocation 3 ⟨"build", (), orderedTask⟩
      orderedRequest none (.empty 0) = .ok (some t, s') := by
    cases h : orderedFile.buildInvocation 3 ⟨"build", (), orderedTask⟩ orderedRequest none
        (.empty 0) with
    | error halt =>
      rw [h] at hsome
      cases hsome
    | ok result =>
      rw [h] at hsome
      obtain ⟨t, ht⟩ := Option.isSome_iff_exists.mp hsome
      exact ⟨t, result.2, congrArg Except.ok (Prod.ext ht rfl)⟩
  have hordered := buildInvocation_ordered orderedFile 3 ⟨"build", (), orderedTask⟩
    orderedRequest none (.empty 0) s' t (fun a hcycle => by
      obtain ⟨b, hedge, -⟩ := TransGen.head'_iff.mp hcycle
      exact DAG.not_edge_new hedge) nofun h
  refine ⟨t, s', h, hordered.2.2, fun a b ha hb hstage hstage' => ?_⟩
  exact hordered.2.1 a b _ _ ha hb hstage hstage' (by decide)

theorem plan_ok_orderedFile : ∃ p, orderedFile.plan 3 () "build" false = .ok p ∧ Planned p := by
  have hok : (orderedFile.plan 3 () "build" false).isOk := by decide +kernel
  cases h : orderedFile.plan 3 () "build" false with
  | error => simp [h, Except.isOk, Except.toBool] at hok
  | ok p => exact ⟨p, rfl, (plan_ok h).1⟩

end TaskGraphBuilder

end Octa.Planner
