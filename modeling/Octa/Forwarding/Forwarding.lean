import Octa.Foundation.Machine
import Octa.Planner.Expansion
import Octa.Task.Dependencies

/-!
# Forwarding of results

A node that has succeeded hands its result to its successors, one after the
other: an internal node hands on what it has received, any other node its own
result under its dependency name.
-/

namespace Octa.Forwarding

open Octa.Dag Octa.Planner Octa.Task Transition List

variable {υ : Type}

/-! ## Model -/

/-- The result of a node that is not internal, with the outputs of earlier nodes of its
invocation. -/
def publish (node : Node) (own : DependencyResult υ) (received : DependencyResults υ) :
    DependencyResult υ :=
  match received node.depName with
  | some previous => own.mergeMissing previous
  | none => own

/-- What one successor of a node has received after `process_task_success`. -/
def handOver (node : Node) (own : DependencyResult υ) (received target : DependencyResults υ) :
    DependencyResults υ :=
  if node.action.isInternal then target.bypassResult received
  else target.setResult node.depName (publish node own received)

structure State (υ : Type) where
  executed : List NodeId
  /-- the edges over which a result was handed on -/
  delivered : List (NodeId × NodeId)
  received : NodeId → DependencyResults υ

inductive Action where
  | execute (id : NodeId)
  | deliver (id target : NodeId)
  deriving DecidableEq

def step (dag : DAG Node NodeId) (produces : NodeId → DependencyResult υ) (s : State υ) :
    Action → Option (State υ)
  | .execute id =>
    if id ∈ dag.ids ∧ id ∉ s.executed ∧
        ∀ edge ∈ dag.edges, edge.2 = id → edge ∈ s.delivered then
      some { s with executed := s.executed ++ [id] }
    else none
  | .deliver id target =>
    match dag.nodes.find? fun node => node.id = id with
    | none => none
    | some node =>
      if (id, target) ∈ dag.edges ∧ id ∈ s.executed ∧ (id, target) ∉ s.delivered then
        some { s with
          delivered := s.delivered ++ [(id, target)]
          received := Function.update s.received target
            (handOver node (produces id) (s.received id) (s.received target)) }
      else none

/-- The failure-free runs of a graph whose nodes produce the given results. -/
def machine (dag : DAG Node NodeId) (produces : NodeId → DependencyResult υ) :
    Machine (State υ) Action where
  init := ⟨[], [], fun _ => .empty⟩
  step := step dag produces

variable {dag : DAG Node NodeId} {produces : NodeId → DependencyResult υ} {s s' : State υ}

variable {id a source : NodeId}

theorem step_execute (h : step dag produces s (.execute id) = some s') :
    id ∈ dag.ids ∧ id ∉ s.executed ∧ (∀ a, dag.Edge a id → (a, id) ∈ s.delivered) ∧
      s' = { s with executed := s.executed ++ [id] } := by
  obtain ⟨⟨hi, hn, hr⟩, hs'⟩ := Option.ite_none_right_eq_some.mp h
  exact ⟨hi, hn, fun a he => hr (a, id) he rfl, (Option.some.inj hs').symm⟩

theorem step_deliver {target : NodeId} (h : step dag produces s (.deliver id target) = some s') :
    ∃ node ∈ dag.nodes, node.id = id ∧ dag.Edge id target ∧ id ∈ s.executed ∧
      (id, target) ∉ s.delivered ∧
      s' = { s with
        delivered := s.delivered ++ [(id, target)]
        received := Function.update s.received target
          (handOver node (produces id) (s.received id) (s.received target)) } := by
  unfold step at h
  cases hno : dag.nodes.find? fun node => node.id = id with
  | none =>
    simp only [hno] at h
    cases h
  | some node =>
    simp only [hno] at h
    obtain ⟨⟨he, hex, hn⟩, hs'⟩ := Option.ite_none_right_eq_some.mp h
    exact ⟨node, mem_of_find?_eq_some hno,
      of_decide_eq_true (List.find?_some (p := fun node : Node => decide (node.id = id)) hno),
      he, hex, hn, (Option.some.inj hs').symm⟩

/-! ## Sources -/

/-- The node hands on a result with this name, which comes from the node `source`. -/
inductive Hands (dag : DAG Node NodeId) : NodeId → String → NodeId → Prop where
  | own {node : Node} : node ∈ dag.nodes → node.action.isInternal = false →
      Hands dag node.id node.depName node.id
  | inherited {node : Node} {before source : NodeId} {name : String} : node ∈ dag.nodes →
      node.action.isInternal = true → dag.Edge before node.id → Hands dag before name source →
      Hands dag node.id name source

def SingleSource (dag : DAG Node NodeId) : Prop :=
  ∀ target name a a' source source', dag.Edge a target → dag.Edge a' target →
    Hands dag a name source → Hands dag a' name source' → source = source'

theorem eq_of_id_eq {node node' : Node} (h : node ∈ dag.nodes) (h' : node' ∈ dag.nodes)
    (hid : node.id = node'.id) : node = node' :=
  inj_on_of_nodup_map dag.nodes_distinct h h' hid

theorem Hands.source_mem {name : String} (h : Hands dag a name source) :
    ∃ node ∈ dag.nodes, node.id = source ∧ node.action.isInternal = false ∧
      node.depName = name := by
  induction h with
  | @own node hn hi => exact ⟨node, hn, rfl, hi, rfl⟩
  | inherited _ _ _ _ ih => exact ih

def handed (node : Node) (own : DependencyResult υ) (received : DependencyResults υ)
    (name : String) : Option (DependencyResult υ) :=
  if node.action.isInternal then received name
  else if name = node.depName then some (publish node own received)
  else none

theorem handOver_apply (node : Node) (own : DependencyResult υ)
    (received target : DependencyResults υ) (name : String) :
    handOver node own received target name = match handed node own received name with
      | some result => some (DependencyResults.mergeEntry (target name) result)
      | none => target name := by
  unfold handOver handed
  split
  · rfl
  by_cases hn : name = node.depName
  · subst hn
    simp [DependencyResults.setResult]
  · simp [DependencyResults.setResult, hn]

/-! ## What a node has received -/

def State.published (s : State υ) (produces : NodeId → DependencyResult υ) (node : Node) :
    DependencyResult υ :=
  publish node (produces node.id) (s.received node.id)

/-- A node has received, under every name, the result of its one source. -/
structure Inv (dag : DAG Node NodeId) (produces : NodeId → DependencyResult υ) (s : State υ) :
    Prop where
  edges : ∀ a m, (a, m) ∈ s.delivered → dag.Edge a m ∧ a ∈ s.executed
  ready : ∀ n ∈ s.executed, ∀ a, dag.Edge a n → (a, n) ∈ s.delivered
  missing : ∀ m name, s.received m name = none →
    ∀ a source, (a, m) ∈ s.delivered → ¬ Hands dag a name source
  received : ∀ m name result, s.received m name = some result →
    ∃ a, (a, m) ∈ s.delivered ∧ ∃ node ∈ dag.nodes, Hands dag a name node.id ∧
      result.Same (s.published produces node)

theorem Inv.source_executed (h : Inv dag produces s) {name : String}
    (hha : Hands dag a name source) (ha : a ∈ s.executed) : source ∈ s.executed := by
  induction hha with
  | own => exact ha
  | inherited _ _ he _ ih => exact ih (h.edges _ _ (h.ready _ ha _ he)).2

theorem Inv.handed (h : Inv dag produces s) {node : Node} (hnode : node ∈ dag.nodes)
    (hexec : node.id ∈ s.executed) (name : String) :
    (handed node (produces node.id) (s.received node.id) name = none →
      ∀ source, ¬ Hands dag node.id name source) ∧
    ∀ result, handed node (produces node.id) (s.received node.id) name = some result →
      ∃ source ∈ dag.nodes, Hands dag node.id name source.id ∧
        result.Same (s.published produces source) := by
  have hc : ∀ {a source}, Hands dag a name source → a = node.id →
      node.action.isInternal = false ∧ name = node.depName ∨
      node.action.isInternal = true ∧ ∃ before, dag.Edge before node.id ∧
        Hands dag before name source := by
    intro a source hh ha
    cases hh with
    | @own other ho hi =>
      obtain rfl := eq_of_id_eq ho hnode ha
      exact .inl ⟨hi, rfl⟩
    | @inherited other before source name ho hi he hb =>
      obtain rfl := eq_of_id_eq ho hnode ha
      exact .inr ⟨hi, before, he, hb⟩
  unfold Forwarding.handed
  cases hi : node.action.isInternal with
  | true =>
    rw [if_pos rfl]
    constructor
    · intro hm source hh
      rcases hc hh rfl with ⟨hf, -⟩ | ⟨-, before, he, hb⟩
      · rw [hi] at hf
        cases hf
      · exact h.missing _ _ hm before source (h.ready _ hexec _ he) hb
    intro result hr
    obtain ⟨a, hd, source, hs, hh, hsa⟩ := h.received _ _ _ hr
    exact ⟨source, hs, .inherited hnode hi (h.edges _ _ hd).1 hh, hsa⟩
  | false =>
    rw [if_neg Bool.false_ne_true]
    split
    · next hn =>
      subst hn
      refine ⟨fun hno => (by cases hno), fun result hr => ?_⟩
      cases hr
      exact ⟨node, hnode, .own hnode hi, .refl _⟩
    next hn =>
    refine ⟨fun _ source hh => ?_, fun result hr => (by cases hr)⟩
    rcases hc hh rfl with ⟨-, hsa⟩ | ⟨ht, -⟩
    · exact hn hsa
    · rw [hi] at ht
      cases ht

theorem received_of_executed (h : Inv dag produces s) {a : Action}
    (hstep : step dag produces s a = some s') {n : NodeId} (hn : n ∈ s.executed) :
    s'.received n = s.received n := by
  cases a with
  | execute id =>
    obtain ⟨-, -, -, rfl⟩ := step_execute hstep
    rfl
  | deliver id target =>
    obtain ⟨node, -, -, he, -, hnw, rfl⟩ := step_deliver hstep
    refine Function.update_of_ne ?_ _ _
    rintro rfl
    exact hnw (h.ready _ hn _ he)

theorem Inv.step (hsi : SingleSource dag) (h : Inv dag produces s) {a : Action}
    (hstep : step dag produces s a = some s') : Inv dag produces s' := by
  have hst : ∀ node : Node, node.id ∈ s.executed →
      s'.published produces node = s.published produces node := by
    intro node hnd
    simp only [State.published, received_of_executed h hstep hnd]
  cases a with
  | execute id =>
    obtain ⟨-, -, hrd, rfl⟩ := step_execute hstep
    refine ⟨fun a m hd => ?_, fun n hn a he => ?_, h.missing, h.received⟩
    · obtain ⟨he, hex⟩ := h.edges a m hd
      exact ⟨he, mem_append_left _ hex⟩
    rcases mem_append.mp hn with hn | hn
    · exact h.ready n hn a he
    · rw [mem_singleton.mp hn] at he ⊢
      exact hrd a he
  | deliver id target =>
    obtain ⟨node, hnd, rfl, he, hex, hnw, rfl⟩ := step_deliver hstep
    have hme : ∀ {a m}, (a, m) ∈ s.delivered ++ [(node.id, target)] →
        (a, m) ∈ s.delivered ∨ a = node.id ∧ m = target := by
      intro a m hd
      rcases mem_append.mp hd with hd | hd
      · exact .inl hd
      · exact .inr (Prod.mk.inj (mem_singleton.mp hd))
    have hk : ∀ {a m}, (a, m) ∈ s.delivered → (a, m) ∈ s.delivered ++ [(node.id, target)] :=
      mem_append_left _
    have hl : (node.id, target) ∈ s.delivered ++ [(node.id, target)] :=
      mem_append_right _ (mem_singleton_self _)
    obtain hhn := h.handed hnd hex
    -- a result received before comes from a source that was executed
    have hb : ∀ m name result, s.received m name = some result →
        ∃ a, (a, m) ∈ s.delivered ∧ ∃ source ∈ dag.nodes, Hands dag a name source.id ∧
          source.id ∈ s.executed ∧ result.Same (s.published produces source) := by
      intro m name result hr
      obtain ⟨a, hd, source, hs, hh, hsa⟩ := h.received m name result hr
      exact ⟨a, hd, source, hs, hh, h.source_executed hh (h.edges _ _ hd).2, hsa⟩
    refine ⟨fun a m hd => ?_, fun n hn a hn_edge => ?_, fun m name hnn a source
      hd hh => ?_, fun m name result hr => ?_⟩
    · rcases hme hd with hd | ⟨rfl, rfl⟩
      · exact h.edges a m hd
      · exact ⟨he, hex⟩
    · exact hk (h.ready n hn a hn_edge)
    · by_cases hm : m = target
      · subst hm
        simp only [Function.update_self] at hnn
        rw [handOver_apply] at hnn
        split at hnn
        · cases hnn
        next hno =>
        rcases hme hd with hd | ⟨rfl, -⟩
        · exact h.missing m name hnn a source hd hh
        · exact (hhn name).1 hno source hh
      · simp only [Function.update_of_ne hm] at hnn
        rcases hme hd with hd | ⟨-, heq⟩
        · exact h.missing m name hnn a source hd hh
        · exact hm heq
    · by_cases hm : m = target
      · subst hm
        simp only [Function.update_self] at hr
        rw [handOver_apply] at hr
        split at hr
        · next res' hr' =>
          obtain ⟨source, hs, hh, hsa⟩ := (hhn name).2 res' hr'
          have hsource_executed := h.source_executed hh hex
          refine ⟨node.id, hl, source, hs, hh, ?_⟩
          rw [hst source hsource_executed]
          cases hr
          cases ho : s.received m name with
          | none => exact hsa
          | some older =>
            -- two results of one name have the same source
            obtain ⟨a, hd, src', hs', hh', -, hsa'⟩ := hb m name older ho
            have hi := hsi m name a node.id src'.id source.id (h.edges _ _ hd).1 he hh' hh
            obtain rfl := eq_of_id_eq hs' hs hi
            exact hsa'.merge hsa
        · obtain ⟨a, hd, source, hs, hh, he', hsa⟩ := hb m name result hr
          refine ⟨a, hk hd, source, hs, hh, ?_⟩
          rw [hst source he']
          exact hsa
      · simp only [Function.update_of_ne hm] at hr
        obtain ⟨a, hd, source, hs, hh, he', hsa⟩ := hb m name result hr
        refine ⟨a, hk hd, source, hs, hh, ?_⟩
        rw [hst source he']
        exact hsa

theorem inv_of_reachable (hsi : SingleSource dag) (h : (machine dag produces).Reachable s) :
    Inv dag produces s := by
  apply h.invariant
  · refine ⟨?_, ?_, ?_, ?_⟩
    · intro a m hd
      cases hd
    · intro n hn
      cases hn
    · intro m name _ a source hd
      cases hd
    · intro m name result hr
      cases hr
  · intro s a s' _ hi hs
    exact hi.step hsi hs

end Octa.Forwarding
