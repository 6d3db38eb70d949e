import Octa.Planner.Layout

/-!
# The expansion lowers to layouts

What each function of the expansion does to the graph under construction, and
by induction over the depth of the recursion that every invocation is lowered
to a layout of its stages.
-/

namespace Octa.Planner

open Octa.Dag List Build
open NodeFlow hiding optional

/-! ## Inversion of the program -/

namespace Build

variable {α β : Type} {s s' : GraphState}
variable {a : α}

theorem bind_ok {x : Build α} {f : α → Build β} {b : β} (h : (x >>= f) s = .ok (b, s')) :
    ∃ a s₁, x s = .ok (a, s₁) ∧ f a s₁ = .ok (b, s') := by
  cases hx : x s with
  | error ha =>
    simp only [bind, StateT.bind, hx, Except.bind] at h
    cases h
  | ok result =>
    simp only [bind, StateT.bind, hx, Except.bind] at h
    exact ⟨result.1, result.2, rfl, h⟩

theorem pure_ok {b : α} (h : (pure a : Build α) s = .ok (b, s')) : b = a ∧ s' = s := by
  cases h
  exact ⟨rfl, rfl⟩

theorem node_ok {x : Build α} {connect : α → Build Unit} {value : α → β} {b : β}
    (h : (do let a ← x; connect a; pure (value a) : Build β) s = .ok (b, s')) :
    ∃ a s₁, x s = .ok (a, s₁) ∧ connect a s₁ = .ok ((), s') ∧ b = value a := by
  obtain ⟨a, s₁, ha, h⟩ := bind_ok h
  obtain ⟨⟨⟩, s₂, hco, h⟩ := bind_ok h
  obtain ⟨rfl, rfl⟩ := pure_ok h
  exact ⟨a, s₁, ha, hco, rfl⟩

theorem fail_ok {error : PlanError} (h : (fail error : Build α) s = .ok (a, s')) :
    False := by
  cases h

theorem ofExecutor_ok {result : Except Octa.Task.ExecutorError α}
    (h : ofExecutor result s = .ok (a, s')) : result = .ok a ∧ s' = s := by
  cases result with
  | error error => exact (fail_ok h).elim
  | ok val =>
    obtain ⟨rfl, rfl⟩ := pure_ok h
    exact ⟨rfl, rfl⟩

end Build

/-! ## Growth of the graph -/

/-- From `s` to `s'` the builder has added the nodes `added` and the edges of
the flow `f` after the entries `P`, and has planned some deferred commands. -/
structure Lowers (s s' : GraphState) (P : List NodeId) (f : NodeFlow Node) (added : List Node) :
    Prop where
  nodes : s'.dag.nodes.Perm (s.dag.nodes ++ added)
  edges : ∀ a b, s'.dag.Edge a b ↔ s.dag.Edge a b ∨ f.Edge Node.id P a b
  deferred : ∃ entries, s'.deferred = s.deferred ++ entries ∧
    ∀ entry ∈ entries, entry.1 ∈ added.map Node.id ∧ Planned entry.2.2

namespace Lowers

variable {s s₁ s' : GraphState} {P : List NodeId} {f g : NodeFlow Node} {A B : List Node}

theorem of_eq (hdag : s'.dag = s.dag) (hde : s'.deferred = s.deferred) (P : List NodeId) :
    Lowers s s' P .skip [] where
  nodes := by rw [hdag, append_nil]
  edges a b := by rw [hdag, NodeFlow.Edge, or_false]
  deferred := ⟨[], by rw [hde, append_nil], forall_mem_nil _⟩

theorem refl (s : GraphState) (P : List NodeId) : Lowers s s P .skip [] := of_eq rfl rfl P

theorem trans {Q : List NodeId} (h : Lowers s s₁ P f A) (h' : Lowers s₁ s' Q g B)
    {k : NodeFlow Node} (hed : ∀ a b, k.Edge Node.id P a b ↔
      f.Edge Node.id P a b ∨ g.Edge Node.id Q a b) : Lowers s s' P k (A ++ B) where
  nodes := by
    rw [← append_assoc]
    exact h'.nodes.trans (h.nodes.append_right B)
  edges a b := by rw [h'.edges, h.edges, hed, or_assoc]
  deferred := by
    obtain ⟨entries, hes, hk⟩ := h.deferred
    obtain ⟨es', he', hk'⟩ := h'.deferred
    refine ⟨entries ++ es', by rw [he', hes, append_assoc], ?_⟩
    intro e he
    rw [map_append, mem_append]
    rcases mem_append.mp he with he | he
    · exact ⟨.inl (hk e he).1, (hk e he).2⟩
    · exact ⟨.inr (hk' e he).1, (hk' e he).2⟩

theorem seq (h : Lowers s s₁ P f A) (h' : Lowers s₁ s' (f.exits Node.id P) g B) :
    Lowers s s' P (.seq f g) (A ++ B) :=
  h.trans h' fun _ _ => Iff.rfl

theorem snoc {fs : List (NodeFlow Node)} (h : Lowers s s₁ P (.series fs) A)
    (h' : Lowers s₁ s' ((series fs).exits Node.id P) g B) :
    Lowers s s' P (.series (fs ++ [g])) (A ++ B) := by
  apply h.trans h'
  intro a b
  rw [edge_series_append]
  simp [series, NodeFlow.Edge]

theorem fan {fs gs : List (NodeFlow Node)} (h : Lowers s s₁ P (.fan fs) A)
    (h' : Lowers s₁ s' P (.fan gs) B) : Lowers s s' P (.fan (fs ++ gs)) (A ++ B) := by
  apply h.trans h'
  intro a b
  rw [edge_fan, edge_fan, edge_fan]
  simp only [mem_append, or_and_right, exists_or]

theorem after (hdag : s₁.dag = s.dag) (hde : s₁.deferred = s.deferred)
    (h : Lowers s₁ s' P f A) : Lowers s s' P f A :=
  (of_eq hdag hde P).trans h fun a b => by simp [NodeFlow.Edge]

theorem before (h : Lowers s s₁ P f A) (hdag : s'.dag = s₁.dag)
    (hde : s'.deferred = s₁.deferred) : Lowers s s' P f A := by
  have ht := h.trans (of_eq hdag hde P) (k := f) fun a b => by simp [NodeFlow.Edge]
  rwa [append_nil] at ht

theorem perm (h : Lowers s s' P f A) (hA : A.Perm B) : Lowers s s' P f B where
  nodes := h.nodes.trans (hA.append_left _)
  edges := h.edges
  deferred := by
    obtain ⟨entries, hes, hk⟩ := h.deferred
    refine ⟨entries, hes, fun e he => ?_⟩
    exact ⟨(hA.map Node.id).mem_iff.mp (hk e he).1, (hk e he).2⟩

theorem skip_entries (h : Lowers s s' P .skip A) (Q : List NodeId) : Lowers s s' Q .skip A :=
  ⟨h.nodes, h.edges, h.deferred⟩

end Lowers

/-! ## Nodes -/

section Nodes

variable {s s' : GraphState}
variable {place : List Stage} {P : List NodeId}

theorem forall_mem_none {p : Node → Prop} : ∀ n ∈ (none : Option Node), p n := by
  intro n hn
  cases hn

theorem addNode_ok {cfg : TaskConfig} {id : NodeId} (h : addNode place cfg s = .ok (id, s')) :
    ∃ node : Node, node.toTaskConfig = cfg ∧ node.id = id ∧ id.place = place ∧
      ∀ P, Lowers s s' P .skip [node] := by
  cases h
  refine ⟨{ cfg with id := ⟨s.next, place⟩ }, rfl, rfl, rfl, fun P => ?_⟩
  refine ⟨?_, ?_, [], (append_nil _).symm, forall_mem_nil _⟩
  · rw [GraphState.insert, DAG.nodes_addNode (s.fresh place)]
  · intro a b
    rw [GraphState.insert, DAG.edge_addNode, NodeFlow.Edge, or_false]

theorem addDependency_ok {source target : NodeId}
    (h : addDependency source target s = .ok ((), s')) :
    s'.dag.nodes = s.dag.nodes ∧ s'.deferred = s.deferred ∧
      ∀ a b, s'.dag.Edge a b ↔ s.dag.Edge a b ∨ a = source ∧ b = target := by
  unfold addDependency at h
  split at h
  · next dag hd =>
    cases h
    obtain ⟨-, -, hn, he⟩ := DAG.addDependency_eq_ok hd
    exact ⟨hn, rfl, he⟩
  · cases h

theorem connectParents_ok {parents : List NodeId} {node : Node}
    (h : connectParents parents node.id s = .ok ((), s')) :
    Lowers s s' parents (.atom node) [] := by
  induction parents generalizing s with
  | nil =>
    obtain ⟨-, rfl⟩ := pure_ok h
    refine (Lowers.refl _ []).trans (Lowers.refl _ []) fun a b => ?_
    simp [NodeFlow.Edge]
  | cons parent parents ih =>
    obtain ⟨⟨⟩, s₁, ha, hr⟩ := bind_ok h
    obtain ⟨hn, hd, he⟩ := addDependency_ok ha
    have hc := ih hr
    refine ⟨?_, ?_, ?_⟩
    · rw [← hn]
      exact hc.nodes
    · intro a b
      rw [hc.edges, he]
      simp only [NodeFlow.Edge, mem_cons, or_and_right, or_assoc]
    · rw [← hd]
      exact hc.deferred

theorem lowers_node {cfg : TaskConfig} {id : NodeId} {s₁ : GraphState}
    (hadd : addNode place cfg s = .ok (id, s₁)) (hco : connectParents P id s₁ = .ok ((), s')) :
    ∃ node : Node, node.toTaskConfig = cfg ∧ node.id = id ∧ node.id.place = place ∧
      Lowers s s' P (.atom node) [node] := by
  obtain ⟨node, hc, rfl, hp, hn⟩ := addNode_ok hadd
  exact ⟨node, hc, rfl, hp, (hn P).trans (connectParents_ok hco) fun a b => by simp [NodeFlow.Edge]⟩

theorem joinNodes_ok {name : String} {nodes : List NodeId} {terminal : Option NodeId}
    (h : joinNodes place name nodes s = .ok (terminal, s')) :
    ∃ join : Option Node, (∀ n ∈ join, n.id.place = place ∧ n.action = .barrier) ∧
      Lowers s s' nodes (.optional join) join.toList ∧
      terminal.toList = (NodeFlow.optional join).exits Node.id nodes := by
  match nodes, h with
  | [], h =>
    obtain ⟨rfl, rfl⟩ := pure_ok h
    exact ⟨none, forall_mem_none, .refl _ _, rfl⟩
  | [node], h =>
    obtain ⟨rfl, rfl⟩ := pure_ok h
    exact ⟨none, forall_mem_none, .refl _ _, rfl⟩
  | node :: node' :: nodes, h =>
    obtain ⟨grp, s₁, hg, hco, rfl⟩ := node_ok h
    obtain ⟨barrier, hc, rfl, hp, hl⟩ := lowers_node hg hco
    refine ⟨some barrier, ?_, hl, rfl⟩
    intro n hn
    cases hn
    refine ⟨hp, ?_⟩
    rw [hc]

theorem joinFan_ok {name : String} {fs : List (NodeFlow Node)} {terminal : Option NodeId}
    (h : joinNodes place name (fanExits Node.id P fs) s = .ok (terminal, s')) :
    ∃ join : Option Node, (∀ n ∈ join, n.id.place = place ∧ n.action = .barrier) ∧
      Lowers s s' ((fan fs).exits Node.id P) (.optional join) join.toList ∧
      gateOrParents terminal P =
        (NodeFlow.optional join).exits Node.id ((fan fs).exits Node.id P) := by
  obtain ⟨join, hj, hl, he⟩ := joinNodes_ok h
  cases fs with
  | nil =>
    obtain ⟨rfl, rfl⟩ := pure_ok h
    exact ⟨none, forall_mem_none, .refl _ _, rfl⟩
  | cons f fs =>
    rw [exits_fan (cons_ne_nil f fs)]
    refine ⟨join, hj, hl, ?_⟩
    rw [← he]
    cases terminal with
    | some terminal => rfl
    | none =>
      -- no terminal: there were no entries either
      have hn : fanExits Node.id P (f :: fs) = [] := entries_eq_nil_of_exits he.symm
      rw [← exits_fan (cons_ne_nil f fs)] at hn
      exact entries_eq_nil_of_exits hn

theorem branches_ok {α σ : Type} {branch : α → σ → Build (List NodeId × σ)}
    {good : NodeFlow Node → Prop} {l : List α} (hbr : ∀ a ∈ l, ∀ {x x' s s' terminals},
      branch a x s = .ok ((terminals, x'), s') → ∃ fs : List (NodeFlow Node), (∀ f ∈ fs, good f) ∧
        Lowers s s' P (.fan fs) (fan fs).atoms ∧ terminals = fanExits Node.id P fs) {x x' : σ}
    {terminals : List NodeId} (h : branches branch l x s = .ok ((terminals, x'), s')) :
    ∃ fs : List (NodeFlow Node), (∀ f ∈ fs, good f) ∧
      Lowers s s' P (.fan fs) (fan fs).atoms ∧ terminals = fanExits Node.id P fs := by
  induction l generalizing x s terminals with
  | nil =>
    obtain ⟨hr, rfl⟩ := pure_ok h
    cases hr
    exact ⟨[], forall_mem_nil _, .refl _ _, rfl⟩
  | cons a l ih =>
    obtain ⟨⟨first, x₁⟩, s₁, hfi, h⟩ := bind_ok h
    obtain ⟨⟨others, x₂⟩, s₂, ho, h⟩ := bind_ok h
    obtain ⟨hr, rfl⟩ := pure_ok h
    cases hr
    obtain ⟨fs, hfs, hl, rfl⟩ := hbr a mem_cons_self hfi
    obtain ⟨gs, hg, hl', rfl⟩ := ih (fun a ha => hbr a (mem_cons_of_mem _ ha)) ho
    refine ⟨fs ++ gs, ?_, ?_, ?_⟩
    · intro f hf
      rcases mem_append.mp hf with hf | hf
      · exact hfs f hf
      · exact hg f hf
    · have hfa := hl.fan hl'
      rwa [atoms_fan, atoms_fan, ← flatMap_append, ← atoms_fan] at hfa
    · rw [fanExits, fanExits, fanExits, flatMap_append]

end Nodes

/-! ## Stages of an invocation -/

namespace TaskGraphBuilder

variable {ο : Type} {planner : TaskGraphBuilder ο} {s s' : GraphState}
variable {P parents : List NodeId} {command cmd : FindResult ο}
  {context context' : InvocationContext} {terminal : Option NodeId}

structure AddsNode (s s' : GraphState) (P Q : List NodeId) (place : List Stage)
    (node : Option Node) : Prop where
  place : ∀ n ∈ node, n.id.place = place
  lowers : Lowers s s' P (.optional node) node.toList
  exits : Q = (NodeFlow.optional node).exits Node.id P

theorem AddsNode.none (place : List Stage) : AddsNode s s P P place none :=
  ⟨forall_mem_none, .refl s P, rfl⟩

theorem forall_mem_some {p : Node → Prop} {node : Node} (h : p node) : ∀ n ∈ some node, p n := by
  intro n hn
  cases hn
  exact h

theorem AddsNode.some {place : List Stage} {cfg : TaskConfig} {id : NodeId} {s₁ : GraphState}
    (hadd : addNode place cfg s = .ok (id, s₁)) (hco : connectParents P id s₁ = .ok ((), s')) :
    ∃ node : Node, node.toTaskConfig = cfg ∧ node.id = id ∧
      AddsNode s s' P [id] place (some node) := by
  obtain ⟨node, hc, rfl, hp, hl⟩ := lowers_node hadd hco
  exact ⟨node, hc, rfl, forall_mem_some hp, hl, rfl⟩

theorem addConditionGate_ok {cond : PluginCommand} {phase : ConditionPhase} {gate : NodeId}
    (h : planner.addConditionGate command cond phase context parents s =
      .ok ((context', gate), s')) : ∃ node : Node, node.action = .condition cond ∧
      AddsNode s s' parents [gate] (context.placed phase.stage) (some node) ∧
      context' = { context with guards := context.guards ++ [gate] } := by
  obtain ⟨id, s₁, ha, hco, hr⟩ := node_ok h
  cases hr
  obtain ⟨node, hc, rfl, had⟩ := AddsNode.some ha hco
  exact ⟨node, by rw [hc], had, rfl⟩

/-- The gates and the per-command conditions of an invocation change nothing
that later stages are named by. -/
structure SameInvocation (context context' : InvocationContext) : Prop where
  place : context'.place = context.place
  depName : context'.depName = context.depName

theorem SameInvocation.refl (context : InvocationContext) : SameInvocation context context :=
  ⟨rfl, rfl⟩

theorem SameInvocation.trans {a b c : InvocationContext} (h : SameInvocation a b)
    (h' : SameInvocation b c) : SameInvocation a c :=
  ⟨h'.place.trans h.place, h'.depName.trans h.depName⟩

variable {parent par' : Option NodeId} {entries predecessors parents' : List NodeId}

theorem addOptionalGate_ok {cond : Option PluginCommand} {phase : ConditionPhase}
    (h : planner.addOptionalGate command cond phase context parent entries s =
      .ok ((context', par'), s')) : ∃ gate : Option Node, (∀ n ∈ gate, n.action.isControl) ∧
      AddsNode s s' (gateOrParents parent entries) (gateOrParents par' entries)
        (context.placed phase.stage) gate ∧ SameInvocation context context' := by
  cases cond with
  | none =>
    obtain ⟨hr, rfl⟩ := pure_ok h
    cases hr
    exact ⟨none, forall_mem_none, .none _, .refl _⟩
  | some cond =>
    obtain ⟨⟨ctx₁, gate⟩, s₁, hg, h⟩ := bind_ok h
    obtain ⟨hr, rfl⟩ := pure_ok h
    cases hr
    obtain ⟨node, ha, had, rfl⟩ := addConditionGate_ok hg
    exact ⟨some node, forall_mem_some (by rw [ha]; rfl), had, rfl, rfl⟩

theorem addAfterDependencies_ok (h : planner.addAfterDependencies command context parent entries s =
      .ok ((context', par'), s')) : ∃ gate : Option Node, (∀ n ∈ gate, n.action.isControl) ∧
      AddsNode s s' (gateOrParents parent entries) (gateOrParents par' entries)
        (context.placed .afterDependenciesGate) gate ∧ SameInvocation context context' := by
  unfold addAfterDependencies at h
  cases ha : command.task.afterDeps with
  | none =>
    rw [ha] at h
    obtain ⟨hr, rfl⟩ := pure_ok h
    cases hr
    exact ⟨none, forall_mem_none, .none _, .refl _⟩
  | some cond =>
    obtain ⟨cond, evaluate⟩ := cond
    rw [ha] at h
    cases evaluate with
    | once => exact addOptionalGate_ok h
    | perCommand =>
      obtain ⟨hr, rfl⟩ := pure_ok h
      cases hr
      exact ⟨none, forall_mem_none, .none _, rfl, rfl⟩

theorem addResourceRegistration_ok
    (h : planner.addResourceRegistration command context predecessors s = .ok (terminal, s')) :
    ∃ node : Option Node, (∀ n ∈ node, n.action.isControl) ∧
      AddsNode s s' predecessors terminal.toList (context.placed .resources) node := by
  unfold addResourceRegistration at h
  split at h
  · obtain ⟨id, s₁, ha, hco, rfl⟩ := node_ok h
    obtain ⟨node, hc, rfl, had⟩ := AddsNode.some ha hco
    exact ⟨some node, forall_mem_some (by rw [hc]; rfl), had⟩
  obtain ⟨join, hj, hl, he⟩ := joinNodes_ok h
  refine ⟨join, ?_, fun n hn => (hj n hn).1, hl, he⟩
  intro n hn
  rw [(hj n hn).2]
  rfl

theorem plain_of_cacheable {command : Octa.Task.FindResult}
    (h : command.validateCacheableTaskShape = .ok ()) :
    ∀ item ∈ command.commands, item.payload.isTask = false := by
  intro item hi
  unfold Octa.Task.FindResult.validateCacheableTaskShape at h
  split at h
  · cases h
  split at h
  · cases h
  next ha =>
  rw [Bool.not_eq_true, any_eq_false] at ha
  simpa using ha item hi

/-- The node that begins a cache boundary, whose state the stages after it share. -/
def Shares (planner : TaskGraphBuilder ο) (command : FindResult ο) (context : InvocationContext)
    (plan : Option TaskCachePlan) : Option Node → Prop
  | none => plan = none
  | some lookup => ∃ contract, plan = some contract ∧ lookup.action = .cacheLookup contract ∧
      context.taskCache = some lookup.id ∧
      ∀ item ∈ (planner.definition command).commands, item.payload.isTask = false

variable {plan : Option TaskCachePlan}

theorem addCacheLookup_ok
    (h : planner.addCacheLookup command context parents s = .ok ((context', parents', plan), s')) :
    ∃ node : Option Node, AddsNode s s' parents parents' (context.placed .cacheLookup) node ∧
      SameInvocation context context' ∧ planner.Shares command context' plan node := by
  unfold addCacheLookup at h
  split at h
  · obtain ⟨⟨⟩, s₀, hs, h₁⟩ := bind_ok h
    obtain ⟨outputs, s₁, hco, h₂⟩ := bind_ok h₁
    obtain ⟨id, s₂, ha, hcn, hr⟩ := node_ok h₂
    obtain ⟨-, rfl⟩ := Build.ofExecutor_ok hco
    obtain ⟨hs', rfl⟩ := Build.ofExecutor_ok hs
    cases hr
    obtain ⟨node, hc, rfl, had⟩ := AddsNode.some ha hcn
    exact ⟨some node, had, ⟨rfl, rfl⟩, _, rfl, by rw [hc], rfl, plain_of_cacheable hs'⟩
  obtain ⟨hr, rfl⟩ := pure_ok h
  cases hr
  exact ⟨none, .none _, .refl _, rfl⟩

/-- The node that ends a cache boundary, or a barrier where there is none. -/
def Publishes (context : InvocationContext) (node : Option Node) : Option TaskCachePlan → Prop
  | none => ∀ n ∈ node, n.action = .barrier
  | some plan => ∃ finalize state, node = some finalize ∧ context.taskCache = some state ∧
      finalize.action = .cacheFinalize plan state

theorem addCacheFinalize_ok
    (h : planner.addCacheFinalize command context plan predecessors s = .ok (terminal, s')) :
    ∃ node : Option Node,
      AddsNode s s' predecessors terminal.toList (context.placed .cacheFinalize) node ∧
      Publishes context node plan := by
  unfold addCacheFinalize at h
  split at h
  · obtain ⟨join, hj, hl, he⟩ := joinNodes_ok h
    exact ⟨join, ⟨fun n hn => (hj n hn).1, hl, he⟩, fun n hn => (hj n hn).2⟩
  next plan =>
  cases hs : context.taskCache with
  | none =>
    rw [hs] at h
    exact (Build.fail_ok h).elim
  | some st =>
    cases ho : context.cacheGuards.getLast? with
    | none =>
      rw [hs, ho] at h
      exact (Build.fail_ok h).elim
    | some owner =>
      rw [hs, ho] at h
      dsimp only at h
      split at h
      · exact (Build.fail_ok h).elim
      obtain ⟨id, s₁, ha, hco, rfl⟩ := node_ok h
      obtain ⟨node, hc, rfl, had⟩ := AddsNode.some ha hco
      exact ⟨some node, had, node, st, rfl, hs, by rw [hc]⟩

theorem startScope_ok {scope : Option ℕ}
    (h : startScope command context scope parents s = .ok (parents', s')) :
    ∃ node : Option Node, (∀ n ∈ node, n.action.isControl) ∧
      AddsNode s s' parents parents' (context.placed .start) node := by
  cases scope with
  | none =>
    obtain ⟨rfl, rfl⟩ := pure_ok h
    exact ⟨none, forall_mem_none, .none _⟩
  | some scope =>
    obtain ⟨id, s₁, ha, hco, rfl⟩ := node_ok h
    obtain ⟨node, hc, rfl, had⟩ := AddsNode.some ha hco
    exact ⟨some node, forall_mem_some (by rw [hc]; rfl), had⟩

theorem finishScope_ok {scope : Option ℕ} {term' : Option NodeId}
    (h : finishScope command context scope terminal s = .ok (term', s')) :
    ∃ node : Option Node, (∀ n ∈ node, n.action.isControl) ∧ (scope = none → node = none) ∧
      AddsNode s s' terminal.toList term'.toList (context.placed .finish) node := by
  unfold finishScope at h
  split at h
  · obtain ⟨rfl, rfl⟩ := pure_ok h
    exact ⟨none, forall_mem_none, fun _ => rfl, .none _⟩
  · obtain ⟨rfl, rfl⟩ := pure_ok h
    exact ⟨none, forall_mem_none, fun _ => rfl, .none _⟩
  next terminal =>
  obtain ⟨id, s₁, ha, hco, rfl⟩ := node_ok h
  have hp : connectParents [terminal] id s₁ = .ok ((), s') := by
    rw [connectParents, connectParents]
    simp only [bind, StateT.bind, hco, Except.bind]
    rfl
  obtain ⟨node, hc, rfl, had⟩ := AddsNode.some ha hp
  exact ⟨some node, forall_mem_some (by rw [hc]; rfl), nofun, had⟩

/-! ## Invocations below -/

/-- The invocation is lowered to a layout of its own stages and of the
invocations below it. -/
def Expanded (context : InvocationContext) (parallel : Bool) (P : List NodeId)
    (terminal : Option NodeId) (s s' : GraphState) : Prop :=
  ∃ layout : Layout, layout.Fits context.place context.depName ∧ layout.parallel = parallel ∧
    (∀ dep ∈ layout.deps, Expansion (context.place ++ [dep.1]) dep.2.1 dep.2.2) ∧
    (∀ command ∈ layout.commands, ∀ call ∈ command.2.called,
      Expansion (context.place ++ [.command command.1 call.1]) context.depName call.2) ∧
    Lowers s s' P layout.flow layout.flow.atoms ∧
    terminal.toList = layout.flow.exits Node.id P

/-- The expansion of the invocations below lowers each of them to a layout. -/
def Sound (build : Expand ο) : Prop :=
  ∀ command request runParallel s terminal s',
    build command request runParallel s = .ok (terminal, s') →
      Expanded request.context (runParallel.getD command.task.parallel) request.entryParents
        terminal s s'

def Branch (base : List Stage) (stage : Stage) (depName : String) (f : NodeFlow Node) : Prop :=
  Expansion (base ++ [stage]) depName f ∧ ∀ n ∈ f.atoms, n.id.In base stage

theorem Expanded.branch {par : Bool} (h : Expanded context par P terminal s s')
    {base : List Stage} {stage : Stage} (hpl : context.place = base ++ [stage]) :
    ∃ f, Branch base stage context.depName f ∧ Lowers s s' P (.fan [f]) (fan [f]).atoms ∧
      terminal.toList = fanExits Node.id P [f] := by
  obtain ⟨layout, hf, -, hd, hc, hl, he⟩ := h
  have hex := Expansion.mk layout hf hd hc
  rw [hpl] at hex hf
  refine ⟨layout.flow, ⟨hex, fun n hn => ?_⟩, hl, ?_⟩
  · obtain ⟨s, hs⟩ := hf.inFlow hn
    exact hs.nested
  · rw [he, fanExits, flatMap_singleton]

theorem findAndFilterCommands_ok {oct : ο} {name : String} {found : List (FindResult ο)}
    (h : planner.findAndFilterCommands oct name s = .ok (found, s')) :
    found = planner.find oct name ∧ s' = s := by
  unfold findAndFilterCommands at h
  cases hf : planner.find oct name with
  | nil =>
    rw [hf] at h
    exact (Build.fail_ok h).elim
  | cons command commands =>
    rw [hf] at h
    exact pure_ok h

theorem exists_labels {α β : Type} {p : α → β → Prop} {bs : List β} (h : ∀ b ∈ bs, ∃ a, p a b) :
    ∃ l : List (α × β), l.map Prod.snd = bs ∧ ∀ e ∈ l, p e.1 e.2 := by
  induction bs with
  | nil => exact ⟨[], rfl, forall_mem_nil _⟩
  | cons b bs ih =>
    obtain ⟨a, ha⟩ := h b mem_cons_self
    obtain ⟨l, hl, hp⟩ := ih fun b hb => h b (mem_cons_of_mem _ hb)
    refine ⟨(a, b) :: l, by rw [map_cons, hl], ?_⟩
    intro e he
    rcases mem_cons.mp he with rfl | he
    · exact ha
    · exact hp e he

variable {build : Expand ο}

def DependencyBranch (base : List Stage) (f : NodeFlow Node) : Prop :=
  ∃ label : (ℕ × ℕ) × String, Branch base (.dependency label.1.1 label.1.2) label.2 f

variable {emitted emitted' : String → ℕ}

theorem buildDependency_ok (hbu : Sound build) {dep : Dependency} {idx : ℕ}
    {found : FindResult ο × ℕ} {terminals : List NodeId}
    (h : planner.buildDependency build cmd parents context dep idx found emitted s =
      .ok ((terminals, emitted'), s')) :
    ∃ fs : List (NodeFlow Node), (∀ f ∈ fs, DependencyBranch context.place f) ∧
      Lowers s s' parents (.fan fs) (fan fs).atoms ∧
      terminals = fanExits Node.id parents fs := by
  obtain ⟨terminal, s₁, hi, h⟩ := bind_ok h
  obtain ⟨hr, rfl⟩ := pure_ok h
  cases hr
  obtain ⟨f, hb, hl, he⟩ := (hbu _ _ _ _ _ _ hi).branch rfl
  refine ⟨[f], ?_, hl, he⟩
  intro g hg
  rw [mem_singleton.mp hg]
  exact ⟨((idx, found.2), _), hb⟩

theorem buildDependencyMatches_ok (hbu : Sound build) {dep : Dependency × ℕ}
    {terminals : List NodeId}
    (h : planner.buildDependencyMatches build cmd parents context dep emitted s =
      .ok ((terminals, emitted'), s')) :
    ∃ fs : List (NodeFlow Node), (∀ f ∈ fs, DependencyBranch context.place f) ∧
      Lowers s s' parents (.fan fs) (fan fs).atoms ∧
      terminals = fanExits Node.id parents fs := by
  obtain ⟨found, s₁, hf, hbr⟩ := bind_ok h
  obtain ⟨-, rfl⟩ := findAndFilterCommands_ok hf
  apply branches_ok _ hbr
  intro found _ x x' s s' terminals hb
  exact buildDependency_ok hbu hb

theorem processDependencies_ok (hbu : Sound build)
    (h : planner.processDependencies build cmd parents context s = .ok (terminal, s')) :
    ∃ (deps : List (Stage × String × NodeFlow Node)) (grp : Option Node),
      (∀ dep ∈ deps, (∃ idx ord, dep.1 = .dependency idx ord) ∧
        Branch context.place dep.1 dep.2.1 dep.2.2) ∧
      (∀ n ∈ grp, n.id.place = context.placed .dependencies ∧ n.action = .barrier) ∧
      Lowers s s' parents (.seq (.fan (deps.map fun dep => dep.2.2)) (.optional grp))
        ((fan (deps.map fun dep => dep.2.2)).atoms ++ grp.toList) ∧
      gateOrParents terminal parents = (NodeFlow.optional grp).exits Node.id
        ((fan (deps.map fun dep => dep.2.2)).exits Node.id parents) := by
  obtain ⟨⟨terminals, emitted⟩, s₁, hbr, hg⟩ := bind_ok h
  obtain ⟨fs, hfs, hl, rfl⟩ :
      ∃ fs : List (NodeFlow Node), (∀ f ∈ fs, DependencyBranch context.place f) ∧
        Lowers s s₁ parents (.fan fs) (fan fs).atoms ∧
        terminals = fanExits Node.id parents fs := by
    apply branches_ok _ hbr
    intro dep _ x x' s s' terminals hb
    exact buildDependencyMatches_ok hbu hb
  obtain ⟨labels, rfl, hla⟩ := exists_labels hfs
  let deps : List (Stage × String × NodeFlow Node) := labels.map fun e =>
    (.dependency e.1.1.1 e.1.1.2, e.1.2, e.2)
  have hf : deps.map (fun dep => dep.2.2) = labels.map Prod.snd := by
    rw [map_map]
    rfl
  have hde : ∀ dep ∈ deps, (∃ idx ord, dep.1 = .dependency idx ord) ∧
      Branch context.place dep.1 dep.2.1 dep.2.2 := by
    intro dep hd
    obtain ⟨e, he, rfl⟩ := mem_map.mp hd
    exact ⟨⟨_, _, rfl⟩, hla e he⟩
  dsimp only at hg
  split at hg
  · next hem =>
    obtain ⟨rfl, rfl⟩ := pure_ok hg
    refine ⟨deps, none, hde, forall_mem_none, ?_, ?_⟩
    · rw [hf]
      exact hl.seq (.refl _ _)
    rw [hf]
    cases hli : labels.map Prod.snd with
    | nil => rfl
    | cons f fs =>
      rw [hli] at hem
      have hn : fanExits Node.id parents (f :: fs) = [] := List.isEmpty_iff.mp hem
      rw [← exits_fan (cons_ne_nil f fs)] at hn
      rw [hn]
      exact entries_eq_nil_of_exits hn
  · next hne =>
    obtain ⟨id, s₂, ha, hco, rfl⟩ := node_ok hg
    obtain ⟨node, hc, rfl, hp, hno⟩ := lowers_node ha hco
    have hli : labels.map Prod.snd ≠ [] := by
      intro hn
      rw [hn] at hne
      exact hne rfl
    refine ⟨deps, some node, hde, forall_mem_some ⟨hp, by rw [hc]⟩, ?_, ?_⟩
    · rw [hf]
      apply hl.seq
      rw [exits_fan hli]
      exact hno
    · rfl

theorem gateOrParents_or (gate parent : Option NodeId) (entries : List NodeId) :
    gateOrParents (gate.or parent) entries = gateOrParents gate (gateOrParents parent entries) := by
  cases gate <;> rfl

end TaskGraphBuilder

end Octa.Planner
