import Octa.Forwarding.Forwarding

/-!
# Results under every completion order

If no node receives two results under one name then the order in which nodes complete
does not matter.  Two parallel commands of one task do publish under one name.
-/

namespace Octa.Forwarding

open Octa.Dag Octa.Planner Octa.Task Transition List

variable {υ : Type} {dag : DAG Node NodeId} {produces : NodeId → DependencyResult υ}
  {s₁ s₂ : State υ}

theorem publish_same (node : Node) (own : DependencyResult υ)
    {received received' : DependencyResults υ} (h : received.Same received') :
    (publish node own received).Same (publish node own received') := by
  unfold publish
  cases hn : received node.depName with
  | none =>
    rw [(h.none_iff _).mp hn]
    exact .refl own
  | some prev =>
    cases hn' : received' node.depName with
    | none =>
      rw [(h.none_iff _).mpr hn'] at hn
      cases hn
    | some prev' => exact (h.same _ _ _ hn hn').mergeMissing

theorem same_of_sources (hsi : SingleSource dag) (h₁ : Inv dag produces s₁)
    (h₂ : Inv dag produces s₂) {n : NodeId} (hrd₁ : ∀ a, dag.Edge a n → (a, n) ∈ s₁.delivered)
    (hrd₂ : ∀ a, dag.Edge a n → (a, n) ∈ s₂.delivered)
    (hso : ∀ source ∈ s₁.executed, source ∈ s₂.executed →
      (s₁.received source).Same (s₂.received source)) : (s₁.received n).Same (s₂.received n) := by
  have hn : ∀ name, s₁.received n name = none → s₂.received n name = none := by
    intro name hm
    by_contra hsm
    obtain ⟨result, hr⟩ := Option.ne_none_iff_exists'.mp hsm
    obtain ⟨a, hd, node, -, hh, -⟩ := h₂.received n name result hr
    exact h₁.missing n name hm a _ (hrd₁ a (h₂.edges _ _ hd).1) hh
  have hn' : ∀ name, s₂.received n name = none → s₁.received n name = none := by
    intro name hm
    by_contra hsm
    obtain ⟨result, hr⟩ := Option.ne_none_iff_exists'.mp hsm
    obtain ⟨a, hd, node, -, hh, -⟩ := h₁.received n name result hr
    exact h₂.missing n name hm a _ (hrd₂ a (h₁.edges _ _ hd).1) hh
  refine ⟨fun name => ⟨hn name, hn' name⟩, fun name result res' hr hr' => ?_⟩
  obtain ⟨a, hd, node, hnd, hh, hsa⟩ := h₁.received n name result hr
  obtain ⟨a', hd', node', hnd', hh', hs'⟩ := h₂.received n name res' hr'
  obtain ⟨he, hex⟩ := h₁.edges _ _ hd
  obtain ⟨he', hex'⟩ := h₂.edges _ _ hd'
  obtain rfl := eq_of_id_eq hnd hnd' (hsi n name a a' _ _ he he' hh hh')
  have hs := hso node.id (h₁.source_executed hh hex) (h₂.source_executed hh' hex')
  exact hsa.trans ((publish_same node _ hs).trans hs'.symm)

/-- In two runs whose nodes produce the same results every node is executed with the same
dependency results, if the graph gives it at most one source for every name. -/
theorem received_deterministic (dag : DAG Node NodeId) (produces : NodeId → DependencyResult υ)
    (hsingle : SingleSource dag) (h₁ : (machine dag produces).Reachable s₁)
    (h₂ : (machine dag produces).Reachable s₂) {n : NodeId} (hn₁ : n ∈ s₁.executed)
    (hn₂ : n ∈ s₂.executed) : (s₁.received n).Same (s₂.received n) := by
  have hinv₂ := inv_of_reachable hsingle h₂
  obtain ⟨history, hrun⟩ := h₁
  -- along the first run: every node executed so far agrees with the second run
  induction hrun generalizing n with
  | start => cases hn₁
  | @step history s s' a hrun hstep ih =>
    change step dag produces s a = some s' at hstep
    have hinv := inv_of_reachable hsingle ⟨history, hrun⟩
    have hbefore : ∀ source ∈ s.executed, source ∈ s₂.executed →
        (s'.received source).Same (s₂.received source) := by
      intro source hsource hsource₂
      rw [received_of_executed hinv hstep hsource]
      exact ih hsource hsource₂
    cases a with
    | execute id =>
      obtain ⟨-, -, hready, rfl⟩ := step_execute hstep
      rcases mem_append.mp hn₁ with hn | hn
      · exact hbefore n hn hn₂
      · rw [mem_singleton.mp hn] at hn₂ ⊢
        exact same_of_sources hsingle hinv hinv₂ hready (hinv₂.ready id hn₂) hbefore
    | deliver id target =>
      obtain ⟨node, -, -, -, -, -, rfl⟩ := step_deliver hstep
      exact hbefore n hn₁ hn₂

theorem singleSource_of_names
    (h : ((dag.nodes.filter fun node => !node.action.isInternal).map fun node =>
      node.depName).Nodup) :
    SingleSource dag := by
  intro target name a a' source src' _ _ hh hh'
  obtain ⟨node, hn, rfl, hi, rfl⟩ := hh.source_mem
  obtain ⟨node', hn', rfl, hi', hna⟩ := hh'.source_mem
  have hm : ∀ node ∈ dag.nodes, node.action.isInternal = false →
      node ∈ dag.nodes.filter fun node => !node.action.isInternal := by
    intro node hn hi
    exact mem_filter.mpr ⟨hn, by rw [hi]; rfl⟩
  rw [inj_on_of_nodup_map h (hm node hn hi) (hm node' hn' hi') hna.symm]

/-! ## Two dependencies, and two commands of one dependency -/

def actionsOf (order : List NodeId) (edges : List (NodeId × NodeId)) : List Action :=
  order.flatMap fun id => .execute id :: (edges.filter fun edge => edge.1 = id).map fun edge =>
    .deliver edge.1 edge.2

/-- Runs a plan in the given order; the result is what `last` was executed with. -/
def outcome (produces : NodeId → DependencyResult υ) (order : List NodeId) (last : NodeId)
    (plan : Plan) : Option (String → Option String) :=
  ((machine plan.dag produces).exec (actionsOf order plan.dag.edges)
    (machine plan.dag produces).init).bind fun s =>
      if last ∈ s.executed then some (s.received last).stdouts else none

theorem ok_of_toOption {ε α : Type} {result : Except ε α} {a : α} (h : result.toOption = some a) :
    result = .ok a := by
  cases result with
  | error => cases h
  | ok val =>
    cases h
    rfl

theorem reachable_of_outcome {order : List NodeId} {last : NodeId} {plan : Plan}
    {stdouts : String → Option String} (h : outcome produces order last plan = some stdouts) :
    ∃ s, (machine plan.dag produces).Reachable s ∧ last ∈ s.executed ∧
      (s.received last).stdouts = stdouts := by
  obtain ⟨s, he, hl⟩ := Option.bind_eq_some_iff.mp h
  obtain ⟨hm, hs⟩ := Option.ite_none_right_eq_some.mp hl
  exact ⟨s, Machine.Reachable.exec ⟨[], .start⟩ he, hm, Option.some.inj hs⟩

theorem no_outputs_distinct :
    (([] : List (String × Task.OutputSelection)).map Prod.fst).Nodup := nodup_nil

def twoFile : TaskGraphBuilder Unit :=
  .singleFile
    [("all", {
        deps := [{ task := "one" }, { task := "two" }]
        cmds := some [.shell "use"]
        outputs_distinct := no_outputs_distinct }),
      ("one", { cmds := some [.shell "one"], outputs_distinct := no_outputs_distinct }),
      ("two", { cmds := some [.shell "two"], outputs_distinct := no_outputs_distinct })] []

def produced (id : NodeId) : DependencyResult Unit :=
  ⟨if id.serial = 2 then "one" else "two", .empty⟩

def orderOf (serials : List ℕ) (plan : Plan) : List NodeId :=
  serials.flatMap fun serial => plan.dag.ids.filter fun id => id.serial = serial

def lastCommand : NodeId := ⟨6, [.request 0, .command 0 0]⟩

/-- What the last command is executed with when the nodes complete in the given order. -/
def lastStdouts (serials : List ℕ) (names : List String) (plan : Plan) :
    Option (List (Option String)) :=
  (outcome produced (orderOf serials plan) lastCommand plan).map fun stdouts => names.map stdouts

theorem received_deterministic_two : ∃ plan s₁ s₂, twoFile.plan 3 () "all" false = .ok plan ∧
      (machine plan.dag produced).Reachable s₁ ∧ (machine plan.dag produced).Reachable s₂ ∧
      lastCommand ∈ s₁.executed ∧ lastCommand ∈ s₂.executed ∧
      (s₁.received lastCommand).Same (s₂.received lastCommand) := by
  have hplan : ((twoFile.plan 3 () "all" false).toOption.map fun plan =>
      (decide ((plan.dag.nodes.filter fun node => !node.action.isInternal).map
        fun node => node.depName).Nodup,
      lastStdouts [2, 4, 5, 6] ["one"] plan, lastStdouts [4, 2, 5, 6] ["one"] plan)) =
      some (true, some [some "one"], some [some "one"]) := by decide +kernel
  obtain ⟨plan, hok, hchecks⟩ := Option.map_eq_some_iff.mp hplan
  obtain ⟨hnames, hrest⟩ := Prod.mk.inj hchecks
  obtain ⟨hfirst, hsecond⟩ := Prod.mk.inj hrest
  obtain ⟨_, hfirst, -⟩ := Option.map_eq_some_iff.mp hfirst
  obtain ⟨_, hsecond, -⟩ := Option.map_eq_some_iff.mp hsecond
  obtain ⟨s₁, h₁, hlast₁, -⟩ := reachable_of_outcome hfirst
  obtain ⟨s₂, h₂, hlast₂, -⟩ := reachable_of_outcome hsecond
  have hsingle := singleSource_of_names (of_decide_eq_true hnames)
  exact ⟨plan, s₁, s₂, ok_of_toOption hok, h₁, h₂, hlast₁, hlast₂,
    received_deterministic plan.dag produced hsingle h₁ h₂ hlast₁ hlast₂⟩

/-- A task that depends on another one with two parallel commands. -/
def pairFile : TaskGraphBuilder Unit :=
  .singleFile
    [("all", {
        deps := [{ task := "pair" }]
        cmds := some [.shell "use"]
        outputs_distinct := no_outputs_distinct }),
      ("pair", {
        cmds := some [.shell "one", .shell "two"]
        parallel := true
        outputs_distinct := no_outputs_distinct })] []

/-- The command that completes last decides what the dependent task reads. -/
theorem completion_order_matters : ∃ plan s₁ s₂, pairFile.plan 3 () "all" false = .ok plan ∧
      (machine plan.dag produced).Reachable s₁ ∧ (machine plan.dag produced).Reachable s₂ ∧
      lastCommand ∈ s₁.executed ∧ lastCommand ∈ s₂.executed ∧
      (s₁.received lastCommand).stdouts "pair" = some "two" ∧
      (s₂.received lastCommand).stdouts "pair" = some "one" := by
  have hplan : ((pairFile.plan 3 () "all" false).toOption.map fun plan =>
      (lastStdouts [2, 3, 4, 5, 6] ["pair"] plan, lastStdouts [3, 2, 4, 5, 6] ["pair"] plan)) =
      some (some [some "two"], some [some "one"]) := by decide +kernel
  obtain ⟨plan, hok, hchecks⟩ := Option.map_eq_some_iff.mp hplan
  obtain ⟨hfirst, hsecond⟩ := Prod.mk.inj hchecks
  obtain ⟨stdouts₁, hfirst, htwo⟩ := Option.map_eq_some_iff.mp hfirst
  obtain ⟨stdouts₂, hsecond, hone⟩ := Option.map_eq_some_iff.mp hsecond
  obtain ⟨s₁, h₁, hlast₁, rfl⟩ := reachable_of_outcome hfirst
  obtain ⟨s₂, h₂, hlast₂, rfl⟩ := reachable_of_outcome hsecond
  exact ⟨plan, s₁, s₂, ok_of_toOption hok, h₁, h₂, hlast₁, hlast₂, (List.cons.inj htwo).1,
    (List.cons.inj hone).1⟩

end Octa.Forwarding
