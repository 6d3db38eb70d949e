import Octa.Foundation.Flow
import Octa.Planner.Expansion

/-!
# The layout of an invocation

The abstract shape of the subgraph that one invocation is lowered to: a series
of stages, each of them empty, one node, or the subgraphs of other invocations
side by side.
-/

namespace Octa.Planner

open Octa.Dag
open NodeFlow hiding optional
open List hiding get
open Relation

/-! ## Stages -/

namespace Stage

/-- The place of a stage in an invocation.  The commands of a sequential body
and the deferred commands have an order among themselves. -/
def position (sequential : Bool) : Stage → ℕ × ℤ
  | request _ => (0, 0)
  | commandGate => (1, 0)
  | beforeDependenciesGate => (2, 0)
  | dependency _ _ => (3, 0)
  | dependencies => (4, 0)
  | afterDependenciesGate => (5, 0)
  | cacheLookup => (6, 0)
  | start => (7, 0)
  | command index _ => (8, if sequential then index else 0)
  | commandJoin index => (8, if sequential then index else 0)
  | join => (9, 0)
  | deferredRoot => (10, 0)
  | deferred index => (11, -index)
  | resources => (12, 0)
  | cacheFinalize => (13, 0)
  | finish => (14, 0)

/-- The order that the stages of an invocation are promised to have. -/
def Before (sequential : Bool) (s s' : Stage) : Prop :=
  (s.position sequential).1 < (s'.position sequential).1 ∨
    (s.position sequential).1 = (s'.position sequential).1 ∧
      (s.position sequential).2 < (s'.position sequential).2

instance (sequential : Bool) (s s' : Stage) : Decidable (Before sequential s s') :=
  inferInstanceAs (Decidable (_ ∨ _))

def commandIndex : Stage → Option ℕ
  | command index _ | commandJoin index => some index
  | _ => none

theorem Before.same_rank {sequential : Bool} {s s' : Stage}
    (hrank : (s.position sequential).1 = (s'.position sequential).1)
    (h : (s.position sequential).2 < (s'.position sequential).2) :
    (sequential = true ∧ ∃ i j, s.commandIndex = some i ∧ s'.commandIndex = some j ∧ i < j) ∨
      ∃ i j, s = deferred i ∧ s' = deferred j ∧ j < i := by
  cases sequential
  · cases s <;> cases s' <;> simp_all [position]
  · cases s <;> cases s' <;> simp_all [position, commandIndex]

end Stage

/-- The node was created by a stage of the invocation at `base`. -/
def NodeId.In (id : NodeId) (base : List Stage) (stage : Stage) : Prop :=
  base ++ [stage] <+: id.place

/-- Nodes that neither run a command nor belong to a cache boundary. -/
def NodeAction.isControl : NodeAction → Bool
  | .condition _ | .barrier | .registerResources => true
  | _ => false

/-! ## Layouts -/

/-- A command that is not deferred: a node, or the invocations of a task call
with the barrier that joins several of them. -/
inductive CommandLayout where
  | plugin (node : Node)
  | calls (called : List (ℕ × NodeFlow Node)) (join : Option Node)

namespace CommandLayout

def called : CommandLayout → List (ℕ × NodeFlow Node)
  | plugin _ => []
  | calls called _ => called

def flow : CommandLayout → NodeFlow Node
  | plugin node => .atom node
  | calls called join => .seq (.fan (called.map Prod.snd)) (.optional join)

end CommandLayout

def bodyFlow (parallel : Bool) (commands : List (ℕ × CommandLayout)) : NodeFlow Node :=
  if parallel then .fan (commands.map fun command => command.2.flow)
  else .series (commands.map fun command => command.2.flow)

structure Prefix where
  commandGate : Option Node
  beforeGate : Option Node
  /-- stage, published name and subgraph of the invocations of the dependencies -/
  deps : List (Stage × String × NodeFlow Node)
  group : Option Node
  afterGate : Option Node

structure Suffix where
  lookup : Option Node
  start : Option Node
  parallel : Bool
  commands : List (ℕ × CommandLayout)
  join : Option Node
  deferredRoot : Option Node
  /-- the barriers of the deferred commands in the order of the graph -/
  deferred : List (ℕ × Node)
  resources : Option Node
  finalize : Option Node
  finish : Option Node

structure Layout extends Prefix, Suffix

def Layout.At (base : List Stage) (stage : Stage) (node : Option Node) : Prop :=
  ∀ n ∈ node, n.id.place = base ++ [stage]

/-- The command belongs to the invocation at `base`, whose commands publish
their results under `depName`. -/
def CommandLayout.Fits (base : List Stage) (depName : String) (index : ℕ) : CommandLayout → Prop
  | plugin node => node.id.place = base ++ [.command index 0] ∧ node.depName = depName ∧
      ∃ config, node.action = .command config
  | calls called join => Layout.At base (.commandJoin index) join ∧
      (∀ n ∈ join, n.action = .barrier) ∧
      ∀ call ∈ called, ∀ n ∈ call.2.atoms, n.id.In base (.command index call.1)

namespace Prefix

variable (stages : Prefix)

def dependencies : NodeFlow Node := .fan (stages.deps.map fun dep => dep.2.2)

def parts : List (ℕ × NodeFlow Node) :=
  [(1, .optional stages.commandGate), (2, .optional stages.beforeGate),
    (3, stages.dependencies), (4, .optional stages.group), (5, .optional stages.afterGate)]

def control : List Node :=
  stages.commandGate.toList ++ stages.beforeGate.toList ++ stages.group.toList ++
    stages.afterGate.toList

structure Fits (base : List Stage) : Prop where
  commandGate : Layout.At base .commandGate stages.commandGate
  beforeGate : Layout.At base .beforeDependenciesGate stages.beforeGate
  deps : ∀ dep ∈ stages.deps, (∃ index ordinal, dep.1 = .dependency index ordinal) ∧
    ∀ n ∈ dep.2.2.atoms, n.id.In base dep.1
  group : Layout.At base .dependencies stages.group
  afterGate : Layout.At base .afterDependenciesGate stages.afterGate
  control_before : ∀ n ∈ stages.control, n.action.isControl

end Prefix

namespace Suffix

variable (stages : Suffix)

def body : NodeFlow Node := bodyFlow stages.parallel stages.commands

def cleanup : NodeFlow Node := .series (stages.deferred.map fun entry => .atom entry.2)

def parts : List (ℕ × NodeFlow Node) :=
  [(6, .optional stages.lookup), (7, .optional stages.start), (8, stages.body),
    (9, .optional stages.join), (10, .optional stages.deferredRoot), (11, stages.cleanup),
    (12, .optional stages.resources), (13, .optional stages.finalize),
    (14, .optional stages.finish)]

def control : List Node :=
  stages.start.toList ++ stages.join.toList ++ stages.deferredRoot.toList ++
    stages.deferred.map Prod.snd ++ stages.resources.toList ++ stages.finish.toList

structure Fits (base : List Stage) (depName : String) : Prop where
  lookup : Layout.At base .cacheLookup stages.lookup
  start : Layout.At base .start stages.start
  commands : ∀ command ∈ stages.commands, command.2.Fits base depName command.1
  commands_ordered : stages.commands.Pairwise fun c c' => c.1 < c'.1
  join : Layout.At base .join stages.join
  deferredRoot : Layout.At base .deferredRoot stages.deferredRoot
  deferred : ∀ entry ∈ stages.deferred, entry.2.id.place = base ++ [.deferred entry.1]
  deferred_ordered : stages.deferred.Pairwise fun d d' => d'.1 < d.1
  resources : Layout.At base .resources stages.resources
  finalize : Layout.At base .cacheFinalize stages.finalize
  finish : Layout.At base .finish stages.finish
  control_after : ∀ n ∈ stages.control, n.action.isControl
  /-- a cache boundary has both ends, no task call in between and nothing behind -/
  cached : match stages.lookup with
    | none => ∀ n ∈ stages.finalize, n.action = .barrier
    | some lookup => ∃ plan finalize, stages.finalize = some finalize ∧
        lookup.action = .cacheLookup plan ∧ finalize.action = .cacheFinalize plan lookup.id ∧
        (∀ command ∈ stages.commands, command.2.called = []) ∧ stages.finish = none

end Suffix

namespace Layout

variable (layout : Layout)

def parts : List (ℕ × NodeFlow Node) := layout.toPrefix.parts ++ layout.toSuffix.parts

def flow : NodeFlow Node := .series (layout.parts.map Prod.snd)

/-- The layout belongs to the invocation at `base`, whose commands publish
their results under `depName`. -/
structure Fits (base : List Stage) (depName : String) : Prop extends
  before : layout.toPrefix.Fits base, after : layout.toSuffix.Fits base depName

end Layout

inductive Expansion : List Stage → String → NodeFlow Node → Prop
  | mk {base : List Stage} {depName : String} (layout : Layout)
      (fits : layout.Fits base depName)
      (deps : ∀ dep ∈ layout.deps, Expansion (base ++ [dep.1]) dep.2.1 dep.2.2)
      (calls : ∀ command ∈ layout.commands, ∀ call ∈ command.2.called,
        Expansion (base ++ [.command command.1 call.1]) depName call.2) :
      Expansion base depName layout.flow

structure Realizes (dag : DAG Node NodeId) (f : NodeFlow Node) : Prop where
  nodes : dag.nodes.Perm f.atoms
  edges : ∀ a b, dag.Edge a b ↔ f.Edge Node.id [] a b

def Requested (f : NodeFlow Node) : Prop := ∃ base depName, Expansion base depName f

/-- The barrier that stands for a plan without any other node. -/
def Skipped (dag : DAG Node NodeId) (f : NodeFlow Node) : Prop :=
  ∃ node, f = .atom node ∧ node.action = .barrier ∧ dag.nodes = [node]

inductive Planned : Plan → Prop
  | mk {dag : DAG Node NodeId} {deferred : List (NodeId × DeferredAction × Plan)}
      (requests : List (NodeFlow Node)) (realizes : Realizes dag (.fan requests))
      (requested : ∀ f ∈ requests, Requested f ∨ Skipped dag f)
      (barrier : ∀ entry ∈ deferred, entry.1 ∈ dag.ids)
      (nested : ∀ entry ∈ deferred, Planned entry.2.2) : Planned ⟨dag, deferred⟩

/-! ## Order -/

variable {base : List Stage} {depName : String}

variable {id : NodeId}

theorem NodeId.In.of_eq {stage : Stage} (h : id.place = base ++ [stage]) : id.In base stage := by
  rw [NodeId.In, h]

theorem NodeId.In.unique {s s' : Stage} (h : id.In base s) (h' : id.In base s') : s = s' := by
  obtain ⟨rest, hr⟩ := h
  obtain ⟨rest', hr'⟩ := h'
  rw [← hr', append_assoc, append_assoc, append_cancel_left_eq] at hr
  exact (cons.inj hr).1

theorem NodeId.In.nested {s s' : Stage} (h : id.In (base ++ [s]) s') : id.In base s :=
  (prefix_append (base ++ [s]) [s']).trans h

theorem atoms_bodyFlow (par : Bool) (commands : List (ℕ × CommandLayout)) :
    (bodyFlow par commands).atoms = commands.flatMap fun command => command.2.flow.atoms := by
  rw [bodyFlow]
  split
  · rw [atoms_fan, flatMap_map]
  · rw [atoms_series, flatMap_map]

theorem atoms_chain (entries : List (ℕ × Node)) :
    (series (entries.map fun e => atom e.2)).atoms = entries.map Prod.snd := by
  rw [atoms_series, flatMap_map]
  induction entries with
  | nil => rfl
  | cons e entries ih => rw [flatMap_cons, ih]; rfl

namespace Layout

variable {layout : Layout}

theorem At.inPart {stage : Stage} {node : Option Node} (h : At base stage node) :
    ∀ n ∈ (NodeFlow.optional node).atoms, n.id.In base stage := by
  intro n hn
  rw [atoms_optional, Option.mem_toList] at hn
  exact .of_eq (h n hn)

variable {n x y : Node}

theorem Fits.inCommand (h : layout.Fits base depName) {idx : ℕ} {command : CommandLayout}
    (hcmd : (idx, command) ∈ layout.commands) (hn : n ∈ command.flow.atoms) :
    (∃ ord, n.id.In base (.command idx ord)) ∨ n.id.In base (.commandJoin idx) := by
  cases command with
  | plugin node =>
    rw [mem_singleton.mp hn]
    exact .inl ⟨0, .of_eq (h.commands _ hcmd).1⟩
  | calls called join =>
    obtain ⟨hj, -, hc⟩ := h.commands _ hcmd
    rw [CommandLayout.flow, atoms_seq, mem_append] at hn
    rcases hn with hn | hn
    · rw [atoms_fan, flatMap_map] at hn
      obtain ⟨call, hcl, hn⟩ := mem_flatMap.mp hn
      exact .inl ⟨call.1, hc call hcl n hn⟩
    · exact .inr (hj.inPart n hn)

variable {r i : ℕ}

theorem Fits.rank (h : layout.Fits base depName) (sequential : Bool) {f : NodeFlow Node}
    (hpart : (r, f) ∈ layout.parts) (hn : n ∈ f.atoms) :
    ∃ s : Stage, n.id.In base s ∧ (s.position sequential).1 = r := by
  simp only [parts, Prefix.parts, Suffix.parts, cons_append, nil_append, mem_cons,
    not_mem_nil, or_false, Prod.mk.injEq] at hpart
  rcases hpart with ⟨rfl, rfl⟩ | ⟨rfl, rfl⟩ | ⟨rfl, rfl⟩ | ⟨rfl, rfl⟩ | ⟨rfl, rfl⟩ | ⟨rfl, rfl⟩ |
    ⟨rfl, rfl⟩ | ⟨rfl, rfl⟩ | ⟨rfl, rfl⟩ | ⟨rfl, rfl⟩ | ⟨rfl, rfl⟩ | ⟨rfl, rfl⟩ | ⟨rfl, rfl⟩ |
    ⟨rfl, rfl⟩
  · exact ⟨_, h.commandGate.inPart n hn, rfl⟩
  · exact ⟨_, h.beforeGate.inPart n hn, rfl⟩
  · rw [Prefix.dependencies, atoms_fan, flatMap_map] at hn
    obtain ⟨dep, hd, hn⟩ := mem_flatMap.mp hn
    obtain ⟨⟨idx, ord, hs⟩, ha⟩ := h.deps dep hd
    exact ⟨_, ha n hn, by rw [hs]; rfl⟩
  · exact ⟨_, h.group.inPart n hn, rfl⟩
  · exact ⟨_, h.afterGate.inPart n hn, rfl⟩
  · exact ⟨_, h.lookup.inPart n hn, rfl⟩
  · exact ⟨_, h.start.inPart n hn, rfl⟩
  · rw [Suffix.body, atoms_bodyFlow] at hn
    obtain ⟨⟨idx, command⟩, hc, hn⟩ := mem_flatMap.mp hn
    rcases h.inCommand hc hn with ⟨ord, hi⟩ | hi
    · exact ⟨_, hi, rfl⟩
    · exact ⟨_, hi, rfl⟩
  · exact ⟨_, h.join.inPart n hn, rfl⟩
  · exact ⟨_, h.deferredRoot.inPart n hn, rfl⟩
  · rw [Suffix.cleanup, atoms_chain] at hn
    obtain ⟨e, he, rfl⟩ := mem_map.mp hn
    exact ⟨_, .of_eq (h.deferred e he), rfl⟩
  · exact ⟨_, h.resources.inPart n hn, rfl⟩
  · exact ⟨_, h.finalize.inPart n hn, rfl⟩
  · exact ⟨_, h.finish.inPart n hn, rfl⟩

theorem exists_part (hn : n ∈ layout.flow.atoms) : ∃ part ∈ layout.parts, n ∈ part.2.atoms := by
  rw [flow, atoms_series, flatMap_map] at hn
  exact mem_flatMap.mp hn

theorem Fits.inFlow (h : layout.Fits base depName) (hn : n ∈ layout.flow.atoms) :
    ∃ s : Stage, n.id.In base s := by
  obtain ⟨⟨r, f⟩, hp, hn⟩ := exists_part hn
  obtain ⟨s, hs, -⟩ := h.rank true hp hn
  exact ⟨s, hs⟩

theorem Fits.part_of_in (h : layout.Fits base depName) (sequential : Bool)
    (hn : n ∈ layout.flow.atoms) {s : Stage} (hs : n.id.In base s) :
    ∃ f, ((s.position sequential).1, f) ∈ layout.parts ∧ n ∈ f.atoms := by
  obtain ⟨⟨r, f⟩, hp, hn⟩ := exists_part hn
  obtain ⟨s', hs', hr⟩ := h.rank sequential hp hn
  obtain rfl := hs.unique hs'
  rw [hr]
  exact ⟨f, hp, hn⟩

theorem ranks_increase : layout.parts.Pairwise fun p q => ¬q.1 < p.1 := by
  simp [parts, Prefix.parts, Suffix.parts]

variable {P : List NodeId}

theorem Fits.ordered_ranks (h : layout.Fits base depName) {sequential : Bool}
    (hx : x ∈ layout.flow.atoms) (hy : y ∈ layout.flow.atoms) {s s' : Stage} (hxs : x.id.In base s)
    (hys : y.id.In base s') (hrank : (s.position sequential).1 < (s'.position sequential).1) :
    TransGen (layout.flow.Edge Node.id P) x.id y.id := by
  obtain ⟨f, hf, hxf⟩ := h.part_of_in sequential hx hxs
  obtain ⟨g, hg, hyg⟩ := h.part_of_in sequential hy hys
  exact series_ordered Node.id (· < ·) Nat.lt_irrefl ranks_increase hf hg hrank
    (mem_map_of_mem hxf) (mem_map_of_mem hyg) P

theorem ordered_inside {f : NodeFlow Node} (hpart : (r, f) ∈ layout.parts) {a b : NodeId}
    (h : ∀ Q, TransGen (f.Edge Node.id Q) a b) : TransGen (layout.flow.Edge Node.id P) a b := by
  obtain ⟨Q, hQ⟩ := series_inner Node.id (mem_map_of_mem hpart) P
  exact TransGen.mono hQ _ _ (h Q)

section

variable (h : layout.Fits base depName)
include h

theorem Fits.ordered_commands (hseq : layout.parallel = false)
    {j : ℕ} {command cmd' : CommandLayout}
    (hx : (i, command) ∈ layout.commands ∧ x ∈ command.flow.atoms)
    (hy : (j, cmd') ∈ layout.commands ∧ y ∈ cmd'.flow.atoms) (hij : i < j) :
    TransGen (layout.flow.Edge Node.id P) x.id y.id := by
  have hb : (8, layout.body) ∈ layout.parts := by
    simp [parts, Prefix.parts, Suffix.parts]
  apply ordered_inside hb
  intro Q
  have hf : (layout.commands.map fun c => (c.1, c.2.flow)).Pairwise fun p q => ¬q.1 < p.1 := by
    rw [pairwise_map]
    exact h.commands_ordered.imp fun hl => Nat.lt_asymm hl
  have ho := series_ordered Node.id (· < ·) Nat.lt_irrefl hf
    (mem_map_of_mem hx.1) (mem_map_of_mem hy.1) hij (mem_map_of_mem hx.2)
    (mem_map_of_mem hy.2) Q
  rw [List.map_map] at ho
  rw [Suffix.body, bodyFlow, if_neg (by simp [hseq])]
  exact ho

theorem Fits.ordered_deferred {d d' : ℕ × Node}
    (hd : d ∈ layout.deferred) (hd' : d' ∈ layout.deferred) (hlt : d'.1 < d.1) :
    TransGen (layout.flow.Edge Node.id P) d.2.id d'.2.id := by
  have hc : (11, layout.cleanup) ∈ layout.parts := by
    simp [parts, Prefix.parts, Suffix.parts]
  apply ordered_inside hc
  intro Q
  have hf : (layout.deferred.map fun d => (d.1, atom d.2)).Pairwise fun p q => ¬p.1 < q.1 := by
    rw [pairwise_map]
    exact h.deferred_ordered.imp fun hlt => Nat.lt_asymm hlt
  have ho := series_ordered Node.id (fun i j => j < i) Nat.lt_irrefl hf
    (mem_map_of_mem hd) (mem_map_of_mem hd') hlt (mem_singleton_self _)
    (mem_singleton_self _) Q
  rw [List.map_map] at ho
  exact ho

theorem Fits.command_of_in (hn : n ∈ layout.flow.atoms) {s : Stage}
    (hs : n.id.In base s) (hi : s.commandIndex = some i) :
    ∃ command, (i, command) ∈ layout.commands ∧ n ∈ command.flow.atoms := by
  have hr : (s.position true).1 = 8 := by
    cases s <;> simp [Stage.commandIndex] at hi <;> rfl
  obtain ⟨f, hf, hnf⟩ := h.part_of_in true hn hs
  rw [hr] at hf
  have hb : f = layout.body := by
    simpa [parts, Prefix.parts, Suffix.parts] using hf
  rw [hb, Suffix.body, atoms_bodyFlow] at hnf
  obtain ⟨⟨j, command⟩, hc, hnc⟩ := mem_flatMap.mp hnf
  have hj : s.commandIndex = some j := by
    rcases h.inCommand hc hnc with ⟨ord, hin⟩ | hin
    · rw [hs.unique hin]
      rfl
    · rw [hs.unique hin]
      rfl
  cases hi.symm.trans hj
  exact ⟨command, hc, hnc⟩

theorem Fits.deferred_of_in (hn : n ∈ layout.flow.atoms)
    (hs : n.id.In base (.deferred i)) : (i, n) ∈ layout.deferred := by
  obtain ⟨f, hf, hnf⟩ := h.part_of_in true hn hs
  have hc : f = layout.cleanup := by
    simpa [Stage.position, parts, Prefix.parts, Suffix.parts] using hf
  rw [hc, Suffix.cleanup, atoms_chain] at hnf
  obtain ⟨⟨j, node⟩, he, rfl⟩ := mem_map.mp hnf
  have hj := hs.unique (.of_eq (h.deferred _ he))
  rw [Stage.deferred.injEq] at hj
  rw [hj]
  exact he

theorem Fits.ordered (hx : x ∈ layout.flow.atoms)
    (hy : y ∈ layout.flow.atoms) {s s' : Stage} (hxs : x.id.In base s) (hys : y.id.In base s')
    (hb : Stage.Before (!layout.parallel) s s') :
    TransGen (layout.flow.Edge Node.id P) x.id y.id := by
  rcases hb with hr | ⟨hr, hl⟩
  · exact h.ordered_ranks hx hy hxs hys hr
  rcases Stage.Before.same_rank hr hl with ⟨hs, i, j, hi, hj, hij⟩ | ⟨i, j, rfl, rfl, hij⟩
  · obtain ⟨command, hc⟩ := h.command_of_in hx hxs hi
    obtain ⟨cmd', hc'⟩ := h.command_of_in hy hys hj
    exact h.ordered_commands (by simpa using hs) hc hc' hij
  have hd := h.deferred_of_in hx hxs
  have hdy := h.deferred_of_in hy hys
  exact h.ordered_deferred hd hdy hij

end

end Layout

end Octa.Planner
