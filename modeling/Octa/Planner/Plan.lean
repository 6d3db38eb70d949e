import Octa.Cache.RelativePath
import Octa.Dag.Dag
import Octa.Task.Command

/-!
# Tasks, nodes and plans

What the planner reads and what it produces: the tasks of an Octafile hierarchy,
the nodes they are lowered to, and the plans that carry the nested plans of
their deferred commands.
-/

namespace Octa.Planner

open Octa.Cache (RelativePath FsPath)
open Octa.Dag
open Octa.Task (RunMode CommandOptions CommandNode OctafileTask OutputSelection)

/-! ## Octafiles -/

structure PluginCommand where
  key : String
  value : String
  deriving DecidableEq, Repr

/-- Whether an `after_deps` condition is one gate or is attached to every command. -/
inductive ConditionEvaluation where
  | once
  | perCommand
  deriving DecidableEq, Repr

structure TaskCondition where
  command : PluginCommand
  evaluate : ConditionEvaluation
  deriving DecidableEq, Repr

structure TaskCommand extends Octa.Task.TaskCommand where
  condition : Option PluginCommand
  deriving DecidableEq, Repr

structure Dependency where
  task : String
  timeout : Option ℕ := none
  raw : Option Bool := none
  interactive : Option Bool := none
  deriving DecidableEq, Repr

structure Task where
  deps : List Dependency := []
  beforeDeps : Option PluginCommand := none
  afterDeps : Option TaskCondition := none
  /-- the plugin key of a shorthand task -/
  plugin : Option String := none
  cmds : Option (List TaskCommand) := none
  /-- the execution mode of the body is parallel -/
  parallel : Bool := false
  /-- the platforms of the task include the current one -/
  onPlatform : Bool := true
  internal : Bool := false
  interactive : Option Bool := none
  raw : Option Bool := none
  ignoreError : Option Bool := none
  failfast : Option Bool := none
  timeout : Option ℕ := none
  run : Option RunMode := none
  /-- the task declares a persistent cache -/
  cache : Bool := false
  /-- the task declares artifacts or reports -/
  resources : Bool := false
  outputs : List (String × OutputSelection) := []
  outputs_distinct : (outputs.map Prod.fst).Nodup := by decide

namespace Task

def definition (task : Task) : OctafileTask where
  raw := task.raw
  interactive := task.interactive
  ignoreError := task.ignoreError
  timeout := task.timeout
  run := task.run
  plugin := task.plugin
  cmds := task.cmds.map fun commands => commands.map TaskCommand.toTaskCommand
  outputs := task.outputs
  outputs_distinct := task.outputs_distinct

/-- Applies command metadata while retaining defaults from its containing and referenced tasks. -/
def applyCommandOptions (task containing : Task) (options : CommandOptions) : Task :=
  { task with
    timeout := options.timeout.or (containing.timeout.or task.timeout)
    raw := options.raw.or (containing.raw.or task.raw)
    ignoreError := options.ignoreError.or (containing.ignoreError.or task.ignoreError) }

end Task

/-- A task as the finder returns it, with the Octafile that declares it. -/
structure FindResult (ο : Type) where
  name : String
  octafile : ο
  task : Task

/-! ## Nodes -/

/-- The part of an expansion that creates a node.  The numbers are positions
among the declared dependencies or commands, and among the matches of one
selector. -/
inductive Stage where
  | request (ordinal : ℕ)
  | commandGate
  | beforeDependenciesGate
  | dependency (index ordinal : ℕ)
  | dependencies
  | afterDependenciesGate
  | cacheLookup
  | start
  | command (index ordinal : ℕ)
  | commandJoin (index : ℕ)
  | join
  | deferredRoot
  | deferred (index : ℕ)
  | resources
  | cacheFinalize
  | finish
  deriving DecidableEq, Repr

/-- A fresh identifier: the source draws a random one, here it is numbered.  It
also records where in the expansion it was drawn, outermost stage first. -/
structure NodeId where
  serial : ℕ
  place : List Stage
  deriving DecidableEq, Repr

structure TaskCachePlan where
  workspace : FsPath
  outputs : List RelativePath
  deriving DecidableEq

/-- The work of a node.  The decision of a condition and the state of a cache
boundary are known by the node that owns them. -/
inductive NodeAction where
  | command (config : CommandNode)
  | condition (command : PluginCommand)
  | barrier
  | registerResources
  | cacheLookup (plan : TaskCachePlan)
  | cacheFinalize (plan : TaskCachePlan) (state : NodeId)

structure TaskConfig where
  name : String
  depName : String
  action : NodeAction
  /-- conditions evaluated by the node itself -/
  conditions : List PluginCommand := []
  /-- decisions of earlier gates that suppress the node -/
  guards : List NodeId := []
  /-- cache decisions whose hit suppresses the node -/
  cacheGuards : List NodeId := []
  /-- the cache boundary that collects the result of the node -/
  taskCache : Option NodeId := none
  scope : Option ℕ := none
  interactiveSession : Option ℕ := none
  failfast : Option Bool := none

structure Node extends TaskConfig where
  id : NodeId

instance : Identifiable Node NodeId := ⟨Node.id⟩

namespace NodeAction

/-- Internal nodes hand on what they have received instead of a result of their own. -/
def isInternal : NodeAction → Bool
  | .command _ | .cacheFinalize _ _ => false
  | _ => true

end NodeAction

structure DeferredAction where
  command : String
  /-- declaration order within the plan -/
  order : ℕ
  /-- nodes that must finish before the action is considered registered -/
  registeredAfter : List NodeId
  deriving DecidableEq, Repr

/-- A graph with the deferred actions of its barriers and their own plans. -/
inductive Plan where
  | mk (dag : DAG Node NodeId) (deferred : List (NodeId × DeferredAction × Plan))

namespace Plan

def dag : Plan → DAG Node NodeId
  | mk dag _ => dag

def deferred : Plan → List (NodeId × DeferredAction × Plan)
  | mk _ deferred => deferred

end Plan

/-! ## The program -/

inductive PlanError where
  | commandNotFound (name : String)
  | taskNotFound (name : String)
  | cycleDetected
  | nodeNotFound (id : NodeId)
  | taskConfigFieldMissing (field : String)
  | taskFailed (message : String)
  | executor (error : Octa.Task.ExecutorError)
  deriving DecidableEq, Repr

/-- The graph under construction.  Identifiers in it are below the next one. -/
structure GraphState where
  next : ℕ
  dag : DAG Node NodeId
  deferOrder : ℕ
  deferred : List (NodeId × DeferredAction × Plan)
  bounded : ∀ id ∈ dag.ids, id.serial < next

/-- Why planning ends without a result: with an error, or not at all within the
given depth of recursion. -/
inductive Halt where
  | error (error : PlanError)
  | exhausted
  deriving DecidableEq, Repr

abbrev Build := StateT GraphState (Except Halt)

namespace Build

variable {α : Type}

def fail (error : PlanError) : Build α := throw (.error error)

def ofExcept : Except PlanError α → Build α
  | .ok value => pure value
  | .error error => fail error

def ofExecutor : Except Octa.Task.ExecutorError α → Build α
  | .ok value => pure value
  | .error error => fail (.executor error)

end Build

namespace GraphState

def empty (next : ℕ) : GraphState where
  next := next
  dag := .new
  deferOrder := 0
  deferred := []
  bounded := nofun

def plan (s : GraphState) : Plan := ⟨s.dag, s.deferred⟩

theorem fresh (s : GraphState) (place : List Stage) : ⟨s.next, place⟩ ∉ s.dag.ids :=
  fun h => Nat.lt_irrefl _ (s.bounded _ h)

def insert (s : GraphState) (place : List Stage) (config : TaskConfig) : GraphState :=
  { s with
    next := s.next + 1
    dag := s.dag.addNode { config with id := ⟨s.next, place⟩ }
    bounded := by
      intro id hid
      rw [DAG.ids_addNode (s.fresh place)] at hid
      rcases List.mem_append.mp hid with hid | hid
      · exact Nat.lt_succ_of_lt (s.bounded id hid)
      · rw [List.mem_singleton.mp hid]
        exact Nat.lt_succ_self _ }

/-- Continues with the identifiers that are free in `next`. -/
def advance (s : GraphState) (next : ℕ) : GraphState :=
  { s with
    next := max s.next next
    bounded := fun id hid => lt_of_lt_of_le (s.bounded id hid) (le_max_left _ _) }

end GraphState

def freshSerial : Build ℕ := fun s => .ok (s.next, s.advance (s.next + 1))

def addNode (place : List Stage) (config : TaskConfig) : Build NodeId := fun s =>
  .ok (⟨s.next, place⟩, s.insert place config)

def addDependency (source target : NodeId) : Build Unit := fun s =>
  match h : s.dag.addDependency source target with
  | .ok dag =>
    .ok ((), { s with
      dag := dag
      bounded := by
        intro id hid
        obtain ⟨-, -, hnodes, -⟩ := DAG.addDependency_eq_ok h
        rw [DAG.ids, hnodes] at hid
        exact s.bounded id hid })
  | .error (.nodeNotFound id) => .error (.error (.nodeNotFound id))

/-- Connects every incoming terminal to the first node of a new subgraph. -/
def connectParents : List NodeId → NodeId → Build Unit
  | [], _ => pure ()
  | parent :: parents, node => do
      addDependency parent node
      connectParents parents node

/-- Runs a builder for a nested plan, which starts from an empty graph. -/
def nestedBuilder (build : Build Unit) : Build Plan := fun s =>
  match build (.empty s.next) with
  | .ok ((), nested) => .ok (nested.plan, s.advance nested.next)
  | .error halt => .error halt

end Octa.Planner
