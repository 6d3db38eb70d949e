import Octa.Planner.Plan

/-!
# Expansion of task invocations

The lowering of tasks into executable and barrier nodes.  Every function that
appends a subgraph returns its terminal node, and the caller connects later work
to that terminal.
-/

namespace Octa.Planner

open Octa.Cache (RelativePath FsPath)
open Octa.Dag
open Octa.Task (RunMode CommandOptions commandCacheKey)

/-- Values inherited while recursively expanding one task invocation. -/
structure InvocationContext where
  depName : String
  /-- decisions of the gates passed so far -/
  guards : List NodeId := []
  /-- conditions that every command evaluates itself -/
  perCommand : List PluginCommand := []
  /-- Cache decisions owned by containing task invocations. -/
  cacheGuards : List NodeId := []
  taskCache : Option NodeId := none
  outputScope : Option ℕ := none
  interactiveSession : Option ℕ := none
  place : List Stage

namespace InvocationContext

def child (context : InvocationContext) (depName : String) (stage : Stage) :
    InvocationContext where
  depName := depName
  guards := context.guards
  perCommand := context.perCommand
  cacheGuards := context.cacheGuards
  interactiveSession := context.interactiveSession
  place := context.place ++ [stage]

def withOverrides (context : InvocationContext) (stage : Stage) : InvocationContext :=
  context.child context.depName stage

def nested (context : InvocationContext) (depName : String) (stage : Stage) :
    InvocationContext :=
  context.child depName stage

/-- Retains the owning cache's hit guard for cleanup, but prevents deferred stdout and structured
values from becoming the task's logical result. -/
def deferred (context : InvocationContext) (stage : Stage) : InvocationContext :=
  { context with taskCache := none, place := context.place ++ [stage] }

def placed (context : InvocationContext) (stage : Stage) : List Stage := context.place ++ [stage]

end InvocationContext

/-- Inputs that distinguish one recursive task invocation from its parent. -/
structure InvocationRequest where
  context : InvocationContext
  entryParents : List NodeId
  commandCondition : Option PluginCommand := none

structure PreparedInvocation where
  context : InvocationContext
  parents : List NodeId

def gateOrParents (gate : Option NodeId) (parents : List NodeId) : List NodeId :=
  match gate with
  | some gate => [gate]
  | none => parents

/-- Point in the invocation graph at which a condition is evaluated. -/
inductive ConditionPhase where
  | command
  | beforeDependencies
  | afterDependencies
  deriving DecidableEq, Repr

namespace ConditionPhase

def label : ConditionPhase → String
  | .command => "Command"
  | .beforeDependencies => "Before dependencies"
  | .afterDependencies => "After dependencies"

def stage : ConditionPhase → Stage
  | .command => .commandGate
  | .beforeDependencies => .beforeDependenciesGate
  | .afterDependencies => .afterDependenciesGate

end ConditionPhase

/-- What planning takes from outside: the loaded hierarchy with its finder, the
workspace, the collection of variables and environments, and the effective file
contract of a cacheable task.  A hierarchy holds finitely many tasks. -/
structure TaskGraphBuilder (ο : Type) where
  find : ο → String → List (FindResult ο)
  run : ο → Option RunMode
  failfast : ο → Option Bool
  dir : FsPath
  collects : FindResult ο → InvocationContext → Except Octa.Task.ExecutorError Unit
  contract : FindResult ο → Except Octa.Task.ExecutorError (List RelativePath)
  definitions : List (ο × Task)
  find_mem : ∀ {octafile name found}, found ∈ find octafile name →
    (found.octafile, found.task) ∈ definitions

abbrev Expand (ο : Type) :=
  FindResult ο → InvocationRequest → Option Bool → Build (Option NodeId)

/-! ## Nodes -/

/-- Creates a zero-work node used only for graph fan-in or ordering. -/
def createGroupNode (place : List Stage) (name : String) : Build NodeId :=
  addNode place { name := name, depName := name, action := .barrier }

/-- Creates a zero-work node that participates in a task scope lifecycle. -/
def createScopeBarrier (place : List Stage) (name : String) (scope : ℕ) : Build NodeId :=
  addNode place { name := name, depName := name, action := .barrier, scope := some scope }

def skipEmpty (place : List Stage) (name : String) : Build Unit := do
  let s ← get
  if s.dag.nodeCount = 0 then
    let _ ← createGroupNode place name
    pure ()
  else pure ()

/-- Returns one terminal for zero, one, or many parallel branches. -/
def joinNodes (place : List Stage) (name : String) : List NodeId → Build (Option NodeId)
  | [] => pure none
  | [node] => pure (some node)
  | nodes => do
      let group ← createGroupNode place name
      connectParents nodes group
      pure (some group)

/-- Runs the branches of a fan-out one after the other and collects their terminals. -/
def branches {α σ : Type} (branch : α → σ → Build (List NodeId × σ)) :
    List α → σ → Build (List NodeId × σ)
  | [], s => pure ([], s)
  | a :: rest, s => do
      let (terminals, s) ← branch a s
      let (others, s) ← branches branch rest s
      pure (terminals ++ others, s)

namespace TaskGraphBuilder

variable {ο : Type} (planner : TaskGraphBuilder ο)

def definition (command : FindResult ο) : Octa.Task.FindResult where
  name := command.name
  octafileRun := planner.run command.octafile
  task := command.task.definition

def nodeFailfast (command : FindResult ο) : Option Bool :=
  command.task.failfast.or (planner.failfast command.octafile)

/-- Resolves fail-fast as an effective boolean for inheritance and scheduling. -/
def taskFailfast (command : FindResult ο) : Bool := (planner.nodeFailfast command).getD false

/-- A task invocation belongs to both the caller and the referenced task fail-fast scopes. -/
def inheritFailfast (parent child : FindResult ο) : FindResult ο :=
  { child with
    task := { child.task with
      failfast := some (planner.taskFailfast parent || planner.taskFailfast child) } }

def findAndFilterCommands (octafile : ο) (taskName : String) : Build (List (FindResult ο)) :=
  match planner.find octafile taskName with
  | [] => Build.fail (.commandNotFound taskName)
  | commands => pure commands

def filterCommandByPlatform (commands : List (FindResult ο)) : List (FindResult ο) :=
  commands.filter fun command => command.task.onPlatform

/-- Removes tasks marked internal from user-facing lookup results. -/
def filterInternalTask (tasks : List (FindResult ο)) : List (FindResult ο) :=
  tasks.filter fun task => !task.task.internal

/-- Creates one executable plugin node from normalized task configuration. -/
def createTaskNode (command : Octa.Task.FindResult) (failfast : Option Bool)
    (context : InvocationContext) (place : List Stage) (commandCondition : Option PluginCommand)
    (stepId : Option String) (cacheKey : String) (position : ℕ) : Build NodeId :=
  addNode place
    { name := command.name
      depName := context.depName
      action := .command (command.createTaskNode stepId cacheKey position)
      conditions := context.perCommand ++ commandCondition.toList
      guards := context.guards
      cacheGuards := context.cacheGuards
      taskCache := context.taskCache
      scope := context.outputScope
      interactiveSession := context.interactiveSession
      failfast := failfast }

/-- Creates a single-evaluation condition node and adds its result to the task scope. -/
def addConditionGate (command : FindResult ο) (condition : PluginCommand)
    (phase : ConditionPhase) (context : InvocationContext) (parents : List NodeId) :
    Build (InvocationContext × NodeId) := do
  let name := phase.label ++ " condition for " ++ command.name
  let gate ← addNode (context.placed phase.stage)
    { name := name
      depName := name
      action := .condition condition
      guards := context.guards
      scope := context.outputScope
      interactiveSession := context.interactiveSession
      failfast := planner.nodeFailfast command }
  connectParents parents gate
  pure ({ context with guards := context.guards ++ [gate] }, gate)

def addResourceRegistration (command : FindResult ο) (context : InvocationContext)
    (predecessors : List NodeId) : Build (Option NodeId) :=
  if command.task.resources then do
    let task ← addNode (context.placed .resources)
      { name := "Register resources for " ++ command.name
        depName := command.name
        action := .registerResources
        guards := context.guards
        cacheGuards := context.cacheGuards
        taskCache := context.taskCache
        scope := context.outputScope
        interactiveSession := context.interactiveSession
        failfast := planner.nodeFailfast command }
    connectParents predecessors task
    pure (some task)
  else joinNodes (context.placed .resources) ("Complete task " ++ command.name) predecessors

def addCacheLookup (command : FindResult ο) (context : InvocationContext)
    (parents : List NodeId) :
    Build (InvocationContext × List NodeId × Option TaskCachePlan) :=
  if command.task.cache then do
    Build.ofExecutor (planner.definition command).validateCacheableTaskShape
    let outputs ← Build.ofExecutor (planner.contract command)
    let plan : TaskCachePlan := { workspace := planner.dir, outputs := outputs }
    let task ← addNode (context.placed .cacheLookup)
      { name := "Lookup cache for " ++ command.name
        depName := command.name
        action := .cacheLookup plan
        guards := context.guards
        cacheGuards := context.cacheGuards
        scope := context.outputScope
        interactiveSession := context.interactiveSession
        failfast := planner.nodeFailfast command }
    connectParents parents task
    let context :=
      { context with taskCache := some task, cacheGuards := context.cacheGuards ++ [task] }
    pure (context, [task], some plan)
  else pure (context, parents, none)

/-- Appends publication after commands and resource registration succeed. -/
def addCacheFinalize (command : FindResult ο) (context : InvocationContext)
    (plan : Option TaskCachePlan) (predecessors : List NodeId) : Build (Option NodeId) :=
  match plan with
  | none => joinNodes (context.placed .cacheFinalize) ("Complete task " ++ command.name)
      predecessors
  | some plan =>
    match context.taskCache, context.cacheGuards.getLast? with
    | none, _ => Build.fail (.taskConfigFieldMissing "task_cache")
    | _, none => Build.fail (.taskConfigFieldMissing "task_cache_guard")
    | some state, some owner =>
      if owner ≠ state then
        Build.fail (.taskFailed "cache guard ownership does not match the task cache state")
      else do
        let task ← addNode (context.placed .cacheFinalize)
          { name := "Finalize cache for " ++ command.name
            depName := command.name
            action := .cacheFinalize plan state
            guards := context.guards
            -- its own hit does not suppress the finalizer, an outer one does
            cacheGuards := context.cacheGuards.dropLast
            scope := context.outputScope
            interactiveSession := context.interactiveSession
            failfast := planner.nodeFailfast command }
        connectParents predecessors task
        pure (some task)

/-! ## Dependencies and conditions -/

/-- Adds a stable ordinal when the same dependency is declared more than once.
`emitted` counts the names given out so far. -/
def generateUniqueTaskName (deps : List Dependency) (taskName : String) (emitted : String → ℕ) :
    String × (String → ℕ) :=
  if 1 < deps.countP (fun dep => dep.task = taskName) then
    let index := emitted taskName + 1
    (taskName ++ "_" ++ toString index, Function.update emitted taskName index)
  else (taskName, emitted)

/-- Applies the overrides of a declared dependency to the task it names. -/
def overrideDependency (cmd : FindResult ο) (dep : Dependency) (found : FindResult ο) :
    FindResult ο :=
  planner.inheritFailfast cmd
    { found with
      task := { found.task with
        timeout := dep.timeout.or found.task.timeout
        raw := dep.raw.or found.task.raw
        interactive := dep.interactive.or found.task.interactive } }

variable (build : Expand ο)

def buildDependency (cmd : FindResult ο) (parents : List NodeId) (context : InvocationContext)
    (dep : Dependency) (index : ℕ) (found : FindResult ο × ℕ) (emitted : String → ℕ) :
    Build (List NodeId × (String → ℕ)) := do
  let named := generateUniqueTaskName cmd.task.deps dep.task emitted
  let terminal ← build (planner.overrideDependency cmd dep found.1)
    { context := context.nested named.1 (.dependency index found.2), entryParents := parents } none
  pure (terminal.toList, named.2)

def buildDependencyMatches (cmd : FindResult ο) (parents : List NodeId)
    (context : InvocationContext) (dep : Dependency × ℕ) (emitted : String → ℕ) :
    Build (List NodeId × (String → ℕ)) := do
  let found ← planner.findAndFilterCommands cmd.octafile dep.1.task
  branches (planner.buildDependency build cmd parents context dep.1 dep.2)
    (filterCommandByPlatform found).zipIdx emitted

/-- Expands all declared dependencies and joins their terminal nodes. -/
def processDependencies (cmd : FindResult ο) (parents : List NodeId)
    (context : InvocationContext) : Build (Option NodeId) := do
  let (terminals, _) ← branches (planner.buildDependencyMatches build cmd parents context)
    cmd.task.deps.zipIdx fun _ => 0
  if terminals.isEmpty then pure none
  else
    let group ← createGroupNode (context.placed .dependencies)
      ("Group deps task for command " ++ cmd.name)
    connectParents terminals group
    pure (some group)

/-- Adds the gate of a condition, when there is one, after the latest gate. -/
def addOptionalGate (command : FindResult ο) (condition : Option PluginCommand)
    (phase : ConditionPhase) (context : InvocationContext) (parent : Option NodeId)
    (entryParents : List NodeId) : Build (InvocationContext × Option NodeId) :=
  match condition with
  | none => pure (context, parent)
  | some condition => do
      let (context, gate) ← planner.addConditionGate command condition phase context
        (gateOrParents parent entryParents)
      pure (context, some gate)

/-- An `after_deps` condition is a gate, or is attached to the commands of the body. -/
def addAfterDependencies (command : FindResult ο) (context : InvocationContext)
    (parent : Option NodeId) (entryParents : List NodeId) :
    Build (InvocationContext × Option NodeId) :=
  match command.task.afterDeps with
  | some ⟨condition, .perCommand⟩ =>
    pure ({ context with perCommand := context.perCommand ++ [condition] }, parent)
  | some ⟨condition, .once⟩ =>
    planner.addOptionalGate command (some condition) .afterDependencies context parent
      entryParents
  | none => pure (context, parent)

/-- Builds the ordered condition/dependency prefix for a task invocation. -/
def prepareInvocation (command : FindResult ο) (request : InvocationRequest) :
    Build PreparedInvocation := do
  let entries := request.entryParents
  let (context, parent) ← planner.addOptionalGate command request.commandCondition .command
    request.context none entries
  let (context, parent) ← planner.addOptionalGate command command.task.beforeDeps
    .beforeDependencies context parent entries
  let deps ← planner.processDependencies build command (gateOrParents parent entries) context
  let (context, parent) ← planner.addAfterDependencies command context (deps.or parent) entries
  pure { context := context, parents := gateOrParents parent entries }

/-! ## The body -/

structure Body where
  sequentialParent : Option NodeId := none
  parallelTerminals : List NodeId := []
  deferredNodes : List NodeId := []

namespace Body

/-- Parallel commands share the invocation entry, sequential commands follow the
preceding one. -/
def entries (body : Body) (runParallel : Bool) (parents : List NodeId) : List NodeId :=
  if runParallel then parents else gateOrParents body.sequentialParent parents

def complete (body : Body) (runParallel : Bool) (terminal : Option NodeId) : Body :=
  if runParallel then
    { body with parallelTerminals := body.parallelTerminals ++ terminal.toList }
  else { body with sequentialParent := terminal.or body.sequentialParent }

def terminals (body : Body) (runParallel : Bool) : List NodeId :=
  if runParallel then body.parallelTerminals else body.sequentialParent.toList

end Body

/-- Resolves a task-reference selector and applies call-site execution options. -/
def resolveReferencedTasks (parent : FindResult ο) (command : TaskCommand) (taskName : String) :
    Build (List (FindResult ο)) := do
  let tasks ← planner.findAndFilterCommands parent.octafile taskName
  pure ((filterCommandByPlatform tasks).map fun task =>
    planner.inheritFailfast parent
      { task with task := task.task.applyCommandOptions parent.task command.options })

def deferredCommand (command : FindResult ο) (deferred : TaskCommand) (name : String) :
    FindResult ο where
  name := name
  octafile := command.octafile
  task := { command.task with
    cmds := some [{ deferred with
      options := { deferred.options with onPlatform := true, deferred := false } }]
    deps := []
    onPlatform := true
    beforeDeps := none
    afterDeps := none
    cache := false
    timeout := deferred.options.timeout.or command.task.timeout
    run := some .always
    plugin := none }

def buildDeferred (command : FindResult ο) (deferred : TaskCommand) (name : String)
    (context : InvocationContext) : Build Unit := do
  let _ ← build (deferredCommand command deferred name)
    { context := context, entryParents := [] } (some false)
  skipEmpty context.place ("Skipped " ++ name)

def nextDeferOrder : Build ℕ := fun s => .ok (s.deferOrder,
  { s with deferOrder := s.deferOrder + 1 })

def registerDeferred (node : NodeId) (action : DeferredAction) (plan : Plan) : Build Unit :=
  modify fun s => { s with deferred := s.deferred ++ [(node, action, plan)] }

/-- Compiles a deferred command into a nested execution plan.  The main graph
receives only a barrier, connected later. -/
def createDeferredNode (command : FindResult ο) (deferred : TaskCommand) (index : ℕ)
    (context : InvocationContext) (registeredAfter : List NodeId) : Build NodeId := do
  let order ← nextDeferOrder
  let name := "Deferred command " ++ toString order ++ " for " ++ command.name
  let plan ← nestedBuilder
    (buildDeferred build command deferred name (context.deferred (.deferred index)))
  let task ← addNode (context.placed (.deferred index))
    { name := name, depName := name, action := .barrier, cacheGuards := context.cacheGuards }
  registerDeferred task
    { command := name, order := order, registeredAfter := registeredAfter } plan
  pure task

def chainDeferred : List NodeId → List NodeId → Build (List NodeId)
  | [], predecessors => pure predecessors
  | deferred :: rest, predecessors => do
      connectParents predecessors deferred
      chainDeferred rest [deferred]

def registrationRoot (context : InvocationContext) (predecessors : List NodeId) :
    Build (List NodeId) :=
  if predecessors.isEmpty then do
    let root ← createGroupNode (context.placed .deferredRoot) "Register deferred commands"
    pure [root]
  else pure predecessors

/-- Connects cleanup barriers after completed work in reverse declaration order. -/
def attachDeferredNodes (context : InvocationContext) (deferredNodes predecessors : List NodeId) :
    Build (Option NodeId) :=
  if deferredNodes.isEmpty then
    joinNodes (context.placed .deferredRoot) "Complete task scope" predecessors
  else do
    let predecessors ← registrationRoot context predecessors
    let last ← chainDeferred deferredNodes.reverse predecessors
    pure last.getLast?

/-- The branches of a task call: every match is an invocation of its own. -/
def buildReferenced (item : TaskCommand) (index : ℕ) (context : InvocationContext)
    (entries : List NodeId) (referenced : FindResult ο × ℕ) (_ : Unit) :
    Build (List NodeId × Unit) := do
  let terminal ← build referenced.1
    { context := context.withOverrides (.command index referenced.2)
      entryParents := entries
      commandCondition := item.condition } none
  pure (terminal.toList, ())

/-- The node or the invocations of one command that is not deferred. -/
def buildPayload (command : FindResult ο) (item : TaskCommand) (index : ℕ)
    (context : InvocationContext) (entries : List NodeId) : Build (List NodeId) :=
  match item.payload with
  | .task name => do
      let referenced ← planner.resolveReferencedTasks command item name
      let (terminals, _) ← branches (buildReferenced build item index context entries)
        referenced.zipIdx ()
      pure terminals
  | .plugin key value => do
      let simple := (planner.definition command).createSimpleCommand key value item.options
      let task ← createTaskNode simple (planner.nodeFailfast command) context
        (context.placed (.command index 0)) item.condition item.options.id
        (commandCacheKey command.name index) index
      connectParents entries task
      pure [task]

def buildCommand (command : FindResult ο) (context : InvocationContext) (parents : List NodeId)
    (runParallel : Bool) (body : Body) (item : TaskCommand) (index : ℕ) : Build Body :=
  if !item.options.onPlatform then pure body
  else if item.options.deferred then do
    let node ← createDeferredNode build command item index context
      (body.entries runParallel parents)
    pure { body with deferredNodes := body.deferredNodes ++ [node] }
  else do
    let terminals ← planner.buildPayload build command item index context
      (body.entries runParallel parents)
    let terminal ← joinNodes (context.placed (.commandJoin index))
      ("Complete command in task " ++ command.name) terminals
    pure (body.complete runParallel terminal)

def buildCommands (command : FindResult ο) (context : InvocationContext) (parents : List NodeId)
    (runParallel : Bool) : List (TaskCommand × ℕ) → Body → Build Body
  | [], body => pure body
  | (item, index) :: rest, body => do
      let body ← planner.buildCommand build command context parents runParallel body item index
      buildCommands command context parents runParallel rest body

/-- A body with task calls is bracketed by barriers of its scope. -/
def lifecycleScope (commands : List TaskCommand) (context : InvocationContext) : Option ℕ :=
  if commands.any fun command => command.payload.isTask then context.outputScope else none

def startScope (command : FindResult ο) (context : InvocationContext) (scope : Option ℕ)
    (parents : List NodeId) : Build (List NodeId) :=
  match scope with
  | none => pure parents
  | some scope => do
      let start ← createScopeBarrier (context.placed .start) ("Start task scope " ++ command.name)
        scope
      connectParents parents start
      pure [start]

def finishScope (command : FindResult ο) (context : InvocationContext) (scope : Option ℕ)
    (terminal : Option NodeId) : Build (Option NodeId) :=
  match scope, terminal with
  | none, terminal => pure terminal
  | some _, none => pure none
  | some scope, some terminal => do
      let finish ← createScopeBarrier (context.placed .finish)
          ("Finish task scope " ++ command.name)
        scope
      addDependency terminal finish
      pure (some finish)

/-- Shorthand tasks contain one plugin payload directly instead of `cmds`. -/
def buildShorthand (command : FindResult ο) (context : InvocationContext)
    (parents : List NodeId) : Build NodeId := do
  let task ← createTaskNode (planner.definition command) (planner.nodeFailfast command) context
    (context.placed (.command 0 0)) none none (commandCacheKey command.name 0) 0
  connectParents parents task
  pure task

/-- The commands of a body between its scope barriers, with its cleanup. -/
def buildCommandList (command : FindResult ο) (context : InvocationContext)
    (parents : List NodeId) (runParallel : Bool) (commands : List TaskCommand) :
    Build (Option NodeId) := do
  let body ← planner.buildCommands build command context parents runParallel commands.zipIdx {}
  let terminal ← joinNodes (context.placed .join) ("Complete task " ++ command.name)
    (body.terminals runParallel)
  attachDeferredNodes context body.deferredNodes (gateOrParents terminal parents)

/-- Registration of resources and publication of the cached result. -/
def completeBody (command : FindResult ο) (context : InvocationContext)
    (plan : Option TaskCachePlan) (predecessors : List NodeId) : Build (Option NodeId) := do
  let registered ← planner.addResourceRegistration command context predecessors
  planner.addCacheFinalize command context plan registered.toList

def buildTaskBody (command : FindResult ο) (context : InvocationContext) (parents : List NodeId)
    (runParallel : Option Bool) : Build (Option NodeId) := do
  let (context, parents, plan) ← planner.addCacheLookup command context parents
  match command.task.cmds with
  | none => do
      let task ← planner.buildShorthand command context parents
      planner.completeBody command context plan [task]
  | some commands => do
      let scope := lifecycleScope commands context
      let parents ← startScope command context scope parents
      let terminal ← planner.buildCommandList build command context parents
        (runParallel.getD command.task.parallel) commands
      let terminal ← planner.completeBody command context plan terminal.toList
      finishScope command context scope terminal

def assignSession (command : FindResult ο) (context : InvocationContext) :
    Build InvocationContext :=
  if command.task.interactive.getD false ∧ context.interactiveSession = none then do
    let session ← freshSerial
    pure { context with interactiveSession := some session }
  else pure context

/-- Expands one task invocation, given the expansion of the invocations below it. -/
def invocation : Expand ο := fun command request runParallel => do
  Build.ofExecutor (planner.definition command).validateSelectedTaskOutputs
  let scope ← freshSerial
  let request := { request with context := { request.context with outputScope := some scope } }
  Build.ofExecutor (planner.collects command request.context)
  let prepared ← planner.prepareInvocation build command request
  let context ← assignSession command prepared.context
  planner.buildTaskBody build command context prepared.parents runParallel

/-- Expands one task invocation and returns the node that represents its completion. -/
def buildInvocation : ℕ → Expand ο
  | 0 => fun _ _ _ => throw .exhausted
  | fuel + 1 => planner.invocation (buildInvocation fuel)

/-! ## Plans -/

/-- The loop of `reachable_from`: every round takes one pending node. -/
def collectReachable (dag : DAG Node NodeId) : ℕ → List NodeId → List NodeId → List NodeId
  | 0, _, reachable => reachable
  | _, [], reachable => reachable
  | fuel + 1, node :: pending, reachable =>
    let found := (dag.dependants node).filter fun child => child ∉ reachable
    collectReachable dag fuel (found.reverse ++ pending) (found ++ reachable)

def reachableFrom (dag : DAG Node NodeId) (start : NodeId) : List NodeId :=
  collectReachable dag (dag.nodeCount + 1) [start] []

def isWithin (path root : RelativePath) : Bool :=
  root.isRoot || Octa.Cache.contains root path

def overlappingRoots (left right : List RelativePath) : Option (RelativePath × RelativePath) :=
  left.findSome? fun left =>
    (right.find? fun right => isWithin left right || isWithin right left).map fun right =>
      (left, right)

theorem isWithin_iff (path root : RelativePath) :
    isWithin path root = true ↔ root = .root ∨ root.components <+: path.components := by
  rw [isWithin, Bool.or_eq_true, Octa.Cache.contains_iff]
  refine or_congr_left ⟨fun h => ?_, fun h => by rw [h]; rfl⟩
  exact RelativePath.ext_value (beq_iff_eq.mp h)

theorem overlappingRoots_isSome {left right : List RelativePath} :
    (overlappingRoots left right).isSome = true ↔
      ∃ l ∈ left, ∃ r ∈ right, isWithin l r = true ∨ isWithin r l = true := by
  simp only [overlappingRoots, List.findSome?_isSome_iff, Option.isSome_map, List.find?_isSome,
    Bool.or_eq_true]

/-- Two paths that own a common path own one another. -/
theorem isWithin_of_common {path l r : RelativePath} (hl : isWithin path l = true)
    (hr : isWithin path r = true) : isWithin l r = true ∨ isWithin r l = true := by
  rw [isWithin_iff] at hl hr
  rw [isWithin_iff, isWithin_iff]
  rcases hl with rfl | hl
  · exact .inr (.inl rfl)
  rcases hr with rfl | hr
  · exact .inl (.inl rfl)
  rcases List.prefix_or_prefix_of_prefix hl hr with h | h
  · exact .inr (.inr h)
  · exact .inl (.inr h)

/-- Ownership of paths goes by components, and two lists of roots overlap exactly when some path
lies within a root of each. -/
theorem ownership_componentwise : (∀ path root : RelativePath, isWithin path root = true ↔
      root = .root ∨ root.components <+: path.components) ∧
    ∀ left right : List RelativePath, (overlappingRoots left right).isSome = true ↔
      ∃ path, (∃ root ∈ left, isWithin path root = true) ∧
        ∃ root ∈ right, isWithin path root = true := by
  refine ⟨isWithin_iff, fun left right => ?_⟩
  have hs : ∀ path, isWithin path path = true := fun path =>
    (isWithin_iff path path).mpr (.inr (List.prefix_refl _))
  rw [overlappingRoots_isSome]
  constructor
  · rintro ⟨l, hl, r, hr, h | h⟩
    · exact ⟨l, ⟨l, hl, hs l⟩, r, hr, h⟩
    · exact ⟨r, ⟨l, hl, h⟩, r, hr, hs r⟩
  · rintro ⟨path, ⟨l, hl, hp⟩, r, hr, hpr⟩
    exact ⟨l, hl, r, hr, isWithin_of_common hp hpr⟩

def boundaries (dag : DAG Node NodeId) : List (Node × TaskCachePlan) :=
  dag.nodes.filterMap fun node =>
    match node.action with
    | .cacheLookup plan => some (node, plan)
    | _ => none

/-- The error for two boundaries that could mutate the same root at the same time. -/
def conflict (dag : DAG Node NodeId) (left right : Node × TaskCachePlan) : Option PlanError :=
  if right.1.id ∈ reachableFrom dag left.1.id ∨ left.1.id ∈ reachableFrom dag right.1.id ∨
      left.2.workspace ≠ right.2.workspace then none
  else
    (overlappingRoots left.2.outputs right.2.outputs).map fun roots =>
      .executor (.invalidCacheConfiguration
        ("parallel cacheable tasks '" ++ left.1.depName ++ "' and '" ++ right.1.depName ++
          "' have overlapping outputs '" ++ roots.1.value ++ "' and '" ++ roots.2.value ++ "'"))

def validateBoundaries (dag : DAG Node NodeId) :
    List (Node × TaskCachePlan) → Except PlanError Unit
  | [] => .ok ()
  | left :: rest =>
    match rest.findSome? (conflict dag left) with
    | some error => .error error
    | none => validateBoundaries dag rest

/-- Rejects output roots that two unordered cache boundaries could mutate at the same time. -/
def validateParallelCacheOutputs (dag : DAG Node NodeId) : Except PlanError Unit :=
  validateBoundaries dag (boundaries dag)

/-- Rejects empty plans and dependency cycles before the scheduler sees them. -/
def validateDag (dag : DAG Node NodeId) (command : String) : Except PlanError Unit :=
  if dag.nodeCount = 0 then .error (.taskNotFound command)
  else if dag.hasCycle then .error .cycleDetected
  else validateParallelCacheOutputs dag

def buildRequests (runParallel : Bool) : List (FindResult ο × ℕ) → Build Unit
  | [] => pure ()
  | (command, ordinal) :: rest => do
      let _ ← build command
        { context := { depName := command.name, place := [.request ordinal] }
          entryParents := [] } (if runParallel then some true else none)
      buildRequests runParallel rest

def buildGraph (octafile : ο) (command : String) (runParallel : Bool) : Build Unit := do
  let found ← planner.findAndFilterCommands octafile command
  let selected := filterCommandByPlatform found
  let commands := filterInternalTask selected
  if commands.isEmpty && !selected.isEmpty then Build.fail (.commandNotFound command)
  else
    buildRequests build runParallel commands.zipIdx
    skipEmpty [] ("Skipped command " ++ command)
    let s ← get
    Build.ofExcept (validateDag s.dag command)

/-- Builds the plan of a requested task, with recursion at most `fuel` deep. -/
def plan (fuel : ℕ) (octafile : ο) (command : String) (runParallel : Bool) : Except Halt Plan :=
  match planner.buildGraph (planner.buildInvocation fuel) octafile command runParallel
      (.empty 0) with
  | .ok ((), s) => .ok s.plan
  | .error halt => .error halt

/-- A hierarchy of one Octafile, in which a selector is the name of a task, and
whose cacheable tasks own the same output roots. -/
def singleFile (tasks : List (String × Task)) (outputs : List RelativePath) :
    TaskGraphBuilder Unit where
  find _ name := (tasks.filter fun entry => entry.1 = name).map fun entry => ⟨entry.1, (), entry.2⟩
  run _ := none
  failfast _ := none
  dir := []
  collects _ _ := .ok ()
  contract _ := .ok outputs
  definitions := tasks.map fun entry => ((), entry.2)
  find_mem := by
    intro octafile name found hfound
    obtain ⟨entry, hentry, rfl⟩ := List.mem_map.mp hfound
    exact List.mem_map.mpr ⟨entry, List.mem_of_mem_filter hentry, rfl⟩

end TaskGraphBuilder

namespace TaskCommand

def plain (payload : Octa.Task.CommandPayload) : TaskCommand where
  payload := payload
  options :=
    { id := none, onPlatform := true, deferred := false, timeout := none, raw := none
      ignoreError := none }
  condition := none

def shell (script : String) : TaskCommand := plain (.plugin "shell" script)

def call (task : String) : TaskCommand := plain (.task task)

def defer (command : TaskCommand) : TaskCommand :=
  { command with options := { command.options with deferred := true } }

end TaskCommand

end Octa.Planner
