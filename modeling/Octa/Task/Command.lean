import Octa.Task.Outputs

/-!
# Command nodes

How the planner turns the commands of a task into command nodes, and what one
command node does when it is executed.
-/

namespace Octa.Task

open List

variable {υ ν : Type}

inductive ExecutorError where
  | taskCancelled (name : String)
  | invalidCacheConfiguration (message : String)
  | invalidTaskOutput (task output message : String)
  | taskOutputMissing (step field : String)
  | commandFailed (task : String) (code : ℤ)
  | taskTimedOut (task : String)
  | cacheState (message : String)
  | console
  /-- an error of a called service, passed on as it is -/
  | service (message : String)
  deriving DecidableEq, Repr

/-- When the result of an earlier invocation in the same run is reused. -/
inductive RunMode where
  | always
  | once
  | changed
  deriving DecidableEq, Repr

structure CommandOptions where
  id : Option String
  /-- the platforms of the command include the current one -/
  onPlatform : Bool
  deferred : Bool
  timeout : Option ℕ
  raw : Option Bool
  ignoreError : Option Bool
  deriving DecidableEq, Repr

inductive CommandPayload where
  | plugin (key value : String)
  | task (name : String)
  deriving DecidableEq, Repr

def CommandPayload.isTask : CommandPayload → Bool
  | .plugin _ _ => false
  | .task _ => true

structure TaskCommand where
  payload : CommandPayload
  options : CommandOptions
  deriving DecidableEq, Repr

structure OutputSelection where
  step : String
  field : String
  secret : Bool
  deriving DecidableEq, Repr

structure OctafileTask where
  raw : Option Bool
  interactive : Option Bool
  ignoreError : Option Bool
  timeout : Option ℕ
  run : Option RunMode
  /-- the plugin key of a shorthand task, which holds its payload directly -/
  plugin : Option String
  cmds : Option (List TaskCommand)
  outputs : List (String × OutputSelection)
  outputs_distinct : (outputs.map Prod.fst).Nodup

/-- A task as the finder returns it; `octafileRun` is the default of its Octafile. -/
structure FindResult where
  name : String
  octafileRun : Option RunMode
  task : OctafileTask

structure CommandNode where
  name : String
  stepLabel : String
  cacheKey : String
  position : ℕ
  runMode : RunMode
  ignoreErrors : Bool
  timeout : Option ℕ
  plugin : Option String
  exports : List (String × StepExport)
  deriving DecidableEq, Repr

def commandCacheKey (taskName : String) (commandIndex : ℕ) : String :=
  taskName ++ "::command[" ++ toString commandIndex ++ "]"

/-- Applies command metadata while retaining defaults from its containing and referenced tasks. -/
def applyCommandOptions (task containing : OctafileTask) (options : CommandOptions) :
    OctafileTask :=
  { task with
    timeout := options.timeout.or (containing.timeout.or task.timeout)
    raw := options.raw.or (containing.raw.or task.raw)
    ignoreError := options.ignoreError.or (containing.ignoreError.or task.ignoreError) }

def stepExports (task : OctafileTask) (stepId : Option String) : List (String × StepExport) :=
  match stepId with
  | none => []
  | some stepId =>
    (task.outputs.filter fun output => output.2.step = stepId).map fun output =>
      (output.1, ⟨output.2.field, output.2.secret⟩)

namespace FindResult

variable (command : FindResult)

def commands : List TaskCommand := command.task.cmds.getD []

def taskRunMode : Option RunMode := command.task.run.or command.octafileRun

def createTaskNode (stepId : Option String) (cacheKey : String) (position : ℕ) : CommandNode where
  name := command.name
  stepLabel := stepId.getD (command.task.plugin.getD command.name)
  cacheKey := cacheKey
  position := position
  runMode := command.taskRunMode.getD .always
  ignoreErrors := command.task.ignoreError.getD false
  timeout := command.task.timeout
  plugin := command.task.plugin
  exports := stepExports command.task stepId

/-- Normalizes one plugin command into the same task shape as shorthand tasks. -/
def createSimpleCommand (key value : String) (options : CommandOptions) : FindResult :=
  { command with
    name := value
    task :=
      applyCommandOptions { command.task with cmds := none, plugin := some key }
        command.task options }

/-- The command node of the body at one index.  Commands of other platforms have
no node, deferred commands and task calls have plans and subgraphs of their own. -/
def commandNode (item : TaskCommand) (commandIndex : ℕ) : Option CommandNode :=
  if !item.options.onPlatform || item.options.deferred then none
  else
    match item.payload with
    | .task _ => none
    | .plugin key value =>
      some ((command.createSimpleCommand key value item.options).createTaskNode item.options.id
        (commandCacheKey command.name commandIndex) commandIndex)

def commandNodes : List CommandNode :=
  match command.task.cmds with
  | none => [command.createTaskNode none (commandCacheKey command.name 0) 0]
  | some commands => commands.zipIdx.filterMap fun entry => command.commandNode entry.1 entry.2

def producers (step : String) : List TaskCommand :=
  command.commands.filter fun candidate =>
    candidate.options.id = some step && candidate.options.onPlatform

def validateSelectedTaskOutputs : Except ExecutorError Unit :=
  match command.task.outputs.find? fun output => (command.producers output.2.step).length ≠ 1 with
  | none => .ok ()
  | some (name, output) =>
    .error (.invalidTaskOutput command.name name
      ("step '" ++ output.step ++ "' has " ++ toString (command.producers output.step).length ++
        " executable producers on this platform; expected exactly one"))

def validateCacheableTaskShape : Except ExecutorError Unit :=
  if command.task.raw = some true ∨ command.task.interactive = some true ∨
      command.task.ignoreError = some true then
    .error (.invalidCacheConfiguration
      ("task '" ++ command.name ++ "' is raw, interactive, or ignores failures"))
  else if command.commands.any fun item => item.payload.isTask then
    .error (.invalidCacheConfiguration
      ("task '" ++ command.name ++
        "' contains a nested task call; place the cache boundary on executable leaf tasks"))
  else if command.task.outputs.any fun output => output.2.secret then
    .error (.invalidCacheConfiguration
      ("task '" ++ command.name ++ "' exports a secret structured output"))
  else .ok ()

variable {command : FindResult}

variable {node a b : CommandNode}

theorem commandNode_eq_some {item : TaskCommand} {commandIndex : ℕ}
    (h : command.commandNode item commandIndex = some node) :
    item.options.onPlatform = true ∧ node.position = commandIndex ∧
      node.exports = stepExports command.task item.options.id := by
  unfold commandNode at h
  split at h
  · cases h
  next hp =>
  split at h
  · cases h
  cases h
  simp only [Bool.or_eq_true, Bool.not_eq_true', not_or] at hp
  exact ⟨by simpa using hp.1, rfl, rfl⟩

theorem mem_commandNodes (h : node ∈ command.commandNodes) :
    command.task.cmds = none ∧ node = command.createTaskNode none
        (commandCacheKey command.name 0) 0 ∨
      ∃ item, command.commands[node.position]? = some item ∧
        command.commandNode item node.position = some node := by
  unfold commandNodes at h
  split at h
  · next hnn => exact .inl ⟨hnn, mem_singleton.mp h⟩
  next commands hc =>
  obtain ⟨⟨item, idx⟩, hm, hn⟩ := mem_filterMap.mp h
  obtain ⟨-, rfl, -⟩ := commandNode_eq_some hn
  refine .inr ⟨item, ?_, hn⟩
  rw [FindResult.commands, hc]
  exact mem_zipIdx_iff_getElem?.mp hm

theorem eq_of_position_eq (ha : a ∈ command.commandNodes)
    (hb : b ∈ command.commandNodes) (h : a.position = b.position) : a = b := by
  rcases mem_commandNodes ha with ⟨hn, rfl⟩ | ⟨item, hi, hnd⟩
  · rcases mem_commandNodes hb with ⟨-, rfl⟩ | ⟨item', hit', -⟩
    · rfl
    · simp [FindResult.commands, hn] at hit'
  rcases mem_commandNodes hb with ⟨hn, rfl⟩ | ⟨item', hit', hn'⟩
  · simp [FindResult.commands, hn] at hi
  rw [h] at hi hnd
  cases hi.symm.trans hit'
  exact Option.some.inj (hnd.symm.trans hn')

theorem mem_stepExports {task : OctafileTask} {stepId : Option String} {x : String × StepExport}
    (h : x ∈ stepExports task stepId) :
    ∃ output ∈ task.outputs, output.1 = x.1 ∧ stepId = some output.2.step := by
  unfold stepExports at h
  split at h
  · cases h
  obtain ⟨output, hm, rfl⟩ := mem_map.mp h
  obtain ⟨ho, hs⟩ := mem_filter.mp hm
  exact ⟨output, ho, rfl, by rw [of_decide_eq_true hs]⟩

theorem two_le_length_filter {α : Type} {l : List α} {p : α → Bool} {i j : ℕ} {x y : α}
    (hij : i < j) (hx : l[i]? = some x) (hy : l[j]? = some y) (hpx : p x) (hpy : p y) :
    2 ≤ (l.filter p).length := by
  have hxm : x ∈ l.take j := by
    apply mem_of_getElem?
    rw [List.getElem?_take_of_lt hij, hx]
  have hym : y ∈ l.drop j := by
    apply mem_of_getElem? (i := 0)
    rw [List.getElem?_drop, Nat.add_zero, hy]
  have hl := length_pos_of_mem (mem_filter.mpr ⟨hxm, hpx⟩)
  have hr := length_pos_of_mem (mem_filter.mpr ⟨hym, hpy⟩)
  rw [← take_append_drop j l, filter_append, length_append]
  omega

theorem length_producers (h : command.validateSelectedTaskOutputs = .ok ())
    {output : String × OutputSelection} (hout : output ∈ command.task.outputs) :
    (command.producers output.2.step).length = 1 := by
  unfold validateSelectedTaskOutputs at h
  split at h
  · next hn => simpa using List.find?_eq_none.mp hn output hout
  · cases h

theorem exports_apart (h : command.validateSelectedTaskOutputs = .ok ())
    (ha : a ∈ command.commandNodes) (hb : b ∈ command.commandNodes) (hpo : a.position ≠ b.position)
    {x y : String × StepExport} (hx : x ∈ a.exports) (hy : y ∈ b.exports) : x.1 ≠ y.1 := by
  intro hs
  rcases mem_commandNodes ha with ⟨-, rfl⟩ | ⟨item, hi, hn⟩
  · cases hx
  rcases mem_commandNodes hb with ⟨-, rfl⟩ | ⟨item', hit', hn'⟩
  · cases hy
  obtain ⟨hpl, -, he⟩ := commandNode_eq_some hn
  obtain ⟨hp', -, he'⟩ := commandNode_eq_some hn'
  rw [he] at hx
  rw [he'] at hy
  obtain ⟨output, ho, hna, hid⟩ := mem_stepExports hx
  obtain ⟨output', ho', hna', hi'⟩ := mem_stepExports hy
  have hsh : output = output' := by
    apply inj_on_of_nodup_map command.task.outputs_distinct ho ho'
    rw [hna, hna', hs]
  subst hsh
  have hone := length_producers h ho
  have hp : ∀ {cand : TaskCommand}, cand.options.id = some output.2.step →
      cand.options.onPlatform = true →
      (decide (cand.options.id = some output.2.step) && cand.options.onPlatform) = true := by
    intro cand hc hon
    simp [hc, hon]
  have ht : 2 ≤ (command.producers output.2.step).length := by
    rcases Nat.lt_or_gt_of_ne hpo with hl | hl
    · exact two_le_length_filter hl hi hit' (hp hid hpl) (hp hi' hp')
    · exact two_le_length_filter hl hit' hi (hp hi' hp') (hp hid hpl)
  omega

end FindResult

end Octa.Task
