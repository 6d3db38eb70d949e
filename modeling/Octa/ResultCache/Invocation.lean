import Octa.Foundation.Machine
import Octa.ResultCache.Publication
import Octa.Task.Execution

/-!
# The nodes of one cacheable invocation

A machine for the lookup, command, resource and finalize nodes of a cacheable
task, together with the nested and deferred nodes guarded by its cache state.
-/

namespace Octa.ResultCache

open Octa.Task Transition

variable {δ υ ν : Type}

/-- A task the planner accepts as a cache boundary; `ancestors` are the cache
states of the containing invocations. -/
structure CacheableInvocation (δ υ : Type) where
  command : FindResult
  ancestors : List (CacheState δ υ)
  shape : command.validateCacheableTaskShape = .ok ()
  outputs : command.validateSelectedTaskOutputs = .ok ()

/-- A node runs only if no cache state it is guarded by suppresses its body. -/
def shouldRun (guards : List (CacheState δ υ)) : Bool :=
  guards.all fun guard => !guard.shouldSkipBody

inductive BodyNode where
  | command (position : ℕ)
  | resources
  | nested
  deriving DecidableEq, Repr

structure InvocationState (δ υ ν : Type) where
  cache : CacheState δ υ
  lookedUp : Bool
  results : InvocationResults υ ν
  /-- the command nodes, by position -/
  commands : ℕ → CommandStatus υ ν
  /-- the body nodes that got past their cache guards -/
  ran : List BodyNode

inductive Action (δ υ ν : Type) where
  | lookup (request : LookupRequest δ υ)
  | start (node : CommandNode) (answers : StartAnswers υ ν)
  | finish (node : CommandNode) (answers : FinishAnswers υ)
  /-- the timeout of the node fires -/
  | expire (node : CommandNode) (announced : Bool)
  | resources (artifacts : List RegisteredArtifact) (reports : List RegisteredReport)
  /-- a node of a nested or deferred plan, guarded by further states -/
  | nested (others : List (CacheState δ υ))
  | deferredFailure
  /-- another node of the run stores its result -/
  | store (key : String) (result : InvocationResult υ ν)
  | finalize (request : FinalizeRequest δ υ)

def InvocationState.finishNode (s : InvocationState δ υ ν) (node : CommandNode) (vars : ν)
    (answers : FinishAnswers υ) : InvocationState δ υ ν :=
  let finished := node.finish vars answers s.results
  { s with
    commands := Function.update s.commands node.position (.ofFinish finished.1)
    results := finished.2
    cache :=
      match finished.1 with
      | .succeeded stdout outputs => s.cache.recordCommand node.position stdout outputs
      | _ => s.cache }

namespace CacheableInvocation

variable (task : CacheableInvocation δ υ) (options : RunOptions)

def guards (s : InvocationState δ υ ν) : List (CacheState δ υ) := task.ancestors ++ [s.cache]

/-- The lookup node: it sets the probe flag, then the lookup state. -/
def lookupNode (request : LookupRequest δ υ) (s : InvocationState δ υ ν) :
    InvocationState δ υ ν :=
  if !shouldRun task.ancestors then { s with lookedUp := true }
  else
    let cache := { s.cache with probe := options.cacheProbe }
    match request.lookup options options.cacheProbe with
    | .error _ => { s with lookedUp := true, cache := cache }
    | .ok found => { s with lookedUp := true, cache := { cache with lookup := some found } }

def startNode [DecidableEq ν] (node : CommandNode) (answers : StartAnswers υ ν)
    (s : InvocationState δ υ ν) : InvocationState δ υ ν :=
  let run := shouldRun (task.guards s)
  let outcome := node.start run options.cacheProbe answers s.results
  { s with
    commands := Function.update s.commands node.position (.ofStart outcome)
    ran := if run then s.ran ++ [.command node.position] else s.ran }

def resourcesNode (artifacts : List RegisteredArtifact) (reports : List RegisteredReport)
    (s : InvocationState δ υ ν) : InvocationState δ υ ν :=
  if !shouldRun (task.guards s) || options.cacheProbe then s
  else
    { s with
      cache := s.cache.recordResources ⟨[], .empty, artifacts, reports⟩
      ran := s.ran ++ [.resources] }

def written [DecidableEq δ] (request : FinalizeRequest δ υ) (s : InvocationState δ υ ν) :
    Option (ActionResult δ υ) :=
  if shouldRun task.ancestors then (request.finalize options s.cache).written else none

def step [DecidableEq ν] (s : InvocationState δ υ ν) :
    Action δ υ ν → Option (InvocationState δ υ ν)
  | .lookup request => if s.lookedUp then none else some (task.lookupNode options request s)
  | .start node answers =>
    if s.lookedUp ∧ node ∈ task.command.commandNodes then
      match s.commands node.position with
      | .pending => some (task.startNode options node answers s)
      | _ => none
    else none
  | .finish node answers =>
    if s.lookedUp ∧ node ∈ task.command.commandNodes then
      match s.commands node.position with
      | .invoked vars => some (s.finishNode node vars answers)
      | _ => none
    else none
  | .expire node announced =>
    if s.lookedUp ∧ node ∈ task.command.commandNodes ∧ node.timeout.isSome then
      (expired node announced (s.commands node.position)).map fun status =>
        { s with commands := Function.update s.commands node.position status }
    else none
  | .resources artifacts reports =>
    if s.lookedUp then some (task.resourcesNode options artifacts reports s) else none
  | .nested others =>
    if s.lookedUp then
      some (if shouldRun (others ++ [s.cache]) then { s with ran := s.ran ++ [.nested] } else s)
    else none
  | .deferredFailure =>
    if s.lookedUp then some { s with cache := s.cache.blockPublication .deferredFailed } else none
  | .store key result => some { s with results := Function.update s.results key (some result) }
  | .finalize _ => if s.lookedUp then some s else none

/-- The results stored by earlier nodes of the run are arbitrary. -/
def machine [DecidableEq ν] (results : InvocationResults υ ν) :
    Machine (InvocationState δ υ ν) (Action δ υ ν) where
  init := ⟨.init, false, results, fun _ => .pending, []⟩
  step := task.step options

inductive Step [DecidableEq ν] :
    InvocationState δ υ ν → Action δ υ ν → InvocationState δ υ ν → Prop where
  | lookup {s request} : s.lookedUp = false →
      Step s (.lookup request) (task.lookupNode options request s)
  | start {s node answers} : s.lookedUp = true → node ∈ task.command.commandNodes →
      s.commands node.position = .pending →
      Step s (.start node answers) (task.startNode options node answers s)
  | finish {s node answers} (vars : ν) : s.lookedUp = true → node ∈ task.command.commandNodes →
      s.commands node.position = .invoked vars →
      Step s (.finish node answers) (s.finishNode node vars answers)
  | expire {s node announced} (status : CommandStatus υ ν) : s.lookedUp = true →
      node ∈ task.command.commandNodes →
      expired node announced (s.commands node.position) = some status →
      Step s (.expire node announced)
        { s with commands := Function.update s.commands node.position status }
  | resources {s artifacts reports} : s.lookedUp = true →
      Step s (.resources artifacts reports) (task.resourcesNode options artifacts reports s)
  | nested {s others} : s.lookedUp = true →
      Step s (.nested others)
        (if shouldRun (others ++ [s.cache]) then { s with ran := s.ran ++ [.nested] } else s)
  | deferredFailure {s} : s.lookedUp = true →
      Step s .deferredFailure { s with cache := s.cache.blockPublication .deferredFailed }
  | store {s key result} :
      Step s (.store key result) { s with results := Function.update s.results key (some result) }
  | finalize {s request} : s.lookedUp = true → Step s (.finalize request) s

variable {task options}

theorem Step.of_step [DecidableEq ν] {s s' : InvocationState δ υ ν} {a : Action δ υ ν}
    (h : task.step options s a = some s') : task.Step options s a s' := by
  cases a with
  | lookup request =>
    simp only [step, Option.ite_none_left_eq_some, Option.some.injEq] at h
    obtain ⟨hb, rfl⟩ := h
    exact .lookup (by simpa using hb)
  | start node answers =>
    simp only [step, Option.ite_none_right_eq_some] at h
    obtain ⟨⟨hl, hn⟩, h⟩ := h
    split at h
    · next hp =>
      cases h
      exact .start hl hn hp
    · cases h
  | finish node answers =>
    simp only [step, Option.ite_none_right_eq_some] at h
    obtain ⟨⟨hl, hn⟩, h⟩ := h
    split at h
    · next vars hi =>
      cases h
      exact .finish vars hl hn hi
    · cases h
  | expire node ann =>
    simp only [step, Option.ite_none_right_eq_some, Option.map_eq_some_iff] at h
    obtain ⟨⟨hl, hn, -⟩, status, hs, rfl⟩ := h
    exact .expire status hl hn hs
  | resources arts reps =>
    simp only [step, Option.ite_none_right_eq_some, Option.some.injEq] at h
    obtain ⟨hl, rfl⟩ := h
    exact .resources hl
  | nested others =>
    simp only [step, Option.ite_none_right_eq_some, Option.some.injEq] at h
    obtain ⟨hl, rfl⟩ := h
    exact .nested hl
  | deferredFailure =>
    simp only [step, Option.ite_none_right_eq_some, Option.some.injEq] at h
    obtain ⟨hl, rfl⟩ := h
    exact .deferredFailure hl
  | store key result =>
    cases h
    exact .store
  | finalize request =>
    simp only [step, Option.ite_none_right_eq_some, Option.some.injEq] at h
    obtain ⟨hl, rfl⟩ := h
    exact .finalize hl

end CacheableInvocation

end Octa.ResultCache
