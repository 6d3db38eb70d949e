import Octa.Cache.RelativePath
import Octa.Task.Command
import Octa.Task.Dependencies

/-!
# The action identity

The lookup node hashes a descriptor of the invocation.
-/

namespace Octa.ResultCache

open Octa.Cache Octa.Task

variable {δ υ ω ρ π : Type}

structure Vars (ω : Type) where
  values : List (String × ω)
  secrets : List String

structure TaskCachePlan (δ : Type) where
  taskDefinition : δ
  /-- the environment variables the task declares as inputs -/
  environment : List String
  arguments : List String
  timeout : Option ℕ
  salt : Option String

structure RuntimeContext (ω : Type) where
  vars : Vars ω
  envs : List (String × String)
  /-- the working directory, if it is inside the workspace -/
  dir : Option RelativePath
  identityNames : List String

structure ActionDescriptor (δ ρ π : Type) where
  keyFormat : ℕ
  taskDefinition : δ
  inputRoot : δ
  workingDirectory : RelativePath
  vars : δ
  environment : δ
  runtime : ρ
  plugins : List π
  arguments : List String
  timeout : Option ℕ
  salt : Option String

/-- What one cache lookup reads.  `processEnv` is the environment of the process
and `plugins` the answer of the plugin manager. -/
structure LookupInputs (δ υ ω ρ π : Type) where
  plan : TaskCachePlan δ
  runtime : ρ
  context : RuntimeContext ω
  inputRoot : δ
  processEnv : String → Except ExecutorError (Option String)
  plugins : Except ExecutorError (List π)
  /-- the dependency results received by the lookup node -/
  received : DependencyResults υ

def Vars.actionValues (vars : Vars ω) (tracked : List String) : List (String × ω) :=
  vars.values.filter fun entry => entry.1 ∉ vars.secrets ∧ entry.1 ∈ tracked

def actionKeyFormat : ℕ := 1

namespace LookupInputs

variable (inputs : LookupInputs δ υ ω ρ π)

def actionValues : List (String × ω) :=
  inputs.context.vars.actionValues inputs.context.identityNames

/-- The declared inherited variables; a missing value differs from an empty one. -/
def inherited : Except ExecutorError (List (String × Option String)) :=
  inputs.plan.environment.mapM fun name => do
    let value ← inputs.processEnv name
    return (name, value)

def workingDirectory : Except ExecutorError RelativePath :=
  match inputs.context.dir with
  | some dir => .ok dir
  | none =>
    .error (.invalidCacheConfiguration "task working directory is outside the cache workspace")

def actionDescriptor (digestValues : List (String × ω) → δ)
    (digestEnvironment : List (String × String) × List (String × Option String) → δ) :
    Except ExecutorError (ActionDescriptor δ ρ π) := do
  let workingDirectory ← inputs.workingDirectory
  let inherited ← inputs.inherited
  let plugins ← inputs.plugins
  return {
    keyFormat := actionKeyFormat
    taskDefinition := inputs.plan.taskDefinition
    inputRoot := inputs.inputRoot
    workingDirectory := workingDirectory
    vars := digestValues inputs.actionValues
    environment := digestEnvironment (inputs.context.envs, inherited)
    runtime := inputs.runtime
    plugins := plugins
    arguments := inputs.plan.arguments
    timeout := inputs.plan.timeout
    salt := inputs.plan.salt }

/-- The lookup node is internal: it hands on what it has received itself. -/
def commandReceived : DependencyResults υ :=
  DependencyResults.empty.bypassResult inputs.received

/-- The value of `deps_result` in the request of the first command. -/
def commandStdouts : String → Option String := inputs.commandReceived.stdouts

/-- The two invocations agree on everything the task declares as its input. -/
structure Agree (a b : LookupInputs δ υ ω ρ π) : Prop where
  taskDefinition : a.plan.taskDefinition = b.plan.taskDefinition
  inputRoot : a.inputRoot = b.inputRoot
  actionValues : a.actionValues = b.actionValues
  envs : a.context.envs = b.context.envs
  inherited : a.inherited = b.inherited
  plugins : a.plugins = b.plugins
  arguments : a.plan.arguments = b.plan.arguments
  salt : a.plan.salt = b.plan.salt

variable {a b inputs : LookupInputs δ υ ω ρ π} {digestValues : List (String × ω) → δ}
  {digestEnvironment : List (String × String) × List (String × Option String) → δ}
  {descriptor descriptor' : ActionDescriptor δ ρ π}

theorem actionDescriptor_ok
    (h : inputs.actionDescriptor digestValues digestEnvironment = .ok descriptor) :
    ∃ dir inherited plugins, inputs.context.dir = some dir ∧ inputs.inherited = .ok inherited ∧
      inputs.plugins = .ok plugins ∧
      descriptor = ⟨actionKeyFormat, inputs.plan.taskDefinition, inputs.inputRoot, dir,
        digestValues inputs.actionValues, digestEnvironment (inputs.context.envs, inherited),
        inputs.runtime, plugins, inputs.plan.arguments, inputs.plan.timeout, inputs.plan.salt⟩ := by
  unfold actionDescriptor workingDirectory at h
  cases hd : inputs.context.dir with
  | none =>
    rw [hd] at h
    cases h
  | some dir =>
    cases hi : inputs.inherited with
    | error error =>
      rw [hd, hi] at h
      cases h
    | ok inherited =>
      cases hp : inputs.plugins with
      | error error =>
        rw [hd, hi, hp] at h
        cases h
      | ok plugins =>
        rw [hd, hi, hp] at h
        exact ⟨dir, inherited, plugins, rfl, rfl, rfl, (Except.ok.inj h).symm⟩

theorem descriptor_eq_iff (hag : Agree a b)
    (ha : a.actionDescriptor digestValues digestEnvironment = .ok descriptor)
    (hb : b.actionDescriptor digestValues digestEnvironment = .ok descriptor') :
    descriptor = descriptor' ↔ a.context.dir = b.context.dir ∧ a.runtime = b.runtime ∧
      a.plan.timeout = b.plan.timeout := by
  obtain ⟨dir, inherited, plugins, hd, hi, hp, rfl⟩ := actionDescriptor_ok ha
  obtain ⟨dir', inherited', plugins', hd', hi', hp', rfl⟩ := actionDescriptor_ok hb
  have hs : inherited = inherited' := Except.ok.inj (hi.symm.trans (hag.inherited.trans hi'))
  have hs' : plugins = plugins' := Except.ok.inj (hp.symm.trans (hag.plugins.trans hp'))
  rw [hd, hd', hs, hs', hag.taskDefinition, hag.inputRoot, hag.actionValues,
    hag.envs, hag.arguments, hag.salt]
  simp only [ActionDescriptor.mk.injEq, Option.some.injEq, true_and, and_true]

theorem separates_stdouts_iff (digestValues : List (String × ω) → δ)
    (digestEnvironment : List (String × String) × List (String × Option String) → δ)
    {κ : Type} {hash : ActionDescriptor δ ρ π → κ} (hhash : Function.Injective hash)
    {a b : LookupInputs δ υ ω ρ π} (hagree : Agree a b)
    {descriptor descriptor' : ActionDescriptor δ ρ π}
    (ha : a.actionDescriptor digestValues digestEnvironment = .ok descriptor)
    (hb : b.actionDescriptor digestValues digestEnvironment = .ok descriptor') :
    (a.commandStdouts ≠ b.commandStdouts → hash descriptor ≠ hash descriptor') ↔
      a.commandStdouts = b.commandStdouts ∨ a.context.dir ≠ b.context.dir ∨
        a.runtime ≠ b.runtime ∨ a.plan.timeout ≠ b.plan.timeout := by
  have hkey : hash descriptor ≠ hash descriptor' ↔ a.context.dir ≠ b.context.dir ∨
      a.runtime ≠ b.runtime ∨ a.plan.timeout ≠ b.plan.timeout := by
    rw [hhash.ne_iff, Ne, descriptor_eq_iff hagree ha hb]
    simp only [not_and_or, ne_eq]
  rw [hkey]
  tauto

/-- An invocation whose only dependency printed `stdout`. -/
def afterDependency (stdout : String) (timeout : Option ℕ) : LookupInputs ℕ ℕ ℕ Unit Unit where
  plan := ⟨1, [], [], timeout, none⟩
  runtime := ()
  context := ⟨⟨[], []⟩, [], some .root, []⟩
  inputRoot := 2
  processEnv := fun _ => .ok none
  plugins := .ok []
  received := DependencyResults.empty.setResult "generate" ⟨stdout, .empty⟩

/-- The descriptor of all these invocations, but for the timeout. -/
def sharedDescriptor (timeout : Option ℕ) : ActionDescriptor ℕ Unit Unit :=
  ⟨1, 1, 2, .root, 0, 0, (), [], [], timeout, none⟩

theorem stdouts_share_descriptor : Agree (afterDependency "one" none) (afterDependency "two" none) ∧
      (afterDependency "one" none).commandStdouts "generate" = some "one" ∧
      (afterDependency "two" none).commandStdouts "generate" = some "two" ∧
      (afterDependency "one" none).actionDescriptor (fun _ => 0) (fun _ => 0) =
        .ok (sharedDescriptor none) ∧
      (afterDependency "two" none).actionDescriptor (fun _ => 0) (fun _ => 0) =
        .ok (sharedDescriptor none) :=
  ⟨⟨rfl, rfl, rfl, rfl, rfl, rfl, rfl, rfl⟩, rfl, rfl, rfl, rfl⟩

theorem separates_stdouts_iff_timeout :
    (afterDependency "one" none).commandStdouts ≠ (afterDependency "two" (some 5)).commandStdouts ∧
      sharedDescriptor none ≠ sharedDescriptor (some 5) := by
  have hagree : Agree (afterDependency "one" none) (afterDependency "two" (some 5)) :=
    ⟨rfl, rfl, rfl, rfl, rfl, rfl, rfl, rfl⟩
  have hone : (afterDependency "one" none).actionDescriptor (fun _ => 0) (fun _ => 0) =
      .ok (sharedDescriptor none) := rfl
  have htwo : (afterDependency "two" (some 5)).actionDescriptor (fun _ => 0) (fun _ => 0) =
      .ok (sharedDescriptor (some 5)) := rfl
  have hiff := separates_stdouts_iff (fun _ => 0) (fun _ => 0) Function.injective_id
    hagree hone htwo
  have hstdouts : (afterDependency "one" none).commandStdouts ≠
      (afterDependency "two" (some 5)).commandStdouts := by
    intro hsame
    have hstdout : some "one" = some "two" := congrFun hsame "generate"
    exact absurd hstdout (by decide)
  exact ⟨hstdouts, hiff.mpr (.inr (.inr (.inr nofun))) hstdouts⟩

end LookupInputs

end Octa.ResultCache
