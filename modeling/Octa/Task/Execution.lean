import Octa.Task.Command

/-!
# Execution of a command node

The pipeline of one command node.  The early exits stand in the order of the
source; what the called services answer is an argument.
-/

namespace Octa.Task

variable {υ ν : Type}

/-- Output and variable context kept for the nodes that share a cache key. -/
structure InvocationResult (υ ν : Type) where
  result : String
  vars : ν
  outputs : CompletionOutputs υ

abbrev InvocationResults (υ ν : Type) := String → Option (InvocationResult υ ν)

structure StartAnswers (υ ν : Type) where
  /-- the decisions of the inherited condition gates -/
  gates : Except ExecutorError Bool
  /-- the variables of the resolved runtime context -/
  context : Except ExecutorError ν
  /-- the conditions attached to the node itself -/
  conditions : Except ExecutorError Bool
  preconditions : Except ExecutorError Bool
  /-- the structured-output budget has room for these outputs -/
  reserve : CompletionOutputs υ → Bool
  /-- the console took the start message -/
  announced : Bool

inductive Start (υ ν : Type) where
  | failed (error : ExecutorError)
  /-- its own conditions or an inherited gate did not pass -/
  | skipped
  /-- a cache hit of a containing task or a cache probe suppresses the command -/
  | suppressed
  | reused (cached : InvocationResult υ ν)
  /-- a node without a plugin payload is done -/
  | empty
  | invoke (vars : ν)

/-- What the plugin call answers; `stdout` is trimmed, `none` stands for
resources outside the workspace. -/
inductive PluginAnswer (υ : Type) where
  | completed (code : ℤ) (cancelled : Bool) (stdout : String) (outputs : List (String × υ))
      (artifacts : Option (List RegisteredArtifact)) (reports : Option (List RegisteredReport))
  | interrupted
  | error (error : ExecutorError)

/-- The exit of the plugin is a failure that `ignore_error` may hide. -/
def PluginAnswer.ignorable : PluginAnswer υ → Prop
  | .completed code cancelled _ _ _ _ => code ≠ 0 ∧ cancelled = false
  | .interrupted => False
  | .error _ => True

structure FinishAnswers (υ : Type) where
  plugin : PluginAnswer υ
  reserve : CompletionOutputs υ → Bool
  announced : Bool

inductive Finish (υ : Type) where
  | failed (error : ExecutorError)
  /-- a failure that `ignore_error` turns into an empty success -/
  | ignored
  | succeeded (stdout : String) (outputs : CompletionOutputs υ)

namespace CommandNode

variable (node : CommandNode)

/-- Returns a reusable result according to the configured run mode of the node. -/
def checkInvocationResult [DecidableEq ν] (vars : ν) (results : InvocationResults υ ν) :
    Option (InvocationResult υ ν) :=
  match node.runMode with
  | .always => none
  | .once => results node.cacheKey
  | .changed => (results node.cacheKey).filter fun cached => cached.vars = vars

/-- Stores a successful result for the modes `once` and `changed`. -/
def updateInvocationResult (result : String) (vars : ν) (outputs : CompletionOutputs υ)
    (results : InvocationResults υ ν) : InvocationResults υ ν :=
  if node.runMode = .always then results
  else Function.update results node.cacheKey (some ⟨result, vars, outputs⟩)

def startInvocation [DecidableEq ν] (vars : ν) (answers : StartAnswers υ ν)
    (results : InvocationResults υ ν) : Start υ ν :=
  match node.checkInvocationResult vars results with
  | some cached =>
    if answers.reserve cached.outputs then .reused cached
    else .failed (.service "structured output budget exceeded")
  | none =>
    if !answers.announced then .failed .console
    else if node.plugin.isSome then .invoke vars
    else .empty

def start [DecidableEq ν] (shouldRun cacheProbe : Bool) (answers : StartAnswers υ ν)
    (results : InvocationResults υ ν) : Start υ ν :=
  match answers.gates with
  | .error error => .failed error
  | .ok false => .skipped
  | .ok true =>
    if !shouldRun then .suppressed
    else
      match answers.context, answers.conditions, answers.preconditions with
      | .error error, _, _ => .failed error
      | .ok _, .error error, _ => .failed error
      | .ok _, .ok false, _ => .skipped
      | .ok _, .ok true, .error error => .failed error
      | .ok _, .ok true, .ok false =>
        .failed (.taskCancelled ("Task '" ++ node.name ++ "' preconditions failed"))
      | .ok vars, .ok true, .ok true =>
        if cacheProbe then .suppressed else node.startInvocation vars answers results

/-- Converts a failure according to the `ignore_error` policy. -/
def handleExecutionError (announced : Bool) (error : ExecutorError) : Finish υ :=
  if !node.ignoreErrors then .failed error
  else if announced then .ignored
  else .failed .console

def complete (outputs : List (String × υ)) (artifacts : Option (List RegisteredArtifact))
    (reports : Option (List RegisteredReport)) : Except ExecutorError (CompletionOutputs υ) :=
  match completionOutputs node.exports outputs (artifacts.getD []) (reports.getD []) with
  | .error field => .error (.taskOutputMissing node.stepLabel field)
  | .ok outputs =>
    if artifacts.isNone ∨ reports.isNone then .error (.service "resource outside the workspace")
    else .ok outputs

/-- Everything a command node does with the answer of its plugin. -/
def finish (vars : ν) (answers : FinishAnswers υ) (results : InvocationResults υ ν) :
    Finish υ × InvocationResults υ ν :=
  match answers.plugin with
  | .completed code cancelled stdout outputs artifacts reports =>
    if code ≠ 0 ∨ cancelled then
      if artifacts.isNone then (.failed (.service "resource outside the workspace"), results)
      else if cancelled then (.failed (.taskCancelled node.name), results)
      else (node.handleExecutionError answers.announced (.commandFailed node.name code), results)
    else
      match node.complete outputs artifacts reports with
      | .error error => (.failed error, results)
      | .ok outputs =>
        if answers.reserve outputs then
          (.succeeded stdout outputs, node.updateInvocationResult stdout vars outputs results)
        else (.failed (.service "structured output budget exceeded"), results)
  | .interrupted => (.failed (.taskCancelled node.name), results)
  | .error error => (node.handleExecutionError answers.announced error, results)

section Spec

variable {node : CommandNode}
variable {outputs : CompletionOutputs υ} {shouldRun probe : Bool} {answers : StartAnswers υ ν}
  {results : InvocationResults υ ν} {vars : ν}

theorem handleExecutionError_ne_succeeded {ann : Bool} {error : ExecutorError}
    {stdout : String} : node.handleExecutionError ann error ≠ .succeeded stdout outputs := by
  unfold handleExecutionError
  split
  · nofun
  · split <;> nofun

theorem handleExecutionError_eq_ignored {ann : Bool} {error : ExecutorError}
    (h : node.handleExecutionError ann error = (.ignored : Finish υ)) :
    node.ignoreErrors = true := by
  unfold handleExecutionError at h
  split at h
  · cases h
  · next hi => simpa using hi

theorem complete_ok {raw : List (String × υ)} {arts : Option (List RegisteredArtifact)}
    {reps : Option (List RegisteredReport)}
    (h : node.complete raw arts reps = .ok outputs) :
    completionOutputs node.exports raw (arts.getD []) (reps.getD []) = .ok outputs := by
  unfold complete at h
  split at h
  · cases h
  next hc =>
  split at h
  · cases h
  · cases h
    exact hc

variable {cached : InvocationResult υ ν}

theorem start_reused [DecidableEq ν]
    (h : node.start shouldRun probe answers results = .reused cached) :
    answers.gates = .ok true ∧ answers.conditions = .ok true ∧ ∃ vars, answers.context = .ok vars ∧
        node.checkInvocationResult vars results = some cached := by
  unfold start at h
  split at h
  · cases h
  · cases h
  next hg =>
  split at h
  · cases h
  split at h
  all_goals try cases h
  next vars hc hcn hp =>
  split at h
  · cases h
  unfold startInvocation at h
  split at h
  · next found hch =>
    split at h
    · cases h
      exact ⟨hg, hcn, vars, hc, hch⟩
    · cases h
  split at h
  · cases h
  · split at h <;> cases h

theorem start_empty [DecidableEq ν] (h : node.start shouldRun probe answers results = .empty) :
    node.plugin = none := by
  unfold start at h
  split at h
  · cases h
  · cases h
  split at h
  · cases h
  split at h
  all_goals try cases h
  split at h
  · cases h
  unfold startInvocation at h
  split at h
  · split at h <;> cases h
  split at h
  · cases h
  split at h
  · cases h
  · next hp => simpa using hp

theorem start_invoke [DecidableEq ν]
    (h : node.start shouldRun probe answers results = .invoke vars) :
    node.checkInvocationResult vars results = none := by
  unfold start at h
  split at h
  · cases h
  · cases h
  split at h
  · cases h
  split at h
  all_goals try cases h
  split at h
  · cases h
  unfold startInvocation at h
  split at h
  · split at h <;> cases h
  next hc =>
  split at h
  · cases h
  split at h
  · cases h
    exact hc
  · cases h

theorem start_suppressed [DecidableEq ν]
    (h : node.start shouldRun probe answers results = .suppressed) :
    shouldRun = false ∨ probe = true := by
  unfold start at h
  split at h
  · cases h
  · cases h
  split at h
  · next hr => exact .inl (by simpa using hr)
  split at h
  all_goals try cases h
  split at h
  · next hp => exact .inr hp
  unfold startInvocation at h
  split at h
  · split at h <;> cases h
  split at h
  · cases h
  · split at h <;> cases h

theorem start_of_stored [DecidableEq ν] (hga : answers.gates = .ok true)
    (hco : answers.context = .ok vars) (hcn : answers.conditions = .ok true)
    (hch : node.checkInvocationResult vars results = some cached) :
    node.start shouldRun probe answers results = .suppressed ∨
      node.start shouldRun probe answers results = .reused cached ∨
      ∃ error, node.start shouldRun probe answers results = .failed error := by
  cases shouldRun with
  | false => exact .inl (by simp [start, hga])
  | true =>
    cases hp : answers.preconditions with
    | error error =>
      exact .inr (.inr ⟨error, by simp [start, hga, hco, hcn, hp]⟩)
    | ok passed =>
      cases passed with
      | false =>
        exact .inr (.inr ⟨_, by simp [start, hga, hco, hcn, hp]; rfl⟩)
      | true =>
        cases probe with
        | true => exact .inl (by simp [start, hga, hco, hcn, hp])
        | false =>
          simp only [start, hga, hco, hcn, hp, startInvocation,
            hch, Bool.not_true, Bool.false_eq_true, if_false]
          split
          · exact .inr (.inl rfl)
          · exact .inr (.inr ⟨_, rfl⟩)

/-- A node succeeds only after a zero exit that was not cancelled; its result is
stored in the same step. -/
theorem finish_succeeded {answers : FinishAnswers υ} {stdout : String}
    (h : (node.finish vars answers results).1 = .succeeded stdout outputs) :
    (node.finish vars answers results).2 = node.updateInvocationResult stdout vars outputs results ∧
      ∃ raw arts reps, answers.plugin = .completed 0 false stdout raw arts reps ∧
        completionOutputs node.exports raw (arts.getD []) (reps.getD []) = .ok outputs := by
  cases hp : answers.plugin with
  | completed code cancelled out raw arts reps =>
    simp only [finish, hp] at h ⊢
    split at h
    · split at h
      · cases h
      split at h
      · cases h
      · exact absurd h handleExecutionError_ne_succeeded
    next hz =>
    rw [not_or, not_not, Bool.not_eq_true] at hz
    obtain ⟨rfl, rfl⟩ := hz
    cases hc : node.complete raw arts reps with
    | error error => simp [hc] at h
    | ok completed =>
      simp only [hc] at h
      split at h
      · next hr =>
        cases h
        exact ⟨by simp [hr], raw, arts, reps, rfl, complete_ok hc⟩
      · cases h
  | interrupted => simp [finish, hp] at h
  | error error =>
    simp only [finish, hp] at h
    exact absurd h handleExecutionError_ne_succeeded

theorem finish_snd_of_ne_succeeded {answers : FinishAnswers υ}
    (h : ∀ stdout outputs, (node.finish vars answers results).1 ≠ .succeeded stdout outputs) :
    (node.finish vars answers results).2 = results := by
  unfold finish at h ⊢
  split
  · split
    · split
      · rfl
      · split <;> rfl
    · split
      · rfl
      · split
        · simp_all
        · rfl
  · rfl
  · rfl

theorem finish_ignored {answers : FinishAnswers υ}
    (h : (node.finish vars answers results).1 = .ignored) :
    node.ignoreErrors = true ∧ answers.plugin.ignorable := by
  cases hp : answers.plugin with
  | completed code cancelled out raw arts reps =>
    simp only [finish, hp] at h
    split at h
    · next hco =>
      split at h
      · cases h
      split at h
      · cases h
      next hc =>
      rw [Bool.not_eq_true] at hc
      refine ⟨handleExecutionError_eq_ignored h, ?_, hc⟩
      simpa [hc] using hco
    · split at h
      · cases h
      · split at h <;> cases h
  | interrupted => simp [finish, hp] at h
  | error error =>
    simp only [finish, hp] at h
    exact ⟨handleExecutionError_eq_ignored h, trivial⟩

theorem handleExecutionError_cases (node : CommandNode) (ann : Bool) (error : ExecutorError) :
    node.handleExecutionError ann error = (.ignored : Finish υ) ∨
      ∃ failure, node.handleExecutionError ann error = (.failed failure : Finish υ) := by
  unfold handleExecutionError
  split
  · exact .inr ⟨_, rfl⟩
  split
  · exact .inl rfl
  · exact .inr ⟨_, rfl⟩

theorem finish_of_ignorable (vars : ν) {answers : FinishAnswers υ} (results : InvocationResults υ ν)
    (h : answers.plugin.ignorable) : (node.finish vars answers results).1 = .ignored ∨
      ∃ failure, (node.finish vars answers results).1 = .failed failure := by
  cases hp : answers.plugin with
  | completed code cancelled out raw arts reps =>
    rw [hp] at h
    obtain ⟨hc, rfl⟩ := h
    simp only [finish, hp, hc, ne_eq, not_false_eq_true, true_or, if_true]
    split
    · exact .inr ⟨_, rfl⟩
    · exact handleExecutionError_cases _ _ _
  | interrupted =>
    rw [hp] at h
    exact h.elim
  | error error =>
    simp only [finish, hp]
    exact handleExecutionError_cases _ _ _

end Spec

end CommandNode

inductive CommandStatus (υ ν : Type) where
  | pending
  | invoked (vars : ν)
  | skipped
  | suppressed
  | empty
  | reused (cached : InvocationResult υ ν)
  | ignored
  /-- the plugin was invoked and exited with code zero -/
  | succeeded (stdout : String) (outputs : CompletionOutputs υ)
  | failed (error : ExecutorError)

def CommandStatus.ofStart : Start υ ν → CommandStatus υ ν
  | .failed error => .failed error
  | .skipped => .skipped
  | .suppressed => .suppressed
  | .reused cached => .reused cached
  | .empty => .empty
  | .invoke vars => .invoked vars

def CommandStatus.ofFinish : Finish υ → CommandStatus υ ν
  | .failed error => .failed error
  | .ignored => .ignored
  | .succeeded stdout outputs => .succeeded stdout outputs

/-- The node has finished with a terminal success, as its successors require. -/
def CommandStatus.finished : CommandStatus υ ν → Bool
  | .pending | .invoked _ | .failed _ => false
  | _ => true

/-- The node finished without a captured result, or did not finish at all. -/
def CommandStatus.diverted : CommandStatus υ ν → Bool
  | .suppressed | .reused _ | .ignored | .failed _ => true
  | _ => false

/-- A timed out node is cancelled; what it recorded before stays. -/
def expired (node : CommandNode) (announced : Bool) :
    CommandStatus υ ν → Option (CommandStatus υ ν)
  | .pending | .invoked _ =>
    some (.ofFinish (node.handleExecutionError announced (.taskTimedOut node.name)))
  | .succeeded stdout outputs =>
    match (node.handleExecutionError announced (.taskTimedOut node.name) : Finish υ) with
    | .failed error => some (.failed error)
    | _ => some (.succeeded stdout outputs)
  | _ => none

theorem ofStart_ne_ignored {outcome : Start υ ν} : CommandStatus.ofStart outcome ≠ .ignored := by
  cases outcome <;> nofun

theorem ofStart_injective : Function.Injective (CommandStatus.ofStart (υ := υ) (ν := ν)) := by
  intro outcome out' h
  cases outcome <;> cases out' <;> cases h <;> rfl

theorem ofFinish_injective : Function.Injective (CommandStatus.ofFinish (υ := υ) (ν := ν)) := by
  intro outcome out' h
  cases outcome <;> cases out' <;> cases h <;> rfl

theorem ofFinish_ne_reused {outcome : Finish υ} {cached : InvocationResult υ ν} :
    CommandStatus.ofFinish outcome ≠ .reused cached := by
  cases outcome <;> nofun

theorem ofStart_ne_succeeded {outcome : Start υ ν} {stdout : String}
    {outputs : CompletionOutputs υ} : CommandStatus.ofStart outcome ≠
      .succeeded stdout outputs := by
  cases outcome <;> nofun

theorem expired_cases {node : CommandNode} {ann : Bool} {status st' : CommandStatus υ ν}
    (h : expired node ann status = some st') : st' = .ignored ∧ node.ignoreErrors = true ∧
        (∀ stdout outputs, status ≠ .succeeded stdout outputs) ∨
      (∃ error, st' = .failed error) ∨
      ∃ stdout outputs, status = .succeeded stdout outputs ∧ st' = status := by
  have hw : (∀ stdout outputs, status ≠ .succeeded stdout outputs) →
      CommandStatus.ofFinish (node.handleExecutionError ann (.taskTimedOut node.name)) = st' →
      st' = .ignored ∧ node.ignoreErrors = true ∧
          (∀ stdout outputs, status ≠ .succeeded stdout outputs) ∨
        (∃ error, st' = .failed error) ∨
        ∃ stdout outputs, status = .succeeded stdout outputs ∧ st' = status := by
    rintro hs rfl
    rcases node.handleExecutionError_cases (υ := υ) ann (.taskTimedOut node.name) with hi |
        ⟨failure, hf⟩
    · rw [hi]
      exact .inl ⟨rfl, CommandNode.handleExecutionError_eq_ignored hi, hs⟩
    · rw [hf]
      exact .inr (.inl ⟨failure, rfl⟩)
  cases status with
  | pending | invoked vars => exact hw nofun (Option.some.inj h)
  | succeeded stdout outputs =>
    simp only [expired] at h
    split at h
    · exact .inr (.inl ⟨_, (Option.some.inj h).symm⟩)
    · exact .inr (.inr ⟨stdout, outputs, rfl, (Option.some.inj h).symm⟩)
  | skipped | suppressed | empty | reused | ignored | failed => cases h

end Octa.Task
