import Octa.ResultCache.Lookup

/-!
# Publication of a completed miss

`finalize` returns what the finalizer hands to `write_action_if_absent`, if it
gets that far, next to its own result.
-/

namespace Octa.ResultCache

open Octa.Task

variable {δ υ : Type}

inductive WriteOutcome where
  | written
  | alreadyPresent
  | conflict
  deriving DecidableEq, Repr

structure FinalizeRequest (δ υ : Type) where
  deliver : ConsoleEvent → Bool
  snapshot : Except CacheError δ
  registeredResourcesError : CapturedResult υ → Option String
  packOutputs : Except CacheError δ
  writeBlobIfAbsent : δ → Except CacheError WriteOutcome
  /-- the result cannot be represented within the limits of the protocol -/
  metadataError : ActionResult δ υ → Option String
  writeActionIfAbsent : ActionResult δ υ → Except CacheError WriteOutcome

def actionResult (action : δ) (outputBundle : Option δ) (captured : CapturedResult υ) :
    ActionResult δ υ where
  action := action
  outputBundle := outputBundle
  stdout := some captured.stdout
  taskOutputs := captured.outputs.task.publicValues
  artifacts := captured.outputs.artifacts
  reports := captured.outputs.reports

abbrev Completed (δ υ : Type) := CapturedResult υ × CacheOutcome δ

/-- The written action result, if the store was asked to write one, and the
result of the finalizer. -/
structure Finalization (δ υ : Type) where
  written : Option (ActionResult δ υ)
  returned : Except ExecutorError (Completed δ υ)

namespace FinalizeRequest

variable (request : FinalizeRequest δ υ)

def publicationError (captured : CapturedResult υ) (outcome : CacheOutcome δ) (reason : CacheReason)
    (message : String) : Except ExecutorError (Completed δ υ) := do
  announce request.deliver (.error reason message)
  return (captured, { outcome with status := .error, reason := some reason })

/-- Packs and uploads the output bundle; an error is the result of the finalizer. -/
def publishBundle (noOutputs : Bool) (captured : CapturedResult υ) (outcome : CacheOutcome δ) :
    Except (Except ExecutorError (Completed δ υ)) (Option δ) :=
  if noOutputs then .ok none
  else
    match request.packOutputs with
    | .error .cancelled => .error (.error (.taskCancelled "cache publication"))
    | .error (.failed message) =>
      .error (request.publicationError captured outcome .outputCaptureFailed message)
    | .ok descriptor =>
      match request.writeBlobIfAbsent descriptor with
      | .ok .written | .ok .alreadyPresent => .ok (some descriptor)
      | .ok .conflict =>
        .error (request.publicationError captured outcome .blobConflict
          "immutable blob publication conflict")
      | .error .cancelled => .error (.error (.taskCancelled "cache publication"))
      | .error (.failed message) =>
        .error (request.publicationError captured outcome .blobPublicationFailed message)

def publishResult (result : ActionResult δ υ) (captured : CapturedResult υ)
    (outcome : CacheOutcome δ) : Finalization δ υ :=
  match request.metadataError result with
  | some message =>
    ⟨none, request.publicationError captured outcome .resultMetadataInvalid message⟩
  | none =>
    { written := some result
      returned :=
        match request.writeActionIfAbsent result with
        | .ok .written | .ok .alreadyPresent => do
            announce request.deliver .published
            return (captured, outcome)
        | .ok .conflict =>
          request.publicationError captured outcome .nondeterministicResult
            "nondeterministic cache result"
        | .error .cancelled => .error (.taskCancelled "cache publication")
        | .error (.failed message) =>
          request.publicationError captured outcome .publicationFailed message }

variable [DecidableEq δ]

/-- The part of the finalizer after all checks on the shared state. -/
def publish (noOutputs : Bool) (identity : PublicationIdentity δ) (captured : CapturedResult υ)
    (outcome : CacheOutcome δ) : Finalization δ υ :=
  match announce request.deliver .publishStarted with
  | .error error => ⟨none, .error error⟩
  | .ok () =>
    match request.snapshot with
    | .error .cancelled => ⟨none, .error (.taskCancelled "cache publication")⟩
    | .error (.failed message) =>
      ⟨none, request.publicationError captured outcome .inputRecheckFailed message⟩
    | .ok root =>
      if root ≠ identity.inputRoot then
        { written := none
          returned := do
            announce request.deliver
              (.error .inputsChangedBeforePublish "inputs changed before cache publication")
            return (captured, { outcome with reason := some .inputsChangedBeforePublish }) }
      else
        match request.registeredResourcesError captured with
        | some message =>
          ⟨none, request.publicationError captured outcome .resourceContractInvalid message⟩
        | none =>
          match request.publishBundle noOutputs captured outcome with
          | .error returned => ⟨none, returned⟩
          | .ok bundle =>
            request.publishResult (actionResult identity.action bundle captured) captured
              outcome

/-- Publishes a completed miss or returns the restored logical result of a hit. -/
def finalize (options : RunOptions) (s : CacheState δ υ) : Finalization δ υ :=
  match s.hit with
  | some completed => ⟨none, .ok completed⟩
  | none =>
    match s.miss with
    | none => ⟨none, .error (.cacheState "finalization ran before lookup")⟩
    | some (publication, captured, outcome) =>
      if s.probe then ⟨none, .ok (captured, outcome)⟩
      else if options.dry ∨ outcome.status ≠ .miss then ⟨none, .ok (captured, outcome)⟩
      else if !options.access.canWrite then ⟨none, .ok (captured, outcome)⟩
      else if captured.outputs.task.secretNames ≠ [] then
        -- a plugin may produce a secret output the planner did not know of
        ⟨none, .ok (captured, .bypassed .secretOutputs)⟩
      else
        match publication with
        | none => ⟨none, .ok (captured, outcome)⟩
        | some identity => request.publish options.noOutputs identity captured outcome

section Spec

variable {request : FinalizeRequest δ υ} {options : RunOptions} {s : CacheState δ υ}
  {result : ActionResult δ υ}

theorem publish_written {noOutputs : Bool} {idn : PublicationIdentity δ}
    {captured : CapturedResult υ} {outcome : CacheOutcome δ}
    (h : (request.publish noOutputs idn captured outcome).written = some result) :
    request.snapshot = .ok idn.inputRoot ∧
      ∃ bundle, result = actionResult idn.action bundle captured := by
  unfold publish at h
  split at h
  · cases h
  split at h
  · cases h
  · cases h
  rename_i root hs
  split at h
  · cases h
  rename_i hr
  split at h
  · cases h
  split at h
  · cases h
  rename_i bundle hb
  unfold publishResult at h
  split at h
  · cases h
  · have hsa : root = idn.inputRoot := by simpa using hr
    exact ⟨hsa ▸ hs, bundle, (Option.some.inj h).symm⟩

/-- What must hold of the shared state and the run when an action is written. -/
structure Written (request : FinalizeRequest δ υ) (options : RunOptions) (s : CacheState δ υ)
    (found : LookupState δ υ) (identity : PublicationIdentity δ) : Prop where
  lookup : s.lookup = some found
  publication : found.publication = some identity
  unblocked : s.publicationBlocked = none
  probe : s.probe = false
  dry : options.dry = false
  status : found.outcome.status = .miss
  access : options.access.canWrite = true
  secretNames : (aggregate s.captures s.resources).outputs.task.secretNames = []
  snapshot : request.snapshot = .ok identity.inputRoot

theorem finalize_written (h : (request.finalize options s).written = some result) :
    ∃ found idn bundle, request.Written options s found idn ∧
      result = actionResult idn.action bundle (aggregate s.captures s.resources) := by
  unfold finalize at h
  split at h
  · cases h
  split at h
  · cases h
  rename_i publication captured outcome hm
  split at h
  · cases h
  rename_i hpr
  split at h
  · cases h
  rename_i hd
  split at h
  · cases h
  rename_i ha
  split at h
  · cases h
  rename_i hs
  split at h
  · cases h
  rename_i idn
  obtain ⟨hsn, bundle, rfl⟩ := publish_written h
  unfold CacheState.miss at hm
  split at hm
  · cases hm
  rename_i found hl
  split at hm
  · cases hm
  simp only [Option.some.injEq, Prod.mk.injEq] at hm
  obtain ⟨hp, rfl, rfl⟩ := hm
  cases hb : s.publicationBlocked with
  | some reason => simp [hb] at hp
  | none =>
    simp only [hb, Option.isNone_none, if_true] at hp hd
    rw [not_or, not_not] at hd
    exact ⟨found, idn, bundle, ⟨hl, hp, hb, by simpa using hpr, by simpa using hd.1, hd.2,
        by simpa using ha, by simpa using hs, hsn⟩, rfl⟩

end Spec

end FinalizeRequest

end Octa.ResultCache
