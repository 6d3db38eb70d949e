import Octa.ResultCache.State
import Octa.Task.Command

/-!
# Cache lookup

`lookup` follows every exit of the source.  What the store, the snapshotter, the
restore manager and the console answer is part of the request.
-/

namespace Octa.ResultCache

open Octa.Task

variable {δ υ : Type}

inductive CacheError where
  | cancelled
  | failed (message : String)
  deriving DecidableEq, Repr

inductive ConsoleEvent where
  | lookupStarted
  | miss (reason : CacheReason)
  | hit (restoredBytes : ℕ)
  | restoreFinished (restoredBytes : ℕ)
  | error (reason : CacheReason) (message : String)
  | publishStarted
  | published
  deriving DecidableEq, Repr

/-- A stored action result; `outputBundle` is the descriptor of its output bundle. -/
structure ActionResult (δ υ : Type) where
  action : δ
  outputBundle : Option δ
  stdout : Option String
  taskOutputs : List (String × υ)
  artifacts : List RegisteredArtifact
  reports : List RegisteredReport

def cachedResult (result : ActionResult δ υ) : CapturedResult υ where
  stdout := result.stdout.getD ""
  outputs :=
    { step := []
      task := result.taskOutputs.foldl (fun task output =>
          task.insert ⟨output.1, output.2, false⟩) .empty
      artifacts := result.artifacts
      reports := result.reports }

/-- The options of the run and of the cache service that stay the same for all
nodes of an invocation. -/
structure RunOptions where
  dry : Bool
  force : Bool
  cacheProbe : Bool
  access : CacheMode
  /-- the plan of the task declares no outputs -/
  noOutputs : Bool

def announce (deliver : ConsoleEvent → Bool) (event : ConsoleEvent) : Except ExecutorError Unit :=
  if deliver event then .ok () else .error .console

variable {deliver : ConsoleEvent → Bool}

theorem announce_bind {event : ConsoleEvent} {α : Type} {next : Except ExecutorError α} {value : α}
    (h : (do announce deliver event; next) = .ok value) : next = .ok value := by
  unfold announce at h
  split at h
  · exact h
  · cases h

theorem announce_bind_ok {event : ConsoleEvent} {α : Type} {found value : α}
    (h : (do announce deliver event; return found : Except ExecutorError α) = .ok value) :
    found = value :=
  Except.ok.inj (announce_bind h)

/-- The values consumed by one lookup and the answers of the services it calls. -/
structure LookupRequest (δ υ : Type) where
  /-- the names of the secret variables of the resolved context -/
  secretNames : List String
  deliver : ConsoleEvent → Bool
  snapshot : Except CacheError δ
  actionDigest : δ → Except ExecutorError δ
  getAction : δ → Except CacheError (Option (ActionResult δ υ))
  descriptorError : δ → Option String
  resourceContractError : ActionResult δ υ → Option String
  findMissingBlobs : δ → Except CacheError Bool
  revalidate : Except CacheError Bool
  readBlob : δ → Except CacheError Unit
  restoreCachedBundle : δ → Except CacheError ℕ
  commitVerifiedHit : Except CacheError Unit

namespace LookupRequest

variable (request : LookupRequest δ υ) (options : RunOptions)

def recordLookupError (action : Option δ) (reason : CacheReason) (message : String) :
    Except ExecutorError (LookupState δ υ) := do
  announce request.deliver (.error reason message)
  return ⟨none, none, .error action reason⟩

def recordMiss (root action : δ) (reason : CacheReason) :
    Except ExecutorError (LookupState δ υ) := do
  announce request.deliver (.miss reason)
  return ⟨some ⟨action, root⟩, none, .miss action reason⟩

/-- Only the store knows whether a verified hit needs internal promotion. -/
def commitHit (action : δ) (result : ActionResult δ υ) (restoredBytes : ℕ) :
    Except ExecutorError (LookupState δ υ) :=
  match request.commitVerifiedHit with
  | .error .cancelled => .error (.taskCancelled "cache restore")
  | _ => do
      announce request.deliver (.hit restoredBytes)
      announce request.deliver (.restoreFinished restoredBytes)
      return ⟨none, some (cachedResult result), .hit action restoredBytes⟩

def restoreResult (action : δ) (result : ActionResult δ υ) :
    Except ExecutorError (LookupState δ υ) :=
  match request.revalidate with
  | .error .cancelled => .error (.taskCancelled "cache lookup")
  | .error (.failed message) => request.recordLookupError (some action) .inputRecheckFailed message
  | .ok false => do
      -- The command may observe either snapshot, so neither identity is published.
      announce request.deliver (.miss .inputsChangedDuringLookup)
      return ⟨none, none, .miss action .inputsChangedDuringLookup⟩
  | .ok true =>
    match result.outputBundle with
    | some bundle =>
      match request.readBlob bundle with
      | .error .cancelled => .error (.taskCancelled "cache restore")
      | .error (.failed message) =>
        request.recordLookupError (some action) .blobReadFailed message
      | .ok () =>
        match request.restoreCachedBundle bundle with
        | .error .cancelled => .error (.taskCancelled "cache restore")
        | .error (.failed message) =>
          request.recordLookupError (some action) .restoreFailed message
        | .ok restoredBytes => request.commitHit action result restoredBytes
    | none =>
      if options.noOutputs then request.commitHit action result 0
      else
        request.recordLookupError (some action) .missingOutputBundle
          "cache result omitted declared outputs"

def probeResult (action : δ) (result : ActionResult δ υ) :
    Except ExecutorError (LookupState δ υ) :=
  let hit := do
    announce request.deliver (.hit 0)
    return ⟨none, some (cachedResult result), .hit action 0⟩
  match result.outputBundle with
  | none => hit
  | some bundle =>
    match request.findMissingBlobs bundle with
    | .ok false => hit
    | .ok true =>
      request.recordLookupError (some action) .blobReadFailed
        "cache action references a missing local blob"
    | .error .cancelled => .error (.taskCancelled "cache lookup")
    | .error (.failed message) => request.recordLookupError (some action) .blobLookupFailed message

def lookupResult (probe : Bool) (action : δ) (result : ActionResult δ υ) :
    Except ExecutorError (LookupState δ υ) :=
  match result.outputBundle.bind request.descriptorError with
  | some message => request.recordLookupError (some action) .restoreFailed message
  | none =>
    match request.resourceContractError result with
    | some message => request.recordLookupError (some action) .resourceContractInvalid message
    | none =>
      if probe then request.probeResult action result else request.restoreResult options
          action result

def lookupAction (probe : Bool) (root action : δ) : Except ExecutorError (LookupState δ υ) :=
  if options.force then request.recordMiss root action .force
  else if !options.access.canRead then request.recordMiss root action .readDisabled
  else
    match request.getAction action with
    | .error .cancelled => .error (.taskCancelled "cache lookup")
    | .error (.failed message) => request.recordLookupError (some action) .lookupFailed message
    | .ok none => request.recordMiss root action .actionNotFound
    | .ok (some result) => request.lookupResult options probe action result

def lookup (probe : Bool) : Except ExecutorError (LookupState δ υ) :=
  if options.dry then .ok ⟨none, none, .bypassed .dryRun⟩
  else if request.secretNames ≠ [] then .ok ⟨none, none, .bypassed .secretVariables⟩
  else
    match request.snapshot with
    | .error .cancelled => .error (.taskCancelled "cache lookup")
    | .error (.failed message) => request.recordLookupError none .inputSnapshotFailed message
    | .ok root => do
        let action ← request.actionDigest root
        announce request.deliver .lookupStarted
        request.lookupAction options probe root action

section Spec

variable {request : LookupRequest δ υ} {options : RunOptions} {probe : Bool} {root action : δ}
  {result : ActionResult δ υ} {found : LookupState δ υ}

variable {reason : CacheReason}

theorem recordLookupError_ok {action : Option δ} {msg : String}
    (h : request.recordLookupError action reason msg = .ok found) :
    found = ⟨none, none, .error action reason⟩ :=
  (announce_bind_ok h).symm

theorem recordMiss_ok (h : request.recordMiss root action reason = .ok found) :
    found = ⟨some ⟨action, root⟩, none, .miss action reason⟩ :=
  (announce_bind_ok h).symm

theorem commitHit_ok {bytes : ℕ} (h : request.commitHit action result bytes = .ok found) :
    found = ⟨none, some (cachedResult result), .hit action bytes⟩ := by
  unfold commitHit at h
  split at h
  · cases h
  · exact (announce_bind_ok (announce_bind h)).symm

theorem lookupResult_publication (h : request.lookupResult options probe action result =
    .ok found) :
    found.publication = none := by
  unfold lookupResult probeResult restoreResult at h
  repeat' split at h
  all_goals first
    | rw [recordLookupError_ok h]
    | rw [commitHit_ok h]
    | rw [← announce_bind_ok h]
    | cases h

/-- The lookup ended as a miss that may be published under `identity`. -/
structure Publishable (request : LookupRequest δ υ) (options : RunOptions)
    (found : LookupState δ υ) (identity : PublicationIdentity δ) : Prop where
  publication : found.publication = some identity
  hit : found.hit = none
  status : found.outcome.status = .miss
  reason : found.outcome.reason ≠ some .inputsChangedDuringLookup
  dry : options.dry = false
  secretNames : request.secretNames = []
  snapshot : request.snapshot = .ok identity.inputRoot
  action : request.actionDigest identity.inputRoot = .ok identity.action

variable {identity : PublicationIdentity δ}

theorem recordMiss_publishable (h : request.recordMiss root action reason = .ok found)
    (hid : found.publication = some identity) (hre : reason ≠ .inputsChangedDuringLookup)
    (hdry : options.dry = false) (hse : request.secretNames = [])
    (hroot : request.snapshot = .ok root) (hact : request.actionDigest root = .ok action) :
    request.Publishable options found identity := by
  obtain rfl := recordMiss_ok h
  cases hid
  exact ⟨rfl, rfl, rfl, fun hs => hre (Option.some.inj hs), hdry, hse, hroot, hact⟩

theorem lookup_publishable (h : request.lookup options probe = .ok found)
    (hid : found.publication = some identity) : request.Publishable options found identity := by
  unfold lookup at h
  split at h
  · cases h
    cases hid
  rename_i hd
  split at h
  · cases h
    cases hid
  rename_i hs
  split at h
  · cases h
  · rw [recordLookupError_ok h] at hid
    cases hid
  rename_i root hr
  cases ha : request.actionDigest root with
  | error e =>
    rw [ha] at h
    cases h
  | ok action =>
    rw [ha] at h
    replace h := announce_bind h
    have hm : ∀ reason : CacheReason, reason ≠ .inputsChangedDuringLookup →
        request.recordMiss root action reason = .ok found →
        request.Publishable options found identity := by
      intro reason hre hrc
      exact recordMiss_publishable hrc hid hre (by simpa using hd) (by simpa using hs) hr ha
    unfold lookupAction at h
    split at h
    · exact hm .force (by decide) h
    split at h
    · exact hm .readDisabled (by decide) h
    split at h
    · cases h
    · rw [recordLookupError_ok h] at hid
      cases hid
    · exact hm .actionNotFound (by decide) h
    · rw [lookupResult_publication h] at hid
      cases hid

end Spec

end LookupRequest

end Octa.ResultCache
