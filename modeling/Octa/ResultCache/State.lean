import Octa.Task.Outputs
import Mathlib.Order.Nat

/-!
# Shared state of one cacheable invocation

The state written by the lookup, command and resource nodes of an invocation
and read by its finalizer.  `δ` is the type of the digests and `υ` the type of
the structured values.
-/

namespace Octa.ResultCache

open Octa.Task

variable {δ υ : Type}

inductive CacheMode where
  | readOnly
  | writeOnly
  | readWrite
  deriving DecidableEq, Repr

def CacheMode.canRead : CacheMode → Bool
  | .readOnly | .readWrite => true
  | .writeOnly => false

def CacheMode.canWrite : CacheMode → Bool
  | .writeOnly | .readWrite => true
  | .readOnly => false

inductive CacheReason where
  | dryRun
  | secretVariables
  | secretOutputs
  | force
  | readDisabled
  | actionNotFound
  | inputSnapshotFailed
  | inputRecheckFailed
  | inputsChangedDuringLookup
  | inputsChangedBeforePublish
  | lookupFailed
  | blobLookupFailed
  | blobReadFailed
  | restoreFailed
  | missingOutputBundle
  | outputCaptureFailed
  | blobConflict
  | blobPublicationFailed
  | resultMetadataInvalid
  | resourceContractInvalid
  | deferredFailed
  | nondeterministicResult
  | publicationFailed
  deriving DecidableEq, Repr

inductive CacheStatus where
  | hit
  | miss
  | bypassed
  | error
  deriving DecidableEq, Repr

/-- Machine-readable cache result attached to a task terminal snapshot. -/
structure CacheOutcome (δ : Type) where
  status : CacheStatus
  action : Option δ
  restoredBytes : ℕ
  reason : Option CacheReason

namespace CacheOutcome

def hit (action : δ) (restoredBytes : ℕ) : CacheOutcome δ :=
  ⟨.hit, some action, restoredBytes, none⟩

def miss (action : δ) (reason : CacheReason) : CacheOutcome δ :=
  ⟨.miss, some action, 0, some reason⟩

def bypassed (reason : CacheReason) : CacheOutcome δ := ⟨.bypassed, none, 0, some reason⟩

def error (action : Option δ) (reason : CacheReason) : CacheOutcome δ :=
  ⟨.error, action, 0, some reason⟩

end CacheOutcome

structure PublicationIdentity (δ : Type) where
  action : δ
  inputRoot : δ

structure CapturedResult (υ : Type) where
  stdout : String
  outputs : CompletionOutputs υ

structure LookupState (δ υ : Type) where
  /-- retained only when publication is safe -/
  publication : Option (PublicationIdentity δ)
  hit : Option (CapturedResult υ)
  outcome : CacheOutcome δ

structure CacheState (δ υ : Type) where
  /-- diagnostic probes compute lookup state but never execute or publish work -/
  probe : Bool
  lookup : Option (LookupState δ υ)
  captures : OrderedMap ℕ (CapturedResult υ)
  resources : Option (CompletionOutputs υ)
  /-- a non-fatal lifecycle failure that makes publication unsafe -/
  publicationBlocked : Option CacheReason

def extendUnique {α : Type} [DecidableEq α] (destination values : List α) : List α :=
  values.foldl (fun destination value =>
    if value ∈ destination then destination else destination ++ [value]) destination

/-- The declaration-order stdout and the merged outputs of an invocation. -/
def aggregate (captures : OrderedMap ℕ (CapturedResult υ))
    (resources : Option (CompletionOutputs υ)) : CapturedResult υ :=
  let outputs := captures.values.map CapturedResult.outputs ++ resources.toList
  { stdout := "\n".intercalate (captures.values.map CapturedResult.stdout)
    outputs :=
      { step := []
        task := (outputs.map CompletionOutputs.task).foldl TaskOutputs.extend .empty
        artifacts := (outputs.map CompletionOutputs.artifacts).foldl extendUnique []
        reports := (outputs.map CompletionOutputs.reports).foldl extendUnique [] } }

namespace CacheState

def init : CacheState δ υ := ⟨false, none, .empty, none, none⟩

def shouldSkipBody (s : CacheState δ υ) : Bool :=
  s.probe || s.lookup.any fun lookup => lookup.hit.isSome

def recordCommand (s : CacheState δ υ) (position : ℕ) (stdout : String)
    (outputs : CompletionOutputs υ) : CacheState δ υ :=
  { s with captures := s.captures.insert position ⟨stdout, outputs⟩ }

def recordResources (s : CacheState δ υ) (outputs : CompletionOutputs υ) : CacheState δ υ :=
  { s with resources := some outputs }

/-- Prevents publication without changing the main task conclusion. -/
def blockPublication (s : CacheState δ υ) (reason : CacheReason) : CacheState δ υ :=
  { s with publicationBlocked := s.publicationBlocked.or (some reason) }

def miss (s : CacheState δ υ) :
    Option (Option (PublicationIdentity δ) × CapturedResult υ × CacheOutcome δ) :=
  match s.lookup with
  | none => none
  | some lookup =>
    if lookup.hit.isSome then none
    else
      let outcome :=
        match s.publicationBlocked with
        | some reason => { lookup.outcome with reason := some reason }
        | none => lookup.outcome
      some (if s.publicationBlocked.isNone then lookup.publication else none,
        aggregate s.captures s.resources, outcome)

def hit (s : CacheState δ υ) : Option (CapturedResult υ × CacheOutcome δ) :=
  match s.lookup with
  | none => none
  | some lookup => lookup.hit.map fun captured => (captured, lookup.outcome)

end CacheState

end Octa.ResultCache
