import Octa.LocalStore.Object
import Octa.Foundation.System

/-!
# The local store as a transition system

Writers, readers and collectors of any number of processes share the objects of
one layout, the temporary files and the capacity ledger.
-/

namespace Octa.LocalStore

open Wire (Bytes)

variable {ρ : Type}

/-! ## Agents -/

inductive WriteOutcome where
  | written
  | alreadyPresent
  | conflict
  deriving DecidableEq, Repr

inductive CacheError where
  | protocol
  | limit
  | invalidBundle
  | corrupt
  | io
  deriving DecidableEq, Repr

abbrev Answer := Except CacheError WriteOutcome

inductive Job (ρ : Type) where
  | blob (descriptor : BlobDescriptor) (body : Bytes)
  | action (nameSpace : String) (result : ρ)

inductive Stage where
  /-- `existing_blob_is_valid` looks for the object. -/
  | inspecting
  /-- It reads the object that it found. -/
  | hashing
  /-- The object did not verify and is about to be quarantined. -/
  | quarantining
  /-- Waits for the shared collection lock; `retry` after a collection. -/
  | locking (retry : Bool)
  | reserving (retry : Bool)
  /-- The bytes are reserved. -/
  | reserved
  /-- The temporary file exists. -/
  | filling
  /-- The temporary file is complete and synchronised. -/
  | synced
  /-- Waits for the lock of the object. -/
  | prepared
  /-- Holds the lock of the object. -/
  | guarded
  /-- The destination is absent. -/
  | vacant
  | renamed
  /-- The destination was present; the lock of the object is dropped. -/
  | comparing
  /-- The present blob did not verify; the collection lock is dropped. -/
  | replacing (error : CacheError)
  /-- Returns from the reserved part and drops the collection lock. -/
  | closing (answer : Answer)
  /-- `finish_reservation`. -/
  | releasing (answer : Answer)
  | finished (answer : Answer)
  deriving DecidableEq

/-- Where a collection stands; `began` is the time it compares ages with. -/
inductive Phase (ρ : Type) where
  | locking
  | cleaning (began : ℕ)
  | loading (began : ℕ)
  | evicting (began : ℕ) (entries : List (ActionPath × ρ)) (planned removed : List ActionPath)
  | sweeping (began : ℕ) (reachable blobs : List BlobPath)
  | measured (bytes : ℕ)
  | finished (result : Except CacheError Unit)

inductive Reading where
  | locking
  | opened
  /-- The record is malformed; the collection lock is dropped. -/
  | quarantining
  | finished (file : Option File)
  deriving DecidableEq

inductive Agent (ρ : Type) where
  | writer (job : Job ρ) (stage : Stage)
  /-- A collection, and the publication that asked for it. -/
  | collector (phase : Phase ρ) (caller : Option (Job ρ))
  /-- A cancelled collection: its lock is dropped, and its blocking part goes on. -/
  | detached (phase : Phase ρ)
  | reader (path : ObjectPath) (reading : Reading)
  | crashed

/-! ## States -/

structure State (ρ : Type) where
  objects : List (ObjectPath × File)
  /-- The temporary file of each agent; its random name is its own. -/
  temporary : ℕ → Option File
  /-- The recorded bytes; `none` while the state file is torn. -/
  ledger : Option ℕ
  now : ℕ
  agents : List (Agent ρ)

namespace Agent

def holdsShared : Agent ρ → Bool
  | writer _ (.reserving _) | writer _ .reserved | writer _ .filling | writer _ .synced
  | writer _ .prepared | writer _ .guarded | writer _ .vacant | writer _ .renamed
  | writer _ .comparing | writer _ (.closing _) => true
  | reader _ .opened => true
  | _ => false

def holdsExclusive : Agent ρ → Bool
  | collector (.cleaning _) _ | collector (.loading _) _ | collector (.evicting _ _ _ _) _
  | collector (.sweeping _ _ _) _ | collector (.measured _) _ => true
  | _ => false

end Agent

namespace LocalCacheStore

variable (store : LocalCacheStore ρ)

def destination : Job ρ → ObjectPath
  | .blob descriptor _ => .blob (blobRelativePath descriptor)
  | .action nameSpace result => .action (actionPath nameSpace (store.action result))

def incoming : Job ρ → ℕ
  | .blob descriptor _ => descriptor.encodedSizeBytes.toNat
  | .action _ result => (store.toVec result).length

/-- The bytes copied to the temporary file: one byte beyond the declared size of a
blob at most. -/
def copied : Job ρ → Bytes
  | .blob descriptor body => body.take (min (descriptor.encodedSizeBytes.toNat + 1) (2 ^ 64 - 1))
  | .action _ result => store.toVec result

/-- The check of a complete temporary file or of a present object. -/
def JobVerifies : Job ρ → Bytes → Prop
  | .blob descriptor _, content => store.Verifies descriptor content
  | .action _ _, _ => True

def guards : Agent ρ → Option ObjectPath
  | .writer job .guarded | .writer job .vacant | .writer job .renamed =>
    some (store.destination job)
  | _ => none

end LocalCacheStore

namespace State

def find (s : State ρ) (path : ObjectPath) : Option File := s.objects.lookup path

def visibleBytes (s : State ρ) : ℕ := (s.objects.map fun entry => entry.2.content.length).sum

def remove (s : State ρ) (path : ObjectPath) : State ρ :=
  { s with objects := s.objects.filter fun entry => entry.1 ≠ path }

/-- No other process holds the collection lock in a mode that excludes a shared one. -/
def SharedFree (s : State ρ) : Prop := ∀ a ∈ s.agents, a.holdsExclusive = false

def ExclusiveFree (s : State ρ) : Prop :=
  ∀ a ∈ s.agents, a.holdsExclusive = false ∧ a.holdsShared = false

def ObjectFree (store : LocalCacheStore ρ) (s : State ρ) (path : ObjectPath) : Prop :=
  ∀ a ∈ s.agents, ∀ other ∈ store.guards a, store.shardName other ≠ store.shardName path

instance (s : State ρ) : Decidable s.SharedFree := inferInstanceAs (Decidable (∀ a ∈ _, _))

instance (s : State ρ) : Decidable s.ExclusiveFree := inferInstanceAs (Decidable (∀ a ∈ _, _))

instance (store : LocalCacheStore ρ) (s : State ρ) (path : ObjectPath) :
    Decidable (s.ObjectFree store path) :=
  inferInstanceAs (Decidable (∀ a ∈ _, ∀ other ∈ store.guards a, _))

/-- `older_than`. -/
def OlderThan (began : ℕ) (file : File) (age : ℕ) : Prop := age ≤ began - file.modified

/-- The blob an action result names is visible with its encoded size. -/
def Complete (store : LocalCacheStore ρ) (s : State ρ) : Job ρ → Prop
  | .blob _ _ => True
  | .action _ result => ∀ blob ∈ store.outputBundle result,
      ∃ file ∈ s.find (.blob (blobRelativePath blob)),
        file.content.length = blob.encodedSizeBytes.toNat

instance (store : LocalCacheStore ρ) (s : State ρ) : DecidablePred (s.Complete store)
  | .blob _ _ => .isTrue trivial
  | .action _ _ => inferInstanceAs (Decidable (∀ blob ∈ _, ∃ file ∈ _, _))

end State

/-! ## Eviction -/

namespace LocalCacheStore

variable (store : LocalCacheStore ρ)

def loadActions (objects : List (ObjectPath × File)) : List (ActionPath × ρ) :=
  objects.filterMap fun
    | (.action path, file) =>
      (store.fromSlice file.content).bind fun result =>
        if file.content.length ≤ store.maxActionResultWireBytes ∧ store.Valid result ∧
            (store.action result).hash = path.hash ∧
            (store.action result).sizeBytes = path.sizeBytes then
          some (path, result)
        else none
    | (.blob _, _) => none

/-- The records to evict, least recently used first, until the projection is below
the low watermark.  A blob counts with the last record that names it. -/
def plannedActions (s : State ρ) (began : ℕ) (markers : ActionPath → ℕ) :
    ℕ → List BlobPath → List (ActionPath × ρ) → List ActionPath
  | _, _, [] => []
  | projected, references, (path, result) :: entries =>
    if projected ≤ store.config.lowWatermarkBytes then []
    else
      let size := ((s.find (.action path)).elim 0 fun file => file.content.length)
      let projected := projected - size - markers path
      match store.outputBundle result with
      | none => path :: plannedActions s began markers projected references entries
      | some blob =>
        let relative := blobRelativePath blob
        let references := references.erase relative
        let freed := (s.find (.blob relative)).elim 0 fun file =>
          if relative ∉ references ∧ store.config.temporaryGrace ≤ began - file.modified then
            file.content.length
          else 0
        path :: plannedActions s began markers (projected - freed) references entries

def reachableBlobs (entries : List (ActionPath × ρ)) (removed : List ActionPath) :
    List BlobPath :=
  (entries.filter fun entry => entry.1 ∉ removed).filterMap fun entry =>
    (store.outputBundle entry.2).map blobRelativePath

end LocalCacheStore

def blobPaths (objects : List (ObjectPath × File)) : List BlobPath :=
  objects.filterMap fun
    | (.blob path, _) => some path
    | (.action _, _) => none

/-! ## Steps -/

inductive Effect where
  | none
  | temporary (agent : ℕ) (file : Option File)
  | ledger (used : Option ℕ)
  /-- Renames the temporary file of the agent to the path. -/
  | rename (path : ObjectPath) (file : File)
  | unlink (path : ObjectPath)
  deriving DecidableEq

def Effect.apply (i : ℕ) (s : State ρ) : Effect → State ρ
  | none => s
  | temporary j file => { s with temporary := Function.update s.temporary j file }
  | ledger used => { s with ledger := used }
  | rename path file =>
    { s with
      objects := (path, file) :: s.objects
      temporary := Function.update s.temporary i Option.none }
  | unlink path => s.remove path

inductive Label where
  | plain
  /-- A call of the filesystem failed. -/
  | fault
  /-- The synchronisation of the directory failed after the rename. -/
  | syncFault
  /-- The reservation did not fit. -/
  | full
  /-- An object is moved to the quarantine. -/
  | quarantine (path : ObjectPath)
  /-- The collector records what it measured. -/
  | reconcile
  /-- The sweep unlinks a blob. -/
  | sweep (path : BlobPath)
  /-- The future of a collection is dropped. -/
  | cancel
  | crash
  deriving DecidableEq

/-- The stages whose calls a filesystem failure ends with an error, the bytes being
reserved. -/
def Stage.reservedFallible : Stage → Bool
  | reserved | filling | synced | prepared | guarded | vacant => true
  | _ => false

def Stage.unreservedFallible : Stage → Bool
  | inspecting | quarantining | locking _ | reserving _ => true
  | _ => false

section Moves

variable (store : LocalCacheStore ρ) (s : State ρ) (i : ℕ)

inductive WriterMove (job : Job ρ) : Stage → Label → Effect → Agent ρ → Prop where
  | absent : s.find (store.destination job) = none →
      WriterMove job .inspecting .plain .none (.writer job (.locking false))
  | present {file : File} : s.find (store.destination job) = some file →
      file.content.length = store.incoming job →
      WriterMove job .inspecting .plain .none (.writer job .hashing)
  | misshapen {file : File} : s.find (store.destination job) = some file →
      file.content.length ≠ store.incoming job →
      WriterMove job .inspecting .plain .none (.writer job .quarantining)
  | valid {file : File} : s.find (store.destination job) = some file →
      store.JobVerifies job file.content →
      WriterMove job .hashing .plain .none (.writer job (.finished (.ok .alreadyPresent)))
  -- the object may be gone by now, or its read may fail
  | invalid : WriterMove job .hashing .plain .none (.writer job .quarantining)
  | quarantine : s.SharedFree → s.ObjectFree store (store.destination job) →
      WriterMove job .quarantining (.quarantine (store.destination job))
        (.unlink (store.destination job)) (.writer job (.locking false))
  | lock {retry : Bool} : s.SharedFree →
      WriterMove job (.locking retry) .plain .none (.writer job (.reserving retry))
  | reserve {retry : Bool} {used : ℕ} : s.ledger = some used →
      used + store.incoming job < 2 ^ 64 →
      used + store.incoming job ≤
        (if retry then store.config.maxBytes else store.config.highWatermarkBytes) →
      WriterMove job (.reserving retry) .plain (.ledger (some (used + store.incoming job)))
        (.writer job .reserved)
  | overflow {retry : Bool} {used : ℕ} : s.ledger = some used →
      2 ^ 64 ≤ used + store.incoming job →
      WriterMove job (.reserving retry) .full .none (.writer job (.finished (.error .limit)))
  | collect {used : ℕ} : s.ledger = some used →
      store.config.highWatermarkBytes < used + store.incoming job →
      WriterMove job (.reserving false) .full .none (.collector .locking (some job))
  | exhausted {used : ℕ} : s.ledger = some used →
      store.config.maxBytes < used + store.incoming job →
      WriterMove job (.reserving true) .full .none (.writer job (.finished (.error .limit)))
  | torn {retry : Bool} : s.ledger = none →
      WriterMove job (.reserving retry) .fault .none (.writer job (.finished (.error .io)))
  -- the write of the ledger fails after the truncation
  | tear {retry : Bool} :
      WriterMove job (.reserving retry) .fault (.ledger none)
        (.writer job (.finished (.error .io)))
  | dangling : ¬ s.Complete store job →
      WriterMove job .reserved .plain .none (.writer job (.closing (.error .corrupt)))
  | create : s.Complete store job →
      WriterMove job .reserved .plain (.temporary i (some ⟨[], s.now⟩)) (.writer job .filling)
  | write : (store.copied job).length = store.incoming job →
      WriterMove job .filling .plain (.temporary i (some ⟨store.copied job, s.now⟩))
        (.writer job .synced)
  | lengthMismatch : (store.copied job).length ≠ store.incoming job →
      WriterMove job .filling .plain (.temporary i none)
        (.writer job (.closing (.error .invalidBundle)))
  | verify {file : File} : s.temporary i = some file → store.JobVerifies job file.content →
      WriterMove job .synced .plain .none (.writer job .prepared)
  | reject {file : File} : s.temporary i = some file → ¬ store.JobVerifies job file.content →
      WriterMove job .synced .plain (.temporary i none)
        (.writer job (.closing (.error .invalidBundle)))
  | guard : s.ObjectFree store (store.destination job) →
      WriterMove job .prepared .plain .none (.writer job .guarded)
  | occupied {file : File} : s.find (store.destination job) = some file →
      WriterMove job .guarded .plain .none (.writer job .comparing)
  | vacant : s.find (store.destination job) = none →
      WriterMove job .guarded .plain .none (.writer job .vacant)
  | rename {file : File} : s.temporary i = some file →
      WriterMove job .vacant .plain (.rename (store.destination job) file)
        (.writer job .renamed)
  | sync : WriterMove job .renamed .plain .none (.writer job (.closing (.ok .written)))
  | syncFault : WriterMove job .renamed .syncFault .none (.writer job (.closing (.error .io)))
  | sameBlob {descriptor : BlobDescriptor} {body : Bytes} {file : File} :
      job = .blob descriptor body → s.find (store.destination job) = some file →
      store.Verifies descriptor file.content →
      WriterMove job .comparing .plain (.temporary i none)
        (.writer job (.closing (.ok .alreadyPresent)))
  | otherBlob {descriptor : BlobDescriptor} {body : Bytes} {file : File} :
      job = .blob descriptor body → s.find (store.destination job) = some file →
      ¬ store.Verifies descriptor file.content →
      WriterMove job .comparing .plain .none (.writer job (.replacing .invalidBundle))
  | oversized {nameSpace : String} {result : ρ} {file : File} :
      job = .action nameSpace result → s.find (store.destination job) = some file →
      store.maxActionResultWireBytes < file.content.length →
      WriterMove job .comparing .plain (.temporary i none)
        (.writer job (.closing (.error .corrupt)))
  | sameAction {nameSpace : String} {result : ρ} {file : File} :
      job = .action nameSpace result → s.find (store.destination job) = some file →
      file.content.length ≤ store.maxActionResultWireBytes →
      file.content = store.toVec result →
      WriterMove job .comparing .plain (.temporary i none)
        (.writer job (.closing (.ok .alreadyPresent)))
  | otherAction {nameSpace : String} {result : ρ} {file : File} :
      job = .action nameSpace result → s.find (store.destination job) = some file →
      file.content.length ≤ store.maxActionResultWireBytes →
      file.content ≠ store.toVec result →
      WriterMove job .comparing .plain (.temporary i none)
        (.writer job (.closing (.ok .conflict)))
  -- a blob that cannot be read is replaced as well
  | unreadable {descriptor : BlobDescriptor} {body : Bytes} : job = .blob descriptor body →
      WriterMove job .comparing .fault .none (.writer job (.replacing .io))
  | uncompared {nameSpace : String} {result : ρ} : job = .action nameSpace result →
      WriterMove job .comparing .fault (.temporary i none)
        (.writer job (.closing (.error .io)))
  | replace {error : CacheError} : s.SharedFree →
      s.ObjectFree store (store.destination job) →
      WriterMove job (.replacing error) (.quarantine (store.destination job))
        (.unlink (store.destination job)) (.writer job (.releasing (.error error)))
  | keep {error : CacheError} :
      WriterMove job (.replacing error) .fault .none (.writer job (.releasing (.error .io)))
  | commit : WriterMove job (.closing (.ok .written)) .plain .none
      (.writer job (.finished (.ok .written)))
  | close {answer : Answer} : answer ≠ .ok .written →
      WriterMove job (.closing answer) .plain .none (.writer job (.releasing answer))
  | release {answer : Answer} {used : ℕ} : s.ledger = some used →
      WriterMove job (.releasing answer) .plain (.ledger (some (used - store.incoming job)))
        (.writer job (.finished answer))
  | releaseTorn {answer : Answer} {error : CacheError} : s.ledger = none →
      WriterMove job (.releasing answer) .fault .none (.writer job (.finished (.error error)))
  | releaseTear {answer : Answer} {error : CacheError} :
      WriterMove job (.releasing answer) .fault (.ledger none)
        (.writer job (.finished (.error error)))
  | fail {stage : Stage} : stage.unreservedFallible = true →
      WriterMove job stage .fault .none (.writer job (.finished (.error .io)))
  -- the temporary file is removed on the way, or this fails as well
  | abandon {stage : Stage} : stage.reservedFallible = true →
      WriterMove job stage .fault (.temporary i none) (.writer job (.closing (.error .io)))
  | abandonFile {stage : Stage} : stage.reservedFallible = true →
      WriterMove job stage .fault .none (.writer job (.closing (.error .io)))

def afterCollection (caller : Option (Job ρ)) : Except CacheError Unit → Agent ρ
  | .ok () => caller.elim (.collector (.finished (.ok ())) none) (.writer · (.locking true))
  | .error error =>
    caller.elim (.collector (.finished (.error error)) none)
      (.writer · (.finished (.error error)))

def Phase.running : Phase ρ → Bool
  | locking | cleaning _ | loading _ | evicting _ _ _ _ | sweeping _ _ _ | measured _ => true
  | finished _ => false

/-- The phases of `collect_locked`, which runs in a blocking task. -/
def Phase.blocking : Phase ρ → Bool
  | cleaning _ | loading _ | evicting _ _ _ _ | sweeping _ _ _ => true
  | _ => false

/-- The steps of a collection.  `rest` are the measured bytes outside the final
paths. -/
inductive CollectorMove (caller : Option (Job ρ)) :
    Phase ρ → Label → Effect → Agent ρ → Prop where
  | lock : s.ExclusiveFree →
      CollectorMove caller .locking .plain .none (.collector (.cleaning s.now) caller)
  | clean {began j : ℕ} {file : File} : s.temporary j = some file →
      State.OlderThan began file store.config.temporaryGrace →
      CollectorMove caller (.cleaning began) .plain (.temporary j none)
        (.collector (.cleaning began) caller)
  -- the threshold is the low watermark for a forced collection
  | below {began rest threshold : ℕ} :
      threshold ∈ [store.config.lowWatermarkBytes, store.config.highWatermarkBytes] →
      s.visibleBytes + rest ≤ threshold →
      CollectorMove caller (.cleaning began) .plain .none
        (.collector (.measured (s.visibleBytes + rest)) caller)
  | above {began rest threshold : ℕ} :
      threshold ∈ [store.config.lowWatermarkBytes, store.config.highWatermarkBytes] →
      threshold < s.visibleBytes + rest →
      CollectorMove caller (.cleaning began) .plain .none (.collector (.loading began) caller)
  | discard {began : ℕ} {path : ActionPath} {file : File} :
      s.find (.action path) = some file → ¬ store.WellFormed (.action path) file.content →
      CollectorMove caller (.loading began) (.quarantine (.action path)) (.unlink (.action path))
        (.collector (.loading began) caller)
  | plan {began rest : ℕ} {markers : ActionPath → ℕ} {entries : List (ActionPath × ρ)} :
      (∀ path, ∀ file ∈ s.find (.action path), store.WellFormed (.action path) file.content) →
      -- the records in the order of their last access
      entries.Perm (store.loadActions s.objects) →
      CollectorMove caller (.loading began) .plain .none
        (.collector (.evicting began entries
          (store.plannedActions s began markers (s.visibleBytes + rest)
            (entries.filterMap fun entry =>
              (store.outputBundle entry.2).map blobRelativePath) entries) []) caller)
  | evict {began : ℕ} {entries : List (ActionPath × ρ)} {planned removed : List ActionPath}
      {path : ActionPath} : path ∈ planned →
      CollectorMove caller (.evicting began entries planned removed) .plain
        (.unlink (.action path))
        (.collector (.evicting began entries (planned.erase path) (path :: removed)) caller)
  -- `remove_file_retry_later` returned `false`
  | defer {began : ℕ} {entries : List (ActionPath × ρ)} {planned removed : List ActionPath}
      {path : ActionPath} : path ∈ planned →
      CollectorMove caller (.evicting began entries planned removed) .plain .none
        (.collector (.evicting began entries (planned.erase path) removed) caller)
  -- the directory cannot be synchronised after the unlink
  | evictFault {began : ℕ} {entries : List (ActionPath × ρ)} {planned removed : List ActionPath}
      {path : ActionPath} : path ∈ planned →
      CollectorMove caller (.evicting began entries planned removed) .fault
        (.unlink (.action path)) (afterCollection caller (.error .io))
  | mark {began : ℕ} {entries : List (ActionPath × ρ)} {removed : List ActionPath} :
      CollectorMove caller (.evicting began entries [] removed) .plain .none
        (.collector (.sweeping began (store.reachableBlobs entries removed)
          (blobPaths s.objects)) caller)
  | retain {began : ℕ} {reachable blobs : List BlobPath} {path : BlobPath} {file : File} :
      s.find (.blob path) = some file →
      (path ∈ reachable ∨ ¬ State.OlderThan began file store.config.temporaryGrace) →
      CollectorMove caller (.sweeping began reachable (path :: blobs)) .plain .none
        (.collector (.sweeping began reachable blobs) caller)
  | sweep {began : ℕ} {reachable blobs : List BlobPath} {path : BlobPath} {file : File} :
      s.find (.blob path) = some file → path ∉ reachable →
      State.OlderThan began file store.config.temporaryGrace →
      CollectorMove caller (.sweeping began reachable (path :: blobs)) (.sweep path)
        (.unlink (.blob path)) (.collector (.sweeping began reachable blobs) caller)
  | postpone {began : ℕ} {reachable blobs : List BlobPath} {path : BlobPath} :
      CollectorMove caller (.sweeping began reachable (path :: blobs)) .plain .none
        (.collector (.sweeping began reachable blobs) caller)
  | measure {began rest : ℕ} {reachable : List BlobPath} :
      CollectorMove caller (.sweeping began reachable []) .plain .none
        (.collector (.measured (s.visibleBytes + rest)) caller)
  | reconcile {bytes : ℕ} :
      CollectorMove caller (.measured bytes) .reconcile (.ledger (some bytes))
        (afterCollection caller (.ok ()))
  | tear {bytes : ℕ} :
      CollectorMove caller (.measured bytes) .fault (.ledger none)
        (afterCollection caller (.error .io))
  | fail {phase : Phase ρ} {error : CacheError} : phase.running = true →
      CollectorMove caller phase .fault .none (afterCollection caller (.error error))

def Reading.running : Reading → Bool
  | locking | opened | quarantining => true
  | finished _ => false

/-- The steps of `get_action` and `read_blob`. -/
inductive ReaderMove (path : ObjectPath) : Reading → Label → Effect → Agent ρ → Prop where
  | lock : s.SharedFree → ReaderMove path .locking .plain .none (.reader path .opened)
  | read : (∀ file ∈ s.find path, store.WellFormed path file.content) →
      ReaderMove path .opened .plain .none (.reader path (.finished (s.find path)))
  | malformed {file : File} : s.find path = some file → ¬ store.WellFormed path file.content →
      ReaderMove path .opened .plain .none (.reader path .quarantining)
  | quarantine : s.SharedFree → s.ObjectFree store path →
      ReaderMove path .quarantining (.quarantine path) (.unlink path)
        (.reader path (.finished none))
  | fail {reading : Reading} : reading.running = true →
      ReaderMove path reading .fault .none (.reader path (.finished none))

inductive Move : Agent ρ → Label → Effect → Agent ρ → Prop where
  | writer {job : Job ρ} {stage : Stage} {label : Label} {effect : Effect} {a' : Agent ρ} :
      WriterMove store s i job stage label effect a' → Move (.writer job stage) label effect a'
  | collector {phase : Phase ρ} {caller : Option (Job ρ)} {label : Label} {effect : Effect}
      {a' : Agent ρ} : CollectorMove store s caller phase label effect a' →
      Move (.collector phase caller) label effect a'
  | cancel {phase : Phase ρ} {caller : Option (Job ρ)} : phase.blocking = true →
      Move (.collector phase caller) .cancel .none (.detached phase)
  | detached {phase phase' : Phase ρ} {label : Label} {effect : Effect} {a' : Agent ρ} :
      phase.blocking = true → CollectorMove store s none phase label effect a' →
      a' = .collector phase' none → Move (.detached phase) label effect (.detached phase')
  | reader {path : ObjectPath} {reading : Reading} {label : Label} {effect : Effect}
      {a' : Agent ρ} : ReaderMove store s path reading label effect a' →
      Move (.reader path reading) label effect a'
  | crash {a : Agent ρ} : Move a .crash .none .crashed
  -- the process dies while it rewrites the ledger
  | crashTorn {a : Agent ρ} : Move a .crash (.ledger none) .crashed

end Moves

/-- The first stage of a call.  What the validation of a call rejects is not started. -/
inductive Starts (store : LocalCacheStore ρ) : Agent ρ → Prop where
  | blob {descriptor : BlobDescriptor} {body : Bytes} : descriptor.validate = .ok () →
      store.ValidBlobResources descriptor →
      Starts store (.writer (.blob descriptor body) .inspecting)
  | action {nameSpace : String} {result : ρ} : store.Valid result →
      Starts store (.writer (.action nameSpace result) (.locking false))
  | collector : Starts store (.collector .locking none)
  | reader {path : ObjectPath} : Starts store (.reader path .locking)

inductive Event (ρ : Type) where
  | agent (i : ℕ) (label : Label)
  | start (call : Agent ρ)
  /-- A store is opened over a torn ledger and measures the layout. -/
  | reopen
  | tick

/-- One agent moves, a call starts, a store is opened or time passes. -/
inductive Step (store : LocalCacheStore ρ) : State ρ → Event ρ → State ρ → Prop where
  | move {s : State ρ} {i : ℕ} {a a' : Agent ρ} {label : Label} {effect : Effect} :
      s.agents[i]? = some a → Move store s i a label effect a' →
      Step store s (.agent i label)
        { effect.apply i s with agents := s.agents.set i a' }
  | start {s : State ρ} {a : Agent ρ} : Starts store a →
      Step store s (.start a) { s with agents := s.agents ++ [a] }
  | reopen {s : State ρ} {rest : ℕ} : s.ledger = none → s.ExclusiveFree →
      Step store s .reopen { s with ledger := some (s.visibleBytes + rest) }
  | tick {s : State ρ} : Step store s .tick { s with now := s.now + 1 }

def LocalCacheStore.system (store : LocalCacheStore ρ) (init : State ρ → Prop) :
    Transition.System (State ρ) (Event ρ) where
  init := init
  step := Step store

end Octa.LocalStore
