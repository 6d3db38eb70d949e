import Octa.Restore.Journal

/-!
# Transactional replacement of declared outputs

`restoreWithCallbacks` stages a bundle beside the workspace, records an intent
journal, and then replaces every live root; `recover` finishes or undoes what a
terminated process left behind.
-/

namespace Octa.Restore

open FileTree Crash Octa.Cache

inductive Checkpoint where
  | start
  | install
  | root (path : RelativePath)
  deriving DecidableEq

/-- The arguments of one restore, with the answers of its callbacks. -/
structure RestoreRequest (κ : Type) where
  descriptor : CacheResult Unit
  workspace : FsPath
  outputRoots : List RelativePath
  bundle : Bundle κ
  outputsMatch : CacheResult Bool
  validate : FsPath → CacheResult Unit
  cancelled : Checkpoint → Bool
  id : String

inductive RestoreOutcome where
  | alreadyMaterialized
  | restored
  deriving DecidableEq, Repr

variable {κ : Type}

def joinRelative (root : FsPath) (path : RelativePath) : FsPath := root ++ path.components

def checkCancelled (request : RestoreRequest κ) (checkpoint : Checkpoint) : CacheM κ Unit :=
  if request.cancelled checkpoint then throw .cancelled else pure ()

def pathExists (path : FsPath) : CacheM κ Bool := do
  match ← call (.symlinkMetadata path) with
  | .ok _ => pure true
  | .error .notFound => pure false
  | .error kind => throw (.io "inspect restore path" path kind)

def createParentDirectory (parent : FsPath) : CacheM κ Unit :=
  io "create restore path parent" parent (.createDirAll parent)

def createParent (path : FsPath) : CacheM κ Unit :=
  if path = [] then throw (.configuration "restore path has no parent")
  else createParentDirectory path.dropLast

def syncParent (path : FsPath) : CacheM κ Unit :=
  if path = [] then throw (.configuration "restore path has no parent")
  else syncDirectory path.dropLast

def syncRenameParents (source destination : FsPath) : CacheM κ Unit := do
  syncParent source
  if source.dropLast ≠ destination.dropLast then syncParent destination else pure ()

def renameDurably (operation : String) (reported source destination : FsPath) :
    CacheM κ Unit := do
  io operation reported (.rename source destination)
  syncRenameParents source destination

def syncTreeDirectories (root : FsPath) : CacheM κ Unit := do
  let directories ← io "scan staged restore directory" root (.readDirectories root)
  forM (directories : List FsPath).reverse syncDirectory

/-! ## Inspection of the live roots -/

def insertPath (p : RelativePath) : List RelativePath → List RelativePath
  | [] => [p]
  | q :: rest =>
    if p < q then p :: q :: rest
    else if p = q then q :: rest
    else q :: insertPath p rest

/-- Walk all but the last component below `workspace ++ relative`. -/
def validateLiveAncestors (workspace relative : FsPath) :
    List String → List RelativePath → CacheM κ (List RelativePath)
  | component :: next :: rest, missing => do
      let relative := relative ++ [component]
      let path := workspace ++ relative
      match ← call (.symlinkMetadata path) with
      | .ok .dir => validateLiveAncestors workspace relative (next :: rest) missing
      | .ok (.leaf _) =>
        throw (.path path "output ancestors must be real directories, not files or symlinks")
      | .error .notFound =>
        match RelativePath.new ("/".intercalate relative) with
        | .ok parent =>
          validateLiveAncestors workspace relative (next :: rest) (insertPath parent missing)
        | .error error => throw (.protocol error)
      | .error kind => throw (.io "inspect output ancestor" path kind)
  | _, missing => pure missing

def inspectLiveRoots (workspace : FsPath) :
    List RelativePath → List JournalRoot → List RelativePath →
      CacheM κ (List JournalRoot × List RelativePath)
  | [], entries, created => pure (entries, created)
  | root :: rest, entries, created => do
      let created ← validateLiveAncestors workspace [] root.components created
      let hadOriginal ← pathExists (joinRelative workspace root)
      inspectLiveRoots workspace rest (entries ++ [⟨root, hadOriginal⟩]) created

def createLiveParent (workspace : FsPath) (parent : RelativePath) : CacheM κ Unit := do
  let path := joinRelative workspace parent
  match ← call (.createDir path) with
  | .ok _ => syncParent path
  | .error .alreadyExists => pure ()
  | .error kind => throw (.io "create output parent" path kind)

def createLiveParents (workspace : FsPath) (parents : List RelativePath) : CacheM κ Unit :=
  forM parents (createLiveParent workspace)

/-! ## Paths of a transaction -/

namespace RestoreJournal

variable (journal : RestoreJournal)

def staging : FsPath := journal.transaction ++ ["staging"]

def backup : FsPath := journal.transaction ++ ["backup"]

def live (entry : JournalRoot) : FsPath := joinRelative journal.workspace entry.path

def staged (entry : JournalRoot) : FsPath := joinRelative journal.staging entry.path

def saved (entry : JournalRoot) : FsPath := joinRelative journal.backup entry.path

def new (id : String) (workspace transaction : FsPath) (roots : List JournalRoot)
    (createdParents : List RelativePath) : RestoreJournal :=
  { version := journalVersion, id, workspace, transaction, roots, createdParents }

end RestoreJournal

namespace RestoreManager

variable (manager : RestoreManager)

/-! ## Rollback and cleanup -/

def cleanupCommitted (stem : String) (journal : RestoreJournal) : CacheM κ Unit := do
  forM journal.roots fun entry => do
    if ← pathExists (journal.live entry) then pure ()
    else throw (.metadata (s!"committed restore transaction '{journal.id}' has no live "
      ++ s!"output '{entry.path.value}'"))
  manager.removeTransactionState stem journal.transaction

/-- Bring one root back to its original value; the new value returns to
staging, so that an interrupted rollback can be repeated. -/
def rollbackRoot (journal : RestoreJournal) (entry : JournalRoot) : CacheM κ Unit := do
  let live := journal.live entry
  let staged := journal.staged entry
  let saved := journal.saved entry
  if entry.hadOriginal then
    if ← pathExists saved then
      if ← pathExists live then
        if ← pathExists staged then
          throw (.metadata (s!"restore transaction '{journal.id}' found both staged and live "
            ++ s!"output '{entry.path.value}'"))
        else
          createParent staged
          renameDurably "return installed output to restore staging" live live staged
          createParent live
          renameDurably "restore backed-up output" saved saved live
      else
        createParent live
        renameDurably "restore backed-up output" saved saved live
    else if ← pathExists staged then pure ()
    else
      throw (.metadata (s!"restore transaction '{journal.id}' lost both staged and backup "
        ++ s!"state for '{entry.path.value}'"))
  else if ← pathExists staged then
    if ← pathExists live then
      throw (.metadata (s!"restore transaction '{journal.id}' found an unexpected live "
        ++ s!"output '{entry.path.value}'"))
    else pure ()
  else if ← pathExists live then
    createParent staged
    renameDurably "return new output to restore staging" live live staged
  else
    throw (.metadata (s!"restore transaction '{journal.id}' lost both staged and live "
      ++ s!"output '{entry.path.value}'"))

def removeCreatedParent (journal : RestoreJournal) (parent : RelativePath) : CacheM κ Unit := do
  let path := joinRelative journal.workspace parent
  match ← call (.removeDir path) with
  | .ok _ => syncParent path
  | .error .notFound => pure ()
  | .error .directoryNotEmpty => pure ()
  | .error kind => throw (.io "remove restore-created parent" path kind)

def rollback (stem : String) (journal : RestoreJournal) : CacheM κ Unit := do
  forM journal.roots.reverse (rollbackRoot journal)
  forM journal.createdParents.reverse (removeCreatedParent journal)
  manager.writeRolledBackMarker stem
  manager.removeTransactionState stem journal.transaction

/-! ## Recovery -/

def recoverOne (stem : String) (journal : RestoreJournal) : CacheM κ Unit := do
  liftResult (validateJournal journal)
  let committed ← manager.markerExists (commitMarker stem)
  let rolledBack ← manager.markerExists (rolledBackMarker stem)
  let prepared ← manager.markerExists (preparedMarker stem)
  if committed && rolledBack then
    throw (.metadata (s!"restore transaction '{journal.id}' has conflicting terminal "
      ++ "markers"))
  else if committed then
    manager.cleanupCommitted stem journal
  else if rolledBack then
    manager.removeTransactionState stem journal.transaction
  else if prepared then
    manager.rollback stem journal
  else
    manager.removeUnpreparedTransactionState stem journal.transaction

def recoveryWorkspaceExists (workspace : FsPath) : CacheM κ Bool := do
  match ← call (.symlinkMetadata workspace) with
  | .error .notFound => pure false
  | .error kind => throw (.io "inspect restore workspace during recovery" workspace kind)
  | .ok (.leaf _) =>
    throw (.path workspace
      "restore workspace was replaced by a non-directory or symbolic link")
  | .ok .dir =>
    let canonical : FsPath ← io "canonicalize restore workspace during recovery" workspace
      (.canonicalize workspace)
    if canonical ≠ workspace then
      throw (.path workspace "restore workspace no longer matches its canonical journal path")
    else pure true

def recoverJournal (path : JournalFile) : CacheM κ Unit := do
  let journal ← manager.readJournal path
  if ← recoveryWorkspaceExists journal.workspace then
    io "lock task output" manager.stateRoot
      (.lockOutputs journal.workspace (journal.roots.map JournalRoot.path))
    manager.recoverOne path.stem journal
  else
    manager.removeTransactionState path.stem journal.transaction

/-- Recover every journal left by a terminated process and count them. -/
def recover : CacheM κ ℕ := do
  io "lock restore recovery" manager.stateRoot (.lockRecovery true)
  manager.cleanupTemporaryJournals
  let paths ← manager.journalFiles
  forM paths manager.recoverJournal
  pure paths.length

/-! ## Restore -/

def preparation (request : RestoreRequest κ) (outputRoots : List RelativePath)
    (journal : RestoreJournal) : CacheM κ Unit := do
  io "create restore transaction" journal.transaction (.createDir journal.transaction)
  io "create restore staging directory" journal.staging (.createDir journal.staging)
  io "create restore backup directory" journal.backup (.createDir journal.backup)
  let verdict ← io "extract bundle" journal.staging
    (.extractBundle journal.staging outputRoots request.bundle)
  liftResult (verdict : CacheResult Unit)
  liftResult (request.validate journal.staging)
  forM (journal.roots.filter JournalRoot.hadOriginal) fun entry =>
    createParent (journal.saved entry)
  syncTreeDirectories journal.transaction
  syncDirectory journal.transaction.dropLast
  manager.writePreparedMarker journal.id

def installRoot (request : RestoreRequest κ) (journal : RestoreJournal) (entry : JournalRoot) :
    CacheM κ Unit := do
  checkCancelled request (.root entry.path)
  if entry.hadOriginal then
    createParent (journal.saved entry)
    renameDurably "move live output to restore backup" (journal.live entry)
      (journal.live entry) (journal.saved entry)
  else pure ()
  createParent (journal.live entry)
  renameDurably "install staged cache output" (journal.live entry)
    (journal.staged entry) (journal.live entry)

def mutation (request : RestoreRequest κ) (journal : RestoreJournal) : CacheM κ Unit := do
  createLiveParents journal.workspace journal.createdParents
  forM journal.roots (installRoot request journal)
  manager.writeCommitMarker journal.id

def stageNewRoot (request : RestoreRequest κ) (journal : RestoreJournal)
    (entry : JournalRoot) : CacheM κ Unit := do
  io "create restore transaction" journal.transaction (.createDir journal.transaction)
  io "create restore staging directory" journal.staging (.createDir journal.staging)
  let verdict ← io "extract bundle" journal.staging
    (.extractBundle journal.staging [entry.path] request.bundle)
  liftResult (verdict : CacheResult Unit)
  liftResult (request.validate journal.staging)
  syncTreeDirectories journal.transaction

def restoreNewRoot (request : RestoreRequest κ) (journal : RestoreJournal)
    (entry : JournalRoot) : CacheM κ RestoreOutcome := do
  let discard : CacheM κ Unit :=
    manager.removeUnpreparedTransactionState journal.id journal.transaction
  match ← attempt (stageNewRoot request journal entry) with
  | .error error =>
    discard
    throw error
  | .ok () =>
    match ← attempt (checkCancelled request .install) with
    | .error error =>
      discard
      throw error
    | .ok () =>
      let staged := journal.staged entry
      let live := journal.live entry
      match ← attempt (io "install staged cache output" live (.rename staged live)) with
      | .error error =>
        discard
        throw error
      | .ok _ =>
        match ← attempt (syncRenameParents staged live) with
        | .error error =>
          let _ ← attempt discard
          throw error
        | .ok () =>
          discard
          pure .restored

/-- The preparation; when it fails, everything it left is removed. -/
def prepareOutputs (request : RestoreRequest κ) (outputRoots : List RelativePath)
    (journal : RestoreJournal) : CacheM κ Unit := do
  match ← attempt (manager.preparation request outputRoots journal) with
  | .error error =>
    manager.removeTransactionState journal.id journal.transaction
    throw error
  | .ok () => pure ()

/-- The part of a restore between the output locks and the first live mutation. -/
def restoreLocked (request : RestoreRequest κ) (workspace : FsPath)
    (outputRoots : List RelativePath) : CacheM κ (RestoreOutcome ⊕ RestoreJournal) := do
  let transaction ← liftResult (transactionPath workspace request.id)
  let (entries, createdParents) ← inspectLiveRoots workspace outputRoots [] []
  let journal := RestoreJournal.new request.id workspace transaction entries createdParents
  manager.writeJournal journal.id journal
  match entries, createdParents with
  | [⟨root, false⟩], [] => do
      let outcome ← manager.restoreNewRoot request journal ⟨root, false⟩
      pure (.inl outcome)
  | _, _ => do
      manager.prepareOutputs request outputRoots journal
      pure (.inr journal)

/-- The part of a restore before the first live mutation.  It ends with an early
return or with the journal of a prepared transaction. -/
def restoreUntilPrepared (request : RestoreRequest κ) :
    CacheM κ (RestoreOutcome ⊕ RestoreJournal) := do
  liftResult request.descriptor
  let workspace ← io "canonicalize restore workspace" request.workspace
    (.canonicalize request.workspace)
  let outputRoots ← liftResult (validateOutputRoots request.outputRoots)
  io "lock task output" manager.stateRoot (.lockOutputs workspace outputRoots)
  checkCancelled request .start
  let outputsMatch ← liftResult request.outputsMatch
  if outputsMatch then
    liftResult (request.validate workspace)
    pure (.inl .alreadyMaterialized)
  else
    manager.restoreLocked request workspace outputRoots

def replaceOutputs (request : RestoreRequest κ) (journal : RestoreJournal) :
    CacheM κ RestoreOutcome := do
  match ← attempt (manager.mutation request journal) with
  | .error error =>
    manager.rollback journal.id journal
    throw error
  | .ok () =>
    manager.cleanupCommitted journal.id journal
    pure .restored

def restoreWithCallbacks (request : RestoreRequest κ) : CacheM κ RestoreOutcome := do
  match ← manager.restoreUntilPrepared request with
  | .inl outcome => pure outcome
  | .inr journal => manager.replaceOutputs request journal

end RestoreManager

end Octa.Restore
