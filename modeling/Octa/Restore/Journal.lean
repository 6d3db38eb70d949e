import Octa.Restore.Disk

/-!
# Journal files and their lifecycle

The journal is an intent record written before staging exists.
-/

namespace Octa.Restore

open FileTree Crash Octa.Cache

abbrev CacheM (κ : Type) (α : Type) := Fallible (FsCall κ) FsCall.Reply CacheError α

/-- Owner of the journal directory below `stateRoot`. -/
structure RestoreManager where
  platform : Platform
  stateRoot : FsPath

variable {κ : Type}

def journalVersion : ℕ := 1

def maxJournalBytes : ℕ := 16 * 1024 * 1024

def maxTransactionIdBytes : ℕ := 64

def call (request : FsCall κ) : CacheM κ (Except ErrorKind request.Value) :=
  ExceptT.lift (Program.perform request)

def io (operation : String) (path : FsPath) (request : FsCall κ) : CacheM κ request.Value := do
  match ← call request with
  | .ok value => pure value
  | .error kind => throw (.io operation path kind)

def liftResult {α : Type} : CacheResult α → CacheM κ α
  | .ok value => pure value
  | .error error => throw error

def syncDirectory (path : FsPath) : CacheM κ Unit :=
  io "synchronize cache directory" path (.syncDirectory path)

namespace RestoreManager

def journalRoot (manager : RestoreManager) : FsPath :=
  manager.stateRoot ++ ["restore-journal"]

def filePath (manager : RestoreManager) (file : JournalFile) : FsPath :=
  manager.journalRoot ++ [file.name]

def syncJournalRoot (manager : RestoreManager) : CacheM κ Unit :=
  io "synchronize cache directory" manager.journalRoot .journalSyncDirectory

end RestoreManager

def commitMarker (stem : String) : JournalFile := ⟨stem, .committed⟩

def preparedMarker (stem : String) : JournalFile := ⟨stem, .prepared⟩

def rolledBackMarker (stem : String) : JournalFile := ⟨stem, .rolledBack⟩

def isAsciiAlphanumeric (c : Char) : Bool :=
  ('a' ≤ c && c ≤ 'z') || ('A' ≤ c && c ≤ 'Z') || ('0' ≤ c && c ≤ '9')

def transactionPath (workspace : FsPath) (id : String) : CacheResult FsPath :=
  if id.isEmpty || decide (id.utf8ByteSize > maxTransactionIdBytes)
      || !id.toList.all (fun c => isAsciiAlphanumeric c || c == '-') then
    .error (.metadata "restore transaction id is invalid")
  else if workspace = [] then
    .error (.configuration "cannot restore outputs in a filesystem root")
  else .ok (workspace.dropLast ++ [".octa-restore-" ++ id])

/-- The created parents are strictly increasing strict ancestors of roots. -/
def validateParents (roots : List RelativePath) :
    Option RelativePath → List RelativePath → CacheResult Unit
  | _, [] => .ok ()
  | previous, parent :: rest =>
    if parent.isRoot || previous.any (fun p => !decide (p < parent))
        || !roots.any (isStrictAncestor parent) then
      .error (.metadata "restore journal contains an invalid created-parent set")
    else validateParents roots (some parent) rest

def validateJournal (journal : RestoreJournal) : CacheResult Unit :=
  if journal.version ≠ journalVersion || journal.id.isEmpty
      || decide (journal.id.utf8ByteSize > maxTransactionIdBytes)
      || journal.roots.isEmpty || decide (journal.roots.length > maxCacheListItems)
      || decide (journal.createdParents.length > maxCacheListItems) then
    .error (.metadata "invalid restore journal header")
  else do
    let expected ← transactionPath journal.workspace journal.id
    if journal.transaction ≠ expected then
      .error (.metadata "restore journal transaction path is outside its workspace filesystem")
    else
      let roots := journal.roots.map JournalRoot.path
      let canonicalRoots ← validateOutputRoots roots
      if roots ≠ canonicalRoots then
        .error (.metadata "restore journal output roots are not in canonical order")
      else validateParents roots none journal.createdParents

namespace RestoreManager

variable (manager : RestoreManager)

def writeJournal (stem : String) (journal : RestoreJournal) : CacheM κ Unit := do
  liftResult (validateJournal journal)
  if manager.platform.encodedSize journal > maxJournalBytes then
    throw (.limit s!"restore journal exceeds {maxJournalBytes} bytes")
  else
    let temporary : JournalFile := ⟨stem, .tmp⟩
    io "create restore journal" (manager.filePath temporary) (.journalCreateNew temporary)
    io "write restore journal" (manager.filePath temporary) (.journalWrite temporary journal)
    io "write restore journal" (manager.filePath temporary) (.journalSync temporary)
    io "publish restore journal" (manager.filePath ⟨stem, .json⟩)
      (.journalRename temporary ⟨stem, .json⟩)
    manager.syncJournalRoot

def writeMarker (marker : JournalFile) : CacheM κ Unit := do
  io "create restore marker" (manager.filePath marker) (.journalCreateNew marker)
  io "synchronize restore marker" (manager.filePath marker) (.journalSync marker)
  manager.syncJournalRoot

def writeCommitMarker (stem : String) : CacheM κ Unit :=
  manager.writeMarker (commitMarker stem)

def writePreparedMarker (stem : String) : CacheM κ Unit :=
  manager.writeMarker (preparedMarker stem)

def writeRolledBackMarker (stem : String) : CacheM κ Unit :=
  manager.writeMarker (rolledBackMarker stem)

def decodeJournal (file : JournalFile) : JournalContent → CacheResult RestoreJournal
  | .intent journal => .ok journal
  | content =>
    let path := display (manager.filePath file)
    let error := manager.platform.decodeError content
    .error (.metadata s!"failed to decode '{path}': {error}")

def readJournal (file : JournalFile) : CacheM κ RestoreJournal := do
  let path := display (manager.filePath file)
  let size : ℕ ← io "inspect restore journal" (manager.filePath file) (.journalMetadata file)
  if size > maxJournalBytes then
    throw (.limit s!"restore journal '{path}' exceeds {maxJournalBytes} bytes")
  else
    let content ← io "read restore journal" (manager.filePath file) (.journalRead file)
    let journal ← liftResult (manager.decodeJournal file content)
    liftResult (validateJournal journal)
    if file.stem ≠ journal.id then
      throw (.metadata s!"restore journal '{path}' is bound to a different transaction id")
    else
      pure journal

def markerExists (marker : JournalFile) : CacheM κ Bool := do
  let metadata : Except ErrorKind ℕ ← call (.journalMetadata marker)
  match metadata with
  | .ok length =>
    if length = 0 then
      pure true
    else
      let path := display (manager.filePath marker)
      throw (.metadata s!"restore marker '{path}' is not an empty regular file")
  | .error .notFound => pure false
  | .error kind => throw (.io "inspect restore marker" (manager.filePath marker) kind)

def removeFileIfPresent (file : JournalFile) : CacheM κ Unit := do
  match ← call (.journalRemove file) with
  | .ok _ => pure ()
  | .error .notFound => pure ()
  | .error kind => throw (.io "remove restore state file" (manager.filePath file) kind)

/-- Remove the transaction directory when it exists, and make that durable. -/
def removeTransaction (operation : String) (transaction : FsPath) : CacheM κ Unit := do
  match ← call (.removeDirAll transaction) with
  | .ok _ => syncDirectory transaction.dropLast
  | .error .notFound => pure ()
  | .error kind => throw (.io operation transaction kind)

def removeTransactionState (stem : String) (transaction : FsPath) : CacheM κ Unit := do
  manager.removeFileIfPresent (preparedMarker stem)
  manager.syncJournalRoot
  removeTransaction "remove restore transaction" transaction
  manager.removeFileIfPresent (commitMarker stem)
  manager.removeFileIfPresent (rolledBackMarker stem)
  manager.removeFileIfPresent ⟨stem, .json⟩
  manager.syncJournalRoot

def removeUnpreparedTransactionState (stem : String) (transaction : FsPath) :
    CacheM κ Unit := do
  removeTransaction "remove unprepared restore transaction" transaction
  match ← call (.journalRemove ⟨stem, .json⟩) with
  | .ok _ => manager.syncJournalRoot
  | .error .notFound => pure ()
  | .error kind =>
    throw (.io "remove unprepared restore journal" (manager.filePath ⟨stem, .json⟩) kind)

def journalFiles : CacheM κ (List JournalFile) := do
  let names ← io "scan restore journals" manager.journalRoot .journalScan
  let journals := (names : List JournalFile).filter fun file => file.extension = .json
  if journals.length > maxCacheListItems then
    throw (.limit s!"restore recovery is limited to {maxCacheListItems} journals per pass")
  else
    pure (journals.mergeSort fun left right => decide (left.name ≤ right.name))

def cleanupTemporaryJournals : CacheM κ Unit := do
  let names ← io "scan temporary restore journals" manager.journalRoot .journalScan
  forM ((names : List JournalFile).filter fun file => file.extension = .tmp)
    manager.removeFileIfPresent

end RestoreManager

end Octa.Restore
