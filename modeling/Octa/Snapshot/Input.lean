import Octa.Fileset.Walk
import Octa.LocalStore.Object

/-!
# Input snapshots

A snapshot hashes the files that the walk has found.
-/

namespace Octa.Snapshot

open Octa.Cache Octa.Fileset Wire
open Octa.LocalStore (BlobDescriptor BlobEncoding)

inductive SnapshotError where
  | cache (error : CacheError)
  | unsupportedEntry (path : FsPath) (kind : String)
  | unstableFile (path : FsPath)
  deriving DecidableEq, Repr

abbrev SnapshotResult (α : Type) := Except SnapshotError α

def ofCache {α : Type} : CacheResult α → SnapshotResult α
  | .ok value => .ok value
  | .error error => .error (.cache error)

/-! ## Entries -/

/-- The identity of a file and its times; `change` are the bits of the change time. -/
structure EntryKey where
  device : UInt64
  inode : UInt64
  length : UInt64
  modified : Bool × UInt64 × UInt32
  change : UInt64 × UInt64
  persistent : Bool
  deriving DecidableEq, Repr

inductive InputEntry where
  | directory (path : RelativePath)
  | file (path : RelativePath) (content : Digest) (executable : Bool)
  | symlink (path : RelativePath) (target : String)
  deriving DecidableEq

def InputEntry.path : InputEntry → RelativePath
  | directory path | file path _ _ | symlink path _ => path

inductive ValidationKind where
  | directory
  | file (executable : Bool)
  | symlink (target : String)
  deriving DecidableEq

structure ValidationEntry where
  path : RelativePath
  kind : ValidationKind
  metadata : EntryKey
  deriving DecidableEq

structure Observed where
  path : FsPath
  fileType : FileType
  key : EntryKey
  executable : Bool
  /-- `read_link` and `safe_symlink_target` -/
  target : CacheResult String
  content : Bytes

/-- The file system while a snapshot is taken.  Names are names of the host, and equal keys
denote the same file. -/
structure Host (μ : Type) where
  ws : Workspace μ
  entryKey : FsPath → μ → EntryKey
  executable : μ → Bool
  target : FsPath → CacheResult String
  read : FsPath → Bytes
  scope : Option Bytes
  names : ∀ path metadata, ws.stat path = .ok metadata →
    ∀ name ∈ path, '/' ∉ name.toList ∧ name ≠ "."
  aliases : ∀ path metadata path' metadata', ws.stat path = .ok metadata →
    ws.stat path' = .ok metadata' → entryKey path metadata = entryKey path' metadata' →
      executable metadata = executable metadata' ∧ read path = read path'

def Host.observe {μ : Type} (host : Host μ) (entry : FsPath × μ) : Observed where
  path := entry.1
  fileType := host.ws.fileType entry.2
  key := host.entryKey entry.1 entry.2
  executable := host.executable entry.2
  target := host.target entry.1
  content := host.read entry.1

def relativeText (path : FsPath) : String :=
  if path = [] then "." else "/".intercalate path

def portableRelative (path : FsPath) : CacheResult RelativePath :=
  match RelativePath.new (relativeText path) with
  | .ok relative => .ok relative
  | .error error => .error (.protocol error)

def validationKind (observed : Observed) : SnapshotResult ValidationKind :=
  match observed.fileType with
  | .symlink => (ofCache observed.target).map .symlink
  | .directory => .ok .directory
  | .file => .ok (.file observed.executable)
  | .other => .error (.unsupportedEntry observed.path
      "only regular files, directories, and symlinks can be cache inputs")

def validationEntry (observed : Observed) : SnapshotResult ValidationEntry := do
  let path ← ofCache (portableRelative observed.path)
  let kind ← validationKind observed
  return ⟨path, kind, observed.key⟩

/-! ## Hashing -/

structure MemoDocument where
  version : UInt16
  root : Digest
  entries : List InputEntry

/-- A record of the memo namespace: the action result without its unused fields, and the text
of the blob that it names. -/
structure MemoRecord (ω : Type) where
  action : Digest
  /-- neither standard output, task outputs, artifacts nor reports -/
  plain : Bool
  outputBundle : Option BlobDescriptor
  text : ω

abbrev Memos (ω : Type) := List (Digest × MemoRecord ω)

/-- The libraries below a snapshot, with `ω` the type of JSON texts; `stores` tells whether the
local store takes a record. -/
structure Libraries (ω : Type) where
  blake3 : Bytes → Vector UInt8 32
  toJson : MemoDocument → ω
  fromJson : ω → Option MemoDocument
  bytes : ω → Bytes
  stores : MemoRecord ω → Bool
  fromJson_toJson : ∀ document, fromJson (toJson document) = some document

structure SnapshotOptions where
  maxEntries : ℕ
  maxMemoBytes : UInt64

variable {ω : Type} (lib : Libraries ω)

def blake3Digest (bytes : Bytes) : Digest :=
  ⟨.blake3, lib.blake3 bytes, UInt64.ofNat bytes.length⟩

structure HashedFile where
  content : Digest
  executable : Bool
  key : EntryKey

/-- `hash_stable_file_for_key` on a file that does not change. -/
def hashStableFile (observed : Observed) : SnapshotResult HashedFile :=
  if observed.content.length = observed.key.length.toNat then
    .ok ⟨blake3Digest lib observed.content, observed.executable, observed.key⟩
  else .error (.unstableFile observed.path)

/-- `unique_hash_requests`: the first alias of every file. -/
def uniqueHashRequests (seen : List EntryKey) : List Observed → List Observed
  | [] => []
  | file :: rest =>
    if file.key ∈ seen then uniqueHashRequests seen rest
    else file :: uniqueHashRequests (file.key :: seen) rest

def plainEntry (validation : ValidationEntry) : Option InputEntry :=
  match validation.kind with
  | .directory => some (.directory validation.path)
  | .symlink target => some (.symlink validation.path target)
  | .file _ => none

def isFile (validation : ValidationEntry) : Bool :=
  match validation.kind with
  | .file _ => true
  | _ => false

def inputTreeDomain : Bytes := asBytes "octa.input-tree.v1"

def encodeEntry (entry : InputEntry) : Bytes :=
  let path := asBytes entry.path.value
  match entry with
  | .directory _ => [1] ++ bigEndian 4 path.length ++ path
  | .file _ content executable =>
    [2] ++ bigEndian 4 path.length ++ path ++
      [if executable then 1 else 0, content.algorithm.canonicalTag] ++
      bigEndian 8 content.sizeBytes.toNat ++ content.hash.toList
  | .symlink _ target =>
    [3] ++ bigEndian 4 path.length ++ path ++
      bigEndian 4 (asBytes target).length ++ asBytes target

/-- `input_root_digest`. -/
def inputRootDigest (entries : List InputEntry) : Digest :=
  blake3Digest lib (bigEndian 4 inputTreeDomain.length ++ inputTreeDomain ++
    bigEndian 8 entries.length ++ entries.flatMap encodeEntry)

/-- The hashing of a snapshot: its sorted entries and their root. -/
def hashInputs (validated : List (ValidationEntry × Observed)) :
    SnapshotResult (Digest × List InputEntry) := do
  let files := validated.filter fun entry => isFile entry.1
  let hashes ← (uniqueHashRequests [] (files.map Prod.snd)).mapM (hashStableFile lib)
  let fileEntries := files.filterMap fun entry =>
    (hashes.find? fun hashed => hashed.key == entry.2.key).map fun hashed =>
      InputEntry.file entry.1.path hashed.content hashed.executable
  let entries := (validated.filterMap fun entry => plainEntry entry.1) ++ fileEntries
  let sorted := entries.insertionSort fun left right => left.path.value ≤ right.path.value
  return (inputRootDigest lib sorted, sorted)

/-! ## The memo -/

def inputMetadataDomain : Bytes := asBytes "octa.input-metadata.v1"

def updateMetadata (value : Bytes) : Bytes := bigEndian 8 value.length ++ value

/-- `update_memo_fingerprint`. -/
def EntryKey.memoFingerprint (key : EntryKey) : Option Bytes :=
  if key.persistent then
    some ([1] ++ bigEndian 8 key.device.toNat ++ bigEndian 8 key.inode.toNat ++
      bigEndian 8 key.length.toNat ++ [if key.modified.1 then 1 else 0] ++
      bigEndian 8 key.modified.2.1.toNat ++ bigEndian 4 key.modified.2.2.toNat ++
      bigEndian 8 key.change.1.toNat ++ bigEndian 8 key.change.2.toNat)
  else none

def encodeValidation (entry : ValidationEntry) : Option Bytes :=
  let kind := match entry.kind with
    | .directory => updateMetadata [1]
    | .file executable => updateMetadata [2, if executable then 1 else 0]
    | .symlink target => updateMetadata [3] ++ updateMetadata (asBytes target)
  entry.metadata.memoFingerprint.map fun fingerprint =>
    updateMetadata (asBytes entry.path.value) ++ kind ++ fingerprint

/-- `input_metadata_digest`; nothing when the count of bytes overflows. -/
def inputMetadataDigest (entries : List ValidationEntry) (scope : Option Bytes) :
    Option Digest := do
  let scope ← scope
  let encoded ← entries.mapM encodeValidation
  let bytes := updateMetadata inputMetadataDomain ++ updateMetadata scope ++
    updateMetadata (bigEndian 8 entries.length) ++ encoded.flatten
  if bytes.length < 2 ^ 64 then some (blake3Digest lib bytes) else none

structure MemoSnapshot where
  root : Digest
  entries : List InputEntry

def memoVersion : UInt16 := 1

/-- `DigestMemo::get`; a failing store is an empty one. -/
def memoGet (memos : Memos ω) (metadata : Digest) (options : SnapshotOptions) :
    Option MemoSnapshot := do
  let record ← memos.lookup metadata
  if record.action ≠ metadata || !record.plain then none
  else
    let blob ← record.outputBundle
    if blob.encoding ≠ .identity || blob.encodedSizeBytes > options.maxMemoBytes ||
        decide (blob.entryCount.toNat > options.maxEntries) then none
    else if UInt64.ofNat (lib.bytes record.text).length ≠ blob.encodedSizeBytes ||
        blake3Digest lib (lib.bytes record.text) ≠ blob.digest then none
    else
      let document ← lib.fromJson record.text
      if document.version ≠ memoVersion || document.entries.isEmpty ||
          decide (document.entries.length > options.maxEntries) ||
          document.root.algorithm ≠ .blake3 then none
      else some ⟨document.root, document.entries⟩

def memoRecord (metadata root : Digest) (entries : List InputEntry) : MemoRecord ω :=
  let text := lib.toJson ⟨memoVersion, root, entries⟩
  let bytes := lib.bytes text
  ⟨metadata, true, some ⟨blake3Digest lib bytes, .identity, UInt64.ofNat bytes.length,
    UInt64.ofNat bytes.length, UInt64.ofNat entries.length⟩, text⟩

/-- `DigestMemo::put`; a record that exists is kept. -/
def memoPut (memos : Memos ω) (metadata root : Digest) (entries : List InputEntry)
    (options : SnapshotOptions) : Memos ω :=
  let record := memoRecord lib metadata root entries
  if entries.isEmpty || decide ((lib.bytes record.text).length > options.maxMemoBytes.toNat) ||
      !lib.stores record || (memos.lookup metadata).isSome then memos
  else (metadata, record) :: memos

def entryMatches (entry : InputEntry) (expected : ValidationEntry) : Bool :=
  entry.path == expected.path &&
    match entry, expected.kind with
    | .directory _, .directory => true
    | .file _ content executable, .file expectedExecutable =>
      content.algorithm == .blake3 && content.sizeBytes == expected.metadata.length &&
        executable == expectedExecutable
    | .symlink _ target, .symlink expectedTarget => target == expectedTarget
    | _, _ => false

def memoMatches (snapshot : MemoSnapshot) (validation : List ValidationEntry) : Bool :=
  snapshot.entries.length == validation.length &&
    inputRootDigest lib snapshot.entries == snapshot.root &&
    (snapshot.entries.zip validation).all fun entry => entryMatches entry.1 entry.2

/-! ## Snapshots -/

/-- `reused` tells that the memo was accepted. -/
structure InputSnapshot where
  root : Digest
  entries : List InputEntry
  validation : List ValidationEntry
  reused : Bool

def recalled (options : SnapshotOptions) (memos : Option (Memos ω)) (metadata : Option Digest)
    (validation : List ValidationEntry) : Option MemoSnapshot := do
  let memos ← memos
  let metadata ← metadata
  let snapshot ← memoGet lib memos metadata options
  if memoMatches lib snapshot validation then some snapshot else none

def publish (options : SnapshotOptions) (memos : Option (Memos ω)) (metadata : Option Digest)
    (root : Digest) (entries : List InputEntry) : Option (Memos ω) :=
  match memos, metadata with
  | some memos, some metadata => some (memoPut lib memos metadata root entries options)
  | memos, _ => memos

def snapshotObserved (options : SnapshotOptions) (scope : Option Bytes)
    (observed : List Observed) (memos : Option (Memos ω)) :
    SnapshotResult (InputSnapshot × Option (Memos ω)) := do
  let validation ← observed.mapM validationEntry
  let metadata := memos.bind fun _ => inputMetadataDigest lib validation scope
  match recalled lib options memos metadata validation with
  | some snapshot => return (⟨snapshot.root, snapshot.entries, validation, true⟩, memos)
  | none =>
    let (root, entries) ← hashInputs lib (validation.zip observed)
    return (⟨root, entries, validation, false⟩, publish lib options memos metadata root entries)

variable {μ : Type}

def snapshotPatternSets (host : Host μ) (glob : Glob) (options : SnapshotOptions)
    (patternSets : List (List String)) (memos : Option (Memos ω)) :
    SnapshotResult (InputSnapshot × Option (Memos ω)) := do
  let paths ← ofCache (collectPatternSets host.ws glob patternSets options.maxEntries)
  snapshotObserved lib options host.scope (paths.map host.observe) memos

end Octa.Snapshot
