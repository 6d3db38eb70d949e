import Octa.Bundle.Format
import Octa.Foundation.Program

/-!
# Extraction of a bundle into a staging directory

Extraction reads one entry after the other and issues file system calls for it.
Every call looks its path up as the operating system does, following the links
it meets.
-/

namespace Octa.Bundle

open FileTree LinkedTree Wire Crash Octa.Cache Octa.LocalStore CanonicalReader

structure Creation where
  requested : FsPath
  located : FsPath
  followed : List FsPath
  node : Node Content
  deriving DecidableEq, Repr

structure Disk where
  tree : FsTree
  created : List Creation
  deriving DecidableEq, Repr

/-! ## System calls -/

inductive Call where
  | symlinkMetadata (path : FsPath)
  | isDir (path : FsPath)
  | isEmpty (path : FsPath)
  | createDir (path : FsPath)
  | createFile (path : FsPath)
  | write (file : FsPath) (content : Bytes)
  | setExecutable (path : FsPath) (executable : Bool)
  | createSymlink (target : String) (path : FsPath) (directory : Bool)

def Reply : Call → Type
  | .symlinkMetadata _ => Except ErrorKind (Node Content)
  | .isDir _ => Bool
  | .isEmpty _ => Bool
  | .createFile _ => Except ErrorKind FsPath
  | _ => Except ErrorKind Unit

namespace Disk

variable (links : ℕ)

def symlinkMetadata (d : Disk) (path : FsPath) : Except ErrorKind (Node Content) :=
  match path with
  | [] => .ok .dir
  | _ => do
      let found ← locate contentLink d.tree links path
      match get d.tree found.path with
      | some node => return node
      | none => throw .notFound

/-- `Path::is_dir`, which follows links. -/
def isDir (d : Disk) (path : FsPath) : Bool :=
  match resolve contentLink d.tree links ⟨[], []⟩ (path.map .name) with
  | .ok _ => true
  | .error _ => false

def add (d : Disk) (requested : FsPath) (found : Location String) (node : Node Content) : Disk :=
  ⟨(found.path, node) :: d.tree, d.created ++ [⟨requested, found.path, found.followed, node⟩]⟩

/-- `mkdir` and `symlink` refuse an occupied name. -/
def create (d : Disk) (path : FsPath) (node : Node Content) : Except ErrorKind Unit × Disk :=
  match locate contentLink d.tree links path with
  | .error error => (.error error, d)
  | .ok found =>
    if (get d.tree found.path).isSome then (.error .alreadyExists, d)
    else (.ok (), d.add path found node)

/-- `File::create` follows a link at the last component and truncates an existing file. -/
def createFile (d : Disk) (path : FsPath) : Except ErrorKind FsPath × Disk :=
  match (locate contentLink d.tree links path).bind (openLast contentLink d.tree links) with
  | .error error => (.error error, d)
  | .ok found =>
    match get d.tree found.path with
    | some .dir => (.error .other, d)
    | some (.leaf (.file _ executable)) =>
      (.ok found.path, d.add path found (.leaf (.file [] executable)))
    | some (.leaf _) => (.error .other, d)
    | none => (.ok found.path, d.add path found (.leaf (.file [] false)))

/-- Replace the content of a file; nothing happens to another node. -/
def update (d : Disk) (file : FsPath) (change : Bytes → Bool → Content) : Disk :=
  match get d.tree file with
  | some (.leaf (.file content executable)) =>
    ⟨(file, .leaf (change content executable)) :: d.tree, d.created⟩
  | _ => d

def setExecutable (d : Disk) (path : FsPath) (executable : Bool) : Except ErrorKind Unit × Disk :=
  match (locate contentLink d.tree links path).bind (openLast contentLink d.tree links) with
  | .error error => (.error error, d)
  | .ok found => (.ok (), d.update found.path fun content _ => .file content executable)

def exec : (request : Call) → Disk → Reply request × Disk
  | .symlinkMetadata path, d => (d.symlinkMetadata links path, d)
  | .isDir path, d => (d.isDir links path, d)
  | .isEmpty path, d => (isEmptyBelow d.tree path, d)
  | .createDir path, d => d.create links path .dir
  | .createFile path, d => d.createFile links path
  | .write file content, d =>
    (.ok (), d.update file fun written executable => .file (written ++ content) executable)
  | .setExecutable path executable, d => d.setExecutable links path executable
  | .createSymlink target path directory, d =>
    d.create links path (.leaf (.symlink target directory))

def device : Device Call Reply Disk where
  exec := exec links
  torn _ _ _ := False

end Disk

/-! ## The extraction program -/

abbrev Extraction := Fallible Call Reply BundleError

def call (request : Call) : Extraction (Reply request) := ExceptT.lift (Program.perform request)

def liftResult {α : Type} : BundleResult α → Extraction α
  | .ok value => pure value
  | .error error => throw error

def ioError (operation : String) (path : FsPath) (kind : ErrorKind) : BundleError :=
  .cache (.io operation path kind)

/-- The result of a call, with its failure named after the operation. -/
def checked {α : Type} (operation : String) (path : FsPath) :
    Except ErrorKind α → Extraction α
  | .ok value => pure value
  | .error kind => throw (ioError operation path kind)

def isDir (path : FsPath) : Extraction Bool := call (.isDir path)

def isEmpty (path : FsPath) : Extraction Bool := call (.isEmpty path)

/-- A refused `mkdir` is no failure where a directory stands. -/
def unlessDir (path : FsPath) (kind : ErrorKind) : Extraction (Except ErrorKind Unit) := do
  if ← isDir path then return .ok () else return .error kind

/-- `fs::create_dir_all` on the path with the given names, last one first. -/
def createDirAll : List String → Extraction (Except ErrorKind Unit)
  | [] => return .ok ()
  | name :: above => do
      let path := (name :: above).reverse
      match ← call (.createDir path) with
      | .ok () => return .ok ()
      | .error .notFound =>
        match ← createDirAll above with
        | .error kind => return .error kind
        | .ok () =>
          match ← call (.createDir path) with
          | .ok () => return .ok ()
          | .error kind => unlessDir path kind
      | .error kind => unlessDir path kind

def checkEmptyStaging (staging : FsPath) : Extraction Unit := do
  match ← checked "inspect bundle staging directory" staging
      (← call (.symlinkMetadata staging)) with
  | .leaf _ => throw (.cache (.configuration "bundle staging path must be a real directory"))
  | .dir =>
    if ← isEmpty staging then return ()
    else throw (.cache (.configuration "bundle staging directory must be empty"))

def prepareEntryParent (path : FsPath) (outputRoot : Bool) : Extraction Unit :=
  match path with
  | [] => throw (.cache (.invalidBundle "bundle path has no parent"))
  | _ =>
    let parent := path.dropLast
    if outputRoot then do
      checked "create staged output root parent" parent (← createDirAll parent.reverse)
    else do
      match ← call (.symlinkMetadata parent) with
      | .error .notFound =>
        throw (.cache (.invalidBundle "bundle entry has no explicit parent directory"))
      | .error kind => throw (ioError "inspect staged output parent" parent kind)
      | .ok .dir => return ()
      | .ok (.leaf _) =>
        throw (.cache (.invalidBundle "bundle entry descends through a non-directory parent"))

def rootText (roots : List RelativePath) (index : ℕ) : String :=
  ((roots[index]?).map RelativePath.value).getD ""

/-- Whether a path begins a declared root, and the index of its root. -/
def nextRoot (roots : List RelativePath) (current : Option ℕ) (path : RelativePath) :
    BundleResult (Bool × ℕ) :=
  match current with
  | none =>
    let first := rootText roots 0
    if roots.head? = some path then .ok (true, 0)
    else .error (.cache (.invalidBundle
      s!"bundle does not begin declared output root '{first}'"))
  | some index =>
    if (roots[index]?).any (contains · path) then .ok (false, index)
    else
      match roots[index + 1]? with
      | none => .error (.cache (.invalidBundle
          s!"bundle path '{path.value}' is outside declared output roots"))
      | some root =>
        if path = root then .ok (true, index + 1)
        else .error (.cache (.invalidBundle
          s!"bundle does not begin declared output root '{root.value}'"))

structure Progress where
  reader : CanonicalReader
  previous : Option RelativePath
  currentRoot : Option ℕ

def createEntry (limits : BundleLimits) (head : Head) (destination : FsPath)
    (reader : CanonicalReader) : Extraction CanonicalReader := do
  if head.tag = directoryTag then
    checked "create staged output directory" destination (← call (.createDir destination))
    return reader
  else if head.tag = fileTag then
    let ((executable, length), reader) ← liftResult (readFileHeader limits head.path reader)
    let file ← checked "create staged output file" destination (← call (.createFile destination))
    let (content, reader) ← liftResult (readExact length reader)
    checked "write staged output file" destination (← call (.write file content))
    checked "set staged output permissions" destination
      (← call (.setExecutable destination executable))
    return reader
  else if head.tag = symlinkTag then
    let ((target, directory), reader) ← liftResult (readSymlink limits head.path reader)
    checked "create staged output symlink" destination
      (← call (.createSymlink target destination directory))
    return reader
  else throw (.cache (.invalidBundle s!"unknown bundle entry tag {head.tag}"))

def extractEntry (limits : BundleLimits) (staging : FsPath) (roots : List RelativePath)
    (progress : Progress) : Extraction Progress := do
  let (head, reader) ← liftResult (readHead limits progress.reader)
  if progress.previous.any fun previous => comparePaths previous head.path != .lt then
    throw (.cache (.invalidBundle "bundle paths must be unique and follow canonical tree order"))
  let (outputRoot, index) ← liftResult (nextRoot roots progress.currentRoot head.path)
  let destination := staging ++ head.path.components
  prepareEntryParent destination outputRoot
  let reader ← createEntry limits head destination reader
  return ⟨reader, some head.path, some index⟩

def extractEntries (limits : BundleLimits) (staging : FsPath) (roots : List RelativePath) :
    ℕ → Progress → Extraction Progress
  | 0, progress => return progress
  | count + 1, progress => do
      let progress ← extractEntry limits staging roots progress
      extractEntries limits staging roots count progress

/-- The third-party libraries.  `decompress` gives the decoded stream and the number of encoded
bytes that the decoder consumes. -/
structure Codec where
  blake3 : Bytes → Vector UInt8 32
  compress : ℤ → Bytes → Bytes
  decompress : Source → Source × ℕ

variable (codec : Codec)

def digestOf (bytes : Bytes) : Digest := ⟨.blake3, codec.blake3 bytes, UInt64.ofNat bytes.length⟩

def finishCanonical (descriptor : BlobDescriptor) (roots : List RelativePath)
    (progress : Progress) : BundleResult Unit := do
  let completedRoots := match progress.currentRoot with
    | none => 0
    | some index => index + 1
  let root := rootText roots completedRoots
  if completedRoots ≠ roots.length then
    throw (.cache (.invalidBundle s!"bundle does not contain declared output root '{root}'"))
  let (tail, reader) ← readOptionalByte progress.reader
  if tail.isSome then
    throw (.cache (.invalidBundle "bundle has trailing canonical bytes"))
  if UInt64.ofNat reader.taken.length ≠ descriptor.expandedSizeBytes ∨
      digestOf codec reader.taken ≠ descriptor.digest then
    throw (.cache (.invalidBundle
      "bundle expanded size or content digest differs from its descriptor"))

def checkMagic : Reading Unit := do
  if (← readExact 8) ≠ bundleMagic then
    throw (.cache (.invalidBundle "unknown bundle magic or version"))

def canonicalReader (source : Source) (limits : BundleLimits) : CanonicalReader :=
  ⟨source, [], limits.maxExpandedBytes⟩

def extractCanonical (source : Source) (descriptor : BlobDescriptor) (staging : FsPath)
    (roots : List RelativePath) (limits : BundleLimits) : Extraction Unit := do
  let (_, reader) ← liftResult (checkMagic (canonicalReader source limits))
  let progress ← extractEntries limits staging roots descriptor.entryCount.toNat
    ⟨reader, none, none⟩
  liftResult (finishCanonical codec descriptor roots progress)

/-- The canonical stream behind the encoded bytes, and how many of them are consumed. -/
def decoded (source : Source) (descriptor : BlobDescriptor) : Source × ℕ :=
  let encoded := source.limited descriptor.encodedSizeBytes.toNat
  match descriptor.encoding with
  | .identity => (encoded, encoded.bytes.length)
  | .zstdV1 => codec.decompress encoded

def verifyComplete (consumed : ℕ) (maximum : UInt64) : BundleResult Unit :=
  if consumed ≠ maximum.toNat then
    .error (.cache (.invalidBundle s!"bundle encoded size is {consumed}, expected {maximum}"))
  else .ok ()

def liftCache {α : Type} : CacheResult α → BundleResult α
  | .ok value => .ok value
  | .error error => .error (.cache error)

def extractBundle (reader : Source) (descriptor : BlobDescriptor) (staging : FsPath)
    (outputRoots : List RelativePath) (limits : BundleLimits) : Extraction Unit := do
  let limits ← liftResult limits.validate
  liftResult (liftProtocol descriptor.validate)
  liftResult (validateDescriptorLimits descriptor limits)
  checkEmptyStaging staging
  let roots ← liftResult (liftCache (validateOutputRoots outputRoots))
  let (source, consumed) := decoded codec reader descriptor
  extractCanonical codec source descriptor staging roots limits
  liftResult (verifyComplete consumed descriptor.encodedSizeBytes)

end Octa.Bundle
