import Octa.LocalStore.Object
import Octa.Foundation.LinkedTree

/-!
# The output bundle format

A bundle is a tagged stream of directories, files and symbolic links.
-/

namespace Octa.Bundle

open FileTree LinkedTree Wire Octa.Cache Octa.LocalStore

inductive BundleError where
  | cache (error : CacheError)
  | bundleSource (message : String)
  | stream (message : String)
  | unsupportedEntry (path : FsPath) (kind : String)
  deriving DecidableEq, Repr

abbrev BundleResult (α : Type) := Except BundleError α

/-- What a path holds when it is not a directory.  A link keeps the kind of its target, as
links on Windows do. -/
inductive Content where
  | file (content : Bytes) (executable : Bool)
  | symlink (target : String) (directory : Bool)
  | special
  deriving DecidableEq, Repr

abbrev FsTree := Tree String Content

def bundleMagic : Bytes := asBytes "OCTABND1"

def directoryTag : UInt8 := 1
def fileTag : UInt8 := 2
def symlinkTag : UInt8 := 3

/-! ## Encodings and limits -/

inductive BundleEncoding where
  | identity
  | zstdV1 (level : ℤ)
  deriving DecidableEq, Repr

def BundleEncoding.validate (encoding : BundleEncoding) : BundleResult BundleEncoding :=
  match encoding with
  | .identity => .ok encoding
  | .zstdV1 level =>
    if -7 ≤ level ∧ level ≤ 22 then .ok encoding
    else .error (.cache (.configuration "Zstandard level must be between -7 and 22"))

def BundleEncoding.protocol : BundleEncoding → BlobEncoding
  | .identity => .identity
  | .zstdV1 _ => .zstdV1

structure BundleLimits where
  maxEncodedBytes : UInt64
  maxExpandedBytes : UInt64
  maxEntries : UInt64
  maxPathBytes : UInt64
  maxFileBytes : UInt64
  maxCompressionRatio : UInt64
  readBufferBytes : UInt64
  deriving DecidableEq, Repr

def BundleLimits.validate (limits : BundleLimits) : BundleResult BundleLimits :=
  if limits.maxEncodedBytes = 0 ∨ limits.maxExpandedBytes = 0 ∨ limits.maxEntries = 0 ∨
      limits.maxPathBytes = 0 ∨ limits.maxFileBytes = 0 ∨ limits.maxCompressionRatio = 0 then
    .error (.cache (.configuration
      "bundle size, entry, path, file, and compression-ratio limits must be nonzero"))
  else if limits.readBufferBytes.toNat < 4 * 1024 ∨
      16 * 1024 * 1024 < limits.readBufferBytes.toNat then
    .error (.cache (.configuration "bundle read_buffer_bytes must be between 4 KiB and 16 MiB"))
  else .ok limits

/-- `u64::saturating_mul`. -/
def saturatingMul (a b : UInt64) : ℕ := min (a.toNat * b.toNat) (2 ^ 64 - 1)

def validateDescriptorLimits (descriptor : BlobDescriptor) (limits : BundleLimits) :
    BundleResult Unit :=
  if limits.maxEncodedBytes < descriptor.encodedSizeBytes ∨
      limits.maxExpandedBytes < descriptor.expandedSizeBytes ∨
      limits.maxEntries < descriptor.entryCount then
    .error (.cache (.limit "bundle descriptor exceeds configured size or entry limits"))
  else if saturatingMul descriptor.encodedSizeBytes limits.maxCompressionRatio <
      descriptor.expandedSizeBytes.toNat then
    .error (.cache (.limit "bundle exceeds the configured compression ratio"))
  else .ok ()

def liftProtocol {α : Type} : Except CacheProtocolError α → BundleResult α
  | .ok value => .ok value
  | .error error => .error (.cache (.protocol error))

def BundleLimits.validateDescriptor (limits : BundleLimits) (descriptor : BlobDescriptor) :
    BundleResult Unit := do
  let limits ← limits.validate
  liftProtocol descriptor.validate
  validateDescriptorLimits descriptor limits

/-! ## Symbolic links -/

def targetSteps (target : String) : List (Step String) :=
  (splitSlash target).filterMap fun part =>
    if part = "" ∨ part = "." then none
    else if part = ".." then some .up
    else some (.name part)

def contentLink : Content → Option (Target String)
  | .symlink target _ => some ⟨target.toList.head? = some '/', targetSteps target⟩
  | _ => none

/-- Whether a walk that starts `depth` levels below the workspace stays inside it. -/
def staysInside : ℕ → List (Step String) → Bool
  | _, [] => true
  | depth, .name _ :: rest => staysInside (depth + 1) rest
  | 0, .up :: _ => false
  | depth + 1, .up :: rest => staysInside depth rest

def validateSymlinkText (link : RelativePath) (target : String) : Except String Unit :=
  if target.isEmpty || target.toList.head? = some '/' ||
      target.toList.any (fun c => c == '\\' || c == ':') || target.toList.any isControl then
    .error s!"symlink '{link.value}' has a non-portable target"
  else if staysInside (link.components.length - 1) (targetSteps target) then .ok ()
  else .error s!"symlink '{link.value}' escapes the workspace"

/-! ## Writing -/

inductive OutputKind where
  | directory
  | file (content : Bytes) (executable : Bool)
  | symlink (target : String) (directory : Bool)
  deriving DecidableEq, Repr

structure OutputEntry where
  path : RelativePath
  kind : OutputKind
  deriving DecidableEq

def OutputKind.node : OutputKind → Node Content
  | .directory => .dir
  | .file content executable => .leaf (.file content executable)
  | .symlink target isDirectory => .leaf (.symlink target isDirectory)

def OutputKind.tag : OutputKind → UInt8
  | .directory => directoryTag
  | .file _ _ => fileTag
  | .symlink _ _ => symlinkTag

def boolByte (value : Bool) : UInt8 := if value then 1 else 0

def textField (text : String) : Bytes := bigEndian 4 text.utf8ByteSize ++ asBytes text

def OutputKind.fields : OutputKind → Bytes
  | .directory => []
  | .file content executable => boolByte executable :: (bigEndian 8 content.length ++ content)
  | .symlink target isDirectory => boolByte isDirectory :: textField target

/-- The bytes that `write_canonical` writes for one entry. -/
def OutputEntry.bytes (entry : OutputEntry) : Bytes :=
  entry.kind.tag :: (textField entry.path.value ++ entry.kind.fields)

def canonicalStream (entries : List OutputEntry) : Bytes :=
  bundleMagic ++ entries.flatMap OutputEntry.bytes

/-! ## Reading -/

/-- What a reader yields: bytes, and then the end of the file or a failure. -/
structure Source where
  bytes : Bytes
  failure : Option String
  deriving DecidableEq, Repr

/-- `CountingReader`: at most `maximum` bytes, and a failure where the source has more. -/
def Source.limited (source : Source) (maximum : ℕ) : Source :=
  if source.bytes.length ≤ maximum then source
  else ⟨source.bytes.take maximum, some "encoded bundle exceeds descriptor size"⟩

structure CanonicalReader where
  inner : Source
  taken : Bytes
  maximum : UInt64
  deriving DecidableEq, Repr

abbrev Reading := StateT CanonicalReader (Except BundleError)

namespace CanonicalReader

def readExact (length : ℕ) : Reading Bytes := fun reader =>
  if 2 ^ 64 ≤ reader.taken.length + length then
    .error (.cache (.limit "expanded bundle size overflowed"))
  else if reader.maximum.toNat < reader.taken.length + length then
    .error (.cache (.limit "expanded bundle exceeds configured limit"))
  else if reader.inner.bytes.length < length then
    .error (.bundleSource (reader.inner.failure.getD "failed to fill whole buffer"))
  else
    .ok (reader.inner.bytes.take length,
      { reader with
        inner := ⟨reader.inner.bytes.drop length, reader.inner.failure⟩
        taken := reader.taken ++ reader.inner.bytes.take length })

def fromBigEndian (bytes : Bytes) : ℕ := bytes.foldl (fun n byte => 256 * n + byte.toNat) 0

def readNumber (width : ℕ) : Reading ℕ := do
  return fromBigEndian (← readExact width)

def readU8 : Reading UInt8 := do
  return UInt8.ofNat (← readNumber 1)

def readBool : Reading Bool := do
  match ← readNumber 1 with
  | 0 => return false
  | 1 => return true
  | value => throw (.cache (.invalidBundle s!"invalid bundle boolean {value}"))

def readU32 : Reading ℕ := readNumber 4

def readU64 : Reading ℕ := readNumber 8

def fromUtf8 (bytes : Bytes) : Option String := String.fromUTF8? ⟨bytes.toArray⟩

def readString (maximum : UInt64) : Reading String := do
  let length ← readU32
  if length = 0 ∨ maximum.toNat < length then
    throw (.cache (.limit s!"bundle string length {length} is outside configured bounds"))
  match fromUtf8 (← readExact length) with
  | some value => return value
  | none => throw (.cache (.invalidBundle "bundle paths must be UTF-8"))

def readRelativePath (maximum : UInt64) : Reading RelativePath := do
  let value ← readString maximum
  let path ← liftProtocol (RelativePath.new value)
  if path.isRoot then
    throw (.cache (.invalidBundle "bundle entries cannot replace the workspace root"))
  return path

def readSymlinkTarget (link : RelativePath) (maximum : UInt64) : Reading String := do
  let target ← readString maximum
  match validateSymlinkText link target with
  | .ok () => return target
  | .error reason => throw (.cache (.invalidBundle reason))

def readOptionalByte : Reading (Option UInt8) := fun reader =>
  match reader.inner.bytes, reader.inner.failure with
  | byte :: rest, failure =>
    .ok (some byte, { reader with inner := ⟨rest, failure⟩, taken := reader.taken ++ [byte] })
  | [], none => .ok (none, reader)
  | [], some failure => .error (.bundleSource failure)

end CanonicalReader

open CanonicalReader

structure Head where
  tag : UInt8
  path : RelativePath
  deriving DecidableEq

def readHead (limits : BundleLimits) : Reading Head := do
  let tag ← readU8
  let path ← readRelativePath limits.maxPathBytes
  return ⟨tag, path⟩

def readFileHeader (limits : BundleLimits) (path : RelativePath) : Reading (Bool × ℕ) := do
  let executable ← readBool
  let length ← readU64
  if limits.maxFileBytes.toNat < length then
    throw (.cache (.limit s!"bundle file '{path.value}' exceeds the configured limit"))
  return (executable, length)

def readSymlink (limits : BundleLimits) (path : RelativePath) : Reading (String × Bool) := do
  let directory ← readBool
  let target ← readSymlinkTarget path limits.maxPathBytes
  return (target, directory)

def readBody (limits : BundleLimits) (head : Head) : Reading (Node Content) := do
  if head.tag = directoryTag then return .dir
  else if head.tag = fileTag then
    let (executable, length) ← readFileHeader limits head.path
    let content ← readExact length
    return .leaf (.file content executable)
  else if head.tag = symlinkTag then
    let (target, directory) ← readSymlink limits head.path
    return .leaf (.symlink target directory)
  else throw (.cache (.invalidBundle s!"unknown bundle entry tag {head.tag}"))

/-- The heads of the first entries of a stream, as far as they can be read. -/
def heads (limits : BundleLimits) : ℕ → CanonicalReader → List Head
  | 0, _ => []
  | count + 1, reader =>
    match readHead limits reader with
    | .error _ => []
    | .ok (head, rest) =>
      head :: match readBody limits head rest with
        | .error _ => []
        | .ok (_, rest) => heads limits count rest

end Octa.Bundle
