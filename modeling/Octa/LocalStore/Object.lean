import Octa.Cache.Action

/-!
# Objects of the local cache store

Blobs are content addressed: their path is computed from their descriptor.  An
action record is stored under its namespace and the digest of its action.
-/

namespace Octa.LocalStore

open Octa.Cache (Digest DigestAlgorithm CacheProtocolError)
open Wire (Bytes)

inductive BlobEncoding where
  | identity
  | zstdV1
  deriving DecidableEq, Repr

structure BlobDescriptor where
  digest : Digest
  encoding : BlobEncoding
  encodedSizeBytes : UInt64
  expandedSizeBytes : UInt64
  entryCount : UInt64
  deriving DecidableEq, Repr

def BlobDescriptor.validate (blob : BlobDescriptor) : Except CacheProtocolError Unit :=
  if blob.digest.algorithm ≠ .blake3 then
    .error (.result "output bundle must use the native BLAKE3 digest")
  else if blob.digest.sizeBytes ≠ blob.expandedSizeBytes then
    .error (.result "output bundle digest size differs from expanded size")
  else if blob.encodedSizeBytes = 0 ∨ blob.expandedSizeBytes = 0 ∨ blob.entryCount = 0 then
    .error (.result "output bundle sizes and entry count must be greater than zero")
  else if blob.encoding = .identity ∧ blob.encodedSizeBytes ≠ blob.expandedSizeBytes then
    .error (.result "identity-encoded bundle sizes must match")
  else .ok ()

structure BlobPath where
  hash : Vector UInt8 32
  expandedSizeBytes : UInt64
  encoding : BlobEncoding
  encodedSizeBytes : UInt64
  deriving DecidableEq, Repr

def blobRelativePath (blob : BlobDescriptor) : BlobPath where
  hash := blob.digest.hash
  expandedSizeBytes := blob.expandedSizeBytes
  encoding := blob.encoding
  encodedSizeBytes := blob.encodedSizeBytes

structure ActionPath where
  nameSpace : String
  hash : Vector UInt8 32
  sizeBytes : UInt64
  deriving DecidableEq, Repr

def actionPath (nameSpace : String) (action : Digest) : ActionPath where
  nameSpace := nameSpace
  hash := action.hash
  sizeBytes := action.sizeBytes

inductive ObjectPath where
  | action (path : ActionPath)
  | blob (path : BlobPath)
  deriving DecidableEq, Repr

structure File where
  content : Bytes
  modified : ℕ
  deriving DecidableEq, Repr

structure LocalCacheConfig where
  maxBytes : ℕ
  highWatermarkBytes : ℕ
  lowWatermarkBytes : ℕ
  maxExpandedBlobBytes : ℕ
  maxBlobCompressionRatio : ℕ
  temporaryGrace : ℕ
  deriving DecidableEq, Repr

/-- One open store: its configuration and the libraries it rests on.  `checks` is
the validation of an action result apart from its wire size. -/
structure LocalCacheStore (ρ : Type) where
  config : LocalCacheConfig
  blake3 : Bytes → Vector UInt8 32
  expand : BlobEncoding → Bytes → Option Bytes
  toVec : ρ → Bytes
  fromSlice : Bytes → Option ρ
  action : ρ → Digest
  outputBundle : ρ → Option BlobDescriptor
  checks : ρ → Bool
  maxActionResultWireBytes : ℕ
  shardName : ObjectPath → ℕ

namespace LocalCacheStore

variable {ρ : Type} (store : LocalCacheStore ρ)

/-- `ActionResultV1::validate`. -/
def Valid (result : ρ) : Prop :=
  store.checks result = true ∧ (store.toVec result).length ≤ store.maxActionResultWireBytes

instance : DecidablePred store.Valid := fun _ => inferInstanceAs (Decidable (_ ∧ _))

def ValidBlobResources (blob : BlobDescriptor) : Prop :=
  blob.expandedSizeBytes.toNat ≤ store.config.maxExpandedBlobBytes ∧
    blob.expandedSizeBytes.toNat ≤
      min (blob.encodedSizeBytes.toNat * store.config.maxBlobCompressionRatio) (2 ^ 64 - 1)

instance : DecidablePred store.ValidBlobResources := fun _ => inferInstanceAs (Decidable (_ ∧ _))

/-- The encoded bytes have the declared size and decode to the declared bytes. -/
def Verifies (blob : BlobDescriptor) (content : Bytes) : Prop :=
  blob.expandedSizeBytes.toNat ≤ store.config.maxExpandedBlobBytes ∧
    content.length = blob.encodedSizeBytes.toNat ∧
    ∃ expanded ∈ store.expand blob.encoding content,
      expanded.length ≤ blob.expandedSizeBytes.toNat ∧
        (⟨.blake3, store.blake3 expanded, UInt64.ofNat expanded.length⟩ : Digest) = blob.digest

instance (blob : BlobDescriptor) (content : Bytes) : Decidable (store.Verifies blob content) :=
  inferInstanceAs (Decidable (_ ∧ _ ∧ _))

/-- The bytes at a blob path are those the path was computed from. -/
structure Addressed (path : BlobPath) (content : Bytes) : Prop where
  length : content.length = path.encodedSizeBytes.toNat
  expanded : ∃ expanded ∈ store.expand path.encoding content,
    expanded.length = path.expandedSizeBytes.toNat ∧ store.blake3 expanded = path.hash

variable {store}

theorem Verifies.addressed {blob : BlobDescriptor} {content : Bytes}
    (h : store.Verifies blob content) (hblob : blob.validate = .ok ()) :
    store.Addressed (blobRelativePath blob) content := by
  obtain ⟨-, hl, exp, he, hs, hd⟩ := h
  have hde : blob.digest.sizeBytes = blob.expandedSizeBytes := by
    unfold BlobDescriptor.validate at hblob
    split_ifs at hblob with h₁ h₂
    exact not_not.mp h₂
  have hsi : UInt64.ofNat exp.length = blob.expandedSizeBytes := by
    rw [← hde, ← hd]
  refine ⟨hl, exp, he, ?_, ?_⟩
  · have hlt : exp.length < 2 ^ 64 := lt_of_le_of_lt hs blob.expandedSizeBytes.toNat_lt
    change exp.length = blob.expandedSizeBytes.toNat
    rw [← hsi]
    exact (UInt64.toNat_ofNat_of_lt' hlt).symm
  · change store.blake3 exp = blob.digest.hash
    rw [← hd]

/-! ## Actions -/

/-- `store` reads `result` from an action record: it decodes, passes the validation
and is bound to the digest of its path. -/
def Reads (store : LocalCacheStore ρ) (path : ActionPath) (content : Bytes) (result : ρ) : Prop :=
  content.length ≤ store.maxActionResultWireBytes ∧ store.fromSlice content = some result ∧
    store.Valid result ∧ (store.action result).hash = path.hash ∧
    (store.action result).sizeBytes = path.sizeBytes

def WellFormed (store : LocalCacheStore ρ) : ObjectPath → Bytes → Prop
  | .action path, content => ∃ result, store.Reads path content result
  | .blob path, content => content.length = path.encodedSizeBytes.toNat

end LocalCacheStore

end Octa.LocalStore
