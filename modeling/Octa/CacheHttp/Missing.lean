import Octa.LocalStore.Publication
import Mathlib.Data.List.Dedup

/-!
# Missing blobs of the layered store

The local tier answers from its files, the remote one over HTTP and as it likes.
-/

namespace Octa.CacheHttp

open FileTree Octa.Cache Fallible List
open Octa.LocalStore (BlobDescriptor)

/-- The errors of a tier; every other error of the cache is `cache`. -/
inductive StoreError where
  | cancelled
  | remote (operation message : String)
  | cache (error : CacheError)
  deriving DecidableEq

abbrev StoreResult (α : Type) := Except StoreError α

def checked (result : Except CacheProtocolError Unit) : StoreResult Unit :=
  result.mapError fun error => .cache (.protocol error)

/-! ## The local tier -/

structure LocalTier where
  lock : StoreResult Unit
  /-- `validate_cache_parent`: whether the directory of the blob exists -/
  parent : BlobDescriptor → StoreResult Bool
  path : BlobDescriptor → FsPath
  /-- whether a regular file stands at the path, and the length of what stands there -/
  metadata : BlobDescriptor → Except ErrorKind (Bool × UInt64)
  quarantine : BlobDescriptor → String → StoreResult Unit

inductive Presence where
  | present
  | absent
  | corrupt
  deriving DecidableEq

namespace LocalTier

variable (tier : LocalTier)

/-- The file of a blob is there, with the size of its descriptor. -/
def holds (blob : BlobDescriptor) : Bool :=
  decide (tier.parent blob = .ok true) &&
    decide (tier.metadata blob = .ok (true, blob.encodedSizeBytes))

def presence (blob : BlobDescriptor) : Except ErrorKind (Bool × UInt64) → StoreResult Presence
  | .ok found => .ok (if found = (true, blob.encodedSizeBytes) then .present else .corrupt)
  | .error .notFound => .ok .absent
  | .error kind => .error (.cache (.io "inspect local cache blob" (tier.path blob) kind))

def inspect (blob : BlobDescriptor) : StoreResult Presence := do
  checked blob.validate
  let parent ← tier.parent blob
  if parent then tier.presence blob (tier.metadata blob) else .ok .absent

/-- The missing and the corrupt blobs. -/
def scan : List BlobDescriptor → StoreResult (List BlobDescriptor × List BlobDescriptor)
  | [] => .ok ([], [])
  | blob :: rest => do
    let found ← tier.inspect blob
    let others ← scan rest
    return (if found = .present then others.1 else blob :: others.1,
      if found = .corrupt then blob :: others.2 else others.2)

def findMissingBlobs (blobs : List BlobDescriptor) : StoreResult (List BlobDescriptor) := do
  tier.lock
  let scanned ← tier.scan blobs
  scanned.2.forM fun blob =>
    tier.quarantine blob "encoded blob size or file kind differs from its descriptor"
  return scanned.1

variable {tier} {blobs : List BlobDescriptor}

theorem present_iff {blob : BlobDescriptor} {found : Presence}
    (h : tier.inspect blob = .ok found) : found = .present ↔ tier.holds blob = true := by
  obtain ⟨-, -, h⟩ := bind_eq_ok h
  obtain ⟨par, hp, h⟩ := bind_eq_ok h
  rw [holds, hp]
  cases par with
  | false =>
    cases h
    simp
  | true =>
    change tier.presence blob (tier.metadata blob) = .ok found at h
    cases hm : tier.metadata blob with
    | ok data =>
      rw [hm] at h
      cases h
      simp
    | error kind =>
      rw [hm] at h
      cases kind <;> cases h
      simp

theorem scan_fst {scanned : List BlobDescriptor × List BlobDescriptor}
    (h : tier.scan blobs = .ok scanned) :
    scanned.1 = blobs.filter fun blob => !tier.holds blob := by
  induction blobs generalizing scanned with
  | nil =>
    cases h
    rfl
  | cons blob rest ih =>
    obtain ⟨found, hf, h⟩ := bind_eq_ok h
    obtain ⟨others, ho, h⟩ := bind_eq_ok h
    cases h
    have hi := present_iff hf
    cases hh : tier.holds blob with
    | true => simp [hi.mpr hh, ih ho, hh]
    | false => simp [mt hi.mp (Bool.eq_false_iff.mp hh), ih ho, hh]

theorem findMissingBlobs_eq {missing : List BlobDescriptor}
    (h : tier.findMissingBlobs blobs = .ok missing) :
    missing = blobs.filter fun blob => !tier.holds blob := by
  obtain ⟨-, -, h⟩ := bind_eq_ok h
  obtain ⟨scanned, hs, h⟩ := bind_eq_ok h
  obtain ⟨-, -, h⟩ := bind_eq_ok h
  cases h
  exact scan_fst hs

end LocalTier

/-! ## The remote tier -/

structure MissingResponse where
  protocolVersion : ℕ
  missing : List BlobDescriptor

def validateVersion (version : ℕ) : Except CacheProtocolError Unit :=
  if version ≠ 1 then
    .error (.configuration s!"unsupported remote cache protocol version {version}")
  else .ok ()

def validateBlobs (blobs : List BlobDescriptor) : Except CacheProtocolError Unit :=
  if blobs.length > maxCacheListItems then
    .error (.configuration s!"remote blob batches are limited to {maxCacheListItems} items")
  else blobs.forM BlobDescriptor.validate

/-- The HTTP client, with the permit of its circuit, the exchange with the server and the text
of an error. -/
structure HttpCacheClient where
  permit : StoreResult Unit
  exchange : List BlobDescriptor → StoreResult MissingResponse
  describe : CacheProtocolError → String

def HttpCacheClient.findMissingBlobs (client : HttpCacheClient) (blobs : List BlobDescriptor) :
    StoreResult (List BlobDescriptor) := do
  client.permit
  checked (validateVersion 1 >>= fun _ => validateBlobs blobs)
  let response ← client.exchange blobs
  (validateVersion response.protocolVersion >>= fun _ => validateBlobs response.missing).mapError
    fun error => .remote "find missing blobs" (client.describe error)
  if ¬response.missing.Nodup ∨ ¬response.missing ⊆ blobs then
    .error (.remote "find missing blobs" "response contains an unrequested or duplicate descriptor")
  else .ok (blobs.filter fun blob => decide (blob ∈ response.missing))

/-! ## Both tiers -/

/-- What is asked of the remote tier; a failure of the local one degrades to the whole request. -/
def localMissing (blobs : List BlobDescriptor) :
    StoreResult (List BlobDescriptor) → StoreResult (List BlobDescriptor)
  | .ok missing => .ok missing
  | .error .cancelled => .error .cancelled
  | .error _ => .ok blobs

def invalidResponse : StoreError :=
  .cache (.metadata "remote cache returned an invalid missing-blob response")

def missingRemotely (remote : List BlobDescriptor → StoreResult (List BlobDescriptor))
    (missing : List BlobDescriptor) : StoreResult (List BlobDescriptor) := do
  let answer ← remote missing
  if answer.dedup.length > missing.dedup.length ∨ ¬∀ blob ∈ answer, blob ∈ missing then
    .error invalidResponse
  else .ok (missing.filter fun blob => decide (blob ∈ answer))

def findMissingBlobs (tier : LocalTier)
    (remote : List BlobDescriptor → StoreResult (List BlobDescriptor))
    (blobs : List BlobDescriptor) : StoreResult (List BlobDescriptor) := do
  let missing ← localMissing blobs (tier.findMissingBlobs blobs)
  if missing = [] then .ok [] else missingRemotely remote missing

variable {tier : LocalTier} {remote : List BlobDescriptor → StoreResult (List BlobDescriptor)}
  {blobs missing answer : List BlobDescriptor}

theorem missingRemotely_of_subset (h : remote missing = .ok answer) (hsub : answer ⊆ missing) :
    missingRemotely remote missing = .ok (missing.filter fun blob => decide (blob ∈ answer)) := by
  have hl : answer.dedup.length ≤ missing.dedup.length :=
    (subperm_of_subset answer.nodup_dedup fun blob hb =>
      mem_dedup.mpr (hsub (mem_dedup.mp hb))).length_le
  rw [missingRemotely, h]
  exact if_neg (not_or.mpr ⟨Nat.not_lt.mpr hl, not_not.mpr hsub⟩)

theorem missingRemotely_of_stranger (h : remote missing = .ok answer) (hsub : ¬answer ⊆ missing) :
    missingRemotely remote missing = .error invalidResponse := by
  rw [missingRemotely, h]
  exact if_pos (.inr hsub)

theorem HttpCacheClient.findMissingBlobs_ok {client : HttpCacheClient}
    (h : client.findMissingBlobs missing = .ok answer) : ∃ resp,
      client.exchange missing = .ok resp ∧ resp.missing ⊆ missing ∧
        ∀ blob, blob ∈ answer ↔ blob ∈ resp.missing := by
  obtain ⟨-, -, h⟩ := bind_eq_ok h
  obtain ⟨-, -, h⟩ := bind_eq_ok h
  obtain ⟨resp, hr, h⟩ := bind_eq_ok h
  obtain ⟨-, -, h⟩ := bind_eq_ok h
  obtain ⟨hv, h⟩ := ite_error_eq_ok h
  cases h
  obtain ⟨-, hs⟩ := not_or.mp hv
  refine ⟨resp, hr, not_not.mp hs, fun blob => ?_⟩
  rw [mem_filter, decide_eq_true_iff]
  exact and_iff_right_of_imp fun hb => not_not.mp hs hb

theorem findMissingBlobs_of_asked {asked : List BlobDescriptor}
    (hlocal : localMissing blobs (tier.findMissingBlobs blobs) = .ok asked)
    (hremote : remote asked = .ok answer) :
    findMissingBlobs tier remote blobs = if asked = [] ∨ answer ⊆ asked then
        .ok (asked.filter fun blob => decide (blob ∈ answer))
      else .error invalidResponse := by
  rw [findMissingBlobs, hlocal]
  change (if asked = [] then _ else _) = _
  by_cases hnil : asked = []
  · rw [if_pos hnil, if_pos (.inl hnil), hnil]
    rfl
  rw [if_neg hnil]
  by_cases hsub : answer ⊆ asked
  · rw [if_pos (.inr hsub), missingRemotely_of_subset hremote hsub]
  · rw [if_neg (not_or.mpr ⟨hnil, hsub⟩), missingRemotely_of_stranger hremote hsub]

/-- When both tiers answer, the result has the requested blobs that neither of them holds, in the
order of the request, or the remote tier has named a blob it was not asked for.  When the local
tier fails, the whole request goes to the remote one.  An answer of the HTTP client names what the
response of the server does, which is part of the question. -/
theorem findMissingBlobs_exact (tier : LocalTier)
    (remote : List BlobDescriptor → StoreResult (List BlobDescriptor))
    (blobs answer : List BlobDescriptor) :
    (∀ missing, tier.findMissingBlobs blobs = .ok missing → remote missing = .ok answer →
      missing = blobs.filter (fun blob => !tier.holds blob) ∧
      findMissingBlobs tier remote blobs = if missing = [] ∨ answer ⊆ missing then
          .ok (blobs.filter fun blob => !tier.holds blob && decide (blob ∈ answer))
        else .error invalidResponse) ∧
    (∀ error, tier.findMissingBlobs blobs = .error error → error ≠ .cancelled →
      remote blobs = .ok answer →
      findMissingBlobs tier remote blobs = if blobs = [] ∨ answer ⊆ blobs then
          .ok (blobs.filter fun blob => decide (blob ∈ answer))
        else .error invalidResponse) ∧
    ∀ (client : HttpCacheClient) (missing : List BlobDescriptor),
      client.findMissingBlobs missing = .ok answer → ∃ response,
        client.exchange missing = .ok response ∧ response.missing ⊆ missing ∧
          ∀ blob, blob ∈ answer ↔ blob ∈ response.missing := by
  refine ⟨fun missing hlocal hremote => ?_, fun error hlocal hcancelled hremote => ?_,
    fun client missing hanswer => client.findMissingBlobs_ok hanswer⟩
  · have hmissing := LocalTier.findMissingBlobs_eq hlocal
    refine ⟨hmissing, ?_⟩
    have hresult : (blobs.filter fun blob => !tier.holds blob && decide (blob ∈ answer)) =
        missing.filter fun blob => decide (blob ∈ answer) := by
      rw [hmissing, filter_filter]
      simp only [Bool.and_comm]
    rw [hresult]
    exact findMissingBlobs_of_asked (by rw [hlocal, localMissing]) hremote
  · refine findMissingBlobs_of_asked ?_ hremote
    rw [hlocal]
    cases error with
    | cancelled => exact absurd rfl hcancelled
    | remote operation message => rfl
    | cache error => rfl

/-- A tier whose only file is that of `blob`. -/
def LocalTier.single (blob : BlobDescriptor) (lock : StoreResult Unit) : LocalTier where
  lock := lock
  parent := fun other => .ok (decide (other = blob))
  path := fun _ => []
  metadata := fun _ => .ok (true, blob.encodedSizeBytes)
  quarantine := fun _ _ => .ok ()

theorem findMissingBlobs_exact_repeated : findMissingBlobs (.single (.byte 0) (.ok ())) .ok
      [.byte 1, .byte 0, .byte 1] = .ok [.byte 1, .byte 1] := by
  have h : (LocalTier.single (.byte 0) (.ok ())).findMissingBlobs
      [.byte 1, .byte 0, .byte 1] = .ok [.byte 1, .byte 1] := by decide +kernel
  rw [((findMissingBlobs_exact _ .ok _ _).1 _ h rfl).2]
  decide +kernel

/-- A local tier that cannot be locked does not say what it holds. -/
theorem degraded_reports_held : ∃ tier : LocalTier, tier.holds (.byte 0) = true ∧
    findMissingBlobs tier .ok [.byte 0] = .ok [.byte 0] :=
  ⟨.single (.byte 0) (.error (.cache (.io "lock cache for reading" [] .other))),
    by decide +kernel, by decide +kernel⟩

end Octa.CacheHttp
