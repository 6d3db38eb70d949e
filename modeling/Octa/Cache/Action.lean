import Octa.Foundation.Fallible
import Octa.Foundation.Wire
import Octa.Cache.RelativePath

/-!
# Action identities

The descriptor of a task invocation and the canonical stream that is hashed
into its action key.  The hash function is a parameter; the stream is what the
encoder feeds to it.
-/

namespace Octa.Cache

open Wire Fallible

def asBytes (text : String) : Bytes := text.toByteArray.data.toList

theorem length_asBytes (text : String) : (asBytes text).length = text.utf8ByteSize := rfl

theorem asBytes_injective {text text' : String} (h : asBytes text = asBytes text') : text = text' :=
  String.toByteArray_inj.mp (ByteArray.ext (Array.toList_inj.mp h))

/-! ## Digests -/

inductive DigestAlgorithm where
  | blake3
  | sha256
  deriving DecidableEq, Repr

namespace DigestAlgorithm

def canonicalTag : DigestAlgorithm → UInt8
  | blake3 => 1
  | sha256 => 2

def display : DigestAlgorithm → String
  | blake3 => "blake3"
  | sha256 => "sha256"

theorem canonicalTag_injective {a b : DigestAlgorithm} (h : a.canonicalTag = b.canonicalTag) :
    a = b := by
  cases a <;> cases b <;> first | rfl | exact absurd h (by decide)

end DigestAlgorithm

/-- Algorithm-tagged 256-bit digest plus the byte size of its source object. -/
structure Digest where
  algorithm : DigestAlgorithm
  hash : Vector UInt8 32
  sizeBytes : UInt64
  deriving DecidableEq, Repr

/-! ## Descriptors -/

def actionKeyFormatV1 : UInt16 := 1

def actionDomain : Bytes := asBytes "octa.action.v1"

inductive PlatformOs where
  | linux
  | windows
  | macos
  deriving DecidableEq, Repr

namespace PlatformOs

def tag : PlatformOs → UInt8
  | linux => 1
  | windows => 2
  | macos => 3

theorem tag_injective {a b : PlatformOs} (h : a.tag = b.tag) : a = b := by
  cases a <;> cases b <;> first | rfl | exact absurd h (by decide)

end PlatformOs

inductive PlatformArchitecture where
  | amd64
  | arm64
  deriving DecidableEq, Repr

namespace PlatformArchitecture

def tag : PlatformArchitecture → UInt8
  | amd64 => 1
  | arm64 => 2

theorem tag_injective {a b : PlatformArchitecture} (h : a.tag = b.tag) : a = b := by
  cases a <;> cases b <;> first | rfl | exact absurd h (by decide)

end PlatformArchitecture

/-- Immutable execution environment included in an action identity. -/
inductive RuntimeIdentity where
  | native (os : PlatformOs) (architecture : PlatformArchitecture) (environment : Digest)
  | oci (os : PlatformOs) (architecture : PlatformArchitecture) (image : Digest)
  deriving DecidableEq, Repr

/-- Exact identity of one plugin that contributes to task semantics. -/
structure PluginIdentity where
  name : String
  version : String
  protocolVersion : UInt16
  executable : Digest
  deriving DecidableEq, Repr

/-- A span of time; the fraction of a second is below one second. -/
structure Duration where
  secs : UInt64
  subsecNanos : UInt32
  bounded : subsecNanos.toNat < 1000000000
  deriving DecidableEq, Repr

def Duration.isZero (duration : Duration) : Bool :=
  duration.secs = 0 && duration.subsecNanos = 0

/-- Every semantic input used to derive a portable action digest. -/
structure ActionDescriptorV1 where
  keyFormat : UInt16
  taskDefinition : Digest
  inputRoot : Digest
  workingDirectory : RelativePath
  /-- the resolved public variables; `variables` is a keyword here -/
  vars : Digest
  environment : Digest
  runtime : RuntimeIdentity
  plugins : List PluginIdentity
  arguments : List String
  timeout : Option Duration
  salt : Option String
  deriving DecidableEq

/-! ## Validation -/

def requireAlgorithm (kind : String) (digest : Digest) (expected : DigestAlgorithm) :
    Except CacheProtocolError Unit :=
  if digest.algorithm ≠ expected then
    .error (.action (kind ++ " must use the " ++ expected.display ++ " digest algorithm"))
  else .ok ()

def validateString (kind value : String) : Except CacheProtocolError Unit :=
  if value.isEmpty then .error (.action (kind ++ " must not be empty"))
  else if value.utf8ByteSize > maxCacheStringBytes then
    .error (.action (kind ++ " exceeds " ++ toString maxCacheStringBytes ++ " UTF-8 bytes"))
  else if value.toList.any isControl then
    .error (.action (kind ++ " must not contain control characters"))
  else .ok ()

def RuntimeIdentity.validate : RuntimeIdentity → Except CacheProtocolError Unit
  | .native _ _ environment => requireAlgorithm "Native runtime environment" environment .blake3
  | .oci .macos _ _ => .error (.configuration "OCI cache runtime cannot declare a macOS guest")
  | .oci _ _ image => requireAlgorithm "OCI image" image .sha256

/-- The loop over the plugins; `names` are those seen so far. -/
def validatePlugins : List String → List PluginIdentity → Except CacheProtocolError Unit
  | _, [] => .ok ()
  | names, plugin :: plugins => do
      validateString "plugin name" plugin.name
      validateString "plugin version" plugin.version
      if plugin.protocolVersion = 0 then
        .error (.action ("plugin '" ++ plugin.name ++ "' has protocol version zero"))
      else if plugin.executable.algorithm ≠ .sha256 then
        .error (.action
          ("plugin '" ++ plugin.name ++ "' executable must retain its SHA-256 identity"))
      else if plugin.name ∈ names then
        .error (.action ("plugin '" ++ plugin.name ++ "' appears more than once"))
      else validatePlugins (plugin.name :: names) plugins

def validateArguments : List String → Except CacheProtocolError Unit
  | [] => .ok ()
  | argument :: arguments =>
    if argument.utf8ByteSize > maxCacheStringBytes then
      .error (.action ("argument exceeds " ++ toString maxCacheStringBytes ++ " UTF-8 bytes"))
    else validateArguments arguments

def validateTimeout : Option Duration → Except CacheProtocolError Unit
  | none => .ok ()
  | some timeout =>
    if timeout.isZero then .error (.action "timeout must be greater than zero") else .ok ()

def validateSalt : Option String → Except CacheProtocolError Unit
  | none => .ok ()
  | some salt => validateString "salt" salt

namespace ActionDescriptorV1

def validate (action : ActionDescriptorV1) : Except CacheProtocolError Unit :=
  if action.keyFormat ≠ actionKeyFormatV1 then
    .error (.action ("unsupported key format " ++ toString action.keyFormat))
  else if action.plugins.length > maxCacheListItems ∨
      action.arguments.length > maxCacheListItems then
    .error (.action
      ("plugin and argument lists are limited to " ++ toString maxCacheListItems ++ " items"))
  else do
    requireAlgorithm "task definition" action.taskDefinition .blake3
    requireAlgorithm "input root" action.inputRoot .blake3
    requireAlgorithm "variables" action.vars .blake3
    requireAlgorithm "environment" action.environment .blake3
    action.runtime.validate
    validatePlugins [] action.plugins
    validateArguments action.arguments
    validateTimeout action.timeout
    validateSalt action.salt

end ActionDescriptorV1

/-! ## The encoder -/

/-- Streams one canonical descriptor into the hash: the bytes fed so far. -/
structure CanonicalEncoder where
  bytes : Bytes

namespace CanonicalEncoder

variable (encoder : CanonicalEncoder)

def raw (value : Bytes) : CanonicalEncoder := ⟨encoder.bytes ++ value⟩

def new (domain : Bytes) : CanonicalEncoder :=
  ((⟨[]⟩ : CanonicalEncoder).raw (bigEndian 4 domain.length)).raw domain

def tag (tag : UInt8) : CanonicalEncoder := encoder.raw [tag]

def byte (tag value : UInt8) : CanonicalEncoder := (encoder.tag tag).raw [value]

def u16 (tag : UInt8) (value : UInt16) : CanonicalEncoder :=
  (encoder.tag tag).raw (bigEndian 2 value.toNat)

def u32 (tag : UInt8) (value : UInt32) : CanonicalEncoder :=
  (encoder.tag tag).raw (bigEndian 4 value.toNat)

def u64 (tag : UInt8) (value : UInt64) : CanonicalEncoder :=
  (encoder.tag tag).raw (bigEndian 8 value.toNat)

def string (tag : UInt8) (value : String) : CanonicalEncoder :=
  ((encoder.tag tag).raw (bigEndian 4 (UInt32.ofNat value.utf8ByteSize).toNat)).raw (asBytes value)

def digest (tag : UInt8) (value : Digest) : CanonicalEncoder :=
  (((encoder.tag tag).raw [value.algorithm.canonicalTag]).raw
    (bigEndian 8 value.sizeBytes.toNat)).raw value.hash.toList

def runtime (tag : UInt8) (runtime : RuntimeIdentity) : CanonicalEncoder :=
  match runtime with
  | .native os architecture environment =>
    ((encoder.tag tag).raw [1, os.tag, architecture.tag]).digest 20 environment
  | .oci os architecture image =>
    ((encoder.tag tag).raw [2, os.tag, architecture.tag]).digest 21 image

def plugin (plugin : PluginIdentity) : CanonicalEncoder :=
  (((encoder.string 9 plugin.name).string 10 plugin.version).u16 11 plugin.protocolVersion).digest
    12 plugin.executable

def timeout : Option Duration → CanonicalEncoder
  | some timeout =>
    ((encoder.byte 15 1).u64 16 timeout.secs).u32 17 timeout.subsecNanos
  | none => encoder.byte 15 0

def salt : Option String → CanonicalEncoder
  | some salt => (encoder.byte 18 1).string 19 salt
  | none => encoder.byte 18 0

def finish (blake3 : Bytes → Vector UInt8 32) : Digest where
  algorithm := .blake3
  hash := blake3 encoder.bytes
  sizeBytes := UInt64.ofNat encoder.bytes.length

end CanonicalEncoder

namespace ActionDescriptorV1

variable (action : ActionDescriptorV1)

/-- The plugins in the canonical order.  Texts are compared as their UTF-8 bytes,
which is the order of their characters. -/
def sortedPlugins : List PluginIdentity :=
  action.plugins.insertionSort fun left right => left.name ≤ right.name

def encoder : CanonicalEncoder :=
  let encoder := CanonicalEncoder.new actionDomain
  let encoder := encoder.u16 1 action.keyFormat
  let encoder := encoder.digest 2 action.taskDefinition
  let encoder := encoder.digest 3 action.inputRoot
  let encoder := encoder.string 4 action.workingDirectory.value
  let encoder := encoder.digest 5 action.vars
  let encoder := encoder.digest 6 action.environment
  let encoder := encoder.runtime 7 action.runtime
  let encoder := encoder.u32 8 (UInt32.ofNat action.sortedPlugins.length)
  let encoder := action.sortedPlugins.foldl CanonicalEncoder.plugin encoder
  let encoder := encoder.u32 13 (UInt32.ofNat action.arguments.length)
  let encoder := action.arguments.foldl (fun encoder argument => encoder.string 14 argument) encoder
  let encoder := encoder.timeout action.timeout
  encoder.salt action.salt

def encoding : Bytes := action.encoder.bytes

/-- Computes the stable `octa.action.v1` digest. -/
def digest (blake3 : Bytes → Vector UInt8 32) : Except CacheProtocolError Digest := do
  action.validate
  pure (action.encoder.finish blake3)

/-- The descriptors differ in the order of their plugins at most. -/
def SameAction (action action' : ActionDescriptorV1) : Prop :=
  { action with plugins := [] } = { action' with plugins := [] } ∧
    action.plugins.Perm action'.plugins

end ActionDescriptorV1

/-! ## What validation guarantees -/

open List

theorem validateString_ok {kind v : String} (h : validateString kind v = .ok ()) :
    v.utf8ByteSize ≤ maxCacheStringBytes := by
  unfold validateString at h
  split at h
  · cases h
  split at h
  · cases h
  · next hl => exact Nat.le_of_not_lt hl

theorem RelativePath.length_le (path : RelativePath) :
    path.value.utf8ByteSize ≤ maxCacheStringBytes := by
  have h := path.valid
  unfold Octa.Cache.validate at h
  split at h
  · cases h
  split at h
  · cases h
  · next hl => exact Nat.le_of_not_lt hl

theorem validateArguments_ok {args : List String} (h : validateArguments args = .ok ()) :
    ∀ arg ∈ args, arg.utf8ByteSize ≤ maxCacheStringBytes := by
  induction args with
  | nil => exact fun _ ha => absurd ha not_mem_nil
  | cons arg args ih =>
    rw [validateArguments] at h
    split at h
    · cases h
    next hl =>
    intro arg' ha
    rcases mem_cons.mp ha with rfl | ha
    · exact Nat.le_of_not_lt hl
    · exact ih h arg' ha

structure PluginIdentity.Bounded (plugin : PluginIdentity) : Prop where
  name : plugin.name.utf8ByteSize ≤ maxCacheStringBytes
  version : plugin.version.utf8ByteSize ≤ maxCacheStringBytes

theorem validatePlugins_ok {names : List String} {plugins : List PluginIdentity}
    (h : validatePlugins names plugins = .ok ()) :
    (∀ plugin ∈ plugins, plugin.Bounded ∧ plugin.name ∉ names) ∧
      (plugins.map PluginIdentity.name).Nodup := by
  induction plugins generalizing names with
  | nil => exact ⟨fun _ hp => absurd hp not_mem_nil, nodup_nil⟩
  | cons plugin plugins ih =>
    rw [validatePlugins] at h
    obtain ⟨⟨⟩, hna, h₁⟩ := bind_eq_ok h
    obtain ⟨⟨⟩, hv, h₂⟩ := bind_eq_ok h₁
    obtain ⟨-, h₃⟩ := ite_error_eq_ok h₂
    obtain ⟨-, h₄⟩ := ite_error_eq_ok h₃
    obtain ⟨hn, h₅⟩ := ite_error_eq_ok h₄
    obtain ⟨hr, hno⟩ := ih h₅
    refine ⟨?_, nodup_cons.mpr ⟨?_, hno⟩⟩
    · intro plugin' hp
      rcases mem_cons.mp hp with rfl | hp
      · exact ⟨⟨validateString_ok hna, validateString_ok hv⟩, hn⟩
      · obtain ⟨hb, hns⟩ := hr plugin' hp
        exact ⟨hb, fun hm => hns (mem_cons_of_mem _ hm)⟩
    intro hm
    obtain ⟨plugin', hp, hs⟩ := mem_map.mp hm
    exact (hr plugin' hp).2 (hs ▸ mem_cons_self)

namespace ActionDescriptorV1

structure Bounded (action : ActionDescriptorV1) : Prop where
  plugins : action.plugins.length ≤ maxCacheListItems
  arguments : action.arguments.length ≤ maxCacheListItems
  plugin : ∀ plugin ∈ action.plugins, plugin.Bounded
  distinct : (action.plugins.map PluginIdentity.name).Nodup
  argument : ∀ argument ∈ action.arguments, argument.utf8ByteSize ≤ maxCacheStringBytes
  salt : ∀ salt ∈ action.salt, salt.utf8ByteSize ≤ maxCacheStringBytes

theorem bounded_of_validate {action : ActionDescriptorV1} (h : action.validate = .ok ()) :
    action.Bounded := by
  obtain ⟨-, h₁⟩ := ite_error_eq_ok h
  obtain ⟨hl, h₂⟩ := ite_error_eq_ok h₁
  obtain ⟨⟨⟩, -, h₃⟩ := bind_eq_ok h₂
  obtain ⟨⟨⟩, -, h₄⟩ := bind_eq_ok h₃
  obtain ⟨⟨⟩, -, h₅⟩ := bind_eq_ok h₄
  obtain ⟨⟨⟩, -, h₆⟩ := bind_eq_ok h₅
  obtain ⟨⟨⟩, -, h₇⟩ := bind_eq_ok h₆
  obtain ⟨⟨⟩, hpl, h₈⟩ := bind_eq_ok h₇
  obtain ⟨⟨⟩, ha, h₉⟩ := bind_eq_ok h₈
  obtain ⟨⟨⟩, -, hs⟩ := bind_eq_ok h₉
  obtain ⟨hp, hd⟩ := validatePlugins_ok hpl
  rw [not_or, Nat.not_lt, Nat.not_lt] at hl
  refine ⟨hl.1, hl.2, fun plugin hm => (hp plugin hm).1, hd, validateArguments_ok ha, ?_⟩
  intro salt hm
  rw [Option.mem_def.mp hm] at hs
  exact validateString_ok hs

end ActionDescriptorV1

/-! ## The fields of the stream -/

def stringField (value : String) : Bytes :=
  bigEndian 4 (UInt32.ofNat value.utf8ByteSize).toNat ++ asBytes value

def digestField (value : Digest) : Bytes :=
  [value.algorithm.canonicalTag] ++ (bigEndian 8 value.sizeBytes.toNat ++ value.hash.toList)

def runtimeField : RuntimeIdentity → Bytes
  | .native os architecture environment =>
    1 :: os.tag :: architecture.tag :: 20 :: digestField environment
  | .oci os architecture image => 2 :: os.tag :: architecture.tag :: 21 :: digestField image

def pluginField (plugin : PluginIdentity) : Bytes :=
  (9 :: stringField plugin.name) ++ ((10 :: stringField plugin.version) ++
    ((11 :: bigEndian 2 plugin.protocolVersion.toNat) ++ (12 :: digestField plugin.executable)))

def durationField (duration : Duration) : Bytes :=
  (16 :: bigEndian 8 duration.secs.toNat) ++ (17 :: bigEndian 4 duration.subsecNanos.toNat)

def timeoutField : Option Duration → Bytes
  | none => [0]
  | some timeout => 1 :: durationField timeout

def saltField : Option String → Bytes
  | none => [0]
  | some salt => 1 :: 19 :: stringField salt

def listField {α : Type} (encode : α → Bytes) (items : List α) : Bytes :=
  bigEndian 4 (UInt32.ofNat items.length).toNat ++ items.flatMap encode

namespace CanonicalEncoder

variable (encoder : CanonicalEncoder)

@[simp] theorem bytes_u16 (tag : UInt8) (v : UInt16) :
    (encoder.u16 tag v).bytes = encoder.bytes ++ tag :: bigEndian 2 v.toNat := by
  simp [u16, raw, CanonicalEncoder.tag]

@[simp] theorem bytes_u32 (tag : UInt8) (v : UInt32) :
    (encoder.u32 tag v).bytes = encoder.bytes ++ tag :: bigEndian 4 v.toNat := by
  simp [u32, raw, CanonicalEncoder.tag]

@[simp] theorem bytes_string (tag : UInt8) (value : String) :
    (encoder.string tag value).bytes = encoder.bytes ++ tag :: stringField value := by
  simp [string, raw, CanonicalEncoder.tag, stringField]

@[simp] theorem bytes_digest (tag : UInt8) (value : Digest) :
    (encoder.digest tag value).bytes = encoder.bytes ++ tag :: digestField value := by
  simp [digest, raw, CanonicalEncoder.tag, digestField]

@[simp] theorem bytes_runtime (tag : UInt8) (value : RuntimeIdentity) :
    (encoder.runtime tag value).bytes = encoder.bytes ++ tag :: runtimeField value := by
  cases value <;> simp [runtime, raw, CanonicalEncoder.tag, runtimeField]

@[simp] theorem bytes_plugin (value : PluginIdentity) :
    (encoder.plugin value).bytes = encoder.bytes ++ pluginField value := by
  simp [plugin, pluginField]

@[simp] theorem bytes_timeout (value : Option Duration) :
    (encoder.timeout value).bytes = encoder.bytes ++ 15 :: timeoutField value := by
  cases value <;> simp [timeout, byte, u64, raw, CanonicalEncoder.tag, timeoutField, durationField]

@[simp] theorem bytes_salt (value : Option String) :
    (encoder.salt value).bytes = encoder.bytes ++ 18 :: saltField value := by
  cases value <;> simp [salt, byte, raw, CanonicalEncoder.tag, saltField]

theorem bytes_foldl {α : Type} {step : CanonicalEncoder → α → CanonicalEncoder} {encode : α → Bytes}
    (hstep : ∀ encoder a, (step encoder a).bytes = encoder.bytes ++ encode a) (items : List α) :
    (items.foldl step encoder).bytes = encoder.bytes ++ items.flatMap encode := by
  induction items generalizing encoder with
  | nil => rw [foldl_nil, flatMap_nil, append_nil]
  | cons a items ih => rw [foldl_cons, ih, hstep, flatMap_cons, append_assoc]

end CanonicalEncoder

/-! ## Determined fields -/

theorem determines_string :
    Determines (fun v : String => v.utf8ByteSize ≤ maxCacheStringBytes) id stringField := by
  have hby : Determines (fun _ : UInt8 => True) id fun b => [b] :=
    .of_length 1 (fun _ _ => rfl) fun _ _ _ _ h => (List.cons.inj h).1
  have hl := (hby.list 4).comap asBytes
    (q := fun v : String => v.utf8ByteSize ≤ maxCacheStringBytes)
    fun v hv => ⟨by
      rw [length_asBytes]
      exact lt_of_le_of_lt hv (by decide), fun _ _ => trivial⟩
  intro a b ha hb rest rest' hs
  have hf : ∀ v : String, v.utf8ByteSize ≤ maxCacheStringBytes →
      stringField v = bigEndian 4 (asBytes v).length ++ (asBytes v).flatMap (fun b => [b]) := by
    intro v hv
    have hsm : v.utf8ByteSize < 2 ^ 32 := lt_of_le_of_lt hv (by decide)
    rw [stringField, UInt32.toNat_ofNat_of_lt' hsm, length_asBytes, flatMap_singleton']
  rw [hf a ha, hf b hb] at hs
  obtain ⟨hv, hr⟩ := hl ha hb hs
  exact ⟨asBytes_injective hv, hr⟩

theorem determines_u16 : Determines (fun _ : UInt16 => True) id fun v => bigEndian 2 v.toNat :=
  ((Determines.number 2).comap UInt16.toNat fun v _ => v.toNat_lt).mono
    fun _ _ _ _ h => UInt16.toNat_inj.mp h

theorem determines_u32 : Determines (fun _ : UInt32 => True) id fun v => bigEndian 4 v.toNat :=
  ((Determines.number 4).comap UInt32.toNat fun v _ => v.toNat_lt).mono
    fun _ _ _ _ h => UInt32.toNat_inj.mp h

theorem determines_u64 : Determines (fun _ : UInt64 => True) id fun v => bigEndian 8 v.toNat :=
  ((Determines.number 8).comap UInt64.toNat fun v _ => v.toNat_lt).mono
    fun _ _ _ _ h => UInt64.toNat_inj.mp h

theorem determines_digest : Determines (fun _ : Digest => True) id digestField := by
  have hal : Determines (fun _ : Digest => True) Digest.algorithm
      fun v => [v.algorithm.canonicalTag] :=
    .of_length 1 (fun _ _ => rfl) fun _ _ _ _ h =>
      DigestAlgorithm.canonicalTag_injective (List.cons.inj h).1
  have hha : Determines (fun _ : Digest => True) Digest.hash fun v => v.hash.toList :=
    .of_length 32 (fun v _ => v.hash.length_toList) fun _ _ _ _ h =>
      Vector.toList_inj.mp h
  have hs := determines_u64.comap Digest.sizeBytes (q := fun _ => True) fun _ _ => trivial
  apply (hal.append (hs.append hha)).mono
  intro a b _ _ h
  simp only [Prod.mk.injEq, id_eq] at h
  obtain ⟨ha, hsz, hh⟩ := h
  cases a
  cases b
  simp_all

theorem determines_runtime : Determines (fun _ : RuntimeIdentity => True) id runtimeField := by
  intro a b _ _ rest rest' h
  cases a with
  | native os architecture env =>
    cases b with
    | native os' architecture' environment' =>
      simp only [runtimeField, cons_append, List.cons.injEq, true_and] at h
      obtain ⟨ho, ha, hd⟩ := h
      obtain ⟨he, hr⟩ := determines_digest trivial trivial hd
      obtain rfl := PlatformOs.tag_injective ho
      obtain rfl := PlatformArchitecture.tag_injective ha
      obtain rfl : env = environment' := he
      exact ⟨rfl, hr⟩
    | oci => exact absurd (List.cons.inj h).1 (by decide)
  | oci os architecture image =>
    cases b with
    | native => exact absurd (List.cons.inj h).1 (by decide)
    | oci os' architecture' image' =>
      simp only [runtimeField, cons_append, List.cons.injEq, true_and] at h
      obtain ⟨ho, ha, hd⟩ := h
      obtain ⟨hi, hr⟩ := determines_digest trivial trivial hd
      obtain rfl := PlatformOs.tag_injective ho
      obtain rfl := PlatformArchitecture.tag_injective ha
      obtain rfl : image = image' := hi
      exact ⟨rfl, hr⟩

theorem determines_plugin : Determines PluginIdentity.Bounded id pluginField := by
  have hna := (determines_string.comap PluginIdentity.name
    fun (plugin : PluginIdentity) (h : plugin.Bounded) => h.name).tagged 9
  have hve := (determines_string.comap PluginIdentity.version
    fun (plugin : PluginIdentity) (h : plugin.Bounded) => h.version).tagged 10
  have hpr := (determines_u16.comap PluginIdentity.protocolVersion
    fun (plugin : PluginIdentity) (_ : plugin.Bounded) => trivial).tagged 11
  have hex := (determines_digest.comap PluginIdentity.executable
    fun (plugin : PluginIdentity) (_ : plugin.Bounded) => trivial).tagged 12
  apply (hna.append (hve.append (hpr.append hex))).mono
  intro a b _ _ h
  simp only [Prod.mk.injEq, id_eq] at h
  obtain ⟨hn, hv, hp, he⟩ := h
  cases a
  cases b
  simp_all

theorem determines_duration : Determines (fun _ : Duration => True) id durationField := by
  have hse := (determines_u64.comap Duration.secs (q := fun _ => True) fun _ _ => trivial).tagged 16
  have hna := (determines_u32.comap Duration.subsecNanos (q := fun _ => True)
    fun _ _ => trivial).tagged 17
  apply (hse.append hna).mono
  intro a b _ _ h
  simp only [Prod.mk.injEq, id_eq] at h
  obtain ⟨hs, hn⟩ := h
  cases a
  cases b
  simp_all

theorem determines_timeout : Determines (fun _ : Option Duration => True) id timeoutField := by
  intro a b _ _ rest rest' h
  apply determines_duration.option (fun _ _ => trivial) (fun _ _ => trivial)
  cases a <;> cases b <;> exact h

theorem determines_salt :
    Determines (fun salt : Option String => ∀ v ∈ salt, v.utf8ByteSize ≤ maxCacheStringBytes)
      id saltField := by
  intro a b ha hb rest rest' h
  apply (determines_string.tagged 19).option ha hb
  cases a <;> cases b <;> exact h

theorem determines_list {α : Type} {p : α → Prop} {encode : α → Bytes}
    (h : Determines p id encode) :
    Determines (fun items : List α => items.length ≤ maxCacheListItems ∧ ∀ a ∈ items, p a) id
      (listField encode) := by
  intro a b ha hb rest rest' hst
  have hs : ∀ {n}, n ≤ maxCacheListItems → n < 2 ^ 32 := fun hn => lt_of_le_of_lt hn (by decide)
  rw [listField, listField, UInt32.toNat_ofNat_of_lt' (hs ha.1),
    UInt32.toNat_ofNat_of_lt' (hs hb.1)] at hst
  exact (h.list 4) ⟨hs ha.1, ha.2⟩ ⟨hs hb.1, hb.2⟩ hst

namespace ActionDescriptorV1

def stream (action : ActionDescriptorV1) : Bytes :=
  (1 :: bigEndian 2 action.keyFormat.toNat) ++
    ((2 :: digestField action.taskDefinition) ++ ((3 :: digestField action.inputRoot) ++
      ((4 :: stringField action.workingDirectory.value) ++ ((5 :: digestField action.vars) ++
        ((6 :: digestField action.environment) ++ ((7 :: runtimeField action.runtime) ++
          ((8 :: listField pluginField action.sortedPlugins) ++
            ((13 :: listField (fun argument => 14 :: stringField argument) action.arguments) ++
              ((15 :: timeoutField action.timeout) ++ (18 :: saltField action.salt))))))))))

theorem encoding_eq (action : ActionDescriptorV1) :
    action.encoding = (CanonicalEncoder.new actionDomain).bytes ++ action.stream := by
  simp only [encoding, encoder, stream, listField, CanonicalEncoder.bytes_salt,
    CanonicalEncoder.bytes_timeout,
    CanonicalEncoder.bytes_foldl _ fun encoder arg => encoder.bytes_string 14 arg,
    CanonicalEncoder.bytes_foldl _ CanonicalEncoder.bytes_plugin, CanonicalEncoder.bytes_u32,
    CanonicalEncoder.bytes_runtime, CanonicalEncoder.bytes_digest, CanonicalEncoder.bytes_string,
    CanonicalEncoder.bytes_u16, append_assoc, cons_append]

/-- What the stream shows of a descriptor: everything but the order of its plugins. -/
structure SameFields (action action' : ActionDescriptorV1) : Prop where
  rest : { action with plugins := [] } = { action' with plugins := [] }
  plugins : action.sortedPlugins = action'.sortedPlugins

theorem sortedPlugins_perm (action : ActionDescriptorV1) :
    action.sortedPlugins.Perm action.plugins :=
  perm_insertionSort _ _

theorem stream_eq_iff {action action' : ActionDescriptorV1} (h : action.Bounded)
    (h' : action'.Bounded) : action.stream = action'.stream ↔ action.SameFields action' := by
  constructor
  · intro hs
    have hdi (f : ActionDescriptorV1 → Digest) :=
      determines_digest.comap f (q := Bounded) fun _ _ => trivial
    have hf := determines_u16.comap keyFormat (q := Bounded) fun _ _ => trivial
    have hdr := determines_string.comap (fun action => action.workingDirectory.value)
      (q := Bounded) fun action _ => action.workingDirectory.length_le
    have hru := determines_runtime.comap runtime (q := Bounded) fun _ _ => trivial
    have hpl := (determines_list determines_plugin).comap sortedPlugins (q := Bounded)
      fun action h => ⟨by
        rw [action.sortedPlugins_perm.length_eq]
        exact h.plugins, fun plugin hp =>
          h.plugin plugin (action.sortedPlugins_perm.mem_iff.mp hp)⟩
    have ha := (determines_list (determines_string.tagged 14)).comap arguments
      (q := Bounded) fun _ h => ⟨h.arguments, h.argument⟩
    have ht := determines_timeout.comap timeout (q := Bounded) fun _ _ => trivial
    have hsa := determines_salt.comap salt (q := Bounded) fun _ h => h.salt
    have hpa := ((hf.tagged 1).append (((hdi taskDefinition).tagged 2).append
      (((hdi inputRoot).tagged 3).append ((hdr.tagged 4).append
        (((hdi vars).tagged 5).append (((hdi environment).tagged 6).append
          ((hru.tagged 7).append ((hpl.tagged 8).append ((ha.tagged 13).append
            ((ht.tagged 15).append (hsa.tagged 18))))))))))).eq_of_eq h h' hs
    simp only [Prod.mk.injEq, id_eq] at hpa
    obtain ⟨h₁, h₂, h₃, h₄, h₅, h₆, h₇, h₈, h₉, h₁₀, h₁₁⟩ := hpa
    refine ⟨?_, h₈⟩
    have hpt : action.workingDirectory = action'.workingDirectory := by
      cases hd : action.workingDirectory
      cases hd' : action'.workingDirectory
      rw [hd, hd'] at h₄
      simpa using h₄
    simp only [mk.injEq]
    exact ⟨h₁, h₂, h₃, hpt, h₅, h₆, h₇, trivial, h₉, h₁₀, h₁₁⟩
  · rintro ⟨hr, hpl⟩
    simp only [mk.injEq] at hr
    obtain ⟨h₁, h₂, h₃, h₄, h₅, h₆, h₇, -, h₉, h₁₀, h₁₁⟩ := hr
    rw [stream, stream, h₁, h₂, h₃, h₄, h₅, h₆, h₇, hpl, h₉, h₁₀, h₁₁]

theorem sortedPlugins_eq_iff {action act' : ActionDescriptorV1} (h : action.Bounded) :
    action.sortedPlugins = act'.sortedPlugins ↔ action.plugins.Perm act'.plugins := by
  constructor
  · intro he
    have hp := act'.sortedPlugins_perm
    rw [← he] at hp
    exact action.sortedPlugins_perm.symm.trans hp
  intro hp
  let before : PluginIdentity → PluginIdentity → Prop := fun left right => left.name ≤ right.name
  have : Std.Total before := ⟨fun left right => le_total left.name right.name⟩
  have : IsTrans PluginIdentity before := ⟨fun _ _ _ ha hb => le_trans (α := String) ha hb⟩
  have hs : action.sortedPlugins.Pairwise before := pairwise_insertionSort before action.plugins
  have hs' : act'.sortedPlugins.Pairwise before := pairwise_insertionSort before act'.plugins
  refine List.Perm.eq_of_pairwise ?_ hs hs' ?_
  · intro left right hl hr hle hg
    have hm := action.sortedPlugins_perm.mem_iff.mp hl
    have hm' := hp.mem_iff.mpr (act'.sortedPlugins_perm.mem_iff.mp hr)
    exact inj_on_of_nodup_map h.distinct hm hm' (le_antisymm (α := String) hle hg)
  · exact action.sortedPlugins_perm.trans (hp.trans act'.sortedPlugins_perm.symm)

/-- Accepted descriptors are hashed from the same bytes only if they are the
same action. -/
theorem encoding_eq_iff (action action' : ActionDescriptorV1) (h : action.validate = .ok ())
    (h' : action'.validate = .ok ()) :
    action.encoding = action'.encoding ↔ action.SameAction action' := by
  have hbounded := bounded_of_validate h
  have hbounded' := bounded_of_validate h'
  rw [encoding_eq, encoding_eq, append_cancel_left_eq, stream_eq_iff hbounded hbounded']
  constructor
  · intro hfields
    exact ⟨hfields.rest, (sortedPlugins_eq_iff hbounded).mp hfields.plugins⟩
  · intro hsame
    exact ⟨hsame.1, (sortedPlugins_eq_iff hbounded).mpr hsame.2⟩

def sampleDigest (algorithm : DigestAlgorithm) : Digest := ⟨algorithm, Vector.replicate 32 7, 12⟩

def sampleAction (first second : String) : ActionDescriptorV1 where
  keyFormat := 1
  taskDefinition := sampleDigest .blake3
  inputRoot := sampleDigest .blake3
  workingDirectory := .root
  vars := sampleDigest .blake3
  environment := sampleDigest .blake3
  runtime := .oci .linux .arm64 (sampleDigest .sha256)
  plugins := [⟨first, "1", 1, sampleDigest .sha256⟩, ⟨second, "1", 1, sampleDigest .sha256⟩]
  arguments := ["--fast"]
  timeout := some ⟨3, 0, by decide⟩
  salt := none

theorem encoding_eq_iff_shell_tpl :
    (sampleAction "shell" "tpl").encoding = (sampleAction "tpl" "shell").encoding ∧
      (sampleAction "shell" "tpl").encoding ≠ (sampleAction "shell" "junit").encoding := by
  have hvalid : (sampleAction "shell" "tpl").validate = .ok () := by decide +kernel
  have hvalid' : (sampleAction "tpl" "shell").validate = .ok () := by decide +kernel
  have hvalid'' : (sampleAction "shell" "junit").validate = .ok () := by decide +kernel
  constructor
  · apply (encoding_eq_iff _ _ hvalid hvalid').mpr
    exact ⟨rfl, List.Perm.swap _ _ _⟩
  intro heq
  have hperm := ((encoding_eq_iff _ _ hvalid hvalid'').mp heq).2
  have hnames := (hperm.map PluginIdentity.name).mem_iff (a := "tpl")
  revert hnames
  decide +kernel

end ActionDescriptorV1

end Octa.Cache
