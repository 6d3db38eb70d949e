import Octa.LocalStore.Object
import Octa.ResultCache.Publication
import Octa.Task.Dependencies

/-!
# The stored form of a captured result

A result is published with checked paths and sorted outputs, and a hit turns it
back into what the commands of the invocation have reported.
-/

namespace Octa.ResultCache

open Octa.Cache Octa.Task Octa.LocalStore Fallible List
open TaskOutputs hiding insert

variable {υ : Type}

structure CachedArtifact where
  name : String
  path : RelativePath
  contentType : Option String

structure CachedReport where
  name : String
  path : RelativePath
  format : String

def actionResultVersionV1 : UInt16 := 1

def maxActionResultMetadataBytes : ℕ := 4 * 1024 * 1024

def maxActionResultWireBytes : ℕ := maxActionResultMetadataBytes + 64 * 1024

structure ActionResultV1 (υ : Type) where
  resultVersion : UInt16
  action : Digest
  outputBundle : Option BlobDescriptor
  stdout : Option String
  taskOutputs : OrderedMap String υ
  artifacts : List CachedArtifact
  reports : List CachedReport

/-- What the validation reads of JSON: the null value, and the lengths of the two encodings. -/
structure ResultJson (υ : Type) where
  isNull : υ → Bool
  metadataBytes : ActionResultV1 υ → ℕ
  wireBytes : ActionResultV1 υ → ℕ

def validateResultString (kind value : String) : Except CacheProtocolError Unit :=
  if value.isEmpty then .error (.result s!"{kind} must not be empty")
  else if value.utf8ByteSize > maxCacheStringBytes then
    .error (.result s!"{kind} exceeds {maxCacheStringBytes} UTF-8 bytes")
  else if value.toList.any isControl then
    .error (.result s!"{kind} must not contain control characters")
  else .ok ()

def measureJson (bytes maximum : ℕ) (kind : String) : Except CacheProtocolError Unit :=
  if bytes > maximum then .error (.result s!"{kind} exceeds {maximum} bytes") else .ok ()

def CachedArtifact.validate (artifact : CachedArtifact) : Except CacheProtocolError Unit := do
  validateResultString "artifact name" artifact.name
  if artifact.path.isRoot then
    throw (.result "artifact path must not be the workspace root")
  if let some contentType := artifact.contentType then
    validateResultString "artifact content type" contentType

def CachedReport.validate (report : CachedReport) : Except CacheProtocolError Unit := do
  validateResultString "report name" report.name
  validateResultString "report format" report.format
  if report.path.isRoot then
    throw (.result "report path must not be the workspace root")

def ActionResultV1.validate (json : ResultJson υ) (result : ActionResultV1 υ) :
    Except CacheProtocolError Unit := do
  if result.resultVersion ≠ actionResultVersionV1 then
    throw (.result s!"unsupported result version {result.resultVersion}")
  if result.action.algorithm ≠ .blake3 then
    throw (.result "action identity must use BLAKE3")
  match result.outputBundle with
  | some outputBundle => outputBundle.validate
  | none =>
    if result.artifacts ≠ [] ∨ result.reports ≠ [] then
      throw (.result "artifacts and reports require an output bundle")
  if result.artifacts.length > maxCacheListItems ∨ result.reports.length > maxCacheListItems then
    throw (.result s!"artifact and report lists are limited to {maxCacheListItems} items")
  if result.stdout.any fun value => value.utf8ByteSize > maxActionResultMetadataBytes then
    throw (.result s!"stdout exceeds {maxActionResultMetadataBytes} UTF-8 bytes")
  for (name, value) in result.taskOutputs.entries do
    validateResultString "task output name" name
    if json.isNull value then
      throw (.result s!"task output '{name}' must contain a concrete public value")
  for artifact in result.artifacts do artifact.validate
  for report in result.reports do report.validate
  measureJson (json.metadataBytes result) maxActionResultMetadataBytes "result metadata"
  measureJson (json.wireBytes result) maxActionResultWireBytes "action result"

def CachedArtifact.of (artifact : RegisteredArtifact) : Except CacheProtocolError CachedArtifact :=
  (RelativePath.new artifact.path).map fun path => ⟨artifact.name, path, artifact.contentType⟩

def CachedArtifact.registered (artifact : CachedArtifact) : RegisteredArtifact :=
  ⟨artifact.name, artifact.path.value, artifact.contentType⟩

def CachedReport.of (report : RegisteredReport) : Except CacheProtocolError CachedReport :=
  (RelativePath.new report.path).map fun path => ⟨report.name, path, report.format⟩

def CachedReport.registered (report : CachedReport) : RegisteredReport :=
  ⟨report.name, report.path.value, report.format⟩

def sortedOutputs (outputs : TaskOutputs υ) : OrderedMap String υ :=
  outputs.publicValues.foldl (fun map output => map.insert output.1 output.2) .empty

def CapturedResult.actionResult (json : ResultJson υ) (action : Digest)
    (outputBundle : Option BlobDescriptor) (captured : CapturedResult υ) :
      Except CacheProtocolError (ActionResultV1 υ) := do
  let artifacts ← captured.outputs.artifacts.mapM CachedArtifact.of
  let reports ← captured.outputs.reports.mapM CachedReport.of
  let result :=
    { resultVersion := actionResultVersionV1
      action := action
      outputBundle := outputBundle
      stdout := some captured.stdout
      taskOutputs := sortedOutputs captured.outputs.task
      artifacts := artifacts
      reports := reports }
  result.validate json
  return result

/-- The result as the lookup and the finalizer see it. -/
def ActionResultV1.stored (result : ActionResultV1 υ) : ActionResult Digest υ where
  action := result.action
  outputBundle := result.outputBundle.map BlobDescriptor.digest
  stdout := result.stdout
  taskOutputs := result.taskOutputs.entries
  artifacts := result.artifacts.map CachedArtifact.registered
  reports := result.reports.map CachedReport.registered

def ActionResultV1.cachedResult (result : ActionResultV1 υ) : CapturedResult υ :=
  ResultCache.cachedResult result.stored

structure CapturedResult.Same (a b : CapturedResult υ) : Prop where
  stdout : a.stdout = b.stdout
  step : a.outputs.step = b.outputs.step
  task : a.outputs.task.Same b.outputs.task
  artifacts : a.outputs.artifacts = b.outputs.artifacts
  reports : a.outputs.reports = b.outputs.reports

/-! ## The way back -/

theorem value_of_new {value : String} {path : RelativePath}
    (h : RelativePath.new value = .ok path) :
    path.value = value := by
  unfold RelativePath.new at h
  split at h
  · obtain rfl := Except.ok.inj h
    rfl
  · cases h

theorem registered_of_artifact {artifact : RegisteredArtifact} {cached : CachedArtifact}
    (h : CachedArtifact.of artifact = .ok cached) : cached.registered = artifact := by
  cases hp : RelativePath.new artifact.path with
  | error error => rw [CachedArtifact.of, hp] at h; cases h
  | ok path =>
    rw [CachedArtifact.of, hp] at h
    obtain rfl := Except.ok.inj h
    simp only [CachedArtifact.registered, value_of_new hp]

theorem registered_of_report {report : RegisteredReport} {cached : CachedReport}
    (h : CachedReport.of report = .ok cached) : cached.registered = report := by
  cases hp : RelativePath.new report.path with
  | error error => rw [CachedReport.of, hp] at h; cases h
  | ok path =>
    rw [CachedReport.of, hp] at h
    obtain rfl := Except.ok.inj h
    simp only [CachedReport.registered, value_of_new hp]

theorem nodup_publicValues (outputs : TaskOutputs υ) :
    (outputs.publicValues.map Prod.fst).Nodup := by
  rw [publicValues, map_map]
  exact outputs.distinct.sublist (filter_sublist.map _)

theorem same_task_of_public {outputs : TaskOutputs υ} (hpublic : outputs.secretNames = []) :
    ((sortedOutputs outputs).entries.foldl (fun task output =>
      task.insert ⟨output.1, output.2, false⟩) TaskOutputs.empty).Same outputs := by
  intro e
  rw [← foldl_map (f := fun output : String × υ => (⟨output.1, output.2, false⟩ : TaskOutput υ)),
    mem_foldl_insert]
  · simp only [sortedOutputs, mem_map, OrderedMap.mem_foldl_insert (nodup_publicValues outputs)]
    simp only [empty, OrderedMap.empty, not_mem_nil, false_and, or_false,
      publicValues, mem_map, mem_filter]
    constructor
    · rintro ⟨_, ⟨other, ⟨hm, hs⟩, rfl⟩, rfl⟩
      rw [Bool.not_eq_true'] at hs
      rwa [← hs]
    intro hm
    have hs := secretNames_eq_nil_iff.mp hpublic e hm
    exact ⟨_, ⟨e, ⟨hm, by rw [hs]; rfl⟩, rfl⟩, by rw [← hs]⟩
  · rw [map_map]
    exact pairwise_map.mpr ((OrderedMap.sorted _).imp fun hl => hl.ne)

section

variable {json : ResultJson υ} {action : Digest} {bundle : Option BlobDescriptor}
  {captured : CapturedResult υ} {result : ActionResultV1 υ}

/-- What is encoded is the result of the finalizer, with sorted outputs. -/
theorem stored_of_actionResult (h : captured.actionResult json action bundle = .ok result) :
    result.stored =
      { ResultCache.actionResult action (bundle.map BlobDescriptor.digest) captured with
        taskOutputs := (sortedOutputs captured.outputs.task).entries } := by
  obtain ⟨artifacts, hartifacts, h⟩ := bind_eq_ok h
  obtain ⟨reports, hreports, h⟩ := bind_eq_ok h
  obtain ⟨-, -, h⟩ := bind_eq_ok h
  obtain rfl := Except.ok.inj h
  simp only [ActionResultV1.stored, ResultCache.actionResult,
    map_eq_of_mapM (fun _ _ => registered_of_artifact) hartifacts,
    map_eq_of_mapM (fun _ _ => registered_of_report) hreports]

theorem cachedResult_of_actionResult (hstep : captured.outputs.step = [])
    (hpublic : captured.outputs.task.secretNames = [])
    (h : captured.actionResult json action bundle = .ok result) :
    result.cachedResult.Same captured := by
  rw [ActionResultV1.cachedResult, stored_of_actionResult h]
  exact ⟨rfl, hstep.symm, same_task_of_public hpublic, rfl, rfl⟩

end

theorem mem_of_mem_foldl_extend {ress : List (TaskOutputs υ)} {start : TaskOutputs υ}
    {e : TaskOutput υ} (h : e ∈ (ress.foldl extend start).entries) :
    e ∈ start.entries ∨ ∃ result ∈ ress, e ∈ result.entries := by
  induction ress generalizing start with
  | nil => exact .inl h
  | cons first rest ih =>
    obtain he | ⟨result, hm, he⟩ := ih h
    · rcases (mem_foldl_insert first.distinct).mp he with hn | ⟨ho, -⟩
      · exact .inr ⟨first, mem_cons_self, hn⟩
      · exact .inl ho
    · exact .inr ⟨result, mem_cons_of_mem _ hm, he⟩

/-! ## The records of an invocation -/

inductive Record (υ : Type) where
  | command (position : ℕ) (captured : CapturedResult υ)
  | resources (outputs : CompletionOutputs υ)

namespace Record

/-- The position of a command; the resources are registered by one node. -/
def slot : Record υ → Option ℕ
  | command position _ => some position
  | resources _ => none

def outputs : Record υ → CompletionOutputs υ
  | command _ captured => captured.outputs
  | resources outputs => outputs

end Record

variable {δ : Type}

namespace CacheState

def record (s : CacheState δ υ) : Record υ → CacheState δ υ
  | .command position captured => s.recordCommand position captured.stdout captured.outputs
  | .resources outputs => s.recordResources outputs

def captured (s : CacheState δ υ) : CapturedResult υ := aggregate s.captures s.resources

theorem record_comm (s : CacheState δ υ) {first second : Record υ} (h : first.slot ≠ second.slot) :
    (s.record first).record second = (s.record second).record first := by
  cases first with
  | command position captured =>
    cases second with
    | command position' captured' =>
      have hp : position ≠ position' := fun he => h (congrArg some he)
      simp only [record, recordCommand, OrderedMap.insert_comm s.captures hp]
    | resources outputs => rfl
  | resources outputs =>
    cases second with
    | command position captured => rfl
    | resources outs' => exact absurd rfl h

theorem foldl_record_perm {recs others : List (Record υ)} (hperm : recs.Perm others)
    (hsl : (recs.map Record.slot).Nodup) (s : CacheState δ υ) :
    recs.foldl record s = others.foldl record s := by
  refine hperm.foldl_eq' (fun first hf second hse s => ?_) s
  by_cases hs : first.slot = second.slot
  · rw [inj_on_of_nodup_map hsl hf hse hs]
  · exact s.record_comm hs

variable {s : CacheState δ υ}

def Keeps (s : CacheState δ υ) : Record υ → Prop
  | .command position captured => (position, captured) ∈ s.captures.entries
  | .resources outputs => s.resources = some outputs

theorem keeps_record {first record : Record υ} :
    (s.record first).Keeps record ↔ record = first ∨ s.Keeps record ∧ record.slot ≠ first.slot := by
  cases first with
  | command => cases record <;> simp [CacheState.record, Keeps, recordCommand,
      OrderedMap.mem_insert, Record.slot]
  | resources => cases record <;> simp [CacheState.record, Keeps, recordResources,
      Record.slot, eq_comm]

theorem keeps_foldl_record {records : List (Record υ)} {record : Record υ}
    (hslots : (records.map Record.slot).Nodup) :
    (records.foldl CacheState.record s).Keeps record ↔
      record ∈ records ∨ s.Keeps record ∧ record.slot ∉ records.map Record.slot := by
  induction records generalizing s with
  | nil => simp
  | cons first rest ih =>
    obtain ⟨hfirst, hslots⟩ := nodup_cons.mp hslots
    rw [foldl_cons, ih hslots, keeps_record, map_cons, mem_cons, mem_cons, not_or]
    constructor
    · rintro (hrest | ⟨rfl | ⟨hkeeps, hne⟩, hlater⟩)
      · exact .inl (.inr hrest)
      · exact .inl (.inl rfl)
      · exact .inr ⟨hkeeps, hne, hlater⟩
    · rintro ((rfl | hrest) | ⟨hkeeps, hne, hlater⟩)
      · exact .inr ⟨.inl rfl, hfirst⟩
      · exact .inl hrest
      · exact .inr ⟨.inr ⟨hkeeps, hne⟩, hlater⟩

theorem secretNames_captured
    (h : ∀ record, s.Keeps record → record.outputs.task.secretNames = []) :
    s.captured.outputs.task.secretNames = [] := by
  rw [secretNames_eq_nil_iff]
  intro e he
  obtain hem | ⟨task, ht, he⟩ := mem_of_mem_foldl_extend he
  · cases hem
  obtain ⟨outputs, ho, rfl⟩ := mem_map.mp ht
  refine secretNames_eq_nil_iff.mp ?_ e he
  rcases mem_append.mp ho with hc | hr
  · obtain ⟨captured, hca, rfl⟩ := mem_map.mp hc
    obtain ⟨⟨position, captured⟩, hm, rfl⟩ := mem_map.mp hca
    exact h (.command position captured) hm
  · exact h (.resources outputs) (Option.mem_toList.mp hr)

end CacheState

/-- The state of an invocation whose nodes have completed in the given order. -/
def recorded (records : List (Record υ)) : CacheState Digest υ :=
  records.foldl CacheState.record .init

/-- An invocation keeps exactly what its nodes have recorded. -/
theorem keeps_recorded {records : List (Record υ)} {record : Record υ}
    (hslots : (records.map Record.slot).Nodup) :
    (recorded records).Keeps record ↔ record ∈ records := by
  refine (CacheState.keeps_foldl_record hslots).trans (or_iff_left ?_)
  rintro ⟨hkeeps, -⟩
  cases record <;> cases hkeeps

/-- A hit returns what the miss has captured, whatever the order in which the
nodes of the miss have completed. -/
theorem hit_replays_miss (json : ResultJson υ) (records : List (Record υ))
    (hslots : (records.map Record.slot).Nodup)
    (hpublic : ∀ record ∈ records, record.outputs.task.secretNames = []) (action : Digest)
    (bundle : Option BlobDescriptor) (result : ActionResultV1 υ)
    (h : (recorded records).captured.actionResult json action bundle = .ok result) :
    result.cachedResult.Same (recorded records).captured ∧
      ∀ others, records.Perm others → (recorded others).captured = (recorded records).captured := by
  refine ⟨cachedResult_of_actionResult rfl ?_ h, fun others hperm => ?_⟩
  · refine CacheState.secretNames_captured fun record hkeeps => hpublic record ?_
    exact (keeps_recorded hslots).mp hkeeps
  · rw [recorded, recorded, CacheState.foldl_record_perm hperm hslots]

/-- Two commands that complete in reverse order, and a registered artifact. -/
def sampleRecords : List (Record ℕ) :=
  [.command 1 ⟨"b", ⟨[], TaskOutputs.empty.insert ⟨"x", 1, false⟩, [], []⟩⟩,
    .command 0 ⟨"a", .empty⟩, .resources ⟨[], .empty, [⟨"app", "dist/app", none⟩], []⟩]

def sampleResult : Except CacheProtocolError (ActionResultV1 ℕ) :=
  (recorded sampleRecords).captured.actionResult ⟨fun _ => false, fun _ => 0, fun _ => 0⟩
    (ActionDescriptorV1.sampleDigest .blake3)
      (some ⟨ActionDescriptorV1.sampleDigest .blake3, .identity, 12, 12, 1⟩)

theorem hit_replays_miss_sample :
    ∃ result, sampleResult = .ok result ∧ result.cachedResult.stdout = "a\nb" ∧
      result.cachedResult.outputs.artifacts = [⟨"app", "dist/app", none⟩] := by
  have hok : sampleResult.isOk = true := by decide +kernel
  cases h : sampleResult with
  | error error => rw [h] at hok; cases hok
  | ok result =>
    have hsame := hit_replays_miss _ sampleRecords (by decide) (by decide) _ _ result h
    exact ⟨result, rfl, hsame.1.stdout.trans (by decide +kernel),
      hsame.1.artifacts.trans (by decide +kernel)⟩

end Octa.ResultCache
