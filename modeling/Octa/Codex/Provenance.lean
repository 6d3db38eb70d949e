import Mathlib.Data.List.Count
import Octa.Foundation.Fallible

/-!
# Traces and their provenance

A run appends its records to a trace. The digest and the number of records that the provenance of
the run names are kept beside the file.
-/

namespace Octa.Codex

open List

abbrev Bytes := List UInt8

abbrev newline : UInt8 := 10

def maxTraceBytes : ℕ := 16 * 1024 * 1024

/-- The size of the buffer of `tokio::fs::File`. -/
def maxBufSize : ℕ := 2 * 1024 * 1024

inductive CommitStep where
  | sync | removeSchema | writeResult | writeProvenance | publish
  deriving DecidableEq

inductive RecordError where
  | exceeded | write | commit (step : CommitStep)
  deriving DecidableEq

/-! ## The file

A `tokio::fs::File` accepts a buffer at once and writes it in the background; how the write has
ended is what the next call on the file returns. -/

/-- The buffer in flight comes with the number of its bytes that will reach the disk. -/
structure AsyncFile where
  contents : Bytes := []
  inFlight : Option (Bytes × ℕ) := none
  writes : ℕ := 0

namespace AsyncFile

/-- Waits for the write in flight and says whether it went through. -/
def flush (file : AsyncFile) : Bool × AsyncFile :=
  match file.inFlight with
  | none => (true, file)
  | some (buffer, taken) =>
    (decide (buffer.length ≤ taken),
      { file with contents := file.contents ++ buffer.take taken, inFlight := none })

/-- `disk` says how much of which write reaches the disk. -/
def pollWrite (disk : ℕ → ℕ) (file : AsyncFile) (buffer : Bytes) :
    Bool × AsyncFile :=
  match file.flush with
  | (true, file) =>
    (true, { file with inFlight := some (buffer, disk file.writes), writes := file.writes + 1 })
  | failed => failed

/-- Writes at most `n` buffers. -/
def writeBuffers (disk : ℕ → ℕ) : ℕ → AsyncFile → Bytes → Bool × AsyncFile
  | 0, file, _ => (true, file)
  | _ + 1, file, [] => (true, file)
  | n + 1, file, bytes => match file.pollWrite disk (bytes.take maxBufSize) with
    | (true, file) => writeBuffers disk n file (bytes.drop maxBufSize)
    | failed => failed

def writeAll (disk : ℕ → ℕ) (file : AsyncFile) (bytes : Bytes) :
    Bool × AsyncFile :=
  writeBuffers disk bytes.length file bytes

/-- What the calls on the file have accepted. -/
def accepted (file : AsyncFile) : Bytes := file.contents ++ (file.inFlight.map Prod.fst).getD []

theorem contents_flush {file file' : AsyncFile} (h : file.flush = (true, file')) :
    file'.contents = file.accepted := by
  unfold flush at h
  split at h
  · rename_i hidle
    cases h
    simp [accepted, hidle]
  · rename_i buffer taken hbusy
    obtain ⟨hok, rfl⟩ := Prod.mk.inj h
    simp [accepted, hbusy, take_of_length_le (of_decide_eq_true hok)]

theorem accepted_pollWrite {disk : ℕ → ℕ} {file file' : AsyncFile} {buffer : Bytes}
    (h : file.pollWrite disk buffer = (true, file')) :
    file'.accepted = file.accepted ++ buffer := by
  unfold pollWrite at h
  split at h
  · rename_i flushed hflush
    cases h
    rw [← contents_flush hflush]
    rfl
  · rename_i hfailed
    exact absurd h (hfailed file')

theorem accepted_writeBuffers {disk : ℕ → ℕ} {n : ℕ} {file file' : AsyncFile} {bytes : Bytes}
    (hn : bytes.length ≤ n) (h : file.writeBuffers disk n bytes = (true, file')) :
    file'.accepted = file.accepted ++ bytes := by
  induction n generalizing file bytes with
  | zero =>
    cases h
    rw [length_eq_zero_iff.mp (Nat.le_zero.mp hn), append_nil]
  | succ n ih =>
    cases bytes with
    | nil =>
      cases h
      rw [append_nil]
    | cons byte rest =>
      rw [writeBuffers] at h
      · split at h
        · rename_i written hwrite
          have hlength : ((byte :: rest).drop maxBufSize).length ≤ n := by
            simp only [length_drop, length_cons, maxBufSize] at hn ⊢
            omega
          rw [ih hlength h, accepted_pollWrite hwrite, append_assoc, take_append_drop]
        · rename_i hfailed
          exact absurd h (hfailed file')
      · simp

end AsyncFile

/-! ## The trace -/

/-- An append: the JSON text of the record and whether its event ends the run. -/
structure Append where
  text : Bytes
  line : newline ∉ text
  terminal : Bool

/-- The hasher is given by what it was fed. -/
structure TraceWriter where
  file : AsyncFile := {}
  encodedBytes : ℕ := 0
  digest : Bytes := []
  recordCount : ℕ := 0
  terminalObserved : Bool := false

namespace TraceWriter

variable (disk : ℕ → ℕ)

def append (trace : TraceWriter) (call : Append) : Except RecordError Unit × TraceWriter :=
  let encoded := call.text ++ [newline]
  let total := trace.encodedBytes + encoded.length
  if maxTraceBytes < total then (.error .exceeded, trace)
  else match trace.file.writeAll disk encoded with
    | (true, file) => (.ok (), { trace with
        file := file
        encodedBytes := total
        digest := trace.digest ++ encoded
        recordCount := trace.recordCount + 1
        terminalObserved := trace.terminalObserved || call.terminal })
    | (false, file) => (.error .write, { trace with file := file })

/-- The errors that the appends report, and the trace that they leave. -/
def appendAll (trace : TraceWriter) : List Append → List RecordError × TraceWriter
  | [] => ([], trace)
  | call :: calls => match trace.append disk call with
    | (.ok (), trace) => trace.appendAll calls
    | (.error error, trace) =>
      let (errors, trace) := trace.appendAll calls
      (error :: errors, trace)

/-- The bytes of the file when the last write has ended. -/
def finish (trace : TraceWriter) : Except RecordError Bytes :=
  match trace.file.flush with
  | (true, file) => .ok file.contents
  | (false, _) => .error .write

/-- The digest covers what the file has accepted. -/
structure Covered (trace : TraceWriter) : Prop where
  records : trace.recordCount = trace.digest.count newline
  file : trace.file.accepted = trace.digest

variable {disk} {trace : TraceWriter}

theorem Covered.append (h : trace.Covered) (call : Append)
    (hquiet : (trace.append disk call).1 ≠ .error .write) : (trace.append disk call).2.Covered := by
  revert hquiet
  fun_cases TraceWriter.append with
  | case1 => exact fun _ => h
  | case2 encoded total _ file hwrite =>
    refine fun _ => ⟨?_, ?_⟩
    · change trace.recordCount + 1 = (trace.digest ++ (call.text ++ [newline])).count newline
      rw [count_append, count_append, count_eq_zero.mpr call.line, h.records]
      rfl
    · change file.accepted = trace.digest ++ encoded
      rw [AsyncFile.accepted_writeBuffers (Nat.le_refl _) hwrite, h.file]
  | case3 => exact fun hquiet => absurd rfl hquiet

theorem Covered.finish (h : trace.Covered) {bytes : Bytes} (hfinish : trace.finish = .ok bytes) :
    bytes = trace.digest := by
  unfold TraceWriter.finish at hfinish
  split at hfinish
  · rename_i file hflush
    cases hfinish
    rw [AsyncFile.contents_flush hflush, h.file]
  · cases hfinish

theorem Covered.appendAll (h : trace.Covered) {calls : List Append}
    (hquiet : .write ∉ (trace.appendAll disk calls).1) :
    (trace.appendAll disk calls).2.Covered := by
  induction calls generalizing trace with
  | nil => exact h
  | cons call calls ih =>
    have hstep : (trace.append disk call).1 ≠ .error .write → (trace.append disk call).2.Covered :=
      h.append call
    rw [TraceWriter.appendAll] at hquiet ⊢
    split at hquiet
    · rename_i next happend
      rw [happend] at hstep
      exact ih (hstep (by simp)) hquiet
    · rename_i error next happend
      rw [happend] at hstep
      obtain ⟨herror, hquiet⟩ := not_or.mp (mem_cons.not.mp hquiet)
      exact ih (hstep fun heq => herror (Except.error.inj heq).symm) hquiet

end TraceWriter

inductive CaptureStatus where
  | complete | cancelled | failed

structure CaptureMetadata (δ : Type) where
  status : CaptureStatus
  terminalObserved : Bool
  recordCount : ℕ
  traceDigest : δ

/-- The documents of a published directory; of the provenance only what describes the trace. -/
structure Documents (δ ρ : Type) where
  trace : Bytes
  result : Option ρ
  provenance : CaptureMetadata δ

def commitSteps (hasResult : Bool) : List CommitStep :=
  [.sync, .removeSchema] ++ (if hasResult then [.writeResult] else []) ++
    [.writeProvenance, .publish]

section Commit

variable {δ ρ : Type} (hash : Bytes → δ) (io : CommitStep → Bool) (trace : TraceWriter)

def encodeProvenance (status : CaptureStatus) : CaptureMetadata δ :=
  ⟨status, trace.terminalObserved, trace.recordCount, hash trace.digest⟩

def commitDocuments (result : Option ρ) (provenance : CaptureMetadata δ) :
    Except RecordError (Documents δ ρ) := do
  let bytes ← trace.finish
  (commitSteps result.isSome).forM fun step => if io step then .ok () else .error (.commit step)
  return ⟨bytes, result, provenance⟩

/-- The end of a run: a result is committed, a cancellation or an error is recorded. -/
def execute (completion : Except RecordError (Option ρ)) : Except RecordError (Documents δ ρ) :=
  let (result, status) := match completion with
    | .ok (some result) => (some result, .complete)
    | .ok none => (none, .cancelled)
    | .error _ => (none, .failed)
  commitDocuments io trace result (encodeProvenance hash trace status)

end Commit

end Octa.Codex
