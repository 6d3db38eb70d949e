import Octa.Output.ByteStream

/-!
# Prefixed console output

The prefixed renderer puts a scope's marker before each line of a command's
output.  It remembers, for each command and stream, whether the next byte begins
a line.
-/

namespace Octa.Output

open List

structure ConsoleScope where
  id : ℕ
  linePrefix : List Char

def ConsoleScope.marker (scope : ConsoleScope) : Bytes :=
  Utf8.encode ('[' :: scope.linePrefix ++ [']', ' '])

inductive ConsolePayload where
  | line (line : List Char)
  | bytes (bytes : Bytes)

/-- The records that the renderer tells apart. -/
inductive ConsoleRecord where
  | output (runId : ℕ) (scope : Option ConsoleScope) (stepId : Option ℕ) (commandId : String)
      (stream : ConsoleStream) (payload : ConsolePayload)
  | scopeFinished (runId : ℕ) (scope : ConsoleScope)
  | other

structure LineKey where
  runId : ℕ
  scopeId : ℕ
  stream : ConsoleStream
  commandId : String
  deriving DecidableEq

structure PrefixState where
  marker : Bytes
  atLineStart : Bool

abbrev LineStates := LineKey → Option PrefixState

def newline : UInt8 := 10

def lineState (states : LineStates) (key : LineKey) (scope : ConsoleScope) : PrefixState :=
  (states key).getD ⟨scope.marker, true⟩

def resetLine (states : LineStates) (key : LineKey) : LineStates :=
  Function.update states key
    ((states key).map fun state => { state with atLineStart := true })

def prefixedBytes (state : PrefixState) : Bytes → PrefixState × Bytes
  | [] => (state, [])
  | byte :: bytes =>
    let marker := if state.atLineStart then state.marker else []
    let (state, output) := prefixedBytes { state with atLineStart := byte == newline } bytes
    (state, marker ++ byte :: output)

/-- The new line states, and the record that the wrapped renderer is given. -/
def render (states : LineStates) : ConsoleRecord → LineStates × ConsoleRecord
  | .output run (some scope) step command stream (.line line) =>
    (resetLine states ⟨run, scope.id, stream, command⟩,
      .output run (some scope) step command stream
        (.line ('[' :: scope.linePrefix ++ ']' :: ' ' :: line)))
  | .output run (some scope) step command stream (.bytes bytes) =>
    let key := ⟨run, scope.id, stream, command⟩
    let (state, bytes) := prefixedBytes (lineState states key scope) bytes
    (Function.update states key (some state),
      .output run (some scope) step command stream (.bytes bytes))
  | .scopeFinished run scope =>
    (fun key => if key.runId = run ∧ key.scopeId = scope.id then none else states key,
      .scopeFinished run scope)
  | record => (states, record)

def renderAll (states : LineStates) : List ConsoleRecord → List ConsoleRecord
  | [] => []
  | record :: records =>
    (render states record).2 :: renderAll (render states record).1 records

/-! ## One command's bytes -/

def bytesOf (key : LineKey) : ConsoleRecord → Bytes
  | .output run (some scope) _ command stream (.bytes bytes) =>
    if key = ⟨run, scope.id, stream, command⟩ then bytes else []
  | _ => []

/-- The bytes with the marker before each one that follows a line feed. -/
def markLines (marker : Bytes) (previous : UInt8) (bytes : Bytes) : Bytes :=
  ((previous :: bytes).zip bytes).flatMap fun (previous, byte) =>
    if previous = newline then marker ++ [byte] else [byte]

/-- The record leaves the scope of `key` open and, when it is an output of `key`, is a chunk
of bytes under the given prefix. -/
def Chunked (key : LineKey) (linePrefix : List Char) : ConsoleRecord → Prop
  | .output run (some scope) _ command stream payload =>
    key = ⟨run, scope.id, stream, command⟩ →
      scope.linePrefix = linePrefix ∧ ∃ bytes, payload = .bytes bytes
  | .scopeFinished run scope => ¬(key.runId = run ∧ key.scopeId = scope.id)
  | _ => True

variable {marker : Bytes} {previous : UInt8} {key : LineKey} {states : LineStates}

theorem markLines_cons (byte : UInt8) (bytes : Bytes) : markLines marker previous (byte :: bytes) =
      (if previous == newline then marker else []) ++ byte :: markLines marker byte bytes := by
  by_cases h : previous = newline <;> simp [markLines, h]

theorem markLines_append (a b : Bytes) : markLines marker previous (a ++ b) =
      markLines marker previous a ++ markLines marker (a.getLastD previous) b := by
  induction a generalizing previous with
  | nil => simp [markLines]
  | cons byte a ih => rw [cons_append, markLines_cons, markLines_cons, ih, getLastD_cons,
      append_assoc, cons_append]

theorem prefixedBytes_eq (bytes : Bytes) : prefixedBytes ⟨marker, previous == newline⟩ bytes =
      (⟨marker, bytes.getLastD previous == newline⟩, markLines marker previous bytes) := by
  induction bytes generalizing previous with
  | nil => simp [prefixedBytes, markLines]
  | cons byte bytes ih => simp only [prefixedBytes, ih, markLines_cons, getLastD_cons]

theorem render_step {scope : ConsoleScope} {record : ConsoleRecord}
    (h : Chunked key scope.linePrefix record)
    (hs : lineState states key scope = ⟨scope.marker, previous == newline⟩) :
    bytesOf key (render states record).2 = markLines scope.marker previous (bytesOf key record) ∧
      lineState (render states record).1 key scope =
        ⟨scope.marker, (bytesOf key record).getLastD previous == newline⟩ := by
  cases record with
  | other => exact ⟨by simp [render, bytesOf, markLines], hs⟩
  | scopeFinished run sc =>
    exact ⟨by simp [render, bytesOf, markLines],
      by simpa [render, bytesOf, lineState, if_neg h] using hs⟩
  | output run sc step command stream payload =>
    cases sc with
    | none => exact ⟨by simp [render, bytesOf, markLines], hs⟩
    | some sc =>
      by_cases hk : key = ⟨run, sc.id, stream, command⟩
      · obtain ⟨hl, bytes, rfl⟩ := h hk
        have hm : lineState states key sc = lineState states key scope := by
          rw [lineState, lineState, ConsoleScope.marker, ConsoleScope.marker, hl]
        rw [hs, hk] at hm
        simp only [render, bytesOf, hk, hm, prefixedBytes_eq, if_true]
        simp [lineState]
      cases payload with
      | line line => exact ⟨by simp [render, bytesOf, markLines],
          by simpa [render, bytesOf, resetLine, lineState, hk] using hs⟩
      | bytes bytes => exact ⟨by simp [render, bytesOf, markLines, hk],
          by simpa [render, bytesOf, lineState, hk] using hs⟩

theorem renderAll_bytesOf {scope : ConsoleScope} {records : List ConsoleRecord}
    (h : ∀ record ∈ records, Chunked key scope.linePrefix record)
    (hs : lineState states key scope = ⟨scope.marker, previous == newline⟩) :
    (renderAll states records).flatMap (bytesOf key) = markLines scope.marker previous
        (records.flatMap (bytesOf key)) := by
  induction records generalizing states previous with
  | nil => simp [renderAll, markLines]
  | cons record records ih =>
    obtain ⟨hb, hs⟩ := render_step (h record mem_cons_self) hs
    rw [renderAll, flatMap_cons, flatMap_cons, markLines_append, hb,
      ih (fun r hr => h r (mem_cons_of_mem _ hr)) hs]

/-- The bytes shown for a command are its own bytes with its scope's marker before each line,
however the output of all commands is cut and interleaved. -/
theorem prefixing_chunk_independent (key : LineKey) (scope : ConsoleScope)
    (records : List ConsoleRecord) (h : ∀ record ∈ records, Chunked key scope.linePrefix record) :
    (renderAll (fun _ => none) records).flatMap (bytesOf key) = markLines scope.marker newline
        (records.flatMap (bytesOf key)) :=
  renderAll_bytesOf h rfl

def sampleChunk (command : String) (bytes : Bytes) : ConsoleRecord :=
  .output 1 (some ⟨7, ['p']⟩) none command .stdout (.bytes bytes)

theorem prefixing_interleaved_chunks :
    (renderAll (fun _ => none) [sampleChunk "a" [65, 10], sampleChunk "b" [10],
      sampleChunk "a" [66], sampleChunk "a" [67]]).flatMap (bytesOf ⟨1, 7, .stdout, "a"⟩) =
      markLines (ConsoleScope.marker ⟨7, ['p']⟩) newline [65, 10, 66, 67] :=
  prefixing_chunk_independent _ ⟨7, ['p']⟩ _ (by simp [sampleChunk, Chunked])

end Octa.Output
