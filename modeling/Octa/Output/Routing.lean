import Octa.Output.ByteStream
import Mathlib.Algebra.GroupWithZero.Nat

/-!
# Routing of plugin output

A plugin sends the output of its command as lines or as byte frames.
-/

namespace Octa.Output

open Masking Utf8 List

inductive OutputResponse where
  | line (stream : ConsoleStream) (line : List Char)
  | bytes (stream : ConsoleStream) (bytes : Bytes)

def withoutCarriageReturn (line : List Char) : List Char :=
  if line.getLast? = some '\r' then line.dropLast else line

def withoutLineEnding (line : List Char) : List Char :=
  withoutCarriageReturn (if line.getLast? = some '\n' then line.dropLast else line)

structure StreamTexts where
  stdout : Bytes
  stderr : Bytes

namespace StreamTexts

def empty : StreamTexts :=
  ⟨[], []⟩

def get (texts : StreamTexts) : ConsoleStream → Bytes
  | .stdout => texts.stdout
  | .stderr => texts.stderr

def append (texts : StreamTexts) (bytes : Bytes) : ConsoleStream → StreamTexts
  | .stdout => { texts with stdout := texts.stdout ++ bytes }
  | .stderr => { texts with stderr := texts.stderr ++ bytes }

end StreamTexts

inductive CaptureError where
  | limitExceeded

structure OutputCapture where
  texts : StreamTexts
  bytes : ℕ
  maxBytes : ℕ

def OutputCapture.appendParts (capture : OutputCapture) (stream : ConsoleStream)
    (parts : List Bytes) : Except CaptureError OutputCapture :=
  let next := capture.bytes + (parts.map List.length).sum
  if capture.maxBytes < next then .error .limitExceeded
  else .ok { capture with texts := capture.texts.append parts.flatten stream, bytes := next }

inductive RoutingError where
  | pluginOutputTooLarge (plugin : String) (limitMib : ℕ)

def captureError (plugin : String) (maxBytes : ℕ) : CaptureError → RoutingError
  | .limitExceeded => .pluginOutputTooLarge plugin (maxBytes / (1024 * 1024))

/-- Where the output of a command is shown: in a raw session, or through a target that may
hide a stream. -/
structure OutputRoute where
  rawSession : Bool
  target : Option (ConsoleStream → Bool)

def OutputRoute.shows (route : OutputRoute) (stream : ConsoleStream) : Bool :=
  match route.target with
  | some hides => !hides stream
  | none => route.rawSession

structure RoutingState where
  redactor : OutputRedactor
  capture : OutputCapture
  console : StreamTexts

structure Routing where
  isAlphanumeric : Char → Bool
  plugin : String
  route : OutputRoute
  maxBytes : ℕ
  redactions : List Redaction

namespace Routing

variable (routing : Routing)

def start : RoutingState where
  redactor := OutputRedactor.new routing.redactions
  capture := { texts := .empty, bytes := 0, maxBytes := routing.maxBytes }
  console := .empty

def write (console : StreamTexts) (stream : ConsoleStream) (bytes : Bytes) : StreamTexts :=
  if routing.route.shows stream then console.append bytes stream else console

def captureBytes (s : RoutingState) (stream : ConsoleStream) (bytes : Bytes) :
    RoutingState × Option RoutingError :=
  match s.capture.appendParts stream [bytes] with
  | .error error => (s, some (captureError routing.plugin routing.maxBytes error))
  | .ok capture => ({ s with capture, console := routing.write s.console stream bytes }, none)

def routePluginResponse (s : RoutingState) : OutputResponse → RoutingState × Option RoutingError
  | .line stream line =>
    if s.redactor.hasPending stream then
      let (first, redactor) := s.redactor.push stream (encode (withoutLineEnding line) ++ [10])
      let (last, redactor) := redactor.finish stream
      routing.captureBytes { s with redactor } stream (first ++ last)
    else
      let line := redact routing.isAlphanumeric (withoutLineEnding line) routing.redactions
      -- the console shows the line before the capture can refuse it
      let s := { s with console := routing.write s.console stream (encode line ++ [10]) }
      match s.capture.appendParts stream [encode line, [10]] with
      | .error error => (s, some (captureError routing.plugin routing.maxBytes error))
      | .ok capture => ({ s with capture }, none)
  | .bytes stream bytes =>
    let (bytes, redactor) := s.redactor.push stream bytes
    if bytes = [] then ({ s with redactor }, none)
    else routing.captureBytes { s with redactor } stream bytes

def flushStream (s : RoutingState) (stream : ConsoleStream) : RoutingState × Option RoutingError :=
  let (bytes, redactor) := s.redactor.finish stream
  if bytes = [] then ({ s with redactor }, none)
  else routing.captureBytes { s with redactor } stream bytes

def flushRedactedBytes (s : RoutingState) : RoutingState × Option RoutingError :=
  match routing.flushStream s .stdout with
  | (s, none) => routing.flushStream s .stderr
  | (s, some error) => (s, some error)

/-- The responses of a command up to its completion or the first error. -/
def routeAll : RoutingState → List OutputResponse → RoutingState × Option RoutingError
  | s, [] => routing.flushRedactedBytes s
  | s, response :: responses =>
    match routing.routePluginResponse s response with
    | (s, none) => routeAll s responses
    | (s, some error) => (s, some error)

/-- The state in which the line responses of a command leave the output. -/
def routeLines (lines : List (ConsoleStream × List Char)) : RoutingState :=
  (routing.routeAll routing.start (lines.map fun (stream, line) => .line stream line)).1

end Routing

/-! ### Lines and the texts they are joined to -/

def Reveals (redactions : List Redaction) (text : List Char) : Prop :=
  ∃ redaction ∈ redactions, redaction.value <:+: text

def joinLines (lines : List (List Char)) : List Char :=
  lines.flatMap fun line => line ++ ['\n']

section Lines

variable {redactions : List Redaction}
variable {lines : List (List Char)}

theorem not_reveals_redact (hpl : ∀ red ∈ redactions, red.Plain) (isAlphanumeric : Char → Bool)
    (line : List Char) : ¬ Reveals redactions (redact isAlphanumeric line redactions) := by
  rintro ⟨red, hm, hw⟩
  rw [redact_eq_replaceEach fun secret hs => (hpl secret hs).substring] at hw
  have hv := mem_orderedValues.mpr ⟨(hpl red hm).ne_nil, red, hm, rfl⟩
  exact not_infix_replaceEach 4 nil_notMem_orderedValues hv (hpl red hm).star_notMem line hw

variable {line piece : List Char}

theorem redact_eq_self (hpl : ∀ red ∈ redactions, red.Plain) (isAlphanumeric : Char → Bool)
    (h : ¬ Reveals redactions line) : redact isAlphanumeric line redactions = line := by
  rw [redact_eq_replaceEach fun secret hs => (hpl secret hs).substring]
  apply replaceEach_eq_self
  intro val hv hw
  obtain ⟨-, secret, hs, rfl⟩ := mem_orderedValues.mp hv
  exact h ⟨secret, hs, hw⟩

theorem withoutLineEnding_append (line : List Char) :
    withoutLineEnding (line ++ ['\r', '\n']) = line := by
  have hl : (line ++ ['\r', '\n']).getLast? = some '\n' := by simp
  have hd : (line ++ ['\r', '\n']).dropLast = line ++ ['\r'] := by simp
  rw [withoutLineEnding, if_pos hl, hd, withoutCarriageReturn, if_pos (by simp)]
  exact dropLast_concat

theorem joinLines_append (lines rest : List (List Char)) :
    joinLines (lines ++ rest) = joinLines lines ++ joinLines rest :=
  flatMap_append

theorem joinLines_singleton (line : List Char) : joinLines [line] = line ++ ['\n'] := append_nil _

theorem exists_line_of_infix (hne : piece ≠ []) (hnw : '\n' ∉ piece)
    (h : piece <:+: joinLines lines) : ∃ line ∈ lines, piece <:+: line := by
  induction lines with
  | nil => exact absurd (infix_nil.mp h) hne
  | cons line lines ih =>
    have hn {part : List Char} (hp : part ≠ []) (hm : ∀ c ∈ part, c ∈ piece) :
        ¬ part <+: '\n' :: joinLines lines := by
      intro ha
      cases part with
      | nil => exact hp rfl
      | cons c part =>
        obtain ⟨rfl, -⟩ := cons_prefix_cons.mp ha
        exact hnw (hm _ mem_cons_self)
    have hj : joinLines (line :: lines) = line ++ '\n' :: joinLines lines := by
      simp [joinLines]
    rw [hj] at h
    rcases infix_append_cases h with h | h | hac
    · exact ⟨line, mem_cons_self, h⟩
    · rcases infix_cons_iff.mp h with h | h
      · exact absurd h (hn hne fun _ hc => hc)
      · obtain ⟨other, ho, hw⟩ := ih h
        exact ⟨other, mem_cons_of_mem line ho, hw⟩
    · obtain ⟨left, right, rfl, -, hr, -, ha⟩ := hac
      exact absurd ha (hn hr fun c hc => mem_append_right left hc)

theorem getLast?_of_suffix_joinLines (hne : piece ≠ [])
    (h : piece <:+ joinLines lines) : piece.getLast? = some '\n' := by
  obtain ⟨front, hf⟩ := h
  rcases eq_nil_or_concat lines with rfl | ⟨init, line, rfl⟩
  · exact absurd (append_eq_nil_iff.mp hf).2 hne
  have hl := congrArg List.getLast? hf
  rw [concat_eq_append, joinLines_append, joinLines_singleton, ← append_assoc,
    List.getLast?_concat, List.getLast?_append_of_ne_nil _ hne] at hl
  exact hl

def firstLine (text : List Char) : List Char :=
  text.takeWhile fun c => c ≠ '\n'

theorem firstLine_prefix_self {start text : List Char} (hmem : '\n' ∈ start) (h : start <+: text) :
    firstLine text ++ ['\n'] <+: start := by
  induction start generalizing text with
  | nil => exact absurd hmem not_mem_nil
  | cons c start ih =>
    cases text with
    | nil => exact absurd (prefix_nil.mp h) (cons_ne_nil c start)
    | cons d text =>
      obtain ⟨rfl, hs⟩ := cons_prefix_cons.mp h
      by_cases hc : c = '\n'
      · simp [firstLine, hc]
      · have hm' := mem_of_ne_of_mem (Ne.symm hc) hmem
        simpa [firstLine, hc] using ih hm' hs

/-- A text that joined lines show, but none of the lines and not by its own line ending alone,
has its first line among the lines before the last one. -/
theorem firstLine_infix_of_isInfix {secret : List Char} (hnw : '\n' ∈ secret)
    (hlast : secret.getLast? ≠ some '\n') (hline : ¬ secret <:+: line)
    (h : secret <:+: joinLines (lines ++ [line])) :
    firstLine secret ++ ['\n'] <:+: joinLines lines := by
  have hne := ne_nil_of_mem hnw
  rw [joinLines_append] at h
  rcases infix_append_cases h with h | h | ha
  · exact (firstLine_prefix_self hnw (prefix_refl secret)).isInfix.trans h
  · -- in the last line with its ending the text could only be the end
    rw [joinLines_singleton] at h
    rcases infix_concat_iff.mp h with h | h
    · rw [← joinLines_singleton] at h
      exact absurd (getLast?_of_suffix_joinLines hne h) hlast
    · exact absurd h hline
  obtain ⟨left, right, rfl, hl, -, hs, -⟩ := ha
  have hm := List.mem_of_getLast? (getLast?_of_suffix_joinLines hl hs)
  exact (firstLine_prefix_self hm (prefix_append left right)).isInfix.trans hs.isInfix

theorem encode_length_lt {secret : List Char} (hne : secret ≠ [])
    (hlast : secret.getLast? ≠ some '\n') (h : secret <:+: joinLines lines) :
    (encode secret).length < (encode (joinLines lines)).length := by
  obtain ⟨front, back, hj⟩ := h
  have hb : back ≠ [] := by
    rintro rfl
    rw [append_nil] at hj
    exact hlast (getLast?_of_suffix_joinLines hne ⟨front, hj⟩)
  have hp : 0 < (encode back).length := length_pos_iff.mpr fun hn => hb (encode_eq_nil.mp hn)
  rw [← hj, encode_append, encode_append, List.length_append, List.length_append]
  omega

end Lines

/-! ### Runs of line responses -/

section

variable (texts : StreamTexts)
include texts

@[simp] theorem StreamTexts.get_append (bytes : Bytes)
    (stream : ConsoleStream) :
    (texts.append bytes stream).get stream = texts.get stream ++ bytes := by
  cases stream <;> rfl

theorem StreamTexts.get_append_of_ne (bytes : Bytes)
    {stream other : ConsoleStream} (h : other ≠ stream) :
    (texts.append bytes other).get stream = texts.get stream := by
  cases stream <;> cases other <;> first | rfl | exact absurd rfl h

theorem StreamTexts.length_get_le (stream : ConsoleStream) :
    (texts.get stream).length ≤ texts.stdout.length + texts.stderr.length := by
  cases stream <;> simp only [StreamTexts.get] <;> omega

theorem StreamTexts.length_append (bytes : Bytes) (stream : ConsoleStream) :
    (texts.append bytes stream).stdout.length + (texts.append bytes stream).stderr.length =
      texts.stdout.length + texts.stderr.length + bytes.length := by
  cases stream <;> simp only [StreamTexts.append, List.length_append] <;> omega

end

namespace Routing

variable {routing : Routing} {s : RoutingState} {stream : ConsoleStream}
variable {captured shown : List (List Char)} {secret : List Char}

/-- Nothing is pending in the redactor, and the capture counts what it holds. -/
structure Steady (routing : Routing) (s : RoutingState) : Prop where
  pending (stream : ConsoleStream) : s.redactor.buffer stream = []
  maxBytes : s.capture.maxBytes = routing.maxBytes
  bytes : s.capture.texts.stdout.length + s.capture.texts.stderr.length = s.capture.bytes
  bytes_le : s.capture.bytes ≤ routing.maxBytes

def lineBytes (routing : Routing) (line : List Char) : Bytes :=
  encode (redact routing.isAlphanumeric (withoutLineEnding line) routing.redactions) ++ [10]

def afterShow (routing : Routing) (s : RoutingState) (stream : ConsoleStream) (line : List Char) :
    RoutingState :=
  { s with console := routing.write s.console stream (routing.lineBytes line) }

def afterCapture (routing : Routing) (s : RoutingState) (stream : ConsoleStream)
    (line : List Char) : RoutingState :=
  { routing.afterShow s stream line with
    capture :=
      { s.capture with
        texts := s.capture.texts.append (routing.lineBytes line) stream
        bytes := s.capture.bytes + (routing.lineBytes line).length } }

theorem steady_start : Steady routing routing.start := by
  refine ⟨?_, rfl, rfl, Nat.zero_le _⟩
  intro stream
  cases stream <;> rfl

theorem routePluginResponse_line (h : Steady routing s) (stream : ConsoleStream)
    (line : List Char) :
    routing.routePluginResponse s (.line stream line) =
      if s.capture.bytes + (routing.lineBytes line).length ≤ routing.maxBytes then
        (routing.afterCapture s stream line, none)
      else
        (routing.afterShow s stream line,
          some (captureError routing.plugin routing.maxBytes .limitExceeded)) := by
  have hp : s.redactor.hasPending stream = false := by
    simp [OutputRedactor.hasPending, h.pending stream]
  have hs : s.capture.bytes + ([encode (redact routing.isAlphanumeric (withoutLineEnding line)
      routing.redactions), [10]].map List.length).sum =
      s.capture.bytes + (routing.lineBytes line).length := by
    simp [lineBytes]
  simp only [routePluginResponse, hp, Bool.false_eq_true, if_false,
    OutputCapture.appendParts, hs, h.maxBytes]
  by_cases hf : s.capture.bytes + (routing.lineBytes line).length ≤ routing.maxBytes
  · rw [if_pos hf, if_neg (not_lt.mpr hf)]
    simp only [afterCapture, afterShow, h.maxBytes]
    rfl
  · rw [if_neg hf, if_pos (not_le.mp hf)]
    rfl

theorem flushRedactedBytes_steady (h : Steady routing s) :
    ∃ redactor, routing.flushRedactedBytes s = ({ s with redactor }, none) := by
  have hf (s' : RoutingState) (stream : ConsoleStream)
      (hp : s'.redactor.buffer stream = []) :
      routing.flushStream s' stream =
        ({ s' with redactor := s'.redactor.withBuffer [] stream }, none) := by
    have hn : (s'.redactor.finish stream).1 = [] := by
      rw [OutputRedactor.finish, hp]
      exact redactBytes_nil _
    simp only [flushStream, hn, if_true]
    rfl
  rw [flushRedactedBytes, hf s .stdout (h.pending .stdout)]
  exact ⟨_, hf _ .stderr (h.pending .stderr)⟩

/-- The lines of a stream that the capture holds and those that the console was given. -/
structure Joined (routing : Routing) (stream : ConsoleStream) (s : RoutingState)
    (captured shown : List (List Char)) : Prop where
  hidden : ∀ line ∈ shown, ¬ Reveals routing.redactions line
  shown_eq : shown = captured ∨ ∃ line, shown = captured ++ [line]
  text : s.capture.texts.get stream = encode (joinLines captured)
  console : s.console.get stream =
    if routing.route.shows stream then encode (joinLines shown) else []
  length_le : (encode (joinLines captured)).length ≤ routing.maxBytes

theorem joined_start (stream : ConsoleStream) : Joined routing stream routing.start [] [] := by
  refine ⟨fun line hl => absurd hl not_mem_nil, .inl rfl, ?_, ?_, Nat.zero_le _⟩
  · cases stream <;> rfl
  · cases stream <;> exact (ite_self _).symm

theorem Steady.afterCapture {line : List Char} (h : Steady routing s) (other : ConsoleStream)
    (hfits : s.capture.bytes + (routing.lineBytes line).length ≤ routing.maxBytes) :
    Steady routing (routing.afterCapture s other line) where
  pending := h.pending
  maxBytes := h.maxBytes
  bytes := by
    have hl := s.capture.texts.length_append (routing.lineBytes line) other
    rw [h.bytes] at hl
    exact hl
  bytes_le := hfits

theorem encode_joinLines_concat (routing : Routing) (lines : List (List Char)) (line : List Char) :
    encode (joinLines (lines ++ [redact routing.isAlphanumeric (withoutLineEnding line)
      routing.redactions])) = encode (joinLines lines) ++ routing.lineBytes line := by
  rw [joinLines_append, joinLines_singleton, encode_append, encode_append]
  rfl

theorem get_write (con : StreamTexts) (bytes : Bytes) :
    (routing.write con stream bytes).get stream =
      if routing.route.shows stream then con.get stream ++ bytes else con.get stream := by
  unfold write
  split
  · exact StreamTexts.get_append con bytes stream
  · rfl

theorem get_write_of_ne (con : StreamTexts) (bytes : Bytes) {other : ConsoleStream}
    (ho : other ≠ stream) :
    (routing.write con other bytes).get stream = con.get stream := by
  unfold write
  split
  · exact StreamTexts.get_append_of_ne con bytes ho
  · rfl

section

variable (hpl : ∀ red ∈ routing.redactions, red.Plain)
include hpl

theorem Joined.afterShow
    (h : Joined routing stream s captured captured) (other : ConsoleStream) (line : List Char) :
    ∃ shown, Joined routing stream (routing.afterShow s other line) captured shown ∧
      (other = stream → shown = captured ++ [redact routing.isAlphanumeric
        (withoutLineEnding line) routing.redactions]) ∧
      (other ≠ stream → shown = captured) := by
  by_cases ho : other = stream
  · subst ho
    refine ⟨_, ?_, fun _ => rfl, absurd rfl⟩
    refine ⟨?_, .inr ⟨_, rfl⟩, h.text, ?_, h.length_le⟩
    · intro shown hs
      rcases mem_append.mp hs with hs | hs
      · exact h.hidden shown hs
      · rw [mem_singleton.mp hs]
        exact not_reveals_redact hpl _ _
    · rw [encode_joinLines_concat, Routing.afterShow, get_write, h.console]
      split <;> rfl
  · refine ⟨captured, ?_, fun he => absurd he ho, fun _ => rfl⟩
    refine ⟨h.hidden, .inl rfl, h.text, ?_, h.length_le⟩
    rw [Routing.afterShow, get_write_of_ne _ _ ho, h.console]

theorem Joined.afterCapture (hst : Steady routing s)
    (h : Joined routing stream s captured captured) (other : ConsoleStream) (line : List Char)
    (hfits : s.capture.bytes + (routing.lineBytes line).length ≤ routing.maxBytes) :
    ∃ lines, Joined routing stream (routing.afterCapture s other line) lines lines := by
  obtain ⟨shown, hs, he, hne⟩ := h.afterShow hpl other line
  have ht : (routing.afterCapture s other line).capture.texts.get stream =
      encode (joinLines shown) := by
    by_cases ho : other = stream
    · subst ho
      rw [he rfl, encode_joinLines_concat, ← h.text]
      exact StreamTexts.get_append _ _ _
    · rw [hne ho, ← h.text]
      exact StreamTexts.get_append_of_ne _ _ ho
  refine ⟨shown, hs.hidden, .inl rfl, ht, hs.console, ?_⟩
  have hs' := hst.afterCapture other hfits
  rw [← ht]
  calc ((routing.afterCapture s other line).capture.texts.get stream).length
      ≤ (routing.afterCapture s other line).capture.bytes := by
        rw [← hs'.bytes]
        exact StreamTexts.length_get_le _ stream
    _ ≤ routing.maxBytes := hs'.bytes_le

theorem joined_routeAll
    (lines : List (ConsoleStream × List Char)) (hst : Steady routing s)
    (h : Joined routing stream s captured captured) :
    ∃ captured' shown, Joined routing stream
      (routing.routeAll s (lines.map fun (stream, line) => .line stream line)).1 captured'
        shown := by
  induction lines generalizing s captured with
  | nil =>
    obtain ⟨redactor, hfl⟩ := flushRedactedBytes_steady hst
    refine ⟨captured, captured, ?_⟩
    rw [map_nil, routeAll, hfl]
    exact ⟨h.hidden, h.shown_eq, h.text, h.console, h.length_le⟩
  | cons resp lines ih =>
    obtain ⟨other, line⟩ := resp
    rw [map_cons, routeAll, routePluginResponse_line hst]
    by_cases hf : s.capture.bytes + (routing.lineBytes line).length ≤ routing.maxBytes
    · rw [if_pos hf]
      obtain ⟨lines', hl'⟩ := h.afterCapture hpl hst other line hf
      exact ih (hst.afterCapture other hf) hl'
    rw [if_neg hf]
    obtain ⟨shown, hs, -⟩ := h.afterShow hpl other line
    exact ⟨captured, shown, hs⟩

end

/-! ### Secrets with line endings -/

/-- The bytes the capture must accept before the joined lines can show the secret. -/
def roomFor (shown : Bool) (secret : List Char) : ℕ :=
  if secret.getLast? = some '\n' then
    if shown then 0 else (encode secret).length
  else
    if shown then (encode (firstLine secret)).length + 1 else (encode secret).length + 1

/-- Every secret with a line ending for which there is room contains another secret. -/
def Guarded (routing : Routing) (stream : ConsoleStream) : Prop :=
  ∀ secret ∈ routing.redactions, '\n' ∈ secret.value →
    roomFor (routing.route.shows stream) secret.value ≤ routing.maxBytes →
      ∃ other ∈ routing.redactions, other.value ≠ secret.value ∧ other.value <:+: secret.value

theorem Joined.captured_isPrefix (h : Joined routing stream s captured shown) :
    joinLines captured <+: joinLines shown := by
  rcases h.shown_eq with rfl | ⟨line, rfl⟩
  · exact prefix_refl _
  · rw [joinLines_append]
    exact prefix_append _ _

theorem Joined.newline_mem (h : Joined routing stream s captured shown) {secret : Redaction}
    (hmem : secret ∈ routing.redactions) (hpl : secret.Plain)
    (hw : secret.value <:+: joinLines shown) : '\n' ∈ secret.value := by
  by_contra hn
  obtain ⟨line, hl, hs⟩ := exists_line_of_infix hpl.ne_nil hn hw
  exact h.hidden line hl ⟨secret, hmem, hs⟩

theorem encode_firstLine_length_le {text : List Char} (h : firstLine secret ++ ['\n'] <:+: text) :
    (encode (firstLine secret)).length + 1 ≤ (encode text).length := by
  have hl := (infix_encoded h).length_le
  rw [encode_append, List.length_append] at hl
  exact hl

theorem Joined.roomFor_shown (h : Joined routing stream s captured shown) {secret : Redaction}
    (hmem : secret ∈ routing.redactions) (hnw : '\n' ∈ secret.value)
    (hw : secret.value <:+: joinLines shown) : roomFor true secret.value ≤ routing.maxBytes := by
  unfold roomFor
  split
  · exact Nat.zero_le _
  rename_i hl
  refine le_trans ?_ h.length_le
  apply encode_firstLine_length_le
  rcases h.shown_eq with rfl | ⟨line, rfl⟩
  · exact (firstLine_prefix_self hnw (prefix_refl _)).isInfix.trans hw
  apply firstLine_infix_of_isInfix hnw hl _ hw
  intro hli
  exact h.hidden line (mem_append_right captured mem_cons_self) ⟨secret, hmem, hli⟩

theorem Joined.roomFor_captured (h : Joined routing stream s captured shown) (hnw : '\n' ∈ secret)
    (hw : secret <:+: joinLines captured) : roomFor false secret ≤ routing.maxBytes := by
  unfold roomFor
  refine le_trans ?_ h.length_le
  split
  · exact (infix_encoded hw).length_le
  · rename_i hl
    exact encode_length_lt (ne_nil_of_mem hnw) hl hw

def visible (routing : Routing) (stream : ConsoleStream) (captured shown : List (List Char)) :
    List Char :=
  if routing.route.shows stream then joinLines shown else joinLines captured

theorem Joined.not_infix_visible (hpl : ∀ secret ∈ routing.redactions, secret.Plain)
    (h : Joined routing stream s captured shown) (hgu : Guarded routing stream) (n : ℕ) :
    ∀ secret ∈ routing.redactions, secret.value.length = n →
      ¬ secret.value <:+: routing.visible stream captured shown := by
  induction n using Nat.strong_induction_on with
  | _ n ih =>
    intro secret hm hl hw
    have hs : secret.value <:+: joinLines shown := by
      unfold visible at hw
      split at hw
      · exact hw
      · exact hw.trans h.captured_isPrefix.isInfix
    have hn := h.newline_mem hm (hpl secret hm) hs
    have hr : roomFor (routing.route.shows stream) secret.value ≤ routing.maxBytes := by
      unfold visible at hw
      split at hw
      · rename_i hsh
        rw [hsh]
        exact h.roomFor_shown hm hn hw
      rename_i hsh
      rw [Bool.not_eq_true] at hsh
      rw [hsh]
      exact h.roomFor_captured hn hw
    -- the secret inside it would be seen as well, and it is shorter
    obtain ⟨other, ho, hne, hi⟩ := hgu secret hm hn hr
    have hlt : other.value.length < n := by
      apply lt_of_le_of_ne (hl ▸ hi.length_le)
      intro he
      exact hne (hi.eq_of_length (he.trans hl.symm))
    exact ih _ hlt other ho rfl (hi.trans hw)

/-- The run of some lines of one stream has joined them to the text. -/
structure Reached (routing : Routing) (stream : ConsoleStream)
    (before : List (ConsoleStream × List Char)) (s : RoutingState) (text : Bytes) : Prop where
  steady : Steady routing s
  run (responses : List OutputResponse) :
    routing.routeAll routing.start
      (before.map (fun (stream, line) => .line stream line) ++ responses) =
        routing.routeAll s responses
  captured : s.capture.texts.get stream = text
  console : routing.route.shows stream = true → s.console.get stream = text
  bytes : s.capture.bytes = text.length

theorem reached_start (stream : ConsoleStream) : Reached routing stream [] routing.start [] := by
  refine ⟨steady_start, fun _ => rfl, ?_, ?_, rfl⟩
  · cases stream <;> rfl
  · intro _
    cases stream <;> rfl

variable {before : List (ConsoleStream × List Char)}

theorem Reached.line {text : Bytes} (h : Reached routing stream before s text) {line : List Char}
    (hroom : text.length + (routing.lineBytes line).length ≤ routing.maxBytes) :
    Reached routing stream (before ++ [(stream, line)]) (routing.afterCapture s stream line)
      (text ++ routing.lineBytes line) := by
  rw [← h.bytes] at hroom
  refine ⟨h.steady.afterCapture stream hroom, ?_, ?_, ?_, ?_⟩
  · intro resps
    rw [map_append, append_assoc, h.run]
    show routing.routeAll s (.line stream line :: resps) = _
    rw [routeAll, routePluginResponse_line h.steady, if_pos hroom]
  · rw [← h.captured]
    exact StreamTexts.get_append _ _ _
  · intro hs
    rw [← h.console hs]
    simp only [Routing.afterCapture, Routing.afterShow, get_write, hs, if_true]
  · rw [List.length_append, ← h.bytes]
    rfl

/-- Bytes that some run of lines leaves in the capture or on the console. -/
def Leaks (routing : Routing) (stream : ConsoleStream) (text : Bytes) : Prop :=
  ∃ lines, text <:+: (routing.routeLines lines).capture.texts.get stream ∨
    text <:+: (routing.routeLines lines).console.get stream

theorem Reached.leaks {text piece : Bytes} (h : Reached routing stream before s text)
    (line : List Char) (hroom : routing.route.shows stream = false →
      text.length + (routing.lineBytes line).length ≤ routing.maxBytes)
    (hpi : piece <:+: text ++ routing.lineBytes line) : Leaks routing stream piece := by
  refine ⟨before ++ [(stream, line)], ?_⟩
  by_cases hf : text.length + (routing.lineBytes line).length ≤ routing.maxBytes
  · have hrc := h.line hf
    obtain ⟨redactor, hfl⟩ := flushRedactedBytes_steady hrc.steady
    have hr := hrc.run []
    rw [append_nil, routeAll, hfl] at hr
    rw [routeLines, hr]
    exact .inl (hrc.captured ▸ hpi)
  have hr := h.run [.line stream line]
  rw [routeAll, routePluginResponse_line h.steady, h.bytes, if_neg hf] at hr
  rw [routeLines, map_append, map_singleton, hr]
  cases hs : routing.route.shows stream with
  | false => exact absurd (hroom hs) hf
  | true =>
    apply Or.inr
    simp only [afterShow, get_write, hs, if_true, h.console hs]
    exact hpi

theorem lineBytes_append (hpl : ∀ secret ∈ routing.redactions, secret.Plain)
    {line : List Char} (h : ¬ Reveals routing.redactions line) :
    routing.lineBytes (line ++ ['\r', '\n']) = encode line ++ [10] := by
  rw [lineBytes, withoutLineEnding_append, redact_eq_self hpl _ h]

theorem encode_newline : encode ['\n'] = [10] := rfl

section

variable (hpl : ∀ secret ∈ routing.redactions, secret.Plain)
include hpl

theorem leaks_of_concat
    {start : List Char} (hst : ¬ Reveals routing.redactions start)
    (hroom : roomFor (routing.route.shows stream) (start ++ ['\n']) ≤ routing.maxBytes) :
    Leaks routing stream (encode (start ++ ['\n'])) := by
  have hb : routing.lineBytes (start ++ ['\r', '\n']) = encode (start ++ ['\n']) := by
    rw [lineBytes_append hpl hst, encode_append, encode_newline]
  apply (reached_start stream).leaks (start ++ ['\r', '\n'])
  · intro hs
    rw [hs, roomFor, if_pos List.getLast?_concat] at hroom
    rw [hb]
    exact (Nat.zero_add _).trans_le hroom
  · rw [hb]
    exact infix_refl _

theorem leaks_of_append {head rest : List Char}
    (hhead : ¬ Reveals routing.redactions head) (hrest : ¬ Reveals routing.redactions rest)
    (hsho : (encode head).length + 1 ≤ routing.maxBytes)
    (hroom : routing.route.shows stream = false →
      (encode (head ++ '\n' :: rest)).length + 1 ≤ routing.maxBytes) :
    Leaks routing stream (encode (head ++ '\n' :: rest)) := by
  have hs : encode (head ++ '\n' :: rest) = encode head ++ [10] ++ encode rest := by
    rw [← singleton_append, ← append_assoc, encode_append, encode_append, encode_newline]
  have hf := lineBytes_append hpl hhead
  have hse := lineBytes_append hpl hrest
  have hr' : ([] : Bytes).length + (routing.lineBytes (head ++ ['\r', '\n'])).length ≤
      routing.maxBytes := by
    rwa [hf, List.length_append, length_nil, Nat.zero_add]
  have hr := (reached_start stream).line hr'
  rw [hf, nil_append] at hr
  apply hr.leaks (rest ++ ['\r', '\n'])
  · intro hsh
    have hl := hroom hsh
    rw [hs, List.length_append] at hl
    simp only [hse, List.length_append, length_cons, length_nil] at hl ⊢
    omega
  · rw [hs, hse]
    exact ⟨[], [10], by simp⟩

theorem leaks_of_not_guarded
    (hnw : '\n' ∈ secret) (hroom : roomFor (routing.route.shows stream) secret ≤ routing.maxBytes)
    (ho : ∀ other ∈ routing.redactions, other.value <:+: secret → other.value = secret) :
    Leaks routing stream (encode secret) := by
  have hp {part : List Char} (hw : part <:+: secret) (hlt : part.length < secret.length) :
      ¬ Reveals routing.redactions part := by
    rintro ⟨other, hm, hv⟩
    have he := ho other hm (hv.trans hw)
    have hle := hv.length_le
    rw [he] at hle
    omega
  by_cases hla : secret.getLast? = some '\n'
  · obtain ⟨start, rfl⟩ := List.getLast?_eq_some_iff.mp hla
    apply leaks_of_concat hpl (hp (prefix_append start _).isInfix _) hroom
    rw [List.length_append, length_singleton]
    omega
  obtain ⟨rest, hr⟩ := firstLine_prefix_self hnw (prefix_refl secret)
  rw [append_assoc, singleton_append] at hr
  have hl := congrArg List.length hr
  rw [List.length_append, length_cons] at hl
  have hh : ¬ Reveals routing.redactions (firstLine secret) := hp ⟨[], '\n' :: rest, hr⟩ (by omega)
  have ht := hp ⟨firstLine secret ++ ['\n'], [], by simpa using hr⟩ (by omega)
  rw [← hr]
  rw [roomFor, if_neg hla] at hroom
  apply leaks_of_append hpl hh ht
  · have ha := encode_firstLine_length_le (firstLine_prefix_self hnw (prefix_refl secret)).isInfix
    cases hs : routing.route.shows stream with
    | true => simpa only [hs, if_true] using hroom
    | false =>
      rw [hs] at hroom
      exact ha.trans ((Nat.le_succ _).trans hroom)
  intro hs
  rw [hr]
  rwa [hs] at hroom

end

/-- Joined lines show no secret exactly if every secret with a line ending, as far as there is
room for it, contains another secret. -/
theorem joined_lines_hide_secrets_iff (routing : Routing)
    (hplain : ∀ secret ∈ routing.redactions, secret.Plain) (stream : ConsoleStream) :
    (∀ lines, ∀ secret ∈ routing.redactions,
      ¬ secret.asBytes <:+: (routing.routeLines lines).capture.texts.get stream ∧
      ¬ secret.asBytes <:+: (routing.routeLines lines).console.get stream) ↔
      Guarded routing stream := by
  constructor
  · intro hhidden secret hmem hnewline hroom
    by_contra hnone
    obtain ⟨lines, hleak⟩ := leaks_of_not_guarded hplain hnewline hroom (by
      intro other hother hwithin
      by_contra hne
      exact hnone ⟨other, hother, hne, hwithin⟩)
    rcases hleak with hleak | hleak
    · exact (hhidden lines secret hmem).1 hleak
    · exact (hhidden lines secret hmem).2 hleak
  · intro hguarded lines secret hmem
    obtain ⟨captured, shown, h⟩ := joined_routeAll hplain lines steady_start (joined_start stream)
    have hvisible := h.not_infix_visible hplain hguarded _ secret hmem rfl
    rw [routeLines, h.text, h.console]
    constructor
    · intro hwithin
      apply hvisible
      have hcaptured := infix_of_encoded hwithin
      unfold visible
      split
      · exact hcaptured.trans h.captured_isPrefix.isInfix
      · exact hcaptured
    intro hwithin
    split at hwithin
    · rename_i hshows
      rw [visible, if_pos hshows] at hvisible
      exact hvisible (infix_of_encoded hwithin)
    · exact (hplain secret hmem).asBytes_ne_nil (infix_nil.mp hwithin)

def visibleCommand (secret : List Char) : Routing where
  isAlphanumeric := Char.isAlphanum
  plugin := "shell"
  route := { rawSession := false, target := some fun _ => false }
  maxBytes := 64 * 1024 * 1024
  redactions := [⟨secret, .substring⟩]

theorem joined_lines_hide_secrets_iff_key : Guarded (visibleCommand ['k', 'e', 'y']) .stdout ∧
    ∀ lines, ∀ secret ∈ (visibleCommand ['k', 'e', 'y']).redactions, ¬ secret.asBytes <:+:
        ((visibleCommand ['k', 'e', 'y']).routeLines lines).capture.texts.get .stdout ∧
      ¬ secret.asBytes <:+:
        ((visibleCommand ['k', 'e', 'y']).routeLines lines).console.get .stdout := by
  have hplain : ∀ secret ∈ (visibleCommand ['k', 'e', 'y']).redactions, secret.Plain := by
    intro secret hmem
    rw [mem_singleton.mp hmem]
    exact ⟨rfl, by decide, by decide⟩
  have hguarded : Guarded (visibleCommand ['k', 'e', 'y']) .stdout := by
    intro secret hmem hnewline
    rw [mem_singleton.mp hmem] at hnewline
    exact absurd hnewline (by decide)
  exact ⟨hguarded, (joined_lines_hide_secrets_iff _ hplain .stdout).mpr hguarded⟩

/-- The ending that is added to the only line completes the secret. -/
theorem line_ending_completes_secret : Redaction.asBytes ⟨['k', 'e', 'y', '\n'], .substring⟩ =
      ((visibleCommand ['k', 'e', 'y', '\n']).routeLines
        [(.stdout, ['k', 'e', 'y'])]).capture.texts.get .stdout ∧
    Redaction.asBytes ⟨['k', 'e', 'y', '\n'], .substring⟩ =
      ((visibleCommand ['k', 'e', 'y', '\n']).routeLines
        [(.stdout, ['k', 'e', 'y'])]).console.get .stdout := by
  constructor
  · decide +kernel
  · decide +kernel

end Routing

end Octa.Output
