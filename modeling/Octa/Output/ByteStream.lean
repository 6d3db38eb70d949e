import Octa.Output.Redaction

/-!
# Redaction of byte streams

The redactor of a command keeps the end of each stream back until the next frame
shows whether a secret value began there.
-/

namespace Octa.Output

open List

variable {spans : List (ℕ × ℕ)} {cut : ℕ}

open Masking

inductive ConsoleStream where
  | stdout
  | stderr
  deriving DecidableEq

structure OutputRedactor where
  stdout : Bytes
  stderr : Bytes
  needles : List Bytes
  reserve : ℕ

def findAll (bytes needle : Bytes) : List ℕ :=
  (List.range (bytes.length + 1 - needle.length)).filter fun start =>
    needle.isPrefixOf (bytes.drop start)

/-- The occurrences of all needles, from start to end, in the order of the two inner loops. -/
def occurrences (buffer : Bytes) (needles : List Bytes) : List (ℕ × ℕ) :=
  needles.flatMap fun needle =>
    (findAll buffer needle).map fun start => (start, start + needle.length)

def widenCut (cut : ℕ) (span : ℕ × ℕ) : ℕ :=
  if span.1 < cut ∧ cut < span.2 then span.2 else cut

/-- The outer loop: the cut is widened until a whole pass leaves it in place. -/
def settleCut (spans : List (ℕ × ℕ)) : ℕ → ℕ → ℕ
  | 0, cut => cut
  | fuel + 1, cut =>
    if spans.foldl widenCut cut = cut then cut
    else settleCut spans fuel (spans.foldl widenCut cut)

/-- Where the buffer is cut; the loop runs at most once for each byte of it. -/
def emitCut (buffer : Bytes) (needles : List Bytes) (reserve : ℕ) : ℕ :=
  settleCut (occurrences buffer needles) (buffer.length + 1) (buffer.length - reserve)

def emitRedactedPrefix (buffer : Bytes) (needles : List Bytes) (reserve : ℕ) : Bytes × Bytes :=
  if needles = [] then (buffer, [])
  else
    let cut := emitCut buffer needles reserve
    (redactBytes (buffer.take cut) needles, buffer.drop cut)

def reserveOf (needles : List Bytes) : ℕ :=
  (needles.map List.length).max?.getD 1 - 1

namespace OutputRedactor

def new (redactions : List Redaction) : OutputRedactor :=
  let needles := (redactions.map Redaction.asBytes).filter fun value => value ≠ []
  { stdout := [], stderr := [], needles, reserve := reserveOf needles }

def buffer (redactor : OutputRedactor) : ConsoleStream → Bytes
  | .stdout => redactor.stdout
  | .stderr => redactor.stderr

def withBuffer (redactor : OutputRedactor) (bytes : Bytes) : ConsoleStream → OutputRedactor
  | .stdout => { redactor with stdout := bytes }
  | .stderr => { redactor with stderr := bytes }

def push (redactor : OutputRedactor) (stream : ConsoleStream) (bytes : Bytes) :
    Bytes × OutputRedactor :=
  let (emitted, rest) :=
    emitRedactedPrefix (redactor.buffer stream ++ bytes) redactor.needles redactor.reserve
  (emitted, redactor.withBuffer rest stream)

def finish (redactor : OutputRedactor) (stream : ConsoleStream) : Bytes × OutputRedactor :=
  (redactBytes (redactor.buffer stream) redactor.needles, redactor.withBuffer [] stream)

def hasPending (redactor : OutputRedactor) (stream : ConsoleStream) : Bool :=
  redactor.buffer stream ≠ []

/-- Everything that is emitted for one stream while the frames of both streams arrive. -/
def emitted (stream : ConsoleStream) : OutputRedactor → List (ConsoleStream × Bytes) → Bytes
  | redactor, [] => (redactor.finish stream).1
  | redactor, (frameStream, bytes) :: frames =>
    let (output, redactor') := redactor.push frameStream bytes
    (if frameStream = stream then output else []) ++ redactor'.emitted stream frames

end OutputRedactor

/-! ### The cut -/

theorem le_widenCut (cut : ℕ) (span : ℕ × ℕ) : cut ≤ widenCut cut span := by
  unfold widenCut
  split <;> omega

theorem le_foldl_widenCut (spans : List (ℕ × ℕ)) (cut : ℕ) : cut ≤ spans.foldl widenCut cut := by
  induction spans generalizing cut with
  | nil => exact le_rfl
  | cons span spans ih => exact (le_widenCut cut span).trans (ih _)

theorem not_inside_of_foldl_eq (h : spans.foldl widenCut cut = cut) {span : ℕ × ℕ}
    (hspan : span ∈ spans) : ¬ (span.1 < cut ∧ cut < span.2) := by
  induction spans with
  | nil => exact absurd hspan not_mem_nil
  | cons first spans ih =>
    have hs : widenCut cut first = cut := by
      apply le_antisymm _ (le_widenCut cut first)
      calc widenCut cut first ≤ spans.foldl widenCut (widenCut cut first) :=
            le_foldl_widenCut spans _
        _ = cut := h
    rcases mem_cons.mp hspan with rfl | hspan
    · intro hi
      rw [widenCut, if_pos hi] at hs
      omega
    · rw [foldl_cons, hs] at h
      exact ih h hspan

theorem le_settleCut (spans : List (ℕ × ℕ)) (fuel cut : ℕ) : cut ≤ settleCut spans fuel cut := by
  induction fuel generalizing cut with
  | zero => exact le_rfl
  | succ fuel ih =>
    rw [settleCut]
    split
    · exact le_rfl
    · exact (le_foldl_widenCut spans cut).trans (ih _)

variable {position : ℕ}

theorem foldl_widenCut_le_of_not_inside (spans : List (ℕ × ℕ))
    (h : ∀ span ∈ spans, ¬ (span.1 < position ∧ position < span.2)) (hcut : cut ≤ position) :
    spans.foldl widenCut cut ≤ position := by
  induction spans generalizing cut with
  | nil => exact hcut
  | cons span spans ih =>
    apply ih fun o ho => h o (mem_cons_of_mem span ho)
    have hs := h span mem_cons_self
    unfold widenCut
    split <;> omega

theorem settleCut_le_of_not_inside (fuel : ℕ)
    (h : ∀ span ∈ spans, ¬ (span.1 < position ∧ position < span.2)) (hcut : cut ≤ position) :
    settleCut spans fuel cut ≤ position := by
  induction fuel generalizing cut with
  | zero => exact hcut
  | succ fuel ih =>
    rw [settleCut]
    split
    · exact hcut
    · exact ih (foldl_widenCut_le_of_not_inside spans h hcut)

theorem not_inside_bound {bound : ℕ} (hsp : ∀ span ∈ spans, span.2 ≤ bound) :
    ∀ span ∈ spans, ¬ (span.1 < bound ∧ bound < span.2) := by
  intro span hs hi
  have hl := hsp span hs
  omega

theorem settleCut_settled {bound : ℕ} (hsp : ∀ span ∈ spans, span.2 ≤ bound) {fuel : ℕ}
    (hcut : cut ≤ bound) (hfuel : bound < cut + fuel) :
    spans.foldl widenCut (settleCut spans fuel cut) = settleCut spans fuel cut := by
  induction fuel generalizing cut with
  | zero => omega
  | succ fuel ih =>
    rw [settleCut]
    split
    · assumption
    rename_i hm
    -- the cut has moved by at least one byte, so the remaining fuel still suffices
    have hl := le_foldl_widenCut spans cut
    have hb := foldl_widenCut_le_of_not_inside spans (not_inside_bound hsp) hcut
    exact ih hb (by omega)

theorem mem_findAll {bytes nd : Bytes} {start : ℕ} : start ∈ findAll bytes nd ↔
      start + nd.length ≤ bytes.length ∧ nd <+: bytes.drop start := by
  rw [findAll, mem_filter, mem_range, isPrefixOf_iff_prefix]
  constructor
  · intro h
    have hl := h.2.length_le
    rw [length_drop] at hl
    exact ⟨by omega, h.2⟩
  · intro h
    exact ⟨by omega, h.2⟩

section Cut

variable {needles : List Bytes} {buffer : Bytes} {reserve : ℕ}

theorem mem_occurrences {span : ℕ × ℕ} : span ∈ occurrences buffer needles ↔
      ∃ nd ∈ needles, ∃ front back, buffer = front ++ (nd ++ back) ∧
        span = (front.length, front.length + nd.length) := by
  simp only [occurrences, mem_flatMap, mem_map, mem_findAll]
  constructor
  · rintro ⟨nd, hn, start, ⟨hl, back, hb⟩, rfl⟩
    refine ⟨nd, hn, buffer.take start, back, ?_, ?_⟩
    · rw [hb, take_append_drop]
    · rw [length_take_of_le (by omega)]
  rintro ⟨nd, hn, front, back, rfl, rfl⟩
  refine ⟨nd, hn, front.length, ⟨?_, ?_⟩, rfl⟩
  · simp only [length_append]
    omega
  · rw [drop_left]
    exact prefix_append nd back

theorem snd_le_of_mem_occurrences :
    ∀ span ∈ occurrences buffer needles, span.2 ≤ buffer.length := by
  intro span hs
  obtain ⟨nd, -, front, back, rfl, rfl⟩ := mem_occurrences.mp hs
  simp only [length_append]
  omega

theorem emitCut_le : emitCut buffer needles reserve ≤ buffer.length :=
  settleCut_le_of_not_inside _ (not_inside_bound snd_le_of_mem_occurrences) (Nat.sub_le _ _)

theorem emitCut_settled :
    (occurrences buffer needles).foldl widenCut (emitCut buffer needles reserve) =
      emitCut buffer needles reserve :=
  settleCut_settled snd_le_of_mem_occurrences (Nat.sub_le _ _) (by omega)

theorem le_emitCut : buffer.length - reserve ≤ emitCut buffer needles reserve := le_settleCut _ _ _

def Inside (needles : List Bytes) (buffer : Bytes) (position : ℕ) : Prop :=
  ∃ span ∈ occurrences buffer needles, span.1 < position ∧ position < span.2

theorem not_inside_emitCut : ¬ Inside needles buffer (emitCut buffer needles reserve) := by
  rintro ⟨span, hs, hi⟩
  exact not_inside_of_foldl_eq emitCut_settled hs hi

theorem emitCut_le_of_not_inside (hpo : buffer.length - reserve ≤ position)
    (h : ¬ Inside needles buffer position) : emitCut buffer needles reserve ≤ position := by
  apply settleCut_le_of_not_inside _ _ hpo
  intro span hs hi
  exact h ⟨span, hs, hi⟩

/-- The text `kept` ends at the first position outside all occurrences that leaves at most the
reserve behind it. -/
structure FirstGap (needles : List Bytes) (kept rest : Bytes) : Prop where
  length_le : rest.length ≤ reserveOf needles
  gap : ¬ Inside needles (kept ++ rest) kept.length
  covered : ∀ position < kept.length, (kept ++ rest).length ≤ position + reserveOf needles →
    Inside needles (kept ++ rest) position

theorem emitCut_eq_length_iff {kept rest : Bytes} :
    emitCut (kept ++ rest) needles (reserveOf needles) = kept.length ↔
      FirstGap needles kept rest := by
  constructor
  · intro hc
    have hl : (kept ++ rest).length - reserveOf needles ≤
        emitCut (kept ++ rest) needles (reserveOf needles) := le_emitCut
    rw [hc, length_append] at hl
    refine ⟨by omega, hc ▸ not_inside_emitCut, ?_⟩
    intro position hp hr
    by_contra hi
    have hle := emitCut_le_of_not_inside (Nat.sub_le_iff_le_add.mpr hr) hi
    omega
  · intro h
    have hln : (kept ++ rest).length ≤ kept.length + reserveOf needles := by
      rw [length_append]
      exact Nat.add_le_add_left h.length_le _
    apply le_antisymm (emitCut_le_of_not_inside (Nat.sub_le_iff_le_add.mpr hln) h.gap)
    by_contra hlt
    apply not_inside_emitCut (h.covered _ (not_le.mp hlt) _)
    exact Nat.sub_le_iff_le_add.mp le_emitCut

theorem not_across_emitCut {kept rest left right : Bytes} (hmem : left ++ right ∈ needles)
    (hcut : emitCut (kept ++ rest) needles reserve = kept.length) (hleft : left ≠ [])
    (hr : right ≠ []) (hsuf : left <:+ kept) : ¬ right <+: rest := by
  intro ha
  obtain ⟨front, rfl⟩ := hsuf
  obtain ⟨back, rfl⟩ := ha
  have hs : (front.length, front.length + (left ++ right).length) ∈
      occurrences (front ++ left ++ (right ++ back)) needles :=
    mem_occurrences.mpr ⟨_, hmem, front, back, by simp, rfl⟩
  apply not_inside_of_foldl_eq emitCut_settled hs
  rw [hcut]
  have hp := length_pos_iff.mpr hleft
  have hpo := length_pos_iff.mpr hr
  simp only [length_append]
  omega

end Cut

/-! ### What the cuts of a stream can reveal -/

/-- A list of needles as the redactor holds them for string secrets. -/
structure Needles (needles : List Bytes) : Prop where
  nil_notMem : [] ∉ needles
  star_notMem : ∀ needle ∈ needles, (42 : UInt8) ∉ needle

def Exposes (needles : List Bytes) (text : Bytes) : Prop :=
  ∃ needle ∈ needles, needle <:+: text

section Stream

variable {needles : List Bytes}

theorem Exposes.of_infix {text text' : Bytes} (h : Exposes needles text) (hw : text <:+: text') :
    Exposes needles text' := by
  obtain ⟨nd, hm, hn⟩ := h
  exact ⟨nd, hm, hn.trans hw⟩

theorem redactBytes_eq_self {text : Bytes} (h : ¬ Exposes needles text) :
    redactBytes text needles = text :=
  replaceEach_eq_self _ fun nd hm hw => h ⟨nd, hm, hw⟩

/-! ### Runs of the redactor -/

namespace OutputRedactor

variable {redactor : OutputRedactor} {stream o : ConsoleStream} {bytes : Bytes}

@[simp] theorem needles_withBuffer :
    (redactor.withBuffer bytes stream).needles = redactor.needles := by
  cases stream <;> rfl

@[simp] theorem reserve_withBuffer :
    (redactor.withBuffer bytes stream).reserve = redactor.reserve := by
  cases stream <;> rfl

@[simp] theorem buffer_withBuffer : (redactor.withBuffer bytes stream).buffer stream = bytes := by
  cases stream <;> rfl

theorem buffer_withBuffer_of_ne (h : o ≠ stream) :
    (redactor.withBuffer bytes o).buffer stream = redactor.buffer stream := by
  cases stream <;> cases o <;> first | rfl | exact absurd rfl h

theorem push_of_emitCut (bytes : Bytes) {kept rest : Bytes} (hne : redactor.needles ≠ [])
    (hbu : redactor.buffer stream ++ bytes = kept ++ rest)
    (hcut : emitCut (kept ++ rest) redactor.needles redactor.reserve = kept.length) :
    redactor.push stream bytes =
      (redactBytes kept redactor.needles, redactor.withBuffer rest stream) := by
  simp only [push, hbu, emitRedactedPrefix, if_neg hne, hcut, take_left, drop_left]

theorem push_eq (redactor : OutputRedactor) (stream : ConsoleStream) (bytes : Bytes) :
    ∃ kept rest, redactor.buffer stream ++ bytes = kept ++ rest ∧ (redactor.needles ≠ [] →
        emitCut (kept ++ rest) redactor.needles redactor.reserve = kept.length) ∧
      redactor.push stream bytes =
        (redactBytes kept redactor.needles, redactor.withBuffer rest stream) := by
  generalize hb : redactor.buffer stream ++ bytes = buffer
  by_cases hne : redactor.needles = []
  · refine ⟨buffer, [], (append_nil buffer).symm, absurd hne, ?_⟩
    simp only [push, hb, emitRedactedPrefix, hne]
    rfl
  generalize hc : emitCut buffer redactor.needles redactor.reserve = cut
  have hs := (take_append_drop cut buffer).symm
  have hl : emitCut (buffer.take cut ++ buffer.drop cut) redactor.needles redactor.reserve =
      (buffer.take cut).length := by
    rw [← hs, hc, length_take_of_le (hc ▸ emitCut_le)]
  exact ⟨_, _, hs, fun _ => hl, push_of_emitCut _ hne (hb.trans hs) hl⟩

theorem emitted_cons (fstr : ConsoleStream) (frames : List (ConsoleStream × Bytes)) :
    redactor.emitted stream ((fstr, bytes) :: frames) =
      (if fstr = stream then (redactor.push fstr bytes).1 else []) ++
        (redactor.push fstr bytes).2.emitted stream frames :=
  rfl

def received (stream : ConsoleStream) (frames : List (ConsoleStream × Bytes)) : Bytes :=
  (frames.filter fun frame => frame.1 = stream).flatMap Prod.snd

theorem emitted_eq_received (redactor : OutputRedactor) (stream : ConsoleStream)
    (frames : List (ConsoleStream × Bytes))
    (h : ¬ Exposes redactor.needles (redactor.buffer stream ++ received stream frames)) :
    redactor.emitted stream frames = redactor.buffer stream ++ received stream frames := by
  induction frames generalizing redactor with
  | nil =>
    rw [received, filter_nil, flatMap_nil, append_nil] at h ⊢
    exact redactBytes_eq_self h
  | cons frame frames ih =>
    obtain ⟨fstr, bytes⟩ := frame
    obtain ⟨kept, rest, hb, -, hp⟩ := redactor.push_eq fstr bytes
    rw [emitted_cons, hp]
    have hi := ih (redactor.withBuffer rest fstr)
    rw [needles_withBuffer] at hi
    by_cases hs : fstr = stream
    · subst hs
      have hr : redactor.buffer fstr ++ received fstr
          ((fstr, bytes) :: frames) = kept ++ (rest ++ received fstr frames) := by
        simp [received, ← append_assoc, hb]
      rw [hr] at h ⊢
      rw [buffer_withBuffer] at hi
      have hk : ¬ Exposes redactor.needles kept := by
        intro he
        exact h ( he.of_infix (prefix_append kept _).isInfix)
      rw [if_pos rfl, redactBytes_eq_self hk, hi]
      intro he
      exact h ( he.of_infix (suffix_append kept _).isInfix)
    · have hr : received stream ((fstr, bytes) :: frames) = received stream frames := by
        simp [received, hs]
      rw [hr] at h ⊢
      rw [buffer_withBuffer_of_ne hs] at hi
      rw [if_neg hs, nil_append, hi h]

end OutputRedactor

end Stream

/-! ### String secrets -/

end Octa.Output
