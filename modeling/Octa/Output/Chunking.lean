import Octa.Output.ByteStream

/-!
# Secrets and the frames of a stream

If no secret ends as another one begins, the cut of the redactor never falls into
a secret, not even into one whose last bytes have not arrived.
-/

namespace Octa.Output

open Masking List OutputRedactor

theorem length_le_reserveOf {nds : List Bytes} {nd : Bytes} (h : nd ∈ nds) :
    nd.length ≤ reserveOf nds + 1 := by
  have hm : nd.length ∈ nds.map List.length := mem_map_of_mem h
  cases hma : (nds.map List.length).max? with
  | none => rw [max?_eq_none_iff.mp hma] at hm; cases hm
  | some longest =>
    have hl := (max?_eq_some_iff.mp hma).2 _ hm
    rw [reserveOf, hma, Option.getD_some]
    omega

theorem parted_emitCut {nds : List Bytes} (h : OverlapFree nds) {kept rest : Bytes}
    (hcut : emitCut (kept ++ rest) nds (reserveOf nds) = kept.length) (later : Bytes) :
    Parted nds kept (rest ++ later) := by
  intro left right hm hle hr hs ha
  rcases prefix_or_prefix_of_prefix ha (prefix_append rest later) with hsh | ⟨tail, rfl⟩
  · exact not_across_emitCut hm hcut hle hr hs hsh
  by_cases ht : tail = []
  · rw [ht, append_nil] at hm hr
    exact not_across_emitCut hm hcut hle hr hs (prefix_refl rest)
  -- the gap lies behind the start of this needle only if another one covers the start
  obtain ⟨front, rfl⟩ := hs
  have hln := length_le_reserveOf hm
  have hpo := length_pos_iff.mpr hle
  have hps := length_pos_iff.mpr ht
  simp only [length_append] at hln
  obtain ⟨span, hsp, hl, hh⟩ := (emitCut_eq_length_iff.mp hcut).covered front.length
    (by rw [length_append]; omega) (by simp only [length_append]; omega)
  obtain ⟨nd, hn, before, after, hte, rfl⟩ := mem_occurrences.mp hsp
  dsimp only at hl hh
  rw [append_assoc] at hte
  obtain ⟨more, rfl, -⟩ | ⟨start, rfl, hre⟩ := append_eq_append_iff.mp hte
  · rw [length_append] at hl
    omega
  rw [length_append] at hl hh
  obtain ⟨more, rfl, -⟩ | ⟨piece, rfl, hp⟩ := append_eq_append_iff.mp hre
  · rw [length_append] at hh
    omega
  have hne : piece ≠ [] := by
    rintro rfl
    rw [append_nil] at hh
    omega
  have heq := h _ hn _ hm piece hne (suffix_append start piece)
    (fun he => by
      have hsa := congrArg List.length he
      rw [length_append] at hsa
      omega)
    (by
      rw [← append_assoc, hp, append_assoc]
      exact prefix_append piece (after ++ tail))
  have hlengths := congrArg List.length hp
  rw [heq] at hlengths
  simp only [length_append] at hlengths
  omega

namespace OutputRedactor

theorem emitted_eq_redactBytes (red : OutputRedactor) (hnd : Needles red.needles)
    (hse : OverlapFree red.needles) (hre : red.reserve = reserveOf red.needles)
    (stream : ConsoleStream) (frames : List (ConsoleStream × Bytes)) :
    red.emitted stream frames =
      redactBytes (red.buffer stream ++ received stream frames) red.needles := by
  induction frames generalizing red with
  | nil =>
    rw [received, filter_nil, flatMap_nil, append_nil]
    rfl
  | cons frame frames ih =>
    obtain ⟨fstr, bytes⟩ := frame
    obtain ⟨kept, rest, hb, hc, hp⟩ := red.push_eq fstr bytes
    have hi := ih (red.withBuffer rest fstr)
    rw [needles_withBuffer, reserve_withBuffer] at hi
    rw [emitted_cons, hp, hi hnd hse hre]
    by_cases hs : fstr = stream
    · subst hs
      have hr : red.buffer fstr ++ received fstr
          ((fstr, bytes) :: frames) = kept ++ (rest ++ received fstr frames) := by
        simp [received, ← append_assoc, hb]
      have hpa : Parted red.needles kept (rest ++ received fstr frames) := by
        by_cases hne : red.needles = []
        · intro left right hm
          rw [hne] at hm
          cases hm
        · exact parted_emitCut hse (hre ▸ hc hne) _
      rw [if_pos rfl, buffer_withBuffer, hr]
      exact (replaceEach_append_of_parted 4 hnd.nil_notMem hnd.star_notMem hpa).symm
    · have hr : received stream ((fstr, bytes) :: frames) = received stream frames := by
        simp [received, hs]
      rw [if_neg hs, nil_append, buffer_withBuffer_of_ne hs, hr]

theorem mem_needles_new {reds : List Redaction} {needle : Bytes} (h : needle ∈ (new reds).needles) :
    needle ≠ [] ∧ ∃ red ∈ reds, red.asBytes = needle :=
  ⟨of_decide_eq_true (mem_filter.mp h).2, mem_map.mp (mem_filter.mp h).1⟩

theorem needles_of_free {reds : List Redaction}
    (h : ∀ red ∈ reds, red.value ≠ [] ∧ '*' ∉ red.value) :
    Needles (new reds).needles where
  nil_notMem hmem := (mem_needles_new hmem).1 rfl
  star_notMem needle hneedle := by
    obtain ⟨-, red, hmem, rfl⟩ := mem_needles_new hneedle
    have hp : Redaction.Plain ⟨red.value, .substring⟩ := ⟨rfl, (h red hmem).1, (h red hmem).2⟩
    exact hp.star_notMem_asBytes

end OutputRedactor

/-- However a stream is cut into frames, its separate secrets are redacted as in one piece. -/
theorem separate_secrets_redacted_whole (redactions : List Redaction)
    (hfree : ∀ redaction ∈ redactions, redaction.value ≠ [] ∧ '*' ∉ redaction.value)
    (hseparate : Separate (redactions.map Redaction.asBytes)) (stream : ConsoleStream)
    (frames : List (ConsoleStream × Bytes)) : (new redactions).emitted stream frames =
      redactBytes (received stream frames) (new redactions).needles := by
  have hempty : (new redactions).buffer stream = [] := by
    cases stream <;> rfl
  have hsub {needle : Bytes} (h : needle ∈ (new redactions).needles) := (mem_filter.mp h).1
  have hwhole := (new redactions).emitted_eq_redactBytes (needles_of_free hfree)
    (fun needle hneedle other hother piece hne hends hproper hbegins =>
      absurd hbegins (hseparate.overlap needle (hsub hneedle) other (hsub hother) piece hne hends
        hproper)) rfl stream frames
  rwa [hempty, nil_append] at hwhole

/-- A stream without secrets is emitted as it is, however it is cut into frames. -/
theorem clean_stream_unchanged (redactions : List Redaction) (stream : ConsoleStream)
    (frames : List (ConsoleStream × Bytes))
    (hclean : ∀ redaction ∈ redactions, redaction.value ≠ [] →
      ¬ redaction.asBytes <:+: received stream frames) :
    (new redactions).emitted stream frames = received stream frames := by
  have hempty : (new redactions).buffer stream = [] := by
    cases stream <;> rfl
  have hwhole := (new redactions).emitted_eq_received stream frames
  rw [hempty, nil_append] at hwhole
  apply hwhole
  rintro ⟨needle, hneedle, hinfix⟩
  obtain ⟨hne, redaction, hmem, rfl⟩ := mem_needles_new hneedle
  exact hclean redaction hmem (fun hvalue => hne (by simp [Redaction.asBytes, hvalue])) hinfix

def pairOfSecrets : List Redaction := [⟨['a', 'b'], .substring⟩, ⟨['7', '8'], .token⟩]

theorem separate_pairOfSecrets : Separate (pairOfSecrets.map Redaction.asBytes) where
  contained := by decide
  overlap nd hn other ho piece hne hs hproper := by
    have ha : ∀ nd ∈ pairOfSecrets.map Redaction.asBytes,
        ∀ other ∈ pairOfSecrets.map Redaction.asBytes, ∀ piece ∈ nd.tails,
          piece ≠ [] → piece ≠ nd → ¬ piece <+: other := by decide
    exact ha nd hn other ho piece ((mem_tails _ _).mpr hs) hne hproper

theorem separate_secrets_redacted_whole_pair : (new pairOfSecrets).emitted .stdout
        [(.stdout, [120, 97]), (.stderr, [97]), (.stdout, [98, 55])] =
      [120, 42, 42, 42, 42, 42, 55] := by
  rw [separate_secrets_redacted_whole pairOfSecrets (by decide) separate_pairOfSecrets]
  decide

theorem clean_stream_unchanged_pair : (new pairOfSecrets).emitted .stdout
      [(.stdout, [97]), (.stderr, [98]), (.stdout, [55])] = [97, 55] :=
  clean_stream_unchanged _ _ _ (by decide)

end Octa.Output
