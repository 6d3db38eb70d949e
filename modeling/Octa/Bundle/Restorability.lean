import Octa.Bundle.RoundTrip

/-!
# Which packed bundles can be restored

The reader checks two bounds that the writer does not: the length of a link
text, which it reads with the limit of a path, and the ratio of the stream to
its encoding.
-/

namespace Octa.Bundle

open FileTree LinkedTree Wire Crash Device Octa.Cache Octa.LocalStore CanonicalReader List

variable {workspace : Workspace} {limits : BundleLimits} {roots outputRoots : List RelativePath}
variable {codec : Codec} {encoding : BundleEncoding} {entries : List OutputEntry}
variable {links : ℕ} {staging : FsPath} {tree : FsTree} {packed : PackedBundle} {d : Disk}

/-! ## The descriptor -/

theorem length_canonicalStream_pos (entries : List OutputEntry) :
    0 < (canonicalStream entries).length := by
  rw [canonicalStream, length_append, length_bundleMagic]
  omega

theorem length_encode_pos (hco : codec.Lossless) (encoding : BundleEncoding)
    (entries : List OutputEntry) :
    0 < (encode codec encoding (canonicalStream entries)).length := by
  cases encoding with
  | identity => exact length_canonicalStream_pos entries
  | zstdV1 level => exact length_pos_iff.mpr (hco.nonempty level _)

theorem ofNat_ne_zero {n : ℕ} {bound : UInt64} (hpos : 0 < n) (hle : n ≤ bound.toNat) :
    UInt64.ofNat n ≠ 0 := by
  intro hz
  have hn := congrArg UInt64.toNat hz
  rw [toNat_ofNat_of_le hle] at hn
  exact hpos.ne' hn

theorem validate_packed (hco : codec.Lossless)
    (h : Packs workspace limits codec encoding outputRoots roots entries packed) :
    packed.descriptor.validate = .ok () := by
  have he := ofNat_ne_zero (length_encode_pos hco encoding entries) h.encoded
  have hex := ofNat_ne_zero (length_canonicalStream_pos entries) h.expanded
  have hc := ofNat_ne_zero (length_pos_iff.mpr h.nonempty) h.count
  unfold BlobDescriptor.validate
  rw [h.descriptor]
  rw [if_neg (fun hne => hne rfl), if_neg (fun hne => hne rfl), if_neg (by simp [*]), if_neg]
  rintro ⟨hi, hne⟩
  cases encoding with
  | identity => exact hne rfl
  | zstdV1 level => cases hi

theorem validateDescriptor_packed_iff (hco : codec.Lossless)
    (h : Packs workspace limits codec encoding outputRoots roots entries packed) :
    limits.validateDescriptor packed.descriptor = .ok () ↔
      (canonicalStream entries).length ≤ (encode codec encoding (canonicalStream entries)).length *
          limits.maxCompressionRatio.toNat := by
  have he : packed.descriptor.encodedSizeBytes.toNat = _ :=
    (congrArg (fun d => d.encodedSizeBytes.toNat) h.descriptor).trans (toNat_ofNat_of_le h.encoded)
  have hex : packed.descriptor.expandedSizeBytes.toNat = _ :=
    (congrArg (fun d => d.expandedSizeBytes.toNat) h.descriptor).trans
      (toNat_ofNat_of_le h.expanded)
  have hc : packed.descriptor.entryCount.toNat = _ :=
    (congrArg (fun d => d.entryCount.toNat) h.descriptor).trans (toNat_ofNat_of_le h.count)
  have hb : ¬(limits.maxEncodedBytes < packed.descriptor.encodedSizeBytes ∨
      limits.maxExpandedBytes < packed.descriptor.expandedSizeBytes ∨
      limits.maxEntries < packed.descriptor.entryCount) := by
    have h₁ := h.encoded
    have h₂ := h.expanded
    have h₃ := h.count
    simp only [UInt64.lt_iff_toNat_lt, he, hex, hc]
    omega
  have hm := (UInt64.ofNat (canonicalStream entries).length).toNat_lt
  rw [toNat_ofNat_of_le h.expanded] at hm
  have hv : limits.validateDescriptor packed.descriptor =
      validateDescriptorLimits packed.descriptor limits := by
    unfold BundleLimits.validateDescriptor
    rw [h.validLimits, validate_packed hco h]
    rfl
  rw [hv]
  unfold validateDescriptorLimits saturatingMul
  rw [if_neg hb, he, hex]
  generalize (encode codec encoding (canonicalStream entries)).length *
    limits.maxCompressionRatio.toNat = allowed
  split
  · rename_i hr
    constructor
    · intro her
      cases her
    · intro hl
      omega
  rename_i hr
  constructor
  · intro _
    omega
  · intro _
    rfl

/-! ## The texts of links -/

variable {rest : Bytes}

theorem size_le_of_readString {mx : UInt64} {text val : String}
    (hfits : text.utf8ByteSize < 2 ^ 32) {rdr after : CanonicalReader}
    (hby : rdr.inner.bytes = textField text ++ rest)
    (hlen : rdr.taken.length + (textField text).length ≤ rdr.maximum.toNat)
    (h : readString mx rdr = .ok (val, after)) : text.utf8ByteSize ≤ mx.toNat := by
  have hr : readU32 rdr = .ok (text.utf8ByteSize,
      rdr.advance (bigEndian 4 text.utf8ByteSize) (asBytes text ++ rest)) := by
    refine reads_number 4 (by omega) rdr _ (by rw [hby, textField, append_assoc]) ?_
    rw [textField, length_append] at hlen
    omega
  unfold readString at h
  obtain ⟨⟨_, _⟩, hn, h⟩ := Fallible.bind_eq_ok (show (readU32 rdr >>= _) = _ from h)
  rw [hr] at hn
  cases hn
  by_contra hl
  simp only at h
  rw [if_pos (.inr (not_le.mp hl))] at h
  cases h

theorem target_le_of_readBody {path : RelativePath} {target : String} {isDirectory : Bool}
    (hch : OutputKind.Checked limits path (.symlink target isDirectory))
    {rd after : CanonicalReader} {node : Node Content}
    (hby : rd.inner.bytes = OutputKind.fields (.symlink target isDirectory) ++ rest)
    (hlen : rd.taken.length + (OutputKind.fields (.symlink target isDirectory)).length ≤
      rd.maximum.toNat) (h : readBody limits ⟨symlinkTag, path⟩ rd = .ok (node, after)) :
    target.utf8ByteSize ≤ limits.maxPathBytes.toNat := by
  have hb := reads_bool isDirectory rd (textField target ++ rest) hby (by
    simp only [OutputKind.fields, length_cons, length_nil] at hlen ⊢
    omega)
  obtain ⟨⟨⟨_, _⟩, _⟩, hl, -⟩ := Fallible.bind_eq_ok
    (show (readSymlink limits path rd >>= _) = _ from h)
  obtain ⟨⟨_, _⟩, hb', hl⟩ := Fallible.bind_eq_ok (show (readBool rd >>= _) = _ from hl)
  rw [hb] at hb'
  cases hb'
  obtain ⟨⟨_, _⟩, ht, -⟩ := Fallible.bind_eq_ok
    (show (readSymlinkTarget path limits.maxPathBytes _ >>= _) = _ from hl)
  obtain ⟨⟨_, _⟩, hs, -⟩ := Fallible.bind_eq_ok
    (show (readString limits.maxPathBytes _ >>= _) = _ from ht)
  refine size_le_of_readString hch.2 rfl ?_ hs
  simp only [OutputKind.fields, CanonicalReader.advance, length_cons, length_append,
    length_nil] at hlen ⊢
  omega

theorem reads_of_accepted {e : OutputEntry} (hpath : PathFits limits e.path)
    (hch : e.kind.Checked limits e.path) {head : Head} {node : Node Content}
    {rdr next after : CanonicalReader} (hby : rdr.inner.bytes = e.bytes ++ rest)
    (hlen : rdr.taken.length + e.bytes.length ≤ rdr.maximum.toNat)
    (hhead : readHead limits rdr = .ok (head, next))
    (hbody : readBody limits head next = .ok (node, after)) :
    EntryFits limits e ∧ after = rdr.advance e.bytes rest := by
  have hre := reads_head hpath e.kind.tag rdr (e.kind.fields ++ rest)
    (by rw [hby]; simp [OutputEntry.bytes]) (by
      simp only [OutputEntry.bytes, length_cons, length_append] at hlen ⊢
      omega)
  rw [hre] at hhead
  obtain ⟨rfl, rfl⟩ := Prod.mk.inj (Except.ok.inj hhead)
  have hr : (rdr.advance (e.kind.tag :: textField e.path.value)
      (e.kind.fields ++ rest)).taken.length + e.kind.fields.length ≤
        rdr.maximum.toNat := by
    simp only [OutputEntry.bytes, CanonicalReader.advance, length_cons, length_append] at hlen ⊢
    omega
  have hf : e.kind.Fits limits e.path := by
    cases hk : e.kind with
    | directory => trivial
    | file cnt exe =>
      rw [hk] at hch
      exact hch
    | symlink target isDirectory =>
      rw [hk] at hch hbody hr
      exact ⟨hch.1, target_le_of_readBody hch rfl hr hbody, hch.2⟩
  refine ⟨⟨hpath, hf⟩, ?_⟩
  rw [reads_body hf rfl rfl _ rest rfl hr] at hbody
  obtain ⟨-, rfl⟩ := Prod.mk.inj (Except.ok.inj hbody)
  simp [CanonicalReader.advance, OutputEntry.bytes]

theorem wpe_extractEntries_fits (hrs : RootsApart roots)
    {done : List Head} {prog : Progress} (h : Running False staging roots done d)
    (hord : Ordered done prog.previous) (hpath : ∀ e ∈ entries, PathFits limits e.path)
    (hch : ∀ e ∈ entries, e.kind.Checked limits e.path)
    (hby : prog.reader.inner.bytes = entries.flatMap OutputEntry.bytes ++ rest)
    (hlen : prog.reader.taken.length + (entries.flatMap OutputEntry.bytes).length ≤
      prog.reader.maximum.toNat) :
    (Disk.device links).wpe (extractEntries limits staging roots entries.length prog)
      (fun _ _ => ∀ e ∈ entries, EntryFits limits e) (fun _ _ => True) (fun _ => True) d := by
  induction entries generalizing done prog d with
  | nil => exact wpe_pure trivial fun _ he => absurd he not_mem_nil
  | cons e entries ih =>
    rw [flatMap_cons] at hby hlen
    rw [append_assoc] at hby
    rw [length_append] at hlen
    refine wpe_bind (wpe_mono
      (wpe_extractEntry hrs h hord fun hf => hf.elim) ?_ (fun _ _ _ => trivial)
      (fun _ _ => trivial))
    rintro ⟨rd, prev, cur⟩ d' ⟨head, next, node, hh, hb, ho', h'⟩
    obtain ⟨hfi, hre⟩ := reads_of_accepted (hpath e mem_cons_self)
      (hch e mem_cons_self) hby (by omega) hh hb
    obtain rfl : rd = _ := hre
    refine wpe_mono (ih h' ho' (fun other hother => hpath other (mem_cons_of_mem _ hother))
      (fun other hother => hch other (mem_cons_of_mem _ hother)) rfl ?_) ?_
      (fun _ _ _ => trivial) (fun _ _ => trivial)
    · simp only [CanonicalReader.advance, length_append]
      omega
    intro _ _ hr other hother
    obtain rfl | hother := mem_cons.mp hother
    · exact hfi
    · exact hr other hother

theorem wpe_extractBundle_fits (hco : codec.Lossless)
    (h : Packs workspace limits codec encoding outputRoots roots entries packed)
    (hst : EmptyDirectory staging tree) :
    (Disk.device links).wpe (extractBundle codec ⟨packed.bytes, none⟩ packed.descriptor staging
        outputRoots limits)
      (fun _ _ => ∀ e ∈ entries, EntryFits limits e) (fun _ _ => True) (fun _ => True)
      ⟨tree, []⟩ := by
  have hd := decoded_packed hco h
  have he := h.expanded
  have hc : packed.descriptor.entryCount.toNat = entries.length := by
    rw [h.descriptor]
    exact toNat_ofNat_of_le h.count
  unfold canonicalStream at he hd
  unfold extractBundle
  refine wpe_bind (wpe_liftResult trivial (fun lim' hl => ?_) fun _ => trivial)
  obtain rfl := BundleLimits.eq_of_validate hl
  refine wpe_bind (wpe_liftResult trivial (fun _ _ => ?_) fun _ => trivial)
  refine wpe_bind (wpe_liftResult trivial (fun _ _ => ?_) fun _ => trivial)
  refine wpe_bind (wpe_mono (succeeds_checkEmptyStaging hst) ?_
    (fun _ _ _ => trivial) (fun _ _ => trivial))
  rintro _ _ rfl
  refine wpe_bind (wpe_liftResult trivial (fun rs' hr => ?_) fun _ => trivial)
  have hv := eq_ok_of_liftCache hr
  rw [hd]
  refine wpe_bind (wpe_mono (Q := fun _ _ => ∀ e ∈ entries,
    EntryFits limits e) (E := fun _ _ => True) (C := fun _ => True) ?_ ?_
    (fun _ _ _ => trivial) (fun _ _ => trivial))
  · unfold extractCanonical
    rw [canonicalReader_magic he, hc]
    rw [length_append] at he
    refine wpe_bind (wpe_pure trivial ?_)
    refine wpe_bind (wpe_mono (wpe_extractEntries_fits
      (validateOutputRoots_ok hv).2.2 (.initial hst.base hst.empty)
      (fun _ hh => absurd hh not_mem_nil) h.path h.checked (append_nil _).symm
      he) ?_ (fun _ _ _ => trivial) (fun _ _ => trivial))
    intro _ _ hf
    exact wpe_liftResult trivial (fun _ _ => hf) fun _ => trivial
  · intro _ _ hf
    exact wpe_liftResult trivial (fun _ _ => hf) fun _ => trivial

/-! ## Restoring -/

/-- A packed bundle is accepted back exactly when its link texts are within the limit of a path
and its stream is within the compression ratio. -/
theorem packed_restorable_iff (hcodec : codec.Lossless)
    (hpack : packBundle workspace limits codec outputRoots encoding = .ok packed)
    (hstaging : EmptyDirectory staging tree) :
    (limits.validateDescriptor packed.descriptor = .ok () ∧
      ∃ d, (Disk.device links).run (extractBundle codec ⟨packed.bytes, none⟩ packed.descriptor
        staging outputRoots limits).run ⟨tree, []⟩ = (.ok (), d)) ↔
    (∀ path target isDirectory, workspace.Holds outputRoots path (.symlink target isDirectory) →
      target.utf8ByteSize ≤ limits.maxPathBytes.toNat) ∧
    ∀ entries, ListsForest workspace outputRoots entries → (canonicalStream entries).length ≤
        (encode codec encoding (canonicalStream entries)).length *
          limits.maxCompressionRatio.toNat := by
  obtain ⟨roots, entries, h⟩ := packBundle_eq_ok hpack
  have hdescriptor := validateDescriptor_packed_iff hcodec h
  constructor
  · rintro ⟨hvalid, d, hrun⟩
    constructor
    · intro path target isDirectory hholds
      obtain ⟨entry, hentry, -, hkind⟩ := (h.forest.holds _ _).mp hholds
      have hfits := (wpe_ok (wpe_extractBundle_fits hcodec h hstaging) hrun entry hentry).kind
      rw [hkind] at hfits
      exact hfits.2.1
    intro entries' hforest
    obtain rfl := hforest.unique h.forest
    exact hdescriptor.mp hvalid
  · rintro ⟨htargets, hratio⟩
    have hvalid := hdescriptor.mpr (hratio entries h.forest)
    have hsucceeds : Succeeds links _ _ _ :=
      succeeds_extractBundle hcodec h hvalid (h.targets htargets) hstaging
    obtain ⟨⟨⟩, d, hrun, -⟩ := exists_of_wpe hsucceeds
    exact ⟨hvalid, d, hrun⟩

theorem packed_restorable_iff_directory :
    ∃ packed, packBundle sampleWorkspace smallLimits framedCodec [pathA] (.zstdV1 3) = .ok packed ∧
      smallLimits.validateDescriptor packed.descriptor = .ok () ∧
      ∃ d, (Disk.device 40).run (extractBundle framedCodec ⟨packed.bytes, none⟩ packed.descriptor
        ["w", "s"] [pathA] smallLimits).run ⟨twoDirectories, []⟩ = (.ok (), d) := by
  obtain ⟨packed, hpack⟩ := packBundle_complete packable_sampleWorkspace
  refine ⟨packed, hpack, (packed_restorable_iff framedCodec_lossless hpack
    empty_twoDirectories).mpr ⟨targets_sampleWorkspace, ?_⟩⟩
  intro entries hforest
  rw [hforest.unique listsForest_sampleEntries]
  decide +kernel

/-- The only output is a link whose text is longer than its path. -/
def longLink : Workspace where
  root := ["w"]
  output path := if path = pathA then some (.symlink "bb" false) else none
  canonicalize _ := .ok ["w", "bb"]
  wellFormed path output h := by
    split at h
    · cases h
      exact .symlink false (by decide +kernel)
    · cases h

def shortPaths : BundleLimits := ⟨1000, 1000, 10, 1, 100, 10, 4096⟩

theorem long_link_packed_not_restored :
    ∃ packed, packBundle longLink shortPaths framedCodec [pathA] .identity = .ok packed ∧
      shortPaths.validateDescriptor packed.descriptor = .ok () ∧
      ((Disk.device 40).run (extractBundle framedCodec ⟨packed.bytes, none⟩ packed.descriptor
        ["w", "s"] [pathA] shortPaths).run ⟨twoDirectories, []⟩).1 =
          .error (.cache (.limit "bundle string length 2 is outside configured bounds")) := by
  have hpacked : (packBundle longLink shortPaths framedCodec [pathA] .identity >>= fun packed => do
      shortPaths.validateDescriptor packed.descriptor
      return ((Disk.device 40).run (extractBundle framedCodec ⟨packed.bytes, none⟩
        packed.descriptor ["w", "s"] [pathA] shortPaths).run ⟨twoDirectories, []⟩).1) =
      .ok (.error (.cache (.limit "bundle string length 2 is outside configured bounds"))) := by
    decide +kernel
  obtain ⟨packed, hpack, hpacked⟩ := Fallible.bind_eq_ok hpacked
  obtain ⟨⟨⟩, hvalid, hrun⟩ := Fallible.bind_eq_ok hpacked
  exact ⟨packed, hpack, hvalid, Except.ok.inj hrun⟩

end Octa.Bundle
