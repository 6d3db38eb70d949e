import Octa.Bundle.Packable

/-!
# Packing and extracting

What the writer produces is the canonical stream of the forest, and the reader
restores the forest from it.
-/

namespace Octa.Bundle

open FileTree LinkedTree Wire Crash Octa.Cache Octa.LocalStore CanonicalReader Fallible UInt64
    OutputKind
open List hiding get contains

variable {workspace : Workspace} {limits : BundleLimits} {roots outputRoots : List RelativePath}
variable {codec : Codec} {encoding : BundleEncoding} {entries : List OutputEntry}

/-! ## What the writer produces -/

theorem slash_not_mem_components (path : RelativePath) :
    ∀ name ∈ path.components, '/' ∉ name.toList := by
  intro name hn
  obtain ⟨text, ht, rfl⟩ := mem_map.mp hn
  rw [String.toList_ofList]
  exact slash_not_mem ht

variable {root : RelativePath}

theorem visitRoot_eq_ok {sched after : ℕ} {b : List OutputEntry}
    (h : visitRoot workspace limits root sched = .ok (b, after)) :
    (∃ output, workspace.output root = some output ∧
      Lists limits output root.components b) ∧ after + 1 = sched + b.length ∧
      (sched ≤ limits.maxEntries.toNat → after ≤ limits.maxEntries.toNat) := by
  unfold visitRoot at h
  split at h
  · cases h
  rename_i output ho
  obtain ⟨hl, hc, hb⟩ := visitOutput_eq_ok (components_ne_nil root)
    (slash_not_mem_components root) (workspace.wellFormed root output ho) h
  exact ⟨⟨output, ho, hl⟩, hc, hb⟩

theorem visitOutputTree_eq_ok {after : ℕ}
    (h : visitOutputTree workspace limits roots = .ok (entries, after)) :
    (∃ bs, List.Forall₂ (fun root b => ∃ output, workspace.output root = some output ∧
        Lists limits output root.components b) roots bs ∧ entries = bs.flatten) ∧
      entries.length ≤ limits.maxEntries.toNat := by
  unfold visitOutputTree at h
  obtain ⟨hr, h⟩ := ite_error_eq_ok h
  obtain ⟨hb, hc, hbu⟩ := runVisits_blocks limits
    (P := fun root b => ∃ output, workspace.output root = some output ∧
      Lists limits output root.components b)
    (fun root _ sched b after hv => visitRoot_eq_ok hv) h
  refine ⟨hb, ?_⟩
  have hl := hbu (not_lt.mp hr)
  omega

theorem listsForest_of_blocks (hap : RootsApart roots)
    (hlt : roots.Pairwise fun p q => p.components < q.components) {bs : List (List OutputEntry)}
    (hblo : List.Forall₂ (fun root b => ∃ output, workspace.output root = some output ∧
      Lists limits output root.components b) roots bs) :
    ListsForest workspace roots bs.flatten where
  sorted := by
    refine pairwise_flatten.mpr ⟨fun b hb => ?_, ?_⟩
    · obtain ⟨root, -, output, -, hls⟩ := exists_left_of_mem hblo hb
      exact hls.sorted
    refine pairwise_of_forall₂ hblo (hlt.and hap) ?_
    rintro root root' b b' ⟨hle, hp⟩ ⟨_, -, hls⟩ ⟨_, -, hl'⟩ left hlf right hri
    obtain ⟨r, hr⟩ := hls.below left hlf
    obtain ⟨s, hs⟩ := hl'.below right hri
    rw [← hr, ← hs]
    exact append_lt_append hle hp.1
  holds path kind := by
    constructor
    · rintro ⟨root, hro, output, ho, r, rfl, hl⟩
      obtain ⟨b, hb, out', ho', hls⟩ := exists_right_of_mem hblo hro
      cases ho.symm.trans ho'
      obtain ⟨e, he, hc, hk⟩ := (hls.lookup r kind).mp hl
      exact ⟨e, mem_flatten.mpr ⟨b, hb, he⟩, hc, hk⟩
    rintro ⟨e, he, rfl, hk⟩
    obtain ⟨b, hb, he⟩ := mem_flatten.mp he
    obtain ⟨root, hro, output, ho, hls⟩ := exists_left_of_mem hblo hb
    obtain ⟨r, hr⟩ := hls.below e he
    exact ⟨root, hro, output, ho, r, hr.symm, (hls.lookup r kind).mpr ⟨e, he, hr.symm, hk⟩⟩

structure Packs (workspace : Workspace) (limits : BundleLimits) (codec : Codec)
    (encoding : BundleEncoding) (outputRoots roots : List RelativePath)
    (entries : List OutputEntry) (packed : PackedBundle) : Prop where
  validLimits : limits.validate = .ok limits
  validRoots : validateOutputRoots outputRoots = .ok roots
  canonical : Canonical roots [] none entries
  forest : ListsForest workspace outputRoots entries
  present : ∀ root ∈ outputRoots, ∃ output, workspace.output root = some output
  nonempty : entries ≠ []
  count : entries.length ≤ limits.maxEntries.toNat
  path : ∀ entry ∈ entries, PathFits limits entry.path
  checked : ∀ entry ∈ entries, entry.kind.Checked limits entry.path
  expanded : (canonicalStream entries).length ≤ limits.maxExpandedBytes.toNat
  encoded : (encode codec encoding (canonicalStream entries)).length ≤ limits.maxEncodedBytes.toNat
  bytes : packed.bytes = encode codec encoding (canonicalStream entries)
  descriptor : packed.descriptor = {
    digest := digestOf codec (canonicalStream entries)
    encoding := encoding.protocol
    encodedSizeBytes := UInt64.ofNat (encode codec encoding (canonicalStream entries)).length
    expandedSizeBytes := UInt64.ofNat (canonicalStream entries).length
    entryCount := UInt64.ofNat entries.length }

theorem ListsForest.of_mem (h : ListsForest workspace roots entries)
    (hmem : ∀ p, p ∈ roots ↔ p ∈ outputRoots) : ListsForest workspace outputRoots entries where
  sorted := h.sorted
  holds path kind := by
    rw [← h.holds path kind]
    unfold Workspace.Holds
    simp only [hmem]

theorem notRoot_of_below {path : RelativePath} (hroot : root.isRoot = false)
    (h : root.components <+: path.components) : path.isRoot = false := by
  rw [← Bool.not_eq_true] at hroot ⊢
  intro hp
  refine hroot ?_
  have hv : path.value = "." := eq_of_beq hp
  have hc : path.components = RelativePath.root.components := by
    rw [RelativePath.components, hv]
    rfl
  have hs : path.components = ["."] := by
    rw [hc]
    decide +kernel
  rw [hs] at h
  have he : root.components = ["."] := by
    refine h.eq_of_length_le ?_
    rw [length_singleton]
    exact length_pos_iff.mpr (components_ne_nil root)
  have hsa : root = path := RelativePath.components_injective (he.trans hs.symm)
  rw [hsa]
  exact hp

variable {encoding' : BundleEncoding}

theorem encoding_eq_of_validate (h : encoding.validate = .ok encoding') : encoding = encoding' := by
  cases encoding with
  | identity => exact Except.ok.inj h
  | zstdV1 level =>
    change (if -7 ≤ level ∧ level ≤ 22 then _ else _) = _ at h
    split_ifs at h
    exact Except.ok.inj h

theorem packBundle_eq_ok {packed : PackedBundle}
    (h : packBundle workspace limits codec outputRoots encoding = .ok packed) :
    ∃ roots entries, Packs workspace limits codec encoding outputRoots roots entries packed := by
  unfold packBundle at h
  obtain ⟨lim', hli, h⟩ := bind_eq_ok h
  obtain rfl := BundleLimits.eq_of_validate hli
  obtain ⟨encoding', hen, h⟩ := bind_eq_ok h
  obtain rfl := encoding_eq_of_validate hen
  obtain ⟨roots, hrs, h⟩ := bind_eq_ok h
  have hv := eq_ok_of_liftCache hrs
  obtain ⟨⟨entries, after⟩, hvi, h⟩ := bind_eq_ok h
  obtain ⟨hex, h⟩ := ite_error_eq_ok h
  obtain ⟨henc, h⟩ := ite_error_eq_ok h
  obtain ⟨⟨bs, hbl, rfl⟩, hc⟩ := visitOutputTree_eq_ok hvi
  obtain ⟨hne, hr, ha⟩ := validateOutputRoots_ok hv
  have hlt := pairwise_lt_of_validateOutputRoots hv
  have he : ∀ e ∈ bs.flatten, ∃ root ∈ roots, ∃ output block,
      Lists limits output root.components block ∧ e ∈ block := by
    intro e he
    obtain ⟨block, hb, he⟩ := mem_flatten.mp he
    obtain ⟨root, hm, output, -, hl⟩ := exists_left_of_mem hbl hb
    exact ⟨root, hm, output, block, hl, he⟩
  refine ⟨roots, bs.flatten, hli, hv, ?_, ?_, ?_, ?_, hc, ?_, ?_,
    not_lt.mp hex, not_lt.mp henc, ?_, ?_⟩
  · exact canonical_blocks ha hlt (nil_append roots).symm hne hbl fun _ ho => absurd ho not_mem_nil
  · exact (listsForest_of_blocks ha hlt hbl).of_mem (mem_of_validateOutputRoots hv)
  · intro root hr
    obtain ⟨block, -, output, hou, -⟩ := exists_right_of_mem hbl
      ((mem_of_validateOutputRoots hv root).mpr hr)
    exact ⟨output, hou⟩
  · obtain ⟨root, rest, rfl⟩ := exists_cons_of_ne_nil hne
    obtain ⟨block, hb, output, -, hl⟩ := exists_right_of_mem hbl mem_cons_self
    obtain ⟨first, todo, rfl, -⟩ := hl.first
    exact ne_nil_of_mem (mem_flatten.mpr ⟨_, hb, mem_cons_self⟩)
  · intro e hi
    obtain ⟨root, hm, output, block, hl, hi⟩ := he e hi
    exact ⟨hl.size e hi, notRoot_of_below (hr root hm) (hl.below e hi)⟩
  · intro e hi
    obtain ⟨root, -, output, block, hl, hi⟩ := he e hi
    exact hl.checked e hi
  · rw [← Except.ok.inj h]
  · rw [← Except.ok.inj h]

theorem packBundle_complete (h : Packable workspace limits codec encoding outputRoots) :
    ∃ packed, packBundle workspace limits codec outputRoots encoding = .ok packed := by
  obtain ⟨roots, hr⟩ := h.validRoots
  have hp := perm_of_validateOutputRoots hr
  obtain ⟨⟨entries, after⟩, hv⟩ := visitOutputTree_complete
    (fun root hro => h.accepted root (hp.mem_iff.mp hro))
    ((hp.map workspace.size).sum_nat.trans_le h.count)
  obtain ⟨⟨bs, hb, rfl⟩, -⟩ := visitOutputTree_eq_ok hv
  have hf := (listsForest_of_blocks (validateOutputRoots_ok hr).2.2
    (pairwise_lt_of_validateOutputRoots hr) hb).of_mem (mem_of_validateOutputRoots hr)
  have hl : liftCache (validateOutputRoots outputRoots) = .ok roots := by
    rw [hr]
    rfl
  refine exists_bind_eq_ok h.validLimits (exists_bind_eq_ok h.validEncoding
    (exists_bind_eq_ok hl (exists_bind_eq_ok hv ?_)))
  simp only
  rw [if_neg (not_lt.mpr (h.expanded _ hf)), if_neg (not_lt.mpr (h.encoded _ hf))]
  exact ⟨_, rfl⟩

/-! ## What the reader restores -/

/-- Zstandard decompression inverts compression and consumes the whole frame, which is not
empty. -/
structure Codec.Lossless (codec : Codec) : Prop where
  decompress : ∀ level bytes, codec.decompress ⟨codec.compress level bytes, none⟩ =
    (⟨bytes, none⟩, (codec.compress level bytes).length)
  nonempty : ∀ level bytes, codec.compress level bytes ≠ []

structure EmptyDirectory (staging : FsPath) (tree : FsTree) : Prop where
  base : ∀ q, q ≠ [] → q <+: staging → get tree q = some .dir
  empty : ∀ r, r ≠ [] → get tree (staging ++ r) = none

variable {links : ℕ} {staging : FsPath} {tree : FsTree} {packed : PackedBundle}

theorem toNat_ofNat_of_le {n : ℕ} {bound : UInt64} (h : n ≤ bound.toNat) : (ofNat n).toNat = n :=
  toNat_ofNat_of_lt' (h.trans_lt bound.toNat_lt)

theorem decoded_packed (hco : codec.Lossless)
    (h : Packs workspace limits codec encoding outputRoots roots entries packed) :
    decoded codec ⟨packed.bytes, none⟩ packed.descriptor =
      (⟨canonicalStream entries, none⟩, packed.descriptor.encodedSizeBytes.toNat) := by
  have hs : packed.descriptor.encodedSizeBytes.toNat = packed.bytes.length := by
    rw [h.descriptor, h.bytes]
    exact toNat_ofNat_of_le h.encoded
  have hl : Source.limited ⟨packed.bytes, none⟩ packed.descriptor.encodedSizeBytes.toNat =
      ⟨packed.bytes, none⟩ := by
    unfold Source.limited
    rw [if_pos hs.ge]
  have he : packed.descriptor.encoding = encoding.protocol := by rw [h.descriptor]
  unfold decoded
  rw [hl, hs, he, h.bytes]
  cases encoding with
  | identity => rfl
  | zstdV1 level => exact hco.decompress level _

theorem initial_restored (h : EmptyDirectory staging tree) :
    Restored staging roots [] ⟨tree, []⟩ where
  base := h.base
  inside _ hentry := absurd hentry not_mem_nil
  holds _ hentry := absurd hentry not_mem_nil
  closed _ hentry := absurd hentry not_mem_nil
  only r hr node hget := by
    rw [h.empty r hr] at hget
    cases hget

theorem succeeds_checkEmptyStaging (h : EmptyDirectory staging tree) :
    Succeeds links (checkEmptyStaging staging) (fun _ d => d = ⟨tree, []⟩) ⟨tree, []⟩ := by
  have hm : Disk.symlinkMetadata links ⟨tree, []⟩ staging = .ok .dir :=
    symlinkMetadata_of_dirs h.base
  have he : isEmptyBelow tree staging = true := isEmptyBelow_iff.mpr h.empty
  unfold checkEmptyStaging
  refine Succeeds.call (Prod.ext hm rfl) (Succeeds.checked ?_)
  refine Succeeds.call (Prod.ext he rfl) ?_
  exact Succeeds.pure rfl

theorem finishCanonical_eq_ok {desc : BlobDescriptor} {prog : Progress} {idx : ℕ}
    (hroot : prog.currentRoot = some idx) (hin : idx + 1 = roots.length)
    (hinn : prog.reader.inner = ⟨[], none⟩)
    (hsize : ofNat prog.reader.taken.length = desc.expandedSizeBytes)
    (hdi : digestOf codec prog.reader.taken = desc.digest) :
    finishCanonical codec desc roots prog = .ok () := by
  have ho : readOptionalByte prog.reader = .ok (none, prog.reader) := by
    unfold readOptionalByte
    rw [hinn]
  unfold finishCanonical
  simp only [hroot, hin, ne_eq, not_true_eq_false, if_false, ho]
  change (if ¬ofNat prog.reader.taken.length = desc.expandedSizeBytes ∨
    ¬digestOf codec prog.reader.taken = desc.digest then _ else _) = _
  rw [if_neg (by simp [hsize, hdi])]
  rfl

theorem length_bundleMagic : bundleMagic.length = 8 := by decide +kernel

theorem reads_magic : Reads checkMagic bundleMagic () := by
  unfold checkMagic
  refine (Reads.of_length length_bundleMagic).bind_nil ?_
  simp only [ne_eq, not_true_eq_false, if_false]
  exact Reads.pure ()

theorem canonicalReader_magic {source : Bytes} (hlen : (bundleMagic ++ source).length ≤
      limits.maxExpandedBytes.toNat) :
    checkMagic (canonicalReader ⟨bundleMagic ++ source, none⟩ limits) =
      .ok ((), ⟨⟨source, none⟩, bundleMagic, limits.maxExpandedBytes⟩) := by
  refine reads_magic (canonicalReader ⟨bundleMagic ++ source, none⟩ limits) source rfl ?_
  rw [length_append] at hlen
  change 0 + bundleMagic.length ≤ limits.maxExpandedBytes.toNat
  omega

theorem entryFits (h : Packs workspace limits codec encoding outputRoots roots entries packed)
    (hta : ∀ entry ∈ entries, ∀ target isDirectory, entry.kind = .symlink target isDirectory →
        target.utf8ByteSize ≤ limits.maxPathBytes.toNat) :
    ∀ entry ∈ entries, EntryFits limits entry := by
  intro entry he
  refine ⟨h.path entry he, ?_⟩
  have hc := h.checked entry he
  cases hk : entry.kind with
  | directory => trivial
  | file cnt exe =>
    rw [hk] at hc
    exact hc
  | symlink target isDirectory =>
    rw [hk] at hc
    exact ⟨hc.1, hta entry he target isDirectory hk, hc.2⟩

theorem succeeds_extractBundle (hco : codec.Lossless)
    (h : Packs workspace limits codec encoding outputRoots roots entries packed)
    (hdesc : limits.validateDescriptor packed.descriptor = .ok ())
    (hta : ∀ e ∈ entries, ∀ target isDirectory, e.kind = .symlink target isDirectory →
        target.utf8ByteSize ≤ limits.maxPathBytes.toNat) (hst : EmptyDirectory staging tree) :
    Succeeds links (extractBundle codec ⟨packed.bytes, none⟩ packed.descriptor staging outputRoots
      limits) (fun _ d => Restored staging roots entries d) ⟨tree, []⟩ := by
  obtain ⟨lim', hl, hdesc⟩ := bind_eq_ok hdesc
  obtain rfl := BundleLimits.eq_of_validate hl
  obtain ⟨⟨⟩, hp, hb⟩ := bind_eq_ok hdesc
  have hd := decoded_packed hco h
  have hc : packed.descriptor.entryCount.toNat = entries.length := by
    rw [h.descriptor]
    exact toNat_ofNat_of_le h.count
  have he := h.expanded
  unfold canonicalStream at he hd
  unfold extractBundle
  refine Succeeds.lift hl (Succeeds.lift hp (Succeeds.lift hb ?_))
  refine Succeeds.bind (succeeds_checkEmptyStaging hst) ?_
  rintro _ _ rfl
  have hrs : liftCache (validateOutputRoots outputRoots) = .ok roots := by
    rw [h.validRoots]
    rfl
  refine Succeeds.lift hrs ?_
  rw [hd]
  refine Succeeds.bind (P := fun _ d => Restored staging roots entries d) ?_ ?_
  · unfold extractCanonical
    refine Succeeds.lift (canonicalReader_magic he) ?_
    rw [hc]
    rw [length_append] at he
    refine Succeeds.bind (succeeds_extractEntries (validateOutputRoots_ok h.validRoots).2.2
      h.canonical (initial_restored hst) (entryFits h hta)
      (append_nil _).symm he (fun _ hpa => by cases hpa)) ?_
    rintro prog d ⟨hr, ⟨idx, hro, hi⟩, hre⟩
    have hf : finishCanonical codec packed.descriptor roots prog = .ok () := by
      refine finishCanonical_eq_ok hro hi ?_ ?_ ?_
      · rw [hr]
        rfl
      · rw [hr, h.descriptor]
        rfl
      · rw [hr, h.descriptor]
        rfl
    exact Succeeds.result hf hre
  · intro _ d hre
    refine Succeeds.result (a := ()) ?_ hre
    unfold verifyComplete
    rw [if_neg (by simp)]

theorem Restored.get_eq {d : Disk} (h : Restored staging roots entries d)
    (hrs : RootsApart roots)
    (hfo : ListsForest workspace roots entries) (hroot : root ∈ roots)
    {output : Output} (hout : workspace.output root = some output) (r : FsPath) :
    get d.tree (staging ++ (root.components ++ r)) = (output.lookup r).map node := by
  have hw : Within roots (root.components ++ r) := ⟨root, hroot, prefix_append _ _⟩
  -- the root of a path is unique, so the forest holds there what this output holds
  have hh : ∀ kind, workspace.Holds roots (root.components ++ r) kind ↔
      output.lookup r = some kind := by
    intro kind
    constructor
    · rintro ⟨root', hr', out', ho', r', hp, hl⟩
      have : Std.Symm fun p q : RelativePath => Apart p.components q.components :=
        ⟨fun _ _ ha => ha.symm⟩
      obtain rfl : root = root' := by
        by_contra hne
        exact (hrs.forall hroot hr' hne).not_both (prefix_append _ r) (hp ▸ prefix_append _ r')
      cases hout.symm.trans ho'
      rwa [append_cancel_left hp]
    · intro hl
      exact ⟨root, hroot, output, hout, r, rfl, hl⟩
  cases hl : output.lookup r with
  | some kind =>
    obtain ⟨e, he, hc, rfl⟩ := (hfo.holds _ kind).mp ((hh kind).mpr hl)
    rw [← hc, h.holds e he]
    rfl
  | none =>
    by_contra hs
    obtain ⟨node, hg⟩ := Option.ne_none_iff_exists'.mp hs
    have hne : root.components ++ r ≠ [] := by simp [components_ne_nil]
    obtain ⟨-, hab⟩ | ⟨e, he, hc⟩ := h.only _ hne node hg
    · exact hw.not_above hrs hab
    have hhe := (hfo.holds _ e.kind).mpr ⟨e, he, hc, rfl⟩
    rw [hh, hl] at hhe
    cases hhe

/-! ## Streams determine their entries -/

theorem reads_body {path : RelativePath} {kind : OutputKind} (h : kind.Fits limits path)
    {head : Head} (htag : head.tag = kind.tag) (hpath : head.path = path) :
    Reads (readBody limits head) kind.fields kind.node := by
  subst hpath
  intro rd rest hb hl
  cases kind with
  | directory =>
    rw [readBody_directory htag]
    exact Reads.pure Node.dir rd rest hb hl
  | file cnt exe =>
    have hh := @reads_fileHeader limits head.path cnt exe h rd
      (cnt ++ rest) (by rw [hb]; simp [fields]) (by
        simp only [fields, length_cons, length_append] at hl ⊢
        omega)
    have hc := Reads.exact cnt
      (rd.advance (boolByte exe :: bigEndian 8 cnt.length) (cnt ++ rest)) rest
      rfl (by
        simp only [fields, CanonicalReader.advance, length_cons, length_append] at hl ⊢
        omega)
    rw [readBody_file htag hh hc]
    simp [CanonicalReader.advance, fields, node]
  | symlink target isDirectory =>
    exact readBody_symlink htag (reads_symlink isDirectory h rd rest hb hl)

theorem OutputKind.node_injective {kind kind' : OutputKind} (h : kind.node = kind'.node) :
    kind = kind' := by
  cases kind <;> cases kind' <;> simp_all [node]

def formatLimits : BundleLimits where
  maxEncodedBytes := UInt64.ofNat (2 ^ 64 - 1)
  maxExpandedBytes := UInt64.ofNat (2 ^ 64 - 1)
  maxEntries := UInt64.ofNat (2 ^ 64 - 1)
  maxPathBytes := UInt64.ofNat (2 ^ 64 - 1)
  maxFileBytes := UInt64.ofNat (2 ^ 64 - 1)
  maxCompressionRatio := UInt64.ofNat (2 ^ 64 - 1)
  readBufferBytes := UInt64.ofNat (2 ^ 12)

theorem toNat_maximum : (ofNat (2 ^ 64 - 1)).toNat = 2 ^ 64 - 1 := by decide

theorem formatFits {entry : OutputEntry} (hpath : PathFits limits entry.path)
    (hch : entry.kind.Checked limits entry.path) : EntryFits formatLimits entry := by
  have hs := size_le entry.path
  refine ⟨⟨?_, hpath.notRoot⟩, ?_⟩
  · change entry.path.value.utf8ByteSize ≤ (ofNat (2 ^ 64 - 1)).toNat
    rw [toNat_maximum]
    omega
  cases hk : entry.kind with
  | directory => trivial
  | file cnt exe =>
    rw [hk] at hch
    have hm := limits.maxFileBytes.toNat_lt
    change cnt.length ≤ (ofNat (2 ^ 64 - 1)).toNat
    have hl : cnt.length ≤ limits.maxFileBytes.toNat := hch
    rw [toNat_maximum]
    omega
  | symlink target isDirectory =>
    rw [hk] at hch
    obtain ⟨hv, hl⟩ := hch
    refine ⟨hv, ?_, hl⟩
    change target.utf8ByteSize ≤ (ofNat (2 ^ 64 - 1)).toNat
    rw [toNat_maximum]
    omega

theorem entry_determined {en e' : OutputEntry} (h : EntryFits formatLimits en)
    (h' : EntryFits formatLimits e') {rest rest' : Bytes}
    (hlen : en.bytes.length < 2 ^ 64) (hlen' : e'.bytes.length < 2 ^ 64)
    (heq : en.bytes ++ rest = e'.bytes ++ rest') : en = e' ∧ rest = rest' := by
  have hr : ∀ {e : OutputEntry}, EntryFits formatLimits e → Reads (do
      let head ← readHead formatLimits
      let node ← readBody formatLimits head
      return (head.path, node)) e.bytes (e.path, e.kind.node) := by
    intro e he
    have hs : e.bytes = (e.kind.tag :: textField e.path.value) ++ e.kind.fields := by
      simp [OutputEntry.bytes]
    rw [hs]
    have hb : Reads (readBody formatLimits ⟨e.kind.tag, e.path⟩) e.kind.fields e.kind.node :=
      reads_body he.kind rfl rfl
    exact (reads_head he.path e.kind.tag).bind (hb.map fun node => (e.path, node))
  have hm := toNat_maximum
  have hf := hr h ⟨⟨en.bytes ++ rest, none⟩, [], ofNat (2 ^ 64 - 1)⟩ rest rfl (by
    simp only [length_nil, hm]
    omega)
  have hse := hr h' ⟨⟨e'.bytes ++ rest', none⟩, [], ofNat (2 ^ 64 - 1)⟩ rest' rfl (by
      simp only [length_nil, hm]
      omega)
  rw [heq, hse] at hf
  obtain ⟨hv, hre⟩ := Prod.mk.inj (Except.ok.inj hf)
  obtain ⟨hp, hn⟩ := Prod.mk.inj hv
  have hk := node_injective hn
  constructor
  · cases en
    cases e'
    simp only [OutputEntry.mk.injEq]
    exact ⟨hp.symm, hk.symm⟩
  · have hi := congrArg (fun rd => rd.inner.bytes) hre
    exact hi.symm

variable {entries' : List OutputEntry}

theorem entries_determined (h : ∀ en ∈ entries, EntryFits formatLimits en)
    (h' : ∀ en ∈ entries', EntryFits formatLimits en)
    (hle : (entries.flatMap OutputEntry.bytes).length < 2 ^ 64)
    (heq : entries.flatMap OutputEntry.bytes = entries'.flatMap OutputEntry.bytes) :
    entries = entries' := by
  have hn : ∀ en : OutputEntry, 0 < en.bytes.length := by
    intro en
    simp [OutputEntry.bytes]
  induction entries generalizing entries' with
  | nil =>
    cases entries' with
    | nil => rfl
    | cons e' entries' =>
      have hl := congrArg length heq
      rw [flatMap_cons, length_append] at hl
      have hp := hn e'
      simp only [flatMap_nil, length_nil] at hl
      omega
  | cons en entries ih =>
    cases entries' with
    | nil =>
      have hl := congrArg length heq
      rw [flatMap_cons, length_append] at hl
      have hp := hn en
      simp only [flatMap_nil, length_nil] at hl
      omega
    | cons e' entries' =>
      have hl' := hle
      rw [heq] at hl'
      rw [flatMap_cons, length_append] at hle hl'
      rw [flatMap_cons, flatMap_cons] at heq
      obtain ⟨rfl, hr⟩ := entry_determined (h en mem_cons_self)
        (h' e' mem_cons_self) (by omega) (by omega) heq
      rw [ih (fun e he => h e (mem_cons_of_mem _ he))
        (fun e he => h' e (mem_cons_of_mem _ he)) (by omega) hr]

theorem forest_determined {ws' : Workspace} {lim' : BundleLimits} {codec' : Codec}
    {outs' rs' : List RelativePath} {packed' : PackedBundle}
    (h : Packs workspace limits codec encoding outputRoots roots entries packed)
    (h' : Packs ws' lim' codec' encoding' outs' rs' entries' packed')
    (heq : canonicalStream entries' = canonicalStream entries) (path : FsPath) (kind : OutputKind) :
    ws'.Holds outs' path kind ↔ workspace.Holds outputRoots path kind := by
  have hl := h.expanded
  have hm := limits.maxExpandedBytes.toNat_lt
  unfold canonicalStream at heq hl
  rw [length_append] at hl
  obtain rfl : entries = entries' := entries_determined
    (fun e he => formatFits (h.path e he) (h.checked e he))
    (fun e he => formatFits (h'.path e he) (h'.checked e he)) (by omega)
    (append_cancel_left heq).symm
  rw [h.forest.holds, h'.forest.holds]

/-! ## The round trip -/

/-- The forest stands in the staging directory, and nothing else but directories on the way to
its roots. -/
structure Restores (workspace : Workspace) (outputRoots : List RelativePath) (staging : FsPath)
    (d : Disk) : Prop where
  below : ∀ root ∈ outputRoots, ∃ output, workspace.output root = some output ∧ ∀ r,
    get d.tree (staging ++ (root.components ++ r)) = (output.lookup r).map OutputKind.node
  elsewhere : ∀ path, path ≠ [] → ¬Within outputRoots path → ∀ node,
    get d.tree (staging ++ path) = some node → node = .dir ∧ Above outputRoots path

section

variable (h : Packs workspace limits codec encoding outputRoots roots entries packed)
include h

theorem Packs.restores
    {d : Disk} (hre : Restored staging roots entries d) :
    Restores workspace outputRoots staging d where
  below root hroot := by
    have hm := mem_of_validateOutputRoots h.validRoots
    obtain ⟨output, ho⟩ := h.present root hroot
    refine ⟨output, ho, hre.get_eq (validateOutputRoots_ok h.validRoots).2.2
      (h.forest.of_mem fun p => (hm p).symm) ((hm root).mpr hroot) ho⟩
  elsewhere path hne hw node hget := by
    have hm := mem_of_validateOutputRoots h.validRoots
    obtain ⟨hd, root, hroot, s, hs, hc⟩ | ⟨e, he, rfl⟩ := hre.only path hne node hget
    · exact ⟨hd, root, (hm root).mp hroot, s, hs, hc⟩
    · obtain ⟨root, hroot, -, -, r, hp, -⟩ := (h.forest.holds _ e.kind).mpr ⟨e, he, rfl, rfl⟩
      exact absurd ⟨root, hroot, r, hp.symm⟩ hw

theorem Packs.targets
    (hta : ∀ path target isDirectory,
      workspace.Holds outputRoots path (.symlink target isDirectory) →
        target.utf8ByteSize ≤ limits.maxPathBytes.toNat) :
    ∀ e ∈ entries, ∀ target isDirectory, e.kind = .symlink target isDirectory →
      target.utf8ByteSize ≤ limits.maxPathBytes.toNat :=
  fun e he target isDirectory hk => hta _ target isDirectory
    ((h.forest.holds _ _).mpr ⟨e, he, rfl, hk⟩)

end

/-- A forest within the limits is packed to a stream in canonical order, the stream determines
the forest, and extraction restores it. -/
theorem bundle_round_trip (hcodec : codec.Lossless)
    (hforest : Packable workspace limits codec encoding outputRoots)
    (htargets : ∀ path target isDirectory,
      workspace.Holds outputRoots path (.symlink target isDirectory) →
        target.utf8ByteSize ≤ limits.maxPathBytes.toNat)
    (hdescriptor : ∀ packed, packBundle workspace limits codec outputRoots encoding = .ok packed →
      limits.validateDescriptor packed.descriptor = .ok ())
    (hstaging : EmptyDirectory staging tree) :
    ∃ packed entries, packBundle workspace limits codec outputRoots encoding = .ok packed ∧
      packed.bytes = encode codec encoding (canonicalStream entries) ∧
      ListsForest workspace outputRoots entries ∧
      (entries.Pairwise fun left right => comparePaths left.path right.path = .lt) ∧
      (∃ d, (Disk.device links).run (extractBundle codec ⟨packed.bytes, none⟩ packed.descriptor
          staging outputRoots limits).run ⟨tree, []⟩ = (.ok (), d) ∧
        Restores workspace outputRoots staging d) ∧
      ∀ workspace' limits' codec' outputRoots' encoding' packed' entries',
        packBundle workspace' limits' codec' outputRoots' encoding' = .ok packed' →
        ListsForest workspace' outputRoots' entries' →
        canonicalStream entries' = canonicalStream entries → ∀ path kind,
          workspace'.Holds outputRoots' path kind ↔ workspace.Holds outputRoots path kind := by
  obtain ⟨packed, hpack⟩ := packBundle_complete hforest
  obtain ⟨roots, entries, h⟩ := packBundle_eq_ok hpack
  refine ⟨packed, entries, hpack, h.bytes, h.forest, ?_, ?_, ?_⟩
  · exact h.forest.sorted.imp fun hlt => (compareComponents_eq_lt_iff _ _).mpr hlt
  · have hsucceeds : Succeeds links _ _ _ :=
      succeeds_extractBundle hcodec h (hdescriptor packed hpack) (h.targets htargets) hstaging
    obtain ⟨⟨⟩, d, hrun, hrestored⟩ := Device.exists_of_wpe hsucceeds
    exact ⟨d, hrun, h.restores hrestored⟩
  intro workspace' limits' codec' outputRoots' encoding' packed' entries' hpack' hforest' heq
  obtain ⟨roots', entries'', h'⟩ := packBundle_eq_ok hpack'
  obtain rfl := hforest'.unique h'.forest
  exact forest_determined h h' heq

/-! ## A packed directory -/

def framedCodec : Codec where
  blake3 _ := Vector.replicate 32 0
  compress _ bytes := 0 :: bytes
  decompress source := (⟨source.bytes.tail, source.failure⟩, source.bytes.length)

theorem framedCodec_lossless : framedCodec.Lossless where
  decompress _ _ := rfl
  nonempty _ _ := cons_ne_nil _ _

theorem empty_twoDirectories : EmptyDirectory ["w", "s"] twoDirectories where
  base q hne hq := by
    by_cases he : q = ["w", "s"]
    · rw [he]
      decide
    · exact real_twoDirectories q hne hq he
  empty := isEmptyBelow_iff.mp (by decide)

def linkedFile : Output :=
  .directory [("c", .symlink "b" false), ("b", .file [7] true)]

theorem wellFormed_linkedFile : linkedFile.WellFormed := by
  refine .directory (by decide) (by decide +kernel) ?_
  intro child hc
  simp only [mem_cons, not_mem_nil, or_false] at hc
  obtain rfl | rfl := hc
  · exact .symlink false (by decide +kernel)
  · exact .file [7] true

def sampleWorkspace : Workspace where
  root := ["w"]
  output path := if path = pathA then some linkedFile else none
  canonicalize _ := .ok ["w", "a", "b"]
  wellFormed path output h := by
    split at h
    · cases h
      exact wellFormed_linkedFile
    · cases h

def sampleEntries : List OutputEntry :=
  [⟨pathA, .directory⟩, ⟨pathB, .file [7] true⟩, ⟨pathC, .symlink "b" false⟩]

theorem visit_sampleWorkspace :
    visitOutputTree sampleWorkspace smallLimits [pathA] = .ok (sampleEntries, 3) := by
  decide +kernel

theorem validate_pathA : validateOutputRoots [pathA] = .ok [pathA] := by decide +kernel

theorem listsForest_sampleEntries : ListsForest sampleWorkspace [pathA] sampleEntries := by
  obtain ⟨⟨bs, hb, he⟩, -⟩ := visitOutputTree_eq_ok visit_sampleWorkspace
  rw [he]
  exact listsForest_of_blocks (validateOutputRoots_ok validate_pathA).2.2
    (pairwise_lt_of_validateOutputRoots validate_pathA) hb

theorem packable_sampleWorkspace :
    Packable sampleWorkspace smallLimits framedCodec (.zstdV1 3) [pathA] where
  validLimits := by decide
  validEncoding := by decide
  validRoots := ⟨[pathA], validate_pathA⟩
  accepted root hroot := by
    obtain rfl := mem_singleton.mp hroot
    refine ⟨linkedFile, rfl, .directory pathA (by decide +kernel) (by decide +kernel) ?_⟩
    intro child hc
    simp only [mem_cons, not_mem_nil, or_false] at hc
    obtain rfl | rfl := hc
    · exact .symlink pathC false (by decide +kernel) (by decide +kernel)
        (by decide +kernel) rfl (by decide)
    · exact .file pathB true (by decide +kernel) (by decide +kernel) (by decide)
  count := by decide +kernel
  expanded entries h := by
    rw [h.unique listsForest_sampleEntries]
    decide +kernel
  encoded entries h := by
    rw [h.unique listsForest_sampleEntries]
    decide +kernel

theorem targets_sampleWorkspace (path : FsPath) (target : String) (isDirectory : Bool)
    (h : sampleWorkspace.Holds [pathA] path (.symlink target isDirectory)) :
    target.utf8ByteSize ≤ smallLimits.maxPathBytes.toNat := by
  obtain ⟨e, he, -, hk⟩ := (listsForest_sampleEntries.holds _ _).mp h
  simp only [sampleEntries, mem_cons, not_mem_nil, or_false] at he
  obtain rfl | rfl | rfl := he
  · cases hk
  · cases hk
  · cases hk
    decide +kernel

theorem bundle_round_trip_directory :
    ∃ packed d, packBundle sampleWorkspace smallLimits framedCodec [pathA] (.zstdV1 3) =
        .ok packed ∧
      (Disk.device 40).run (extractBundle framedCodec ⟨packed.bytes, none⟩ packed.descriptor
        ["w", "s"] [pathA] smallLimits).run ⟨twoDirectories, []⟩ = (.ok (), d) ∧
      Restores sampleWorkspace [pathA] ["w", "s"] d := by
  have haccepts : (packBundle sampleWorkspace smallLimits framedCodec [pathA] (.zstdV1 3) >>=
      fun packed => smallLimits.validateDescriptor packed.descriptor) = .ok () := by decide +kernel
  obtain ⟨packed, -, hpack, -, -, -, ⟨d, hrun, hrestores⟩, -⟩ :=
    bundle_round_trip framedCodec_lossless packable_sampleWorkspace targets_sampleWorkspace
      (fun packed hpack => by rwa [hpack] at haccepts) empty_twoDirectories
  exact ⟨packed, d, hpack, hrun, hrestores⟩

end Octa.Bundle
