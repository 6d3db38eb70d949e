import Octa.Fileset.InputSet
import Octa.Snapshot.Input

/-!
# The digest memo

The entries of a record are sorted by the text of their paths, what the walk has
found is sorted by the components.
-/

namespace Octa.Snapshot

open Octa.Cache Octa.Fileset Wire Fallible List

variable {ω : Type} {lib : Libraries ω} {options : SnapshotOptions} {obs : List Observed}

/-! ## Validated entries -/

structure Validates (validation : ValidationEntry) (o : Observed) : Prop where
  path : validation.path.value = relativeText o.path
  metadata : validation.metadata = o.key
  executable : ∀ executable, validation.kind = .file executable → executable = o.executable

theorem validates_of_ok {o : Observed} {validation : ValidationEntry}
    (h : validationEntry o = .ok validation) : Validates validation o := by
  obtain ⟨path, hp, h⟩ := bind_eq_ok h
  obtain ⟨kind, hk, h⟩ := bind_eq_ok h
  cases h
  refine ⟨?_, rfl, ?_⟩
  · unfold portableRelative at hp
    split at hp
    · rename_i relative hn
      cases hp
      unfold RelativePath.new at hn
      split at hn
      · cases hn
        rfl
      · cases hn
    · cases hp
  · rintro exe rfl
    unfold validationKind at hk
    split at hk
    · cases ht : ofCache o.target with
      | error error | ok target =>
        rw [ht] at hk
        cases hk
    · cases hk
    · cases hk
      rfl
    · cases hk

def canonicalEntry (lib : Libraries ω) (entry : ValidationEntry × Observed) : InputEntry :=
  match entry.1.kind with
  | .directory => .directory entry.1.path
  | .symlink target => .symlink entry.1.path target
  | .file _ => .file entry.1.path (blake3Digest lib entry.2.content) entry.2.executable

theorem path_canonicalEntry (entry : ValidationEntry × Observed) :
    (canonicalEntry lib entry).path = entry.1.path := by
  unfold canonicalEntry
  split <;> rfl

/-! ## Hashing -/

theorem mem_of_uniqueHashRequests {seen : List EntryKey} {files : List Observed} {file : Observed}
    (h : file ∈ uniqueHashRequests seen files) : file ∈ files := by
  induction files generalizing seen with
  | nil => cases h
  | cons first rest ih =>
    unfold uniqueHashRequests at h
    split at h
    · exact mem_cons_of_mem _ (ih h)
    obtain rfl | h := mem_cons.mp h
    · exact mem_cons_self
    · exact mem_cons_of_mem _ (ih h)

theorem exists_request {seen : List EntryKey} {files : List Observed} {file : Observed}
    (h : file ∈ files) (hseen : file.key ∉ seen) :
    ∃ request ∈ uniqueHashRequests seen files, request.key = file.key := by
  induction files generalizing seen with
  | nil => cases h
  | cons first rest ih =>
    unfold uniqueHashRequests
    by_cases hf : first.key = file.key
    · rw [if_neg (hf ▸ hseen)]
      exact ⟨first, mem_cons_self, hf⟩
    have hr : file ∈ rest := by
      obtain rfl | h := mem_cons.mp h
      · exact absurd rfl hf
      · exact h
    split
    · exact ih hr hseen
    have hn : file.key ∉ first.key :: seen := by
      rw [mem_cons, not_or]
      exact ⟨Ne.symm hf, hseen⟩
    obtain ⟨request, hre, hk⟩ := ih hr hn
    exact ⟨request, mem_cons_of_mem _ hre, hk⟩

def SameFiles (validated : List (ValidationEntry × Observed)) : Prop :=
  ∀ a ∈ validated, ∀ b ∈ validated, a.2.key = b.2.key →
    a.2.executable = b.2.executable ∧ a.2.content = b.2.content

variable {validated : List (ValidationEntry × Observed)}

variable {entry : ValidationEntry × Observed}

theorem find_hash {hashes : List HashedFile} (hsame : SameFiles validated)
    (h : (uniqueHashRequests [] ((validated.filter fun entry => isFile entry.1).map
      Prod.snd)).mapM (hashStableFile lib) = .ok hashes) (he : entry ∈ validated)
    (hfile : isFile entry.1 = true) : entry.2.content.length = entry.2.key.length.toNat ∧
    (hashes.find? fun has => has.key == entry.2.key) =
      some ⟨blake3Digest lib entry.2.content, entry.2.executable, entry.2.key⟩ := by
  -- every hash comes from a request, which is an alias of some file
  have hr : ∀ has ∈ hashes, has.key = entry.2.key →
      entry.2.content.length = entry.2.key.length.toNat ∧
      has = ⟨blake3Digest lib entry.2.content, entry.2.executable, entry.2.key⟩ := by
    intro has hm hk
    obtain ⟨request, hr, hh⟩ := exists_of_mem_result h hm
    obtain ⟨other, ho, rfl⟩ := mem_map.mp (mem_of_uniqueHashRequests hr)
    unfold hashStableFile at hh
    split at hh
    · rename_i hl
      cases hh
      have hk : other.2.key = entry.2.key := hk
      obtain ⟨hex, hc⟩ := hsame other (mem_of_mem_filter ho) entry he hk
      rw [hc, hk] at hl
      refine ⟨hl, ?_⟩
      rw [hc, hex, hk]
    · cases hh
  have hm : entry.2 ∈ (validated.filter fun entry => isFile entry.1).map Prod.snd :=
    mem_map.mpr ⟨entry, mem_filter.mpr ⟨he, hfile⟩, rfl⟩
  obtain ⟨request, hu, hk⟩ := exists_request hm not_mem_nil
  obtain ⟨has, hha, hh⟩ := exists_of_mem_source h hu
  have hhashed_key : has.key = entry.2.key := by
    unfold hashStableFile at hh
    split at hh
    · cases hh
      exact hk
    · cases hh
  refine ⟨(hr has hha hhashed_key).1, ?_⟩
  obtain ⟨first, hf⟩ : ∃ first, (hashes.find? fun has => has.key == entry.2.key) = some first := by
    apply Option.isSome_iff_exists.mp
    rw [List.find?_isSome]
    exact ⟨has, hha, beq_iff_eq.mpr hhashed_key⟩
  have hfirst_key := List.find?_some hf
  rw [hf, (hr first (List.mem_of_find?_eq_some hf) (beq_iff_eq.mp hfirst_key)).2]

theorem filterMap_plainEntry (lib : Libraries ω) (validated : List (ValidationEntry × Observed)) :
    (validated.filterMap fun entry => plainEntry entry.1) =
      (validated.filter fun entry => !isFile entry.1).map (canonicalEntry lib) := by
  induction validated with
  | nil => rfl
  | cons entry rest ih =>
    obtain ⟨⟨path, kind, metadata⟩, obs⟩ := entry
    cases kind with
    | directory | symlink target => exact congrArg (_ :: ·) ih
    | file exe => exact ih

variable {entries : List InputEntry}

variable {root metadata : Digest}

theorem hashInputs_spec (hsame : SameFiles validated)
    (h : hashInputs lib validated = .ok (root, entries)) : root = inputRootDigest lib entries ∧
      entries.Pairwise (fun left right => left.path.value ≤ right.path.value) ∧
      entries.Perm (validated.map (canonicalEntry lib)) ∧
      ∀ entry ∈ validated, isFile entry.1 = true →
        entry.2.content.length = entry.2.key.length.toNat := by
  obtain ⟨ha, hh, h⟩ := bind_eq_ok h
  cases h
  have hfi : ((validated.filter fun entry => isFile entry.1).filterMap fun entry =>
      (ha.find? fun has => has.key == entry.2.key).map fun has =>
        InputEntry.file entry.1.path has.content has.executable) =
      (validated.filter fun entry => isFile entry.1).map (canonicalEntry lib) := by
    rw [← filterMap_eq_map]
    apply filterMap_congr
    intro entry he
    obtain ⟨hm, hf⟩ := mem_filter.mp he
    rw [(find_hash hsame hh hm hf).2]
    obtain ⟨⟨path, kind, metadata⟩, obs⟩ := entry
    cases kind with
    | file exe => rfl
    | directory | symlink target => cases hf
  refine ⟨rfl, ?_, ?_, fun entry he hf => (find_hash hsame hh he hf).1⟩
  · have : Std.Total fun left right : InputEntry => left.path.value ≤ right.path.value :=
      ⟨fun left right => le_total _ _⟩
    have : IsTrans InputEntry fun left right => left.path.value ≤ right.path.value :=
      ⟨fun _ _ _ => le_trans⟩
    exact pairwise_insertionSort _ _
  refine (perm_insertionSort _ _).trans ?_
  rw [filterMap_plainEntry lib, hfi, ← map_append]
  refine List.Perm.map _ (perm_append_comm.trans ?_)
  exact filter_append_perm (fun entry => isFile entry.1) validated

/-! ## Accepted records -/

theorem entryMatches_canonicalEntry (h : Validates entry.1 entry.2)
    (hlen : isFile entry.1 = true → entry.2.content.length = entry.2.key.length.toNat) :
    entryMatches (canonicalEntry lib entry) entry.1 = true := by
  obtain ⟨⟨path, kind, metadata⟩, obs⟩ := entry
  cases kind with
  | directory | symlink target => simp [entryMatches, canonicalEntry, InputEntry.path]
  | file exe =>
    have hs : UInt64.ofNat obs.content.length = metadata.length := by
      rw [hlen rfl, show metadata = obs.key from h.metadata, UInt64.ofNat_toNat]
    have he := h.executable exe rfl
    simp [entryMatches, canonicalEntry, InputEntry.path, blake3Digest, hs, he]

theorem paths_of_all_entryMatches {validation : List ValidationEntry}
    (hlen : entries.length = validation.length)
    (h : (entries.zip validation).all (fun entry => entryMatches entry.1 entry.2) = true) :
    entries.map InputEntry.path = validation.map ValidationEntry.path := by
  induction entries generalizing validation with
  | nil =>
    obtain rfl := length_eq_zero_iff.mp hlen.symm
    rfl
  | cons entry entries ih =>
    cases validation with
    | nil => cases hlen
    | cons expected validation =>
      rw [zip_cons_cons, all_cons, Bool.and_eq_true] at h
      have hp := (Bool.and_eq_true_iff.mp h.1).1
      rw [map_cons, map_cons, ih (Nat.succ.inj hlen) h.2, eq_of_beq hp]

theorem memoMatches_iff (hsame : SameFiles validated)
    (hv : ∀ entry ∈ validated, Validates entry.1 entry.2)
    (hdist : (validated.map fun entry => entry.1.path.value).Nodup)
    (h : hashInputs lib validated = .ok (root, entries)) :
    memoMatches lib ⟨root, entries⟩ (validated.map Prod.fst) = true ↔
      validated.Pairwise fun left right => left.1.path.value < right.1.path.value := by
  obtain ⟨hro, hs, hp, hl⟩ := hashInputs_spec hsame h
  constructor
  · intro hm
    unfold memoMatches at hm
    simp only [Bool.and_eq_true, beq_iff_eq] at hm
    obtain ⟨⟨hc, -⟩, ha⟩ := hm
    have hpa := paths_of_all_entryMatches hc ha
    have hle : (validated.map fun entry => entry.1.path.value).Pairwise (· ≤ ·) := by
      have hva := congrArg (List.map RelativePath.value) hpa
      rw [map_map, map_map, map_map] at hva
      change _ = validated.map (fun entry => entry.1.path.value) at hva
      rw [← hva, pairwise_map]
      exact hs
    have hlt := hle.and hdist
    rw [pairwise_map] at hlt
    exact hlt.imp fun h => lt_of_le_of_ne h.1 h.2
  · intro ho
    have heq : entries = validated.map (canonicalEntry lib) := by
      have hca : (validated.map (canonicalEntry lib)).Pairwise
          fun left right => left.path.value ≤ right.path.value := by
        rw [pairwise_map]
        refine ho.imp fun h => ?_
        rw [path_canonicalEntry, path_canonicalEntry]
        exact h.le
      refine List.Perm.eq_of_pairwise ?_ hs hca hp
      intro left right hlf hr hle hg
      obtain ⟨entry, he, rfl⟩ := mem_map.mp (hp.mem_iff.mp hlf)
      obtain ⟨e', he', rfl⟩ := mem_map.mp hr
      rw [path_canonicalEntry, path_canonicalEntry] at hle hg
      rw [inj_on_of_nodup_map hdist he he' (le_antisymm hle hg)]
    unfold memoMatches
    simp only [Bool.and_eq_true, beq_iff_eq]
    refine ⟨⟨?_, hro.symm⟩, ?_⟩
    · rw [heq, length_map, length_map]
    rw [heq, zip_map', all_map, all_eq_true]
    intro entry he
    exact entryMatches_canonicalEntry (hv entry he) (hl entry he)

theorem memoGet_memoRecord {memos : Memos ω}
    (hre : memos.lookup metadata = some (memoRecord lib metadata root entries))
    (hes : entries ≠ []) (hcn : entries.length ≤ options.maxEntries)
    (hsize : (lib.bytes (memoRecord lib metadata root entries).text).length ≤
      options.maxMemoBytes.toNat)
    (hroot : root.algorithm = .blake3) :
    memoGet lib memos metadata options = some ⟨root, entries⟩ := by
  have hb : (lib.bytes (lib.toJson ⟨memoVersion, root, entries⟩)).length ≤
    options.maxMemoBytes.toNat :=
    hsize
  have he : ¬UInt64.ofNat (lib.bytes (lib.toJson ⟨memoVersion, root, entries⟩)).length >
      options.maxMemoBytes := by
    rw [gt_iff_lt, UInt64.lt_iff_toNat_lt, UInt64.toNat_ofNat', not_lt]
    exact (Nat.mod_le _ _).trans hb
  have hbl : entries.length % 18446744073709551616 ≤ options.maxEntries :=
    (Nat.mod_le _ _).trans hcn
  unfold memoGet
  rw [hre]
  simp [memoRecord, he, hbl, lib.fromJson_toJson, hes, hroot, hcn]

/-! ## Two snapshots -/

theorem pairwise_iff_of_sorted {α β γ : Type} [LinearOrder β] [LinearOrder γ] {l : List α}
    {f : α → β} {g : α → γ} (h : l.Pairwise fun a b => f a < f b) :
    (l.Pairwise fun a b => g a < g b) ↔ ∀ a ∈ l, ∀ b ∈ l, f a < f b → g a < g b := by
  constructor
  · intro hg
    induction l with
    | nil => exact fun a ha => absurd ha not_mem_nil
    | cons first rest ih =>
      obtain ⟨hf, hr⟩ := pairwise_cons.mp h
      obtain ⟨hgf, hgr⟩ := pairwise_cons.mp hg
      intro a ha b hb hl
      obtain rfl | ha' := mem_cons.mp ha
      · obtain rfl | hb' := mem_cons.mp hb
        · exact absurd hl (lt_irrefl _)
        · exact hgf b hb'
      obtain rfl | hb' := mem_cons.mp hb
      · exact absurd hl (hf a ha').asymm
      · exact ih hr hgr a ha' b hb' hl
  · intro hal
    exact h.imp_of_mem fun ha hb hl => hal _ ha _ hb hl

theorem relativeText_injective {path path' : FsPath}
    (hpath : ∀ name ∈ path, '/' ∉ name.toList ∧ name ≠ ".")
    (hpath' : ∀ name ∈ path', '/' ∉ name.toList ∧ name ≠ ".")
    (h : relativeText path = relativeText path') : path = path' := by
  have hs : ∀ path : FsPath, (∀ name ∈ path, '/' ∉ name.toList ∧ name ≠ ".") →
      splitSlash (relativeText path) = if path = [] then ["."] else path := by
    intro path hpath
    unfold relativeText
    split
    · decide
    · exact splitSlash_intercalate_names (fun name hna => (hpath name hna).1) ‹_›
  have he := congrArg splitSlash h
  rw [hs path hpath, hs path' hpath'] at he
  by_cases hn : path = []
  · by_cases hn' : path' = []
    · rw [hn, hn']
    · rw [if_pos hn, if_neg hn'] at he
      exact absurd rfl ( hpath' "." (he ▸ mem_cons_self)).2
  by_cases hn' : path' = []
  · rw [if_neg hn, if_pos hn'] at he
    exact absurd rfl (hpath "." (he ▸ mem_cons_self)).2
  · rwa [if_neg hn, if_neg hn'] at he

/-- Neither the entry nor its identity, size and times have changed. -/
structure SameMetadata (before after : Observed) : Prop where
  path : before.path = after.path
  fileType : before.fileType = after.fileType
  key : before.key = after.key
  executable : before.executable = after.executable

variable {scope : Option Bytes} {validation : List ValidationEntry}

theorem snapshotObserved_eq (hval : obs.mapM validationEntry = .ok validation)
    (memos : Option (Memos ω)) : snapshotObserved lib options scope obs memos =
      match recalled lib options memos
        (memos.bind fun _ => inputMetadataDigest lib validation scope) validation with
      | some snap => .ok (⟨snap.root, snap.entries, validation, true⟩, memos)
      | none => (hashInputs lib (validation.zip obs)).map fun has =>
        (⟨has.1, has.2, validation, false⟩, publish lib options memos
          (memos.bind fun _ => inputMetadataDigest lib validation scope) has.1 has.2) := by
  unfold snapshotObserved
  rw [hval]
  cases hr : recalled lib options memos
      (memos.bind fun _ => inputMetadataDigest lib validation scope) validation with
  | some snap =>
    change (match recalled lib options memos
      (memos.bind fun _ => inputMetadataDigest lib validation scope) validation with
      | some snap => _
      | none => _) = _
    rw [hr]
    rfl
  | none =>
    change (match recalled lib options memos
      (memos.bind fun _ => inputMetadataDigest lib validation scope) validation with
      | some snap => _
      | none => _) = _
    rw [hr]
    cases hashInputs lib (validation.zip obs) <;> rfl

theorem hashed_of_published {memos memos' : Memos ω} {first : InputSnapshot} {record : MemoRecord ω}
    (hf : snapshotObserved lib options scope obs (some memos) = .ok (first, some memos'))
    (hdi : inputMetadataDigest lib first.validation scope = some metadata)
    (hnew : memos.lookup metadata = none) (hpub : memos'.lookup metadata = some record) :
    ∃ root entries, obs.mapM validationEntry = .ok first.validation ∧
      hashInputs lib (first.validation.zip obs) = .ok (root, entries) ∧
      record = memoRecord lib metadata root entries ∧ entries ≠ [] ∧
      (lib.bytes record.text).length ≤ options.maxMemoBytes.toNat := by
  obtain ⟨validation, hv, -⟩ := bind_eq_ok hf
  rw [snapshotObserved_eq hv] at hf
  split at hf
  · -- an accepted record is not new
    rename_i snapshot hr
    cases hf
    rw [Option.bind_some, hdi] at hr
    have hg : memoGet lib memos metadata options = none := by
      unfold memoGet
      rw [hnew]
      rfl
    simp [recalled, hg] at hr
  · cases hh : hashInputs lib (validation.zip obs) with
    | error error =>
      rw [hh] at hf
      cases hf
    | ok ha =>
      obtain ⟨root, entries⟩ := ha
      rw [hh] at hf
      obtain ⟨rfl, hp⟩ := Prod.mk.inj (Except.ok.inj hf)
      rw [Option.bind_some, hdi] at hp
      obtain rfl : memoPut lib memos metadata root entries options = memos' := Option.some.inj hp
      refine ⟨root, entries, hv, hh, ?_⟩
      unfold memoPut at hpub
      simp only at hpub
      split at hpub
      · rw [hnew] at hpub
        cases hpub
      rename_i hs
      rw [lookup_cons, beq_self_eq_true] at hpub
      cases hpub
      simp only [Bool.or_eq_true, not_or, decide_eq_true_eq, List.isEmpty_iff] at hs
      exact ⟨rfl, hs.1.1.1, not_lt.mp hs.1.1.2⟩

variable {μ : Type} {glob : Glob} {patternSets : List (List String)}

theorem validates_zip (hval : obs.mapM validationEntry = .ok validation) :
    ∀ entry ∈ validation.zip obs, Validates entry.1 entry.2 := by
  intro entry he
  have ha : List.Forall₂ (fun v o => validationEntry o = .ok v) validation obs :=
    (mapM_eq_ok hval).flip
  exact validates_of_ok (List.forall₂_zip ha he)

theorem eq_of_forall₂ {α : Type} {R : α → α → Prop} {l l' : List α} (h : List.Forall₂ R l l')
    (heq : ∀ a ∈ l, ∀ b ∈ l', R a b → a = b) : l' = l := by
  induction h with
  | nil => rfl
  | cons hab _ ih =>
    rw [heq _ mem_cons_self _ mem_cons_self hab, ih fun a ha b hb =>
      heq a (mem_cons_of_mem _ ha) b (mem_cons_of_mem _ hb)]

theorem observed_eq {before after : List Observed} (h : List.Forall₂ SameMetadata before after)
    (hcn : ∀ o ∈ before, ∀ o' ∈ after, SameMetadata o o' →
      o.content = o'.content ∧ o.target = o'.target) : after = before := by
  refine eq_of_forall₂ h ?_
  intro o ho o' ho' hs
  obtain ⟨hcn, ht⟩ := hcn o ho o' ho' hs
  obtain ⟨path, fileType, key, exe⟩ := hs
  cases o
  cases o'
  simp_all

variable {paths : List (FsPath × μ)}

theorem snapshotPatternSets_eq {host : Host μ}
    (h : collectPatternSets host.ws glob patternSets options.maxEntries = .ok paths)
    (memos : Option (Memos ω)) : snapshotPatternSets lib host glob options patternSets memos =
      snapshotObserved lib options host.scope (paths.map host.observe) memos := by
  unfold snapshotPatternSets
  rw [h]
  rfl

theorem pairwise_validated_iff {host : Host μ}
    (h : collectPatternSets host.ws glob patternSets options.maxEntries = .ok paths)
    (hval : (paths.map host.observe).mapM validationEntry = .ok validation) :
    ((validation.zip (paths.map host.observe)).map fun entry => entry.1.path.value).Nodup ∧
    (((validation.zip (paths.map host.observe)).Pairwise fun left right =>
        left.1.path.value < right.1.path.value) ↔
      ∀ entry ∈ paths, ∀ e' ∈ paths, entry.1 < e'.1 →
        relativeText entry.1 < relativeText e'.1) := by
  obtain ⟨hs, -, hp⟩ := collectPatternSets_entries h
  have hl : (paths.map host.observe).length = validation.length := (mapM_eq_ok hval).length_eq
  have ht : (validation.zip (paths.map host.observe)).map (fun entry => entry.1.path.value) =
      paths.map fun entry => relativeText entry.1 := by
    calc (validation.zip (paths.map host.observe)).map (fun entry => entry.1.path.value)
        = (validation.zip (paths.map host.observe)).map fun entry => relativeText entry.2.path :=
          map_congr_left fun entry he => (validates_zip hval entry he).path
      _ = ((validation.zip (paths.map host.observe)).map Prod.snd).map
            fun o => relativeText o.path := by rw [map_map]; rfl
      _ = paths.map fun entry => relativeText entry.1 := by
          rw [map_snd_zip hl.le, map_map]
          rfl
  constructor
  · rw [ht]
    rw [List.Nodup, pairwise_map]
    refine hs.imp_of_mem ?_
    intro entry e' he he' hlt heq
    have hn := host.names _ _ (hp entry he)
    have hn' := host.names _ _ (hp e' he')
    exact hlt.ne (relativeText_injective hn hn' heq)
  · rw [← pairwise_iff_of_sorted hs, ← pairwise_map, ht, pairwise_map]

/-- The memo that a snapshot publishes is accepted by the next snapshot of unchanged files, and
gives the root of a snapshot without a memo, exactly when the paths of the inputs come in the
same order by their components and by their text. -/
theorem memo_accepted {before after : Host μ} {paths paths' : List (FsPath × μ)}
    {memos memos' kept : Memos ω} {first : InputSnapshot} {metadata : Digest}
    {record : MemoRecord ω}
    (hbefore : collectPatternSets before.ws glob patternSets options.maxEntries = .ok paths)
    (hafter : collectPatternSets after.ws glob patternSets options.maxEntries = .ok paths')
    (hmetadata : List.Forall₂ SameMetadata (paths.map before.observe)
      (paths'.map after.observe)) (hscope : after.scope = before.scope)
    (hcontent : ∀ o ∈ paths.map before.observe, ∀ o' ∈ paths'.map after.observe,
      SameMetadata o o' → o.content = o'.content ∧ o.target = o'.target)
    (hfirst : snapshotPatternSets lib before glob options patternSets (some memos) =
      .ok (first, some memos'))
    (hdigest : inputMetadataDigest lib first.validation before.scope = some metadata)
    (hnew : memos.lookup metadata = none) (hpublished : memos'.lookup metadata = some record)
    (hkept : kept.lookup metadata = some record) : (∃ second plain rest rest',
      snapshotPatternSets lib after glob options patternSets (some kept) = .ok (second, rest) ∧
      snapshotPatternSets lib after glob options patternSets none = .ok (plain, rest') ∧
      second.reused = true ∧ second.root = plain.root) ↔
    ∀ entry ∈ paths, ∀ entry' ∈ paths, entry.1 < entry'.1 →
      relativeText entry.1 < relativeText entry'.1 := by
  obtain ⟨-, hcount, hpresent⟩ := collectPatternSets_entries hbefore
  have hobserved := observed_eq hmetadata hcontent
  rw [snapshotPatternSets_eq hbefore] at hfirst
  obtain ⟨root, entries, hvalidation, hhash, rfl, hentries, hsize⟩ :=
    hashed_of_published hfirst hdigest hnew hpublished
  have hsame : SameFiles (first.validation.zip (paths.map before.observe)) := by
    intro a ha b hb hkey
    obtain ⟨entry, hentry, ha⟩ := mem_map.mp (of_mem_zip ha).2
    obtain ⟨entry', hentry', hb⟩ := mem_map.mp (of_mem_zip hb).2
    rw [← ha, ← hb] at hkey ⊢
    exact before.aliases _ _ _ _ (hpresent entry hentry) (hpresent entry' hentry') hkey
  obtain ⟨hdistinct, hordered⟩ := pairwise_validated_iff hbefore hvalidation
  have hlength : first.validation.length = (paths.map before.observe).length :=
    (mapM_eq_ok hvalidation).length_eq.symm
  have hmatches := memoMatches_iff hsame (validates_zip hvalidation) hdistinct hhash
  rw [map_fst_zip hlength.le, hordered] at hmatches
  obtain ⟨hroot, -, hperm, -⟩ := hashInputs_spec hsame hhash
  have hget : memoGet lib kept metadata options = some ⟨root, entries⟩ := by
    refine memoGet_memoRecord hkept hentries ?_ hsize (by rw [hroot]; rfl)
    rw [hperm.length_eq, length_map, length_zip, hlength, Nat.min_self, length_map]
    exact hcount
  have hrecall : recalled lib options (some kept) (some metadata) first.validation =
      if memoMatches lib ⟨root, entries⟩ first.validation then some ⟨root, entries⟩ else none := by
    simp [recalled, hget]
  rw [snapshotPatternSets_eq hafter, snapshotPatternSets_eq hafter, hobserved, hscope,
    snapshotObserved_eq hvalidation, snapshotObserved_eq hvalidation, Option.bind_some, hdigest,
    hrecall, hhash]
  rw [← hmatches]
  constructor
  · rintro ⟨second, plain, rest, rest', hsecond, -, hreused, -⟩
    split at hsecond
    · rename_i snapshot hsome
      exact (Option.ite_none_right_eq_some.mp hsome).1
    · obtain ⟨rfl, -⟩ := Prod.mk.inj (Except.ok.inj hsecond)
      cases hreused
  intro haccepted
  rw [haccepted, if_pos rfl]
  exact ⟨_, _, _, _, rfl, rfl, rfl, rfl⟩

def hostOf (children : List (String × Node)) (h : Node.allNamed children = true) : Host Node where
  ws := workspaceOf children
  entryKey _ _ := ⟨0, 0, 0, (false, 0, 0), (0, 0), true⟩
  executable _ := false
  target _ := .ok "a"
  read _ := []
  scope := some []
  names _ _ hnode name hname := (@Node.named_of_get (.directory children) _ _ h hnode name hname).1
  aliases _ _ _ _ _ _ _ := ⟨rfl, rfl⟩

def plainLibraries : Libraries MemoDocument where
  blake3 _ := Vector.replicate 32 0
  toJson := id
  fromJson := some
  bytes _ := [0]
  stores _ := true
  fromJson_toJson _ := rfl

/-- One directory with a file, and a file whose name continues the name of the directory. -/
def dashed : Host Node := hostOf [("a", .directory [("b", .file)]), ("a-c", .file)] (by decide)

/-- The record that a first snapshot of `dashed` publishes, and whether the next one accepts it. -/
def secondRun (patternSets : List (List String)) : Option (MemoRecord MemoDocument × Bool) :=
  match snapshotPatternSets plainLibraries dashed componentGlob ⟨10, 10⟩ patternSets (some []) with
  | .ok (first, some memos) => do
      let metadata ← inputMetadataDigest plainLibraries first.validation dashed.scope
      let record ← memos.lookup metadata
      match snapshotPatternSets plainLibraries dashed componentGlob ⟨10, 10⟩ patternSets
          (some memos) with
      | .ok (second, _) => return (record, second.reused)
      | .error _ => none
  | _ => none

theorem secondRun_eq_some {patternSets : List (List String)} {record : MemoRecord MemoDocument}
    {reused : Bool} (h : secondRun patternSets = some (record, reused)) :
    ∃ first memos metadata second rest,
      snapshotPatternSets plainLibraries dashed componentGlob ⟨10, 10⟩ patternSets (some []) =
        .ok (first, some memos) ∧
      inputMetadataDigest plainLibraries first.validation dashed.scope = some metadata ∧
      memos.lookup metadata = some record ∧
      snapshotPatternSets plainLibraries dashed componentGlob ⟨10, 10⟩ patternSets
        (some memos) = .ok (second, rest) ∧
      second.reused = reused := by
  unfold secondRun at h
  split at h
  · rename_i first memos hf
    obtain ⟨metadata, hm, h⟩ := Option.bind_eq_some_iff.mp h
    obtain ⟨record', hr, h⟩ := Option.bind_eq_some_iff.mp h
    split at h
    · rename_i second rest hs
      cases h
      exact ⟨first, memos, metadata, second, rest, hf, hm, hr, hs, rfl⟩
    · cases h
  · cases h

theorem memo_accepted_file : ∃ memos second plain rest rest',
      snapshotPatternSets plainLibraries dashed componentGlob ⟨10, 10⟩ [["a/b"]] (some memos) =
        .ok (second, rest) ∧
      snapshotPatternSets plainLibraries dashed componentGlob ⟨10, 10⟩ [["a/b"]] none =
        .ok (plain, rest') ∧
      second.reused = true ∧ second.root = plain.root := by
  have hrun : ((secondRun [["a/b"]]).map Prod.snd) = some true := by decide +kernel
  obtain ⟨⟨record, reused⟩, hsome, -⟩ := Option.map_eq_some_iff.mp hrun
  obtain ⟨first, memos, metadata, second, rest, hfirst, hmetadata, hrecord, -, -⟩ :=
    secondRun_eq_some hsome
  refine ⟨memos, ?_⟩
  have hcollected : (collectPatternSets dashed.ws componentGlob [["a/b"]] 10).map
      (List.map Prod.fst) = .ok [["a", "b"]] := by
    decide +kernel
  obtain ⟨paths, hpaths, hfst⟩ := exists_of_map_paths hcollected
  have hpath : ∀ entry ∈ paths, entry.1 = ["a", "b"] := by
    intro entry hentry
    have hmem : entry.1 ∈ paths.map Prod.fst := mem_map.mpr ⟨entry, hentry, rfl⟩
    rw [hfst] at hmem
    exact mem_singleton.mp hmem
  refine (memo_accepted hpaths hpaths ?_ rfl ?_ hfirst hmetadata rfl hrecord hrecord).mpr ?_
  · exact List.forall₂_same.mpr fun o _ => ⟨rfl, rfl, rfl, rfl⟩
  · intro o ho o' ho' _
    obtain ⟨entry, -, rfl⟩ := mem_map.mp ho
    obtain ⟨entry', -, rfl⟩ := mem_map.mp ho'
    exact ⟨rfl, rfl⟩
  intro entry hentry entry' hentry' hlt
  rw [hpath entry hentry, hpath entry' hentry'] at hlt
  exact absurd hlt (lt_irrefl _)

/-- The directory comes before the file by its components, its content after the file by its
text: the record is published and never accepted. -/
theorem memo_never_accepted : ∃ first memos metadata record second rest,
      snapshotPatternSets plainLibraries dashed componentGlob ⟨10, 10⟩ [["**"]] (some []) =
        .ok (first, some memos) ∧
      inputMetadataDigest plainLibraries first.validation dashed.scope = some metadata ∧
      memos.lookup metadata = some record ∧
      snapshotPatternSets plainLibraries dashed componentGlob ⟨10, 10⟩ [["**"]] (some memos) =
        .ok (second, rest) ∧
      second.reused = false := by
  have hrun : ((secondRun [["**"]]).map Prod.snd) = some false := by decide +kernel
  obtain ⟨⟨record, reused⟩, hsome, hreused⟩ := Option.map_eq_some_iff.mp hrun
  obtain ⟨first, memos, metadata, second, rest, hfirst, hmetadata, hrecord, hsecond, heq⟩ :=
    secondRun_eq_some hsome
  exact ⟨first, memos, metadata, record, second, rest, hfirst, hmetadata, hrecord, hsecond,
    heq.trans hreused⟩

end Octa.Snapshot
