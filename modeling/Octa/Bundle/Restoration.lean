import Octa.Bundle.Listing
import Octa.Bundle.Reading

/-!
# Extraction of a canonical stream

A list of entries is canonical when it starts with the first root, every entry
follows the ones before it in tree order, and lies in the current root below a
directory that was listed, or begins the next root.
-/

namespace Octa.Bundle

variable {entry : OutputEntry} {α β : Type} {d' : Disk} {path : FsPath}

open FileTree LinkedTree Wire Crash Device Octa.Cache Octa.LocalStore CanonicalReader
open List hiding get contains

/-- The entries that remain after `before`, with the index of the current root. -/
inductive Canonical (roots : List RelativePath) :
    List OutputEntry → Option ℕ → List OutputEntry → Prop
  | finished {before : List OutputEntry} {index : ℕ} :
      index + 1 = roots.length → Canonical roots before (some index) []
  | root {before : List OutputEntry} {current : Option ℕ} {entry : OutputEntry}
      {rest : List OutputEntry} {index : ℕ} :
      nextRoot roots current entry.path = .ok (true, index) →
      (∀ other ∈ before, other.path.components < entry.path.components) →
      Canonical roots (before ++ [entry]) (some index) rest →
      Canonical roots before current (entry :: rest)
  | inside {before : List OutputEntry} {current : Option ℕ} {entry parent : OutputEntry}
      {rest : List OutputEntry} {index : ℕ} :
      nextRoot roots current entry.path = .ok (false, index) →
      (∀ other ∈ before, other.path.components < entry.path.components) →
      parent ∈ before → parent.kind = .directory →
      parent.path.components = entry.path.components.dropLast →
      Canonical roots (before ++ [entry]) (some index) rest →
      Canonical roots before current (entry :: rest)

theorem Canonical.uncons {roots : List RelativePath} {before rest : List OutputEntry}
    {cur : Option ℕ} (h : Canonical roots before cur (entry :: rest)) :
    ∃ outputRoot idx, nextRoot roots cur entry.path = .ok (outputRoot, idx) ∧
      (∀ other ∈ before, other.path.components < entry.path.components) ∧
      (outputRoot = false → ∃ par ∈ before, par.kind = .directory ∧
        par.path.components = entry.path.components.dropLast) ∧
      Canonical roots (before ++ [entry]) (some idx) rest := by
  cases h with
  | root hnx hn hr => exact ⟨true, _, hnx, hn, fun hf => (by cases hf), hr⟩
  | inside hnx hn hi hk hc hr =>
    exact ⟨false, _, hnx, hn, fun _ => ⟨_, hi, hk, hc⟩, hr⟩

/-- The staging directory holds the entries, below directories, and nothing else but
directories above the roots. -/
structure Restored (staging : FsPath) (roots : List RelativePath) (done : List OutputEntry)
    (d : Disk) : Prop where
  base : ∀ q, q ≠ [] → q <+: staging → get d.tree q = some .dir
  inside : ∀ entry ∈ done, Within roots entry.path.components
  holds : ∀ entry ∈ done, get d.tree (staging ++ entry.path.components) = some entry.kind.node
  closed : ∀ entry ∈ done, ∀ q, q ≠ [] → q <+: (staging ++ entry.path.components).dropLast →
    get d.tree q = some .dir
  only : ∀ r, r ≠ [] → ∀ node, get d.tree (staging ++ r) = some node →
    node = .dir ∧ Above roots r ∨ ∃ entry ∈ done, entry.path.components = r

variable {staging : FsPath} {roots : List RelativePath} {done : List OutputEntry} {d : Disk}
variable {links : ℕ} {limits : BundleLimits}

def Succeeds (links : ℕ) {α : Type} (p : Extraction α) (Q : α → Disk → Prop) (d : Disk) : Prop :=
  (Disk.device links).wpe p Q (fun _ _ => False) (fun _ => True) d

theorem Succeeds.bind {α β : Type} {p : Extraction α} {f : α → Extraction β} {P : α → Disk → Prop}
    {Q : β → Disk → Prop} (h : Succeeds links p P d)
      (h' : ∀ a d, P a d → Succeeds links (f a) Q d) :
    Succeeds links (p >>= f) Q d :=
  wpe_bind (wpe_mono h h' (fun _ _ he => he) fun _ hc => hc)

theorem Succeeds.pure {Q : α → Disk → Prop} {a : α} (h : Q a d) :
    Succeeds links (Pure.pure a) Q d :=
  wpe_pure trivial h

theorem Succeeds.mono {p : Extraction α} {P Q : α → Disk → Prop} (h : Succeeds links p P d)
    (h' : ∀ a d, P a d → Q a d) : Succeeds links p Q d :=
  wpe_mono h h' (fun _ _ he => he) fun _ hc => hc

theorem Succeeds.call {request : Call} {f : Reply request → Extraction β} {Q : β → Disk → Prop}
    {rep : Reply request} (hexec : Disk.exec links request d = (rep, d'))
    (h : Succeeds links (f rep) Q d') : Succeeds links (Bundle.call request >>= f) Q d := by
  refine wpe_bind (wpe_call trivial trivial ?_)
  rw [hexec]
  exact h

theorem Succeeds.lift {result : BundleResult α} {a : α} {f : α → Extraction β} {Q : β → Disk → Prop}
    (hres : result = .ok a) (h : Succeeds links (f a) Q d) :
    Succeeds links (liftResult result >>= f) Q d := by
  rw [hres]
  exact h

theorem Succeeds.result {result : BundleResult α} {a : α} {Q : α → Disk → Prop}
    (hres : result = .ok a) (h : Q a d) : Succeeds links (liftResult result) Q d := by
  rw [hres]
  exact Succeeds.pure h

theorem Succeeds.checked {op : String} {a : α} {f : α → Extraction β} {Q : β → Disk → Prop}
    (h : Succeeds links (f a) Q d) : Succeeds links (Bundle.checked op path (.ok a) >>= f) Q d := h

/-! ## Directories above a root -/

theorem exec_isDir_of_dirs (h : Walkable d.tree path) : d.isDir links path = true := by
  unfold Disk.isDir
  rw [resolve_names_of_dirs links h]

theorem create_of_dirs {node : Node Content} (hpath : path ≠ [])
    (hdirs : Walkable d.tree path.dropLast)
    (hfree : get d.tree path = none) :
    d.create links path node = (.ok (), d.add path ⟨path, []⟩ node) := by
  unfold Disk.create
  rw [locate_of_dirs links hpath hdirs]
  simp [hfree]

def MakesDir (path : FsPath) (d : Disk) (reply : Except ErrorKind Unit) (d' : Disk) : Prop :=
  reply = .ok () ∧ ∀ q, get d'.tree q = if q = path then some .dir else get d.tree q

theorem succeeds_unlessDir (kind : ErrorKind)
    (h : Walkable d.tree path) (hpath : path ≠ []) :
    Succeeds links (unlessDir path kind) (MakesDir path d) d := by
  have he : Disk.exec links (.isDir path) d = (d.isDir links path, d) := rfl
  refine Succeeds.call he ?_
  rw [exec_isDir_of_dirs h]
  refine Succeeds.pure ⟨rfl, fun q => ?_⟩
  split
  · rename_i heq
    rw [heq]
    exact h path hpath (prefix_refl path)
  · rfl

theorem succeeds_mkdir (hpath : path ≠ [])
    (hdirs : Walkable d.tree path.dropLast)
    (hnode : get d.tree path = some .dir ∨ get d.tree path = none)
    {f : Except ErrorKind Unit → Extraction (Except ErrorKind Unit)}
    (hok : f (.ok ()) = Pure.pure (.ok ()))
    (hex : f (.error .alreadyExists) = unlessDir path .alreadyExists) :
    Succeeds links (Bundle.call (.createDir path) >>= f) (MakesDir path d) d := by
  obtain hd | hfree := hnode
  · have hc : d.create links path .dir = (.error .alreadyExists, d) := by
      unfold Disk.create
      rw [locate_of_dirs links hpath hdirs]
      simp [hd]
    refine Succeeds.call hc ?_
    rw [hex]
    refine succeeds_unlessDir .alreadyExists (fun q hne hq => ?_) hpath
    by_cases he : q = path
    · rw [he]
      exact hd
    · exact hdirs q hne (prefix_dropLast_of_ne hq he)
  · refine Succeeds.call (create_of_dirs hpath hdirs hfree) ?_
    rw [hok]
    exact Succeeds.pure ⟨rfl, fun q => get_add _ _ _ _⟩

theorem succeeds_createDirAll {names : List String}
    (h : ∀ q, q ≠ [] → q <+: names.reverse → get d.tree q = some .dir ∨ get d.tree q = none) :
    Succeeds links (createDirAll names) (fun rep d' => rep = .ok () ∧
      ∀ q, get d'.tree q = if q ≠ [] ∧ q <+: names.reverse then some .dir else get d.tree q) d := by
  induction names generalizing d with
  | nil =>
    refine Succeeds.pure ⟨rfl, fun q => ?_⟩
    rw [if_neg]
    rintro ⟨hne, hq⟩
    exact hne (prefix_nil.mp hq)
  | cons name above ih =>
    have hpa : (name :: above).reverse ≠ [] := by simp
    have hd : (name :: above).reverse.dropLast = above.reverse := by
      rw [reverse_cons, dropLast_concat]
    have hpr : ∀ q, q ≠ [] → q <+: above.reverse → get d.tree q = some .dir ∨ get d.tree q = none :=
      fun q hne hq => h q hne (hq.trans (by rw [reverse_cons]; exact prefix_append _ _))
    -- a path of the chain is the last one or belongs to its parent
    have hs : ∀ q, q ≠ [] ∧ q <+: (name :: above).reverse ↔
        q = (name :: above).reverse ∨ q ≠ [] ∧ q <+: above.reverse := by
      intro q
      constructor
      · rintro ⟨hne, hq⟩
        by_cases he : q = (name :: above).reverse
        · exact .inl he
        · exact .inr ⟨hne, hd ▸ prefix_dropLast_of_ne hq he⟩
      rintro (rfl | ⟨hne, hq⟩)
      · exact ⟨hpa, prefix_refl _⟩
      · exact ⟨hne, hq.trans (by rw [reverse_cons]; exact prefix_append _ _)⟩
    unfold createDirAll
    obtain hdi | hmiss := @locate_cases _ _ _ contentLink d.tree _ links hpa (by rw [hd]; exact hpr)
    · refine Succeeds.mono (P := MakesDir (name :: above).reverse d) ?_ ?_
      · refine succeeds_mkdir hpa hdi (h _ hpa (prefix_refl _)) ?_ ?_ <;> rfl
      rintro rep d' ⟨hr, ht⟩
      refine ⟨hr, fun q => ?_⟩
      rw [ht q, if_congr (hs q) rfl rfl]
      by_cases he : q = (name :: above).reverse
      · rw [if_pos he, if_pos (.inl he)]
      rw [if_neg he]
      by_cases hq : q ≠ [] ∧ q <+: above.reverse
      · rw [if_pos (.inr hq), hdi q hq.1 (hd ▸ hq.2)]
      · rw [if_neg (fun ho => ho.elim he hq)]
    · have hc : d.create links (name :: above).reverse .dir = (.error .notFound, d) := by
        unfold Disk.create
        rw [hmiss]
      refine Succeeds.call hc ?_
      refine (ih hpr).bind ?_
      rintro rep d' ⟨rfl, ht⟩
      have hd' : Walkable d'.tree (name :: above).reverse.dropLast := by
        intro q hne hq
        rw [ht q, if_pos ⟨hne, hd ▸ hq⟩]
      have hl : ¬(name :: above).reverse <+: above.reverse := by
        intro hp
        have hle := hp.length_le
        simp at hle
      have hn : get d'.tree (name :: above).reverse = some .dir ∨
          get d'.tree (name :: above).reverse = none := by
        rw [ht, if_neg fun hp => hl hp.2]
        exact h _ hpa (prefix_refl _)
      refine Succeeds.mono (P := MakesDir (name :: above).reverse d') ?_ ?_
      · refine succeeds_mkdir hpa hd' hn ?_ ?_ <;> rfl
      rintro rep d'' ⟨hr, ht'⟩
      refine ⟨hr, fun q => ?_⟩
      rw [ht' q, ht q, if_congr (hs q) rfl rfl]
      by_cases he : q = (name :: above).reverse
      · rw [if_pos he, if_pos (.inl he)]
      · rw [if_neg he]
        exact if_congr ⟨.inr, fun ho => ho.resolve_left he⟩ rfl rfl

/-! ## One entry -/

section

variable (h : Restored staging roots done d)
include h

theorem destination_standing {par : OutputEntry}
    (hpar : par ∈ done) (hkind : par.kind = .directory)
    (hco : par.path.components = entry.path.components.dropLast) :
    Walkable d.tree (staging ++ entry.path.components).dropLast := by
  intro q hne hq
  rw [dropLast_destination, ← hco] at hq
  by_cases he : q = staging ++ par.path.components
  · rw [he, h.holds par hpar, hkind]
    rfl
  · exact h.closed par hpar q hne (prefix_dropLast_of_ne hq he)

theorem Restored.leading
    (hrs : RootsApart roots)
    (hpath : Leading staging roots path) :
    ∀ q, q ≠ [] → q <+: path → get d.tree q = some .dir ∨ get d.tree q = none := by
  intro q hne hq
  obtain hpath | ⟨a, -, rfl, root, hr, s, hs, hc⟩ := hpath
  · exact .inl (h.base q hne (hq.trans hpath))
  obtain hq | ⟨b, hb, rfl, ⟨c, rfl⟩⟩ := eq_or_append_of_isPrefix hq
  · exact .inl (h.base q hne hq)
  have ha : Above roots b := ⟨root, hr, c ++ s, by simp [hs], by rw [hc, append_assoc]⟩
  cases hg : get d.tree (staging ++ b) with
  | none => exact .inr rfl
  | some node =>
    obtain ⟨rfl, -⟩ | ⟨entry, he, rfl⟩ := h.only b hb node hg
    · exact .inl rfl
    · exact absurd ha ((h.inside entry he).not_above hrs)

theorem Restored.of_leading
    (hrs : RootsApart roots)
    (hpath : Leading staging roots path)
    (htree : ∀ q, get d'.tree q = if q ≠ [] ∧ q <+: path then some .dir else get d.tree q) :
    Restored staging roots done d' where
  base q hne hq := by
    rw [htree]
    split
    · rfl
    · exact h.base q hne hq
  inside := h.inside
  holds entry hentry := by
    rw [htree, if_neg]
    · exact h.holds entry hentry
    rintro ⟨-, hq⟩
    obtain hpath | ⟨a, -, rfl, root, hro, s, hs, hco⟩ := hpath
    · have hl := (hq.trans hpath).length_le
      have hp := length_pos_iff.mpr (components_ne_nil entry.path)
      rw [length_append] at hl
      omega
    obtain ⟨c, hc⟩ := (prefix_append_right_inj staging).mp hq
    refine (h.inside entry hentry).not_above hrs ⟨root, hro, c ++ s, by simp [hs], ?_⟩
    rw [hco, ← hc, append_assoc]
  closed entry hentry q hne hq := by
    rw [htree]
    split
    · rfl
    · exact h.closed entry hentry q hne hq
  only r hr node hget := by
    rw [htree] at hget
    split at hget
    · rename_i hq
      cases hget
      left
      obtain hpath | ⟨a, -, rfl, root, hro, s, hs, hco⟩ := hpath
      · have hl := (hq.2.trans hpath).length_le
        have hp := length_pos_iff.mpr hr
        rw [length_append] at hl
        omega
      · obtain ⟨c, hc⟩ := (prefix_append_right_inj staging).mp hq.2
        exact ⟨rfl, root, hro, c ++ s, by simp [hs], by rw [hco, ← hc, append_assoc]⟩
    · exact h.only r hr node hget

theorem Restored.add {entry : OutputEntry} {d' : Disk}
    (hw : Within roots entry.path.components)
    (hdirs : Walkable d.tree (staging ++ entry.path.components).dropLast)
      (hfree : get d.tree (staging ++ entry.path.components) = none)
    (htree : ∀ q, get d'.tree q =
      if q = staging ++ entry.path.components then some entry.kind.node else get d.tree q) :
    Restored staging roots (done ++ [entry]) d' := by
  have hk : ∀ q, get d.tree q = some .dir → get d'.tree q = some .dir := by
    intro q hq
    rw [htree, if_neg]
    · exact hq
    rintro rfl
    rw [hfree] at hq
    cases hq
  refine ⟨fun q hne hq => hk q (h.base q hne hq), ?_, ?_, ?_, ?_⟩
  · intro other ho
    obtain ho | ho := mem_append.mp ho
    · exact h.inside other ho
    · rw [mem_singleton.mp ho]
      exact hw
  · intro other ho
    obtain ho | ho := mem_append.mp ho
    · rw [htree, if_neg]
      · exact h.holds other ho
      · intro he
        rw [← he, h.holds other ho] at hfree
        cases hfree
    · rw [mem_singleton.mp ho, htree, if_pos rfl]
  · intro other ho q hne hq
    obtain ho | ho := mem_append.mp ho
    · exact hk q (h.closed other ho q hne hq)
    · rw [mem_singleton.mp ho] at hq
      exact hk q (hdirs q hne hq)
  intro r hr node hg
  rw [htree] at hg
  split at hg
  · rename_i he
    exact .inr ⟨entry, mem_append_right _ mem_cons_self, (append_cancel_left he).symm⟩
  obtain hd | ⟨other, ho, hc⟩ := h.only r hr node hg
  · exact .inl hd
  · exact .inr ⟨other, mem_append_left _ ho, hc⟩

theorem Restored.free
    (hrs : RootsApart roots) {path : RelativePath}
    (hw : Within roots path.components)
    (hnew : ∀ entry ∈ done, entry.path.components < path.components) :
    get d.tree (staging ++ path.components) = none := by
  by_contra hs
  obtain ⟨node, hg⟩ := Option.ne_none_iff_exists'.mp hs
  obtain ⟨-, ha⟩ | ⟨entry, he, hc⟩ := h.only _ (components_ne_nil path) node hg
  · exact hw.not_above hrs ha
  · exact (hnew entry he).ne hc

theorem succeeds_prepareEntryParent_root
    (hrs : RootsApart roots) {path : RelativePath}
    (hroot : path ∈ roots) :
    Succeeds links (prepareEntryParent (staging ++ path.components) true)
      (fun _ d' => Restored staging roots done d' ∧
        ∀ q, q ≠ [] → q <+: (staging ++ path.components).dropLast → get d'.tree q =
          some .dir) d := by
  have hl := @leading_of_root staging roots path hroot
  unfold prepareEntryParent
  split
  · rename_i hn
    exact absurd hn (destination_ne_nil staging path)
  refine Succeeds.bind (succeeds_createDirAll (by
    rw [reverse_reverse]
    exact h.leading hrs hl)) ?_
  rintro rep d' ⟨rfl, ht⟩
  rw [reverse_reverse] at ht
  refine Succeeds.pure ⟨h.of_leading hrs hl ht, fun q hne hq => ?_⟩
  rw [ht, if_pos ⟨hne, hq⟩]

end

theorem symlinkMetadata_of_dirs (h : Walkable d.tree path) :
    d.symlinkMetadata links path = .ok .dir := by
  unfold Disk.symlinkMetadata
  split
  · rfl
  rename_i hne
  rw [locate_of_dirs links hne fun q hq hp => h q hq (hp.trans ( dropLast_prefix _))]
  simp only [bind, Except.bind, h path hne (prefix_refl _)]
  rfl

theorem succeeds_prepareEntryParent_inside {path : RelativePath}
    (hdirs : Walkable d.tree (staging ++ path.components).dropLast) :
    Succeeds links (prepareEntryParent (staging ++ path.components) false)
      (fun _ d' => d' = d) d := by
  unfold prepareEntryParent
  split
  · rename_i hn
    exact absurd hn (destination_ne_nil staging path)
  have hm : d.symlinkMetadata links (staging ++ path.components).dropLast = .ok .dir :=
    symlinkMetadata_of_dirs hdirs
  have he : Disk.exec links (.symlinkMetadata (staging ++ path.components).dropLast) d =
      (.ok .dir, d) := by
    rw [← hm]
    rfl
  exact Succeeds.call he (Succeeds.pure rfl)

theorem update_of_file {file : FsPath} {cnt : Bytes} {exe : Bool}
    (h : get d.tree file = some (.leaf (.file cnt exe))) (change : Bytes → Bool → Content)
    (q : FsPath) : get (d.update file change).tree q =
      if q = file then some (.leaf (change cnt exe)) else get d.tree q := by
  unfold Disk.update
  rw [h]
  exact get_cons _ _ _ _

theorem opened_of_dirs (hpath : path ≠ [])
    (hdirs : Walkable d.tree path.dropLast)
    (hlink : linkAt contentLink d.tree path = none) :
    (locate contentLink d.tree links path).bind (openLast contentLink d.tree links) =
      .ok ⟨path, []⟩ := by
  rw [locate_of_dirs links hpath hdirs]
  exact openLast_of_not_link links hlink

theorem succeeds_createFile {path : FsPath} {cnt : Bytes} {exe : Bool} (hpath : path ≠ [])
    (hdirs : Walkable d.tree path.dropLast)
    (hfree : get d.tree path = none) {written : Disk} {set : Disk}
    (hwr : written = (d.add path ⟨path, []⟩ (.leaf (.file [] false))).update path
      fun old exe => .file (old ++ cnt) exe)
    (hset : set = (written.setExecutable links path exe).2) :
    d.createFile links path = (.ok path, d.add path ⟨path, []⟩ (.leaf (.file [] false))) ∧
      (written.setExecutable links path exe).1 = .ok () ∧
      ∀ q, get set.tree q = if q = path then some (.leaf (.file cnt exe)) else get d.tree q := by
  have hc : d.createFile links path =
      (.ok path, d.add path ⟨path, []⟩ (.leaf (.file [] false))) := by
    unfold Disk.createFile
    rw [opened_of_dirs hpath hdirs (linkAt_eq_none (.inl hfree))]
    simp [hfree]
  have hf : ∀ q, get written.tree q =
      if q = path then some (.leaf (.file cnt false)) else get d.tree q := by
    intro q
    rw [hwr, update_of_file (by rw [get_add, if_pos rfl]), nil_append, get_add]
    split <;> rfl
  have hd' : Walkable written.tree path.dropLast := by
    intro q hne hq
    rw [hf, if_neg]
    · exact hdirs q hne hq
    · rintro rfl
      exact length_dropLast_lt hpath (prefix_refl _) hq
  have hh : get written.tree path = some (.leaf (.file cnt false)) := by
    rw [hf, if_pos rfl]
  have he : written.setExecutable links path exe =
      (.ok (), written.update path fun cnt _ => .file cnt exe) := by
    unfold Disk.setExecutable
    rw [opened_of_dirs hpath hd' (by simp [linkAt, hh, contentLink])]
  refine ⟨hc, by rw [he], fun q => ?_⟩
  rw [hset, he, update_of_file hh, hf]
  split <;> rfl

theorem succeeds_createEntry {head : Head} {kind : OutputKind} (htag : head.tag = kind.tag)
    {rd : CanonicalReader} {rest : Bytes} (hfits : kind.Fits limits head.path)
    (hby : rd.inner.bytes = kind.fields ++ rest)
    (hlen : rd.taken.length + kind.fields.length ≤ rd.maximum.toNat)
    (hdirs : Walkable d.tree (staging ++ head.path.components).dropLast)
      (hfree : get d.tree (staging ++ head.path.components) = none) :
    Succeeds links (createEntry limits head (staging ++ head.path.components) rd)
      (fun rd' d' => rd' = rd.advance kind.fields rest ∧ ∀ q, get d'.tree q =
        if q = staging ++ head.path.components then some kind.node else get d.tree q) d := by
  have hp := destination_ne_nil staging head.path
  unfold createEntry
  cases kind with
  | directory =>
    have htag : head.tag = directoryTag := htag
    rw [if_pos htag]
    refine Succeeds.call (create_of_dirs hp hdirs hfree) ?_
    refine Succeeds.pure ⟨?_, fun q => get_add _ _ _ _⟩
    have hr := Reads.pure () rd rest hby hlen
    exact congrArg Prod.snd (Except.ok.inj hr)
  | file cnt exe =>
    have hh := @reads_fileHeader limits head.path cnt exe hfits rd
      (cnt ++ rest) (by rw [hby]; simp [OutputKind.fields]) (by
        simp only [OutputKind.fields, length_cons, length_append] at hlen ⊢
        omega)
    have hc := Reads.exact cnt
      (rd.advance (boolByte exe :: bigEndian 8 cnt.length) (cnt ++ rest)) rest
      rfl (by
        simp only [OutputKind.fields, CanonicalReader.advance, length_cons, length_append] at hlen ⊢
        omega)
    obtain ⟨hcr, hs, ht⟩ := @succeeds_createFile d links
      (staging ++ head.path.components) cnt exe hp hdirs hfree _ _ rfl rfl
    have htag : head.tag = fileTag := htag
    rw [if_neg (by rw [htag]; decide), if_pos htag]
    refine Succeeds.lift hh ?_
    refine Succeeds.call hcr (Succeeds.checked (Succeeds.lift hc ?_))
    refine Succeeds.call rfl (Succeeds.checked ?_)
    refine Succeeds.call (Prod.ext hs rfl) (Succeeds.checked (Succeeds.pure ⟨?_, ht⟩))
    simp [CanonicalReader.advance, OutputKind.fields]
  | symlink target isDirectory =>
    have hl := reads_symlink isDirectory hfits rd rest hby hlen
    have htag : head.tag = symlinkTag := htag
    rw [if_neg (by rw [htag]; decide), if_neg (by rw [htag]; decide), if_pos htag]
    refine Succeeds.lift hl ?_
    refine Succeeds.call (create_of_dirs hp hdirs hfree) ?_
    exact Succeeds.pure ⟨rfl, fun q => get_add _ _ _ _⟩

structure EntryFits (limits : BundleLimits) (entry : OutputEntry) : Prop where
  path : PathFits limits entry.path
  kind : entry.kind.Fits limits entry.path

theorem succeeds_extractEntry (h : Restored staging roots done d)
    (hrs : RootsApart roots) {entry : OutputEntry}
    {prog : Progress} {rest : Bytes} {outputRoot : Bool} {idx : ℕ}
    (hfits : EntryFits limits entry) (hby : prog.reader.inner.bytes = entry.bytes ++ rest)
    (hlen : prog.reader.taken.length + entry.bytes.length ≤ prog.reader.maximum.toNat)
    (hprev : ∀ path ∈ prog.previous, ∃ other ∈ done, other.path = path)
    (hnext : nextRoot roots prog.currentRoot entry.path = .ok (outputRoot, idx))
    (hnew : ∀ other ∈ done, other.path.components < entry.path.components)
    (hpar : outputRoot = false → ∃ par ∈ done, par.kind = .directory ∧
      par.path.components = entry.path.components.dropLast) :
    Succeeds links (extractEntry limits staging roots prog) (fun prog' d' => prog' =
          ⟨prog.reader.advance entry.bytes rest, some entry.path, some idx⟩ ∧
        Restored staging roots (done ++ [entry]) d') d := by
  have hh := reads_head hfits.path entry.kind.tag prog.reader (entry.kind.fields ++ rest)
    (by rw [hby]; simp [OutputEntry.bytes]) (by
      simp only [OutputEntry.bytes, length_cons, length_append] at hlen ⊢
      omega)
  obtain ⟨hm, hw⟩ := nextRoot_eq_ok hnext
  unfold extractEntry
  refine Succeeds.lift hh ?_
  have hor : ¬(prog.previous.any fun prev =>
      comparePaths prev entry.path != .lt) = true := by
    rw [Option.any_eq_true]
    rintro ⟨path, hp, hb⟩
    obtain ⟨other, ho, rfl⟩ := hprev path hp
    rw [bne_iff_ne] at hb
    exact hb ((compareComponents_eq_lt_iff _ _).mpr (hnew other ho))
  simp only
  rw [if_neg hor]
  refine Succeeds.lift hnext ?_
  refine Succeeds.bind (P := fun _ d' => Restored staging roots done d' ∧
    Walkable d'.tree (staging ++ entry.path.components).dropLast) ?_ ?_
  · cases outputRoot with
    | true => exact succeeds_prepareEntryParent_root h hrs (hm rfl)
    | false =>
      obtain ⟨par, hi, hk, hc⟩ := hpar rfl
      have hd := destination_standing h hi hk hc
      refine (succeeds_prepareEntryParent_inside hd).mono ?_
      rintro _ _ rfl
      exact ⟨h, hd⟩
  rintro _ d ⟨h, hd⟩
  have hf := h.free hrs hw hnew
  refine Succeeds.bind (@succeeds_createEntry staging d links limits
    ⟨entry.kind.tag, entry.path⟩ entry.kind rfl _ rest hfits.kind rfl (by
      simp only [OutputEntry.bytes, CanonicalReader.advance, length_cons, length_append] at hlen ⊢
      omega) hd hf) ?_
  rintro _ d' ⟨rfl, ht⟩
  refine Succeeds.pure ⟨?_, h.add hw hd hf ht⟩
  simp [CanonicalReader.advance, OutputEntry.bytes]

theorem succeeds_extractEntries (hrs : RootsApart roots)
    {entries : List OutputEntry} {prog : Progress} {rest : Bytes}
    (hca : Canonical roots done prog.currentRoot entries) (h : Restored staging roots done d)
    (hfits : ∀ entry ∈ entries, EntryFits limits entry)
    (hby : prog.reader.inner.bytes = entries.flatMap OutputEntry.bytes ++ rest)
    (hlen : prog.reader.taken.length + (entries.flatMap OutputEntry.bytes).length ≤
      prog.reader.maximum.toNat)
    (hprev : ∀ path ∈ prog.previous, ∃ other ∈ done, other.path = path) :
    Succeeds links (extractEntries limits staging roots entries.length prog) (fun prog' d' =>
        prog'.reader = prog.reader.advance (entries.flatMap OutputEntry.bytes) rest ∧
        (∃ idx, prog'.currentRoot = some idx ∧ idx + 1 = roots.length) ∧
        Restored staging roots (done ++ entries) d') d := by
  induction entries generalizing done prog d with
  | nil =>
    obtain ⟨rd, prev, cur⟩ := prog
    cases hca with
    | finished hi =>
      rw [append_nil]
      refine Succeeds.pure ⟨?_, ⟨_, rfl, hi⟩, h⟩
      have hrd := Reads.pure () rd rest hby hlen
      exact congrArg Prod.snd (Except.ok.inj hrd)
  | cons entry entries ih =>
    obtain ⟨outputRoot, idx, hnx, hn, hp, hr⟩ := hca.uncons
    rw [flatMap_cons] at hby hlen ⊢
    rw [append_assoc] at hby
    rw [length_append] at hlen
    refine Succeeds.bind (succeeds_extractEntry h hrs (hfits entry mem_cons_self) hby
      (by omega) hprev hnx hn hp) ?_
    rintro _ d' ⟨rfl, h'⟩
    refine (ih hr h' (fun other ho => hfits other (mem_cons_of_mem _ ho)) rfl ?_ ?_).mono ?_
    · simp only [CanonicalReader.advance, length_append]
      omega
    · rintro path hpa
      exact ⟨entry, mem_append_right _ mem_cons_self, Option.some.inj hpa⟩
    rintro prog' d'' ⟨hre, hi, h''⟩
    refine ⟨?_, hi, ?_⟩
    · rw [hre]
      simp [CanonicalReader.advance]
    · rwa [append_assoc, singleton_append] at h''

end Octa.Bundle
