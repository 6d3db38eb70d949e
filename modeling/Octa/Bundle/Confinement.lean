import Octa.Bundle.Extract

/-!
# Where extraction creates objects

The parent of an entry is inspected without following its last component, but
the components above it are followed.
-/

namespace Octa.Bundle

open FileTree LinkedTree Wire Crash Device Octa.Cache Octa.LocalStore CanonicalReader
open Disk hiding isDir setExecutable
open List hiding get contains cons

/-- What extraction may create: objects at and inside the declared roots, and the directories
above a root; each at the path that the code names, below directories of its own, and once. -/
structure Confined (staging : FsPath) (roots : List RelativePath) (created : List Creation) :
    Prop where
  placed : ∀ c ∈ created, c.located = c.requested ∧ c.followed = [] ∧
    ∃ p : RelativePath, c.located = staging ++ p.components ∧
      ((∃ root ∈ roots, contains root p = true) ∨
        c.node = .dir ∧ ∃ root ∈ roots, isStrictAncestor p root = true)
  onTheWay : ∀ before c after, created = before ++ c :: after →
    ∀ q, staging <+: q → q ≠ staging → q <+: c.located → q ≠ c.located →
      ∃ above ∈ before, above.located = q ∧ above.node = .dir
  once : (created.map Creation.located).Nodup

def NoneBelowLink (entries : List Head) : Prop :=
  ∀ link ∈ entries, link.tag = symlinkTag →
    ∀ entry ∈ entries, isStrictAncestor link.path entry.path = false

instance (entries : List Head) : Decidable (NoneBelowLink entries) :=
  inferInstanceAs (Decidable (∀ link ∈ entries, _))

theorem Confined.nil (staging : FsPath) (roots : List RelativePath) :
    Confined staging roots [] where
  placed _ h := absurd h not_mem_nil
  onTheWay before c after h := by simp at h
  once := nodup_nil

theorem Confined.of_mem {staging : FsPath} {roots rs' : List RelativePath}
    {crt : List Creation} (h : Confined staging roots crt)
    (hrs : ∀ p ∈ roots, p ∈ rs') : Confined staging rs' crt where
  placed c hc := by
    obtain ⟨hl, hf, p, hp, hpl⟩ := h.placed c hc
    refine ⟨hl, hf, p, hp, ?_⟩
    obtain ⟨root, hr, hi⟩ | ⟨hd, root, hr, ha⟩ := hpl
    · exact .inl ⟨root, hrs root hr, hi⟩
    · exact .inr ⟨hd, root, hrs root hr, ha⟩
  onTheWay := h.onTheWay
  once := h.once

theorem Confined.append {staging : FsPath} {roots : List RelativePath} {crt : List Creation}
    (h : Confined staging roots crt) {p : RelativePath} {node : Node Content}
    (hpl : (∃ root ∈ roots, contains root p = true) ∨
      node = .dir ∧ ∃ root ∈ roots, isStrictAncestor p root = true)
    (hway : ∀ q, staging <+: q → q ≠ staging → q <+: staging ++ p.components →
      q ≠ staging ++ p.components → ∃ above ∈ crt, above.located = q ∧ above.node = .dir)
    (hnew : ∀ c ∈ crt, c.located ≠ staging ++ p.components) : Confined staging roots
      (crt ++ [⟨staging ++ p.components, staging ++ p.components, [], node⟩]) where
  placed c hc := by
    obtain hc | hc := mem_append.mp hc
    · exact h.placed c hc
    · obtain rfl := mem_singleton.mp hc
      exact ⟨rfl, rfl, p, rfl, hpl⟩
  onTheWay before c after hs q hq hne hqc hqne := by
    obtain rfl | ⟨after, last, rfl⟩ := eq_nil_or_concat after
    · obtain ⟨rfl, hc⟩ := append_inj' hs rfl
      obtain rfl := (List.cons.inj hc).1
      exact hway q hq hne hqc hqne
    · rw [concat_eq_append, ← cons_append, ← append_assoc] at hs
      exact h.onTheWay before c after (append_inj' hs rfl).1 q hq hne hqc hqne
  once := by
    rw [map_append, nodup_append]
    refine ⟨h.once, nodup_singleton _, ?_⟩
    intro located hl other ho he
    obtain ⟨c, hc, rfl⟩ := mem_map.mp hl
    rw [map_singleton, mem_singleton] at ho
    exact hnew c hc (he.trans ho)

/-! ## The disk during a confined extraction -/

def Above (roots : List RelativePath) (r : FsPath) : Prop :=
  ∃ root ∈ roots, ∃ s, s ≠ [] ∧ root.components = r ++ s

def Within (roots : List RelativePath) (r : FsPath) : Prop :=
  ∃ root ∈ roots, root.components <+: r

theorem Within.not_above {roots : List RelativePath} {r : FsPath}
    (hrs : RootsApart roots) (h : Within roots r) :
    ¬Above roots r := by
  rintro ⟨root', hr', s, hs, hc⟩
  obtain ⟨root, hr, hpr⟩ := h
  have hl : root.components <+: root'.components := by
    rw [hc]
    exact List.IsPrefix.trans hpr (prefix_append r s)
  by_cases he : root = root'
  · have hle := hpr.length_le
    rw [he, hc, length_append] at hle
    have hp := length_pos_iff.mpr hs
    omega
  have : Std.Symm fun p q : RelativePath => Apart p.components q.components := ⟨fun _ _ h => h.symm⟩
  exact (hrs.forall hr hr' he).1 hl

/-- The staging directory holds what was created, and every link in it is an entry. -/
structure Staged (staging : FsPath) (roots : List RelativePath) (done : List Head) (d : Disk) :
    Prop where
  confined : Confined staging roots d.created
  base : ∀ q, q ≠ [] → q <+: staging → get d.tree q = some .dir
  present : ∀ c ∈ d.created, get d.tree c.located ≠ none
  inside : ∀ head ∈ done, Within roots head.path.components
  directory : ∀ r, r ≠ [] → get d.tree (staging ++ r) = some .dir →
    ∃ c ∈ d.created, c.located = staging ++ r ∧ c.node = .dir
  known : ∀ r, r ≠ [] → ∀ node, get d.tree (staging ++ r) = some node →
    node = .dir ∧ Above roots r ∨ ∃ head ∈ done, head.path.components = r ∧
      ((∃ target directory, node = .leaf (.symlink target directory)) → head.tag = symlinkTag)

section Staged

variable {staging : FsPath} {roots : List RelativePath} {done : List Head} {d : Disk}

theorem eq_or_append_of_isPrefix {q path r : FsPath} (h : q <+: path ++ r) :
    q <+: path ∨ ∃ a, a ≠ [] ∧ q = path ++ a ∧ a <+: r := by
  obtain hq | ⟨a, rfl⟩ := prefix_or_prefix_of_prefix h (prefix_append path r)
  · exact .inl hq
  by_cases ha : a = []
  · left
    rw [ha, append_nil]
  · exact .inr ⟨a, ha, rfl, (prefix_append_right_inj path).mp h⟩

theorem isLink_of_linkAt {t : FsTree} {p : FsPath} (h : linkAt contentLink t p ≠ none) :
    ∃ target directory, get t p = some (.leaf (.symlink target directory)) := by
  unfold linkAt at h
  split at h
  · rename_i cnt hg
    cases cnt with
    | symlink target directory => exact ⟨target, directory, hg⟩
    | file cnt exe | special => exact absurd rfl h
  · exact absurd rfl h

theorem Staged.no_link (h : Staged staging roots done d) {a : FsPath}
    (hfree : ∀ head ∈ done, head.tag = symlinkTag → ¬head.path.components <+: a) :
    ∀ q, q ≠ [] → q <+: staging ++ a → linkAt contentLink d.tree q = none := by
  intro q hne hq
  obtain hq | ⟨b, hb, rfl, hba⟩ := eq_or_append_of_isPrefix hq
  · exact linkAt_eq_none (.inr (h.base q hne hq))
  by_contra hl
  obtain ⟨target, directory, hg⟩ := isLink_of_linkAt hl
  obtain ⟨hd, -⟩ | ⟨head, hh, rfl, ht⟩ := h.known b hb _ hg
  · cases hd
  · exact hfree head hh (ht ⟨target, directory, rfl⟩) hba

theorem Staged.no_link_above (h : Staged staging roots done d)
    (hrs : RootsApart roots) {a : FsPath}
    (ha : Above roots a) :
    ∀ q, q ≠ [] → q <+: staging ++ a → linkAt contentLink d.tree q = none := by
  refine h.no_link ?_
  rintro head hh - hp
  obtain ⟨root, hr, hr'⟩ := h.inside head hh
  exact Within.not_above hrs ⟨root, hr, hr'.trans hp⟩ ha

theorem get_add (requested : FsPath) (found : Location String) (node : Node Content) (q : FsPath) :
    get (d.add requested found node).tree q = if q = found.path then some node else get d.tree q :=
  get_cons _ _ _ _

theorem Staged.add (h : Staged staging roots done d) {p : RelativePath} {node : Node Content}
    {done' : List Head}
    (hdirs : Walkable d.tree (staging ++ p.components).dropLast)
    (hfree : get d.tree (staging ++ p.components) = none) (hdone : ∀ head ∈ done, head ∈ done')
    (hin : ∀ head ∈ done', Within roots head.path.components)
    (hpl : node = .dir ∧ Above roots p.components ∨ ∃ head ∈ done', head.path = p ∧
        ((∃ target directory, node = .leaf (.symlink target directory)) → head.tag = symlinkTag)) :
    Staged staging roots done' (d.add (staging ++ p.components) ⟨staging ++ p.components, []⟩ node)
    where
  confined := by
    refine h.confined.append ?_ ?_ ?_
    · obtain ⟨hd, root, hro, s, hs, hco⟩ | ⟨head, hh, rfl, -⟩ := hpl
      · exact .inr ⟨hd, root, hro, (isStrictAncestor_iff _ _).mpr ⟨s, hs, hco⟩⟩
      · obtain ⟨root, hro, hp⟩ := hin head hh
        exact .inl ⟨root, hro, (contains_iff _ _).mpr hp⟩
    · rintro q ⟨r, rfl⟩ hne hq hqn
      have hr : r ≠ [] := by
        rintro rfl
        exact hne (append_nil _)
      exact h.directory r hr (hdirs _ (by simp [hr]) (prefix_dropLast_of_ne hq hqn))
    · intro c hc he
      exact h.present c hc (he ▸ hfree)
  base q hne hq := by
    rw [get_add, if_neg]
    · exact h.base q hne hq
    rintro rfl
    rw [h.base _ hne hq] at hfree
    cases hfree
  present c hc := by
    obtain hc | hc := mem_append.mp hc
    · rw [get_add]
      split
      · simp
      · exact h.present c hc
    · obtain rfl := mem_singleton.mp hc
      simp [get_add]
  inside := hin
  directory r hr hget := by
    rw [get_add] at hget
    split at hget
    · rename_i he
      cases hget
      exact ⟨_, mem_append_right _ mem_cons_self, he.symm, rfl⟩
    · obtain ⟨c, hc, hl, hd⟩ := h.directory r hr hget
      exact ⟨c, mem_append_left _ hc, hl, hd⟩
  known r hr node' hget := by
    rw [get_add] at hget
    split at hget
    · rename_i he
      obtain rfl : r = p.components := append_cancel_left he
      cases hget
      obtain hd | ⟨head, hh, rfl, ht⟩ := hpl
      · exact .inl hd
      · exact .inr ⟨head, hh, rfl, ht⟩
    obtain hd | ⟨head, hh, hco, ht⟩ := h.known r hr node' hget
    · exact .inl hd
    · exact .inr ⟨head, hdone head hh, hco, ht⟩

theorem get_update (file : FsPath) (change : Bytes → Bool → Bytes × Bool) (q : FsPath) :
    get (d.update file fun cnt exe =>
        .file (change cnt exe).1 (change cnt exe).2).tree q = get d.tree q ∨
      ∃ cnt exe cnt' exec', get d.tree q = some (.leaf (.file cnt exe)) ∧
        get (d.update file fun cnt exe =>
          .file (change cnt exe).1 (change cnt exe).2).tree q =
            some (.leaf (.file cnt' exec')) := by
  unfold update
  split
  · rename_i cnt exe hg
    rw [get_cons]
    split
    · rename_i he
      exact .inr ⟨cnt, exe, _, _, he ▸ hg, rfl⟩
    · exact .inl rfl
  · exact .inl rfl

theorem created_update (file : FsPath) (change : Bytes → Bool → Content) :
    (d.update file change).created = d.created := by
  unfold update
  split <;> rfl

theorem Staged.update (h : Staged staging roots done d) (file : FsPath)
    (change : Bytes → Bool → Bytes × Bool) :
    Staged staging roots done (d.update file fun cnt exe =>
      .file (change cnt exe).1 (change cnt exe).2) where
  confined := by
    rw [created_update]
    exact h.confined
  base q hne hq := by
    obtain he | ⟨_, _, _, _, hb, -⟩ := @get_update d file change q
    · rw [he]
      exact h.base q hne hq
    · rw [h.base q hne hq] at hb
      cases hb
  present c hc := by
    rw [created_update] at hc
    obtain he | ⟨_, _, _, _, -, ha⟩ := @get_update d file change c.located
    · rw [he]
      exact h.present c hc
    · rw [ha]
      simp
  inside := h.inside
  directory r hr hget := by
    rw [created_update]
    obtain he | ⟨_, _, _, _, -, ha⟩ := @get_update d file change (staging ++ r)
    · exact h.directory r hr (he ▸ hget)
    · rw [ha] at hget
      cases hget
  known r hr node hget := by
    obtain he | ⟨cnt, exe, _, _, hb, ha⟩ := @get_update d file change (staging ++ r)
    · exact h.known r hr node (he ▸ hget)
    rw [ha] at hget
    cases hget
    obtain ⟨hd, -⟩ | ⟨head, hh, hco, -⟩ := h.known r hr _ hb
    · cases hd
    · exact .inr ⟨head, hh, hco, by rintro ⟨_, _, hl⟩; cases hl⟩

end Staged

/-! ## Rules for the calls -/

section Calls

variable {links : ℕ} {d : Disk} {E : BundleError → Disk → Prop} {C : Disk → Prop}

theorem wpe_call {request : Call} {Q : Reply request → Disk → Prop} (hC : C d)
    (hC' : C (exec links request d).2) (hQ : Q (exec links request d).1 (exec links request d).2) :
    (device links).wpe (call request) Q E C d :=
  ⟨hC, fun _ h => h.elim, hC', hQ⟩

theorem wpe_liftResult {α : Type} {Q : α → Disk → Prop} {result : BundleResult α} (hC : C d)
    (hok : ∀ val, result = .ok val → Q val d) (her : ∀ error, E error d) :
    (device links).wpe (liftResult result) Q E C d := by
  cases result with
  | ok val => exact wpe_pure hC (hok val rfl)
  | error error => exact wpe_throw hC (her error)

theorem wpe_checked {α : Type} {Q : α → Disk → Prop} {op : String} {path : FsPath}
    {result : Except ErrorKind α} (hC : C d) (hok : ∀ val, result = .ok val → Q val d)
    (her : ∀ error, E error d) : (device links).wpe (checked op path result) Q E C d := by
  cases result with
  | ok val => exact wpe_pure hC (hok val rfl)
  | error kind => exact wpe_throw hC (her _)

theorem create_cases (path : FsPath) (node : Node Content) :
    (∃ kind, d.create links path node = (.error kind, d)) ∨
      ∃ found, locate contentLink d.tree links path = .ok found ∧ get d.tree found.path = none ∧
        d.create links path node = (.ok (), d.add path found node) := by
  unfold create
  cases locate contentLink d.tree links path with
  | error kind => exact .inl ⟨kind, rfl⟩
  | ok found =>
    cases hg : get d.tree found.path with
    | some node => exact .inl ⟨.alreadyExists, by simp [hg]⟩
    | none => exact .inr ⟨found, rfl, hg, by simp [hg]⟩

theorem createFile_cases (path : FsPath) : (∃ kind, d.createFile links path = (.error kind, d)) ∨
      ∃ found exe, (locate contentLink d.tree links path).bind (openLast contentLink d.tree links) =
          .ok found ∧
        d.createFile links path = (.ok found.path, d.add path found (.leaf (.file [] exe))) := by
  unfold createFile
  cases (locate contentLink d.tree links path).bind (openLast contentLink d.tree links) with
  | error kind => exact .inl ⟨kind, rfl⟩
  | ok found =>
    cases hg : get d.tree found.path with
    | none => exact .inr ⟨found, false, rfl, by simp [hg]⟩
    | some node =>
      cases node with
      | dir => exact .inl ⟨.other, by simp [hg]⟩
      | leaf cnt =>
        cases cnt with
        | file cnt exe => exact .inr ⟨found, exe, rfl, by simp [hg]⟩
        | symlink target directory | special => exact .inl ⟨.other, by simp [hg]⟩

end Calls

/-! ## One entry -/

/-- The state between two entries: confined if `good` holds, and a record of every entry. -/
structure Running (good : Prop) (staging : FsPath) (roots : List RelativePath) (done : List Head)
    (d : Disk) : Prop where
  staged : good → Staged staging roots done d
  recorded : ∀ head ∈ done, ∃ c ∈ d.created,
    c.requested = staging ++ head.path.components ∧ (head.tag = symlinkTag → c.node ≠ .dir)

section Entries

variable {good : Prop} {staging : FsPath} {roots : List RelativePath} {done : List Head} {d : Disk}
variable {links : ℕ} {limits : BundleLimits}

def Stopped (good : Prop) (staging : FsPath) (roots : List RelativePath) (d : Disk) : Prop :=
  good → Confined staging roots d.created

theorem Running.stopped (h : Running good staging roots done d) : Stopped good staging roots d :=
  fun hg => (h.staged hg).confined

theorem Running.recorded_add (h : Running good staging roots done d) (path : FsPath)
    (found : Location String) (node : Node Content) :
    ∀ head ∈ done, ∃ c ∈ (d.add path found node).created,
      c.requested = staging ++ head.path.components ∧ (head.tag = symlinkTag → c.node ≠ .dir) := by
  intro head hh
  obtain ⟨c, hc, hr⟩ := h.recorded head hh
  exact ⟨c, mem_append_left _ hc, hr⟩

/-- The paths at and above the staging directory, and those above a root. -/
def Leading (staging : FsPath) (roots : List RelativePath) (path : FsPath) : Prop :=
  path <+: staging ∨ ∃ a, a ≠ [] ∧ path = staging ++ a ∧ Above roots a

theorem Leading.dropLast {path : FsPath} (h : Leading staging roots path) :
    Leading staging roots path.dropLast := by
  obtain h | ⟨a, ha, rfl, root, hr, s, hs, hc⟩ := h
  · exact .inl (( dropLast_prefix path).trans h)
  rw [dropLast_append_of_ne_nil ha]
  by_cases hn : a.dropLast = []
  · left
    rw [hn, append_nil]
  · refine .inr ⟨a.dropLast, hn, rfl, root, hr, a.getLast ha :: s, by simp, ?_⟩
    rw [hc, append_cons, dropLast_append_getLast]

theorem Staged.no_link_leading (h : Staged staging roots done d)
    (hrs : RootsApart roots) {path : FsPath}
    (hpath : Leading staging roots path) :
    ∀ q, q ≠ [] → q <+: path → linkAt contentLink d.tree q = none := by
  intro q hne hq
  obtain hpath | ⟨a, -, rfl, ha⟩ := hpath
  · exact linkAt_eq_none (.inr (h.base q hne (hq.trans hpath)))
  · exact h.no_link_above hrs ha q hne hq

/-- All directories of a path stand once `mkdir` succeeds on it. -/
def Standing (good : Prop) (path : FsPath) (d : Disk) : Prop :=
  good → ∀ q, q ≠ [] → q <+: path → get d.tree q = some .dir

theorem wpe_createDir_leading (h : Running good staging roots done d)
    (hrs : RootsApart roots) {path : FsPath}
    (hpath : Leading staging roots path) {E : BundleError → Disk → Prop} :
    (device links).wpe (call (.createDir path)) (fun rep d' => Running good staging roots done d' ∧
        (rep = (.ok () : Except ErrorKind Unit) → Standing good path d'))
      E (Stopped good staging roots) d := by
  have hca := @create_cases links d path .dir
  obtain ⟨kind, hc⟩ | ⟨found, hl, hf, hc⟩ := hca
  · have he : exec links (.createDir path) d = (.error kind, d) := hc
    refine wpe_call h.stopped ?_ ?_ <;> rw [he]
    · exact h.stopped
    · exact ⟨h, fun hok => by cases hok⟩
  have he : exec links (.createDir path) d = (.ok (), d.add path found .dir) := hc
  have hst : good → Staged staging roots done (d.add path found .dir) ∧
      Walkable (d.add path found .dir).tree path := by
    intro hg
    have hs := h.staged hg
    obtain ⟨hne, rfl, hd⟩ := locate_eq_ok (hs.no_link_leading hrs hpath.dropLast) hl
    constructor
    · obtain hpath | ⟨a, ha, rfl, root, hr, s, hsn, hco⟩ := hpath
      · rw [hs.base path hne hpath] at hf
        cases hf
      · obtain ⟨p, -, rfl⟩ := RelativePath.new_of_components hco ha hsn
        exact hs.add hd hf (fun _ hh => hh) hs.inside (.inl ⟨rfl, root, hr, s, hsn, hco⟩)
    intro q hqn hq
    rw [get_add]
    split
    · rfl
    · rename_i ho
      exact hd q hqn (prefix_dropLast_of_ne hq ho)
  have haf : Running good staging roots done (d.add path found .dir) :=
    ⟨fun hg => (hst hg).1, h.recorded_add _ _ _⟩
  refine wpe_call h.stopped ?_ ?_ <;> rw [he]
  · exact haf.stopped
  · exact ⟨haf, fun _ hg => (hst hg).2⟩

theorem wpe_unlessDir (h : Running good staging roots done d)
    (hrs : RootsApart roots) {path : FsPath}
    (hpath : Leading staging roots path) (kind : ErrorKind) {E : BundleError → Disk → Prop} :
    (device links).wpe (unlessDir path kind) (fun rep d' => Running good staging roots done d' ∧
        (rep = .ok () → Standing good path d'))
      E (Stopped good staging roots) d := by
  refine wpe_bind (wpe_call h.stopped h.stopped ?_)
  change (device links).wpe
    (if d.isDir links path = true then pure (.ok ()) else pure (.error kind) :
      Extraction (Except ErrorKind Unit)) _ _ _ d
  split
  · rename_i hd
    refine wpe_pure h.stopped ⟨h, fun _ hg => ?_⟩
    unfold Disk.isDir at hd
    split at hd
    · rename_i found hf
      exact (resolve_names_eq_ok ((h.staged hg).no_link_leading hrs hpath) hf).2
    · cases hd
  · exact wpe_pure h.stopped ⟨h, fun ho => by cases ho⟩

theorem wpe_createDirAll (hrs : RootsApart roots)
    {names : List String} (h : Running good staging roots done d)
    (hpath : Leading staging roots names.reverse) {E : BundleError → Disk → Prop} :
    (device links).wpe (createDirAll names) (fun rep d' => Running good staging roots done d' ∧
        (rep = .ok () → Standing good names.reverse d'))
      E (Stopped good staging roots) d := by
  induction names generalizing d with
  | nil =>
    refine wpe_pure h.stopped ⟨h, fun _ _ q hne hq => ?_⟩
    exact absurd (prefix_nil.mp hq) hne
  | cons name above ih =>
    have ha : Leading staging roots above.reverse := by
      have hd := hpath.dropLast
      rwa [reverse_cons, dropLast_concat] at hd
    unfold createDirAll
    refine wpe_seq (wpe_createDir_leading h hrs hpath) ?_
    rintro (kind | ⟨⟩) d ⟨h, hs⟩
    · cases kind
      case notFound =>
        refine wpe_seq (ih h ha) ?_
        rintro (kind | ⟨⟩) d ⟨h, -⟩
        · exact wpe_pure h.stopped ⟨h, fun ho => by cases ho⟩
        refine wpe_seq (wpe_createDir_leading h hrs hpath) ?_
        rintro (kind | ⟨⟩) d ⟨h, hs⟩
        · exact wpe_unlessDir h hrs hpath kind
        · exact wpe_pure h.stopped ⟨h, fun _ => hs rfl⟩
      all_goals exact wpe_unlessDir h hrs hpath _
    · exact wpe_pure h.stopped ⟨h, fun _ => hs rfl⟩

theorem dropLast_destination (staging : FsPath) (p : RelativePath) :
    (staging ++ p.components).dropLast = staging ++ p.components.dropLast :=
  dropLast_append_of_ne_nil (components_ne_nil p)

theorem symlinkMetadata_eq_ok {path : FsPath} {node : Node Content} (hpath : path ≠ [])
    (h : d.symlinkMetadata links path = .ok node) :
    ∃ found, locate contentLink d.tree links path = .ok found ∧
      get d.tree found.path = some node := by
  unfold symlinkMetadata at h
  split at h
  · exact absurd rfl hpath
  obtain ⟨found, hf, h⟩ := Fallible.bind_eq_ok h
  refine ⟨found, hf, ?_⟩
  split at h
  · rename_i node' hg
    cases h
    exact hg
  · cases h

theorem Staged.standing_parent (h : Staged staging roots done d) {path : RelativePath}
    (hli : ∀ head ∈ done, head.tag = symlinkTag → isStrictAncestor head.path path = false)
    (hpar : d.symlinkMetadata links (staging ++ path.components).dropLast = .ok .dir) :
    Walkable d.tree (staging ++ path.components).dropLast := by
  have hf : ∀ head ∈ done, head.tag = symlinkTag →
      ¬head.path.components <+: path.components.dropLast := by
    rintro head hh ht ⟨r, hr⟩
    have hn := hli head hh ht
    rw [← Bool.not_eq_true, isStrictAncestor_iff] at hn
    refine hn ⟨r ++ [path.components.getLast (components_ne_nil path)], by simp, ?_⟩
    rw [← append_assoc, hr, dropLast_append_getLast]
  intro q hne hq
  have hp : (staging ++ path.components).dropLast ≠ [] := by
    intro hni
    rw [hni] at hq
    exact hne (prefix_nil.mp hq)
  obtain ⟨found, hfo, hg⟩ := symlinkMetadata_eq_ok hp hpar
  obtain ⟨-, rfl, hd⟩ := locate_eq_ok (fun q hne hq => h.no_link hf q hne (by
    rw [← dropLast_destination]
    exact hq.trans ( dropLast_prefix _))) hfo
  by_cases he : q = (staging ++ path.components).dropLast
  · rw [he]
    exact hg
  · exact hd q hne (prefix_dropLast_of_ne hq he)

theorem leading_of_root {path : RelativePath} (hroot : path ∈ roots) :
    Leading staging roots (staging ++ path.components).dropLast := by
  rw [dropLast_destination]
  by_cases hn : path.components.dropLast = []
  · left
    rw [hn, append_nil]
  · exact .inr ⟨_, hn, rfl, path, hroot, [path.components.getLast (components_ne_nil path)],
      by simp, (dropLast_append_getLast _).symm⟩

theorem wpe_prepareEntryParent (hrs : RootsApart roots)
    (h : Running good staging roots done d) {path : RelativePath} {outputRoot : Bool}
    (hroot : outputRoot = true → path ∈ roots) (hli : good → ∀ head ∈ done, head.tag = symlinkTag →
      isStrictAncestor head.path path = false) :
    (device links).wpe (prepareEntryParent (staging ++ path.components) outputRoot)
      (fun _ d' => Running good staging roots done d' ∧
        Standing good (staging ++ path.components).dropLast d')
      (fun _ d' => Stopped good staging roots d') (Stopped good staging roots) d := by
  unfold prepareEntryParent
  split
  · exact wpe_throw h.stopped h.stopped
  cases outputRoot with
  | true =>
    have hl : Leading staging roots (staging ++ path.components).dropLast.reverse.reverse := by
      rw [reverse_reverse]
      exact leading_of_root (hroot rfl)
    refine wpe_seq (wpe_createDirAll hrs h hl) ?_
    rintro rep d ⟨h, hs⟩
    refine wpe_checked h.stopped (fun _ ho => ⟨h, ?_⟩) (fun _ => h.stopped)
    rw [reverse_reverse] at hs
    exact hs ho
  | false =>
    refine wpe_bind (wpe_call h.stopped h.stopped ?_)
    cases hm : d.symlinkMetadata links (staging ++ path.components).dropLast with
    | error kind =>
      have he : exec links
          (.symlinkMetadata (staging ++ path.components).dropLast) d = (.error kind, d) := by
        rw [← hm]
        rfl
      rw [he]
      cases kind <;> exact wpe_throw h.stopped h.stopped
    | ok node =>
      have he : exec links
          (.symlinkMetadata (staging ++ path.components).dropLast) d = (.ok node, d) := by
        rw [← hm]
        rfl
      rw [he]
      cases node with
      | leaf cnt => exact wpe_throw h.stopped h.stopped
      | dir =>
        exact wpe_pure h.stopped ⟨h, fun hg =>
          (h.staged hg).standing_parent (hli hg) hm⟩

/-! ## The object of an entry -/

theorem Staged.free (h : Staged staging roots done d)
    (hrs : RootsApart roots) {path : RelativePath}
    (hw : Within roots path.components) (hnew : ∀ head ∈ done, head.path ≠ path) :
    get d.tree (staging ++ path.components) = none := by
  by_contra hs
  obtain ⟨node, hg⟩ := Option.ne_none_iff_exists'.mp hs
  obtain ⟨-, ha⟩ | ⟨head, hh, hc, -⟩ := h.known _ (components_ne_nil path) node hg
  · exact hw.not_above hrs ha
  · exact hnew head hh (RelativePath.components_injective hc)

theorem Running.add (hrs : RootsApart roots)
    (h : Running good staging roots done d) {head : Head} {node : Node Content}
    {found : Location String} (hst : Standing good (staging ++ head.path.components).dropLast d)
    (hw : Within roots head.path.components) (hnew : ∀ other ∈ done, other.path ≠ head.path)
    (hfo : good → found = ⟨staging ++ head.path.components, []⟩)
    (hkind : head.tag = symlinkTag ↔ ∃ target directory, node = .leaf (.symlink target directory)) :
    Running good staging roots (done ++ [head])
      (d.add (staging ++ head.path.components) found node) where
  staged hgood := by
    have hs := h.staged hgood
    rw [hfo hgood]
    refine hs.add (hst hgood) (hs.free hrs hw hnew) (fun _ hh => mem_append_left _ hh) ?_
      (.inr ⟨head, mem_append_right _ mem_cons_self, rfl, hkind.mpr⟩)
    intro other ho
    obtain ho | ho := mem_append.mp ho
    · exact hs.inside other ho
    · obtain rfl := mem_singleton.mp ho
      exact hw
  recorded other ho := by
    obtain ho | ho := mem_append.mp ho
    · exact h.recorded_add _ _ _ other ho
    obtain rfl := mem_singleton.mp ho
    refine ⟨_, mem_append_right _ mem_cons_self, rfl, fun ht => ?_⟩
    obtain ⟨target, directory, rfl⟩ := hkind.mp ht
    simp

theorem Running.update (h : Running good staging roots done d) (file : FsPath)
    (change : Bytes → Bool → Bytes × Bool) :
    Running good staging roots done (d.update file fun cnt exe =>
      .file (change cnt exe).1 (change cnt exe).2) where
  staged hgood := (h.staged hgood).update file change
  recorded := by
    rw [created_update]
    exact h.recorded

theorem Standing.locate {path : FsPath} (hpath : path ≠ []) (h : Standing good path.dropLast d)
    {found : Location String} (hfo : LinkedTree.locate contentLink d.tree links path = .ok found)
    (hgood : good) : found = ⟨path, []⟩ := by
  rw [locate_of_dirs links hpath (h hgood)] at hfo
  exact (Except.ok.inj hfo).symm

theorem destination_ne_nil (staging : FsPath) (p : RelativePath) :
    staging ++ p.components ≠ [] := by
  simp [components_ne_nil p]

section

variable (hrs : RootsApart roots)
include hrs

theorem Running.create
    (h : Running good staging roots done d) {head : Head} {node : Node Content}
    (hst : Standing good (staging ++ head.path.components).dropLast d)
    (hw : Within roots head.path.components) (hnew : ∀ other ∈ done, other.path ≠ head.path)
    (hkind : head.tag = symlinkTag ↔ ∃ target directory, node = .leaf (.symlink target directory)) :
    Stopped good staging roots (d.create links (staging ++ head.path.components) node).2 ∧
      ((d.create links (staging ++ head.path.components) node).1 = .ok () →
        Running good staging roots (done ++ [head])
          (d.create links (staging ++ head.path.components) node).2) := by
  obtain ⟨kind, hc⟩ | ⟨found, hf, -, hc⟩ :=
    @create_cases links d (staging ++ head.path.components) node
  · rw [hc]
    exact ⟨h.stopped, fun ho => by cases ho⟩
  rw [hc]
  have ha := h.add hrs hst hw hnew (hst.locate (destination_ne_nil staging head.path) hf) hkind
  exact ⟨ha.stopped, fun _ => ha⟩

theorem Running.createFile
    (h : Running good staging roots done d) {head : Head} (htag : head.tag = fileTag)
    (hst : Standing good (staging ++ head.path.components).dropLast d)
    (hw : Within roots head.path.components) (hnew : ∀ other ∈ done, other.path ≠ head.path) :
    Stopped good staging roots (d.createFile links (staging ++ head.path.components)).2 ∧
      ∀ file, (d.createFile links (staging ++ head.path.components)).1 = .ok file →
        Running good staging roots (done ++ [head])
          (d.createFile links (staging ++ head.path.components)).2 := by
  obtain ⟨kind, hc⟩ | ⟨found, exe, hf, hc⟩ :=
    @createFile_cases links d (staging ++ head.path.components)
  · rw [hc]
    exact ⟨h.stopped, fun _ ho => by cases ho⟩
  rw [hc]
  have hl : good → found = ⟨staging ++ head.path.components, []⟩ := by
    intro hg
    have hfr := (h.staged hg).free hrs hw hnew
    rw [locate_of_dirs links (destination_ne_nil staging head.path) (hst hg)] at hf
    change openLast contentLink d.tree links ⟨staging ++ head.path.components, []⟩ = _ at hf
    rw [openLast_of_not_link links (linkAt_eq_none (.inl hfr))] at hf
    exact (Except.ok.inj hf).symm
  have ha : Running good staging roots (done ++ [head])
      (d.add (staging ++ head.path.components) found (.leaf (.file [] exe))) := by
    refine h.add hrs hst hw hnew hl ⟨fun hli => ?_, ?_⟩
    · rw [htag] at hli
      exact absurd hli (by decide)
    · rintro ⟨target, directory, hn⟩
      cases hn
  exact ⟨ha.stopped, fun _ _ => ha⟩

end

theorem Running.setExecutable (h : Running good staging roots done d) (path : FsPath)
    (exe : Bool) :
    Running good staging roots done (d.setExecutable links path exe).2 := by
  unfold Disk.setExecutable
  split
  · exact h
  · exact h.update _ fun cnt _ => (cnt, exe)

theorem readBody_directory {head : Head} (htag : head.tag = directoryTag)
    (reader : CanonicalReader) : readBody limits head reader = .ok (.dir, reader) := by
  unfold readBody
  rw [if_pos htag]
  rfl

theorem readBody_file {head : Head} (htag : head.tag = fileTag)
    {reader after rest : CanonicalReader} {exe : Bool} {length : ℕ} {cnt : Bytes}
    (hhe : readFileHeader limits head.path reader = .ok ((exe, length), after))
    (hcn : readExact length after = .ok (cnt, rest)) :
    readBody limits head reader = .ok (.leaf (.file cnt exe), rest) := by
  unfold readBody
  rw [if_neg (by rw [htag]; decide), if_pos htag]
  change (readFileHeader limits head.path reader >>= fun he =>
    readExact he.1.2 he.2 >>= fun cnt =>
      .ok (Node.leaf (Content.file cnt.1 he.1.1), cnt.2)) = _
  rw [hhe]
  change (readExact length after >>= fun cnt =>
    .ok (Node.leaf (Content.file cnt.1 exe), cnt.2)) = _
  rw [hcn]
  rfl

theorem readBody_symlink {head : Head} (htag : head.tag = symlinkTag)
    {reader rest : CanonicalReader} {target : String} {directory : Bool}
    (hlink : readSymlink limits head.path reader = .ok ((target, directory), rest)) :
    readBody limits head reader = .ok (.leaf (.symlink target directory), rest) := by
  unfold readBody
  rw [if_neg (by rw [htag]; decide), if_neg (by rw [htag]; decide), if_pos htag]
  change (readSymlink limits head.path reader >>= fun link =>
    .ok (Node.leaf (Content.symlink link.1.1 link.1.2), link.2)) = _
  rw [hlink]
  rfl

theorem wpe_createEntry (hrs : RootsApart roots)
    (h : Running good staging roots done d) {head : Head} (reader : CanonicalReader)
    (hst : Standing good (staging ++ head.path.components).dropLast d)
    (hw : Within roots head.path.components) (hnew : ∀ other ∈ done, other.path ≠ head.path) :
    (device links).wpe (createEntry limits head (staging ++ head.path.components) reader)
      (fun rest d' => Running good staging roots (done ++ [head]) d' ∧
        ∃ node, readBody limits head reader = .ok (node, rest))
      (fun _ d' => Stopped good staging roots d') (Stopped good staging roots) d := by
  unfold createEntry
  split
  · rename_i ht
    have hk : head.tag = symlinkTag ↔
        ∃ target directory, Node.dir = Node.leaf (Content.symlink target directory) := by
      rw [ht]
      exact ⟨fun hl => absurd hl (by decide), by rintro ⟨_, _, hn⟩; cases hn⟩
    obtain ⟨hs, ho⟩ := @Running.create _ _ _ _ _ links hrs h _ _ hst hw hnew hk
    refine wpe_bind (wpe_call h.stopped hs ?_)
    refine wpe_bind (wpe_checked hs (fun _ hd => ?_) fun _ => hs)
    exact wpe_pure hs ⟨ho hd, .dir, readBody_directory ht reader⟩
  · split
    · rename_i ht
      refine wpe_bind (wpe_liftResult h.stopped ?_ fun _ => h.stopped)
      rintro ⟨⟨exe, length⟩, after⟩ hh
      obtain ⟨hs, ho⟩ := @Running.createFile _ _ _ _ _ links hrs h _ ht hst hw hnew
      refine wpe_bind (wpe_call h.stopped hs ?_)
      refine wpe_bind (wpe_checked hs (fun file hf => ?_) fun _ => hs)
      have hc := ho file hf
      refine wpe_bind (wpe_liftResult hs ?_ fun _ => hs)
      rintro ⟨cnt, rest⟩ hcn
      have hwr := hc.update file fun written exe => (written ++ cnt, exe)
      refine wpe_bind (wpe_call hs hwr.stopped ?_)
      refine wpe_bind (wpe_checked hwr.stopped (fun _ _ => ?_) fun _ => hwr.stopped)
      have hse := @Running.setExecutable _ _ _ _ _ links hwr (staging ++ head.path.components) exe
      refine wpe_bind (wpe_call hwr.stopped hse.stopped ?_)
      refine wpe_bind (wpe_checked hse.stopped (fun _ _ => ?_) fun _ => hse.stopped)
      exact wpe_pure hse.stopped ⟨hse, _, readBody_file ht hh hcn⟩
    · split
      · rename_i ht
        refine wpe_bind (wpe_liftResult h.stopped ?_ fun _ => h.stopped)
        rintro ⟨⟨target, directory⟩, rest⟩ hl
        have hk : head.tag = symlinkTag ↔ ∃ tgt' dir',
            Node.leaf (Content.symlink target directory) = Node.leaf (Content.symlink tgt' dir') :=
          ⟨fun _ => ⟨target, directory, rfl⟩, fun _ => ht⟩
        obtain ⟨hs, ho⟩ := @Running.create _ _ _ _ _ links hrs h _ _ hst hw hnew hk
        refine wpe_bind (wpe_call h.stopped hs ?_)
        refine wpe_bind (wpe_checked hs (fun _ hd => ?_) fun _ => hs)
        exact wpe_pure hs ⟨ho hd, _, readBody_symlink ht hl⟩
      · exact wpe_throw h.stopped h.stopped

/-! ## The whole stream -/

theorem nextRoot_eq_ok {cur : Option ℕ} {path : RelativePath} {outputRoot : Bool} {idx : ℕ}
    (h : nextRoot roots cur path = .ok (outputRoot, idx)) :
    (outputRoot = true → path ∈ roots) ∧ Within roots path.components := by
  unfold nextRoot at h
  split at h
  · obtain hr | hr := em (roots.head? = some path)
    · rw [if_pos hr] at h
      have hm := mem_of_head? hr
      exact ⟨fun _ => hm, path, hm, prefix_refl _⟩
    · rw [if_neg hr] at h
      cases h
  rename_i position
  split at h
  · rename_i hc
    cases h
    obtain ⟨root, hr, hi⟩ := (Option.any_eq_true _ _).mp hc
    exact ⟨fun hf => (by cases hf), root, mem_of_getElem? hr, (contains_iff _ _).mp hi⟩
  split at h
  · cases h
  rename_i root hr
  split at h
  · rename_i he
    have hm := mem_of_getElem? hr
    rw [← he] at hm
    exact ⟨fun _ => hm, path, hm, prefix_refl _⟩
  · cases h

def Ordered (done : List Head) (previous : Option RelativePath) : Prop :=
  ∀ head ∈ done, ∃ path ∈ previous, head.path.components ≤ path.components

theorem Ordered.lt {prev : Option RelativePath} (h : Ordered done prev) {path : RelativePath}
    (hnext : (prev.any fun prev => comparePaths prev path != .lt) = false) :
    ∀ head ∈ done, head.path.components < path.components := by
  intro head hh
  obtain ⟨last, hl, hle⟩ := h head hh
  rw [Option.mem_def.mp hl, Option.any_some, bne_eq_false_iff_eq] at hnext
  have hlt := (compareComponents_eq_lt_iff _ _).mp hnext
  exact not_le.mp fun hg => not_lt.mpr (hg.trans hle) hlt

theorem wpe_extractEntry (hrs : RootsApart roots)
    (h : Running good staging roots done d) {prog : Progress}
    (hord : Ordered done prog.previous)
    (hli : good → ∀ head rest, readHead limits prog.reader = .ok (head, rest) →
      ∀ link ∈ done, link.tag = symlinkTag → isStrictAncestor link.path head.path = false) :
    (device links).wpe (extractEntry limits staging roots prog)
      (fun prog' d' => ∃ head rest node, readHead limits prog.reader = .ok (head, rest) ∧
        readBody limits head rest = .ok (node, prog'.reader) ∧
        Ordered (done ++ [head]) prog'.previous ∧
        Running good staging roots (done ++ [head]) d')
      (fun _ d' => Stopped good staging roots d') (Stopped good staging roots) d := by
  unfold extractEntry
  refine wpe_bind (wpe_liftResult h.stopped ?_ fun _ => h.stopped)
  rintro ⟨head, rest⟩ hh
  simp only
  split
  · exact wpe_throw h.stopped h.stopped
  rename_i hn
  have hl := hord.lt (Bool.not_eq_true _ ▸ hn)
  refine wpe_bind (wpe_liftResult h.stopped ?_ fun _ => h.stopped)
  rintro ⟨outputRoot, idx⟩ hr
  obtain ⟨hm, hw⟩ := nextRoot_eq_ok hr
  refine wpe_seq (wpe_prepareEntryParent hrs h hm fun hg => hli hg head rest hh) ?_
  rintro - d ⟨h, hs⟩
  refine wpe_seq (wpe_createEntry hrs h rest hs hw ?_) ?_
  · intro other ho he
    exact (hl other ho).ne (by rw [he])
  rintro after d ⟨h, node, hb⟩
  refine wpe_pure h.stopped ⟨head, rest, node, hh, hb, ?_, h⟩
  intro other ho
  refine ⟨head.path, rfl, ?_⟩
  obtain ho | ho := mem_append.mp ho
  · exact (hl other ho).le
  · rw [mem_singleton.mp ho]

theorem heads_succ {count : ℕ} {reader rest after : CanonicalReader} {head : Head}
    {node : Node Content} (hhead : readHead limits reader = .ok (head, rest))
    (hbody : readBody limits head rest = .ok (node, after)) :
    heads limits (count + 1) reader = head :: heads limits count after := by
  rw [heads, hhead]
  simp only [hbody]

theorem mem_heads {count : ℕ} {reader rest : CanonicalReader} {head : Head}
    (hhead : readHead limits reader = .ok (head, rest)) :
    head ∈ heads limits (count + 1) reader := by
  rw [heads, hhead]
  exact mem_cons_self

theorem wpe_extractEntries (hrs : RootsApart roots)
    {all : List Head} (hgood : good → NoneBelowLink all) {count : ℕ} {prog : Progress}
    (h : Running good staging roots done d) (hord : Ordered done prog.previous)
    (hall : done ++ heads limits count prog.reader = all) :
    (device links).wpe (extractEntries limits staging roots count prog)
      (fun _ d' => Running good staging roots all d')
      (fun _ d' => Stopped good staging roots d') (Stopped good staging roots) d := by
  induction count generalizing done prog d with
  | zero =>
    rw [heads, append_nil] at hall
    exact wpe_pure h.stopped (hall ▸ h)
  | succ count ih =>
    refine wpe_seq (wpe_extractEntry hrs h hord ?_) ?_
    · intro hg head rest hh link hl ht
      refine hgood hg link ?_ ht head ?_
      · rw [← hall]
        exact mem_append_left _ hl
      · rw [← hall]
        exact mem_append_right _ (mem_heads hh)
    rintro prog' d' ⟨head, rest, node, hh, hb, ho', h'⟩
    refine ih h' ho' ?_
    rw [← hall, heads_succ hh hb, append_assoc, singleton_append]

end Entries

def headsOf (codec : Codec) (reader : Source) (descriptor : BlobDescriptor)
    (limits : BundleLimits) : List Head :=
  match checkMagic (canonicalReader (decoded codec reader descriptor).1 limits) with
  | .error _ => []
  | .ok (_, rest) => heads limits descriptor.entryCount.toNat rest

section Extraction

variable {links : ℕ} {codec : Codec} {reader : Source} {descriptor : BlobDescriptor}
variable {staging : FsPath} {outputRoots : List RelativePath} {limits : BundleLimits}
variable {tree : FsTree} {good : Prop}

theorem BundleLimits.eq_of_validate {limits' : BundleLimits} (h : limits.validate = .ok limits') :
    limits = limits' := by
  unfold BundleLimits.validate at h
  obtain ⟨-, h⟩ := Fallible.ite_error_eq_ok h
  exact Except.ok.inj (Fallible.ite_error_eq_ok h).2

theorem eq_ok_of_liftCache {α : Type} {result : CacheResult α} {value : α}
    (h : liftCache result = .ok value) : result = .ok value := by
  cases result with
  | error error => cases h
  | ok val' =>
    cases h
    rfl

theorem Running.initial {roots : List RelativePath}
    (hbase : Walkable tree staging)
    (hem : ∀ r, r ≠ [] → get tree (staging ++ r) = none) :
    Running good staging roots [] ⟨tree, []⟩ where
  staged _ := {
    confined := Confined.nil staging roots
    base := hbase
    present := fun _ h => absurd h not_mem_nil
    inside := fun _ h => absurd h not_mem_nil
    directory := fun r hr hget => by
      rw [hem r hr] at hget
      cases hget
    known := fun r hr node hget => by
      rw [hem r hr] at hget
      cases hget }
  recorded _ h := absurd h not_mem_nil

section

variable (hreal : ∀ q, q ≠ [] → q <+: staging → q ≠ staging → get tree q = some .dir)
include hreal

theorem wpe_checkEmptyStaging
    {E : BundleError → Disk → Prop} {C : Disk → Prop} (hC : C ⟨tree, []⟩)
    (hE : ∀ error, E error ⟨tree, []⟩) : (device links).wpe (checkEmptyStaging staging)
      (fun _ d => d = ⟨tree, []⟩ ∧ (∀ q, q ≠ [] → q <+: staging → get tree q = some .dir) ∧
        ∀ r, r ≠ [] → get tree (staging ++ r) = none)
      E C ⟨tree, []⟩ := by
  refine wpe_bind (wpe_call hC hC ?_)
  refine wpe_bind (wpe_checked hC (fun node hn => ?_) hE)
  have hm : symlinkMetadata links ⟨tree, []⟩ staging = .ok node := hn
  cases node with
  | leaf cnt => exact wpe_throw hC (hE _)
  | dir =>
    refine wpe_bind (wpe_call hC hC ?_)
    change (device links).wpe (if isEmptyBelow tree staging = true then pure () else
      throw (.cache (.configuration "bundle staging directory must be empty")) :
        Extraction Unit) _ _ _ _
    split
    · rename_i hem
      refine wpe_pure hC ⟨rfl, ?_, isEmptyBelow_iff.mp hem⟩
      intro q hne hq
      by_cases he : q = staging
      · subst he
        obtain ⟨found, hf, hg⟩ := symlinkMetadata_eq_ok hne hm
        have ha : ∀ q', q' ≠ [] → q' <+: q.dropLast → get tree q' = some .dir := by
          intro q' hne' hq'
          refine hreal q' hne' (hq'.trans ( dropLast_prefix q)) ?_
          rintro rfl
          exact length_dropLast_lt hne' (prefix_refl _) hq'
        rw [locate_of_dirs links hne ha] at hf
        obtain rfl := Except.ok.inj hf
        exact hg
      · exact hreal q hne hq he
    · exact wpe_throw hC (hE _)

theorem wpe_extractBundle
    (hgood : good → NoneBelowLink (headsOf codec reader descriptor limits)) :
    (device links).wpe (extractBundle codec reader descriptor staging outputRoots limits)
      (fun _ d => ∃ roots, Running good staging roots (headsOf codec reader descriptor limits) d)
      (fun _ d => Stopped good staging outputRoots d) (Stopped good staging outputRoots)
      ⟨tree, []⟩ := by
  have hs : Stopped good staging outputRoots ⟨tree, []⟩ := fun _ => Confined.nil _ _
  unfold extractBundle
  refine wpe_bind (wpe_liftResult hs (fun lim' hl => ?_) fun _ => hs)
  obtain rfl := BundleLimits.eq_of_validate hl
  refine wpe_bind (wpe_liftResult hs (fun _ _ => ?_) fun _ => hs)
  refine wpe_bind (wpe_liftResult hs (fun _ _ => ?_) fun _ => hs)
  refine wpe_seq (wpe_checkEmptyStaging hreal hs fun _ => hs) ?_
  rintro - d ⟨rfl, hb, hem⟩
  refine wpe_bind (wpe_liftResult hs (fun roots hr => ?_) fun _ => hs)
  have hv := eq_ok_of_liftCache hr
  have hm := mem_of_validateOutputRoots hv
  have ho : ∀ d, Stopped good staging roots d → Stopped good staging outputRoots d :=
    fun d h hg => (h hg).of_mem fun p hp => (hm p).mp hp
  refine wpe_bind (wpe_mono (Q := fun _ d =>
    Running good staging roots (headsOf codec reader descriptor limits) d)
    (E := fun _ d => Stopped good staging roots d) (C := Stopped good staging roots) ?_ ?_
    (fun _ d he => ho d he) ho)
  · have h₀ : Running good staging roots [] ⟨tree, []⟩ := .initial hb hem
    refine wpe_bind (wpe_liftResult h₀.stopped ?_ fun _ => h₀.stopped)
    rintro ⟨⟨⟩, rest⟩ hre
    have hma : checkMagic (canonicalReader (decoded codec reader descriptor).1 limits) =
        .ok ((), rest) := hre
    refine wpe_seq (wpe_extractEntries
      (validateOutputRoots_ok hv).2.2 hgood h₀ (fun _ hh => absurd hh not_mem_nil) ?_) ?_
    · rw [headsOf, hma]
      rfl
    · intro prog d h
      exact wpe_liftResult h.stopped (fun _ _ => h) fun _ => h.stopped
  · intro _ d h
    exact wpe_liftResult (ho d h.stopped) (fun _ _ => ⟨roots, h⟩) fun _ => ho d h.stopped

end

theorem noneBelowLink_of_confined {roots : List RelativePath} {entries : List Head}
    {d : Disk} (h : Running good staging roots entries d)
    (hco : Confined staging outputRoots d.created) : NoneBelowLink entries := by
  intro link hli ht en hent
  rw [← Bool.not_eq_true, isStrictAncestor_iff]
  rintro ⟨r, hr, hcm⟩
  obtain ⟨c, hc, hre, hk⟩ := h.recorded link hli
  obtain ⟨e, he, hen, -⟩ := h.recorded en hent
  have hl : c.located = staging ++ link.path.components := (hco.placed c hc).1.trans hre
  have hl' : e.located = staging ++ link.path.components ++ r := by
    rw [(hco.placed e he).1, hen, hcm, append_assoc]
  -- the link stands where confinement asks for a directory
  obtain ⟨before, after, hs⟩ := append_of_mem he
  obtain ⟨above, ha, hsa, hd⟩ := hco.onTheWay before e after hs
    (staging ++ link.path.components) (prefix_append _ _)
    (by simp [components_ne_nil]) (by rw [hl']; exact prefix_append _ _)
    (by rw [hl']; simpa using hr)
  have hm : above ∈ d.created := by
    rw [hs]
    exact mem_append_left _ ha
  obtain rfl := inj_on_of_nodup_map hco.once hm hc (hsa.trans hl.symm)
  exact hk ht hd

/-- Extraction of a bundle in which no entry lies below a link is confined at every point where
it may stop; and an accepted bundle was extracted confined only if it is such a bundle. -/
theorem extraction_confined
    (hreal : ∀ q, q ≠ [] → q <+: staging → q ≠ staging → get tree q = some .dir) :
    (NoneBelowLink (headsOf codec reader descriptor limits) → ∀ d, (device links).Stops
        (extractBundle codec reader descriptor staging outputRoots limits).run ⟨tree, []⟩ d →
      Confined staging outputRoots d.created) ∧
    ∀ d, (device links).run
        (extractBundle codec reader descriptor staging outputRoots limits).run ⟨tree, []⟩ =
          (.ok (), d) →
      (Confined staging outputRoots d.created ↔
        NoneBelowLink (headsOf codec reader descriptor limits)) := by
  have hwp := @wpe_extractBundle links codec reader descriptor staging outputRoots limits tree
    (NoneBelowLink (headsOf codec reader descriptor limits)) hreal id
  refine ⟨fun hgood d hstops => wpe_stops hwp hstops hgood, fun d hrun => ⟨?_, ?_⟩⟩
  · intro hconfined
    obtain ⟨roots, h⟩ := wpe_ok hwp hrun
    exact noneBelowLink_of_confined h hconfined
  intro hgood
  have hend := Stops.run
    (D := device links) (extractBundle codec reader descriptor staging outputRoots limits).run
    ⟨tree, []⟩
  rw [hrun] at hend
  exact wpe_stops hwp hend hgood

end Extraction

/-! ## Two bundles -/

def plainCodec : Codec where
  blake3 _ := Vector.replicate 32 0
  compress _ bytes := bytes
  decompress source := (source, source.bytes.length)

def smallLimits : BundleLimits := ⟨1000, 1000, 10, 100, 100, 10, 4096⟩

def plainDescriptor (entries : List OutputEntry) : BlobDescriptor where
  digest := digestOf plainCodec (canonicalStream entries)
  encoding := .identity
  encodedSizeBytes := UInt64.ofNat (canonicalStream entries).length
  expandedSizeBytes := UInt64.ofNat (canonicalStream entries).length
  entryCount := UInt64.ofNat entries.length

/-- An empty staging directory `/w/s` next to a directory `/w/x`. -/
def twoDirectories : FsTree := [([], .dir), (["w"], .dir), (["w", "s"], .dir), (["w", "x"], .dir)]

def extractPlain (entries : List OutputEntry) (roots : List RelativePath) : Extraction Unit :=
  extractBundle plainCodec ⟨canonicalStream entries, none⟩ (plainDescriptor entries) ["w", "s"]
    roots smallLimits

def pathA : RelativePath := ⟨"a", by decide +kernel⟩
def pathB : RelativePath := ⟨"a/b", by decide +kernel⟩
def pathC : RelativePath := ⟨"a/c", by decide +kernel⟩
def pathLink : RelativePath := ⟨"a/c/b/l", by decide +kernel⟩
def pathFile : RelativePath := ⟨"a/c/b/l/x/f", by decide +kernel⟩

theorem real_twoDirectories : ∀ q : FsPath, q ≠ [] → q <+: ["w", "s"] → q ≠ ["w", "s"] →
    get twoDirectories q = some .dir := by
  intro q hne hq ho
  have hm := (mem_inits q ["w", "s"]).mpr hq
  simp only [inits, map_cons, map_nil, mem_cons, not_mem_nil, or_false] at hm
  obtain rfl | rfl | rfl := hm
  · exact absurd rfl hne
  · decide
  · exact absurd rfl ho

def linkInside : List OutputEntry := [⟨pathA, .directory⟩, ⟨pathC, .symlink "." true⟩]

theorem extraction_confined_link_inside :
    ∃ d, (device 40).run (extractPlain linkInside [pathA]).run ⟨twoDirectories, []⟩ =
        (.ok (), d) ∧ d.created.length = 2 ∧ Confined ["w", "s"] [pathA] d.created := by
  have hrun : ((device 40).run (extractPlain linkInside [pathA]).run
      ⟨twoDirectories, []⟩).1 = .ok () := by decide +kernel
  have hlength : ((device 40).run (extractPlain linkInside [pathA]).run
      ⟨twoDirectories, []⟩).2.created.length = 2 := by decide +kernel
  refine ⟨_, Prod.ext hrun rfl, hlength, ?_⟩
  refine ((extraction_confined real_twoDirectories).2 _ (Prod.ext hrun rfl)).mpr ?_
  decide +kernel

/-- The first link makes the second one look a level deeper than it is, and the file is written
next to the staging directory. -/
def escaping : List OutputEntry :=
  [⟨pathA, .directory⟩, ⟨pathB, .directory⟩, ⟨pathC, .symlink "." true⟩,
    ⟨pathLink, .symlink "../../.." true⟩, ⟨pathFile, .file [7] false⟩]

theorem extraction_escapes_staging :
    ∃ d, (device 40).run (extractPlain escaping [pathA]).run ⟨twoDirectories, []⟩ = (.ok (), d) ∧
      get d.tree ["w", "x", "f"] = some (.leaf (.file [7] false)) ∧
      ¬Confined ["w", "s"] [pathA] d.created := by
  have hrun : ((device 40).run (extractPlain escaping [pathA]).run
      ⟨twoDirectories, []⟩).1 = .ok () := by decide +kernel
  have hfile : get ((device 40).run (extractPlain escaping [pathA]).run
      ⟨twoDirectories, []⟩).2.tree ["w", "x", "f"] = some (.leaf (.file [7] false)) := by
    decide +kernel
  have hcreated : ∃ c ∈ ((device 40).run (extractPlain escaping [pathA]).run
      ⟨twoDirectories, []⟩).2.created, c.located = ["w", "x", "f"] := by decide +kernel
  refine ⟨_, Prod.ext hrun rfl, hfile, fun hconfined => ?_⟩
  obtain ⟨c, hc, hlocated⟩ := hcreated
  obtain ⟨-, -, p, hp, -⟩ := hconfined.placed c hc
  rw [hlocated] at hp
  have hname := (List.cons.inj (List.cons.inj hp).2).1
  exact absurd hname (by decide)

end Octa.Bundle
