import Octa.Foundation.Fallible
import Octa.Fileset.Walk

/-!
# What the walk finds

One popped path contributes itself and, when the walk descends into it, what its
children contribute.
-/

namespace Octa.Fileset

open Octa.Cache FileTree Fallible List InputPattern

variable {μ : Type} {ws : Workspace μ} {glob : Glob} {groups : List (List InputPattern)}
  {path : FsPath} {metadata : μ}
variable {ancestor root : FsPath} {holds : InputPattern → Bool} {found : Found μ}
  {maxEntries remaining : ℕ} {roots : List FsPath} {error : CacheError}
  {psets : List (List String)} {result : List (FsPath × μ)}

/-! ## Directories above a path -/

theorem mem_ancestors : ancestor ∈ ancestors path ↔ ancestor <+: path ∧ ancestor ≠ path := by
  unfold ancestors
  rw [mem_map]
  constructor
  · rintro ⟨i, hi, rfl⟩
    have hi := mem_range.mp hi
    refine ⟨List.take_prefix i path, ?_⟩
    intro he
    have hl := congrArg List.length he
    rw [length_take] at hl
    omega
  rintro ⟨ha, hne⟩
  refine ⟨ancestor.length, mem_range.mpr ?_, prefix_iff_eq_take.mp ha |>.symm⟩
  exact lt_of_le_of_ne ha.length_le fun he => hne (ha.eq_of_length he)

theorem ancestors_concat (name : String) :
    ancestors (path ++ [name]) = ancestors path ++ [path] := by
  unfold ancestors
  rw [length_append, length_singleton, range_succ, map_append]
  congr 1
  · apply map_congr_left
    intro i hi
    exact take_append_of_le_length (mem_range.mp hi).le
  · rw [map_singleton, take_left]

theorem concat_isPrefix (h : root <+: path) (hne : root ≠ path) :
    ∃ name, root ++ [name] <+: path := by
  obtain ⟨rest, rfl⟩ := h
  cases rest with
  | nil => exact absurd (append_nil root).symm hne
  | cons name rest => exact ⟨name, rest, by simp⟩

theorem eq_or_concat_isPrefix {name : String} (hroot : root <+: ancestor) (hanc : ancestor <+: path)
    (hch : root ++ [name] <+: path) : ancestor = root ∨ root ++ [name] <+: ancestor := by
  by_cases he : root = ancestor
  · exact .inl he.symm
  refine .inr (prefix_of_prefix_length_le hch hanc ?_)
  have hl : root.length < ancestor.length :=
    lt_of_le_of_ne hroot.length_le fun h => he (hroot.eq_of_length h)
  rw [length_append, length_singleton]
  omega

theorem missing_below {error : ErrorKind} (h : root <+: path)
    (hroot : ws.stat root = .error error) : ws.stat path = .error error := by
  obtain ⟨rest, rfl⟩ := h
  induction rest using List.reverseRecOn with
  | nil => rwa [append_nil]
  | append_singleton rest name ih =>
    rw [← append_assoc]
    exact ws.missing _ error name ih

theorem present_of_isPrefix (h : root <+: path) (hpath : ws.stat path = .ok metadata) :
    ∃ above, ws.stat root = .ok above := by
  cases hr : ws.stat root with
  | ok above => exact ⟨above, rfl⟩
  | error error =>
    rw [missing_below h hr] at hpath
    cases hpath

def Workspace.isDirectory (ws : Workspace μ) (path : FsPath) : Bool :=
  match ws.stat path with
  | .ok metadata => ws.fileType metadata == .directory
  | .error _ => false

theorem isDirectory_iff : ws.isDirectory path = true ↔
      ∃ metadata, ws.stat path = .ok metadata ∧ ws.fileType metadata = .directory := by
  unfold Workspace.isDirectory
  cases ws.stat path with
  | ok metadata | error error => simp

theorem isDirectory_of_stat (h : ws.stat path = .ok metadata) :
    ws.isDirectory path = (ws.fileType metadata == .directory) := by
  unfold Workspace.isDirectory
  rw [h]

/-! ## Rules at a path -/

def InputPattern.matchesAt (glob : Glob) (path : FsPath) (isDirectory : Bool)
    (pattern : InputPattern) : Bool :=
  pattern.accepts glob path isDirectory ||
    (ancestors path).any fun ancestor => pattern.accepts glob ancestor true

def Chosen (groups : List (List InputPattern)) (holds : InputPattern → Bool) : Prop :=
  ∃ group ∈ groups, ∃ pattern, (group.filter holds).getLast? = some pattern ∧
    pattern.excluded = false

theorem currentMatches_ancestorMatches (isDirectory : Bool) :
    currentMatches glob groups (ancestorMatches glob groups path) path isDirectory =
      groups.map fun g => g.map (matchesAt glob path isDirectory) := by
  unfold currentMatches ancestorMatches
  rw [zipWith_map_right, zipWith_self]
  apply map_congr_left
  intro g _
  rw [zipWith_map_right, zipWith_self]
  rfl

theorem ancestorMatches_concat (name : String) : ancestorMatches glob groups (path ++ [name]) =
      groups.map fun g => g.map (matchesAt glob path true) := by
  unfold ancestorMatches
  apply map_congr_left
  intro g _
  apply map_congr_left
  intro pat _
  rw [ancestors_concat, any_append, matchesAt, Bool.or_comm]
  simp

theorem groupSelects_map {g : List InputPattern} : groupSelects g (g.map holds) = true ↔
      ∃ pat, (g.filter holds).getLast? = some pat ∧ pat.excluded = false := by
  have hz : ((g.zip (g.map holds)).filter fun e => e.2).map
      (fun e => !e.1.excluded) = (g.filter holds).map fun pat => !pat.excluded := by
    induction g with
    | nil => rfl
    | cons pat g ih =>
      rw [map_cons, zip_cons_cons, filter_cons, filter_cons]
      split <;> simp [ih]
  unfold groupSelects
  rw [hz, List.getLast?_map]
  cases (g.filter holds).getLast? with
  | none | some pat => simp

theorem selected_map :
    selected groups (groups.map fun g => g.map holds) = true ↔ Chosen groups holds := by
  unfold selected Chosen
  induction groups with
  | nil => simp
  | cons g groups ih =>
    rw [map_cons, zip_cons_cons, any_cons, Bool.or_eq_true, ih, groupSelects_map]
    simp

theorem selectedByInclude_map : selectedByInclude groups (groups.map fun g => g.map holds) = true ↔
      ∃ pat ∈ groups.flatten, pat.excluded = false ∧ holds pat = true := by
  have hg (g : List InputPattern) :
      ((g.zip (g.map holds)).any fun e => !e.1.excluded && e.2) = true ↔
        ∃ pat ∈ g, pat.excluded = false ∧ holds pat = true := by
    induction g with
    | nil => simp
    | cons pat g ih =>
      rw [map_cons, zip_cons_cons, any_cons, Bool.or_eq_true, ih]
      simp
  unfold selectedByInclude
  induction groups with
  | nil => simp
  | cons g groups ih =>
    rw [map_cons, zip_cons_cons, any_cons, Bool.or_eq_true, hg]
    refine (or_congr Iff.rfl ih).trans ?_
    simp only [flatten_cons, mem_append]
    constructor
    · rintro (⟨pat, hm, h⟩ | ⟨pat, hm, h⟩)
      · exact ⟨pat, .inl hm, h⟩
      · exact ⟨pat, .inr hm, h⟩
    rintro ⟨pat, hm | hm, h⟩
    · exact .inl ⟨pat, hm, h⟩
    · exact .inr ⟨pat, hm, h⟩

/-! ## Ignored paths -/

namespace Workspace

/-- The rules of a directory; an ignore file that cannot be read has none. -/
def ignoreFile (ws : Workspace μ) (directory : FsPath) : Option Gitignore :=
  match ws.load directory with
  | .ok rules => rules
  | .error _ => none

def ignoredBelow (ws : Workspace μ) (path : FsPath) (isDirectory : Bool) (active : List Gitignore)
    (directory : FsPath) : List String → Bool
  | [] => decideIgnored active path isDirectory
  | part :: rest =>
    if decideIgnored active (directory ++ [part]) true then true
    else ws.ignoredBelow path isDirectory
      (active ++ (ws.ignoreFile (directory ++ [part])).toList) (directory ++ [part]) rest

def ignored (ws : Workspace μ) (path : FsPath) (isDirectory : Bool) : Bool :=
  if path.head? = some ".octa" then true
  else ws.ignoredBelow path isDirectory (ws.ignoreFile []).toList [] path.dropLast

variable {isDirectory answer : Bool}

theorem ignoreFile_of_load {directory : FsPath} {rules : Option Gitignore}
    (h : ws.load directory = .ok rules) : ws.ignoreFile directory = rules := by
  rw [ignoreFile, h]

theorem isIgnoredBelow_eq_ok {active : List Gitignore} {directory : FsPath} {rest : List String}
    (h : ws.isIgnoredBelow path isDirectory active directory rest = .ok answer) :
    ws.ignoredBelow path isDirectory active directory rest = answer := by
  induction rest generalizing active directory with
  | nil => exact Except.ok.inj h
  | cons part rest ih =>
    rw [isIgnoredBelow] at h
    rw [ignoredBelow]
    split at h
    · rename_i hpart
      rw [if_pos hpart]
      exact Except.ok.inj h
    · rename_i hpart
      obtain ⟨rules, hload, h⟩ := bind_eq_ok h
      rw [if_neg hpart, ignoreFile_of_load hload]
      exact ih h

theorem isIgnored_eq_ok (h : ws.isIgnored path isDirectory = .ok answer) :
    ws.ignored path isDirectory = answer := by
  unfold isIgnored at h
  unfold ignored
  split at h
  · rename_i hstate
    rw [if_pos hstate]
    exact Except.ok.inj h
  · rename_i hstate
    obtain ⟨rules, hload, h⟩ := bind_eq_ok h
    rw [if_neg hstate, ignoreFile_of_load hload]
    exact isIgnoredBelow_eq_ok h

/-- The walk fails at a path: an ignore file cannot be read, or the path is not portable. -/
def Refuses (ws : Workspace μ) (path : FsPath) (isDirectory : Bool) (error : CacheError) : Prop :=
  ws.isIgnored path isDirectory = .error error ∨
    ws.isIgnored path isDirectory = .ok false ∧ ws.normalize path = .error error

end Workspace

/-! ## One run of the walk -/

structure Descends (ws : Workspace μ) (glob : Glob) (groups : List (List InputPattern))
    (path : FsPath) : Prop where
  directory : ws.isDirectory path = true
  kept : ws.ignored path true = false
  searched : (∃ pattern ∈ groups.flatten, pattern.excluded = false ∧
      pattern.matchesAt glob path true = true) ∨
    ∃ pattern ∈ groups.flatten, pattern.mayMatchBelow path = true

def Reaches (ws : Workspace μ) (glob : Glob) (groups : List (List InputPattern))
    (root path : FsPath) : Prop :=
  root <+: path ∧ ∀ ancestor, root <+: ancestor → ancestor <+: path → ancestor ≠ path →
    Descends ws glob groups ancestor

structure Picked (ws : Workspace μ) (glob : Glob) (groups : List (List InputPattern))
    (path : FsPath) (metadata : μ) : Prop where
  present : ws.stat path = .ok metadata
  kept : ws.ignored path (ws.fileType metadata == .directory) = false
  chosen : Chosen groups (matchesAt glob path (ws.fileType metadata == .directory))

theorem reaches_iff : Reaches ws glob groups root path ↔
      path = root ∨ Descends ws glob groups root ∧
        ∃ name, Reaches ws glob groups (root ++ [name]) path := by
  constructor
  · rintro ⟨hb, ha⟩
    by_cases he : root = path
    · exact .inl he.symm
    obtain ⟨name, hn⟩ := concat_isPrefix hb he
    refine .inr ⟨ha root prefix_rfl hb he, name, hn, ?_⟩
    exact fun ancestor hab => ha ancestor ((prefix_append root [name]).trans hab)
  rintro (rfl | ⟨hr, name, hn, ha⟩)
  · refine ⟨prefix_rfl, ?_⟩
    intro ancestor hab hb hne
    exact absurd (hb.eq_of_length (le_antisymm hb.length_le hab.length_le)) hne
  refine ⟨(prefix_append root [name]).trans hn, ?_⟩
  intro ancestor hab hb hne
  obtain rfl | hchild := eq_or_concat_isPrefix hab hb hn
  · exact hr
  · exact ha ancestor hchild hb hne

theorem descends_iff (hstat : ws.stat path = .ok metadata)
    (hkept : ws.ignored path (ws.fileType metadata == .directory) = false) :
    Descends ws glob groups path ↔
      (!(ws.fileType metadata == .directory) || (!selectedByInclude groups (groups.map fun g =>
            g.map (matchesAt glob path (ws.fileType metadata == .directory))) &&
          !groups.flatten.any fun pat => pat.mayMatchBelow path)) = false := by
  have hd := isDirectory_of_stat hstat
  cases ht : ws.fileType metadata == .directory with
  | false =>
    rw [ht] at hd
    constructor
    · intro h
      rw [h.directory] at hd
      cases hd
    · intro h
      cases h
  | true =>
    rw [ht] at hd hkept
    rw [Bool.not_true, Bool.false_or, ← Bool.not_or, Bool.not_eq_false', Bool.or_eq_true,
      selectedByInclude_map, any_eq_true]
    exact ⟨fun h => h.searched, fun h => ⟨hd, hkept, h⟩⟩

theorem mem_orInsert (hfo : ∀ e ∈ found.entries, ws.stat e.1 = .ok e.2)
    (hstat : ws.stat path = .ok metadata) {en : FsPath × μ} :
    en ∈ (found.orInsert path metadata).entries ↔ en ∈ found.entries ∨ en = (path, metadata) := by
  have hk : ∀ e ∈ found.entries, e.1 = path → e = (path, metadata) := by
    rintro ⟨path', meta'⟩ he rfl
    have hs' := hfo _ he
    rw [hstat] at hs'
    cases hs'
    rfl
  unfold Found.orInsert
  split
  · rename_i hm
    obtain ⟨e, he, hp⟩ := mem_map.mp hm
    constructor
    · exact .inl
    rintro (h | rfl)
    · exact h
    · exact hk e he hp ▸ he
  rename_i hm
  rw [OrderedMap.mem_insert]
  constructor
  · rintro (h | ⟨h, -⟩)
    · exact .inr h
    · exact .inl h
  rintro (h | h)
  · refine .inr ⟨h, fun hp => hm ?_⟩
    exact mem_map.mpr ⟨en, h, hp⟩
  · exact .inl h

def Found.visit (ws : Workspace μ) (glob : Glob) (groups : List (List InputPattern))
    (found : Found μ) (path : FsPath) (metadata : μ) : Found μ :=
  if selected groups (groups.map fun group =>
      group.map (matchesAt glob path (ws.fileType metadata == .directory)))
  then found.orInsert path metadata else found

theorem mem_visit (hfo : ∀ e ∈ found.entries, ws.stat e.1 = .ok e.2)
    (hstat : ws.stat path = .ok metadata)
    (hkept : ws.ignored path (ws.fileType metadata == .directory) = false) {en : FsPath × μ} :
    en ∈ (found.visit ws glob groups path metadata).entries ↔
      en ∈ found.entries ∨ Picked ws glob groups en.1 en.2 ∧ en.1 = path := by
  have hp : ∀ en : FsPath × μ, Picked ws glob groups en.1 en.2 ∧ en.1 = path ↔
      en = (path, metadata) ∧ Chosen groups
        (matchesAt glob path (ws.fileType metadata == .directory)) := by
    rintro ⟨path', meta'⟩
    constructor
    · rintro ⟨h, rfl⟩
      have hs' := h.present
      rw [hstat] at hs'
      cases hs'
      exact ⟨rfl, h.chosen⟩
    rintro ⟨he, h⟩
    cases he
    exact ⟨⟨hstat, hkept, h⟩, rfl⟩
  unfold Found.visit
  split
  · rename_i hs
    rw [mem_orInsert hfo hstat, hp]
    simp [selected_map.mp hs]
  rename_i hs
  rw [hp]
  simp [mt selected_map.mpr hs]

/-- The children of a directory, in the order in which they are visited. -/
def Workspace.children (ws : Workspace μ) (path : FsPath) : List FsPath :=
  ((ws.readDir path).map fun name => path ++ [name]).insertionSort (· ≤ ·)

theorem mem_children {child : FsPath} :
    child ∈ ws.children path ↔ ∃ name ∈ ws.readDir path, child = path ++ [name] := by
  rw [Workspace.children, mem_insertionSort, mem_map]
  simp only [eq_comm]

def seeded (glob : Glob) (groups : List (List InputPattern)) (paths : List FsPath) :
    List (FsPath × Flags) :=
  paths.map fun path => (path, ancestorMatches glob groups path)

inductive Popped (ws : Workspace μ) (glob : Glob) (groups : List (List InputPattern))
    (maxEntries remaining : ℕ) (path : FsPath) (pending : List FsPath)
    (found : Found μ) (result : CacheResult (ℕ × Found μ)) : Prop where
  | missing (stat : ws.stat path = .error .notFound)
      (rest : walk ws glob groups maxEntries remaining (seeded glob groups pending) found = result)
  | failed (error : ErrorKind) (stat : ws.stat path = .error error) (other : error ≠ .notFound)
      (failed : result = .error (.io "inspect cache input" path error))
  | refused (metadata : μ) (error : CacheError) (stat : ws.stat path = .ok metadata)
      (refuses : ws.Refuses path (ws.fileType metadata == .directory) error)
      (failed : result = .error error)
  | ignored (metadata : μ) (stat : ws.stat path = .ok metadata)
      (ignored : ws.ignored path (ws.fileType metadata == .directory) = true)
      (rest : walk ws glob groups maxEntries remaining (seeded glob groups pending) found = result)
  | kept (metadata : μ) (stat : ws.stat path = .ok metadata)
      (kept : ws.ignored path (ws.fileType metadata == .directory) = false)
      (closed : ¬Descends ws glob groups path)
      (rest : walk ws glob groups maxEntries remaining (seeded glob groups pending)
        (found.visit ws glob groups path metadata) = result)
  | full (metadata : μ) (stat : ws.stat path = .ok metadata)
      (descends : Descends ws glob groups path) (full : remaining < (ws.readDir path).length)
      (failed : result = .error (exceeded maxEntries))
  | listed (metadata : μ) (stat : ws.stat path = .ok metadata)
      (kept : ws.ignored path (ws.fileType metadata == .directory) = false)
      (descends : Descends ws glob groups path)
      (rest : walk ws glob groups maxEntries remaining
        (seeded glob groups (ws.children path ++ pending))
        (found.visit ws glob groups path metadata) = result)

theorem popped_of_walk {pending : List FsPath} {result : CacheResult (ℕ × Found μ)}
    (h : walk ws glob groups maxEntries (remaining + 1) (seeded glob groups (path :: pending))
      found = result) : Popped ws glob groups maxEntries remaining path pending found result := by
  rw [seeded, map_cons] at h
  unfold walk at h
  split at h
  · exact .missing ‹_› h
  · rename_i error ho hs
    exact .failed error hs ho h.symm
  rename_i metadata hs
  dsimp only at h
  rw [currentMatches_ancestorMatches] at h
  split at h
  · rename_i error hrefuses
    exact .refused metadata error hs (.inl hrefuses) h.symm
  · exact .ignored metadata hs (Workspace.isIgnored_eq_ok ‹_›) h
  rename_i hkept
  have hk := Workspace.isIgnored_eq_ok hkept
  split at h
  · rename_i error hrefuses
    exact .refused metadata error hs (.inr ⟨hkept, hrefuses⟩) h.symm
  split at h
  · rename_i hc
    refine .kept metadata hs hk ?_ h
    rw [descends_iff hs hk, hc]
    exact Bool.noConfusion
  rename_i hop
  have hde := (descends_iff hs hk).mpr (Bool.eq_false_of_not_eq_true hop)
  split at h
  · exact .full metadata hs hde ‹_› h.symm
  refine .listed metadata hs hk hde ?_
  have hd : (ws.fileType metadata == .directory) = true := by
    rw [← isDirectory_of_stat hs]
    exact hde.directory
  have hse : seeded glob groups (ws.children path) =
      (ws.children path).map fun child => (child, groups.map fun g =>
        g.map (matchesAt glob path true)) := by
    apply map_congr_left
    intro child hch
    obtain ⟨name, -, rfl⟩ := mem_children.mp hch
    rw [ancestorMatches_concat]
  rw [seeded, map_append, ← seeded, hse, ← hd]
  exact h

theorem reaches_of_missing {error : ErrorKind} (hroot : ws.stat root = .error error)
    (h : Picked ws glob groups path metadata) : ¬Reaches ws glob groups root path := by
  intro hr
  obtain ⟨above, ha⟩ := present_of_isPrefix hr.1 h.present
  rw [hroot] at ha
  cases ha

theorem reaches_of_ignored {above : μ} (hroot : ws.stat root = .ok above)
    (hig : ws.ignored root (ws.fileType above == .directory) = true)
    (h : Picked ws glob groups path metadata) : ¬Reaches ws glob groups root path := by
  intro hr
  obtain rfl | ⟨hd, -⟩ := reaches_iff.mp hr
  · have hp := h.present
    rw [hroot] at hp
    cases hp
    rw [h.kept] at hig
    cases hig
  · rw [← isDirectory_of_stat hroot, hd.directory, hd.kept] at hig
    cases hig

theorem reaches_of_closed (hcl : ¬Descends ws glob groups root) :
    Reaches ws glob groups root path ↔ path = root := by
  rw [reaches_iff]
  exact ⟨fun h => h.resolve_right fun h => hcl h.1, .inl⟩

theorem reaches_of_descends (hdesc : Descends ws glob groups root)
    (h : Picked ws glob groups path metadata) : Reaches ws glob groups root path ↔
      path = root ∨ ∃ child ∈ ws.children root, Reaches ws glob groups child path := by
  rw [reaches_iff]
  apply or_congr Iff.rfl
  obtain ⟨above, hr, ht⟩ := isDirectory_iff.mp hdesc.directory
  constructor
  · rintro ⟨-, name, hn⟩
    obtain ⟨child, hc⟩ := present_of_isPrefix hn.1 h.present
    have hl := (ws.listed root above name hr ht).mpr ⟨child, hc⟩
    exact ⟨root ++ [name], mem_children.mpr ⟨name, hl, rfl⟩, hn⟩
  rintro ⟨child, hc, hre⟩
  obtain ⟨name, -, rfl⟩ := mem_children.mp hc
  exact ⟨hdesc, name, hre⟩

theorem walk_spec {result : ℕ × Found μ} (hfo : ∀ e ∈ found.entries, ws.stat e.1 = .ok e.2)
    (h : walk ws glob groups maxEntries remaining (seeded glob groups roots) found = .ok result) :
    (∀ root ∈ roots, ∀ error, ws.stat root = .error error → error = .notFound) ∧
    ∀ en, en ∈ result.2.entries ↔ en ∈ found.entries ∨ Picked ws glob groups en.1 en.2 ∧
        ∃ root ∈ roots, Reaches ws glob groups root en.1 := by
  induction remaining generalizing roots found with
  | zero =>
    cases roots with
    | nil =>
      cases h
      simp
    | cons root roots => cases h
  | succ remaining ih =>
    cases roots with
    | nil =>
      cases h
      simp
    | cons root roots =>
      have hv : ∀ metadata, ws.stat root = .ok metadata →
          ws.ignored root (ws.fileType metadata == .directory) = false →
          ∀ e ∈ (found.visit ws glob groups root metadata).entries, ws.stat e.1 = .ok e.2 := by
        intro metadata hs hk e he
        obtain he | he := (mem_visit hfo hs hk).mp he
        · exact hfo e he
        · exact he.1.present
      have her : ∀ metadata, ws.stat root = .ok metadata →
          ∀ error, ws.stat root = .error error → error = .notFound := by
        intro metadata hs error her
        rw [hs] at her
        cases her
      cases popped_of_walk h with
      | missing hs hr =>
        obtain ⟨herr, hes⟩ := ih hfo hr
        refine ⟨forall_mem_cons.mpr ⟨?_, herr⟩, ?_⟩
        · intro error her
          rw [hs] at her
          cases her
          rfl
        intro en
        refine (hes en).trans (or_congr Iff.rfl (and_congr_right fun hp => ?_))
        rw [exists_mem_cons_iff]
        exact (or_iff_right (reaches_of_missing hs hp)).symm
      | failed error hs ho hf | refused _ error hs ho hf => cases hf
      | ignored metadata hs hi hr =>
        obtain ⟨herr, hes⟩ := ih hfo hr
        refine ⟨forall_mem_cons.mpr ⟨her metadata hs, herr⟩, ?_⟩
        intro en
        refine (hes en).trans (or_congr Iff.rfl (and_congr_right fun hp => ?_))
        rw [exists_mem_cons_iff]
        exact (or_iff_right (reaches_of_ignored hs hi hp)).symm
      | kept metadata hs hk hc hr =>
        obtain ⟨herr, hes⟩ := ih (hv metadata hs hk) hr
        refine ⟨forall_mem_cons.mpr ⟨her metadata hs, herr⟩, ?_⟩
        intro en
        rw [hes, mem_visit hfo hs hk, or_assoc, ← and_or_left,
          exists_mem_cons_iff, reaches_of_closed hc]
      | full metadata hs hd hfu hf => cases hf
      | listed metadata hs hk hd hr =>
        obtain ⟨herr, hes⟩ := ih (hv metadata hs hk) hr
        refine ⟨forall_mem_cons.mpr ⟨her metadata hs, ?_⟩, ?_⟩
        · exact fun root hro => herr root (mem_append_right _ hro)
        intro en
        rw [hes, mem_visit hfo hs hk, or_assoc, ← and_or_left]
        refine or_congr Iff.rfl (and_congr_right fun hp => ?_)
        rw [exists_mem_cons_iff, reaches_of_descends hd hp, or_assoc]
        refine or_congr Iff.rfl ?_
        simp only [mem_append, or_and_right, exists_or]

theorem exists_of_matchesAt {pat : InputPattern} {isDirectory : Bool}
    (h : pat.matchesAt glob path isDirectory = true) :
    ∃ mat asDirectory, mat <+: path ∧ pat.accepts glob mat asDirectory = true ∧
      (mat ≠ path → asDirectory = true) := by
  obtain h | h := Bool.or_eq_true_iff.mp h
  · exact ⟨path, isDirectory, prefix_rfl, h, fun hne => absurd rfl hne⟩
  · obtain ⟨ancestor, hm, ha⟩ := any_eq_true.mp h
    exact ⟨ancestor, true, (mem_ancestors.mp hm).1, ha, fun _ => rfl⟩

theorem matchesAt_of_accepts {pat : InputPattern} {mat : FsPath}
    (h : pat.accepts glob mat true = true) (hbl : mat <+: path) :
    pat.matchesAt glob path true = true := by
  by_cases he : mat = path
  · rw [matchesAt, ← he, h, Bool.true_or]
  · rw [matchesAt, Bool.or_eq_true_iff]
    exact .inr (any_eq_true.mpr ⟨mat, mem_ancestors.mpr ⟨hbl, he⟩, h⟩)

theorem include_of_chosen (h : Chosen groups holds) :
    ∃ pat ∈ groups.flatten, pat.excluded = false ∧ holds pat = true := by
  obtain ⟨g, hg, pat, hl, hi⟩ := h
  obtain ⟨hm, hh⟩ := mem_filter.mp (mem_of_getLast? hl)
  exact ⟨pat, mem_flatten.mpr ⟨g, hg, hm⟩, hi, hh⟩

theorem searched_of_picked (h : Picked ws glob groups path metadata) (hab : ancestor <+: path)
    (hne : ancestor ≠ path) : (∃ pat ∈ groups.flatten, pat.excluded = false ∧
        pat.matchesAt glob ancestor true = true) ∨
      ∃ pat ∈ groups.flatten, pat.mayMatchBelow ancestor = true := by
  obtain ⟨pat, hm, hi, hmt⟩ := include_of_chosen h.chosen
  obtain ⟨matched, asDirectory, hma, ha, ht⟩ := exists_of_matchesAt hmt
  by_cases hd : matched <+: ancestor
  · -- the match lies above: it is carried down
    have hb : matched ≠ path := by
      rintro rfl
      exact hne (hab.eq_of_length (le_antisymm hab.length_le hd.length_le))
    rw [ht hb] at ha
    exact .inl ⟨pat, hm, hi, matchesAt_of_accepts ha hd⟩
  have hu : ancestor <+: matched := (List.prefix_or_prefix_of_prefix hab hma).resolve_right hd
  have hp : ancestor ≠ matched := fun he => hd (he ▸ prefix_rfl)
  exact .inr ⟨pat, hm, mayMatchBelow_of_accepts hi ha hu hp⟩

def Clear (ws : Workspace μ) (root path : FsPath) : Prop :=
  ∀ ancestor, root <+: ancestor → ancestor <+: path → ancestor ≠ path →
    ws.isDirectory ancestor = true ∧ ws.ignored ancestor true = false

theorem reaches_iff_clear (h : Picked ws glob groups path metadata) :
    Reaches ws glob groups root path ↔ root <+: path ∧ Clear ws root path := by
  apply and_congr_right
  intro hro
  constructor
  · intro hr ancestor hb ha hne
    have hde := hr ancestor hb ha hne
    exact ⟨hde.directory, hde.kept⟩
  intro hc ancestor hb ha hne
  obtain ⟨hd, hk⟩ := hc ancestor hb ha hne
  exact ⟨hd, hk, searched_of_picked h ha hne⟩

/-! ## All roots -/

theorem walkRoots_spec {result : Found μ} (hfo : ∀ e ∈ found.entries, ws.stat e.1 = .ok e.2)
    (h : walkRoots ws glob groups maxEntries remaining roots found = .ok result) :
    (∀ root ∈ roots, ∀ error, ws.stat root = .error error → error = .notFound) ∧
    ∀ en, en ∈ result.entries ↔ en ∈ found.entries ∨ Picked ws glob groups en.1 en.2 ∧
        ∃ root ∈ roots, Reaches ws glob groups root en.1 := by
  induction roots generalizing remaining found with
  | nil =>
    cases h
    simp
  | cons root roots ih =>
    obtain ⟨⟨rem', found'⟩, hw, hr⟩ := bind_eq_ok h
    change walk ws glob groups maxEntries remaining (seeded glob groups [root]) found = _ at hw
    obtain ⟨herr, hes⟩ := walk_spec hfo hw
    have hf' : ∀ e ∈ found'.entries, ws.stat e.1 = .ok e.2 := by
      intro e he
      obtain he | he := (hes e).mp he
      · exact hfo e he
      · exact he.1.present
    obtain ⟨her, he'⟩ := ih hf' hr
    refine ⟨forall_mem_cons.mpr ⟨herr root mem_cons_self, her⟩, ?_⟩
    intro en
    rw [he', hes, or_assoc, ← and_or_left, exists_mem_cons_iff]
    simp

section

variable (hgr : parseGroups glob 0 psets = .ok groups)
include hgr

theorem collectPatternSets_eq
    (hmax : maxEntries ≠ 0) : collectPatternSets ws glob psets maxEntries =
      (walkRoots ws glob groups maxEntries maxEntries (minimalScanRoots groups.flatten)
        .empty).map OrderedMap.entries := by
  unfold collectPatternSets
  rw [if_neg hmax, hgr]
  change (walkRoots ws glob groups maxEntries maxEntries (minimalScanRoots groups.flatten)
    .empty >>= fun found => .ok found.entries) = _
  cases walkRoots ws glob groups maxEntries maxEntries (minimalScanRoots groups.flatten)
    .empty <;> rfl

theorem collectPatternSets_spec
    (hmax : maxEntries ≠ 0) (h : collectPatternSets ws glob psets maxEntries = .ok result) :
    (∀ root ∈ minimalScanRoots groups.flatten, ∀ error, ws.stat root = .error error →
      error = .notFound) ∧
    ∀ e, e ∈ result ↔ Picked ws glob groups e.1 e.2 ∧
        ∃ root ∈ minimalScanRoots groups.flatten, root <+: e.1 ∧ Clear ws root e.1 := by
  rw [collectPatternSets_eq hgr hmax] at h
  cases hw : walkRoots ws glob groups maxEntries maxEntries
      (minimalScanRoots groups.flatten) .empty with
  | error error =>
    rw [hw] at h
    cases h
  | ok found =>
    rw [hw] at h
    cases h
    obtain ⟨her, hes⟩ := walkRoots_spec (fun _ he => by cases he) hw
    refine ⟨her, ?_⟩
    intro e
    refine (hes e).trans ?_
    constructor
    · rintro (h | ⟨hp, root, hr, hre⟩)
      · cases h
      · exact ⟨hp, root, hr, (reaches_iff_clear hp).mp hre⟩
    · rintro ⟨hp, root, hr, hc⟩
      exact .inr ⟨hp, root, hr, (reaches_iff_clear hp).mpr hc⟩

end

/-! ## Size and order of the result -/

theorem length_visit_le :
    (found.visit ws glob groups path metadata).entries.length ≤ found.entries.length + 1 := by
  unfold Found.visit
  split
  · unfold Found.orInsert
    split
    · exact Nat.le_succ _
    · exact OrderedMap.length_insertEntry_le _ _ _
  · exact Nat.le_succ _

theorem walk_length {result : ℕ × Found μ}
    (h : walk ws glob groups maxEntries remaining (seeded glob groups roots) found = .ok result) :
    result.2.entries.length + result.1 ≤ found.entries.length + remaining := by
  induction remaining generalizing roots found with
  | zero =>
    cases roots with
    | nil =>
      cases h
      exact le_rfl
    | cons root roots => cases h
  | succ remaining ih =>
    cases roots with
    | nil =>
      cases h
      exact le_rfl
    | cons root roots =>
      cases popped_of_walk h with
      | missing hs hre => exact (ih hre).trans (Nat.le_succ _)
      | failed error hs ho hf | refused _ error hs ho hf => cases hf
      | ignored metadata hs hi hre => exact (ih hre).trans (Nat.le_succ _)
      | kept metadata hs hk hc hre =>
        have hl := @length_visit_le _ ws glob groups root metadata found
        have hr := ih hre
        omega
      | full metadata hs hd hfu hf => cases hf
      | listed metadata hs hk hd hre =>
        have hl := @length_visit_le _ ws glob groups root metadata found
        have hr := ih hre
        omega

theorem walkRoots_length {result : Found μ}
    (h : walkRoots ws glob groups maxEntries remaining roots found = .ok result) :
    result.entries.length ≤ found.entries.length + remaining := by
  induction roots generalizing remaining found with
  | nil =>
    cases h
    exact Nat.le_add_right _ _
  | cons root roots ih =>
    obtain ⟨⟨rem', found'⟩, hw, hr⟩ := bind_eq_ok h
    change walk ws glob groups maxEntries remaining (seeded glob groups [root]) found = _ at hw
    exact (ih hr).trans (walk_length hw)

theorem groups_of_collect (h : collectPatternSets ws glob psets maxEntries = .ok result) :
    maxEntries ≠ 0 ∧ ∃ groups, parseGroups glob 0 psets = .ok groups := by
  unfold collectPatternSets at h
  split at h
  · cases h
  · obtain ⟨groups, hg, -⟩ := bind_eq_ok h
    exact ⟨‹_›, groups, hg⟩

/-- The entries come in the order of their paths, each with its metadata, and there are not
more than the budget allows. -/
theorem collectPatternSets_entries
    (h : collectPatternSets ws glob psets maxEntries = .ok result) :
    result.Pairwise (fun left right => left.1 < right.1) ∧ result.length ≤ maxEntries ∧
      ∀ e ∈ result, ws.stat e.1 = .ok e.2 := by
  obtain ⟨hm, groups, hg⟩ := groups_of_collect h
  obtain ⟨-, hes⟩ := collectPatternSets_spec hg hm h
  rw [collectPatternSets_eq hg hm] at h
  cases hw : walkRoots ws glob groups maxEntries maxEntries
      (minimalScanRoots groups.flatten) .empty with
  | error error =>
    rw [hw] at h
    cases h
  | ok found =>
    rw [hw] at h
    cases h
    refine ⟨found.sorted, ?_, fun e he => ((hes e).mp he).1.present⟩
    have hl := walkRoots_length hw
    rwa [OrderedMap.empty, length_nil, Nat.zero_add] at hl

end Octa.Fileset
