import Octa.Monorepo.Discovery

/-!
# What discovery finds

The loops of discovery are taken apart into the directories that the pattern of
one walk reaches, and these are compared with the declarative reading of a
configuration: the directories with an Octafile that some pattern selects and
that lie in no excluded directory.
-/

namespace Octa.Monorepo

open Octa.Cache FileTree List

variable {κ : Type}

/-! ## Paths -/

theorem components_append {path rest : WrittenPath} (h : ∀ name ∈ rest, name ≠ ".") :
    components (path ++ rest) = components path ++ rest := by
  rw [components, filter_append]
  congr 1
  refine filter_eq_self.mpr ?_
  intro name hn
  exact decide_eq_true (h name hn)

namespace Workspace

variable {workspace : Workspace κ} {keep : WrittenPath → Bool} {path : FsPath} {name : String}

theorem isDir_iff : workspace.isDir path = true ↔ get workspace.tree path = some .dir := by
  unfold isDir
  split <;> simp_all

theorem isName_of_isDir (h : workspace.isDir path = true) (hname : name ∈ path) : IsName name := by
  refine workspace.named path ?_ name hname
  rw [isDir_iff.mp h]
  exact Option.some_ne_none _

theorem isDir_of_prefix {above : FsPath} (h : workspace.isDir path = true) (hab : above <+: path) :
    workspace.isDir above = true := by
  by_cases he : above = path
  · rwa [he]
  have hp : get workspace.tree path ≠ none := by
    rw [isDir_iff.mp h]
    exact Option.some_ne_none _
  exact isDir_iff.mpr (dir_of_above workspace.closed hp hab he)

theorem mem_subdirectories :
    name ∈ workspace.subdirectories path ↔ workspace.isDir (path ++ [name]) = true := by
  rw [subdirectories, mem_dedup, mem_filterMap]
  constructor
  · rintro ⟨entry, -, he⟩
    split at he
    · rename_i hl
      obtain ⟨hp, hd⟩ := hl
      rw [← hp, dropLast_append_getLast? name he]
      exact hd
    · cases he
  intro h
  have hs : get workspace.tree (path ++ [name]) ≠ none := by
    rw [isDir_iff.mp h]
    exact Option.some_ne_none _
  obtain ⟨entry, he, hpa⟩ := exists_entry hs
  refine ⟨entry, he, ?_⟩
  rw [hpa, if_pos ⟨dropLast_concat, h⟩, List.getLast?_concat]

theorem mem_walk {depth : ℕ} {start entry : WrittenPath} : entry ∈ workspace.walk keep depth start ↔
      ∃ rest, entry = start ++ rest ∧ rest.length ≤ depth ∧ ∀ q, q <+: rest → q ≠ [] →
          workspace.isDir (components start ++ q) = true ∧ keep (start ++ q) = true := by
  induction depth generalizing start with
  | zero =>
    rw [walk, mem_singleton]
    constructor
    · rintro rfl
      refine ⟨[], (append_nil _).symm, le_rfl, ?_⟩
      intro q hq hne
      exact absurd (prefix_nil.mp hq) hne
    · rintro ⟨rest, rfl, hl, -⟩
      rw [eq_nil_of_length_eq_zero (Nat.le_zero.mp hl), append_nil]
  | succ depth ih =>
    rw [walk, mem_cons, mem_flatMap]
    constructor
    · rintro (rfl | ⟨name, hn, he⟩)
      · refine ⟨[], (append_nil _).symm, Nat.zero_le _, ?_⟩
        intro q hq hne
        exact absurd (prefix_nil.mp hq) hne
      · obtain ⟨hli, hk⟩ := mem_filter.mp hn
        have hd := mem_subdirectories.mp hli
        have hdo : ∀ other ∈ [name], other ≠ "." := by
          intro other ho
          exact (isName_of_isDir hd (mem_append_right _ ho)).notCurrent
        obtain ⟨rest, rfl, hl, hr⟩ := ih.mp he
        refine ⟨name :: rest, by rw [append_assoc]; rfl, Nat.succ_le_succ hl, ?_⟩
        intro q hq hne
        obtain ⟨first, q, rfl⟩ := exists_cons_of_ne_nil hne
        obtain ⟨rfl, hre⟩ := cons_prefix_cons.mp hq
        by_cases hen : q = []
        · subst hen
          exact ⟨hd, hk⟩
        have hb := hr q hre hen
        rw [components_append hdo, append_assoc, append_assoc] at hb
        exact hb
    · rintro ⟨rest, rfl, hl, hr⟩
      cases rest with
      | nil => exact .inl (append_nil _)
      | cons name rest =>
        right
        obtain ⟨hd, hk⟩ := hr [name] (cons_prefix_cons.mpr ⟨rfl, List.nil_prefix⟩) (cons_ne_nil _ _)
        have hdo : ∀ other ∈ [name], other ≠ "." := by
          intro other ho
          exact (isName_of_isDir hd (mem_append_right _ ho)).notCurrent
        refine ⟨name, mem_filter.mpr ⟨mem_subdirectories.mpr hd, hk⟩, ?_⟩
        refine ih.mpr ⟨rest, by rw [append_assoc]; rfl, Nat.le_of_succ_le_succ hl, ?_⟩
        intro q hq _
        have hb := hr (name :: q) (cons_prefix_cons.mpr ⟨rfl, hq⟩) (cons_ne_nil _ _)
        rw [components_append hdo, append_assoc, append_assoc]
        exact hb

theorem findInDirectory_eq_some {oct : FsPath}
    (h : workspace.findInDirectory path = some oct) : oct.dropLast = path := by
  obtain ⟨name, -, rfl⟩ := mem_map.mp (mem_of_find?_eq_some h)
  exact dropLast_concat

end Workspace

/-! ## The loops -/

section Loops

variable {globs : Globs} {workspace : Workspace κ} {rootOctafile : FsPath} {excludes : Excludes}
  {pattern : RootPattern} {found : Found} {entry : WrittenPath}

def HasNamespace (path : WrittenPath) : Prop := ∀ name ∈ components path, ':' ∉ name.toList

theorem namespaceOf_eq_ok_iff {namespacePath : List String} :
    namespaceOf entry = .ok namespacePath ↔
      HasNamespace entry ∧ namespacePath = components entry := by
  unfold namespaceOf
  split
  · rename_i comp hf
    have hc : ':' ∈ comp.toList := by simpa using List.find?_some hf
    constructor
    · intro h
      cases h
    · rintro ⟨h, -⟩
      exact absurd hc (h comp (mem_of_find?_eq_some hf))
  rename_i hf
  have hn : HasNamespace entry := by
    intro name hna
    simpa using List.find?_eq_none.mp hf name hna
  constructor
  · intro h
    exact ⟨hn, (Except.ok.inj h).symm⟩
  · rintro ⟨-, rfl⟩
    rfl

def projectOf (octafile : FsPath) : MonorepoProject := ⟨octafile.dropLast, octafile⟩

theorem dropLast_of_projectIn {oct : FsPath}
    (h : projectIn globs workspace rootOctafile pattern entry = some oct) :
    oct.dropLast = components entry := by
  unfold projectIn at h
  split at h
  · split at h
    · rename_i hf
      split at h
      · cases h
      · cases h
        exact Workspace.findInDirectory_eq_some hf
    · cases h
  · cases h

variable (globs workspace rootOctafile excludes) in
/-- A round of the loop over walked directories, apart from its error. -/
def collect (pattern : RootPattern) (found : Found) (entry : WrittenPath) : Found :=
  if excludes.isMatch globs entry then found
  else
    let found := found.recordDirectory entry
    match projectIn globs workspace rootOctafile pattern entry with
    | some octafile =>
      { found with projects := found.projects.insert octafile (projectOf octafile) }
    | none => found

variable (globs workspace rootOctafile excludes) in
def Yields (pattern : RootPattern) (entry : WrittenPath) (octafile : FsPath) : Prop :=
  excludes.isMatch globs entry = false ∧
    projectIn globs workspace rootOctafile pattern entry = some octafile

theorem visit_eq_ok_iff (found : Found) (entry : WrittenPath) (found' : Found) :
    visit globs workspace rootOctafile excludes pattern found entry = .ok found' ↔
      ((∃ oct, Yields globs workspace rootOctafile excludes pattern entry oct) →
        HasNamespace entry) ∧
      found' = collect globs workspace rootOctafile excludes pattern found entry := by
  unfold visit collect Yields
  by_cases he : excludes.isMatch globs entry = true
  · rw [if_pos he, if_pos he]
    simp only [he, Bool.true_eq_false, false_and, exists_false, false_implies, true_and]
    exact ⟨fun h => (Except.ok.inj h).symm, fun h => congrArg Except.ok h.symm⟩
  rw [if_neg he, if_neg he]
  simp only [Bool.not_eq_true] at he
  cases hp : projectIn globs workspace rootOctafile pattern entry with
  | none =>
    simp only [reduceCtorEq, and_false, exists_false, false_implies, true_and]
    exact ⟨fun h => (Except.ok.inj h).symm, fun h => congrArg Except.ok h.symm⟩
  | some oct =>
    have hp' : projectOf oct = ⟨components entry, oct⟩ := by
      rw [projectOf, dropLast_of_projectIn hp]
    constructor
    · intro h
      obtain ⟨namespacePath, hn, h⟩ := Fallible.bind_eq_ok h
      obtain ⟨hc, rfl⟩ := namespaceOf_eq_ok_iff.mp hn
      cases h
      refine ⟨fun _ => hc, ?_⟩
      simp only [hp']
    rintro ⟨hc, rfl⟩
    have ho := namespaceOf_eq_ok_iff.mpr ⟨hc ⟨oct, he, rfl⟩, rfl⟩
    simp only [ho, hp']
    rfl

variable (globs workspace rootOctafile excludes) in
/-- A round of the loop over root patterns, apart from its errors. -/
def collectFrom (found : Found) (pattern : RootPattern) : Found :=
  if workspace.isDir (components pattern.searchPrefix) then
    (entries globs workspace excludes pattern).foldl
      (collect globs workspace rootOctafile excludes pattern) found
  else found.recordNearestDirectory workspace pattern.searchPrefix

variable (globs workspace rootOctafile excludes) in
def Reaches (pattern : RootPattern) (entry : WrittenPath) (octafile : FsPath) : Prop :=
  workspace.isDir (components pattern.searchPrefix) = true ∧
    entry ∈ entries globs workspace excludes pattern ∧
    Yields globs workspace rootOctafile excludes pattern entry octafile

theorem search_eq_ok_iff (found : Found) (pattern : RootPattern) (found' : Found) :
    search globs workspace rootOctafile excludes found pattern = .ok found' ↔
      (∀ entry oct, Reaches globs workspace rootOctafile excludes pattern entry oct →
        HasNamespace entry) ∧
      found' = collectFrom globs workspace rootOctafile excludes found pattern := by
  unfold search collectFrom Reaches
  by_cases hd : workspace.isDir (components pattern.searchPrefix) = true
  · rw [if_pos hd, if_pos hd, Fallible.foldlM_eq_ok_iff visit_eq_ok_iff]
    simp only [hd, true_and]
    refine and_congr_left fun _ => ⟨?_, ?_⟩
    · rintro h entry oct ⟨he, hy⟩
      exact h entry he ⟨oct, hy⟩
    · rintro h entry he ⟨oct, hy⟩
      exact h entry oct ⟨he, hy⟩
  rw [if_neg hd, if_neg hd]
  simp only [hd, Bool.false_eq_true, false_and, false_implies, implies_true, true_and]
  exact ⟨fun h => (Except.ok.inj h).symm, fun h => congrArg Except.ok h.symm⟩

variable (globs workspace rootOctafile) in
def collectAll (plan : DiscoveryPlan) : Found :=
  plan.roots.foldl (collectFrom globs workspace rootOctafile plan.excludes)
    (Found.recordNearestDirectory workspace {} [])

def Found.result (found : Found) : DiscoveryResult :=
  ⟨found.directories.values, found.projects.values.mergeSort fun left right =>
    decide (left.namespacePath ≤ right.namespacePath)⟩

variable {plan : DiscoveryPlan}

variable {result : DiscoveryResult}

theorem discover_eq_ok_iff : discover globs workspace rootOctafile plan = .ok result ↔
      (∀ pattern ∈ plan.roots, ∀ entry oct,
        Reaches globs workspace rootOctafile plan.excludes pattern entry oct → HasNamespace entry) ∧
      result = (collectAll globs workspace rootOctafile plan).result := by
  have hl (found : Found) : plan.roots.foldlM (search globs workspace rootOctafile plan.excludes)
        (Found.recordNearestDirectory workspace {} []) = .ok found ↔
      (∀ pattern ∈ plan.roots, ∀ entry oct,
        Reaches globs workspace rootOctafile plan.excludes pattern entry oct → HasNamespace entry) ∧
      found = collectAll globs workspace rootOctafile plan :=
    Fallible.foldlM_eq_ok_iff search_eq_ok_iff
  unfold discover
  constructor
  · intro h
    obtain ⟨found, hf, h⟩ := Fallible.bind_eq_ok h
    obtain ⟨ha, rfl⟩ := (hl found).mp hf
    cases h
    exact ⟨ha, rfl⟩
  rintro ⟨ha, rfl⟩
  have ho := (hl _).mpr ⟨ha, rfl⟩
  simp only [ho]
  rfl

/-! ## The projects -/

theorem projectIn_eq_some_iff {oct : FsPath} :
    projectIn globs workspace rootOctafile pattern entry = some oct ↔
      globs.isMatch pattern.pattern (pathText entry) = true ∧
        workspace.findInDirectory (components entry) = some oct ∧
        oct ≠ rootOctafile := by
  unfold projectIn
  by_cases hm : globs.isMatch pattern.pattern (pathText entry) = true
  · rw [if_pos hm]
    cases hf : workspace.findInDirectory (components entry) with
    | none => simp
    | some other =>
      by_cases hr : other = rootOctafile
      · simp only [hr, if_true, hm, Option.some.injEq, true_and]
        constructor
        · intro h
          cases h
        · rintro ⟨rfl, hne⟩
          exact absurd rfl hne
      simp only [hr, if_false, hm, Option.some.injEq, true_and]
      constructor
      · rintro rfl
        exact ⟨rfl, hr⟩
      · exact fun h => h.1
  · simp [hm]

def Found.Keyed (found : Found) : Prop :=
  ∀ entry ∈ found.projects.entries, entry.2 = projectOf entry.1

theorem Found.Keyed.insert (h : found.Keyed) (oct : FsPath) :
    ∀ entry ∈ (found.projects.insert oct (projectOf oct)).entries, entry.2 = projectOf entry.1 := by
  intro entry he
  obtain rfl | ⟨he, -⟩ := OrderedMap.mem_insert.mp he
  · rfl
  · exact h entry he

theorem projects_recordNearestDirectory (workspace : Workspace κ) (found : Found)
    (path : WrittenPath) :
    (found.recordNearestDirectory workspace path).projects = found.projects := by
  unfold Found.recordNearestDirectory
  split <;> rfl

theorem collect_projects (proj : MonorepoProject) (found : Found) (entry : WrittenPath)
    (h : found.Keyed) : (collect globs workspace rootOctafile excludes pattern found entry).Keyed ∧
    (proj ∈ (collect globs workspace rootOctafile excludes pattern found entry).projects.values ↔
      proj ∈ found.projects.values ∨ ∃ oct, proj = projectOf oct ∧
        Yields globs workspace rootOctafile excludes pattern entry oct) := by
  unfold collect Yields
  by_cases he : excludes.isMatch globs entry = true
  · simp [he, h]
  rw [if_neg he]
  cases hp : projectIn globs workspace rootOctafile pattern entry with
  | none => exact ⟨h, by simp [Found.recordDirectory]⟩
  | some oct =>
    refine ⟨h.insert oct, ?_⟩
    change proj ∈ (found.projects.insert oct (projectOf oct)).values ↔ _
    rw [OrderedMap.mem_values_insert h, or_comm]
    simp [he]

theorem collectFrom_projects (proj : MonorepoProject) (found : Found) (pattern : RootPattern)
    (h : found.Keyed) : (collectFrom globs workspace rootOctafile excludes found pattern).Keyed ∧
    (proj ∈ (collectFrom globs workspace rootOctafile excludes found pattern).projects.values ↔
      proj ∈ found.projects.values ∨ ∃ entry oct, proj = projectOf oct ∧
        Reaches globs workspace rootOctafile excludes pattern entry oct) := by
  unfold collectFrom Reaches
  by_cases hd : workspace.isDir (components pattern.searchPrefix) = true
  · rw [if_pos hd]
    obtain ⟨hk, hm⟩ := Fallible.foldl_collects
      (C := fun found : Found => proj ∈ found.projects.values) (collect_projects proj)
      (entries globs workspace excludes pattern) h
    refine ⟨hk, hm.trans (or_congr_right ?_)⟩
    constructor
    · rintro ⟨entry, he, oct, hp, hy⟩
      exact ⟨entry, oct, hp, hd, he, hy⟩
    · rintro ⟨entry, oct, hp, -, he, hy⟩
      exact ⟨entry, he, oct, hp, hy⟩
  · rw [if_neg hd]
    have hs := projects_recordNearestDirectory workspace found pattern.searchPrefix
    refine ⟨?_, ?_⟩
    · rw [Found.Keyed, hs]
      exact h
    · rw [hs]
      simp [hd]

theorem collectAll_projects (proj : MonorepoProject) :
    (collectAll globs workspace rootOctafile plan).Keyed ∧
    (proj ∈ (collectAll globs workspace rootOctafile plan).projects.values ↔
      ∃ pattern ∈ plan.roots, ∃ entry oct, proj = projectOf oct ∧
        Reaches globs workspace rootOctafile plan.excludes pattern entry oct) := by
  have hem : (Found.recordNearestDirectory workspace {} []).projects = .empty :=
    projects_recordNearestDirectory workspace {} []
  have hs : (Found.recordNearestDirectory workspace {} []).Keyed := by
    rw [Found.Keyed, hem]
    intro entry he
    cases he
  obtain ⟨hk, hm⟩ := Fallible.foldl_collects
    (C := fun found : Found => proj ∈ found.projects.values) (collectFrom_projects proj)
    plan.roots hs
  refine ⟨hk, hm.trans ?_⟩
  rw [hem]
  exact ⟨fun h => h.resolve_left (fun hn => by cases hn), .inr⟩

theorem mem_projects (h : discover globs workspace rootOctafile plan = .ok result)
    {proj : MonorepoProject} : proj ∈ result.projects ↔
      ∃ pattern ∈ plan.roots, ∃ entry octafile, proj = projectOf octafile ∧
        Reaches globs workspace rootOctafile plan.excludes pattern entry octafile := by
  obtain ⟨-, rfl⟩ := discover_eq_ok_iff.mp h
  rw [Found.result, mem_mergeSort]
  exact (collectAll_projects proj).2

end Loops

end Octa.Monorepo
