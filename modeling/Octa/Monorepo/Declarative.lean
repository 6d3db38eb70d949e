import Octa.Monorepo.Selection

/-!
# The declarative reading of a monorepo configuration

A project is a directory below the root that has an Octafile, that some root
pattern selects within its depth, and that lies in no excluded directory.
-/

namespace Octa.Monorepo

open Octa.Cache FileTree Workspace
open List hiding get

variable {κ : Type}

section Declarative

variable (globs : Globs) (workspace : Workspace κ) (rootOctafile : FsPath) (plan : DiscoveryPlan)

structure Selects (pattern : RootPattern) (directory : FsPath) : Prop where
  exists_rest : ∃ rest, directory = components pattern.searchPrefix ++ rest ∧
    rest.length ≤ pattern.depth
  isDir : workspace.isDir directory = true
  isMatch : globs.isMatch pattern.pattern (pathText directory) = true

def Unexcluded (directory : FsPath) : Prop :=
  ∀ above, above <+: directory → plan.excludes.isMatch globs above = false

structure IsProject (directory : FsPath) : Prop where
  below : directory ≠ []
  octafile : ∃ octafile, workspace.findInDirectory directory = some octafile
  selected : ∃ pattern ∈ plan.roots, Selects globs workspace pattern directory
  unexcluded : Unexcluded globs plan directory

def DiscoversExactly : Prop :=
  ∃ result, discover globs workspace rootOctafile plan = .ok result ∧
    ∀ project, project ∈ result.projects ↔
      IsProject globs workspace plan project.namespacePath ∧
        workspace.findInDirectory project.namespacePath = some project.octafile

/-- A pattern leads to a directory with an Octafile of its own, whatever is excluded at or above
the directory where its walk starts.  The path is looked at as the pattern writes it. -/
structure Leads (pattern : RootPattern) (rest : List String) : Prop where
  depth : rest.length ≤ pattern.depth
  isDir : workspace.isDir (components pattern.searchPrefix ++ rest) = true
  between : ∀ q, q <+: rest → q ≠ [] →
    plan.excludes.isMatch globs (pattern.searchPrefix ++ q) = false
  last : plan.excludes.isMatch globs (pattern.searchPrefix ++ rest) = false
  isMatch : globs.isMatch pattern.pattern (pathText (pattern.searchPrefix ++ rest)) = true
  octafile : ∃ octafile, octafile ≠ rootOctafile ∧
    workspace.findInDirectory (components pattern.searchPrefix ++ rest) = some octafile

def LeadsTo (pattern : RootPattern) (directory : FsPath) : Prop :=
  ∃ rest, directory = components pattern.searchPrefix ++ rest ∧
    Leads globs workspace rootOctafile plan pattern rest

/-- The start of the walk is written without `.` after a name. -/
def RootPattern.Plain (pattern : RootPattern) : Prop :=
  pattern.searchPrefix.dropWhile (· = ".") = components pattern.searchPrefix

/-- No pattern leads to the root itself, or to a project from inside an excluded directory.  A
pattern that is not plain is compared with paths that no directory is listed under: what it leads
to has to be a project for another reason, and another pattern has to lead to what it selects. -/
structure Confined : Prop where
  plain : ∀ pattern ∈ plan.roots, pattern.Plain → ∀ directory,
    LeadsTo globs workspace rootOctafile plan pattern directory →
      directory ≠ [] ∧ Unexcluded globs plan (components pattern.searchPrefix)
  dotted : ∀ pattern ∈ plan.roots, ¬pattern.Plain → ∀ directory,
    (LeadsTo globs workspace rootOctafile plan pattern directory →
      directory ≠ [] ∧ Unexcluded globs plan directory ∧
        ∃ other ∈ plan.roots, Selects globs workspace other directory) ∧
    (Selects globs workspace pattern directory → directory ≠ [] →
      Unexcluded globs plan directory →
      (∃ octafile, workspace.findInDirectory directory = some octafile) →
        ∃ other ∈ plan.roots, LeadsTo globs workspace rootOctafile plan other directory)

end Declarative

section Exact

variable {globs : Globs} {workspace : Workspace κ} {rootOctafile : FsPath} {plan : DiscoveryPlan}
  {pattern : RootPattern}

theorem reaches_iff {e : WrittenPath} {octafile : FsPath} :
    Reaches globs workspace rootOctafile plan.excludes pattern e octafile ↔
      ∃ rest, e = pattern.searchPrefix ++ rest ∧
        components e = components pattern.searchPrefix ++ rest ∧
        Leads globs workspace rootOctafile plan pattern rest ∧
        workspace.findInDirectory (components pattern.searchPrefix ++ rest) = some octafile := by
  unfold Reaches Yields entries
  rw [mem_walk, projectIn_eq_some_iff]
  constructor
  · rintro ⟨hs, ⟨rest, rfl, hde, hw⟩, hla, hm, hf, hr⟩
    have hd : workspace.isDir (components pattern.searchPrefix ++ rest) = true := by
      by_cases hre : rest = []
      · rw [hre, append_nil]
        exact hs
      · exact (hw rest (prefix_refl rest) hre).1
    have hn : ∀ name ∈ rest, name ≠ "." := fun name hna =>
      (isName_of_isDir hd (mem_append_right _ hna)).notCurrent
    have hc : components (pattern.searchPrefix ++ rest) =
        components pattern.searchPrefix ++ rest := components_append hn
    rw [hc] at hf
    refine ⟨rest, rfl, hc, ⟨hde, hd, ?_, hla, hm, octafile, hr, hf⟩, hf⟩
    intro q hq hne
    simpa using (hw q hq hne).2
  · rintro ⟨rest, rfl, hc, hl, hf⟩
    have hs := isDir_of_prefix hl.isDir (prefix_append _ rest)
    obtain ⟨other, hr, ho⟩ := hl.octafile
    cases ho.symm.trans hf
    refine ⟨hs, ⟨rest, rfl, hl.depth, ?_⟩, hl.last, hl.isMatch, ?_, hr⟩
    · intro q hq hne
      refine ⟨ isDir_of_prefix hl.isDir ?_, ?_⟩
      · exact (prefix_append_right_inj _).mpr hq
      · rw [hl.between q hq hne]
        rfl
    · rw [hc]
      exact hf

theorem mem_projects_iff {result : DiscoveryResult}
    (h : discover globs workspace rootOctafile plan = .ok result) {proj : MonorepoProject} :
    proj ∈ result.projects ↔ (∃ pattern ∈ plan.roots,
        LeadsTo globs workspace rootOctafile plan pattern proj.namespacePath) ∧
      workspace.findInDirectory proj.namespacePath = some proj.octafile := by
  rw [mem_projects h]
  constructor
  · rintro ⟨pattern, hp, e, oct, rfl, hr⟩
    obtain ⟨rest, -, -, hle, hf⟩ := reaches_iff.mp hr
    have hl : (projectOf oct).namespacePath = components pattern.searchPrefix ++ rest :=
      findInDirectory_eq_some hf
    refine ⟨⟨pattern, hp, rest, hl, hle⟩, ?_⟩
    rw [hl]
    exact hf
  rintro ⟨⟨pattern, hp, rest, hd, hle⟩, hf⟩
  have hn : ∀ name ∈ rest, name ≠ "." := fun name hna =>
    (isName_of_isDir hle.isDir (mem_append_right _ hna)).notCurrent
  rw [hd] at hf
  refine ⟨pattern, hp, pattern.searchPrefix ++ rest, proj.octafile, ?_,
    reaches_iff.mpr ⟨rest, rfl, components_append hn, hle, hf⟩⟩
  have hl := findInDirectory_eq_some hf
  rw [← hd] at hl
  rw [projectOf, hl]

theorem prefix_append_cases {above first rest : FsPath} (h : above <+: first ++ rest) :
    above <+: first ∨ ∃ q, q <+: rest ∧ q ≠ [] ∧ above = first ++ q := by
  obtain ha | ⟨q, rfl⟩ := prefix_or_prefix_of_prefix h (prefix_append first rest)
  · exact .inl ha
  by_cases hq : q = []
  · left
    rw [hq, append_nil]
  · exact .inr ⟨q, (prefix_append_right_inj first).mp h, hq, rfl⟩

/-! ## Plain patterns -/

theorem dropWhile_names {path : WrittenPath} (h : ∀ name ∈ path, name ≠ ".") :
    path.dropWhile (· = ".") = path := by
  rw [dropWhile_eq_self_iff]
  intro hp hd
  exact h _ (getElem_mem hp) (of_decide_eq_true hd)

theorem ne_dot_of_mem_components {path : WrittenPath} {name : String}
    (h : name ∈ components path) : name ≠ "." :=
  of_decide_eq_true (mem_filter.mp h).2

theorem components_components (path : WrittenPath) :
    components (components path) = components path :=
  filter_eq_self.mpr fun _ h => (mem_filter.mp h).2

theorem RootPattern.Plain.pathText (h : pattern.Plain) {rest : List String}
    (hrest : ∀ name ∈ rest, name ≠ ".") : pathText (pattern.searchPrefix ++ rest) =
      Octa.Monorepo.pathText (components pattern.searchPrefix ++ rest) := by
  have hns : ∀ name ∈ components pattern.searchPrefix ++ rest, name ≠ "." := by
    intro name hn
    obtain hn | hn := mem_append.mp hn
    · exact ne_dot_of_mem_components hn
    · exact hrest name hn
  have hd : (pattern.searchPrefix ++ rest).dropWhile (· = ".") =
      components pattern.searchPrefix ++ rest := by
    rw [dropWhile_append, h]
    split
    · rename_i he
      rw [isEmpty_iff.mp he, dropWhile_names hrest, nil_append]
    · rfl
  rw [Octa.Monorepo.pathText, Octa.Monorepo.pathText, hd, dropWhile_names hns]

theorem RootPattern.Plain.isMatch (h : pattern.Plain) (excludes : Excludes) {rest : List String}
    (hrest : ∀ name ∈ rest, name ≠ ".") : excludes.isMatch globs (pattern.searchPrefix ++ rest) =
      excludes.isMatch globs (components pattern.searchPrefix ++ rest) := by
  rw [Excludes.isMatch, Excludes.isMatch, h.pathText hrest, components_append hrest,
    components_append hrest, components_components]

theorem IsProject.leadsTo {directory : FsPath} {rootName : String} (hpl : pattern.Plain)
    (hse : Selects globs workspace pattern directory)
    (h : IsProject globs workspace plan directory) :
    LeadsTo globs workspace [rootName] plan pattern directory := by
  obtain ⟨rest, rfl, hd⟩ := hse.exists_rest
  have hns : ∀ name ∈ rest, name ≠ "." := fun name hn =>
    (isName_of_isDir hse.isDir (mem_append_right _ hn)).notCurrent
  have hk : ∀ q, q <+: rest → plan.excludes.isMatch globs (pattern.searchPrefix ++ q) = false := by
    intro q hq
    rw [hpl.isMatch plan.excludes fun name hn => hns name (hq.subset hn)]
    exact h.unexcluded _ ((prefix_append_right_inj _).mpr hq)
  obtain ⟨oct, hf⟩ := h.octafile
  refine ⟨rest, rfl, hd, hse.isDir, fun q hq _ => hk q hq,
    hk rest (prefix_refl rest), ?_, oct, ?_, hf⟩
  · rw [hpl.pathText hns]
    exact hse.isMatch
  · rintro rfl
    exact h.below (findInDirectory_eq_some hf).symm

theorem LeadsTo.isProject {directory : FsPath} (hpat : pattern ∈ plan.roots) (hpl : pattern.Plain)
    (h : LeadsTo globs workspace rootOctafile plan pattern directory) (hbl : directory ≠ [])
    (hab : Unexcluded globs plan (components pattern.searchPrefix)) :
    IsProject globs workspace plan directory := by
  obtain ⟨rest, rfl, hl⟩ := h
  have hns : ∀ name ∈ rest, name ≠ "." := fun name hn =>
    (isName_of_isDir hl.isDir (mem_append_right _ hn)).notCurrent
  obtain ⟨oct, -, hf⟩ := hl.octafile
  refine ⟨hbl, ⟨oct, hf⟩, ⟨pattern, hpat, ⟨rest, rfl, hl.depth⟩, hl.isDir, ?_⟩, ?_⟩
  · rw [← hpl.pathText hns]
    exact hl.isMatch
  intro above hp
  obtain hp | ⟨q, hq, hne, rfl⟩ := prefix_append_cases hp
  · exact hab above hp
  · rw [← hpl.isMatch plan.excludes fun name hn => hns name (hq.subset hn)]
    exact hl.between q hq hne

/-! ## Agreement -/

theorem discoversExactly_iff
    (hco : ∀ path, get workspace.tree path ≠ none → ∀ name ∈ path, ':' ∉ name.toList) :
    DiscoversExactly globs workspace rootOctafile plan ↔ ∀ directory, (∃ pattern ∈ plan.roots,
          LeadsTo globs workspace rootOctafile plan pattern directory) ↔
        IsProject globs workspace plan directory := by
  constructor
  · rintro ⟨result, hr, he⟩ directory
    constructor
    · rintro ⟨pattern, hp, hl⟩
      have hoc : ∃ octafile, workspace.findInDirectory directory = some octafile := by
        obtain ⟨rest, rfl, hrs⟩ := hl
        obtain ⟨octafile, -, hf⟩ := hrs.octafile
        exact ⟨octafile, hf⟩
      obtain ⟨octafile, hf⟩ := hoc
      exact ((he ⟨directory, octafile⟩).mp ((mem_projects_iff hr).mpr ⟨⟨pattern, hp, hl⟩, hf⟩)).1
    intro h
    obtain ⟨octafile, hf⟩ := h.octafile
    exact ((mem_projects_iff hr).mp ((he ⟨directory, octafile⟩).mpr ⟨h, hf⟩)).1
  · intro h
    have hns : ∀ pattern ∈ plan.roots, ∀ entry octafile,
        Reaches globs workspace rootOctafile plan.excludes pattern entry octafile →
          HasNamespace entry := by
      intro pattern _ entry octafile hre name hn
      obtain ⟨rest, -, hc, hl, -⟩ := reaches_iff.mp hre
      rw [hc] at hn
      refine hco _ ?_ name hn
      rw [isDir_iff.mp hl.isDir]
      exact Option.some_ne_none _
    have ho := discover_eq_ok_iff.mpr ⟨hns, rfl⟩
    refine ⟨_, ho, ?_⟩
    intro proj
    rw [mem_projects_iff ho, h proj.namespacePath]

/-- Discovery returns exactly the declared projects when, and only when, no pattern leads to the
root or into an excluded directory. -/
theorem discovers_exactly_iff_confined {rootName : String}
    (hcolon : ∀ path, get workspace.tree path ≠ none → ∀ name ∈ path, ':' ∉ name.toList) :
    DiscoversExactly globs workspace [rootName] plan ↔
      Confined globs workspace [rootName] plan := by
  rw [discoversExactly_iff hcolon]
  constructor
  · intro h
    refine ⟨?_, ?_⟩
    · intro pattern hpattern _ directory hleads
      have hproject := (h directory).mp ⟨pattern, hpattern, hleads⟩
      obtain ⟨rest, rfl, -⟩ := hleads
      exact ⟨hproject.below, fun above habove =>
        hproject.unexcluded above (habove.trans (prefix_append _ _))⟩
    intro pattern hpattern _ directory
    refine ⟨fun hleads => ?_, fun hselects hbelow hunexcluded hoctafile => ?_⟩
    · have hproject := (h directory).mp ⟨pattern, hpattern, hleads⟩
      exact ⟨hproject.below, hproject.unexcluded, hproject.selected⟩
    · exact (h directory).mpr ⟨hbelow, hoctafile, ⟨pattern, hpattern, hselects⟩, hunexcluded⟩
  · intro h directory
    constructor
    · rintro ⟨pattern, hpattern, hleads⟩
      by_cases hplain : pattern.Plain
      · obtain ⟨hbelow, habove⟩ := h.plain pattern hpattern hplain directory hleads
        exact hleads.isProject hpattern hplain hbelow habove
      obtain ⟨hbelow, hunexcluded, hselected⟩ :=
        (h.dotted pattern hpattern hplain directory).1 hleads
      obtain ⟨rest, rfl, hleads⟩ := hleads
      obtain ⟨octafile, -, hfind⟩ := hleads.octafile
      exact ⟨hbelow, ⟨octafile, hfind⟩, hselected, hunexcluded⟩
    · intro hproject
      obtain ⟨pattern, hpattern, hselects⟩ := hproject.selected
      by_cases hplain : pattern.Plain
      · exact ⟨pattern, hpattern, hproject.leadsTo hplain hselects⟩
      · exact (h.dotted pattern hpattern hplain directory).2 hselects hproject.below
          hproject.unexcluded hproject.octafile

end Exact

/-! ## A configuration and a tree -/

def onePackage : Workspace Unit :=
  .ofTree [([], .dir), (["Octafile.yml"], .leaf ()), (["packages"], .dir),
    (["packages", "api"], .dir), (["packages", "api", "Octafile.yml"], .leaf ())]
    rfl (by decide) (by decide)

/-- How the patterns below match the directories of `onePackage`. -/
def packageGlobs : Globs where
  isWhitespace c := c = ' '
  error _ := none
  isMatch pattern path :=
    (pattern, path) ∈ [("packages/*", "packages/api"), ("**/packages", "packages")]

def packagePlan (patterns : List String) : DiscoveryPlan :=
  ⟨⟨alwaysExcludedDirectories, patterns⟩, [⟨"packages/*", ["packages"], 1⟩]⟩

theorem onePackage_colon :
    ∀ path, get onePackage.tree path ≠ none → ∀ name ∈ path, ':' ∉ name.toList := by
  intro path h
  obtain ⟨e, he, rfl⟩ := exists_entry h
  revert e
  decide

theorem onePackage_confined :
    Confined packageGlobs onePackage ["Octafile.yml"] (packagePlan []) where
  plain := by
    intro pattern hp _ directory hl
    obtain rfl := mem_singleton.mp hp
    obtain ⟨rest, rfl, -⟩ := hl
    refine ⟨cons_ne_nil _ _, ?_⟩
    intro above hab
    have ha : ∀ above ∈ ["packages"].inits,
        (packagePlan []).excludes.isMatch packageGlobs above = false := by decide +kernel
    exact ha above ((mem_inits _ _).mpr hab)
  dotted := by
    intro pattern hp hd
    obtain rfl := mem_singleton.mp hp
    exact absurd rfl hd

theorem onePackage_discovered :
    prepare packageGlobs ⟨["packages/*"], [], 5⟩ = .ok (packagePlan []) ∧
      DiscoversExactly packageGlobs onePackage ["Octafile.yml"] (packagePlan []) :=
  ⟨by decide +kernel, (discovers_exactly_iff_confined onePackage_colon).mpr onePackage_confined⟩

/-- The directory where the walk starts is excluded, and the package in it is found. -/
theorem excluded_packages_discovered : prepare packageGlobs ⟨["packages/*"], ["**/packages"], 5⟩ =
        .ok (packagePlan ["**/packages"]) ∧
      ¬DiscoversExactly packageGlobs onePackage ["Octafile.yml"] (packagePlan ["**/packages"]) := by
  refine ⟨by decide +kernel, ?_⟩
  rintro ⟨result, hresult, hexact⟩
  have hprojects : (discover packageGlobs onePackage ["Octafile.yml"]
      (packagePlan ["**/packages"])).map DiscoveryResult.projects =
      .ok [⟨["packages", "api"], ["packages", "api", "Octafile.yml"]⟩] := by decide +kernel
  rw [hresult] at hprojects
  have hmem : ⟨["packages", "api"], ["packages", "api", "Octafile.yml"]⟩ ∈ result.projects := by
    rw [Except.ok.inj hprojects]
    exact mem_singleton_self _
  have hkept := ((hexact _).mp hmem).1.unexcluded ["packages"] ⟨["api"], rfl⟩
  have hexcluded : (packagePlan ["**/packages"]).excludes.isMatch packageGlobs ["packages"] =
      true := by decide +kernel
  rw [hexcluded] at hkept
  cases hkept

end Octa.Monorepo
