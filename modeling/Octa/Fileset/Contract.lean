import Octa.Fileset.InputSet

/-!
# Inputs and outputs of a contract

A contract is accepted when no output root can meet the traversal of a positive rule.  Then its
inputs stay apart from its outputs in every tree.
-/

namespace Octa.Fileset

open Octa.Cache Fallible List

variable {μ : Type} {glob : Glob} {outputs : List RelativePath} {patternSets : List (List String)}

/-- The path of an output root below the workspace; joining `.` stays at the workspace. -/
def outputPath (output : RelativePath) : FsPath :=
  if output.isRoot then [] else output.components

/-- Whether an output root can meet the traversal of a positive rule. -/
def meets (patterns : List InputPattern) (output : RelativePath) : Bool :=
  patterns.any fun pattern => !pattern.excluded &&
    (decide (pattern.scanRoot <+: outputPath output) ||
      decide (outputPath output <+: pattern.scanRoot))

/-- Checks every group; `count` rules come before them. -/
def validateContractSets (glob : Glob) (outputs : List RelativePath) :
    ℕ → List (List String) → CacheResult Unit
  | _, [] => .ok ()
  | count, patternSet :: rest =>
    if count + patternSet.length > maxCacheListItems then
      .error (.configuration s!"cache input patterns are limited to {maxCacheListItems} items")
    else do
      let patterns ← patternSet.mapM (InputPattern.parse glob)
      match outputs.find? (meets patterns) with
      | some output => throw (.configuration
          s!"cache output '{output.value}' overlaps the traversal of a positive input pattern")
      | none => validateContractSets glob outputs (count + patternSet.length) rest

/-- No group of an accepted contract meets an output root. -/
theorem not_meets_of_valid {count : ℕ} {grps : List (List InputPattern)}
    (h : validateContractSets glob outputs count patternSets = .ok ())
    (hgroups : parseGroups glob count patternSets = .ok grps) :
    ∀ g ∈ grps, ∀ output ∈ outputs, meets g output = false := by
  induction patternSets generalizing count grps with
  | nil =>
    cases hgroups
    exact fun g hg => absurd hg not_mem_nil
  | cons patternSet rest ih =>
    obtain ⟨-, h⟩ := ite_error_eq_ok h
    obtain ⟨-, hgroups⟩ := ite_error_eq_ok hgroups
    obtain ⟨pats, hp, h⟩ := bind_eq_ok h
    obtain ⟨g, hg, hgroups⟩ := bind_eq_ok hgroups
    obtain ⟨others, hot, hgroups⟩ := bind_eq_ok hgroups
    cases hgroups
    obtain rfl := Except.ok.inj (hp.symm.trans hg)
    cases hf : outputs.find? (meets pats) with
    | some output =>
      rw [hf] at h
      cases h
    | none =>
      rw [hf] at h
      refine forall_mem_cons.mpr ⟨fun output ho => ?_, ih h hot⟩
      exact Bool.eq_false_of_not_eq_true (find?_eq_none.mp hf output ho)

/-- A path below the traversal of a rule is apart from the output roots that do not meet it. -/
theorem apart_of_not_meets {g : List InputPattern} {pat : InputPattern}
    {output : RelativePath} {path : FsPath} (hmeets : meets g output = false)
    (hmem : pat ∈ g) (hpos : pat.excluded = false) (hpath : pat.scanRoot <+: path) :
    ¬path <+: outputPath output ∧ ¬outputPath output <+: path := by
  have ha := any_eq_false.mp hmeets pat hmem
  simp only [hpos, Bool.not_false, Bool.true_and, Bool.or_eq_true, decide_eq_true_eq, not_or] at ha
  refine ⟨fun hab => ha.1 (hpath.trans hab), fun hb => ?_⟩
  rcases List.prefix_or_prefix_of_prefix hpath hb with h | h
  · exact ha.1 h
  · exact ha.2 h

/-- In every tree the inputs of an accepted contract are neither equal to, nor inside, nor above
an output root. -/
theorem inputs_apart_from_outputs
    (hvalid : validateContractSets glob outputs 0 patternSets = .ok ()) (ws : Workspace μ)
    {maxEntries : ℕ} {result : List (FsPath × μ)}
    (h : collectPatternSets ws glob patternSets maxEntries = .ok result) :
    ∀ entry ∈ result, ∀ output ∈ outputs,
      ¬entry.1 <+: outputPath output ∧ ¬outputPath output <+: entry.1 := by
  intro entry hentry output hout
  obtain ⟨hmax, groups, hgroups⟩ := groups_of_collect h
  obtain ⟨hpicked, -⟩ := ((collectPatternSets_spec hgroups hmax h).2 entry).mp hentry
  obtain ⟨pattern, hpattern, hpos, hmatch⟩ := include_of_chosen hpicked.chosen
  obtain ⟨group, hgroup, hmem⟩ := mem_flatten.mp hpattern
  obtain ⟨matched, _, hmatched, haccepts, -⟩ := exists_of_matchesAt hmatch
  exact apart_of_not_meets (not_meets_of_valid hvalid hgroups group hgroup output hout) hmem hpos
    ((scanRoot_of_accepts haccepts).trans hmatched)

def outputRoot : RelativePath := ⟨"b", by decide⟩

theorem inputs_apart_from_outputs_file :
    ∃ result, collectPatternSets (workspaceOf [("a", .file)]) componentGlob [["a"]] 10 =
      .ok result ∧ ∀ entry ∈ result, ∀ output ∈ [outputRoot],
        ¬entry.1 <+: outputPath output ∧ ¬outputPath output <+: entry.1 := by
  have hpaths : (collectPatternSets (workspaceOf [("a", .file)]) componentGlob [["a"]] 10).map
      (List.map Prod.fst) = .ok [["a"]] := by
    decide +kernel
  obtain ⟨result, hresult, -⟩ := exists_of_map_paths hpaths
  exact ⟨result, hresult, inputs_apart_from_outputs (by decide +kernel) _ hresult⟩

end Octa.Fileset
