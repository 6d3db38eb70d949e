import Octa.Fileset.InputSet

/-!
# Groups of rules

Rules of different groups do not take entries from each other, but their roots
of search are merged.
-/

namespace Octa.Fileset

open Octa.Cache FileTree List

variable {μ : Type} {ws : Workspace μ} {glob : Glob} {path : FsPath} {metadata : μ}
  {groups others merged : List (List InputPattern)}

/-! ## Lists of groups -/

variable {root top : FsPath}

theorem Clear.trans (h : Clear ws top root) (h' : Clear ws root path)
    (hroot : root <+: path) : Clear ws top path := by
  intro anc hb hp hne
  by_cases hd : root <+: anc
  · exact h' anc hd hp hne
  · have hu := (List.prefix_or_prefix_of_prefix hp hroot).resolve_right hd
    exact h anc hb hu fun he => hd (he ▸ prefix_rfl)

theorem Clear.below (h : Clear ws top path) (htop : top <+: root) : Clear ws root path :=
  fun anc hb => h anc (htop.trans hb)

section

variable (hsub : ∀ root ∈ scanRoots groups.flatten, root ∈ scanRoots merged.flatten)
include hsub

end

end Octa.Fileset
