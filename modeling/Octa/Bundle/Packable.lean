import Octa.Bundle.Forest
import Mathlib.Data.List.Perm.Basic

/-!
# What the writer accepts

A forest of files, directories and links that stay in the workspace is packed
when its paths, its files and the number of its entries are within the limits:
no other check of the walk can fail.
-/

namespace Octa.Bundle

open FileTree LinkedTree Wire Octa.Cache Octa.LocalStore List

variable {workspace : Workspace} {limits : BundleLimits}

mutual

def Output.size : Output → ℕ
  | .directory children => sizes children + 1
  | .file _ _ => 1
  | .symlink _ _ => 1
  | .special => 1

def Output.sizes : List (String × Output) → ℕ
  | [] => 0
  | (_, child) :: rest => child.size + sizes rest

end

theorem Output.sizes_eq_sum (children : List (String × Output)) :
    sizes children = (children.map fun child => child.2.size).sum := by
  induction children with
  | nil => rfl
  | cons child children ih => rw [sizes, ih, map_cons, sum_cons]

theorem Output.size_pos (output : Output) : 1 ≤ output.size := by
  cases output <;> simp [size]

/-- The rules of the writer for an output and all that lies below it. -/
inductive Accepted (workspace : Workspace) (limits : BundleLimits) : FsPath → Output → Prop
  | file {names : FsPath} (path : RelativePath) {content : Bytes} (executable : Bool) :
      path.value = "/".intercalate names →
      path.value.utf8ByteSize ≤ limits.maxPathBytes.toNat →
      content.length ≤ limits.maxFileBytes.toNat →
      Accepted workspace limits names (.file content executable)
  | symlink {names resolved : FsPath} (path : RelativePath) {target : String}
      (isDirectory : Bool) : path.value = "/".intercalate names →
      path.value.utf8ByteSize ≤ limits.maxPathBytes.toNat →
      validateSymlinkText path target = .ok () → workspace.canonicalize path = .ok resolved →
      workspace.root <+: resolved → Accepted workspace limits names (.symlink target isDirectory)
  | directory {names : FsPath} (path : RelativePath) {children : List (String × Output)} :
      path.value = "/".intercalate names →
      path.value.utf8ByteSize ≤ limits.maxPathBytes.toNat →
      (∀ child ∈ children, Accepted workspace limits (names ++ [child.1]) child.2) →
      Accepted workspace limits names (.directory children)

variable {output : Output}

theorem inspectOutputEntry_of_kind {names : FsPath} {path : RelativePath}
    {kind : OutputKind} (hpath : path.value = "/".intercalate names)
    (hsize : path.value.utf8ByteSize ≤ limits.maxPathBytes.toNat)
    (hkind : inspectKind workspace limits path output = .ok kind) :
    inspectOutputEntry workspace limits names output = .ok ⟨path, kind⟩ := by
  have hr : portableRelative names = .ok path := by
    unfold portableRelative
    rw [← hpath, RelativePath.new_value]
    rfl
  unfold inspectOutputEntry
  rw [hr]
  change (if limits.maxPathBytes.toNat < path.value.utf8ByteSize then _ else _) = _
  rw [if_neg (not_lt.mpr hsize), hkind]
  rfl

/-- A visit of `size` entries succeeds where there is room for them; its first entry is already
counted. -/
structure Completes (limits : BundleLimits) (visit : Visit) (size : ℕ) : Prop where
  pos : 1 ≤ size
  run : ∀ scheduled, scheduled + size ≤ limits.maxEntries.toNat + 1 →
    ∃ entries after, visit scheduled = .ok (entries, after) ∧ after + 1 = scheduled + size

theorem Completes.leaf {visit : Visit} (e : OutputEntry)
    (h : ∀ sched, visit sched = .ok ([e], sched)) : Completes limits visit 1 where
  pos := le_rfl
  run sched _ := ⟨[e], sched, h sched, rfl⟩

variable {visits : List (String × Visit)}

theorem length_le_sum {sizes : List ℕ}
    (h : List.Forall₂ (fun visit size => Completes limits visit.2 size) visits sizes) :
    visits.length ≤ sizes.sum := by
  induction h with
  | nil => exact le_rfl
  | cons hf _ ih =>
    have hp := hf.pos
    rw [length_cons, sum_cons]
    omega

theorem runVisits_complete {sizes : List ℕ}
    (h : List.Forall₂ (fun visit size => Completes limits visit.2 size) visits sizes)
    (sched : ℕ) (hroom : sched + sizes.sum ≤ limits.maxEntries.toNat + visits.length) :
    ∃ entries after, runVisits visits sched = .ok (entries, after) ∧
      after + visits.length = sched + sizes.sum := by
  induction h generalizing sched with
  | nil => exact ⟨[], sched, rfl, rfl⟩
  | @cons visit size visits sizes hf hr ih =>
    have hl := length_le_sum hr
    rw [sum_cons, length_cons] at hroom ⊢
    obtain ⟨entries, next, hv, hn⟩ := hf.run sched (by omega)
    obtain ⟨more, after, hm, ha⟩ := ih next (by omega)
    refine ⟨entries ++ more, after, ?_, by omega⟩
    change (visit.2 sched >>= _) = _
    rw [hv]
    change (runVisits visits next >>= _) = _
    rw [hm]
    rfl

theorem visitOutput_complete {names : FsPath} (h : Accepted workspace limits names output) :
    Completes limits (visitOutput workspace limits output names) output.size := by
  induction h with
  | @file names path cnt executable hp hsz hl =>
    have hk : inspectKind workspace limits path (.file cnt executable) =
        .ok (.file cnt executable) := if_neg (not_lt.mpr hl)
    refine Completes.leaf ⟨path, .file cnt executable⟩ fun sched => ?_
    rw [visitOutput, inspectOutputEntry_of_kind hp hsz hk]
    rfl
  | @symlink names resolved path target isDirectory hp hsz hv hc hi =>
    have hsa : safeSymlinkTarget workspace path target = .ok target := by
      unfold safeSymlinkTarget
      rw [hv, hc]
      exact if_pos hi
    have hk : inspectKind workspace limits path (.symlink target isDirectory) =
        .ok (.symlink target isDirectory) := by
      rw [inspectKind, hsa]
      rfl
    refine Completes.leaf ⟨path, .symlink target isDirectory⟩ fun sched => ?_
    rw [visitOutput, inspectOutputEntry_of_kind hp hsz hk]
    rfl
  | @directory names path children hp hsz _ ih =>
    refine ⟨Output.size_pos _, fun sched hro => ?_⟩
    have hsi : List.Forall₂ (fun visit size => Completes limits visit.2 size)
        (visitChildren workspace limits children names)
        (children.map fun child => child.2.size) := by
      rw [visitChildren_eq_map]
      exact List.forall₂_map_left_iff.mpr (List.forall₂_map_right_iff.mpr
        (List.forall₂_same.mpr ih))
    -- the walk goes over the children in another order
    obtain ⟨sorted, hso, hpe⟩ := perm_comp_forall₂
      (perm_insertionSort (fun left right : String × Visit => left.1 ≤ right.1) _) hsi
    have hs : sorted.sum = Output.sizes children := by
      rw [Output.sizes_eq_sum, hpe.sum_nat]
    have hl : (sortNamed (visitChildren workspace limits children names)).length =
        children.length := by
      rw [sortNamed, length_insertionSort, visitChildren_eq_map, length_map]
    have hle := length_le_sum hso
    change (sortNamed _).length ≤ _ at hle
    rw [Output.size] at hro ⊢
    obtain ⟨entries, after, hr, ha⟩ := runVisits_complete hso (sched + children.length) (by
        change _ ≤ _ + (sortNamed _).length
        omega)
    change runVisits (sortNamed _) _ = _ at hr
    change _ + (sortNamed _).length = _ at ha
    refine ⟨⟨path, .directory⟩ :: entries, after, ?_, by omega⟩
    have hk : inspectKind workspace limits path (.directory children) = .ok .directory := rfl
    rw [visitOutput, inspectOutputEntry_of_kind hp hsz hk]
    change (if limits.maxEntries.toNat - sched < children.length then _ else _) = _
    rw [if_neg (by omega), hr]
    rfl

/-! ## Forests -/

theorem perm_of_validateOutputRoots {outputRoots rs : List RelativePath}
    (h : validateOutputRoots outputRoots = .ok rs) : rs.Perm outputRoots := by
  unfold validateOutputRoots at h
  obtain ⟨-, h⟩ := Fallible.ite_error_eq_ok h
  obtain ⟨⟨⟩, -, h⟩ := Fallible.bind_eq_ok h
  cases h
  exact mergeSort_perm outputRoots _

def Workspace.size (workspace : Workspace) (root : RelativePath) : ℕ :=
  ((workspace.output root).map Output.size).getD 0

structure Packable (workspace : Workspace) (limits : BundleLimits) (codec : Codec)
    (encoding : BundleEncoding) (outputRoots : List RelativePath) : Prop where
  validLimits : limits.validate = .ok limits
  validEncoding : encoding.validate = .ok encoding
  validRoots : ∃ roots, validateOutputRoots outputRoots = .ok roots
  accepted : ∀ root ∈ outputRoots, ∃ output, workspace.output root = some output ∧
    Accepted workspace limits root.components output
  count : (outputRoots.map workspace.size).sum ≤ limits.maxEntries.toNat
  expanded : ∀ entries, ListsForest workspace outputRoots entries →
    (canonicalStream entries).length ≤ limits.maxExpandedBytes.toNat
  encoded : ∀ entries, ListsForest workspace outputRoots entries →
    (encode codec encoding (canonicalStream entries)).length ≤ limits.maxEncodedBytes.toNat

variable {codec : Codec} {encoding : BundleEncoding} {outputRoots : List RelativePath}

theorem visitRoot_complete {root : RelativePath} (hout : workspace.output root = some output)
    (h : Accepted workspace limits root.components output) :
    Completes limits (visitRoot workspace limits root) (workspace.size root) := by
  have hv : visitRoot workspace limits root =
      visitOutput workspace limits output root.components := by
    funext sched
    unfold visitRoot
    rw [hout]
  have hs : workspace.size root = output.size := by
    unfold Workspace.size
    rw [hout]
    rfl
  rw [hv, hs]
  exact visitOutput_complete h

theorem visitOutputTree_complete {rs : List RelativePath}
    (hacc : ∀ root ∈ rs, ∃ output, workspace.output root = some output ∧
      Accepted workspace limits root.components output)
    (hcn : (rs.map workspace.size).sum ≤ limits.maxEntries.toNat) :
    ∃ result, visitOutputTree workspace limits rs = .ok result := by
  have hv : List.Forall₂ (fun visit size => Completes limits visit.2 size)
      (rs.map fun root => (root.value, visitRoot workspace limits root))
      (rs.map workspace.size) := by
    refine List.forall₂_map_left_iff.mpr (List.forall₂_map_right_iff.mpr
      (List.forall₂_same.mpr fun root hro => ?_))
    obtain ⟨output, ho, h⟩ := hacc root hro
    exact visitRoot_complete ho h
  have hl := length_le_sum hv
  rw [length_map] at hl
  obtain ⟨entries, after, hr, -⟩ := runVisits_complete hv rs.length (by
    rw [length_map]
    omega)
  refine ⟨(entries, after), ?_⟩
  unfold visitOutputTree
  rw [if_neg (by omega)]
  exact hr

end Octa.Bundle
