import Octa.Restore.Inspection

/-!
# Staging a bundle

Extraction places the bundle under the staging directory.
-/

namespace Octa.Restore

open FileTree Crash Octa.Cache RestoreManager
open List hiding get contains

variable {κ : Type}

theorem get_graft_append (base : FsPath) (t : Tree String κ) (r : FsPath) :
    get (graft base t) (base ++ r) = get t r :=
  get_map_of_iff (f := (base ++ ·)) fun _ _ => append_right_inj base

theorem get_graft_of_outside {base q : FsPath} (t : Tree String κ) (h : ¬base <+: q) :
    get (graft base t) q = none := by
  rw [get_eq_none_iff]
  intro e he heq
  obtain ⟨e', -, rfl⟩ := mem_map.mp he
  exact h ⟨e'.1, heq⟩

namespace Bundle

variable {bundle : Bundle κ} {roots : List RelativePath} {a : FsPath}

theorem get_staged_of_outside (h : ∀ root ∈ roots, ¬root.components <+: a) :
    get (bundle.staged roots) a = none := by
  rw [get_eq_none_iff]
  intro e he heq
  obtain ⟨en, hen, rfl⟩ := mem_map.mp he
  obtain ⟨root, hr, hc⟩ := any_eq_true.mp (mem_filter.mp hen).2
  exact h root hr (heq ▸ (contains_iff root en.1).mp hc)

theorem mem_parents {e : FsPath × Node κ} (he : e ∈ parents roots) :
    e.2 = .dir ∧ ∃ root ∈ roots, e.1 <+: root.components ∧ e.1 ≠ root.components := by
  obtain ⟨root, hr, hm⟩ := mem_flatMap.mp he
  obtain ⟨par, hp, rfl⟩ := mem_map.mp hm
  obtain ⟨hi, hne⟩ := mem_filter.mp hp
  exact ⟨rfl, root, hr, (mem_inits _ _).mp hi, by simpa using hne⟩

variable {root : RelativePath}

theorem get_parents (hroot : root ∈ roots) (ha : a <+: root.components)
    (hne : a ≠ root.components) : get (parents roots : Tree String κ) a = some .dir := by
  refine get_of_forall_eq (fun e he => (mem_parents he).1) ⟨(a, .dir), ?_, rfl⟩
  refine mem_flatMap.mpr ⟨root, hroot, mem_map.mpr ⟨a, ?_, rfl⟩⟩
  exact mem_filter.mpr ⟨(mem_inits _ _).mpr ha, by simpa using hne⟩

theorem get_parents_of_not_above (h : ∀ root ∈ roots, a <+: root.components → a = root.components) :
    get (parents roots : Tree String κ) a = none := by
  rw [get_eq_none_iff]
  rintro e he rfl
  obtain ⟨-, root, hr, hp, hne⟩ := mem_parents he
  exact hne (h root hr hp)

theorem below_staged (hroot : root ∈ roots) :
    below (bundle.staged roots) root.components = bundle.newTree root := by
  funext r
  have hf : bundle.staged roots = (bundle.entries.map fun e => (e.1.components, e.2)).filter
        fun e => roots.any fun root => root.components.isPrefixOf e.1 := by
    rw [filter_map, staged]
    congr 1
    refine filter_congr fun e _ => ?_
    congr 1
    funext root
    rw [Bool.eq_iff_iff, contains_iff, ← isPrefixOf_iff_prefix]
  have hk : (roots.any fun root' => root'.components.isPrefixOf (root.components ++ r)) =
      true :=
    any_eq_true.mpr ⟨root, hroot, isPrefixOf_iff_prefix.mpr (prefix_append _ r)⟩
  rw [below, hf, get_filter _ (fun q => roots.any fun root => root.components.isPrefixOf q),
    hk, newTree, below]
  rfl

theorem newTree_of_check (h : bundle.check roots = .ok ())
    (hroot : root ∈ roots) : bundle.newTree root [] ≠ none := by
  unfold check at h
  split at h
  · simp at h
  split at h
  · simp at h
  split at h
  · simp at h
  rename_i ha
  have hp := find?_eq_none.mp ha root hroot
  simp only [Bool.not_eq_true', Bool.not_eq_false, any_eq_true, decide_eq_true_eq] at hp
  obtain ⟨en, he, rfl⟩ := hp
  rw [newTree, below, append_nil, ne_eq, get_eq_none_iff]
  intro hn
  exact hn (en.1.components, en.2) (mem_map.mpr ⟨en, he, rfl⟩) rfl

end Bundle

namespace Transaction

variable {x : Transaction κ} {t : Tree String κ} {bundle : Bundle κ} {e : JournalRoot}

variable (x) in
def Carries (bundle : Bundle κ) : Prop := x.fresh = bundle.newTree

variable (x) in
def extracted (bundle : Bundle κ) (t : Tree String κ) : Tree String κ :=
  graft x.journal.staging (bundle.staged (x.journal.roots.map JournalRoot.path) ++
    Bundle.parents (x.journal.roots.map JournalRoot.path)) ++ t

theorem get_extracted_of_outside {q : FsPath} (h : ¬x.journal.staging <+: q) :
    get (x.extracted bundle t) q = get t q := by
  rw [extracted, get_append, get_graft_of_outside _ h]
  rfl

theorem get_extracted_staging (r : FsPath) : get (x.extracted bundle t) (x.journal.staging ++ r) =
      ((get (bundle.staged (x.journal.roots.map JournalRoot.path)) r).or
        (get (Bundle.parents (x.journal.roots.map JournalRoot.path)) r)).or
          (get t (x.journal.staging ++ r)) := by
  rw [extracted, get_append, get_graft_append, get_append]

theorem components_eq_of_prefix {f : JournalRoot} (he : e ∈ x.journal.roots)
    (hf : f ∈ x.journal.roots) (h : e.path.components <+: f.path.components) : e = f := by
  by_contra hne
  exact (x.roots_apart he hf hne).1 h

theorem below_extracted_staged (hcarries : x.Carries bundle) (he : e ∈ x.journal.roots)
    (hem : ∀ r, r ≠ [] → get t (x.journal.staging ++ r) = none) :
    below (x.extracted bundle t) (x.cell .staged e) = x.fresh e.path := by
  funext r
  have hc : x.cell .staged e ++ r = x.journal.staging ++ (e.path.components ++ r) :=
    append_assoc _ _ _
  have hpa : get (Bundle.parents (x.journal.roots.map JournalRoot.path) : Tree String κ)
      (e.path.components ++ r) = none := by
    refine Bundle.get_parents_of_not_above fun root hr hp => ?_
    obtain ⟨f, hf, rfl⟩ := mem_map.mp hr
    have hef := components_eq_of_prefix he hf ((prefix_append _ r).trans hp)
    subst hef
    exact hp.eq_of_length_le (by simp)
  have hre : get t (x.journal.staging ++ (e.path.components ++ r)) = none :=
    hem _ (append_ne_nil_of_left_ne_nil (components_ne_nil _) r)
  rw [below, hc, get_extracted_staging, hpa, hre, hcarries,
    ← Bundle.below_staged (mem_map_of_mem he)]
  simp [below]

theorem extracted_above_staged (he : e ∈ x.journal.roots)
    (hdirs : ∀ q, q <+: x.journal.staging → get t q = some .dir) {q : FsPath}
    (hq : q <+: (x.cell .staged e).dropLast) : get (x.extracted bundle t) q = some .dir := by
  have hd : (x.cell .staged e).dropLast = x.journal.staging ++ e.path.components.dropLast :=
    dropLast_joinRelative _ _
  rw [hd] at hq
  by_cases hi : x.journal.staging <+: q
  · obtain ⟨a, rfl⟩ := hi
    rw [prefix_append_right_inj] at hq
    have hne : a ≠ e.path.components := by
      rintro rfl
      exact length_dropLast_lt (components_ne_nil _) (prefix_refl _) hq
    have hs : get (bundle.staged (x.journal.roots.map JournalRoot.path)) a = none := by
      refine Bundle.get_staged_of_outside fun root hr hp => ?_
      obtain ⟨f, hf, rfl⟩ := mem_map.mp hr
      have hef := components_eq_of_prefix hf he (hp.trans (hq.trans ( dropLast_prefix _)))
      subst hef
      exact length_dropLast_lt (components_ne_nil _) hp hq
    rw [get_extracted_staging, hs, Bundle.get_parents (mem_map_of_mem he)
      (hq.trans ( dropLast_prefix _)) hne]
    rfl
  · rw [get_extracted_of_outside hi]
    refine hdirs q ?_
    rcases prefix_or_prefix_of_prefix hq (prefix_append _ _) with hu | hdo
    · exact hu
    · exact absurd hdo hi

end Transaction

end Octa.Restore
