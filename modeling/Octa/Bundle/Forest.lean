import Octa.Bundle.Restoration

/-!
# Packed forests

The entries of all roots of a workspace form a canonical list, which is the only
sorted list of the forest.
-/

namespace Octa.Bundle

open FileTree LinkedTree Wire Crash Octa.Cache Octa.LocalStore CanonicalReader List

variable {workspace : Workspace} {limits : BundleLimits} {roots : List RelativePath}

def Workspace.Holds (workspace : Workspace) (roots : List RelativePath) (path : FsPath)
    (kind : OutputKind) : Prop :=
  ∃ root ∈ roots, ∃ output, workspace.output root = some output ∧
    ∃ r, path = root.components ++ r ∧ output.lookup r = some kind

structure ListsForest (workspace : Workspace) (roots : List RelativePath)
    (entries : List OutputEntry) : Prop where
  sorted : entries.Pairwise fun left right => left.path.components < right.path.components
  holds : ∀ path kind, workspace.Holds roots path kind ↔
    ∃ entry ∈ entries, entry.path.components = path ∧ entry.kind = kind

theorem OutputEntry.ext_components {left right : OutputEntry}
    (hpath : left.path.components = right.path.components) (hkind : left.kind = right.kind) :
    left = right := by
  cases left
  cases right
  simp only [OutputEntry.mk.injEq]
  exact ⟨RelativePath.components_injective hpath, hkind⟩

theorem ListsForest.unique {entries entries' : List OutputEntry}
    (h : ListsForest workspace roots entries) (h' : ListsForest workspace roots entries') :
    entries = entries' := by
  have hn : ∀ {l : List OutputEntry},
      (l.Pairwise fun left right => left.path.components < right.path.components) → l.Nodup :=
    fun hl => hl.imp fun hlt heq => hlt.ne (by rw [heq])
  have hm : ∀ e, e ∈ entries ↔ e ∈ entries' := by
    intro e
    have hi := (h.holds e.path.components e.kind).symm.trans (h'.holds e.path.components e.kind)
    have hs : ∀ l : List OutputEntry, e ∈ l ↔ ∃ other ∈ l,
        other.path.components = e.path.components ∧ other.kind = e.kind := by
      intro l
      constructor
      · intro he
        exact ⟨e, he, rfl, rfl⟩
      · rintro ⟨other, ho, hp, hk⟩
        rwa [← OutputEntry.ext_components hp hk]
    rw [hs entries, hs entries', hi]
  have hpe := (perm_ext_iff_of_nodup (hn h.sorted) (hn h'.sorted)).mpr hm
  refine hpe.eq_of_pairwise ?_ h.sorted h'.sorted
  intro left right _ _ hlt hg
  exact absurd hg (not_lt.mpr hlt.le)

/-! ## Canonical lists -/

variable {output : Output}

theorem lookup_dropLast {r : FsPath} {name : String}
    (h : output.lookup (r ++ [name]) ≠ none) : output.lookup r = some .directory := by
  induction r generalizing output with
  | nil =>
    cases output with
    | directory children => rfl
    | file cnt exe | symlink target isDirectory | special => exact absurd rfl h
  | cons first r ih =>
    cases output with
    | directory children =>
      rw [cons_append, Output.lookup] at h
      rw [Output.lookup]
      cases hc : children.lookup first with
      | none =>
        rw [hc] at h
        exact absurd rfl h
      | some child =>
        rw [hc] at h
        exact ih h
    | file cnt exe | symlink target isDirectory | special => exact absurd rfl h

theorem Lists.parent_mem {names : FsPath} {e : OutputEntry} {before after : List OutputEntry}
    (h : Lists limits output names (before ++ e :: after)) (hb : before ≠ []) :
    ∃ par ∈ before, par.kind = .directory ∧ par.path.components = e.path.components.dropLast := by
  have he : e ∈ before ++ e :: after := mem_append_right _ mem_cons_self
  obtain ⟨r, hr⟩ := h.below e he
  obtain ⟨hs, hre, ha⟩ := pairwise_append.mp h.sorted
  have hr' : r ≠ [] := by
    rintro rfl
    rw [append_nil] at hr
    obtain ⟨first, rest, hf, hc⟩ := h.first
    obtain ⟨head, tail, rfl⟩ := exists_cons_of_ne_nil hb
    obtain ⟨rfl, -⟩ := List.cons.inj hf
    exact (ha head mem_cons_self e mem_cons_self).ne (hc.trans hr)
  obtain ⟨r, name, rfl⟩ : ∃ s x, r = s ++ [x] :=
    ⟨r.dropLast, r.getLast hr', (dropLast_append_getLast hr').symm⟩
  have hl : output.lookup (r ++ [name]) = some e.kind := (h.lookup _ _).mpr ⟨e, he, hr.symm, rfl⟩
  obtain ⟨par, hp, hc, hk⟩ := (h.lookup r .directory).mp (lookup_dropLast (by rw [hl]; simp))
  have hla : e.path.components.dropLast = names ++ r := by
    rw [← hr, ← append_assoc, dropLast_concat]
  refine ⟨par, ?_, hk, hc.trans hla.symm⟩
  have hlt : par.path.components < e.path.components := by
    rw [hc, ← hr, ← append_assoc]
    exact lt_append_cons _ [] name
  obtain hp | hp := mem_append.mp hp
  · exact hp
  obtain rfl | hp := mem_cons.mp hp
  · exact absurd hlt (lt_irrefl _)
  · exact absurd ((pairwise_cons.mp hre).1 par hp) hlt.not_gt

theorem Lists.canonical {root : RelativePath} {idx : ℕ} {before b todo tail : List OutputEntry}
    (hroot : roots[idx]? = some root) (h : Lists limits output root.components (b ++ todo))
    (hbl : b ≠ []) (hb : ∀ other ∈ before, ∀ e ∈ b ++ todo,
      other.path.components < e.path.components)
    (htail : Canonical roots (before ++ (b ++ todo)) (some idx) tail) :
    Canonical roots (before ++ b) (some idx) (todo ++ tail) := by
  induction todo generalizing b with
  | nil => rwa [append_nil] at htail
  | cons e todo ih =>
    have he : e ∈ b ++ e :: todo := mem_append_right _ mem_cons_self
    obtain ⟨par, hp, hk, hc⟩ := h.parent_mem hbl
    have hn : nextRoot roots (some idx) e.path = .ok (false, idx) := by
      simp only [nextRoot]
      rw [if_pos]
      rw [hroot, Option.any_some]
      exact (contains_iff _ _).mpr (h.below e he)
    have ha : b ++ e :: todo = b ++ [e] ++ todo := by simp
    refine .inside hn ?_ (mem_append_right _ hp) hk hc ?_
    · intro other ho
      obtain ho | ho := mem_append.mp ho
      · exact hb other ho e he
      · exact (pairwise_append.mp h.sorted).2.2 other ho e mem_cons_self
    rw [ha] at h hb htail
    rw [append_assoc]
    exact ih h (by simp) hb htail

def currentAfter : ℕ → Option ℕ
  | 0 => none
  | count + 1 => some count

variable {fin rest : List RelativePath}

section

variable (hrs : RootsApart roots)
include hrs

theorem nextRoot_of_apart
    {root : RelativePath} (h : roots = fin ++ root :: rest) :
    nextRoot roots (currentAfter fin.length) root = .ok (true, fin.length) := by
  obtain rfl | ⟨fin, last, rfl⟩ := eq_nil_or_concat fin
  · subst h
    simp [currentAfter, nextRoot]
  have hl : (fin.concat last).length = fin.length + 1 := by simp
  have hla : roots[fin.length]? = some last := by
    subst h
    simp
  have hn : roots[fin.length + 1]? = some root := by
    subst h
    simp
  have ho : contains last root = false := by
    rw [← Bool.not_eq_true, contains_iff]
    subst h
    rw [concat_eq_append, append_assoc] at hrs
    have hp := (pairwise_append.mp hrs).2.1
    exact ((pairwise_cons.mp hp).1 root mem_cons_self).1
  rw [hl, currentAfter]
  simp only [nextRoot]
  rw [if_neg (by rw [hla, Option.any_some, ho]; simp), hn]
  simp

theorem canonical_blocks
    (hlt : roots.Pairwise fun p q => p.components < q.components) {before : List OutputEntry}
    {bs : List (List OutputEntry)} (hsp : roots = fin ++ rest) (hne : roots ≠ [])
    (hblo : List.Forall₂ (fun root b => ∃ output, workspace.output root = some output ∧
      Lists limits output root.components b) rest bs)
    (hb : ∀ other ∈ before, ∃ root ∈ fin, root.components <+: other.path.components) :
    Canonical roots before (currentAfter fin.length) bs.flatten := by
  induction hblo generalizing fin before with
  | nil =>
    rw [append_nil] at hsp
    subst hsp
    obtain ⟨count, hcn⟩ := Nat.exists_eq_succ_of_ne_zero (length_pos_iff.mpr hne).ne'
    rw [hcn]
    exact .finished (by omega)
  | @cons root b rest bs hbl hre ih =>
    obtain ⟨output, -, hl⟩ := hbl
    obtain ⟨first, todo, rfl, hf⟩ := hl.first
    obtain hpa := RelativePath.components_injective hf
    have hsm : ∀ other ∈ before, ∀ e ∈ first :: todo,
        other.path.components < e.path.components := by
      intro other ho e he
      obtain ⟨done, hd, ⟨r, hr⟩⟩ := hb other ho
      obtain ⟨s, hs⟩ := hl.below e he
      have hc : done.components < root.components ∧ Apart done.components root.components := by
        subst hsp
        exact ⟨(pairwise_append.mp hlt).2.2 done hd root mem_cons_self,
          (pairwise_append.mp hrs).2.2 done hd root mem_cons_self⟩
      rw [← hr, ← hs]
      exact append_lt_append hc.1 hc.2.1
    have hi : roots[fin.length]? = some root := by
      subst hsp
      simp
    have ht : Canonical roots (before ++ ([first] ++ todo)) (some fin.length)
        bs.flatten := by
      have hco : ∀ other ∈ before ++ first :: todo,
          ∃ root' ∈ fin ++ [root], root'.components <+: other.path.components := by
        intro other ho
        obtain ho | ho := mem_append.mp ho
        · obtain ⟨done, hd, hp⟩ := hb other ho
          exact ⟨done, mem_append_left _ hd, hp⟩
        · exact ⟨root, mem_append_right _ mem_cons_self, hl.below other ho⟩
      have hn := ih (by rw [hsp, append_assoc, singleton_append]) hco
      rw [List.length_append, length_singleton] at hn
      exact hn
    rw [flatten_cons, cons_append]
    have hbl : Lists limits output root.components ([first] ++ todo) := hl
    refine .root ?_ ?_ (hbl.canonical hi (by simp) hsm ht)
    · rw [hpa]
      exact nextRoot_of_apart hrs hsp
    · intro other ho
      exact hsm other ho first mem_cons_self

end

end Octa.Bundle
