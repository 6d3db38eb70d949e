import Octa.Finder.Finder

/-!
# Qualified names

A listed name leads back to its task unless it reads differently as a path: a task key with a
colon, an empty part, a key of several parts that shadows a nested include, or a wildcard that
matches other tasks as well.
-/

namespace Octa.Finder

open List

variable {τ ρ : Type} {root found found' : Octafile τ} {location other : List Name}
  {key key' : Name} {task task' : τ}

def rootText (path : Name) : Name := if [':', ':'] <+: path then path.drop 2 else path

/-- A name without a wildcard that is read as the location and the key of its task. -/
structure Plain (root : Octafile τ) (location : List Name) (key : Name) : Prop where
  colonless : ':' ∉ key
  key_nonempty : key ≠ []
  nonempty : [] ∉ location.flatMap segments
  first : ∀ other target, root.descend other = some target →
    other.flatMap segments = location.flatMap segments → other = location ∨ Precedes location other

/-- A name with a wildcard that is a pattern for its own task only. -/
structure Wild (root : Octafile τ) (location : List Name) (key name : Name) : Prop where
  relative : ¬[':'] <+: rootText name
  alone : ∀ other found' key' task', root.HasTask other found' key' task' →
    (matchesSegments (segments (rootText name)) (found'.namespacePath ++ [key']) = true ↔
      other = location ∧ key' = key)

def Addressable (root : Octafile τ) (location : List Name) (key name : Name) : Prop :=
  if '*' ∈ name then Wild root location key name else Plain root location key

structure NamesIdentify (root : Octafile τ) : Prop where
  distinct : ∀ location found key task other found' key' task',
    root.HasTask location found key task → root.HasTask other found' key' task' →
      join (found.namespacePath ++ [key]) = join (found'.namespacePath ++ [key']) →
        location = other ∧ key = key'
  found : ∀ r ∈ root.findByPath [] ['*', '*'], root.findByPath [] r.name = [r]

/-! ## Results from the root -/

theorem Octafile.HasTask.unique (h : root.HasTask location found key task)
    (h' : root.HasTask location found' key task') : found' = found ∧ task' = task := by
  obtain ⟨hl, ht⟩ := h
  obtain ⟨hl', ht'⟩ := h'
  rw [hl] at hl'
  cases hl'
  rw [ht] at ht'
  cases ht'
  exact ⟨rfl, rfl⟩

theorem result_inj (h : found.result location key task = found'.result other key' task') :
    location = other ∧ key = key' := by
  have hl := congrArg FindResult.location h
  have ho : found = found' := congrArg FindResult.octafile h
  subst ho
  exact ⟨hl, join_concat_inj (congrArg FindResult.name h)⟩

theorem WellFormedAt.name_eq (h : WellFormedAt [] root)
    (htask : root.HasTask location found key task) :
    join (found.namespacePath ++ [key]) = join (location ++ [key]) :=
  h.namespaces location found htask.located key

theorem findByPath_root (path : Name) : root.findByPath [] path =
      if [':'] <+: rootText path then [] else root.findBelow [] (rootText path) := by
  unfold Octafile.findByPath rootText
  by_cases h : [':', ':'] <+: path
  · simp only [if_pos h, if_true]
  · simp only [if_neg h, if_true]

variable {name : Name}

theorem nil_mem_segments (h : [':'] <+: name) : [] ∈ segments name := by
  obtain ⟨rest, rfl⟩ := h
  have hs : segments ([] ++ ':' :: rest) = segments [] ++ segments rest :=
    splitOn_append_cons_self [] rest
  rw [nil_append] at hs
  rw [singleton_append, hs]
  exact mem_append_left _ mem_cons_self

theorem rootText_of_not_colon (h : ¬[':'] <+: name) : rootText name = name := by
  refine if_neg fun hr => h ?_
  exact List.IsPrefix.trans ⟨[':'], rfl⟩ hr

theorem star_mem_rootText : '*' ∈ rootText name ↔ '*' ∈ name := by
  unfold rootText
  split
  · rename_i h
    obtain ⟨rest, rfl⟩ := h
    simp
  · rfl

/-! ## Names without a wildcard -/

theorem segments_join_concat (location : List Name) (key : Name) :
    segments (join (location ++ [key])) = location.flatMap segments ++ segments key := by
  rw [segments_join (by simp), flatMap_append, flatMap_singleton]

theorem findExact_eq_some {path : Name} {r : FindResult τ} : root.findExact [] path = some r ↔
      ∃ location found key task, root.HasTask location found key task ∧ Plain root location key ∧
        path = join (location ++ [key]) ∧ r = found.result location key task := by
  obtain ⟨parts, name, hp⟩ : ∃ parts name, segments path = parts ++ [name] :=
    ⟨_, _, (dropLast_append_getLast (segments_ne_nil path)).symm⟩
  have hc : ∀ part ∈ parts, ':' ∉ part := fun part hpr =>
    not_mem_of_mem_segments (hp ▸ mem_append_left _ hpr : part ∈ segments path)
  have hn : ':' ∉ name :=
    not_mem_of_mem_segments (hp ▸ mem_append_right _ mem_cons_self : name ∈ segments path)
  unfold Octafile.findExact
  simp only [hp, getLastD_concat, dropLast_concat, nil_append,
    Option.bind_eq_bind, Option.ite_none_left_eq_some, Option.bind_eq_some_iff, not_or]
  constructor
  · rintro ⟨⟨hno, ha⟩, ⟨location, found⟩, hf, task, ht, hr⟩
    cases hr
    obtain ⟨hl, hfl, hf⟩ := (findDescendant_eq_some hc).mp hf
    refine ⟨location, found, name, task, ⟨hl, ht⟩, ⟨hn, hno, ?_, ?_⟩, ?_, rfl⟩
    · rw [hfl]
      exact ha
    · rw [hfl]
      exact hf
    · apply segments_injective
      rw [segments_join_concat, segments_of_not_mem hn, hfl, hp]
  · rintro ⟨location, found, key, task, ⟨hl, ht⟩, hpl, rfl, rfl⟩
    rw [segments_join_concat, segments_of_not_mem hpl.colonless] at hp
    obtain ⟨rfl, hk⟩ := append_inj' hp rfl
    cases hk
    have hf := (findDescendant_eq_some hc).mpr ⟨hl, rfl, hpl.first⟩
    exact ⟨⟨hpl.key_nonempty, hpl.nonempty⟩, _, hf, task, ht, rfl⟩

theorem findByPath_plain (h : WellFormedAt [] root) (htask : root.HasTask location found key task)
    (hstar : '*' ∉ join (found.namespacePath ++ [key])) :
    root.findByPath [] (join (found.namespacePath ++ [key])) =
        [found.result location key task] ↔ Plain root location key := by
  have hn := h.name_eq htask
  have hb : root.findBelow [] (rootText (join (found.namespacePath ++ [key]))) =
      (root.findExact [] (rootText (join (found.namespacePath ++ [key])))).toList :=
    if_pos (mt star_mem_rootText.mp hstar)
  rw [findByPath_root, hb]
  constructor
  · intro hf
    split at hf
    · cases hf
    obtain ⟨loc', found', key', task', ht', hp, ht, hr⟩ :=
      findExact_eq_some.mp (Option.toList_eq_singleton_iff.mp hf)
    obtain ⟨rfl, rfl⟩ := result_inj hr
    exact hp
  intro hp
  have hc : ¬[':'] <+: join (location ++ [key]) := by
    intro hc
    have hm := nil_mem_segments hc
    rw [segments_join_concat, segments_of_not_mem hp.colonless] at hm
    obtain hm | hm := mem_append.mp hm
    · exact hp.nonempty hm
    · exact hp.key_nonempty (mem_singleton.mp hm).symm
  rw [hn, rootText_of_not_colon hc, if_neg hc, Option.toList_eq_singleton_iff]
  exact findExact_eq_some.mpr ⟨location, found, key, task, htask, hp, rfl, rfl⟩

/-! ## Names with a wildcard -/

theorem insertionSort_eq_singleton {α : Type} {r : α → α → Prop} [DecidableRel r] {l : List α}
    {a : α} : l.insertionSort r = [a] ↔ l = [a] := by
  constructor
  · intro h
    exact perm_singleton.mp (h ▸ (perm_insertionSort r l).symm)
  · rintro rfl
    rfl

theorem eq_singleton_iff_of_nodup {α : Type} {l : List α} {a : α} (h : l.Nodup) :
    l = [a] ↔ ∀ b, b ∈ l ↔ b = a := by
  constructor
  · rintro rfl b
    exact mem_singleton
  intro hm
  apply perm_singleton.mp
  rw [perm_ext_iff_of_nodup h (nodup_singleton a)]
  intro b
  rw [hm b, mem_singleton]

theorem findByPath_wild (h : WellFormedAt [] root) (hroot : root.namespacePath = [])
    (htask : root.HasTask location found key task)
    (hstar : '*' ∈ join (found.namespacePath ++ [key])) :
    root.findByPath [] (join (found.namespacePath ++ [key])) = [found.result location key task] ↔
      Wild root location key (join (found.namespacePath ++ [key])) := by
  set name := join (found.namespacePath ++ [key]) with hn
  have hb : root.findBelow [] (rootText name) =
      (root.collectMatching (segments (rootText name)) []).insertionSort
        fun left right => left.name ≤ right.name := by
    have hp : root.namespacePath ++ segments (rootText name) = segments (rootText name) := by
      rw [hroot, nil_append]
    rw [← hp]
    exact if_neg (not_not.mpr (star_mem_rootText.mpr hstar))
  have hm := @mem_collectMatching_iff _ [] (segments (rootText name)) [] _ h
  rw [findByPath_root, hb]
  constructor
  · intro hf
    split at hf
    · cases hf
    rename_i hre
    rw [insertionSort_eq_singleton, eq_singleton_iff_of_nodup (nodup_collectMatching h)] at hf
    refine ⟨hre, ?_⟩
    intro other found' key' task' ht'
    constructor
    · intro hma
      exact result_inj ((hf _).mp (hm.mpr ⟨other, found', key', task', ht', hma, rfl⟩))
    rintro ⟨rfl, rfl⟩
    obtain ⟨rest, found'', key'', task'', ht'', hma, hr⟩ := hm.mp ((hf _).mpr rfl)
    obtain ⟨hrs, rfl⟩ := result_inj hr
    rw [nil_append] at hrs
    subst hrs
    obtain ⟨rfl, -⟩ := ht'.unique ht''
    exact hma
  · intro hw
    rw [if_neg hw.relative, insertionSort_eq_singleton,
      eq_singleton_iff_of_nodup (nodup_collectMatching h)]
    intro r
    rw [hm]
    constructor
    · rintro ⟨rest, found', key', task', ht', hma, rfl⟩
      obtain ⟨rfl, rfl⟩ := (hw.alone _ _ _ _ ht').mp hma
      obtain ⟨rfl, rfl⟩ := htask.unique ht'
      rfl
    · rintro rfl
      exact ⟨location, found, key, task, htask, (hw.alone _ _ _ _ htask).mpr ⟨rfl, rfl⟩, rfl⟩

theorem findByPath_name (h : WellFormedAt [] root) (hroot : root.namespacePath = [])
    (htask : root.HasTask location found key task) :
    root.findByPath [] (join (found.namespacePath ++ [key])) = [found.result location key task] ↔
      Addressable root location key (join (found.namespacePath ++ [key])) := by
  unfold Addressable
  split
  · rename_i hs
    exact findByPath_wild h hroot htask hs
  · rename_i hs
    exact findByPath_plain h htask hs

theorem mem_findByPath_all (h : WellFormedAt [] root) (hroot : root.namespacePath = [])
    {r : FindResult τ} : r ∈ root.findByPath [] ['*', '*'] ↔
      ∃ location found key task, root.HasTask location found key task ∧
        r = found.result location key task := by
  have hs : root.findByPath [] ['*', '*'] =
      (root.collectMatching (root.namespacePath ++ segments ['*', '*']) []).insertionSort
        fun left right => left.name ≤ right.name := by
    rw [findByPath_root]
    rfl
  have hp : segments ['*', '*'] = [['*', '*']] := by decide
  rw [hs, mem_insertionSort, mem_collectMatching_iff h, hroot, hp]
  simp only [nil_append, matchesSegments_all, true_and]

/-- The names of a loaded hierarchy identify its tasks exactly when every one of them reads
back as the location and the key of its task. -/
theorem names_identify [DecidableEq ρ] {files : Files τ ρ} {fuel : ℕ} {path : ρ}
    {synthetic : List (SyntheticInclude ρ)} (hload : load files fuel path synthetic = .ok root) :
    NamesIdentify root ↔ ∀ location found key task, root.HasTask location found key task →
        Addressable root location key (join (found.namespacePath ++ [key])) := by
  obtain ⟨h, hroot⟩ := wellFormed_load hload
  constructor
  · intro hidentify location found key task htask
    apply (findByPath_name h hroot htask).mp
    exact hidentify.found _ ((mem_findByPath_all h hroot).mpr ⟨_, _, _, _, htask, rfl⟩)
  intro haddressable
  have hfind : ∀ location found key task, root.HasTask location found key task →
      root.findByPath [] (join (found.namespacePath ++ [key])) = [found.result location key task] :=
    fun location found key task htask =>
      (findByPath_name h hroot htask).mpr (haddressable location found key task htask)
  constructor
  · intro location found key task other found' key' task' htask htask' hname
    have hresults := hfind _ _ _ _ htask
    rw [hname, hfind _ _ _ _ htask'] at hresults
    exact result_inj (singleton_inj.mp hresults).symm
  intro r hr
  obtain ⟨location, found, key, task, htask, rfl⟩ := (mem_findByPath_all h hroot).mp hr
  exact hfind location found key task htask

/-- A root file (`false`) that includes another one as `a`. -/
def twoFiles (rootTask childTask : Name) : Files Unit Bool where
  parse path := .ok <|
    if path then ⟨[(childTask, ())], [], by decide⟩
    else ⟨[(rootTask, ())], [(['a'], ⟨true, false, false⟩)], by decide⟩
  resolve _ file := .file file
  location := id
  markInternal := id

def twoOctafiles (rootTask childTask : Name) : Octafile Unit :=
  .mk [] [(rootTask, ())] [(['a'], .mk [['a']] [(childTask, ())] [])]

theorem descend_twoOctafiles {rootTask childTask : Name}
    {found : Octafile Unit} (h : (twoOctafiles rootTask childTask).descend location = some found) :
    location = [] ∧ found = twoOctafiles rootTask childTask ∨
      location = [['a']] ∧ found = .mk [['a']] [(childTask, ())] [] := by
  cases location with
  | nil =>
    cases h
    exact .inl ⟨rfl, rfl⟩
  | cons key rest =>
    obtain ⟨child, hc, hr⟩ := Option.bind_eq_some_iff.mp h
    have hk := IndexMap.mem_of_lookup hc
    obtain hk := mem_singleton.mp hk
    cases hk
    cases rest with
    | nil =>
      cases hr
      exact .inr ⟨rfl, rfl⟩
    | cons next rest => cases hr

theorem names_identify_two :
    load (twoFiles ['b'] ['c']) 2 false [] = .ok (twoOctafiles ['b'] ['c']) ∧
      NamesIdentify (twoOctafiles ['b'] ['c']) := by
  have hload : load (twoFiles ['b'] ['c']) 2 false [] = .ok (twoOctafiles ['b'] ['c']) := rfl
  refine ⟨hload, (names_identify hload).mpr ?_⟩
  rintro location found key task ⟨hlocated, htask⟩
  obtain ⟨rfl, rfl⟩ | ⟨rfl, rfl⟩ := descend_twoOctafiles hlocated
  · cases mem_singleton.mp (IndexMap.mem_of_lookup htask)
    refine (if_neg (by decide)).mpr ⟨by decide, by decide, by decide, ?_⟩
    intro other target hother hflat
    obtain ⟨rfl, -⟩ | ⟨rfl, -⟩ := descend_twoOctafiles hother
    · exact .inl rfl
    · cases hflat
  cases mem_singleton.mp (IndexMap.mem_of_lookup htask)
  refine (if_neg (by decide)).mpr ⟨by decide, by decide, by decide, ?_⟩
  intro other target hother hflat
  obtain ⟨rfl, -⟩ | ⟨rfl, -⟩ := descend_twoOctafiles hother
  · cases hflat
  · exact .inl rfl

theorem key_with_colon_clashes : load (twoFiles ['a', ':', 'b'] ['b']) 2 false [] =
        .ok (twoOctafiles ['a', ':', 'b'] ['b']) ∧
      ¬NamesIdentify (twoOctafiles ['a', ':', 'b'] ['b']) := by
  refine ⟨rfl, ?_⟩
  intro h
  have hclash := h.distinct [] _ ['a', ':', 'b'] () [['a']] _ ['b'] () ⟨rfl, rfl⟩ ⟨rfl, rfl⟩ rfl
  cases hclash.1

end Octa.Finder
