import Mathlib.Data.List.Sort
import Mathlib.Data.List.Lex
import Mathlib.Data.Char
import Octa.Finder.Octafile

/-!
# The finder

A path without a wildcard is cut at its colons; the keys of includes may cover
several of the parts, and the longest one is tried first.
-/

namespace Octa.Finder

open List

variable {τ : Type}

/-- `location` are the keys under which the Octafile was included: they tell Octafiles apart. -/
structure FindResult (τ : Type) where
  name : Name
  location : List Name
  octafile : Octafile τ
  task : τ

def matchesSuffix (accepts : List Name → Bool) : List Name → Bool
  | [] => accepts []
  | part :: rest => accepts (part :: rest) || matchesSuffix accepts rest

def matchesSegments : List Name → List Name → Bool
  | [], candidate => candidate.isEmpty
  | head :: tail, candidate =>
    if head = ['*', '*'] then matchesSuffix (matchesSegments tail) candidate
    else
      match candidate with
      | [] => false
      | part :: rest => (head == ['*'] || head == part) && matchesSegments tail rest

namespace Octafile

def result (octafile : Octafile τ) (location : List Name) (key : Name) (task : τ) :
    FindResult τ :=
  ⟨join (octafile.namespacePath ++ [key]), location, octafile, task⟩

mutual

def collectMatching (pattern : List Name) (location : List Name) :
    Octafile τ → List (FindResult τ)
  | .mk namespacePath tasks included =>
    (tasks.filter fun entry => matchesSegments pattern (namespacePath ++ [entry.1])).map
        (fun entry => (Octafile.mk namespacePath tasks included).result location entry.1 entry.2) ++
      collectIncluded pattern location included

def collectIncluded (pattern : List Name) (location : List Name) :
    List (Name × Octafile τ) → List (FindResult τ)
  | [] => []
  | (key, octafile) :: rest =>
    octafile.collectMatching pattern (location ++ [key]) ++
      collectIncluded pattern location rest

end

/-- One round of `find_descendant`: the include whose key covers the first `consumed` parts,
and the search below it. -/
def findThrough (search : Octafile τ → List Name → Option (List Name × Octafile τ))
    (octafile : Octafile τ) (parts : List Name) (consumed : ℕ) :
    Option (List Name × Octafile τ) :=
  let key := join (parts.take consumed)
  (octafile.included.lookup key).bind fun child =>
    (search child (parts.drop consumed)).map fun found => (key :: found.1, found.2)

/-- `find_descendant`, with the keys on the way to the Octafile; every key uses up a part of the
path, so that its length is enough `fuel`. -/
def findDescendant : ℕ → Octafile τ → List Name → Option (List Name × Octafile τ)
  | 0, octafile, parts => if parts = [] then some ([], octafile) else none
  | fuel + 1, octafile, parts =>
    if parts = [] then some ([], octafile)
    else (List.range parts.length).reverse.findSome? fun i =>
      findThrough (findDescendant fuel) octafile parts (i + 1)

def findExact (octafile : Octafile τ) (location : List Name) (path : Name) :
    Option (FindResult τ) :=
  let parts := segments path
  let taskName := parts.getLastD []
  let namespacePath := parts.dropLast
  if taskName = [] ∨ [] ∈ namespacePath then none
  else do
    let (keys, found) ← findDescendant namespacePath.length octafile namespacePath
    let task ← found.tasks.lookup taskName
    return found.result (location ++ keys) taskName task

/-- The part of `find_by_path` behind the choice of the Octafile. -/
def findBelow (root : Octafile τ) (current : List Name) (path : Name) : List (FindResult τ) :=
  match root.descend current with
  | none => []
  | some octafile =>
    if '*' ∉ path then (octafile.findExact current path).toList
    else
      (octafile.collectMatching (octafile.namespacePath ++ segments path) current).insertionSort
        fun left right => left.name ≤ right.name

/-- `find_by_path` from the Octafile at `current`. -/
def findByPath (root : Octafile τ) (current : List Name) (path : Name) : List (FindResult τ) :=
  let (current, path) :=
    if [':', ':'] <+: path then ([], path.drop 2) else (current, path)
  if [':'] <+: path then
    if current = [] then [] else root.findBelow current.dropLast (path.drop 1)
  else root.findBelow current path

end Octafile

/-! ## Wildcards -/

theorem matchesSuffix_nil {accepts : List Name → Bool} (h : accepts [] = true)
    (path : List Name) : matchesSuffix accepts path = true := by
  induction path with
  | nil => exact h
  | cons part rest ih => simp [matchesSuffix, ih]

theorem matchesSegments_all (cand : List Name) : matchesSegments [['*', '*']] cand = true := by
  unfold matchesSegments
  rw [if_pos rfl]
  exact matchesSuffix_nil rfl cand

theorem mem_collectIncluded {pat loc : List Name} {included : List (Name × Octafile τ)}
    {r : FindResult τ} : r ∈ Octafile.collectIncluded pat loc included ↔
      ∃ e ∈ included, r ∈ e.2.collectMatching pat (loc ++ [e.1]) := by
  induction included with
  | nil => simp [Octafile.collectIncluded]
  | cons e rest ih =>
    rw [Octafile.collectIncluded, mem_append, ih]
    simp

theorem mem_collectMatching {pat loc : List Name} {oct : Octafile τ} {r : FindResult τ} :
    r ∈ oct.collectMatching pat loc ↔
      (∃ e ∈ oct.tasks, matchesSegments pat (oct.namespacePath ++ [e.1]) = true ∧
          r = oct.result loc e.1 e.2) ∨
      ∃ e ∈ oct.included, r ∈ e.2.collectMatching pat (loc ++ [e.1]) := by
  obtain ⟨namespacePath, tasks, included⟩ := oct
  rw [Octafile.collectMatching, mem_append, mem_collectIncluded, mem_map]
  simp only [mem_filter, Octafile.tasks, Octafile.namespacePath, Octafile.included]
  constructor
  · rintro (⟨e, ⟨hm, hma⟩, rfl⟩ | h)
    · exact .inl ⟨e, hm, hma, rfl⟩
    · exact .inr h
  rintro (⟨e, hm, hma, rfl⟩ | h)
  · exact .inl ⟨e, ⟨hm, hma⟩, rfl⟩
  · exact .inr h

theorem WellFormedAt.child {base : List Name} {oct child : Octafile τ} {key : Name}
    (h : WellFormedAt base oct) (hch : oct.included.lookup key = some child) :
    WellFormedAt (base ++ [key]) child := by
  have hd : ∀ loc found, child.descend loc = some found →
      oct.descend (key :: loc) = some found := by
    intro loc found hf
    rw [Octafile.descend, hch]
    exact hf
  refine ⟨?_, ?_, ?_⟩
  · exact fun loc found hf => h.tasks _ _ (hd loc found hf)
  · exact fun loc found hf => h.included _ _ (hd loc found hf)
  intro loc found hf
  have ht := h.namespaces _ _ (hd loc found hf)
  rw [append_assoc]
  exact ht

theorem descend_cons_of_mem {base : List Name} {oct found : Octafile τ} {e : Name × Octafile τ}
    {rest : List Name} (h : WellFormedAt base oct) (he : e ∈ oct.included)
    (hrest : e.2.descend rest = some found) : oct.descend (e.1 :: rest) = some found := by
  rw [Octafile.descend, IndexMap.lookup_of_mem (h.included [] oct rfl) he]
  exact hrest

theorem sizeOf_included {octafile : Octafile τ} {entry : Name × Octafile τ}
    (h : entry ∈ octafile.included) : sizeOf entry.2 < sizeOf octafile := by
  obtain ⟨namespacePath, tasks, included⟩ := octafile
  have hl := sizeOf_lt_of_mem h
  have hp : sizeOf entry.2 < sizeOf entry := by
    obtain ⟨name, child⟩ := entry
    simp only [Prod.mk.sizeOf_spec]
    omega
  simp only [Octafile.included] at hl
  simp only [Octafile.mk.sizeOf_spec]
  omega

theorem mem_collectMatching_iff {base pat loc : List Name} {oct : Octafile τ}
    (h : WellFormedAt base oct) {r : FindResult τ} : r ∈ oct.collectMatching pat loc ↔
      ∃ rest found key task, oct.HasTask rest found key task ∧
        matchesSegments pat (found.namespacePath ++ [key]) = true ∧
        r = found.result (loc ++ rest) key task := by
  constructor
  · intro hr
    induction hs : sizeOf oct using Nat.strong_induction_on generalizing oct base loc with
    | _ size ih =>
      obtain ⟨e, he, hma, rfl⟩ | ⟨e, he, hr⟩ := mem_collectMatching.mp hr
      · refine ⟨[], oct, e.1, e.2, ⟨rfl, ?_⟩, hma, ?_⟩
        · exact IndexMap.lookup_of_mem (h.tasks [] oct rfl) he
        · rw [append_nil]
      have hc := h.child (IndexMap.lookup_of_mem (h.included [] oct rfl) he)
      obtain ⟨rest, found, key, task, ht, hma, rfl⟩ := ih _ (hs ▸ sizeOf_included he) hc hr rfl
      refine ⟨e.1 :: rest, found, key, task, ⟨?_, ht.task⟩, hma, ?_⟩
      · exact descend_cons_of_mem h he ht.located
      · rw [append_assoc, singleton_append]
  · rintro ⟨rest, found, key, task, ⟨hl, ht⟩, hma, rfl⟩
    induction rest generalizing oct base loc with
    | nil =>
      cases hl
      refine mem_collectMatching.mpr (.inl ⟨(key, task), IndexMap.mem_of_lookup ht, hma, ?_⟩)
      rw [append_nil]
    | cons name rest ih =>
      obtain ⟨child, hc, hre⟩ := Option.bind_eq_some_iff.mp hl
      have hm := @ih _ (loc ++ [name]) child (h.child hc) hre
      rw [append_assoc, singleton_append] at hm
      exact mem_collectMatching.mpr (.inr ⟨(name, child), IndexMap.mem_of_lookup hc, hm⟩)

theorem join_concat_inj {parts : List Name} {key key' : Name}
    (h : join (parts ++ [key]) = join (parts ++ [key'])) : key = key' := by
  by_cases hp : parts = []
  · rw [hp] at h
    simpa [join, List.intercalate] using h
  · rw [join_concat hp, join_concat hp] at h
    exact List.cons.inj (append_cancel_left h) |>.2

theorem location_extends {base pat loc : List Name} {oct : Octafile τ}
    (h : WellFormedAt base oct) {r : FindResult τ}
    (hr : r ∈ oct.collectMatching pat loc) : loc <+: r.location := by
  obtain ⟨rest, found, key, task, -, -, rfl⟩ := (mem_collectMatching_iff h).mp hr
  exact prefix_append loc rest

theorem nodup_collectIncluded {base pat loc : List Name} {included : List (Name × Octafile τ)}
    (hdist : (included.map Prod.fst).Nodup)
    (h : ∀ en ∈ included, WellFormedAt (base ++ [en.1]) en.2) (hno : ∀ en ∈ included,
      (en.2.collectMatching pat (loc ++ [en.1])).Nodup) :
    (Octafile.collectIncluded pat loc included).Nodup := by
  induction included with
  | nil => exact nodup_nil
  | cons en rest ih =>
    rw [map_cons, nodup_cons] at hdist
    rw [Octafile.collectIncluded, nodup_append]
    refine ⟨hno en mem_cons_self, ?_, ?_⟩
    · exact ih hdist.2 (fun e he => h e (mem_cons_of_mem _ he))
        (fun e he => hno e (mem_cons_of_mem _ he))
    rintro r hr _ hr' rfl
    obtain ⟨other, ho, hr'⟩ := mem_collectIncluded.mp hr'
    have hl := location_extends (h en mem_cons_self) hr
    have hri := location_extends (h other (mem_cons_of_mem _ ho)) hr'
    have hke : loc ++ [en.1] = loc ++ [other.1] :=
      (prefix_of_prefix_length_le hl hri (by simp)).eq_of_length (by simp)
    have hk : en.1 = other.1 := by simpa using hke
    exact hdist.1 (mem_map.mpr ⟨other, ho, hk.symm⟩)

theorem nodup_collectMatching {base pat loc : List Name} {oct : Octafile τ}
    (h : WellFormedAt base oct) : (oct.collectMatching pat loc).Nodup := by
  induction hs : sizeOf oct using Nat.strong_induction_on generalizing oct base loc with
  | _ size ih =>
    have hd := h.included [] oct rfl
    have ht := h.tasks [] oct rfl
    have hc : ∀ e ∈ oct.included, WellFormedAt (base ++ [e.1]) e.2 :=
      fun e he => h.child (IndexMap.lookup_of_mem hd he)
    have hn : ∀ e ∈ oct.included, (e.2.collectMatching pat (loc ++ [e.1])).Nodup :=
      fun e he => ih _ (hs ▸ sizeOf_included he) (hc e he) rfl
    obtain ⟨namespacePath, tasks, included⟩ := oct
    rw [Octafile.collectMatching, nodup_append]
    refine ⟨?_, nodup_collectIncluded hd hc hn, ?_⟩
    · apply List.Nodup.map_on
      · intro e he e' he' hre
        have hk := join_concat_inj (congrArg FindResult.name hre)
        exact inj_on_of_nodup_map ht (mem_filter.mp he).1 (mem_filter.mp he').1 hk
      · exact (List.Nodup.of_map _ ht).filter _
    rintro r hr _ hr' rfl
    obtain ⟨e, -, rfl⟩ := mem_map.mp hr
    obtain ⟨other, ho, hr'⟩ := mem_collectIncluded.mp hr'
    have hl := (location_extends (hc other ho) hr').length_le
    simp only [Octafile.result, length_append, length_singleton] at hl
    omega

/-! ## Exact paths -/

/-- The first of two locations is tried before the second one: where they part, its key covers
more of the path. -/
def Precedes : List Name → List Name → Prop
  | key :: rest, key' :: rest' =>
    (segments key').length < (segments key).length ∨ key = key' ∧ Precedes rest rest'
  | _, _ => False

theorem Precedes.asymm {left right : List Name} (h : Precedes left right) :
    ¬Precedes right left := by
  induction left generalizing right with
  | nil => cases h
  | cons key rest ih =>
    cases right with
    | nil => cases h
    | cons key' rest' =>
      intro h'
      obtain h | ⟨rfl, h⟩ := h
      · obtain h' | ⟨rfl, -⟩ := h'
        · omega
        · exact lt_irrefl _ h
      obtain h' | ⟨-, h'⟩ := h'
      · exact lt_irrefl _ h'
      · exact ih h h'

theorem findSome_reverse_range {β : Type} {f : ℕ → Option β} {n i : ℕ} {b : β} (hi : i < n)
    (h : f i = some b) :
    ∃ j b', i ≤ j ∧ j < n ∧ (List.range n).reverse.findSome? f = some b' ∧ f j = some b' ∧
      (j = i → b' = b) := by
  induction n with
  | zero => exact absurd hi (Nat.not_lt_zero i)
  | succ n ih =>
    rw [range_succ, reverse_append, reverse_singleton, singleton_append, List.findSome?_cons]
    cases hn : f n with
    | some b' =>
      refine ⟨n, b', Nat.le_of_lt_succ hi, Nat.lt_succ_self n, rfl, hn, ?_⟩
      rintro rfl
      rw [h] at hn
      exact (Option.some.inj hn).symm
    | none =>
      have hne : i ≠ n := by
        rintro rfl
        rw [h] at hn
        cases hn
      obtain ⟨j, b', hij, hjn, hf, hj, he⟩ := ih (by omega)
      exact ⟨j, b', hij, by omega, hf, hj, he⟩

theorem mem_of_findSome_reverse_range {β : Type} {f : ℕ → Option β} {n : ℕ} {b : β}
    (h : (List.range n).reverse.findSome? f = some b) : ∃ i < n, f i = some b := by
  obtain ⟨i, hi, hf⟩ := exists_of_findSome?_eq_some h
  rw [mem_reverse, mem_range] at hi
  exact ⟨i, hi, hf⟩

theorem segments_join_take {parts : List Name} (h : ∀ part ∈ parts, ':' ∉ part) {i : ℕ}
    (hi : i < parts.length) : segments (join (parts.take (i + 1))) = parts.take (i + 1) := by
  apply join_segments_join
  · exact fun part hp => h part (mem_of_mem_take hp)
  intro hn
  have hl := congrArg List.length hn
  rw [length_take, length_nil] at hl
  omega

theorem findThrough_eq_some {search : Octafile τ → List Name → Option (List Name × Octafile τ)}
    {oct found : Octafile τ} {parts keys : List Name} {consumed : ℕ} :
    oct.findThrough search parts consumed = some (keys, found) ↔
      ∃ child keys', oct.included.lookup (join (parts.take consumed)) = some child ∧
        search child (parts.drop consumed) = some (keys', found) ∧
        keys = join (parts.take consumed) :: keys' := by
  simp only [Octafile.findThrough, Option.bind_eq_some_iff, Option.map_eq_some_iff]
  constructor
  · rintro ⟨child, hc, ⟨keys', found'⟩, hs, he⟩
    cases he
    exact ⟨child, keys', hc, hs, rfl⟩
  · rintro ⟨child, keys', hc, hs, rfl⟩
    exact ⟨child, hc, (keys', found), hs, rfl⟩

theorem findDescendant_nil {fuel : ℕ} {oct : Octafile τ} :
    oct.findDescendant fuel [] = some ([], oct) := by
  cases fuel <;> exact if_pos rfl

theorem findDescendant_sound {fuel : ℕ} {oct found : Octafile τ} {parts keys : List Name}
    (hpa : ∀ part ∈ parts, ':' ∉ part)
    (h : oct.findDescendant fuel parts = some (keys, found)) :
    oct.descend keys = some found ∧ keys.flatMap segments = parts := by
  induction fuel generalizing oct parts keys with
  | zero =>
    obtain ⟨rfl, h⟩ := Option.ite_none_right_eq_some.mp h
    cases h
    exact ⟨rfl, rfl⟩
  | succ fuel ih =>
    unfold Octafile.findDescendant at h
    split at h
    · rename_i hn
      cases h
      exact ⟨rfl, hn.symm⟩
    obtain ⟨i, hi, h⟩ := mem_of_findSome_reverse_range h
    obtain ⟨child, keys', hc, hr, rfl⟩ := findThrough_eq_some.mp h
    obtain ⟨hd, hf⟩ := ih (fun p hp => hpa p (mem_of_mem_drop hp)) hr
    refine ⟨?_, ?_⟩
    · rw [Octafile.descend, hc]
      exact hd
    · rw [flatMap_cons, hf, segments_join_take hpa hi, take_append_drop]

theorem findDescendant_complete {fuel : ℕ} {oct target : Octafile τ}
    {parts other : List Name} (hfuel : parts.length ≤ fuel) (hpa : ∀ part ∈ parts, ':' ∉ part)
    (ho : oct.descend other = some target) (hflat : other.flatMap segments = parts) :
    ∃ keys found, oct.findDescendant fuel parts = some (keys, found) ∧
      (other = keys ∨ Precedes keys other) := by
  induction fuel generalizing oct parts other with
  | zero =>
    obtain rfl := length_eq_zero_iff.mp (Nat.le_zero.mp hfuel)
    cases other with
    | nil => exact ⟨[], oct, findDescendant_nil, .inl rfl⟩
    | cons key rest => exact absurd (append_eq_nil_iff.mp hflat).1 (segments_ne_nil key)
  | succ fuel ih =>
    cases other with
    | nil =>
      obtain rfl : parts = [] := hflat.symm
      exact ⟨[], oct, findDescendant_nil, .inl rfl⟩
    | cons key others =>
      rw [flatMap_cons] at hflat
      obtain ⟨child, hc, hot⟩ := Option.bind_eq_some_iff.mp ho
      -- the round of the search that uses this key
      obtain ⟨i, hi⟩ := Nat.exists_eq_succ_of_ne_zero
        (mt length_eq_zero_iff.mp (segments_ne_nil key))
      have ht : parts.take (i + 1) = segments key := by
        rw [← hflat]
        exact take_left' hi
      have hd : parts.drop (i + 1) = others.flatMap segments := by
        rw [← hflat]
        exact drop_left' hi
      have hl : i < parts.length := by
        rw [← hflat, length_append]
        omega
      have hs : (parts.drop (i + 1)).length ≤ fuel := by
        rw [length_drop]
        omega
      obtain ⟨keys, found, hf, hke⟩ := ih hs (fun p hp => hpa p (mem_of_mem_drop hp)) hot hd.symm
      have hk : join (parts.take (i + 1)) = key := by rw [ht, join_segments]
      have hr : oct.findThrough (Octafile.findDescendant fuel) parts (i + 1) =
          some (key :: keys, found) := by
        refine findThrough_eq_some.mpr ⟨child, keys, ?_, hf, by rw [hk]⟩
        rw [hk]
        exact hc
      obtain ⟨j, ⟨keys', found'⟩, hij, hj, hfi, hla, he⟩ := findSome_reverse_range
          (f := fun i => oct.findThrough (Octafile.findDescendant fuel) parts (i + 1))
          hl hr
      refine ⟨keys', found', ?_, ?_⟩
      · unfold Octafile.findDescendant
        rw [if_neg (ne_nil_of_length_pos (Nat.zero_lt_of_lt hl))]
        exact hfi
      obtain ⟨-, rest, -, -, rfl⟩ := findThrough_eq_some.mp hla
      obtain hij | rfl := Nat.lt_or_eq_of_le hij
      · refine .inr (.inl ?_)
        rw [segments_join_take hpa hj, length_take, hi]
        omega
      · cases he rfl
        exact hke.imp (congrArg _) fun h => .inr ⟨hk, h⟩

theorem findDescendant_eq_some {oct found : Octafile τ} {parts keys : List Name}
    (hpa : ∀ part ∈ parts, ':' ∉ part) :
    oct.findDescendant parts.length parts = some (keys, found) ↔
      oct.descend keys = some found ∧ keys.flatMap segments = parts ∧
        ∀ other target, oct.descend other = some target → other.flatMap segments = parts →
          other = keys ∨ Precedes keys other := by
  constructor
  · intro h
    obtain ⟨hd, hfl⟩ := findDescendant_sound hpa h
    refine ⟨hd, hfl, ?_⟩
    intro other target ho hf'
    obtain ⟨keys', found', h', hf⟩ := findDescendant_complete (le_refl _) hpa ho hf'
    rw [h] at h'
    cases h'
    exact hf
  rintro ⟨hd, hfl, hf⟩
  obtain ⟨keys', found', h, hbefore⟩ := findDescendant_complete (le_refl _) hpa hd hfl
  obtain ⟨hd', hf'⟩ := findDescendant_sound hpa h
  obtain rfl : keys' = keys := by
    obtain he | hafter := hf keys' found' hd' hf'
    · exact he
    obtain he | hbefore := hbefore
    · exact he.symm
    · exact absurd hbefore hafter.asymm
  rw [hd] at hd'
  cases hd'
  exact h

end Octa.Finder
