import Mathlib.Order.Lattice
import Mathlib.Data.List.Basic

/-!
# Ordered maps

A map is the list of its entries in increasing order of their keys.
-/

variable {κ α : Type} [LinearOrder κ]

/-- The entries of a map, with keys in strictly increasing order. -/
structure OrderedMap (κ α : Type) [LinearOrder κ] where
  entries : List (κ × α)
  sorted : entries.Pairwise fun a b => a.1 < b.1

namespace OrderedMap

open List

def empty : OrderedMap κ α := ⟨[], .nil⟩

def insertEntry (key : κ) (value : α) : List (κ × α) → List (κ × α)
  | [] => [(key, value)]
  | entry :: rest =>
    if key < entry.1 then (key, value) :: entry :: rest
    else if key = entry.1 then (key, value) :: rest
    else entry :: insertEntry key value rest

variable {key : κ} {l : List (κ × α)} {entry : κ × α}

theorem mem_insertEntry {val : α} (hsort : l.Pairwise fun a b => a.1 < b.1) :
    entry ∈ insertEntry key val l ↔ entry = (key, val) ∨ entry ∈ l ∧ entry.1 ≠ key := by
  induction l with
  | nil => simp [insertEntry]
  | cons first rest ih =>
    obtain ⟨hf, hr⟩ := pairwise_cons.mp hsort
    have hi := ih hr
    unfold insertEntry
    split
    · next hl =>
      have hne : ∀ e ∈ first :: rest, e.1 ≠ key := by
        intro e he
        rcases mem_cons.mp he with rfl | he
        · exact hl.ne'
        · exact (hl.trans (hf e he)).ne'
      simp only [mem_cons] at hne ⊢
      constructor
      · rintro (h | h)
        · exact .inl h
        · exact .inr ⟨h, hne entry h⟩
      rintro (h | ⟨h, -⟩)
      · exact .inl h
      · exact .inr h
    · split
      · next heq =>
        have hne : ∀ e ∈ rest, e.1 ≠ key := fun e he => heq ▸ (hf e he).ne'
        simp only [mem_cons]
        constructor
        · rintro (h | h)
          · exact .inl h
          · exact .inr ⟨.inr h, hne entry h⟩
        rintro (h | ⟨rfl | h, hk⟩)
        · exact .inl h
        · exact absurd heq.symm hk
        · exact .inr h
      · next hne =>
        simp only [mem_cons, hi]
        constructor
        · rintro (rfl | h | ⟨h, hk⟩)
          · exact .inr ⟨.inl rfl, fun h => hne h.symm⟩
          · exact .inl h
          · exact .inr ⟨.inr h, hk⟩
        rintro (h | ⟨h | h, hk⟩)
        · exact .inr (.inl h)
        · exact .inl h
        · exact .inr (.inr ⟨h, hk⟩)

theorem insertEntry_sorted {val : α} (hsort : l.Pairwise fun a b => a.1 < b.1) :
    (insertEntry key val l).Pairwise fun a b => a.1 < b.1 := by
  induction l with
  | nil => simp [insertEntry]
  | cons first rest ih =>
    obtain ⟨hf, hr⟩ := pairwise_cons.mp hsort
    unfold insertEntry
    split
    · next hl =>
      refine pairwise_cons.mpr ⟨?_, hsort⟩
      intro e he
      rcases mem_cons.mp he with rfl | he
      · exact hl
      · exact hl.trans (hf e he)
    next hg =>
    split
    · next heq => exact pairwise_cons.mpr ⟨fun e he => heq ▸ hf e he, hr⟩
    next hne =>
    refine pairwise_cons.mpr ⟨?_, ih hr⟩
    intro e he
    rcases (mem_insertEntry hr).mp he with rfl | ⟨he, -⟩
    · exact lt_of_le_of_ne (not_lt.mp hg) fun h => hne h.symm
    · exact hf e he

theorem length_insertEntry_le (key : κ) (val : α) (l : List (κ × α)) :
    (insertEntry key val l).length ≤ l.length + 1 := by
  induction l with
  | nil => exact le_rfl
  | cons first rest ih =>
    unfold insertEntry
    split
    · exact le_rfl
    split
    · exact Nat.le_succ _
    · exact Nat.succ_le_succ ih

def insert (m : OrderedMap κ α) (key : κ) (value : α) : OrderedMap κ α :=
  ⟨insertEntry key value m.entries, insertEntry_sorted m.sorted⟩

variable {m : OrderedMap κ α}

theorem mem_insert {val : α} : entry ∈ (m.insert key val).entries ↔
      entry = (key, val) ∨ entry ∈ m.entries ∧ entry.1 ≠ key :=
  mem_insertEntry m.sorted

def contains (m : OrderedMap κ α) (key : κ) : Bool := m.entries.any fun e => decide (e.1 = key)

theorem contains_insert {val : α} {key' : κ} :
    (m.insert key val).contains key' = true ↔ key' = key ∨ m.contains key' = true := by
  simp only [contains, any_eq_true, decide_eq_true_eq, mem_insert]
  constructor
  · rintro ⟨e, rfl | ⟨he, -⟩, rfl⟩
    · exact .inl rfl
    · exact .inr ⟨e, he, rfl⟩
  rintro (rfl | ⟨e, he, rfl⟩)
  · exact ⟨_, .inl rfl, rfl⟩
  by_cases hk : e.1 = key
  · exact ⟨_, .inl rfl, hk.symm⟩
  · exact ⟨e, .inr ⟨he, hk⟩, rfl⟩

theorem ext_mem {m' : OrderedMap κ α} (h : ∀ e, e ∈ m.entries ↔ e ∈ m'.entries) : m = m' := by
  obtain ⟨l, hl⟩ := m
  obtain ⟨l', hl'⟩ := m'
  have hp : l.Perm l' := (perm_ext_iff_of_nodup (hl.imp fun hlt he => (he ▸ hlt).false)
      (hl'.imp fun hlt he => (he ▸ hlt).false)).mpr h
  obtain rfl := hp.eq_of_pairwise (fun _ _ _ _ hlt hg => absurd hlt hg.asymm) hl hl'
  rfl

theorem insert_comm (m : OrderedMap κ α) {key' : κ} (h : key ≠ key') (value val' : α) :
    (m.insert key value).insert key' val' = (m.insert key' val').insert key value := by
  apply ext_mem
  intro e
  simp only [mem_insert]
  constructor
  · rintro (rfl | ⟨rfl | ⟨hm, hk⟩, hk'⟩)
    · exact .inr ⟨.inl rfl, h.symm⟩
    · exact .inl rfl
    · exact .inr ⟨.inr ⟨hm, hk'⟩, hk⟩
  rintro (rfl | ⟨rfl | ⟨hm, hk'⟩, hk⟩)
  · exact .inr ⟨.inl rfl, h⟩
  · exact .inl rfl
  · exact .inr ⟨.inr ⟨hm, hk⟩, hk'⟩

/-- Inserting entries with distinct keys, by any operation that replaces the entry of a key. -/
theorem mem_foldl_replacing {μ ε ι : Type} {entries : μ → List ε} {key : ε → ι}
    {replace : μ → ε → μ} (hins : ∀ m e x, x ∈ entries (replace m e) ↔
      x = e ∨ x ∈ entries m ∧ key x ≠ key e) {l : List ε} (hdist : (l.map key).Nodup) {m : μ}
    {x : ε} : x ∈ entries (l.foldl replace m) ↔ x ∈ l ∨ x ∈ entries m ∧ key x ∉ l.map key := by
  induction l generalizing m with
  | nil => simp
  | cons first rest ih =>
    rw [map_cons, nodup_cons] at hdist
    rw [foldl_cons, ih hdist.2, hins]
    simp only [mem_cons, map_cons, not_or]
    constructor
    · rintro (h | ⟨rfl | ⟨h, hne⟩, hr⟩)
      · exact .inl (.inr h)
      · exact .inl (.inl rfl)
      · exact .inr ⟨h, hne, hr⟩
    rintro ((rfl | h) | ⟨h, hne, hr⟩)
    · exact .inr ⟨.inl rfl, hdist.1⟩
    · exact .inl h
    · exact .inr ⟨.inr ⟨h, hne⟩, hr⟩

theorem mem_foldl_insert (hdist : (l.map Prod.fst).Nodup) :
    entry ∈ (l.foldl (fun m entry => m.insert entry.1 entry.2) m).entries ↔
      entry ∈ l ∨ entry ∈ m.entries ∧ entry.1 ∉ l.map Prod.fst :=
  mem_foldl_replacing (fun _ _ _ => mem_insert) hdist

/-- The map of a list of entries, of which later ones replace earlier ones. -/
def ofEntries (l : List (κ × α)) : OrderedMap κ α :=
  l.foldl (fun m entry => m.insert entry.1 entry.2) empty

theorem mem_ofEntries (hdist : (l.map Prod.fst).Nodup) :
    entry ∈ (ofEntries l).entries ↔ entry ∈ l := by
  rw [ofEntries, mem_foldl_insert hdist]
  simp [empty]

theorem perm_ofEntries (hdist : (l.map Prod.fst).Nodup) : l.Perm (ofEntries l).entries :=
  (perm_ext_iff_of_nodup (Pairwise.of_map _ (fun _ _ h he => h (congrArg _ he)) hdist)
    ((ofEntries l).sorted.imp fun hl he => (he ▸ hl).false)).mpr fun _ => (mem_ofEntries hdist).symm

theorem ofEntries_of_sorted (h : l.Pairwise fun a b => a.1 < b.1) : ofEntries l = ⟨l, h⟩ := by
  have hd : (l.map Prod.fst).Nodup := pairwise_map.mpr (h.imp fun hl => hl.ne)
  exact ext_mem fun entry => mem_ofEntries hd

def values (m : OrderedMap κ α) : List α := m.entries.map Prod.snd

theorem mem_values_insert {f : κ → α} (hm : ∀ e ∈ m.entries, e.2 = f e.1) {v : α} :
    v ∈ (m.insert key (f key)).values ↔ v = f key ∨ v ∈ m.values := by
  simp only [values, mem_map, mem_insert]
  constructor
  · rintro ⟨e, rfl | ⟨he, -⟩, rfl⟩
    · exact .inl rfl
    · exact .inr ⟨e, he, rfl⟩
  rintro (rfl | ⟨e, he, rfl⟩)
  · exact ⟨_, .inl rfl, rfl⟩
  by_cases hk : e.1 = key
  · exact ⟨_, .inl rfl, by rw [hm e he, hk]⟩
  · exact ⟨e, .inr ⟨he, hk⟩, rfl⟩

end OrderedMap
