import Mathlib.Data.List.Basic

/-!
# Maps as lists of entries

The value of a key is that of the first entry with the key.
-/

abbrev IndexMap (κ α : Type) := List (κ × α)

namespace IndexMap

open List

variable {κ α : Type} [BEq κ] [LawfulBEq κ] {m : IndexMap κ α} {key : κ} {value : α}

theorem mem_of_lookup (h : m.lookup key = some value) : (key, value) ∈ m := by
  obtain ⟨l₁, l₂, rfl, -⟩ := lookup_eq_some_iff.mp h
  exact mem_append_right _ mem_cons_self

variable [DecidableEq κ]

theorem lookup_cons_ite (key key' : κ) (value : α) (m : IndexMap κ α) :
    ((key, value) :: m).lookup key' = if key' = key then some value else m.lookup key' := by
  by_cases h : key' = key
  · simp [h]
  · simp [lookup_cons, h, beq_false_of_ne h]

theorem lookup_of_mem (hdist : (m.map Prod.fst).Nodup) (h : (key, value) ∈ m) :
    m.lookup key = some value := by
  induction m with
  | nil => cases h
  | cons e rest ih =>
    rw [map_cons, nodup_cons] at hdist
    rw [lookup_cons_ite]
    obtain rfl | h := mem_cons.mp h
    · exact if_pos rfl
    rw [if_neg, ih hdist.2 h]
    rintro rfl
    exact hdist.1 (mem_map.mpr ⟨_, h, rfl⟩)

theorem mem_keys_iff : key ∈ m.map Prod.fst ↔ ∃ value, m.lookup key = some value := by
  induction m with
  | nil => simp
  | cons e rest ih =>
    rw [map_cons, mem_cons, ih, lookup_cons_ite]
    by_cases h : key = e.1 <;> simp [h]

theorem lookup_filter_ne (m : IndexMap κ α) (key key' : κ) :
    (m.filter fun e => e.1 ≠ key).lookup key' = if key' = key then none else m.lookup key' := by
  induction m with
  | nil => simp
  | cons e rest ih =>
    by_cases h : e.1 = key
    · rw [filter_cons_of_neg (by simpa using h), ih, lookup_cons_ite, h]
      split_ifs <;> rfl
    rw [filter_cons_of_pos (by simpa using h), lookup_cons_ite, lookup_cons_ite, ih]
    split_ifs with h₁ h₂
    · exact absurd (h₁.symm.trans h₂) h
    all_goals rfl

end IndexMap
