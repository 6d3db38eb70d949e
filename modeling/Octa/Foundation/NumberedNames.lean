import Mathlib.Data.List.Count
import Mathlib.Data.List.Nodup

/-!
# Names made distinct by ordinals

A list of names is rewritten so that every occurrence of some of the names gets
an ordinal, and the others stay as they are.
-/

namespace Numbering

open List

def numbered (name : String) (index : ℕ) : String := name ++ "_" ++ toString index

theorem notMem_toString {c : Char} (hdigit : c.isDigit = false) (n : ℕ) :
    c ∉ (toString n).toList := by
  rw [Nat.toString_eq_repr, Nat.toList_repr]
  intro h
  rw [Nat.isDigit_of_mem_toDigits (by decide) (by decide) h] at hdigit
  cases hdigit

theorem toString_injective {i j : ℕ} (h : toString i = toString j) : i = j := by
  have hv := congrArg (fun text : String => Nat.ofDigitChars 10 text.toList 0) h
  simpa [Nat.toString_eq_repr] using hv

theorem append_cons_inj {α : Type} {a : α} {xs ys ds es : List α} (hds : a ∉ ds) (hes : a ∉ es)
    (h : xs ++ a :: ds = ys ++ a :: es) : xs = ys ∧ ds = es := by
  obtain ⟨as, hy, ha⟩ | ⟨as, hx, ha⟩ := append_eq_append_iff.mp h
  · cases as with
    | nil =>
      rw [append_nil] at hy
      exact ⟨hy.symm, (List.cons.inj ha).2⟩
    | cons c as =>
      refine absurd ?_ hds
      rw [(List.cons.inj ha).2]
      exact mem_append_right _ mem_cons_self
  cases as with
  | nil =>
    rw [append_nil] at hx
    exact ⟨hx, (List.cons.inj ha).2.symm⟩
  | cons c as =>
    refine absurd ?_ hes
    rw [(List.cons.inj ha).2]
    exact mem_append_right _ mem_cons_self

section Number

variable (repeated : String → Bool)
variable {emitted : String → ℕ} {name first : String} {index : ℕ} {names : List String}

/-- Gives the next ordinal to every repeated name; `emitted` counts the ordinals given so far. -/
def number (emitted : String → ℕ) : List String → List String
  | [] => []
  | name :: rest =>
    if repeated name then
      numbered name (emitted name + 1) ::
        number (Function.update emitted name (emitted name + 1)) rest
    else name :: number emitted rest

variable {repeated}

def Given (emitted : String → ℕ) (names : List String) (name : String) (index : ℕ) : Prop :=
  emitted name < index ∧ index ≤ emitted name + names.count name

/-- Names without ordinal occur once and are not spelled like a name with one. -/
structure Apart (repeated : String → Bool) (emitted : String → ℕ) (names : List String) : Prop where
  once : ∀ name, repeated name = false → names.count name ≤ 1
  apart : ∀ name ∈ names, repeated name = false → ∀ other index, repeated other = true →
    Given emitted names other index → name ≠ numbered other index

end Number

end Numbering
