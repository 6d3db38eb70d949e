import Octa.Task.Outputs

/-!
# Dependency results

What one node hands to its successors in the graph, and how a node collects
what its predecessors hand to it.
-/

namespace Octa.Task

open List

variable {υ : Type}

/-- Restores outputs accumulated by earlier nodes without replacing newer values. -/
def TaskOutputs.extendMissing (newer older : TaskOutputs υ) : TaskOutputs υ :=
  (older.entries.filter fun entry => entry.name ∉ newer.entries.map TaskOutput.name).foldl
    TaskOutputs.insert newer

/-- Text and typed values published by one completed dependency invocation. -/
structure DependencyResult (υ : Type) where
  stdout : String
  outputs : TaskOutputs υ

namespace DependencyResult

def merge (older newer : DependencyResult υ) : DependencyResult υ :=
  ⟨newer.stdout, older.outputs.extend newer.outputs⟩

def mergeMissing (newer older : DependencyResult υ) : DependencyResult υ :=
  ⟨newer.stdout, newer.outputs.extendMissing older.outputs⟩

end DependencyResult

abbrev DependencyResults (υ : Type) := String → Option (DependencyResult υ)

namespace DependencyResults

def empty : DependencyResults υ := fun _ => none

def mergeEntry (existing : Option (DependencyResult υ)) (result : DependencyResult υ) :
    DependencyResult υ :=
  match existing with
  | some existing => existing.merge result
  | none => result

/-- Stores one direct dependency result for later templates and plugin input. -/
def setResult (received : DependencyResults υ) (name : String) (result : DependencyResult υ) :
    DependencyResults υ :=
  Function.update received name (some (mergeEntry (received name) result))

def bypassResult (received inherited : DependencyResults υ) : DependencyResults υ := fun name =>
  match inherited name with
  | some result => some (mergeEntry (received name) result)
  | none => received name

/-- The value of `deps_result`: the standard output of every dependency. -/
def stdouts (received : DependencyResults υ) : String → Option String := fun name =>
  (received name).map DependencyResult.stdout

end DependencyResults

/-! ## Equal results

Outputs are maps, kept here as lists: two of them are the same if they hold the same
entries. -/

def TaskOutputs.Same (a b : TaskOutputs υ) : Prop :=
  ∀ entry, entry ∈ a.entries ↔ entry ∈ b.entries

namespace DependencyResult

structure Same (a b : DependencyResult υ) : Prop where
  stdout : a.stdout = b.stdout
  outputs : a.outputs.Same b.outputs

variable {a b c : DependencyResult υ}

theorem Same.refl (a : DependencyResult υ) : a.Same a := ⟨rfl, fun _ => Iff.rfl⟩

theorem Same.symm (h : a.Same b) : b.Same a := ⟨h.stdout.symm, fun e => (h.outputs e).symm⟩

theorem Same.trans (h : a.Same b) (h' : b.Same c) : a.Same c :=
  ⟨h.stdout.trans h'.stdout, fun e => (h.outputs e).trans (h'.outputs e)⟩

theorem Same.merge (h : a.Same c) (h' : b.Same c) : (a.merge b).Same c := by
  refine ⟨h'.stdout, fun e => ?_⟩
  change e ∈ (b.outputs.entries.foldl TaskOutputs.insert a.outputs).entries ↔ _
  rw [TaskOutputs.mem_foldl_insert b.outputs.distinct, ← h'.outputs e]
  constructor
  · rintro (he | ⟨he, -⟩)
    · exact he
    · exact (h'.outputs e).mpr ((h.outputs e).mp he)
  · exact .inl

theorem mem_mergeMissing {e : TaskOutput υ} :
    e ∈ (a.mergeMissing b).outputs.entries ↔ e ∈ a.outputs.entries ∨
      e ∈ b.outputs.entries ∧ e.name ∉ a.outputs.entries.map TaskOutput.name := by
  have hd : ((b.outputs.entries.filter fun e =>
      e.name ∉ a.outputs.entries.map TaskOutput.name).map TaskOutput.name).Nodup :=
    b.outputs.distinct.sublist (filter_sublist.map _)
  change e ∈ (List.foldl TaskOutputs.insert a.outputs _).entries ↔ _
  rw [TaskOutputs.mem_foldl_insert hd]
  constructor
  · rintro (he | ⟨he, -⟩)
    · obtain ⟨hm, hna⟩ := mem_filter.mp he
      exact .inr ⟨hm, of_decide_eq_true hna⟩
    · exact .inl he
  rintro (he | ⟨he, hna⟩)
  · refine .inr ⟨he, fun hmi => ?_⟩
    obtain ⟨other, ho, hs⟩ := mem_map.mp hmi
    have hn := of_decide_eq_true (mem_filter.mp ho).2
    exact hn (hs ▸ mem_map.mpr ⟨e, he, rfl⟩)
  · exact .inl (mem_filter.mpr ⟨he, decide_eq_true hna⟩)

theorem Same.mergeMissing (h : b.Same c) : (a.mergeMissing b).Same (a.mergeMissing c) := by
  refine ⟨rfl, fun e => ?_⟩
  rw [mem_mergeMissing, mem_mergeMissing, h.outputs e]

end DependencyResult

structure DependencyResults.Same (a b : DependencyResults υ) : Prop where
  none_iff : ∀ name, a name = none ↔ b name = none
  same : ∀ name r r', a name = some r → b name = some r' → r.Same r'

end Octa.Task
