import Mathlib.Data.Set.Finite.Basic
import Mathlib.Order.WellFounded

/-!
# Finite directed graphs

A graph is a finite set of nodes with the successors of each node.  Acyclic
graphs are used through one fact: every nonempty set of nodes has a member
without an earlier member in the set.
-/

structure FiniteGraph (ν : Type) where
  nodes : Finset ν
  edges : ν → Finset ν
  closed : ∀ {a b}, b ∈ edges a → a ∈ nodes ∧ b ∈ nodes

namespace FiniteGraph

variable {ν : Type} [DecidableEq ν] (G : FiniteGraph ν)

def preds (d : ν) : Finset ν := G.nodes.filter fun p => d ∈ G.edges p

@[simp] theorem mem_preds {p d : ν} : p ∈ G.preds d ↔ d ∈ G.edges p := by
  rw [preds, Finset.mem_filter]
  exact ⟨And.right, fun h => ⟨(G.closed h).1, h⟩⟩

omit [DecidableEq ν] in
def Before (a b : ν) : Prop := Relation.TransGen (fun a b => b ∈ G.edges a) a b

def Acyclic : Prop := ∀ a, ¬G.Before a a

variable {G}

omit [DecidableEq ν] in
theorem Acyclic.exists_first (h : G.Acyclic) {S : Finset ν} (hS : S.Nonempty) :
    ∃ first ∈ S, ∀ p ∈ S, ¬G.Before p first := by
  let earlier : S → S → Prop := fun a b => G.Before a b
  have ht : IsTrans S earlier := ⟨fun _ _ _ ha hb => ha.trans hb⟩
  have hi : Std.Irrefl earlier := ⟨fun a => h a⟩
  have hw : WellFounded earlier := Finite.wellFounded_of_trans_of_irrefl earlier
  obtain ⟨member, hm⟩ := hS
  obtain ⟨⟨first, hf⟩, -, hmi⟩ := hw.has_min Set.univ ⟨⟨member, hm⟩, trivial⟩
  exact ⟨first, hf, fun p hp => hmi ⟨p, hp⟩ trivial⟩

end FiniteGraph
