import Mathlib.Data.List.Nodup
import Mathlib.Data.List.Perm.Basic

/-!
# Series-parallel flows

A flow composes nodes in series and in parallel.
-/

inductive NodeFlow (τ : Type) where
  | skip
  | atom (node : τ)
  | seq (first second : NodeFlow τ)
  | par (left right : NodeFlow τ)

namespace NodeFlow

open Relation List

variable {τ ν : Type}

def atoms : NodeFlow τ → List τ
  | skip => []
  | atom node => [node]
  | seq f g => f.atoms ++ g.atoms
  | par f g => f.atoms ++ g.atoms

@[simp] theorem atoms_seq (f g : NodeFlow τ) : (seq f g).atoms = f.atoms ++ g.atoms := rfl
@[simp] theorem atoms_par (f g : NodeFlow τ) : (par f g).atoms = f.atoms ++ g.atoms := rfl

variable (key : τ → ν)

def keys (f : NodeFlow τ) : List ν := f.atoms.map key

@[simp] theorem keys_seq (f g : NodeFlow τ) : (seq f g).keys key = f.keys key ++ g.keys key :=
  map_append
@[simp] theorem keys_par (f g : NodeFlow τ) : (par f g).keys key = f.keys key ++ g.keys key :=
  map_append

/-- Where a flow ends when it starts from the entries `P`. -/
def exits (P : List ν) : NodeFlow τ → List ν
  | skip => P
  | atom node => [key node]
  | seq f g => exits (exits P f) g
  | par f g => exits P f ++ exits P g

/-- The edges of a flow that starts from the entries `P`. -/
def Edge (P : List ν) : NodeFlow τ → ν → ν → Prop
  | skip, _, _ => False
  | atom node, a, b => a ∈ P ∧ b = key node
  | seq f g, a, b => Edge P f a b ∨ Edge (exits key P f) g a b
  | par f g, a, b => Edge P f a b ∨ Edge P g a b

variable {key} {P : List ν} {f g : NodeFlow τ} {a b : ν}

theorem mem_or_mem_keys_of_mem_exits (h : a ∈ f.exits key P) : a ∈ P ∨ a ∈ f.keys key := by
  induction f generalizing P with
  | skip => exact .inl h
  | atom node => exact .inr h
  | seq f g ihf ihg =>
    rw [keys_seq, mem_append]
    rcases ihg h with he | hk
    · exact (ihf he).imp id .inl
    · exact .inr (.inr hk)
  | par f g ihf ihg =>
    rw [keys_par, mem_append]
    rcases mem_append.mp h with h | h
    · exact (ihf h).imp id .inl
    · exact (ihg h).imp id .inr

theorem Edge.target (h : f.Edge key P a b) : b ∈ f.keys key := by
  induction f generalizing P with
  | skip => exact h.elim
  | atom node => exact mem_singleton.mpr h.2
  | seq f g ihf ihg =>
    rw [keys_seq, mem_append]
    exact h.imp ihf ihg
  | par f g ihf ihg =>
    rw [keys_par, mem_append]
    exact h.imp ihf ihg

theorem Edge.source (h : f.Edge key P a b) : a ∈ P ∨ a ∈ f.keys key := by
  induction f generalizing P with
  | skip => exact h.elim
  | atom node => exact .inl h.1
  | seq f g ihf ihg =>
    rw [keys_seq, mem_append]
    rcases h with h | h
    · exact (ihf h).imp id .inl
    rcases ihg h with he | hk
    · exact (mem_or_mem_keys_of_mem_exits he).imp id .inl
    · exact .inr (.inr hk)
  | par f g ihf ihg =>
    rw [keys_par, mem_append]
    rcases h with h | h
    · exact (ihf h).imp id .inl
    · exact (ihg h).imp id .inr

theorem exits_ne_nil (h : P ≠ []) : f.exits key P ≠ [] := by
  induction f generalizing P with
  | skip => exact h
  | atom node => exact cons_ne_nil _ _
  | seq f g ihf ihg => exact ihg (ihf h)
  | par f g ihf ihg => exact append_ne_nil_of_left_ne_nil (ihf h) _

theorem entries_eq_nil_of_exits (h : f.exits key P = []) : P = [] := by
  by_contra hne
  exact exits_ne_nil hne h

/-! ## Order -/

theorem drained (h : a ∈ P ∨ a ∈ f.keys key) :
    ∃ q ∈ f.exits key P, ReflTransGen (f.Edge key P) a q := by
  induction f generalizing P a with
  | skip => exact ⟨a, h.resolve_right not_mem_nil, .refl⟩
  | atom node =>
    refine ⟨key node, mem_singleton_self _, ?_⟩
    rcases h with h | h
    · exact .single ⟨h, rfl⟩
    · rw [mem_singleton.mp h]
  | seq f g ihf ihg =>
    -- the first part hands over to the second at one of its exits
    have hs : ∀ {c}, c ∈ f.exits key P ∨ c ∈ g.keys key →
        ∃ q ∈ (seq f g).exits key P, ReflTransGen ((seq f g).Edge key P) c q := by
      intro c hc
      obtain ⟨q, hq, hp⟩ := ihg hc
      exact ⟨q, hq, ReflTransGen.mono (fun _ _ he => .inr he) _ _ hp⟩
    have hf : a ∈ P ∨ a ∈ f.keys key →
        ∃ q ∈ (seq f g).exits key P, ReflTransGen ((seq f g).Edge key P) a q := by
      intro ha
      obtain ⟨c, hc, hp⟩ := ihf ha
      obtain ⟨q, hq, hr⟩ := hs (.inl hc)
      exact ⟨q, hq, (ReflTransGen.mono (fun _ _ he => .inl he) _ _ hp).trans hr⟩
    rw [keys_seq, mem_append] at h
    rcases h with h | h | h
    · exact hf (.inl h)
    · exact hf (.inr h)
    · exact hs (.inr h)
  | par f g ihf ihg =>
    have hl : a ∈ P ∨ a ∈ f.keys key →
        ∃ q ∈ (par f g).exits key P, ReflTransGen ((par f g).Edge key P) a q := by
      intro ha
      obtain ⟨q, hq, hp⟩ := ihf ha
      exact ⟨q, mem_append_left _ hq, ReflTransGen.mono (fun _ _ he => .inl he) _ _ hp⟩
    rw [keys_par, mem_append] at h
    rcases h with h | h | h
    · exact hl (.inl h)
    · exact hl (.inr h)
    · obtain ⟨q, hq, hp⟩ := ihg (.inr h)
      exact ⟨q, mem_append_right _ hq, ReflTransGen.mono (fun _ _ he => .inr he) _ _ hp⟩

theorem covered (ha : a ∈ P) (hb : b ∈ f.keys key) : TransGen (f.Edge key P) a b := by
  induction f generalizing P a with
  | skip => exact absurd hb not_mem_nil
  | atom node =>
    rw [mem_singleton.mp hb]
    exact .single ⟨ha, rfl⟩
  | seq f g ihf ihg =>
    rw [keys_seq, mem_append] at hb
    rcases hb with hb | hb
    · exact TransGen.mono (fun _ _ he => .inl he) _ _ (ihf ha hb)
    obtain ⟨q, hq, hp⟩ := drained (f := f) (.inl ha)
    have hr : TransGen ((seq f g).Edge key P) q b :=
      TransGen.mono (fun _ _ he => .inr he) _ _ (ihg hq hb)
    exact TransGen.trans_right (ReflTransGen.mono (fun _ _ he => .inl he) _ _ hp) hr
  | par f g ihf ihg =>
    rw [keys_par, mem_append] at hb
    rcases hb with hb | hb
    · exact TransGen.mono (fun _ _ he => .inl he) _ _ (ihf ha hb)
    · exact TransGen.mono (fun _ _ he => .inr he) _ _ (ihg ha hb)

theorem seq_ordered (ha : a ∈ f.keys key) (hb : b ∈ g.keys key) :
    TransGen ((seq f g).Edge key P) a b := by
  obtain ⟨q, hq, hp⟩ := drained (P := P) (f := f) (.inr ha)
  have hr : TransGen ((seq f g).Edge key P) q b :=
    TransGen.mono (fun _ _ he => .inr he) _ _ (covered hq hb)
  exact TransGen.trans_right (ReflTransGen.mono (fun _ _ he => .inl he) _ _ hp) hr

theorem exits_apart (hdist : ((seq f g).keys key).Nodup)
    (hes : ∀ p ∈ P, p ∉ (seq f g).keys key) : ∀ q ∈ f.exits key P, q ∉ g.keys key := by
  rw [keys_seq] at hdist hes
  intro q hq hk
  rcases mem_or_mem_keys_of_mem_exits hq with hp | hp
  · exact hes q hp (mem_append_right _ hk)
  · exact (nodup_append.mp hdist).2.2 q hp q hk rfl

section Acyclic

variable [DecidableEq ν]

theorem Edge.idxOf_lt (h : f.Edge key P a b) (hdist : (f.keys key).Nodup)
    (hes : ∀ p ∈ P, p ∉ f.keys key) : a ∈ P ∨ (f.keys key).idxOf a < (f.keys key).idxOf b := by
  induction f generalizing P with
  | skip => exact h.elim
  | atom node => exact .inl h.1
  | seq f g ihf ihg =>
    have hex := exits_apart hdist hes
    rw [keys_seq] at hdist hes ⊢
    have hap := nodup_append.mp hdist
    have hle : ∀ p ∈ P, p ∉ f.keys key := fun p hp hk =>
      hes p hp (mem_append_left _ hk)
    rcases h with h | h
    · refine (ihf h hap.1 hle).imp id fun hl => ?_
      have ha := (h.source.resolve_left fun hp => ?_)
      · rwa [idxOf_append_of_mem ha, idxOf_append_of_mem h.target]
      · rw [idxOf_eq_length (hle a hp)] at hl
        exact absurd hl (Nat.not_lt.mpr (idxOf_le_length))
    have hb : b ∉ f.keys key := fun hb => hap.2.2 b hb b h.target rfl
    rw [idxOf_append_of_notMem hb]
    by_cases ha : a ∈ f.keys key
    · rw [idxOf_append_of_mem ha]
      exact .inr (Nat.lt_add_right _ (idxOf_lt_length_iff.mpr ha))
    rw [idxOf_append_of_notMem ha]
    rcases ihg h hap.2.1 hex with he | hl
    · exact .inl ((mem_or_mem_keys_of_mem_exits he).resolve_right ha)
    · exact .inr (Nat.add_lt_add_left hl _)
  | par f g ihf ihg =>
    rw [keys_par] at hdist hes ⊢
    have hap := nodup_append.mp hdist
    by_cases ha : a ∈ P
    · exact .inl ha
    refine .inr ?_
    rcases h with h | h
    · have hl := (ihf h hap.1 fun p hp hk =>
        hes p hp (mem_append_left _ hk)).resolve_left ha
      rwa [idxOf_append_of_mem (h.source.resolve_left ha), idxOf_append_of_mem h.target]
    have hl := (ihg h hap.2.1 fun p hp hk =>
      hes p hp (mem_append_right _ hk)).resolve_left ha
    have hn : ∀ {c}, c ∈ g.keys key → c ∉ f.keys key := fun hc hf =>
      hap.2.2 _ hf _ hc rfl
    rw [idxOf_append_of_notMem (hn (h.source.resolve_left ha)),
      idxOf_append_of_notMem (hn h.target)]
    exact Nat.add_lt_add_left hl _

theorem acyclic (hdist : (f.keys key).Nodup) (hes : ∀ p ∈ P, p ∉ f.keys key) :
    ¬TransGen (f.Edge key P) a a := by
  -- along a path that has left the entries the position in the list of keys grows
  have hg : ∀ {b}, TransGen (f.Edge key P) a b → b ∈ f.keys key ∧
      (a ∈ P ∨ (f.keys key).idxOf a < (f.keys key).idxOf b) := by
    intro b hpa
    induction hpa with
    | single he => exact ⟨he.target, he.idxOf_lt hdist hes⟩
    | tail _ he ih =>
      refine ⟨he.target, ih.2.imp id fun hl => ?_⟩
      have hs := (he.idxOf_lt hdist hes).resolve_left fun hp =>
        hes _ hp ih.1
      exact Nat.lt_trans hl hs
  intro hc
  obtain ⟨hk, hp | hl⟩ := hg hc
  · exact hes a hp hk
  · exact Nat.lt_irrefl _ hl

end Acyclic

/-! ## Added to a graph -/

section Extend

variable {E E' : ν → ν → Prop}

section

variable (hE' : ∀ a b, E' a b ↔ E a b ∨ f.Edge key P a b)
include hE'

theorem path_of_notMem
    (hE : ∀ a b, E a b → a ∉ f.keys key) (h : TransGen E' a b) (hb : b ∉ f.keys key) :
    TransGen E a b := by
  induction h with
  | single he =>
    exact .single (((hE' _ _).mp he).resolve_right fun hn => hb hn.target)
  | tail _ he ih =>
    have ho := ((hE' _ _).mp he).resolve_right fun hn => hb hn.target
    exact .tail (ih (hE _ _ ho)) ho

theorem path_of_mem
    (hE : ∀ a b, E a b → a ∉ f.keys key) (ha : a ∈ f.keys key) (h : TransGen E' a b) :
    b ∈ f.keys key ∧ TransGen (f.Edge key P) a b := by
  induction h with
  | single he =>
    have hn := ((hE' _ _).mp he).resolve_left fun ho => hE _ _ ho ha
    exact ⟨hn.target, .single hn⟩
  | tail _ he ih =>
    have hn := ((hE' _ _).mp he).resolve_left fun ho => hE _ _ ho ih.1
    exact ⟨hn.target, .tail ih.2 hn⟩

theorem acyclic_extend [DecidableEq ν]
    (hE : ∀ a b, E a b → a ∉ f.keys key) (hac : ∀ a, ¬TransGen E a a) (hdist : (f.keys key).Nodup)
    (hes : ∀ p ∈ P, p ∉ f.keys key) (a : ν) : ¬TransGen E' a a := by
  intro hc
  by_cases ha : a ∈ f.keys key
  · exact acyclic hdist hes (path_of_mem hE' hE ha hc).2
  · exact hac a (path_of_notMem hE' hE hc ha)

end

end Extend

/-! ## Fan-out and series -/

def fan : List (NodeFlow τ) → NodeFlow τ
  | [] => skip
  | [f] => f
  | f :: f' :: fs => par f (fan (f' :: fs))

theorem atoms_fan (fs : List (NodeFlow τ)) : (fan fs).atoms = fs.flatMap atoms := by
  induction fs with
  | nil => rfl
  | cons f fs ih =>
    cases fs with
    | nil => simp [fan]
    | cons f' fs => rw [fan, atoms_par, ih, ← flatMap_cons]

/-- The exits of all branches; without branches there is no exit. -/
def fanExits (key : τ → ν) (P : List ν) (fs : List (NodeFlow τ)) : List ν :=
  fs.flatMap (exits key P)

variable {fs : List (NodeFlow τ)}

theorem exits_fan (hfs : fs ≠ []) : (fan fs).exits key P = fanExits key P fs := by
  induction fs with
  | nil => exact absurd rfl hfs
  | cons f fs ih =>
    cases fs with
    | nil => simp [fan, fanExits]
    | cons f' fs =>
      rw [fan, exits, ih (cons_ne_nil _ _), fanExits, fanExits, ← flatMap_cons]

theorem edge_fan : (fan fs).Edge key P a b ↔ ∃ f ∈ fs, f.Edge key P a b := by
  induction fs with
  | nil => simp [fan, Edge]
  | cons f fs ih =>
    cases fs with
    | nil => simp [fan]
    | cons f' fs =>
      rw [fan, Edge, ih]
      simp

def series : List (NodeFlow τ) → NodeFlow τ
  | [] => skip
  | f :: fs => seq f (series fs)

theorem atoms_series (fs : List (NodeFlow τ)) : (series fs).atoms = fs.flatMap atoms := by
  induction fs with
  | nil => rfl
  | cons f fs ih => rw [series, atoms_seq, ih, flatMap_cons]

theorem exits_series_append (fs gs : List (NodeFlow τ)) :
    (series (fs ++ gs)).exits key P = (series gs).exits key ((series fs).exits key P) := by
  induction fs generalizing P with
  | nil => rfl
  | cons f fs ih => exact ih

theorem edge_series_append (fs gs : List (NodeFlow τ)) : (series (fs ++ gs)).Edge key P a b ↔
      (series fs).Edge key P a b ∨ (series gs).Edge key ((series fs).exits key P) a b := by
  induction fs generalizing P with
  | nil => simp [series, Edge, exits]
  | cons f fs ih =>
    rw [cons_append, series, Edge, ih, series, Edge, or_assoc, exits]

theorem series_ordered (key : τ → ν) {κ : Type} (before : κ → κ → Prop) (hir : ∀ r, ¬before r r)
    {parts : List (κ × NodeFlow τ)} (hfo : parts.Pairwise fun p q => ¬before q.1 p.1)
    {p q : κ × NodeFlow τ} (hp : p ∈ parts) (hq : q ∈ parts) (hbe : before p.1 q.1)
    (ha : a ∈ p.2.keys key) (hb : b ∈ q.2.keys key) (P : List ν) :
    TransGen ((series (parts.map Prod.snd)).Edge key P) a b := by
  induction parts generalizing P with
  | nil => exact absurd hp not_mem_nil
  | cons part parts ih =>
    obtain ⟨hf, hr⟩ := pairwise_cons.mp hfo
    rw [map_cons, series]
    rcases mem_cons.mp hp with rfl | hp'
    · rcases mem_cons.mp hq with rfl | hq'
      · exact absurd hbe (hir _)
      · apply seq_ordered ha
        rw [keys, atoms_series, map_flatMap]
        exact mem_flatMap.mpr ⟨q.2, mem_map_of_mem hq', hb⟩
    rcases mem_cons.mp hq with rfl | hq'
    · exact absurd hbe (hf p hp')
    · exact TransGen.mono (fun _ _ he => .inr he) _ _ (ih hr hp' hq' _)

theorem series_inner (key : τ → ν) (h : f ∈ fs) (P : List ν) :
    ∃ Q, ∀ a b, f.Edge key Q a b → (series fs).Edge key P a b := by
  induction fs generalizing P with
  | nil => exact absurd h not_mem_nil
  | cons f' fs ih =>
    rcases mem_cons.mp h with rfl | h'
    · exact ⟨P, fun a b he => .inl he⟩
    · obtain ⟨Q, hQ⟩ := ih h' (f'.exits key P)
      exact ⟨Q, fun a b he => .inr (hQ a b he)⟩

def optional : Option τ → NodeFlow τ
  | none => skip
  | some node => atom node

@[simp] theorem atoms_optional (node : Option τ) : (optional node).atoms = node.toList := by
  cases node <;> rfl

end NodeFlow
