import Mathlib.Data.List.Forall2

/-!
# Computations that may fail

What the success of a compound computation says about its parts.
-/

namespace Fallible

open List

variable {ε α β : Type}

variable {f : α → Except ε β}

theorem bind_eq_ok {x : Except ε α} {b : β} (h : (x >>= f) = .ok b) :
    ∃ a, x = .ok a ∧ f a = .ok b := by
  cases x with
  | error error => cases h
  | ok a => exact ⟨a, rfl, h⟩

variable {a : α}

theorem exists_bind_eq_ok {x : Except ε α} (h : x = .ok a)
    (hf : ∃ b, f a = .ok b) : ∃ b, (x >>= f) = .ok b := by
  rw [h]
  exact hf

theorem ite_error_eq_ok {p : Prop} [Decidable p] {error : ε} {rest : Except ε α}
    (h : (if p then .error error else rest) = .ok a) : ¬p ∧ rest = .ok a := by
  by_cases hp : p
  · rw [if_pos hp] at h
    cases h
  · rw [if_neg hp] at h
    exact ⟨hp, h⟩

variable {l : List α} {r : List β}

theorem mapM_eq_ok (h : l.mapM f = .ok r) : List.Forall₂ (fun a b => f a = .ok b) l r := by
  induction l generalizing r with
  | nil =>
    cases h
    exact .nil
  | cons a l ih =>
    rw [mapM_cons] at h
    obtain ⟨b, hb, h⟩ := bind_eq_ok h
    obtain ⟨bs, hbs, h⟩ := bind_eq_ok h
    cases h
    exact .cons hb (ih hbs)

theorem map_eq_of_mapM {g : β → α} (hinv : ∀ a b, f a = .ok b → g b = a) (h : l.mapM f = .ok r) :
    r.map g = l := by
  have hs := mapM_eq_ok h
  clear h
  induction hs with
  | nil => rfl
  | cons ha _ ih => rw [map_cons, hinv _ _ ha, ih]

variable {R : α → β → Prop}

theorem exists_left_of_mem (h : List.Forall₂ R l r) {b : β} (hb : b ∈ r) : ∃ a ∈ l, R a b := by
  induction h with
  | nil => cases hb
  | cons hab _ ih =>
    obtain rfl | hb := mem_cons.mp hb
    · exact ⟨_, mem_cons_self, hab⟩
    · obtain ⟨a, ha, hR⟩ := ih hb
      exact ⟨a, mem_cons_of_mem _ ha, hR⟩

theorem exists_right_of_mem (h : List.Forall₂ R l r) (ha : a ∈ l) : ∃ b ∈ r, R a b :=
  exists_left_of_mem h.flip ha

theorem pairwise_of_forall₂ {S : α → α → Prop} {T : β → β → Prop} (h : List.Forall₂ R l r)
    (hl : l.Pairwise S) (hT : ∀ a a' b b', S a a' → R a b → R a' b' → T b b') : r.Pairwise T := by
  induction h with
  | nil => exact .nil
  | cons ha hr ih =>
    obtain ⟨hf, hl⟩ := pairwise_cons.mp hl
    refine pairwise_cons.mpr ⟨fun b' hb' => ?_, ih hl⟩
    obtain ⟨a', ha', hR⟩ := exists_left_of_mem hr hb'
    exact hT _ a' _ b' (hf a' ha') ha hR

theorem exists_of_mem_result (h : l.mapM f = .ok r) {b : β} (hb : b ∈ r) : ∃ a ∈ l, f a = .ok b :=
  exists_left_of_mem (mapM_eq_ok h) hb

theorem exists_of_mem_source (h : l.mapM f = .ok r) (ha : a ∈ l) : ∃ b ∈ r, f a = .ok b :=
  exists_right_of_mem (mapM_eq_ok h) ha

theorem foldlM_eq_ok_iff {f : β → α → Except ε β} {g : β → α → β} {P : α → Prop}
    (h : ∀ s a s', f s a = .ok s' ↔ P a ∧ s' = g s a) {s s' : β} :
    l.foldlM f s = .ok s' ↔ (∀ a ∈ l, P a) ∧ s' = l.foldl g s := by
  induction l generalizing s with
  | nil =>
    simp only [foldlM_nil, not_mem_nil, false_implies, implies_true, true_and, foldl_nil]
    exact ⟨fun h => (Except.ok.inj h).symm, fun h => congrArg Except.ok h.symm⟩
  | cons a l ih =>
    rw [foldlM_cons, foldl_cons, forall_mem_cons]
    constructor
    · intro ho
      obtain ⟨s₁, hf, hr⟩ := bind_eq_ok ho
      obtain ⟨hP, rfl⟩ := (h s a s₁).mp hf
      obtain ⟨ha, hs⟩ := ih.mp hr
      exact ⟨⟨hP, ha⟩, hs⟩
    rintro ⟨⟨hP, ha⟩, hs⟩
    rw [(h s a _).mpr ⟨hP, rfl⟩]
    exact ih.mpr ⟨ha, hs⟩

theorem foldl_collects {g : β → α → β} {I C : β → Prop} {Y : α → Prop}
    (hstep : ∀ s a, I s → I (g s a) ∧ (C (g s a) ↔ C s ∨ Y a)) (l : List α) {s : β} (hs : I s) :
    I (l.foldl g s) ∧ (C (l.foldl g s) ↔ C s ∨ ∃ a ∈ l, Y a) := by
  induction l generalizing s with
  | nil => simp [hs]
  | cons a l ih =>
    obtain ⟨hn, hr⟩ := hstep s a hs
    obtain ⟨hl, hc⟩ := ih hn
    rw [foldl_cons]
    refine ⟨hl, ?_⟩
    rw [hc, hr, exists_mem_cons_iff, or_assoc]

end Fallible
