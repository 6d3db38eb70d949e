import Mathlib.Data.List.Basic
import Mathlib.Tactic.Ring

/-!
# Self-delimiting encodings

An encoding determines a part of a value when that part, and the place where the
encoding ends, can be read off any stream that starts with it.
-/

namespace Wire

open List

abbrev Bytes := List UInt8

variable {α β γ δ : Type}

/-! ## Numbers -/

def bigEndian : ℕ → ℕ → Bytes
  | 0, _ => []
  | width + 1, n => bigEndian width (n / 256) ++ [UInt8.ofNat n]

@[simp] theorem length_bigEndian (width n : ℕ) : (bigEndian width n).length = width := by
  induction width generalizing n with
  | zero => rfl
  | succ width ih => rw [bigEndian, List.length_append, ih, length_singleton]

theorem bigEndian_injective {width m n : ℕ} (hm : m < 256 ^ width) (hn : n < 256 ^ width)
    (h : bigEndian width m = bigEndian width n) : m = n := by
  induction width generalizing m n with
  | zero => omega
  | succ width ih =>
    rw [bigEndian, bigEndian] at h
    obtain ⟨hh, hl⟩ := append_inj' h rfl
    have hm' : m / 256 < 256 ^ width := Nat.div_lt_of_lt_mul (by rwa [pow_succ'] at hm)
    have hn' : n / 256 < 256 ^ width := Nat.div_lt_of_lt_mul (by rwa [pow_succ'] at hn)
    have hq := ih hm' hn' hh
    have hr : m % 256 = n % 256 := by
      have hb := congrArg UInt8.toNat (List.cons.inj hl).1
      rwa [UInt8.toNat_ofNat', UInt8.toNat_ofNat'] at hb
    omega

/-! ## Determined parts -/

/-- Streams that start with the encodings of two values agree on `part` and on
where the encodings end. -/
def Determines (p : α → Prop) (part : α → β) (encode : α → Bytes) : Prop :=
  ∀ ⦃a b : α⦄, p a → p b → ∀ ⦃rest rest' : Bytes⦄, encode a ++ rest = encode b ++ rest' →
    part a = part b ∧ rest = rest'

namespace Determines

variable {p : α → Prop} {part : α → β} {part' : α → γ} {encode encode' : α → Bytes}

theorem of_length (width : ℕ) (hlen : ∀ a, p a → (encode a).length = width)
    (hpart : ∀ a b, p a → p b → encode a = encode b → part a = part b) :
    Determines p part encode := by
  intro a b ha hb rest rest' h
  obtain ⟨he, hr⟩ := append_inj h ((hlen a ha).trans (hlen b hb).symm)
  exact ⟨hpart a b ha hb he, hr⟩

theorem append (h : Determines p part encode) (h' : Determines p part' encode') :
    Determines p (fun a => (part a, part' a)) fun a => encode a ++ encode' a := by
  intro a b ha hb rest rest' hs
  rw [append_assoc, append_assoc] at hs
  obtain ⟨hp, hn⟩ := h ha hb hs
  obtain ⟨hp', hr⟩ := h' ha hb hn
  exact ⟨Prod.ext hp hp', hr⟩

theorem tagged (tag : UInt8) (h : Determines p part encode) :
    Determines p part fun a => tag :: encode a := by
  intro a b ha hb rest rest' hs
  exact h ha hb (List.cons.inj hs).2

theorem comap {q : δ → Prop} (f : δ → α) (h : Determines p part encode) (hq : ∀ d, q d → p (f d)) :
    Determines q (fun d => part (f d)) fun d => encode (f d) :=
  fun _ _ ha hb _ _ hs => h (hq _ ha) (hq _ hb) hs

theorem mono {part'' : α → δ} (h : Determines p part encode)
    (hpart : ∀ a b, p a → p b → part a = part b → part'' a = part'' b) :
    Determines p part'' encode := by
  intro a b ha hb rest rest' hs
  obtain ⟨he, hr⟩ := h ha hb hs
  exact ⟨hpart a b ha hb he, hr⟩

theorem eq_of_eq (h : Determines p part encode) {a b : α} (ha : p a) (hb : p b)
    (hen : encode a = encode b) : part a = part b :=
  (h ha hb (congrArg (· ++ []) hen)).1

/-! ## Lists -/

theorem flatMap (h : Determines p id encode) {l l' : List α} (hl : ∀ a ∈ l, p a)
    (hl' : ∀ a ∈ l', p a) (hlen : l.length = l'.length) {rest rest' : Bytes}
    (hst : l.flatMap encode ++ rest = l'.flatMap encode ++ rest') : l = l' ∧ rest = rest' := by
  induction l generalizing l' with
  | nil =>
    obtain rfl := length_eq_zero_iff.mp hlen.symm
    exact ⟨rfl, hst⟩
  | cons a l ih =>
    cases l' with
    | nil => cases hlen
    | cons b l' =>
      rw [flatMap_cons, flatMap_cons, append_assoc, append_assoc] at hst
      obtain ⟨rfl, hn⟩ := h (hl a mem_cons_self) (hl' b mem_cons_self) hst
      obtain ⟨rfl, hr⟩ := ih (fun c hc => hl c (mem_cons_of_mem _ hc))
        (fun c hc => hl' c (mem_cons_of_mem _ hc)) (Nat.succ.inj hlen) hn
      exact ⟨rfl, hr⟩

theorem list (width : ℕ) (h : Determines p id encode) :
    Determines (fun l : List α => l.length < 256 ^ width ∧ ∀ a ∈ l, p a) id
      fun l => bigEndian width l.length ++ l.flatMap encode := by
  intro l l' hl hl' rest rest' hs
  rw [append_assoc, append_assoc] at hs
  obtain ⟨hc, hi⟩ := append_inj hs (by
    rw [length_bigEndian, length_bigEndian])
  exact h.flatMap hl.2 hl'.2 (bigEndian_injective hl.1 hl'.1 hc) hi

theorem option (h : Determines p id encode) : Determines (fun o : Option α => ∀ a ∈ o, p a) id fun
      | none => [0]
      | some a => 1 :: encode a := by
  intro o o' ho ho' rest rest' hs
  match o, o', hs with
  | none, none, hs => exact ⟨rfl, (List.cons.inj hs).2⟩
  | none, some _, hs => exact absurd (List.cons.inj hs).1 (by decide)
  | some _, none, hs => exact absurd (List.cons.inj hs).1 (by decide)
  | some a, some b, hs =>
    obtain ⟨hv, hr⟩ := h (ho a rfl) (ho' b rfl) (List.cons.inj hs).2
    exact ⟨congrArg some hv, hr⟩

theorem number (width : ℕ) : Determines (· < 256 ^ width) id (bigEndian width) :=
  .of_length width (fun n _ => length_bigEndian width n) fun _ _ hm hn h =>
      bigEndian_injective hm hn h

end Determines

end Wire
