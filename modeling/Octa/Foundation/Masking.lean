import Mathlib.Data.List.Infix

/-!
# Masking parts of a text

A text is a list of symbols.  Masking replaces disjoint parts of it by blocks of
one symbol `star`.
-/

namespace Masking

open List

variable {α : Type} {star : α} {text result piece : List α}

theorem infix_append_cases {xs ys : List α} (h : piece <:+: xs ++ ys) :
    piece <:+: xs ∨ piece <:+: ys ∨
      ∃ left right, piece = left ++ right ∧ left ≠ [] ∧ right ≠ [] ∧ left <:+ xs ∧
        right <+: ys := by
  rcases infix_append_iff.mp h with h | h | ⟨left, right, rfl, hl, hr⟩
  · exact .inl h
  · exact .inr (.inl h)
  by_cases hn : left = []
  · rw [hn, nil_append]
    exact .inr (.inl hr.isInfix)
  by_cases hn' : right = []
  · rw [hn', append_nil]
    exact .inl hl.isInfix
  · exact .inr (.inr ⟨left, right, rfl, hn, hn', hl, hr⟩)

/-- The second text is the first one with some parts replaced by blocks of `star`. -/
inductive Masks (star : α) : List α → List α → Prop where
  | nil : Masks star [] []
  | keep {text result : List α} (a : α) : Masks star text result →
      Masks star (a :: text) (a :: result)
  | mask {text result : List α} (part : List α) (n : ℕ) : Masks star text result →
      Masks star (part ++ text) (List.replicate (n + 1) star ++ result)

theorem Masks.eq_of_notMem (h : Masks star text result) (hstar : star ∉ result) :
    text = result := by
  induction h with
  | nil => rfl
  | keep a h ih => rw [ih fun hm => hstar (mem_cons_of_mem a hm)]
  | mask part n h ih => exact absurd (by simp) hstar

theorem Masks.prefix_of_result (h : Masks star text result) (hpi : piece <+: result)
    (hstar : star ∉ piece) : piece <+: text := by
  induction h generalizing piece with
  | nil => exact hpi
  | keep a h ih =>
    cases piece with
    | nil => exact nil_prefix
    | cons b piece =>
      obtain ⟨rfl, hr⟩ := cons_prefix_cons.mp hpi
      apply cons_prefix_cons.mpr
      exact ⟨rfl, ih hr fun hm => hstar (mem_cons_of_mem _ hm)⟩
  | mask part n h ih =>
    cases piece with
    | nil => exact nil_prefix
    | cons b piece =>
      rw [replicate_succ, cons_append] at hpi
      obtain ⟨rfl, -⟩ := cons_prefix_cons.mp hpi
      exact absurd mem_cons_self hstar

variable {blk rest first second : List α}

theorem suffix_of_suffix_append (hbl : ∀ a ∈ blk, a = star)
    (hpi : piece <:+ blk ++ rest) (hstar : star ∉ piece) : piece <:+ rest := by
  induction blk with
  | nil => exact hpi
  | cons a blk ih =>
    rw [cons_append] at hpi
    rcases suffix_cons_iff.mp hpi with rfl | hpi
    · rw [hbl a mem_cons_self] at hstar
      exact absurd mem_cons_self hstar
    · exact ih (fun b hb => hbl b (mem_cons_of_mem a hb)) hpi

theorem infix_of_infix_append (hbl : ∀ a ∈ blk, a = star)
    (hpi : piece <:+: blk ++ rest) (hstar : star ∉ piece) : piece <:+: rest := by
  induction blk with
  | nil => exact hpi
  | cons a blk ih =>
    rw [cons_append] at hpi
    rcases infix_cons_iff.mp hpi with ha | hpi
    · cases piece with
      | nil => exact nil_infix
      | cons b piece =>
        obtain ⟨rfl, -⟩ := cons_prefix_cons.mp ha
        rw [hbl b mem_cons_self] at hstar
        exact absurd mem_cons_self hstar
    · exact ih (fun b hb => hbl b (mem_cons_of_mem a hb)) hpi

theorem eq_star_of_mem_replicate {n : ℕ} : ∀ a ∈ List.replicate n star, a = star := by
  intro a ha
  exact eq_of_mem_replicate ha

theorem Masks.suffix_of_result (h : Masks star text result) (hpi : piece <:+ result)
    (hstar : star ∉ piece) : piece <:+ text := by
  induction h with
  | nil => exact hpi
  | keep a h ih =>
    rcases suffix_cons_iff.mp hpi with rfl | hpi
    · rw [h.eq_of_notMem fun hm => hstar (mem_cons_of_mem a hm)]
    · exact (ih hpi).trans (suffix_cons a _)
  | mask part n h ih =>
    have hr := suffix_of_suffix_append eq_star_of_mem_replicate hpi hstar
    exact (ih hr).trans (suffix_append part _)

theorem Masks.infix_of_result (h : Masks star text result) (hpi : piece <:+: result)
    (hstar : star ∉ piece) : piece <:+: text := by
  induction h with
  | nil => exact hpi
  | keep a h ih =>
    rcases infix_cons_iff.mp hpi with ha | hpi
    · exact ((h.keep a).prefix_of_result ha hstar).isInfix
    · exact (ih hpi).trans (suffix_cons a _).isInfix
  | mask part n h ih =>
    have hr := infix_of_infix_append eq_star_of_mem_replicate hpi hstar
    exact (ih hr).trans (suffix_append part _).isInfix

/-- Whatever can be read in the second text without `star` was in the first one, at the start
or the end of it if it is there in the second. -/
structure Hides (star : α) (text result : List α) : Prop where
  eq_of_notMem : star ∉ result → text = result
  prefix_of_result {piece : List α} : piece <+: result → star ∉ piece → piece <+: text
  suffix_of_result {piece : List α} : piece <:+ result → star ∉ piece → piece <:+ text
  infix_of_result {piece : List α} : piece <:+: result → star ∉ piece → piece <:+: text

theorem Hides.refl (star : α) (text : List α) : Hides star text text :=
  ⟨fun _ => rfl, fun h _ => h, fun h _ => h, fun h _ => h⟩

theorem Hides.trans {mid : List α} (h : Hides star text mid) (h' : Hides star mid result) :
    Hides star text result where
  eq_of_notMem hstar := by
    have hm := h'.eq_of_notMem hstar
    rw [← hm] at hstar ⊢
    exact h.eq_of_notMem hstar
  prefix_of_result hp hstar := h.prefix_of_result (h'.prefix_of_result hp hstar) hstar
  suffix_of_result hp hstar := h.suffix_of_result (h'.suffix_of_result hp hstar) hstar
  infix_of_result hp hstar := h.infix_of_result (h'.infix_of_result hp hstar) hstar

theorem Masks.hides (h : Masks star text result) : Hides star text result :=
  ⟨h.eq_of_notMem, h.prefix_of_result, h.suffix_of_result, h.infix_of_result⟩

variable [DecidableEq α] {needle : List α}

/-- Replaces the leftmost occurrences of `needle` by `marker`; the number counts the symbols
of the last occurrence that are still to be dropped. -/
def replaceFrom (needle marker : List α) : ℕ → List α → List α
  | _, [] => []
  | k + 1, _ :: text => replaceFrom needle marker k text
  | 0, a :: text =>
    if needle.isPrefixOf (a :: text) then
      marker ++ replaceFrom needle marker (needle.length - 1) text
    else
      a :: replaceFrom needle marker 0 text

/-- The text with all leftmost disjoint occurrences of `needle` replaced by `marker`. -/
def replaceAll (needle marker text : List α) : List α :=
  replaceFrom needle marker 0 text

theorem replaceFrom_eq_drop (mk : List α) (k : ℕ) (text : List α) :
    replaceFrom needle mk k text = replaceFrom needle mk 0 (text.drop k) := by
  induction k generalizing text with
  | zero => rw [drop_zero]
  | succ k ih =>
    cases text with
    | nil => rfl
    | cons a text => exact ih text

theorem replaceAll_append (mk rest : List α) (hnd : needle ≠ []) :
    replaceAll needle mk (needle ++ rest) = mk ++ replaceAll needle mk rest := by
  cases needle with
  | nil => exact absurd rfl hnd
  | cons a needle =>
    have ha : (a :: needle).isPrefixOf (a :: (needle ++ rest)) = true := by
      rw [ isPrefixOf_iff_prefix]
      exact ⟨rest, rfl⟩
    rw [replaceAll, cons_append, replaceFrom, if_pos ha, replaceFrom_eq_drop]
    simp [replaceAll]

theorem replaceAll_cons (mk : List α) (a : α) (hnot : ¬ needle <+: a :: text) :
    replaceAll needle mk (a :: text) = a :: replaceAll needle mk text := by
  have ha : ¬ needle.isPrefixOf (a :: text) = true := by
    rwa [ isPrefixOf_iff_prefix]
  rw [replaceAll, replaceFrom, if_neg ha, replaceAll]

theorem replaceAll_induction {motive : List α → Prop} (hnd : needle ≠ [])
    (nil : motive []) (occurrence : ∀ rest, motive rest → motive (needle ++ rest))
    (keep : ∀ a rest, ¬ needle <+: a :: rest → motive rest → motive (a :: rest))
    (text : List α) : motive text := by
  induction hl : text.length using Nat.strong_induction_on generalizing text with
  | _ n ih =>
    subst hl
    cases text with
    | nil => exact nil
    | cons a rest =>
      by_cases ha : needle <+: a :: rest
      · obtain ⟨tail, ht⟩ := ha
        rw [← ht]
        apply occurrence
        apply ih tail.length _ tail rfl
        have hp := length_pos_iff.mpr hnd
        have hs := congrArg List.length ht
        rw [List.length_append] at hs
        omega
      · apply keep a rest ha
        exact ih rest.length (Nat.lt_succ_self _) rest rfl

theorem masks_replaceAll (star : α) (n : ℕ) (hnd : needle ≠ []) (text : List α) :
    Masks star text (replaceAll needle (List.replicate (n + 1) star) text) := by
  induction text using replaceAll_induction hnd with
  | nil => exact .nil
  | occurrence rest ih =>
    rw [replaceAll_append _ _ hnd]
    exact ih.mask needle n
  | keep a rest hn ih =>
    rw [replaceAll_cons _ _ hn]
    exact ih.keep a

theorem not_infix_replaceAll (n : ℕ) (hnd : needle ≠ []) (hstar : star ∉ needle) (text : List α) :
    ¬ needle <:+: replaceAll needle (List.replicate (n + 1) star) text := by
  induction text using replaceAll_induction hnd with
  | nil =>
    intro hw
    exact hnd (infix_nil.mp hw)
  | occurrence rest ih =>
    rw [replaceAll_append _ _ hnd]
    intro hw
    exact ih (infix_of_infix_append eq_star_of_mem_replicate hw hstar)
  | keep a rest hn ih =>
    rw [replaceAll_cons _ _ hn]
    intro hw
    rcases infix_cons_iff.mp hw with ha | hw
    · have hm := (masks_replaceAll star n hnd rest).keep a
      exact hn ( hm.prefix_of_result ha hstar)
    · exact ih hw

theorem replaceAll_eq_self (mk : List α) (hnot : ¬ needle <:+: text) :
    replaceAll needle mk text = text := by
  induction text with
  | nil => rfl
  | cons a text ih =>
    rw [replaceAll_cons mk a fun ha => hnot ha.isInfix, ih]
    intro hw
    exact hnot (hw.trans (suffix_cons a text).isInfix)

def replaceEach (needles : List (List α)) (marker text : List α) : List α :=
  needles.foldl (fun text needle => replaceAll needle marker text) text

variable {needles : List (List α)}

theorem replaceEach_cons (mk text : List α) : replaceEach (needle :: needles) mk text =
      replaceEach needles mk (replaceAll needle mk text) :=
  rfl

theorem hides_replaceEach (star : α) (n : ℕ) (hnd : [] ∉ needles) (text : List α) :
    Hides star text (replaceEach needles (List.replicate (n + 1) star) text) := by
  induction needles generalizing text with
  | nil => exact Hides.refl star text
  | cons needle needles ih =>
    rw [mem_cons, not_or] at hnd
    have hf := (masks_replaceAll star n (Ne.symm hnd.1) text).hides
    exact hf.trans (ih hnd.2 _)

theorem not_infix_replaceEach (n : ℕ) (hnd : [] ∉ needles) (hmem : needle ∈ needles)
    (hstar : star ∉ needle) (text : List α) :
    ¬ needle <:+: replaceEach needles (List.replicate (n + 1) star) text := by
  induction needles generalizing text with
  | nil => exact absurd hmem not_mem_nil
  | cons first needles ih =>
    rw [mem_cons, not_or] at hnd
    rw [replaceEach_cons]
    rcases mem_cons.mp hmem with rfl | hmem
    · -- later needles only hide more of a text the first one is already gone from
      intro hw
      have hh := hides_replaceEach star n hnd.2
        (replaceAll needle (List.replicate (n + 1) star) text)
      exact not_infix_replaceAll n (Ne.symm hnd.1) hstar text ( hh.infix_of_result hw hstar)
    · exact ih hnd.2 hmem _

theorem replaceEach_eq_self (mk : List α) (hnot : ∀ needle ∈ needles, ¬ needle <:+: text) :
    replaceEach needles mk text = text := by
  induction needles with
  | nil => rfl
  | cons needle needles ih =>
    rw [replaceEach_cons, replaceAll_eq_self mk (hnot needle mem_cons_self)]
    exact ih fun other ho => hnot other (mem_cons_of_mem needle ho)

/-! ### A text in two parts -/

/-- No needle begins in the first text and ends in the second one. -/
def Parted (needles : List (List α)) (first second : List α) : Prop :=
  ∀ left right, left ++ right ∈ needles → left ≠ [] → right ≠ [] → left <:+ first →
    ¬ right <+: second

theorem replaceAll_append_of_parted (mk : List α) (hnd : needle ≠ [])
    (h : Parted [needle] first second) : replaceAll needle mk (first ++ second) =
      replaceAll needle mk first ++ replaceAll needle mk second := by
  induction first using replaceAll_induction hnd with
  | nil => rfl
  | occurrence rest ih =>
    rw [append_assoc, replaceAll_append _ _ hnd, replaceAll_append _ _ hnd, append_assoc,
      ih fun left right hm hl hr hs =>
        h left right hm hl hr (hs.trans (suffix_append needle rest))]
  | keep a rest hn ih =>
    have hn' : ¬ needle <+: a :: (rest ++ second) := by
      intro ha
      rcases prefix_or_prefix_of_prefix ha (prefix_append (a :: rest) second) with
        hsh | ⟨right, rfl⟩
      · exact hn hsh
      by_cases hr : right = []
      · rw [hr, append_nil] at hn
        exact hn (prefix_refl _)
      · exact h (a :: rest) right mem_cons_self (cons_ne_nil a rest) hr (suffix_refl _)
          ((prefix_append_right_inj (a :: rest)).mp ha)
    rw [cons_append, replaceAll_cons _ _ hn', replaceAll_cons _ _ hn, cons_append,
      ih fun left right hm hl hr hs =>
        h left right hm hl hr (hs.trans (suffix_cons a rest))]

theorem replaceEach_append_of_parted (n : ℕ) (hnd : [] ∉ needles)
    (hstar : ∀ needle ∈ needles, star ∉ needle) (h : Parted needles first second) :
    replaceEach needles (List.replicate (n + 1) star) (first ++ second) =
      replaceEach needles (List.replicate (n + 1) star) first ++
        replaceEach needles (List.replicate (n + 1) star) second := by
  induction needles generalizing first second with
  | nil => rfl
  | cons needle needles ih =>
    rw [mem_cons, not_or] at hnd
    have hne := Ne.symm hnd.1
    have hon : Parted [needle] first second := fun left right hm =>
      h left right (mem_singleton.mp hm ▸ mem_cons_self)
    rw [replaceEach_cons, replaceEach_cons, replaceEach_cons, replaceAll_append_of_parted _ hne hon]
    apply ih hnd.2 fun other ho => hstar other (mem_cons_of_mem needle ho)
    -- what is read beside the markers was there before
    intro left right hm hl hr hs ha
    have hf := hstar _ (mem_cons_of_mem needle hm)
    rw [mem_append, not_or] at hf
    exact h left right (mem_cons_of_mem needle hm) hl hr
      ((masks_replaceAll star n hne first).suffix_of_result hs hf.1)
      ((masks_replaceAll star n hne second).prefix_of_result ha hf.2)

/-- No needle ends as another one begins; one may contain another. -/
def OverlapFree (needles : List (List α)) : Prop :=
  ∀ needle ∈ needles, ∀ other ∈ needles, ∀ piece, piece ≠ [] → piece <:+ needle →
    piece ≠ needle → piece <+: other → piece = other

/-- No needle contains another one, and none ends as a needle begins. -/
structure Separate (needles : List (List α)) : Prop where
  contained : ∀ needle ∈ needles, ∀ other ∈ needles, needle <:+: other → needle = other
  overlap : ∀ needle ∈ needles, ∀ other ∈ needles, ∀ piece, piece ≠ [] → piece <:+ needle →
    piece ≠ needle → ¬ piece <+: other

end Masking
