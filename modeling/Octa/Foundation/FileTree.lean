import Mathlib.Data.List.Infix
import Octa.Foundation.IndexMap

/-!
# Finite file trees

A file tree is a finite association list from absolute paths to nodes, and every
operation is described by the node it leaves at each path.
-/

namespace FileTree

open List

/-- A directory, or a leaf with content (a regular file, a symbolic link). -/
inductive Node (κ : Type) where
  | dir
  | leaf (content : κ)
  deriving DecidableEq, Repr

inductive ErrorKind where
  | notFound
  | alreadyExists
  | notADirectory
  | directoryNotEmpty
  | invalidInput
  | other
  deriving DecidableEq, Repr

abbrev Path (ν : Type) := List ν

abbrev Tree (ν κ : Type) := List (Path ν × Node κ)

variable {ν κ : Type} [DecidableEq ν]

/-! ## Paths -/

def Apart (p q : Path ν) : Prop := ¬p <+: q ∧ ¬q <+: p

variable {p q dst src : Path ν}

omit [DecidableEq ν] in
theorem Apart.symm (h : Apart p q) : Apart q p := ⟨h.2, h.1⟩

omit [DecidableEq ν] in
theorem Apart.not_both {z : Path ν} (h : Apart p q) (hp : p <+: z) : ¬q <+: z :=
  fun hq => (List.prefix_or_prefix_of_prefix hp hq).elim h.1 h.2

omit [DecidableEq ν] in
theorem Apart.append_left (h : Apart p q) (r : Path ν) : Apart (p ++ r) q :=
  ⟨fun hq => h.1 ((prefix_append p r).trans hq), fun hq => h.not_both (prefix_append p r) hq⟩

omit [DecidableEq ν] in
theorem Apart.append (h : Apart p q) (r s : Path ν) : Apart (p ++ r) (q ++ s) :=
  (h.append_left r).symm.append_left s |>.symm

variable {a b base : Path ν}

omit [DecidableEq ν] in
theorem apart_append_iff : Apart (p ++ a) (p ++ b) ↔ Apart a b := by
  simp only [Apart, prefix_append_right_inj]

omit [DecidableEq ν] in
theorem apart_of_ne {x y : ν} (h : x ≠ y) : Apart (p ++ x :: a) (p ++ y :: b) := by
  rw [apart_append_iff]
  constructor
  · intro hp
    exact h (cons_prefix_cons.mp hp).1
  · intro hp
    exact h (cons_prefix_cons.mp hp).1.symm

omit [DecidableEq ν] in
theorem prefix_dropLast_of_ne (h : p <+: q) (hne : p ≠ q) : p <+: q.dropLast := by
  obtain ⟨r, rfl⟩ := h
  have hr : r ≠ [] := by
    rintro rfl
    exact hne (append_nil p).symm
  rw [dropLast_append_of_ne_nil hr]
  exact prefix_append _ _

omit [DecidableEq ν] in
theorem length_dropLast_lt (hp : p ≠ []) (h : p <+: q) : ¬q <+: p.dropLast := by
  intro hq
  have hl := hq.length_le
  have hle := h.length_le
  have hpo := length_pos_iff.mpr hp
  rw [length_dropLast] at hl
  omega

/-! ## Reading -/

def get (t : Tree ν κ) (p : Path ν) : Option (Node κ) := t.lookup p

/-- The part of a tree at and under a path, addressed relative to it. -/
def below (t : Tree ν κ) (p : Path ν) : Path ν → Option (Node κ) :=
  fun r => get t (p ++ r)

def absent : Path ν → Option (Node κ) := fun _ => none

@[simp] theorem get_nil (p : Path ν) : get ([] : Tree ν κ) p = none := rfl

theorem get_cons (p q : Path ν) (n : Node κ) (t : Tree ν κ) :
    get ((p, n) :: t) q = if q = p then some n else get t q :=
  IndexMap.lookup_cons_ite p q n t

variable {t : Tree ν κ}

theorem get_eq_none_iff : get t p = none ↔ ∀ e ∈ t, e.1 ≠ p := by
  induction t with
  | nil => simp
  | cons e t ih =>
    obtain ⟨q, n⟩ := e
    rw [get_cons]
    by_cases h : p = q
    · subst h
      simp
    · simp [h, ih, Ne.symm h]

theorem get_append (s t : Tree ν κ) (p : Path ν) : get (s ++ t) p = (get s p).or (get t p) := by
  induction s with
  | nil => simp
  | cons e s ih =>
    obtain ⟨q, n⟩ := e
    rw [cons_append, get_cons, get_cons, ih]
    by_cases h : p = q <;> simp [h]

theorem get_of_forall_eq {n : Node κ} (hall : ∀ e ∈ t, e.2 = n)
    (hp : ∃ e ∈ t, e.1 = p) : get t p = some n := by
  induction t with
  | nil => simp at hp
  | cons e t ih =>
    obtain ⟨q, m⟩ := e
    rw [get_cons]
    split
    · rw [← hall (q, m) mem_cons_self]
    rename_i hne
    obtain ⟨e, he, rfl⟩ := hp
    rcases mem_cons.mp he with rfl | he
    · exact absurd rfl hne
    · exact ih (fun e he => hall e (mem_cons_of_mem _ he)) ⟨e, he, rfl⟩

section

variable (hcl : ∀ p, p ≠ [] → get t p ≠ none → get t p.dropLast = some .dir)
include hcl

theorem dir_of_above
    (hp : get t p ≠ none) (hq : q <+: p) (hne : q ≠ p) : get t q = some .dir := by
  induction p using List.reverseRecOn with
  | nil => exact absurd (prefix_nil.mp hq) hne
  | append_singleton p a ih =>
    have hpa : get t p = some .dir := by
      have h := hcl (p ++ [a]) (by simp) hp
      rwa [dropLast_concat] at h
    have hqp : q <+: p := by
      have h := prefix_dropLast_of_ne hq hne
      rwa [dropLast_concat] at h
    by_cases hs : q = p
    · rw [hs, hpa]
    · exact ih (by simp [hpa]) hqp hs

theorem below_of_missing
    (hp : get t p = none) : below t p = absent := by
  funext r
  by_contra hs
  by_cases hr : r = []
  · rw [below, hr, append_nil, hp] at hs
    exact hs rfl
  have hd := dir_of_above hcl hs (prefix_append _ r) (by simpa using hr)
  rw [hp] at hd
  simp at hd

end

def isEmptyBelow (t : Tree ν κ) (p : Path ν) : Bool :=
  t.all fun e => !(p.isPrefixOf e.1 && decide (e.1 ≠ p))

theorem isEmptyBelow_iff : isEmptyBelow t p = true ↔ ∀ r, r ≠ [] → get t (p ++ r) = none := by
  simp only [isEmptyBelow, all_eq_true, Bool.not_eq_true', Bool.and_eq_false_imp,
    isPrefixOf_iff_prefix, decide_eq_false_iff_not, not_not]
  constructor
  · intro h r hr
    rw [get_eq_none_iff]
    intro e he heq
    have hs := h e he (heq ▸ prefix_append p r)
    rw [hs] at heq
    exact hr (append_cancel_left (heq.symm.trans (append_nil p).symm))
  rintro h e he ⟨r, hr⟩
  by_contra hne
  have hr' : r ≠ [] := by
    rintro rfl
    exact hne (by simpa using hr.symm)
  exact get_eq_none_iff.mp (h r hr') e he hr.symm

/-! ## Removing -/

def erase (t : Tree ν κ) (p : Path ν) : Tree ν κ := t.filter fun e => decide (e.1 ≠ p)

def eraseBelow (t : Tree ν κ) (p : Path ν) : Tree ν κ :=
  t.filter fun e => !p.isPrefixOf e.1

theorem get_filter (t : Tree ν κ) (keep : Path ν → Bool) (q : Path ν) :
    get (t.filter fun e => keep e.1) q = if keep q then get t q else none := by
  induction t with
  | nil => simp
  | cons e t ih =>
    obtain ⟨p, n⟩ := e
    by_cases hk : keep p = true
    · rw [filter_cons_of_pos (by simpa using hk), get_cons, get_cons, ih]
      by_cases h : q = p
      · subst h
        simp [hk]
      · simp [h]
    rw [filter_cons_of_neg (by simpa using hk), get_cons, ih]
    by_cases h : q = p
    · subst h
      simp [hk]
    · simp [h]

theorem get_erase (t : Tree ν κ) (p q : Path ν) :
    get (erase t p) q = if q = p then none else get t q := by
  rw [erase, get_filter t (fun k => decide (k ≠ p))]
  by_cases h : q = p <;> simp [h]

theorem get_eraseBelow (t : Tree ν κ) (p q : Path ν) :
    get (eraseBelow t p) q = if p <+: q then none else get t q := by
  rw [eraseBelow, get_filter t (fun k => !p.isPrefixOf k)]
  by_cases h : p <+: q
  · simp [h, isPrefixOf_iff_prefix.mpr h]
  have hb : p.isPrefixOf q = false := by
    rw [← Bool.not_eq_true, isPrefixOf_iff_prefix]
    exact h
  simp [h, hb]

/-! ## Moving -/

/-- Where a path of a tree goes when the subtree at `src` moves to `dst`. -/
def relocate (src dst p : Path ν) : Path ν :=
  if src <+: p then dst ++ p.drop src.length else p

def move (t : Tree ν κ) (src dst : Path ν) : Tree ν κ :=
  (eraseBelow t dst).map fun e => (relocate src dst e.1, e.2)

theorem get_map_of_iff {f : Path ν → Path ν} {k : Path ν} (h : ∀ e ∈ t, q = f e.1 ↔ k = e.1) :
    get (t.map fun e => (f e.1, e.2)) q = get t k := by
  induction t with
  | nil => rfl
  | cons e t ih =>
    have he := h e mem_cons_self
    obtain ⟨p, n⟩ := e
    rw [map_cons, get_cons, get_cons, ih fun e he => h e (mem_cons_of_mem _ he)]
    simp only at he
    by_cases hk : k = p
    · rw [if_pos hk, if_pos (he.mpr hk)]
    · rw [if_neg hk, if_neg (mt he.mp hk)]

theorem relocate_append (src dst r : Path ν) : relocate src dst (src ++ r) = dst ++ r := by
  simp [relocate]

theorem relocate_of_outside (h : ¬src <+: p) : relocate src dst p = p := by
  simp [relocate, h]

section

variable (h : Apart src dst)
include h

theorem get_move (q : Path ν) : get (move t src dst) q =
      if dst <+: q then get t (src ++ q.drop dst.length)
      else if src <+: q then none else get t q := by
  have hf : ∀ e ∈ eraseBelow t dst, ¬dst <+: e.1 := by
    intro e he hp
    have hk := (mem_filter.mp he).2
    rw [List.isPrefixOf_iff_prefix.mpr hp] at hk
    simp at hk
  by_cases hd : dst <+: q
  · -- inside the destination only relocated entries can appear
    obtain ⟨r, rfl⟩ := hd
    rw [if_pos (prefix_append dst r), drop_left, move, get_map_of_iff
      (k := src ++ r), get_eraseBelow, if_neg (h.not_both (prefix_append src r))]
    intro e he
    by_cases hs : src <+: e.1
    · obtain ⟨r', hr'⟩ := hs
      rw [← hr', relocate_append, append_cancel_left_eq, append_cancel_left_eq]
    rw [relocate_of_outside hs]
    constructor
    · intro heq
      exact (hf e he ⟨r, heq⟩).elim
    · intro heq
      exact (hs ⟨r, heq⟩).elim
  · rw [if_neg hd]
    by_cases hs : src <+: q
    · rw [if_pos hs, move, get_eq_none_iff]
      intro e he heq
      obtain ⟨e', he', rfl⟩ := mem_map.mp he
      by_cases hs' : src <+: e'.1
      · obtain ⟨r, hr⟩ := hs'
        simp only [← hr, relocate_append] at heq
        exact hd ⟨r, heq⟩
      · simp only [relocate_of_outside hs'] at heq
        exact hs' (heq ▸ hs)
    · rw [if_neg hs, move, get_map_of_iff (k := q), get_eraseBelow, if_neg hd]
      intro e he
      by_cases hs' : src <+: e.1
      · obtain ⟨r, hr⟩ := hs'
        rw [← hr, relocate_append]
        constructor
        · intro heq
          exact (hd ⟨r, heq.symm⟩).elim
        · intro heq
          exact (hs ⟨r, heq.symm⟩).elim
      · rw [relocate_of_outside hs']

theorem below_move_dst : below (move t src dst) dst = below t src := by
  funext r
  rw [below, get_move h, if_pos (prefix_append dst r), drop_left, below]

theorem below_move_src : below (move t src dst) src = absent := by
  funext r
  have hs : src <+: src ++ r := prefix_append src r
  rw [below, get_move h, if_neg (h.not_both hs), if_pos hs, absent]

theorem get_move_of_outside
    (hs : ¬src <+: q) (hd : ¬dst <+: q) : get (move t src dst) q = get t q := by
  rw [get_move h, if_neg hd, if_neg hs]

theorem below_move_of_apart
    (hs : Apart src p) (hd : Apart dst p) : below (move t src dst) p = below t p := by
  funext r
  exact get_move_of_outside h (fun hp => hs.not_both hp (prefix_append p r))
    (fun hp => hd.not_both hp (prefix_append p r))

end

/-! ## Operations -/

def createDir (t : Tree ν κ) (p : Path ν) : Except ErrorKind (Tree ν κ) :=
  if (get t p).isSome then .error .alreadyExists
  else match get t p.dropLast with
    | none => .error .notFound
    | some (.leaf _) => .error .notADirectory
    | some .dir => .ok ((p, .dir) :: t)

/-- Create `base` when it is missing, then each path on the way from `base`
along the remaining names. -/
def createDirs (t : Tree ν κ) (base : Path ν) : List ν → Except ErrorKind (Tree ν κ)
  | [] =>
    match get t base with
    | some .dir => .ok t
    | some (.leaf _) => .error .notADirectory
    | none => .ok ((base, .dir) :: t)
  | name :: rest =>
    match get t base with
    | some .dir => createDirs t (base ++ [name]) rest
    | some (.leaf _) => .error .notADirectory
    | none => createDirs ((base, .dir) :: t) (base ++ [name]) rest

def createDirAll (t : Tree ν κ) (p : Path ν) : Except ErrorKind (Tree ν κ) :=
  createDirs t [] p

def removeDir (t : Tree ν κ) (p : Path ν) : Except ErrorKind (Tree ν κ) :=
  match get t p with
  | none => .error .notFound
  | some (.leaf _) => .error .notADirectory
  | some .dir =>
    if isEmptyBelow t p then .ok (erase t p) else .error .directoryNotEmpty

def removeDirAll (t : Tree ν κ) (p : Path ν) : Except ErrorKind (Tree ν κ) :=
  match get t p with
  | none => .error .notFound
  | some (.leaf _) => .error .notADirectory
  | some .dir => .ok (eraseBelow t p)

/-- Move the subtree at `src` to `dst`.  A leaf replaces a leaf and a
directory replaces an empty directory; any other occupied destination is
refused. -/
def rename (t : Tree ν κ) (src dst : Path ν) : Except ErrorKind (Tree ν κ) :=
  match get t src with
  | none => .error .notFound
  | some moved =>
    match get t dst.dropLast with
    | none => .error .notFound
    | some (.leaf _) => .error .notADirectory
    | some .dir =>
      if src <+: dst then .error .invalidInput
      else if dst <+: src then .error .directoryNotEmpty
      else match moved, get t dst with
        | _, none => .ok (move t src dst)
        | .leaf _, some (.leaf _) => .ok (move t src dst)
        | .leaf _, some .dir => .error .alreadyExists
        | .dir, some (.leaf _) => .error .notADirectory
        | .dir, some .dir =>
          if isEmptyBelow t dst then .ok (move t src dst)
          else .error .directoryNotEmpty

theorem createDir_eq_ok (hfree : get t p = none) (hpar : get t p.dropLast = some .dir) :
    createDir t p = .ok ((p, .dir) :: t) := by
  simp [createDir, hfree, hpar]

theorem createDirs_of_dirs {rest : List ν}
    (h : ∀ q, base <+: q → q <+: base ++ rest → get t q = some .dir) :
    createDirs t base rest = .ok t := by
  induction rest generalizing base with
  | nil => simp [createDirs, h base (prefix_refl base) (by simp)]
  | cons name rest ih =>
    rw [createDirs, h base (prefix_refl base) (prefix_append _ _)]
    apply ih
    intro q hq hq'
    exact h q ((prefix_append _ _).trans hq) (by simpa using hq')

theorem createDirAll_of_dirs (h : ∀ q, q <+: p → get t q = some .dir) : createDirAll t p = .ok t :=
  createDirs_of_dirs fun q _ hq => h q (by simpa using hq)

theorem createDirs_spec {rest : List ν}
    (h : ∀ q, base <+: q → q <+: base ++ rest → get t q = some .dir ∨ get t q = none) :
    ∃ t', createDirs t base rest = .ok t' ∧
      ∀ q, get t' q = if base <+: q ∧ q <+: base ++ rest then some .dir else get t q := by
  induction rest generalizing base t with
  | nil =>
    have ho : ∀ q, base <+: q ∧ q <+: base ++ [] ↔ q = base := by
      intro q
      constructor
      · rintro ⟨h₁, h₂⟩
        rw [append_nil] at h₂
        exact h₂.eq_of_length_le h₁.length_le
      · rintro rfl
        simp
    rcases h base (prefix_refl base) (by simp) with hd | hno
    · refine ⟨t, by simp [createDirs, hd], fun q => ?_⟩
      by_cases hq : q = base
      · rw [if_pos ((ho q).mpr hq), hq, hd]
      · rw [if_neg (mt (ho q).mp hq)]
    refine ⟨(base, .dir) :: t, by simp [createDirs, hno], fun q => ?_⟩
    rw [get_cons]
    by_cases hq : q = base
    · rw [if_pos hq, if_pos ((ho q).mpr hq)]
    · rw [if_neg hq, if_neg (mt (ho q).mp hq)]
  | cons name rest ih =>
    have ha : base ++ name :: rest = base ++ [name] ++ rest := by simp
    -- a path between `base` and the end is `base` itself or goes through `name`
    have hs : ∀ q, base <+: q ∧ q <+: base ++ name :: rest ↔
        q = base ∨ base ++ [name] <+: q ∧ q <+: base ++ [name] ++ rest := by
      intro q
      constructor
      · rintro ⟨⟨r, rfl⟩, hq⟩
        rw [prefix_append_right_inj] at hq
        cases r with
        | nil => exact Or.inl (append_nil base)
        | cons x r =>
          obtain ⟨rfl, hr⟩ := cons_prefix_cons.mp hq
          refine Or.inr ⟨?_, ?_⟩
          · rw [prefix_append_right_inj]
            exact cons_prefix_cons.mpr ⟨rfl, nil_prefix⟩
          · rw [← ha, prefix_append_right_inj]
            exact cons_prefix_cons.mpr ⟨rfl, hr⟩
      · rintro (rfl | ⟨h₁, h₂⟩)
        · exact ⟨prefix_refl q, prefix_append _ _⟩
        · exact ⟨(prefix_append _ _).trans h₁, ha ▸ h₂⟩
    have hn : ¬base ++ [name] <+: base := by
      intro hp
      have hl := hp.length_le
      rw [List.length_append, length_singleton] at hl
      omega
    rcases h base (prefix_refl base) (prefix_append _ _) with hd | hno
    · have hre : ∀ q, base ++ [name] <+: q → q <+: base ++ [name] ++ rest →
          get t q = some .dir ∨ get t q = none :=
        fun q h₁ h₂ => h q ((prefix_append _ _).trans h₁) (ha ▸ h₂)
      obtain ⟨t', ht', hg⟩ := ih hre
      refine ⟨t', by rw [createDirs, hd]; exact ht', fun q => ?_⟩
      rw [hg, if_congr (hs q) rfl rfl]
      by_cases hq : q = base
      · subst hq
        rw [if_neg (fun hc => hn hc.1), if_pos (Or.inl rfl), hd]
      · rw [if_congr (show _ ↔ _ from ⟨Or.inr, fun hc => hc.resolve_left hq⟩) rfl rfl]
    · have hre : ∀ q, base ++ [name] <+: q → q <+: base ++ [name] ++ rest →
          get ((base, .dir) :: t) q = some .dir ∨ get ((base, .dir) :: t) q = none := by
        intro q h₁ h₂
        have hne : q ≠ base := by
          rintro rfl
          exact hn h₁
        rw [get_cons, if_neg hne]
        exact h q ((prefix_append _ _).trans h₁) (ha ▸ h₂)
      obtain ⟨t', ht', hg⟩ := ih hre
      refine ⟨t', by rw [createDirs, hno]; exact ht', fun q => ?_⟩
      rw [hg, if_congr (hs q) rfl rfl]
      by_cases hq : q = base
      · subst hq
        rw [if_neg (fun hc => hn hc.1), if_pos (Or.inl rfl), get_cons, if_pos rfl]
      · rw [get_cons, if_neg hq,
          if_congr (show _ ↔ _ from ⟨Or.inr, fun hc => hc.resolve_left hq⟩) rfl rfl]

theorem createDirAll_spec (h : ∀ q, q <+: p → get t q = some .dir ∨ get t q = none) :
    ∃ t', createDirAll t p = .ok t' ∧ ∀ q, get t' q = if q <+: p then some .dir else get t q := by
  have hf : ∀ q, [] <+: q → q <+: [] ++ p → get t q = some .dir ∨ get t q = none :=
    fun q _ hq => h q hq
  obtain ⟨t', ht', hg⟩ := createDirs_spec hf
  refine ⟨t', ht', fun q => ?_⟩
  rw [hg]
  simp

theorem rename_eq_ok (h : Apart src dst)
    (hsrc : get t src ≠ none) (hpar : get t dst.dropLast = some .dir)
    (hdst : get t dst = none) : rename t src dst = .ok (move t src dst) := by
  obtain ⟨n, hn⟩ := Option.ne_none_iff_exists'.mp hsrc
  simp [rename, hn, hpar, hdst, h.1, h.2]

end FileTree
