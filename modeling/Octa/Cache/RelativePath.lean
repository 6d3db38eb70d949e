import Octa.Foundation.FileTree
import Mathlib.Data.List.Pairwise
import Mathlib.Data.String.Basic
import Mathlib.Data.List.Sort

/-!
# Portable workspace-relative paths

A relative path is validated text with `/` separators.  The text is what the
code stores, compares and strips prefixes from; the list of its components is
what a file system sees.
-/

namespace Octa.Cache

open FileTree
open List hiding contains

inductive CacheProtocolError where
  | path (message : String)
  | action (message : String)
  | result (message : String)
  | configuration (message : String)
  deriving DecidableEq, Repr

abbrev FsPath := Path String

inductive CacheError where
  | cancelled
  | configuration (message : String)
  | path (path : FsPath) (reason : String)
  | invalidBundle (message : String)
  | limit (message : String)
  | protocol (error : CacheProtocolError)
  | metadata (message : String)
  | io (operation : String) (path : FsPath) (source : ErrorKind)
  deriving DecidableEq, Repr

abbrev CacheResult (α : Type) := Except CacheError α

def display (path : FsPath) : String := "/" ++ "/".intercalate path

def maxCacheStringBytes : ℕ := 16 * 1024

def maxCacheListItems : ℕ := 4096

/-- The general category `Cc`. -/
def isControl (c : Char) : Bool :=
  decide (c.toNat < 0x20) || (decide (0x7f ≤ c.toNat) && decide (c.toNat ≤ 0x9f))

/-- The `/`-separated parts of a text. -/
def splitSlash (value : String) : List String :=
  (value.toList.splitOn '/').map String.ofList

def validate (value : String) : Except CacheProtocolError Unit :=
  if value.isEmpty then
    .error (.path "path must not be empty; use '.' for the workspace root")
  else if value.utf8ByteSize > maxCacheStringBytes then
    .error (.path s!"path exceeds {maxCacheStringBytes} UTF-8 bytes")
  else if value = "." then .ok ()
  else if value.toList.head? = some '/' || value.toList.any (fun c => c == '\\' || c == ':') then
    .error (.path "path must be portable, relative, and use '/' separators")
  else if value.toList.any isControl then
    .error (.path "path must not contain control characters")
  else if (splitSlash value).any (fun part => part == "" || part == "." || part == "..") then
    .error (.path "path must be normalized and remain inside the workspace")
  else .ok ()

structure RelativePath where
  value : String
  valid : validate value = .ok ()
  deriving DecidableEq

namespace RelativePath

def new (value : String) : Except CacheProtocolError RelativePath :=
  match h : validate value with
  | .ok () => .ok ⟨value, h⟩
  | .error error => .error error

def root : RelativePath := ⟨".", by decide +kernel⟩

def isRoot (p : RelativePath) : Bool := p.value == "."

def components (p : RelativePath) : FsPath := splitSlash p.value

instance : LT RelativePath := ⟨fun p q => p.value < q.value⟩

instance : DecidableLT RelativePath :=
  fun p q => inferInstanceAs (Decidable (p.value < q.value))

theorem ext_value {p q : RelativePath} (h : p.value = q.value) : p = q := by
  cases p
  cases q
  simp only [mk.injEq]
  exact h

end RelativePath

/-- The rest of `text` after `pre`, when `text` starts with it. -/
def stripPrefix (text pre : List Char) : Option (List Char) :=
  if pre <+: text then some (text.drop pre.length) else none

def isStrictAncestor (parent path : RelativePath) : Bool :=
  match stripPrefix path.value.toList parent.value.toList with
  | some suffix => suffix.head? == some '/'
  | none => false

def contains (root path : RelativePath) : Bool :=
  decide (path = root) || isStrictAncestor root path

/-- Bytewise comparison of two component lists in which a list precedes its
extensions. -/
def compareComponents : FsPath → FsPath → Ordering
  | left :: ls, right :: rs =>
    match compare left right with
    | .eq => compareComponents ls rs
    | ordering => ordering
  | [], _ :: _ => .lt
  | _ :: _, [] => .gt
  | [], [] => .eq

def comparePaths (left right : RelativePath) : Ordering :=
  compareComponents left.components right.components

def separatorPrefixes (pre : List Char) : List Char → List (List Char)
  | [] => []
  | c :: rest =>
    if c = '/' then pre :: separatorPrefixes (pre ++ [c]) rest
    else separatorPrefixes (pre ++ [c]) rest

/-- The loop of `validate_output_roots` over the sorted roots. -/
def checkOutputRoots (seen : List String) : List RelativePath → CacheResult Unit
  | [] => .ok ()
  | root :: rest =>
    if root.isRoot then
      .error (.configuration "the workspace root cannot be a cache output")
    else if root.value ∈ seen then
      .error (.configuration
        s!"cache output root '{root.value}' is declared more than once")
    else
      match (separatorPrefixes [] root.value.toList).find?
          (fun ancestor => String.ofList ancestor ∈ root.value :: seen) with
      | some ancestor =>
        let ancestor := String.ofList ancestor
        .error (.configuration
          s!"cache output roots '{ancestor}' and '{root.value}' overlap")
      | none => checkOutputRoots (root.value :: seen) rest

def validateOutputRoots (roots : List RelativePath) : CacheResult (List RelativePath) :=
  if roots.isEmpty then
    .error (.configuration "at least one cache output root is required")
  else do
    let roots := roots.mergeSort fun left right => comparePaths left right != .gt
    checkOutputRoots [] roots
    return roots

/-! ## From text to components -/

theorem ofList_map_injective : Function.Injective (map String.ofList) :=
  map_injective_iff.mpr fun a b h => by
    simpa using congrArg String.toList h

theorem splitSlash_injective : Function.Injective splitSlash := by
  intro a b h
  have hl := ofList_map_injective h
  have ht := congrArg (fun parts => intercalate ['/'] parts) hl
  simp only [intercalate_splitOn] at ht
  exact String.toList_injective ht

theorem splitSlash_ne_nil (val : String) : splitSlash val ≠ [] := by
  simp [splitSlash, splitOn, splitOnP_ne_nil]

theorem components_ne_nil (p : RelativePath) : p.components ≠ [] := splitSlash_ne_nil p.value

theorem RelativePath.components_injective : Function.Injective RelativePath.components :=
  fun _ _ h => RelativePath.ext_value (splitSlash_injective h)

theorem intercalate_append {sep : Char} {a b : List (List Char)} (ha : a ≠ []) (hb : b ≠ []) :
    intercalate [sep] (a ++ b) = intercalate [sep] a ++ sep :: intercalate [sep] b := by
  induction a with
  | nil => exact (ha rfl).elim
  | cons x a ih =>
    cases a with
    | nil =>
      obtain ⟨y, b, rfl⟩ := exists_cons_of_ne_nil hb
      simp [intercalate]
    | cons y a =>
      have := ih (by simp)
      simp only [intercalate, cons_append, intersperse_cons_cons, flatten_cons] at this ⊢
      rw [this]
      simp

theorem prefix_slash_iff (a b : String) :
    a.toList ++ ['/'] <+: b.toList ↔ ∃ r, r ≠ [] ∧ splitSlash b = splitSlash a ++ r := by
  constructor
  · rintro ⟨rest, hre⟩
    refine ⟨(rest.splitOn '/').map String.ofList, ?_, ?_⟩
    · simp [splitOn, splitOnP_ne_nil]
    · rw [splitSlash, ← hre, append_assoc, singleton_append,
        splitOn_append_cons_self, map_append, splitSlash]
  rintro ⟨r, hr, hs⟩
  have hl : b.toList.splitOn '/' = a.toList.splitOn '/' ++ r.map String.toList := by
    apply ofList_map_injective
    rw [map_append, map_map]
    simpa [splitSlash, Function.comp_def] using hs
  have ht := congrArg (intercalate ['/']) hl
  rw [intercalate_splitOn, intercalate_append (by simp [splitOn, splitOnP_ne_nil])
    (by simpa using hr), intercalate_splitOn] at ht
  exact ⟨intercalate ['/'] (r.map String.toList), by rw [ht]; simp⟩

theorem slash_not_mem {text part : List Char} (h : part ∈ text.splitOn '/') : '/' ∉ part := by
  induction text generalizing part with
  | nil =>
    rw [splitOn_nil, mem_singleton] at h
    simp [h]
  | cons c text ih =>
    rw [splitOn_cons_eq_if_modifyHead] at h
    split at h
    · rcases mem_cons.mp h with rfl | h
      · simp
      · exact ih h
    rename_i hc
    obtain ⟨first, rest, hs⟩ := exists_cons_of_ne_nil (splitOn_ne_nil '/' text)
    rw [hs] at h ih
    rcases mem_cons.mp h with rfl | h
    · have hf := ih mem_cons_self
      have hne : '/' ≠ c := by
        rintro rfl
        simp at hc
      simp [hne, hf]
    · exact ih (mem_cons_of_mem _ h)

theorem splitSlash_intercalate_names {names : FsPath} (hpa : ∀ name ∈ names, '/' ∉ name.toList)
    (hns : names ≠ []) : splitSlash ("/".intercalate names) = names := by
  have hl : ∀ part ∈ names.map String.toList, '/' ∉ part := by
    intro part hp
    obtain ⟨name, hn, rfl⟩ := mem_map.mp hp
    exact hpa name hn
  rw [splitSlash, String.toList_intercalate]
  change (splitOn '/' (intercalate ['/'] (names.map String.toList))).map String.ofList = names
  rw [splitOn_intercalate '/' hl (by simpa using hns), map_map]
  simp [Function.comp_def]

theorem splitSlash_intercalate {p : RelativePath} {a r : FsPath} (h : p.components = a ++ r)
    (ha : a ≠ []) : splitSlash ("/".intercalate a) = a := by
  refine splitSlash_intercalate_names ?_ ha
  intro name hn
  have hm : name ∈ p.components := by
    rw [h]
    exact mem_append_left _ hn
  obtain ⟨text, ht, rfl⟩ := mem_map.mp hm
  rw [String.toList_ofList]
  exact slash_not_mem ht

theorem validate_eq_ok_iff {val : String} (hdot : val ≠ ".") :
    validate val = .ok () ↔ val.isEmpty = false ∧
      val.utf8ByteSize ≤ maxCacheStringBytes ∧ val.toList.head? ≠ some '/' ∧
      (∀ c ∈ val.toList, c ≠ '\\' ∧ c ≠ ':') ∧ (∀ c ∈ val.toList, isControl c = false) ∧
      ∀ part ∈ splitSlash val, part ≠ "" ∧ part ≠ "." ∧ part ≠ ".." := by
  unfold validate
  split_ifs with he hsi hp hco hn
  · simp [he]
  · simp only [false_iff]
    intro h
    omega
  · simp only [false_iff]
    rintro ⟨-, -, hh, hch, -⟩
    simp only [Bool.or_eq_true, decide_eq_true_eq, any_eq_true, beq_iff_eq] at hp
    rcases hp with hs | ⟨c, hc, hb | hb⟩
    · exact hh hs
    · exact (hch c hc).1 hb
    · exact (hch c hc).2 hb
  · simp only [false_iff]
    rintro ⟨-, -, -, -, hct, -⟩
    obtain ⟨c, hc, hb⟩ := any_eq_true.mp hco
    rw [hct c hc] at hb
    simp at hb
  · simp only [false_iff]
    rintro ⟨-, -, -, -, -, hpa⟩
    obtain ⟨part, hpr, hb⟩ := any_eq_true.mp hn
    obtain ⟨h₁, h₂, h₃⟩ := hpa part hpr
    simp [h₁, h₂, h₃] at hb
  · simp only [true_iff]
    simp only [Bool.or_eq_true, decide_eq_true_eq, not_or, Bool.not_eq_true,
      any_eq_false, beq_iff_eq] at hp hco hn
    refine ⟨by simpa using he, by omega, hp.1, ?_, hco, ?_⟩
    · intro c hc
      simpa using hp.2 c hc
    · intro part hpr
      simpa [and_assoc] using hn part hpr

theorem RelativePath.new_of_components {p : RelativePath} {a r : FsPath}
    (h : p.components = a ++ r) (ha : a ≠ []) (hr : r ≠ []) :
    ∃ q, RelativePath.new ("/".intercalate a) = .ok q ∧ q.components = a := by
  have hsp := splitSlash_intercalate h ha
  generalize "/".intercalate a = u at hsp
  have hm : ∀ part ∈ splitSlash u, part ∈ splitSlash p.value := by
    intro part hpr
    rw [hsp] at hpr
    change part ∈ p.components
    rw [h]
    exact mem_append_left _ hpr
  obtain ⟨rest, hre⟩ := (prefix_slash_iff u p.value).mpr ⟨r, hr, by rw [hsp]; exact h⟩
  have hd : p.value ≠ "." := by
    intro he
    have hl : p.components.length = 1 := by
      rw [RelativePath.components, he]
      decide
    have hp := length_pos_iff.mpr ha
    have hp' := length_pos_iff.mpr hr
    rw [h, length_append] at hl
    omega
  obtain ⟨-, hsi, hh, hch, hct, hpa⟩ := (validate_eq_ok_iff hd).mp p.valid
  have hne : u ≠ "" := by
    rintro rfl
    exact (hpa "" (hm "" (by decide))).1 rfl
  have hu : u ≠ "." := by
    rintro rfl
    exact (hpa "." (hm "." (by decide))).2.1 rfl
  have ho : validate u = .ok () := by
    have hs : ∀ c ∈ u.toList, c ∈ p.value.toList := by
      intro c hc
      rw [← hre]
      simp [hc]
    refine (validate_eq_ok_iff hu).mpr ⟨by simpa using hne, ?_, ?_,
      fun c hc => hch c (hs c hc), fun c hc => hct c (hs c hc),
      fun part hpr => hpa part (hm part hpr)⟩
    · have hv : p.value = u ++ String.ofList ('/' :: rest) := by
        apply String.toList_injective
        rw [← hre]
        simp
      rw [hv, String.utf8ByteSize_append] at hsi
      omega
    intro hsl
    apply hh
    rw [← hre, append_assoc, head?_append, hsl]
    rfl
  refine ⟨⟨u, ho⟩, ?_, hsp⟩
  unfold RelativePath.new
  split
  · rfl
  rename_i hco
  rw [ho] at hco
  simp at hco

theorem isStrictAncestor_iff (par path : RelativePath) : isStrictAncestor par path = true ↔
      ∃ r, r ≠ [] ∧ path.components = par.components ++ r := by
  rw [RelativePath.components, RelativePath.components, ← prefix_slash_iff]
  unfold isStrictAncestor stripPrefix
  by_cases h : par.value.toList <+: path.value.toList
  · obtain ⟨rest, hr⟩ := h
    rw [← hr]
    simp only [prefix_append, if_true, drop_left]
    cases rest with
    | nil =>
      simp only [head?_nil, reduceCtorEq, beq_iff_eq, append_nil, false_iff]
      intro hp
      have hl := hp.length_le
      rw [length_append, length_singleton] at hl
      omega
    | cons c rest =>
      simp only [head?_cons, beq_iff_eq, Option.some.injEq,
        prefix_append_right_inj, cons_prefix_cons, nil_prefix, and_true]
      exact eq_comm
  · rw [if_neg h]
    simp only [Bool.false_eq_true, false_iff]
    exact fun hp => h ((prefix_append _ _).trans hp)

theorem contains_iff (root path : RelativePath) :
    contains root path = true ↔ root.components <+: path.components := by
  unfold contains
  rw [Bool.or_eq_true, decide_eq_true_eq, isStrictAncestor_iff]
  constructor
  · rintro (rfl | ⟨r, -, hr⟩)
    · exact prefix_refl _
    · exact ⟨r, hr.symm⟩
  rintro ⟨r, hr⟩
  by_cases hn : r = []
  · left
    rw [hn, append_nil] at hr
    exact RelativePath.components_injective hr.symm
  · exact .inr ⟨r, hn, hr.symm⟩

theorem mem_separatorPrefixes {pre text a : List Char} :
    a ∈ separatorPrefixes pre text ↔ ∃ r, a = pre ++ r ∧ r ++ ['/'] <+: text := by
  induction text generalizing pre with
  | nil => simp [separatorPrefixes]
  | cons c rest ih =>
    have hs : (∃ r, a = pre ++ [c] ++ r ∧ r ++ ['/'] <+: rest) ↔
        ∃ r, a = pre ++ r ∧ r ≠ [] ∧ r ++ ['/'] <+: c :: rest := by
      constructor
      · rintro ⟨r, rfl, hr⟩
        exact ⟨c :: r, by simp, by simp, by simpa using hr⟩
      rintro ⟨r, rfl, hne, hr⟩
      obtain ⟨d, r, rfl⟩ := exists_cons_of_ne_nil hne
      rw [cons_append, cons_prefix_cons] at hr
      exact ⟨r, by simp [hr.1], hr.2⟩
    have ha : (∃ r, a = pre ++ r ∧ r ++ ['/'] <+: c :: rest) ↔
        (c = '/' ∧ a = pre) ∨ ∃ r, a = pre ++ r ∧ r ≠ [] ∧ r ++ ['/'] <+: c :: rest := by
      constructor
      · rintro ⟨r, rfl, hr⟩
        cases r with
        | nil =>
          left
          simpa [eq_comm] using hr
        | cons d r => exact .inr ⟨d :: r, rfl, by simp, hr⟩
      rintro (⟨rfl, rfl⟩ | ⟨r, h, -, hr⟩)
      · exact ⟨[], by simp, by simp⟩
      · exact ⟨r, h, hr⟩
    rw [ha, ← hs]
    by_cases hc : c = '/'
    · rw [separatorPrefixes, if_pos hc, mem_cons, ih]
      simp [hc]
    · rw [separatorPrefixes, if_neg hc, ih]
      simp [hc]

/-! ## The tree order -/

theorem compares_components (a b : FsPath) : (compareComponents a b).Compares a b := by
  induction a generalizing b with
  | nil => cases b <;> simp [compareComponents, Ordering.Compares]
  | cons x a ih =>
    cases b with
    | nil => simp [compareComponents, Ordering.Compares]
    | cons y b =>
      rw [compareComponents]
      rcases lt_trichotomy x y with h | rfl | h
      · simp [compare_lt_iff_lt.mpr h, Ordering.Compares, cons_lt_cons_iff, h]
      · have := ih b
        cases hc : compareComponents a b <;>
          simpa [hc, Ordering.Compares, cons_lt_cons_iff] using this
      · simp [compare_gt_iff_gt.mpr h, Ordering.Compares, cons_lt_cons_iff, h]

theorem compareComponents_eq_lt_iff (a b : FsPath) : compareComponents a b = .lt ↔ a < b :=
  (compares_components a b).eq_lt

theorem comparePaths_le_iff (p q : RelativePath) :
    (comparePaths p q != .gt) = true ↔ p.components ≤ q.components := by
  rw [bne_iff_ne, ← not_lt]
  exact not_congr (compares_components _ _).eq_gt

theorem pairwise_sorted_roots (roots : List RelativePath) :
    (roots.mergeSort fun left right => comparePaths left right != .gt).Pairwise
      fun p q => p.components ≤ q.components := by
  have h := @pairwise_mergeSort _ (fun left right => comparePaths left right != .gt)
    (fun a b c ha hb => by
      rw [comparePaths_le_iff] at ha hb ⊢
      exact ha.trans hb)
    (fun a b => by
      rw [Bool.or_eq_true, comparePaths_le_iff, comparePaths_le_iff]
      exact le_total _ _) roots
  exact h.imp fun hp => (comparePaths_le_iff _ _).mp hp

theorem le_of_isPrefix {p q : FsPath} (h : p <+: q) : p ≤ q := by
  obtain ⟨r, rfl⟩ := h
  apply not_lt.mp
  induction p with
  | nil => exact not_lt_nil _
  | cons x p ih =>
    rw [cons_append, cons_lt_cons_iff]
    rintro (h | ⟨-, h⟩)
    · exact lt_irrefl x h
    · exact ih h

theorem append_lt_append {a b r s : FsPath} (hlt : a < b) (hap : ¬a <+: b) : a ++ r < b ++ s := by
  induction a generalizing b with
  | nil => exact absurd nil_prefix hap
  | cons x a ih =>
    cases b with
    | nil => cases hlt
    | cons y b =>
      rw [cons_append, cons_append, cons_lt_cons_iff]
      obtain hx | ⟨rfl, ha⟩ := cons_lt_cons_iff.mp hlt
      · exact .inl hx
      · refine .inr ⟨rfl, ih ha fun hp => hap (cons_prefix_cons.mpr ⟨rfl, hp⟩)⟩

theorem isPrefix_of_between {d p q r : FsPath} (hp : d <+: p) (hr : d <+: r) (hpq : p < q)
    (hqr : q < r) : d <+: q := by
  by_contra hn
  obtain ⟨t, rfl⟩ := hr
  have hlt := append_lt_append (r := t) (s := []) ((le_of_isPrefix hp).trans_lt hpq) hn
  rw [append_nil] at hlt
  exact hlt.asymm hqr

theorem lt_of_isStrictAncestor {p q : RelativePath} (h : isStrictAncestor p q = true) :
    p.components < q.components := by
  obtain ⟨r, hr, he⟩ := (isStrictAncestor_iff p q).mp h
  refine lt_of_le_of_ne (le_of_isPrefix ⟨r, he.symm⟩) fun hc => hr ?_
  rwa [hc, self_eq_append_right] at he

/-! ## Accepted output roots -/

variable {roots sorted : List RelativePath}

theorem isStrictAncestor_eq_false_iff (par path : RelativePath) :
    isStrictAncestor par path = false ↔ ¬par.value.toList ++ ['/'] <+: path.value.toList := by
  rw [← Bool.not_eq_true, isStrictAncestor_iff, RelativePath.components,
    RelativePath.components, ← prefix_slash_iff]

theorem find?_separatorPrefixes (val : String) (seen : List String) :
    (separatorPrefixes [] val.toList).find? (fun a => String.ofList a ∈ val :: seen) = none ↔
      ∀ s ∈ seen, ¬s.toList ++ ['/'] <+: val.toList := by
  simp only [find?_eq_none, mem_separatorPrefixes, nil_append, decide_eq_true_eq, mem_cons]
  constructor
  · intro h s hs hp
    exact h s.toList ⟨_, rfl, hp⟩ (.inr (by simpa using hs))
  rintro h a ⟨_, rfl, hp⟩ (rfl | hs)
  · have hl := hp.length_le
    simp at hl
  · exact h _ hs (by simpa using hp)

theorem checkOutputRoots_cons {seen : List String} (root : RelativePath) :
    checkOutputRoots seen (root :: roots) = .ok () ↔ (root.isRoot = false ∧
      ∀ s ∈ seen, s ≠ root.value ∧ ¬s.toList ++ ['/'] <+: root.value.toList) ∧
        checkOutputRoots (root.value :: seen) roots = .ok () := by
  rw [checkOutputRoots, forall₂_and, ← find?_separatorPrefixes]
  cases hf : (separatorPrefixes [] root.value.toList).find?
    fun a => String.ofList a ∈ root.value :: seen <;>
  by_cases hr : root.isRoot <;> by_cases hs : root.value ∈ seen <;> grind

theorem checkOutputRoots_eq_ok {seen : List String} : checkOutputRoots seen roots = .ok () ↔
    (∀ p ∈ roots, p.isRoot = false ∧ ∀ s ∈ seen, s ≠ p.value ∧
      ¬s.toList ++ ['/'] <+: p.value.toList) ∧
    roots.Pairwise fun p q => p ≠ q ∧ isStrictAncestor p q = false := by
  induction roots generalizing seen with
  | nil => simp [checkOutputRoots]
  | cons root rest ih =>
    have he : ∀ q : RelativePath, root ≠ q ↔ root.value ≠ q.value := fun q =>
      not_congr ⟨congrArg _, RelativePath.ext_value⟩
    rw [checkOutputRoots_cons, ih]
    simp only [forall_mem_cons, pairwise_cons, isStrictAncestor_eq_false_iff, he]
    grind

theorem validateOutputRoots_eq_ok : validateOutputRoots roots = .ok sorted ↔
    roots ≠ [] ∧ roots.mergeSort (fun left right => comparePaths left right != .gt) = sorted ∧
      checkOutputRoots [] sorted = .ok () := by
  unfold validateOutputRoots
  cases roots with
  | nil => simp
  | cons root rest =>
    generalize (root :: rest).mergeSort (fun left right => comparePaths left right != .gt) = s
    cases hc : checkOutputRoots [] s with
    | error e =>
      simp only [isEmpty_cons, Bool.false_eq_true, if_false, bind, Except.bind, hc, reduceCtorEq,
        false_iff]
      rintro ⟨-, rfl, h⟩
      simp [hc] at h
    | ok u =>
      simp only [isEmpty_cons, Bool.false_eq_true, if_false, bind, Except.bind, hc, pure,
        Except.pure, Except.ok.injEq, ne_eq, reduceCtorEq, not_false_eq_true, true_and]
      exact ⟨fun h => ⟨h, h ▸ hc⟩, And.left⟩

theorem RelativePath.isRoot_eq_false_iff (p : RelativePath) : p.isRoot = false ↔ p ≠ root := by
  rw [isRoot, beq_eq_false_iff_ne]
  exact not_congr ⟨fun h => ext_value h, fun h => congrArg value h⟩

theorem validateOutputRoots_iff : validateOutputRoots roots = .ok sorted ↔
    (roots ≠ [] ∧ RelativePath.root ∉ roots ∧ roots.Nodup ∧
      ∀ p ∈ roots, ∀ q ∈ roots, isStrictAncestor p q = false) ∧
    sorted ~ roots ∧ sorted.Pairwise fun p q => comparePaths p q = .lt := by
  have hirr : ∀ p, isStrictAncestor p p = false := fun p =>
    Bool.eq_false_iff.mpr fun h => lt_irrefl _ (lt_of_isStrictAncestor h)
  simp only [validateOutputRoots_eq_ok, checkOutputRoots_eq_ok, comparePaths,
    compareComponents_eq_lt_iff, not_mem_nil, RelativePath.isRoot_eq_false_iff]
  constructor
  · rintro ⟨hne, rfl, hrs, hpa⟩
    have hperm := mergeSort_perm roots fun left right => comparePaths left right != .gt
    have hlt := (hpa.and (pairwise_sorted_roots roots)).imp fun {p q} ⟨h, hle⟩ =>
      hle.lt_of_ne fun hc => h.1 (RelativePath.components_injective hc)
    refine ⟨⟨hne, fun hm => (hrs _ (hperm.mem_iff.mpr hm)).1 rfl,
      hperm.nodup_iff.mp (hpa.imp And.left), fun p hp q hq => ?_⟩, hperm, hlt⟩
    have hgt := hlt.imp fun {p q} hl =>
      Bool.eq_false_iff.mpr fun ha => hl.asymm (@lt_of_isStrictAncestor q p ha)
    exact (hpa.imp And.right).forall_of_forall_of_flip (fun p _ => hirr p) hgt
      (hperm.mem_iff.mpr hp) (hperm.mem_iff.mpr hq)
  · rintro ⟨⟨hne, hroot, -, ha⟩, hperm, hlt⟩
    refine ⟨hne, ?_, fun p hp => ⟨?_, by simp⟩, ?_⟩
    · refine ((mergeSort_perm _ _).trans hperm.symm).eq_of_pairwise ?_ (pairwise_sorted_roots roots)
        (hlt.imp le_of_lt)
      intro p q _ _ hpq hqp
      exact RelativePath.components_injective (le_antisymm hpq hqp)
    · rintro rfl
      exact hroot (hperm.mem_iff.mp hp)
    refine hlt.imp_of_mem fun hp hq hl => ⟨?_, ha _ (hperm.mem_iff.mp hp) _ (hperm.mem_iff.mp hq)⟩
    rintro rfl
    exact lt_irrefl _ hl

theorem mem_of_validateOutputRoots
    (h : validateOutputRoots roots = .ok sorted) (p : RelativePath) : p ∈ sorted ↔ p ∈ roots :=
  (validateOutputRoots_iff.mp h).2.1.mem_iff

theorem pairwise_lt_of_validateOutputRoots (h : validateOutputRoots roots = .ok sorted) :
    sorted.Pairwise fun p q => p.components < q.components :=
  (validateOutputRoots_iff.mp h).2.2.imp (compareComponents_eq_lt_iff _ _).mp

abbrev RootsApart (roots : List RelativePath) : Prop :=
  roots.Pairwise fun p q => Apart p.components q.components

theorem validateOutputRoots_ok
    (h : validateOutputRoots roots = .ok sorted) : sorted ≠ [] ∧ (∀ p ∈ sorted, p.isRoot = false) ∧
      RootsApart sorted := by
  obtain ⟨⟨hne, hroot, -, ha⟩, hperm, -⟩ := validateOutputRoots_iff.mp h
  have hlt := pairwise_lt_of_validateOutputRoots h
  refine ⟨fun hs => hne (by simpa [hs] using hperm.symm), fun p hp => ?_, ?_⟩
  · rw [RelativePath.isRoot_eq_false_iff]
    rintro rfl
    exact hroot (hperm.mem_iff.mp hp)
  refine hlt.imp_of_mem fun {p q} hp hq hl => ⟨?_, fun hq => not_le.mpr hl (le_of_isPrefix hq)⟩
  rintro ⟨r, hr⟩
  have hf := ha p (hperm.mem_iff.mp hp) q (hperm.mem_iff.mp hq)
  rw [← Bool.not_eq_true, isStrictAncestor_iff] at hf
  refine hf ⟨r, ?_, hr.symm⟩
  rintro rfl
  exact hl.ne (by simpa using hr)

/-! ## Subtrees -/

/-- `path` lies in the directory `parent`; the workspace root holds every other path. -/
def IsBelow (parent path : RelativePath) : Prop :=
  if parent.isRoot then path ≠ parent else isStrictAncestor parent path = true

theorem comparePaths_treeOrder :
    IsStrictTotalOrder RelativePath (fun p q => comparePaths p q = .lt) ∧
    (∀ p q, (comparePaths p q = .gt ↔ comparePaths q p = .lt) ∧ (comparePaths p q = .eq ↔ p = q)) ∧
    (∀ d, d.isRoot = false → (∀ p, IsBelow d p → comparePaths d p = .lt) ∧
      ∀ p q r, IsBelow d p → IsBelow d r → comparePaths p q = .lt → comparePaths q r = .lt →
        IsBelow d q) ∧
    ∀ roots sorted, validateOutputRoots roots = .ok sorted ↔
      (roots ≠ [] ∧ RelativePath.root ∉ roots ∧ roots.Nodup ∧
        ∀ p ∈ roots, ∀ q ∈ roots, isStrictAncestor p q = false) ∧
      sorted ~ roots ∧ sorted.Pairwise fun p q => comparePaths p q = .lt := by
  have hlt : ∀ p q, comparePaths p q = .lt ↔ p.components < q.components :=
    fun p q => compareComponents_eq_lt_iff _ _
  refine ⟨?_, fun p q => ⟨?_, ?_⟩, fun d hd => ?_, fun _ _ => validateOutputRoots_iff⟩
  · simp only [hlt]
    exact {
      trichotomous p q hp hq := RelativePath.components_injective
        (le_antisymm (not_lt.mp hq) (not_lt.mp hp))
      irrefl p := lt_irrefl _
      trans p q r := lt_trans }
  · rw [hlt]
    exact (compares_components _ _).eq_gt
  · exact (compares_components _ _).eq_eq.trans RelativePath.components_injective.eq_iff
  simp only [hlt, IsBelow, hd, Bool.false_eq_true, if_false]
  refine ⟨fun p => lt_of_isStrictAncestor, fun p q r hp hr hpq hqr => ?_⟩
  have hdp := lt_of_isStrictAncestor hp
  obtain ⟨s, -, hs⟩ := (isStrictAncestor_iff d p).mp hp
  obtain ⟨t, -, ht⟩ := (isStrictAncestor_iff d r).mp hr
  obtain ⟨u, hu⟩ := isPrefix_of_between ⟨s, hs.symm⟩ ⟨t, ht.symm⟩ hpq hqr
  refine (isStrictAncestor_iff d q).mpr ⟨u, ?_, hu.symm⟩
  rintro rfl
  rw [append_nil] at hu
  exact hdp.asymm (hu ▸ hpq)

/-- A name that starts with `-` sorts before the text `.` of the workspace root. -/
theorem root_after_descendant : ∃ path, IsBelow RelativePath.root path ∧
    comparePaths RelativePath.root path = .gt :=
  ⟨⟨"-a", by decide +kernel⟩, by simp [IsBelow, RelativePath.root, RelativePath.isRoot],
    by decide +kernel⟩

end Octa.Cache
