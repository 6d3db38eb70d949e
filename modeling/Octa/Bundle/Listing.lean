import Octa.Bundle.Pack
import Octa.Bundle.Confinement

/-!
# The entries of a packed forest

The walk lists an output in tree order: every entry once, the directory before
what it contains, and everything below one entry before the next.
-/

namespace Octa.Bundle

open FileTree LinkedTree Wire Octa.Cache Octa.LocalStore List Fallible

variable {workspace : Workspace} {limits : BundleLimits}

def OutputKind.Checked (limits : BundleLimits) (path : RelativePath) : OutputKind → Prop
  | .directory => True
  | .file content _ => content.length ≤ limits.maxFileBytes.toNat
  | .symlink target _ => validateSymlinkText path target = .ok () ∧ target.utf8ByteSize < 2 ^ 32

structure Lists (limits : BundleLimits) (output : Output) (names : FsPath)
    (entries : List OutputEntry) : Prop where
  first : ∃ entry rest, entries = entry :: rest ∧ entry.path.components = names
  sorted : entries.Pairwise fun left right => left.path.components < right.path.components
  lookup : ∀ r kind, output.lookup r = some kind ↔
    ∃ entry ∈ entries, entry.path.components = names ++ r ∧ entry.kind = kind
  below : ∀ entry ∈ entries, names <+: entry.path.components
  size : ∀ entry ∈ entries, entry.path.value.utf8ByteSize ≤ limits.maxPathBytes.toNat
  checked : ∀ entry ∈ entries, entry.kind.Checked limits entry.path

variable {names : FsPath}

theorem components_of_portableRelative {relative : RelativePath}
    (hns : names ≠ []) (hsl : ∀ name ∈ names, '/' ∉ name.toList)
    (h : portableRelative names = .ok relative) : relative.components = names := by
  unfold portableRelative RelativePath.new at h
  split at h
  · cases h
    exact splitSlash_intercalate_names hsl hns
  · cases h

variable {output : Output}

theorem inspectOutputEntry_eq_ok {e : OutputEntry} (hns : names ≠ [])
    (hsl : ∀ name ∈ names, '/' ∉ name.toList) (hfo : output.WellFormed)
    (h : inspectOutputEntry workspace limits names output = .ok e) :
    e.path.components = names ∧ output.kind = some e.kind ∧
      e.path.value.utf8ByteSize ≤ limits.maxPathBytes.toNat ∧
      e.kind.Checked limits e.path := by
  unfold inspectOutputEntry at h
  obtain ⟨relative, hr, h⟩ := bind_eq_ok h
  have hc := components_of_portableRelative hns hsl hr
  obtain ⟨hs, h⟩ := ite_error_eq_ok h
  obtain ⟨kind, hk, h⟩ := bind_eq_ok h
  cases h
  refine ⟨hc, ?_, not_lt.mp hs, ?_⟩
  · cases hfo with
    | file cnt exe =>
      obtain ⟨-, hk⟩ := ite_error_eq_ok hk
      cases hk
      rfl
    | symlink isDirectory hl =>
      obtain ⟨target, ht, hk⟩ := bind_eq_ok hk
      cases hk
      unfold safeSymlinkTarget at ht
      split at ht
      · cases ht
      split at ht
      · cases ht
      split at ht
      · cases ht
        rfl
      · cases ht
    | special => cases hk
    | directory => cases hk; rfl
  · cases hfo with
    | file cnt exe =>
      obtain ⟨hl, hk⟩ := ite_error_eq_ok hk
      cases hk
      exact not_lt.mp hl
    | symlink isDirectory hl =>
      obtain ⟨target, ht, hk⟩ := bind_eq_ok hk
      cases hk
      unfold safeSymlinkTarget at ht
      split at ht
      · cases ht
      rename_i hv
      split at ht
      · cases ht
      split at ht
      · cases ht
        exact ⟨hv, hl⟩
      · cases ht
    | special => cases hk
    | directory => cases hk; trivial

/-! ## Leaves -/

theorem lookup_cons_eq_none (hleaf : ∀ children, output ≠ .directory children)
    (name : String) (rest : FsPath) : output.lookup (name :: rest) = none := by
  cases output with
  | directory children => exact absurd rfl (hleaf children)
  | file cnt exe | symlink target isDirectory | special => rfl

theorem Lists.leaf {e : OutputEntry} (hleaf : ∀ children, output ≠ .directory children)
    (he : e.path.components = names ∧ output.kind = some e.kind ∧
      e.path.value.utf8ByteSize ≤ limits.maxPathBytes.toNat ∧
      e.kind.Checked limits e.path) : Lists limits output names [e] where
  first := ⟨e, [], rfl, he.1⟩
  sorted := pairwise_singleton _ _
  lookup r kind := by
    cases r with
    | nil =>
      rw [append_nil]
      constructor
      · intro hk
        refine ⟨e, mem_singleton_self _, he.1, ?_⟩
        exact Option.some.inj (he.2.1.symm.trans hk)
      rintro ⟨other, hother, -, rfl⟩
      rw [mem_singleton.mp hother]
      exact he.2.1
    | cons name rest =>
      rw [lookup_cons_eq_none hleaf]
      constructor
      · intro h
        cases h
      rintro ⟨other, hother, hc, -⟩
      rw [mem_singleton.mp hother, he.1] at hc
      simp at hc
  below other hother := by
    rw [mem_singleton.mp hother, he.1]
  size other hother := by
    rw [mem_singleton.mp hother]
    exact he.2.2.1
  checked other hother := by
    rw [mem_singleton.mp hother]
    exact he.2.2.2

/-! ## Sequences of visits -/

variable {after sched : ℕ} {entries : List OutputEntry}

theorem runVisits_cons {name : String} {visit : Visit} {rest : List (String × Visit)}
    (h : runVisits ((name, visit) :: rest) sched = .ok (entries, after)) :
    ∃ b mid more, visit sched = .ok (b, mid) ∧
      runVisits rest mid = .ok (more, after) ∧ entries = b ++ more := by
  unfold runVisits at h
  obtain ⟨⟨b, mid⟩, hv, h⟩ := bind_eq_ok h
  obtain ⟨⟨more, last⟩, hr, h⟩ := bind_eq_ok h
  cases h
  exact ⟨b, mid, more, hv, hr, rfl⟩

variable (limits) in
theorem runVisits_blocks {α : Type} {key : α → String} {visit : α → Visit}
    {P : α → List OutputEntry → Prop}
    {items : List α}
    (hvi : ∀ item ∈ items, ∀ sched b after, visit item sched = .ok (b, after) →
      P item b ∧ after + 1 = sched + b.length ∧
        (sched ≤ limits.maxEntries.toNat → after ≤ limits.maxEntries.toNat))
    (h : runVisits (items.map fun item => (key item, visit item)) sched = .ok (entries, after)) :
    (∃ bs, List.Forall₂ P items bs ∧ entries = bs.flatten) ∧
      after + items.length = sched + entries.length ∧
      (sched ≤ limits.maxEntries.toNat → after ≤ limits.maxEntries.toNat) := by
  induction items generalizing sched entries with
  | nil =>
    cases h
    exact ⟨⟨[], .nil, rfl⟩, rfl, id⟩
  | cons item items ih =>
    obtain ⟨b, mid, more, hb, hr, rfl⟩ := runVisits_cons h
    obtain ⟨hP, hc, hbu⟩ := hvi item mem_cons_self _ _ _ hb
    obtain ⟨⟨bs, hbl, rfl⟩, hc', hb'⟩ := ih (fun item hi => hvi item (mem_cons_of_mem _ hi)) hr
    refine ⟨⟨b :: bs, .cons hP hbl, rfl⟩, ?_, fun hl => hb' (hbu hl)⟩
    rw [length_cons, List.length_append]
    omega

theorem lt_of_names_lt {a b : FsPath} {x y : String} (h : x < y) :
    names ++ x :: a < names ++ y :: b := by
  induction names with
  | nil => exact cons_lt_cons_iff.mpr (.inl h)
  | cons name names ih => exact cons_lt_cons_iff.mpr (.inr ⟨rfl, ih⟩)

theorem lt_append_cons (names r : FsPath) (x : String) : names < names ++ x :: r := by
  induction names with
  | nil => exact nil_lt_cons _ _
  | cons name names ih => exact cons_lt_cons_iff.mpr (.inr ⟨rfl, ih⟩)

/-! ## Directories -/

theorem visitChildren_eq_map (children : List (String × Output)) (names : FsPath) :
    visitChildren workspace limits children names =
      children.map fun child => (child.1, visitOutput workspace limits child.2
          (names ++ [child.1])) := by
  induction children with
  | nil => rfl
  | cons child children ih =>
    obtain ⟨name, output⟩ := child
    rw [visitChildren, ih]
    rfl

theorem sortNamed_map {α β : Type} (children : List (String × α)) (f : String × α → β) :
    sortNamed (children.map fun child => (child.1, f child)) =
      (sortNamed children).map fun child => (child.1, f child) := by
  unfold sortNamed
  exact (map_insertionSort (r := fun left right : String × α => left.1 ≤ right.1)
    (s := fun left right : String × β => left.1 ≤ right.1)
      (fun child => (child.1, f child)) children
    fun _ _ _ _ => Iff.rfl).symm

theorem pairwise_sortNamed {α : Type} {children : List (String × α)}
    (h : (children.map Prod.fst).Nodup) :
    (sortNamed children).Pairwise fun left right => left.1 < right.1 := by
  have : Std.Total fun left right : String × α => left.1 ≤ right.1 := ⟨fun _ _ => le_total _ _⟩
  have : IsTrans (String × α) fun left right => left.1 ≤ right.1 := ⟨fun _ _ _ => le_trans⟩
  have hs : (sortNamed children).Pairwise fun left right => left.1 ≤ right.1 :=
    pairwise_insertionSort _ children
  have hpe : (sortNamed children).Perm children := perm_insertionSort _ children
  have hn : ((sortNamed children).map Prod.fst).Nodup := (hpe.map Prod.fst).nodup_iff.mpr h
  rw [List.Nodup, pairwise_map] at hn
  exact (hs.and hn).imp fun hp => lt_of_le_of_ne hp.1 hp.2

theorem Lists.directory {children : List (String × Output)} {e : OutputEntry}
    {bs : List (List OutputEntry)} (hno : (children.map Prod.fst).Nodup)
    (he : e.path.components = names ∧ (Output.directory children).kind = some e.kind ∧
      e.path.value.utf8ByteSize ≤ limits.maxPathBytes.toNat ∧
      e.kind.Checked limits e.path)
    (hblo : List.Forall₂ (fun child block => Lists limits child.2 (names ++ [child.1]) block)
      (sortNamed children) bs) :
    Lists limits (.directory children) names (e :: bs.flatten) := by
  have hp : (sortNamed children).Perm children := perm_insertionSort _ children
  have hb : ∀ block ∈ bs, ∃ child ∈ children, Lists limits child.2 (names ++ [child.1]) block := by
    intro block hb
    obtain ⟨child, hch, hls⟩ := exists_left_of_mem hblo hb
    exact ⟨child, hp.mem_iff.mp hch, hls⟩
  have hm : ∀ other ∈ bs.flatten, ∃ child ∈ children, ∃ block,
      Lists limits child.2 (names ++ [child.1]) block ∧ other ∈ block := by
    intro other hother
    obtain ⟨block, hi, hother⟩ := mem_flatten.mp hother
    obtain ⟨child, hch, hls⟩ := hb block hi
    exact ⟨child, hch, block, hls, hother⟩
  have hbe : ∀ other ∈ bs.flatten, ∃ name r, other.path.components = names ++ name :: r := by
    intro other hother
    obtain ⟨child, -, block, hls, hi⟩ := hm other hother
    obtain ⟨r, hr⟩ := hls.below other hi
    exact ⟨child.1, r, by rw [← hr, append_assoc, singleton_append]⟩
  refine ⟨⟨e, _, rfl, he.1⟩, ?_, ?_, ?_, ?_, ?_⟩
  · refine pairwise_cons.mpr ⟨fun other hother => ?_, pairwise_flatten.mpr ⟨?_, ?_⟩⟩
    · obtain ⟨name, r, hc⟩ := hbe other hother
      rw [hc, he.1]
      exact lt_append_cons names r name
    · intro block hi
      obtain ⟨child, -, hls⟩ := hb block hi
      exact hls.sorted
    · refine pairwise_of_forall₂ hblo (pairwise_sortNamed hno) ?_
      intro child child' block b' hlt hls hl' left hle right hri
      obtain ⟨r, hr⟩ := hls.below left hle
      obtain ⟨r', hr'⟩ := hl'.below right hri
      rw [← hr, ← hr', append_assoc, append_assoc]
      exact lt_of_names_lt hlt
  · intro r kind
    cases r with
    | nil =>
      rw [append_nil]
      constructor
      · intro hk
        refine ⟨e, mem_cons_self, he.1, ?_⟩
        exact Option.some.inj (he.2.1.symm.trans hk)
      rintro ⟨other, hother, hc, rfl⟩
      obtain rfl | hother := mem_cons.mp hother
      · exact he.2.1
      obtain ⟨name, r, hlo⟩ := hbe other hother
      rw [hlo] at hc
      simp at hc
    | cons name rest =>
      constructor
      · intro hl
        rw [Output.lookup] at hl
        split at hl
        · rename_i child hch
          have hm' := (hp.mem_iff).mpr (IndexMap.mem_of_lookup hch)
          obtain ⟨block, hi, hls⟩ := exists_right_of_mem hblo hm'
          obtain ⟨other, hother, hc, hk⟩ := (hls.lookup rest kind).mp hl
          refine ⟨other, mem_cons_of_mem _ (mem_flatten.mpr ⟨block, hi, hother⟩), ?_, hk⟩
          rw [hc, append_assoc, singleton_append]
        · cases hl
      · rintro ⟨other, hother, hc, hk⟩
        obtain rfl | hother := mem_cons.mp hother
        · rw [he.1] at hc
          simp at hc
        obtain ⟨child, hch, block, hls, hi⟩ := hm other hother
        obtain ⟨r, hr⟩ := hls.below other hi
        rw [hc, append_assoc, append_cancel_left_eq, singleton_append] at hr
        obtain ⟨rfl, rfl⟩ := List.cons.inj hr
        rw [Output.lookup, IndexMap.lookup_of_mem hno hch]
        refine (hls.lookup _ kind).mpr ⟨other, hi, ?_, hk⟩
        rw [hc, append_assoc, singleton_append]
  · intro other hother
    obtain rfl | hother := mem_cons.mp hother
    · rw [he.1]
    obtain ⟨name, r, hc⟩ := hbe other hother
    rw [hc]
    exact prefix_append _ _
  · intro other hother
    obtain rfl | hother := mem_cons.mp hother
    · exact he.2.2.1
    · obtain ⟨child, -, block, hls, hi⟩ := hm other hother
      exact hls.size other hi
  · intro other hother
    obtain rfl | hother := mem_cons.mp hother
    · exact he.2.2.2
    · obtain ⟨child, -, block, hls, hi⟩ := hm other hother
      exact hls.checked other hi

theorem visitOutput_eq_ok (hns : names ≠ [])
    (hsl : ∀ name ∈ names, '/' ∉ name.toList) (hfo : output.WellFormed)
    (h : visitOutput workspace limits output names sched = .ok (entries, after)) :
    Lists limits output names entries ∧ after + 1 = sched + entries.length ∧
      (sched ≤ limits.maxEntries.toNat → after ≤ limits.maxEntries.toNat) := by
  induction output using Output.induct generalizing names sched entries after with
  | file cnt exe | symlink target isDirectory | special =>
    unfold visitOutput at h
    obtain ⟨e, he, h⟩ := bind_eq_ok h
    cases h
    have he := inspectOutputEntry_eq_ok hns hsl hfo he
    exact ⟨.leaf (fun _ heq => by cases heq) he, rfl, id⟩
  | directory children ih =>
    unfold visitOutput at h
    obtain ⟨e, he, h⟩ := bind_eq_ok h
    have he := inspectOutputEntry_eq_ok hns hsl hfo he
    obtain ⟨hro, h⟩ := ite_error_eq_ok h
    obtain ⟨⟨rest, last⟩, hr, h⟩ := bind_eq_ok h
    cases h
    cases hfo with
    | directory hno hs hc =>
      rw [visitChildren_eq_map, sortNamed_map] at hr
      have hp : (sortNamed children).Perm children := perm_insertionSort _ children
      obtain ⟨⟨bs, hb, rfl⟩, hcn, hbu⟩ := runVisits_blocks limits
        (P := fun child b => Lists limits child.2 (names ++ [child.1]) b) (by
          intro child hch sched b after hv
          have hch := hp.mem_iff.mp hch
          refine ih child hch (by simp) ?_ (hc child hch) hv
          intro name hn
          obtain hn | hn := mem_append.mp hn
          · exact hsl name hn
          · rw [mem_singleton.mp hn]
            exact hs child hch) hr
      refine ⟨.directory hno he hb, ?_, fun hle => hbu (by omega)⟩
      have hl : (sortNamed children).length = children.length := hp.length_eq
      rw [length_cons]
      omega

end Octa.Bundle
