import Octa.Restore.Calls

/-!
# The states of a transaction

A transaction moves each output root between three places: the live path, the
backup and the staging directory.
-/

namespace Octa.Restore

open FileTree Crash Octa.Cache RestoreManager
open List hiding get

variable {κ : Type}

/-! ## Accepted journals -/

theorem transactionPath_ok {workspace tx : FsPath} {id : String}
    (h : transactionPath workspace id = .ok tx) :
    workspace ≠ [] ∧ tx = workspace.dropLast ++ [".octa-restore-" ++ id] := by
  unfold transactionPath at h
  split at h
  · simp at h
  split at h
  · simp at h
  · rename_i hne
    exact ⟨hne, by simpa using h.symm⟩

theorem validateParents_ok {roots : List RelativePath} {prev : Option RelativePath}
    {parents : List RelativePath} (h : validateParents roots prev parents = .ok ()) :
    (∀ p ∈ prev, ∀ c ∈ parents, p < c) ∧ parents.Pairwise (· < ·) ∧
      ∀ c ∈ parents, ∃ root ∈ roots, isStrictAncestor c root = true := by
  induction parents generalizing prev with
  | nil => simp
  | cons parent rest ih =>
    rw [validateParents] at h
    split at h
    · simp at h
    rename_i hco
    simp only [Bool.or_eq_true, not_or, Bool.not_eq_true, Bool.not_eq_false', any_eq_true] at hco
    obtain ⟨⟨-, hpr⟩, ha⟩ := hco
    obtain ⟨hl, hpa, hrs⟩ := ih h
    have hr : ∀ c ∈ rest, parent < c := hl parent rfl
    refine ⟨?_, pairwise_cons.mpr ⟨hr, hpa⟩, ?_⟩
    · intro p hp c hc
      have hpp : p < parent := by
        rw [Option.mem_def] at hp
        subst hp
        simpa using hpr
      rcases mem_cons.mp hc with rfl | hc
      · exact hpp
      · exact lt_trans (show p.value < parent.value from hpp) (hr c hc)
    intro c hc
    rcases mem_cons.mp hc with rfl | hc
    · exact ha
    · exact hrs c hc

theorem validateJournal_ok {jr : RestoreJournal} (h : validateJournal jr = .ok ()) :
    transactionPath jr.workspace jr.id = .ok jr.transaction ∧
      (jr.roots.Pairwise fun e f => Apart e.path.components f.path.components) ∧
      validateParents (jr.roots.map JournalRoot.path) none jr.createdParents = .ok () := by
  unfold validateJournal at h
  split at h
  · simp at h
  cases hp : transactionPath jr.workspace jr.id with
  | error e => simp [hp, bind, Except.bind] at h
  | ok expected =>
    simp only [hp, bind, Except.bind] at h
    split at h
    · simp at h
    rename_i ht
    cases hr : validateOutputRoots (jr.roots.map JournalRoot.path) with
    | error e => simp [hr] at h
    | ok sorted =>
      simp only [hr] at h
      split at h
      · simp at h
      rename_i hs
      obtain ⟨-, -, hpr⟩ := validateOutputRoots_ok hr
      rw [← not_not.mp hs, RootsApart, pairwise_map] at hpr
      exact ⟨by rw [not_not.mp ht], hpr, h⟩

theorem roots_ne_nil_of_valid {jr : RestoreJournal}
    (h : validateJournal jr = .ok ()) : jr.roots ≠ [] := by
  unfold validateJournal at h
  split at h
  · simp at h
  rename_i hh
  rintro hn
  simp [hn] at hh

/-! ## Transactions -/

/-- A recorded transaction: its journal, the tree it started from, and the new
value of each root. -/
structure Transaction (κ : Type) where
  platform : Platform
  journal : RestoreJournal
  base : Tree String κ
  fresh : RelativePath → FsPath → Option (Node κ)
  valid : validateJournal journal = .ok ()
  bounded : platform.encodedSize journal ≤ maxJournalBytes
  canonical : platform.canonical journal.workspace = journal.workspace
  closed : ∀ p, p ≠ [] → get base p ≠ none → get base p.dropLast = some .dir
  workspace_dir : get base journal.workspace = some .dir
  unused : get base journal.transaction = none
  had_iff : ∀ e ∈ journal.roots, e.hadOriginal = (get base (journal.live e)).isSome
  ancestors : ∀ e ∈ journal.roots, ∀ a, a <+: e.path.components → a ≠ e.path.components →
    get base (journal.workspace ++ a) = some .dir ∨
      ∃ c ∈ journal.createdParents, c.components = a
  created_free : ∀ c ∈ journal.createdParents,
    get base (joinRelative journal.workspace c) = none

namespace Transaction

variable (x : Transaction κ)
variable {a b : Slot} {e f : JournalRoot} {q r : FsPath} {c : RelativePath}

inductive Slot where
  | live
  | saved
  | staged
  deriving DecidableEq

def anchor : Slot → FsPath
  | .live => x.journal.workspace
  | .saved => x.journal.backup
  | .staged => x.journal.staging

def cell (slot : Slot) (e : JournalRoot) : FsPath := joinRelative (x.anchor slot) e.path

def Complete : Prop := ∀ e ∈ x.journal.roots, x.fresh e.path [] ≠ none

def Free (q : FsPath) : Prop := ∀ slot, ∀ e ∈ x.journal.roots, ¬x.cell slot e <+: q

/-! ### Geometry -/

theorem joinRelative_ne_nil (root : FsPath) (p : RelativePath) : joinRelative root p ≠ [] :=
  append_ne_nil_of_right_ne_nil root (components_ne_nil p)

theorem dropLast_joinRelative (root : FsPath) (p : RelativePath) :
    (joinRelative root p).dropLast = root ++ p.components.dropLast :=
  dropLast_append_of_ne_nil (components_ne_nil p)

theorem workspace_ne_nil : x.journal.workspace ≠ [] :=
  (transactionPath_ok (validateJournal_ok x.valid).1).1

theorem transaction_eq : x.journal.transaction =
    x.journal.workspace.dropLast ++ [".octa-restore-" ++ x.journal.id] :=
  (transactionPath_ok (validateJournal_ok x.valid).1).2

theorem dropLast_transaction : x.journal.transaction.dropLast = x.journal.workspace.dropLast := by
  rw [x.transaction_eq, dropLast_concat]

theorem workspace_apart_transaction : Apart x.journal.workspace x.journal.transaction := by
  have hs := dropLast_append_getLast x.workspace_ne_nil
  have hne : x.journal.workspace.getLast x.workspace_ne_nil ≠ ".octa-restore-" ++ x.journal.id := by
    intro he
    have hsa : x.journal.transaction = x.journal.workspace := by
      rw [x.transaction_eq, ← he, hs]
    have hd := x.workspace_dir
    rw [← hsa, x.unused] at hd
    simp at hd
  rw [x.transaction_eq, ← hs, dropLast_concat]
  exact apart_of_ne hne

theorem anchor_apart (h : a ≠ b) : Apart (x.anchor a) (x.anchor b) := by
  have hl : ∀ name, Apart x.journal.workspace (x.journal.transaction ++ [name]) :=
    fun name => (x.workspace_apart_transaction.symm.append_left [name]).symm
  have hi : Apart x.journal.backup x.journal.staging := apart_of_ne (by decide)
  cases a <;> cases b <;> first
    | exact absurd rfl h
    | exact hl _
    | exact (hl _).symm
    | exact hi
    | exact hi.symm

section

variable (he : e ∈ x.journal.roots)
include he

theorem roots_apart (hf : f ∈ x.journal.roots) (h : e ≠ f) :
    Apart e.path.components f.path.components := by
  have hp := (validateJournal_ok x.valid).2.1
  have hs : Std.Symm fun e f : JournalRoot => Apart e.path.components f.path.components :=
    ⟨fun _ _ ha => ha.symm⟩
  exact hp.forall he hf h

theorem cell_apart (hf : f ∈ x.journal.roots) (h : a ≠ b ∨ e ≠ f) :
    Apart (x.cell a e) (x.cell b f) := by
  by_cases ha : a = b
  · subst ha
    exact apart_append_iff.mpr (x.roots_apart he hf (h.resolve_left fun hn => hn rfl))
  · exact (x.anchor_apart ha).append _ _

theorem free_of_above {slot : Slot}
    (hq : q <+: (x.cell slot e).dropLast) : x.Free q := by
  intro b f hf hp
  by_cases hs : b = slot ∧ f = e
  · obtain ⟨rfl, rfl⟩ := hs
    exact length_dropLast_lt (joinRelative_ne_nil _ _) hp hq
  have ha : Apart (x.cell b f) (x.cell slot e) := by
    refine x.cell_apart hf he ?_
    by_contra hc
    rw [not_or, not_not, not_not] at hc
    exact hs hc
  exact ha.1 (hp.trans (hq.trans ( dropLast_prefix _)))

theorem cell_not_above {slot : Slot} (hf : f ∈ x.journal.roots) :
    ¬x.cell b f ++ r <+: (x.cell slot e).dropLast :=
  fun hp => x.free_of_above he hp b f hf (prefix_append _ _)

end

theorem not_transaction_of_live (hq : q <+: x.journal.workspace ++ r) :
    ¬x.journal.transaction <+: q :=
  fun hp => x.workspace_apart_transaction.not_both (prefix_append _ r) (hp.trans hq)

theorem not_transaction_below_live (r : FsPath) :
    ¬x.journal.transaction <+: x.cell .live e ++ r := by
  have h : x.cell .live e ++ r = x.journal.workspace ++ (e.path.components ++ r) :=
    append_assoc _ _ _
  rw [h]
  exact x.not_transaction_of_live (prefix_refl _)

theorem created_above (hc : c ∈ x.journal.createdParents) :
    ∃ e ∈ x.journal.roots, joinRelative x.journal.workspace c <+: (x.cell .live e).dropLast := by
  have hrs := (validateParents_ok (validateJournal_ok x.valid).2.2).2.2
  obtain ⟨root, hro, ha⟩ := hrs c hc
  obtain ⟨e, he, rfl⟩ := mem_map.mp hro
  obtain ⟨r, hr, hco⟩ := (isStrictAncestor_iff _ _).mp ha
  refine ⟨e, he, ?_⟩
  have hp : joinRelative x.journal.workspace c <+: x.cell .live e := by
    refine (prefix_append_right_inj _).mpr ?_
    rw [hco]
    exact prefix_append _ _
  refine prefix_dropLast_of_ne hp ?_
  intro heq
  have hl := congrArg length heq
  have hpo := length_pos_iff.mpr hr
  simp only [joinRelative, cell, anchor, length_append, hco] at hl
  omega

theorem free_created (hc : c ∈ x.journal.createdParents) :
    x.Free (joinRelative x.journal.workspace c) := by
  obtain ⟨e, he, ha⟩ := x.created_above hc
  exact x.free_of_above he ha

theorem base_above_live (he : e ∈ x.journal.roots) (hq : q <+: (x.cell .live e).dropLast) :
    get x.base q = some .dir ∨
      ∃ c ∈ x.journal.createdParents, q = joinRelative x.journal.workspace c := by
  have hl : q <+: x.journal.workspace ++ e.path.components := hq.trans ( dropLast_prefix _)
  rcases prefix_or_prefix_of_prefix hl (prefix_append x.journal.workspace _) with
    hu | ⟨a, rfl⟩
  · left
    by_cases hs : q = x.journal.workspace
    · rw [hs, x.workspace_dir]
    · exact dir_of_above x.closed (by simp [x.workspace_dir]) hu hs
  rw [prefix_append_right_inj] at hl
  have hne : a ≠ e.path.components := by
    rintro rfl
    exact length_dropLast_lt (joinRelative_ne_nil _ _) (prefix_refl _) hq
  rcases x.ancestors e he a hl hne with hd | ⟨c, hc, rfl⟩
  · exact .inl hd
  · exact .inr ⟨c, hc, rfl⟩

/-! ### The skeleton -/

/-- Outside the places of the roots only created parents may differ from the
original tree; the directories above the staging and backup places exist. -/
structure Skeleton (t : Tree String κ) : Prop where
  outside : ∀ q, x.Free q → ¬x.journal.transaction <+: q →
    (∀ c ∈ x.journal.createdParents, q ≠ joinRelative x.journal.workspace c) →
    get t q = get x.base q
  parents : ∀ c ∈ x.journal.createdParents,
    get t (joinRelative x.journal.workspace c) = some .dir ∨
      get t (joinRelative x.journal.workspace c) = none
  staging : ∀ e ∈ x.journal.roots, ∀ q, q <+: (x.cell .staged e).dropLast →
    get t q = some .dir
  backup : ∀ e ∈ x.journal.roots, e.hadOriginal = true →
    ∀ q, q <+: (x.cell .saved e).dropLast → get t q = some .dir

variable {x} {t t' : Tree String κ}

theorem Skeleton.congr (h : x.Skeleton t) (hfree : ∀ q, x.Free q → get t' q = get t q) :
    x.Skeleton t' where
  outside q hq hT hc := (hfree q hq).trans (h.outside q hq hT hc)
  parents c hc := by
    rw [hfree _ (x.free_created hc)]
    exact h.parents c hc
  staging e he q hq := (hfree q (x.free_of_above he hq)).trans (h.staging e he q hq)
  backup e he hh q hq := (hfree q (x.free_of_above he hq)).trans (h.backup e he hh q hq)

theorem Skeleton.above_live (h : x.Skeleton t) (he : e ∈ x.journal.roots)
    (hq : q <+: (x.cell .live e).dropLast) : get t q = some .dir ∨ get t q = none := by
  by_cases hcr : ∃ c ∈ x.journal.createdParents, q = joinRelative x.journal.workspace c
  · obtain ⟨c, hc, rfl⟩ := hcr
    exact h.parents c hc
  left
  have hT : ¬x.journal.transaction <+: q :=
    x.not_transaction_of_live (hq.trans ( dropLast_prefix _))
  rw [h.outside q (x.free_of_above he hq) hT fun c hc heq => hcr ⟨c, hc, heq⟩]
  exact (x.base_above_live he hq).resolve_right hcr

theorem had_of_present (he : e ∈ x.journal.roots) :
    e.hadOriginal = true ↔ get x.base (x.cell .live e) ≠ none := by
  rw [x.had_iff e he, Option.isSome_iff_ne_none]
  rfl

theorem Skeleton.above_original (h : x.Skeleton t) (he : e ∈ x.journal.roots)
    (hhad : e.hadOriginal = true) (hq : q <+: (x.cell .live e).dropLast) : get t q = some .dir := by
  have hp := (had_of_present he).mp hhad
  have hb : get x.base q = some .dir := by
    refine dir_of_above x.closed hp (hq.trans ( dropLast_prefix _)) ?_
    rintro rfl
    exact length_dropLast_lt (joinRelative_ne_nil _ _) (prefix_refl _) hq
  have hT : ¬x.journal.transaction <+: q :=
    x.not_transaction_of_live (hq.trans ( dropLast_prefix _))
  rw [h.outside q (x.free_of_above he hq) hT, hb]
  rintro c hc rfl
  rw [x.created_free c hc] at hb
  simp at hb

theorem Skeleton.grow (h : x.Skeleton t) (he : e ∈ x.journal.roots) {part : FsPath}
    (hpart : part <+: (x.cell .live e).dropLast)
    (hget : ∀ q, get t' q = if q <+: part then some .dir else get t q) :
    x.Skeleton t' ∧ ∀ f ∈ x.journal.roots, ∀ slot, below t' (x.cell slot f) =
      below t (x.cell slot f) := by
  refine ⟨⟨?_, ?_, ?_, ?_⟩, ?_⟩
  · intro q hq hT hc
    rw [hget]
    split
    · rename_i hqp
      have hb := (x.base_above_live he (hqp.trans hpart)).resolve_right (by
        rintro ⟨c, hcm, heq⟩
        exact hc c hcm heq)
      exact hb.symm
    · exact h.outside q hq hT hc
  · intro c hc
    rw [hget]
    split
    · exact .inl rfl
    · exact h.parents c hc
  · intro f hf q hq
    rw [hget, h.staging f hf q hq, ite_self]
  · intro f hf hh q hq
    rw [hget, h.backup f hf hh q hq, ite_self]
  · intro f hf slot
    funext r
    rw [below, hget, if_neg fun hp => x.cell_not_above he hf (hp.trans hpart), below]

/-! ### The states of a root -/

variable (x) in
def Untouched (t : Tree String κ) (e : JournalRoot) : Prop :=
  below t (x.cell .live e) = below x.base (x.cell .live e) ∧
    below t (x.cell .saved e) = absent ∧ below t (x.cell .staged e) = x.fresh e.path

variable (x) in
def BackedUp (t : Tree String κ) (e : JournalRoot) : Prop :=
  e.hadOriginal = true ∧ below t (x.cell .live e) = absent ∧
    below t (x.cell .saved e) = below x.base (x.cell .live e) ∧
    below t (x.cell .staged e) = x.fresh e.path

variable (x) in
def Installed (t : Tree String κ) (e : JournalRoot) : Prop :=
  below t (x.cell .live e) = x.fresh e.path ∧
    below t (x.cell .saved e) = below x.base (x.cell .live e) ∧
    below t (x.cell .staged e) = absent

variable (x) in
def RootState (t : Tree String κ) (e : JournalRoot) : Prop :=
  x.Untouched t e ∨ x.BackedUp t e ∨ x.Installed t e

variable (x) in
def SameCells (t t' : Tree String κ) (e : JournalRoot) : Prop :=
  ∀ slot, below t' (x.cell slot e) = below t (x.cell slot e)

theorem Untouched.congr (h : x.Untouched t e) (hs : x.SameCells t t' e) : x.Untouched t' e := by
  rw [Untouched, hs, hs, hs]
  exact h

theorem BackedUp.congr (h : x.BackedUp t e) (hs : x.SameCells t t' e) : x.BackedUp t' e := by
  rw [BackedUp, hs, hs, hs]
  exact h

theorem Installed.congr (h : x.Installed t e) (hs : x.SameCells t t' e) : x.Installed t' e := by
  rw [Installed, hs, hs, hs]
  exact h

theorem RootState.congr (h : x.RootState t e) (hs : x.SameCells t t' e) : x.RootState t' e :=
  h.imp (·.congr hs) (Or.imp (·.congr hs) (·.congr hs))

theorem get_cell (t : Tree String κ) (slot : Slot) (e : JournalRoot) :
    get t (x.cell slot e) = below t (x.cell slot e) [] := by
  rw [below, append_nil]

theorem original_absent (he : e ∈ x.journal.roots) (hhad : e.hadOriginal = false) :
    below x.base (x.cell .live e) = absent := by
  have hn : get x.base (x.cell .live e) = none := by
    by_contra hs
    rw [(had_of_present he).mpr hs] at hhad
    simp at hhad
  funext r
  rw [below, absent]
  by_contra hs
  by_cases hr : r = []
  · rw [hr, append_nil] at hs
    exact hs hn
  have hd := dir_of_above x.closed hs (prefix_append _ r) (by simpa using hr)
  rw [hn] at hd
  simp at hd

/-! ### Moving a root -/

variable (x) in
structure Moves (e : JournalRoot) (t t' : Tree String κ) : Prop where
  free : ∀ q, x.Free q → get t' q = get t q
  others : ∀ f ∈ x.journal.roots, f ≠ e → x.SameCells t t' f

theorem moves_move (he : e ∈ x.journal.roots) (hab : a ≠ b) :
    x.Moves e t (move t (x.cell a e) (x.cell b e)) where
  free _ hq := get_move_of_outside (x.cell_apart he he (.inl hab)) (hq a e he) (hq b e he)
  others _ hf hne _ := below_move_of_apart (x.cell_apart he he (.inl hab))
      (x.cell_apart he hf (.inr hne.symm)) (x.cell_apart he hf (.inr hne.symm))

theorem rename_cell (he : e ∈ x.journal.roots) (hab : a ≠ b) (hsrc : get t (x.cell a e) ≠ none)
    (hpar : get t (x.cell b e).dropLast = some .dir) (hfree : below t (x.cell b e) = absent) :
    rename t (x.cell a e) (x.cell b e) = .ok (move t (x.cell a e) (x.cell b e)) := by
  refine rename_eq_ok (x.cell_apart he he (.inl hab)) hsrc hpar ?_
  rw [get_cell, hfree, absent]

theorem cells_after_move {c : Slot} (he : e ∈ x.journal.roots) (hab : a ≠ b) (hca : c ≠ a)
    (hcb : c ≠ b) : below (move t (x.cell a e) (x.cell b e)) (x.cell b e) = below t (x.cell a e) ∧
      below (move t (x.cell a e) (x.cell b e)) (x.cell a e) = absent ∧
      below (move t (x.cell a e) (x.cell b e)) (x.cell c e) = below t (x.cell c e) := by
  have ha := x.cell_apart he he (.inl hab)
  refine ⟨below_move_dst ha, below_move_src ha, ?_⟩
  exact below_move_of_apart ha (x.cell_apart he he (.inl hca.symm))
    (x.cell_apart he he (.inl hcb.symm))

theorem Untouched.backUp (h : x.Untouched t e) (he : e ∈ x.journal.roots)
    (hhad : e.hadOriginal = true) : x.BackedUp (move t (x.cell .live e) (x.cell .saved e)) e := by
  obtain ⟨hl, -, hst⟩ := h
  obtain ⟨hd, hs, hr⟩ := cells_after_move (c := .staged) (t := t) he
    (show Slot.live ≠ .saved by decide) (by decide) (by decide)
  exact ⟨hhad, hs, hd.trans hl, hr.trans hst⟩

theorem installed_of_move (he : e ∈ x.journal.roots)
    (h : x.BackedUp t e ∨ e.hadOriginal = false ∧ x.Untouched t e) :
    x.Installed (move t (x.cell .staged e) (x.cell .live e)) e := by
  obtain ⟨hd, hs, hr⟩ := cells_after_move (c := .saved) (t := t) he
    (show Slot.staged ≠ .live by decide) (by decide) (by decide)
  rcases h with ⟨-, -, hsa, hst⟩ | ⟨hh, -, hsa, hst⟩
  · exact ⟨hd.trans hst, hr.trans hsa, hs⟩
  · exact ⟨hd.trans hst, (hr.trans hsa).trans (original_absent he hh).symm, hs⟩

theorem Installed.revert (h : x.Installed t e) (he : e ∈ x.journal.roots)
    (hhad : e.hadOriginal = true) : x.BackedUp (move t (x.cell .live e) (x.cell .staged e)) e := by
  obtain ⟨hl, hsa, -⟩ := h
  obtain ⟨hd, hs, hr⟩ := cells_after_move (c := .saved) (t := t) he
    (show Slot.live ≠ .staged by decide) (by decide) (by decide)
  exact ⟨hhad, hs, hr.trans hsa, hd.trans hl⟩

theorem Installed.revert_new (h : x.Installed t e) (he : e ∈ x.journal.roots)
    (hhad : e.hadOriginal = false) :
    x.Untouched (move t (x.cell .live e) (x.cell .staged e)) e := by
  obtain ⟨hl, hsa, -⟩ := h
  have ha := original_absent he hhad
  obtain ⟨hd, hs, hr⟩ := cells_after_move (c := .saved) (t := t) he
    (show Slot.live ≠ .staged by decide) (by decide) (by decide)
  exact ⟨hs.trans ha.symm, (hr.trans hsa).trans ha, hd.trans hl⟩

theorem BackedUp.restore (h : x.BackedUp t e) (he : e ∈ x.journal.roots) :
    x.Untouched (move t (x.cell .saved e) (x.cell .live e)) e := by
  obtain ⟨-, -, hsa, hst⟩ := h
  obtain ⟨hd, hs, hr⟩ := cells_after_move (c := .staged) (t := t) he
    (show Slot.saved ≠ .live by decide) (by decide) (by decide)
  exact ⟨hd.trans hsa, hs, hr.trans hst⟩

variable (x) in
structure Unsettled (t : Tree String κ) : Prop where
  complete : x.Complete
  skeleton : x.Skeleton t
  roots : ∀ e ∈ x.journal.roots, x.RootState t e

theorem Unsettled.moves (h : x.Unsettled t) (hmo : x.Moves e t t')
    (he : x.RootState t' e) : x.Unsettled t' where
  complete := h.complete
  skeleton := h.skeleton.congr hmo.free
  roots f hf := by
    by_cases hfe : f = e
    · subst hfe
      exact he
    · exact (h.roots f hf).congr (hmo.others f hf hfe)

/-! ### Outcomes -/

variable (x) in
/-- Outside the transaction directory the tree is the original one. -/
def Old (t : Tree String κ) : Prop :=
  ∀ q, ¬x.journal.transaction <+: q → get t q = get x.base q

variable (x) in
structure New (t : Tree String κ) : Prop where
  complete : x.Complete
  workspace : get t x.journal.workspace = some .dir
  roots : ∀ e ∈ x.journal.roots, below t (x.cell .live e) = x.fresh e.path

theorem Old.congr (h : x.Old t)
    (hsame : ∀ q, ¬x.journal.transaction <+: q → get t' q = get t q) : x.Old t' :=
  fun q hq => (hsame q hq).trans (h q hq)

theorem New.congr (h : x.New t)
    (hsame : ∀ q, ¬x.journal.transaction <+: q → get t' q = get t q) : x.New t' where
  complete := h.complete
  workspace := (hsame _ x.workspace_apart_transaction.2).trans h.workspace
  roots e he := by
    rw [← h.roots e he]
    funext r
    exact hsame _ (x.not_transaction_below_live r)

theorem free_workspace : x.Free x.journal.workspace := by
  intro slot f _ hp
  cases slot with
  | live =>
    have hl := hp.length_le
    have hpo := length_pos_iff.mpr (components_ne_nil f.path)
    simp only [cell, joinRelative, anchor, length_append] at hl
    omega
  | saved | staged =>
    exact x.workspace_apart_transaction.2 (((prefix_append _ _).trans (prefix_append _ _)).trans hp)

theorem Skeleton.workspace (h : x.Skeleton t) : get t x.journal.workspace = some .dir := by
  rw [h.outside _ free_workspace x.workspace_apart_transaction.2, x.workspace_dir]
  intro c hc he
  have hf := x.created_free c hc
  rw [← he, x.workspace_dir] at hf
  simp at hf

theorem live_or_free (hT : ¬x.journal.transaction <+: q) :
    (∃ e ∈ x.journal.roots, ∃ r, q = x.cell .live e ++ r) ∨ x.Free q := by
  by_cases hl : ∃ e ∈ x.journal.roots, x.cell .live e <+: q
  · obtain ⟨e, he, r, hr⟩ := hl
    exact .inl ⟨e, he, r, hr.symm⟩
  refine .inr fun slot f hf hp => ?_
  cases slot with
  | live => exact hl ⟨f, hf, hp⟩
  | saved | staged => exact hT (((prefix_append _ _).trans (prefix_append _ _)).trans hp)

theorem Skeleton.get_eq_base (h : x.Skeleton t) (hall : ∀ e ∈ x.journal.roots, x.Untouched t e)
    (hT : ¬x.journal.transaction <+: q)
    (hc : ∀ c ∈ x.journal.createdParents, q ≠ joinRelative x.journal.workspace c) :
    get t q = get x.base q := by
  rcases live_or_free hT with ⟨e, he, r, rfl⟩ | hf
  · exact congrFun (hall e he).1 r
  · exact h.outside q hf hT hc

theorem old_of_untouched (h : x.Skeleton t) (hall : ∀ e ∈ x.journal.roots, x.Untouched t e)
    (hpa : ∀ c ∈ x.journal.createdParents,
      get t (joinRelative x.journal.workspace c) = none) : x.Old t := by
  intro q hT
  by_cases hcr : ∃ c ∈ x.journal.createdParents, q = joinRelative x.journal.workspace c
  · obtain ⟨c, hc, rfl⟩ := hcr
    rw [hpa c hc, x.created_free c hc]
  · exact h.get_eq_base hall hT fun c hc he => hcr ⟨c, hc, he⟩

theorem new_of_installed (hco : x.Complete) (h : x.Skeleton t)
    (hall : ∀ e ∈ x.journal.roots, x.Installed t e) : x.New t :=
  ⟨hco, h.workspace, fun e he => (hall e he).1⟩

/-! ### Removing created parents -/

theorem lt_of_components {a b : RelativePath} (hr : r ≠ []) (h : b.components = a.components ++ r) :
    a < b := by
  have hp := (prefix_slash_iff a.value b.value).mpr ⟨r, hr, h⟩
  have hle : ¬b.value < a.value := by
    rw [String.lt_iff]
    exact ((prefix_append _ _).trans hp).le
  have hne : a.value ≠ b.value := by
    intro he
    have hl := hp.length_le
    rw [he, length_append, length_singleton] at hl
    omega
  exact lt_of_le_of_ne (not_lt.mp hle) hne

theorem Skeleton.parent_empty (h : x.Skeleton t) (hall : ∀ e ∈ x.journal.roots, x.Untouched t e)
    (hc : c ∈ x.journal.createdParents) (hla : ∀ c' ∈ x.journal.createdParents, c < c' →
      get t (joinRelative x.journal.workspace c') = none) :
    isEmptyBelow t (joinRelative x.journal.workspace c) = true := by
  rw [isEmptyBelow_iff]
  intro r hr
  have ha : joinRelative x.journal.workspace c ++ r =
      x.journal.workspace ++ (c.components ++ r) := append_assoc _ _ _
  by_cases hcr : ∃ c' ∈ x.journal.createdParents,
      joinRelative x.journal.workspace c ++ r = joinRelative x.journal.workspace c'
  · obtain ⟨c', hc', he⟩ := hcr
    rw [he]
    refine hla c' hc' (lt_of_components hr ?_)
    rw [ha] at he
    exact (append_cancel_left he).symm
  have hT : ¬x.journal.transaction <+: joinRelative x.journal.workspace c ++ r := by
    rw [ha]
    exact x.not_transaction_of_live (prefix_refl _)
  rw [h.get_eq_base hall hT fun c' hc' he => hcr ⟨c', hc', he⟩]
  by_contra hs
  have hd := dir_of_above x.closed hs (prefix_append _ r) (by simpa using hr)
  rw [x.created_free c hc] at hd
  simp at hd

theorem Skeleton.erase_parent (h : x.Skeleton t) (hc : c ∈ x.journal.createdParents) :
    x.Skeleton (erase t (joinRelative x.journal.workspace c)) ∧
      ∀ e ∈ x.journal.roots, x.SameCells t (erase t (joinRelative x.journal.workspace c)) e := by
  have hs : ∀ slot, slot ≠ .live → ∀ e ∈ x.journal.roots, ∀ q,
      q <+: (x.cell slot e).dropLast → q ≠ joinRelative x.journal.workspace c := by
    rintro slot hsl e he q hq rfl
    have hl : x.journal.workspace <+: x.cell slot e :=
      (prefix_append _ _).trans (hq.trans ( dropLast_prefix _))
    exact (x.anchor_apart hsl).not_both (prefix_append _ _) hl
  refine ⟨⟨?_, ?_, ?_, ?_⟩, ?_⟩
  · intro q hq hT hn
    rw [get_erase, if_neg (hn c hc)]
    exact h.outside q hq hT hn
  · intro c' hc'
    rw [get_erase]
    split
    · exact .inr rfl
    · exact h.parents c' hc'
  · intro e he q hq
    rw [get_erase, if_neg (hs .staged (by decide) e he q hq)]
    exact h.staging e he q hq
  · intro e he hh q hq
    rw [get_erase, if_neg (hs .saved (by decide) e he q hq)]
    exact h.backup e he hh q hq
  · intro e he slot
    funext r
    have hne : x.cell slot e ++ r ≠ joinRelative x.journal.workspace c := by
      intro heq
      exact x.free_created hc slot e he (heq ▸ prefix_append _ r)
    rw [below, get_erase, if_neg hne, below]

end Transaction

end Octa.Restore
