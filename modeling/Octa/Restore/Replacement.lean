import Octa.Restore.Staging

/-!
# Replacing the outputs

Preparation and mutation of a transaction.
-/

namespace Octa.Restore

open FileTree Crash Device Octa.Cache RestoreManager RestoreJournal Disk
open List hiding get

namespace Transaction

variable {κ : Type} {x : Transaction κ} {d : Disk κ} {t t' : Tree String κ} {e : JournalRoot}
variable {request : RestoreRequest κ} {manager : RestoreManager}

/-! ## Preparation -/

variable (x) in
/-- A staged bundle, with some of the directories for the backups. -/
structure Staged (t : Tree String κ) : Prop where
  old : x.Old t
  transaction : get t x.journal.transaction = some .dir
  above_staged : ∀ e ∈ x.journal.roots, ∀ q, q <+: (x.cell .staged e).dropLast →
    get t q = some .dir
  staged : ∀ e ∈ x.journal.roots, below t (x.cell .staged e) = x.fresh e.path
  above_saved : ∀ e ∈ x.journal.roots, ∀ q, q <+: (x.cell .saved e).dropLast →
    get t q = some .dir ∨ get t q = none
  saved : ∀ e ∈ x.journal.roots, below t (x.cell .saved e) = absent

theorem base_transaction_absent (r : FsPath) : get x.base (x.journal.transaction ++ r) = none :=
  congrFun (below_of_missing x.closed x.unused) r

variable {q : FsPath}

theorem base_above_transaction (hq : q <+: x.journal.transaction)
    (hne : q ≠ x.journal.transaction) : get x.base q = some .dir := by
  have hu := prefix_dropLast_of_ne hq hne
  rw [x.dropLast_transaction] at hu
  have hd : get x.base x.journal.workspace ≠ none := by simp [x.workspace_dir]
  refine dir_of_above x.closed hd (hu.trans ( dropLast_prefix _)) ?_
  rintro rfl
  exact length_dropLast_lt x.workspace_ne_nil (prefix_refl _) hu

variable (x) in
def scaffold : Tree String κ :=
  (x.journal.backup, .dir) :: (x.journal.staging, .dir) :: (x.journal.transaction, .dir) ::
    x.base

theorem get_scaffold (q : FsPath) : get x.scaffold q =
    if q = x.journal.backup ∨ q = x.journal.staging ∨ q = x.journal.transaction then some .dir
    else get x.base q := by
  rw [scaffold, get_cons, get_cons, get_cons]
  split_ifs <;> simp_all

theorem scaffold_of_outside (hq : ¬x.journal.transaction <+: q) :
    get x.scaffold q = get x.base q := by
  have hB : q ≠ x.journal.backup := by
    rintro rfl
    exact hq (prefix_append _ _)
  have hS : q ≠ x.journal.staging := by
    rintro rfl
    exact hq (prefix_append _ _)
  have hT : q ≠ x.journal.transaction := by
    rintro rfl
    exact hq (prefix_refl _)
  rw [get_scaffold, if_neg (by simp [hB, hS, hT])]

theorem scaffold_below {name : String} {r : FsPath} (hr : r ≠ []) :
    get x.scaffold (x.journal.transaction ++ [name] ++ r) = none := by
  have hle : ∀ l : FsPath, l.length ≤ x.journal.transaction.length + 1 →
      x.journal.transaction ++ [name] ++ r ≠ l := by
    rintro l hl rfl
    have hp := length_pos_iff.mpr hr
    simp only [length_append, length_singleton] at hl
    omega
  have hB := hle x.journal.backup (by simp [backup])
  have hS := hle x.journal.staging (by simp [staging])
  have hT := hle x.journal.transaction (by simp)
  rw [get_scaffold, if_neg (by simp only [hB, hS, hT, or_self, not_false_eq_true]),
    append_assoc, base_transaction_absent]

theorem scaffold_above {name : String} (hname : name = "staging" ∨ name = "backup")
    (hq : q <+: x.journal.transaction ++ [name]) : get x.scaffold q = some .dir := by
  rw [get_scaffold]
  split
  · rfl
  rename_i hn
  rw [not_or, not_or] at hn
  have hne : q ≠ x.journal.transaction ++ [name] := by
    rintro rfl
    rcases hname with rfl | rfl
    · exact hn.2.1 rfl
    · exact hn.1 rfl
  have hu := prefix_dropLast_of_ne hq hne
  rw [dropLast_concat] at hu
  exact base_above_transaction hu hn.2.2

variable {bundle : Bundle κ}

theorem staged_of_extracted (hcarries : x.Carries bundle) :
    x.Staged (x.extracted bundle x.scaffold) := by
  have hs : ∀ q, x.journal.backup <+: q → ¬x.journal.staging <+: q := fun q hq =>
    (x.anchor_apart (show Slot.saved ≠ .staged by decide)).not_both hq
  refine ⟨?_, ?_, ?_, ?_, ?_, ?_⟩
  · intro q hq
    rw [get_extracted_of_outside fun hp => hq ((prefix_append _ _).trans hp),
      scaffold_of_outside hq]
  · have ho : ¬x.journal.staging <+: x.journal.transaction := by
      intro hp
      have hl := hp.length_le
      simp [staging] at hl
    rw [get_extracted_of_outside ho, scaffold_above (.inl rfl) (prefix_append _ _)]
  · intro e he q hq
    exact extracted_above_staged he (fun q hq => scaffold_above (.inl rfl) hq) hq
  · intro e he
    exact below_extracted_staged hcarries he fun r hr => scaffold_below hr
  · intro e he q hq
    have hd : (x.cell .saved e).dropLast = x.journal.backup ++ e.path.components.dropLast :=
      dropLast_joinRelative _ _
    rw [hd] at hq
    rcases prefix_or_prefix_of_prefix hq (prefix_append _ _) with hu | ⟨r, rfl⟩
    · left
      have ho : ¬x.journal.staging <+: q := fun hp =>
        (x.anchor_apart (show Slot.saved ≠ .staged by decide)).2 (hp.trans hu)
      rw [get_extracted_of_outside ho, scaffold_above (.inr rfl) hu]
    rw [get_extracted_of_outside (hs _ (prefix_append _ r))]
    by_cases hr : r = []
    · left
      rw [hr, append_nil]
      exact scaffold_above (.inr rfl) (prefix_refl _)
    · exact .inr (scaffold_below hr)
  · intro e he
    funext r
    have hc : x.cell .saved e ++ r = x.journal.backup ++ (e.path.components ++ r) :=
      append_assoc _ _ _
    rw [below, hc, get_extracted_of_outside (hs _ (prefix_append _ _))]
    exact scaffold_below (append_ne_nil_of_left_ne_nil (components_ne_nil _) r)

theorem Staged.grow (h : x.Staged t) (he : e ∈ x.journal.roots) {part : FsPath}
    (hpart : part <+: (x.cell .saved e).dropLast)
    (hget : ∀ q, get t' q = if q <+: part then some .dir else get t q) : x.Staged t' := by
  have hc : ∀ slot, ∀ f ∈ x.journal.roots, below t' (x.cell slot f) = below t (x.cell slot f) := by
    intro slot f hf
    funext r
    rw [below, hget, if_neg fun hp => x.cell_not_above he hf (hp.trans hpart), below]
  refine ⟨?_, ?_, ?_, ?_, ?_, ?_⟩
  · intro q hq
    rw [hget]
    split
    · rename_i hqp
      -- a path above a backup place and outside the transaction lies above the transaction
      have hd : (x.cell .saved e).dropLast =
          x.journal.transaction ++ ("backup" :: e.path.components.dropLast) := by
        rw [cell, dropLast_joinRelative, anchor, backup, append_assoc]
        rfl
      have hu := hqp.trans hpart
      rw [hd] at hu
      rcases prefix_or_prefix_of_prefix hu (prefix_append _ _) with hT | hT
      · refine (base_above_transaction hT ?_).symm
        rintro rfl
        exact hq (prefix_refl _)
      · exact absurd hT hq
    · exact h.old q hq
  · rw [hget, h.transaction, ite_self]
  · intro f hf q hq
    rw [hget, h.above_staged f hf q hq, ite_self]
  · intro f hf
    rw [hc .staged f hf, h.staged f hf]
  · intro f hf q hq
    rw [hget]
    split
    · exact .inl rfl
    · exact h.above_saved f hf q hq
  · intro f hf
    rw [hc .saved f hf, h.saved f hf]

theorem Staged.unsettled (h : x.Staged t) (hco : x.Complete)
    (hba : ∀ e ∈ x.journal.roots, e.hadOriginal = true →
      ∀ q, q <+: (x.cell .saved e).dropLast → get t q = some .dir) :
    x.Unsettled t ∧ ∀ e ∈ x.journal.roots, x.Untouched t e := by
  have hs : ∀ e ∈ x.journal.roots, x.Untouched t e := by
    intro e he
    refine ⟨?_, h.saved e he, h.staged e he⟩
    funext r
    exact h.old _ (x.not_transaction_below_live r)
  refine ⟨⟨hco, ⟨?_, ?_, h.above_staged, hba⟩, fun e he => .inl (hs e he)⟩, hs⟩
  · intro q _ hT _
    exact h.old q hT
  intro c hc
  right
  have hT : ¬x.journal.transaction <+: joinRelative x.journal.workspace c :=
    x.not_transaction_of_live (prefix_refl _)
  rw [h.old _ hT, x.created_free c hc]

variable {E : CacheError → Disk κ → Prop}

section

variable (h : x.Pending d false false false)
include h

theorem wpe_createBackupParents (hst : x.Staged d.tree) : (device x.platform).wpe
      (forM (x.journal.roots.filter JournalRoot.hadOriginal) fun entry =>
        createParent (x.journal.saved entry))
      (fun _ s => ∃ tree, s = { d with tree } ∧ x.Staged tree ∧
        ∀ e ∈ x.journal.roots, e.hadOriginal = true →
          ∀ q, q <+: (x.cell .saved e).dropLast → get tree q = some .dir)
      E x.Recoverable d := by
  have hC : ∀ tree, x.Staged tree → x.Recoverable { d with tree } := fun tree ht =>
    Pending.recoverable ⟨h.journaled.tree, h.marked.tree, .inl ht.transaction, .inl ht.old⟩
  refine wpe_post (wpe_forM (fun rest s =>
      (∀ e ∈ rest, e ∈ x.journal.roots) ∧ ∃ tree, s = { d with tree } ∧ x.Staged tree ∧
        ∀ e ∈ x.journal.roots, e.hadOriginal = true → e ∉ rest →
          ∀ q, q <+: (x.cell .saved e).dropLast → get tree q = some .dir) ?_ ?_ ?_) ?_
  · rintro rest s ⟨-, tree, rfl, ht, -⟩
    exact hC tree ht
  · rintro e rest s ⟨hr, tree, rfl, ht, hd⟩
    have he : e ∈ x.journal.roots := hr e mem_cons_self
    refine wpe_createParent (joinRelative_ne_nil _ _) (ht.above_saved e he) (hC tree ht) ?_ ?_
    · intro part tree' hp hg
      exact hC tree' (ht.grow he hp hg)
    intro tree' hg
    refine ⟨fun f hf => hr f (mem_cons_of_mem _ hf), tree', rfl,
      ht.grow he (prefix_refl _) hg, fun f hf hh hn q hq => ?_⟩
    by_cases hfe : f = e
    · subst hfe
      exact (hg q).trans (if_pos hq)
    · rw [hg, hd f hf hh (by simp [hfe, hn]) q hq, ite_self]
  · refine ⟨fun e he => (mem_filter.mp he).1, d.tree, rfl, hst, ?_⟩
    intro e he hh hn
    exact absurd (mem_filter.mpr ⟨he, hh⟩) hn
  · rintro ⟨⟩ s ⟨-, tree, rfl, ht, hd⟩
    exact ⟨tree, rfl, ht, fun e he hh => hd e he hh (by simp)⟩

theorem Pending.inside {tree : Tree String κ}
    (hold : x.Old tree) (hrem : x.Removable tree) :
    x.Pending { d with tree } false false false where
  journaled := h.journaled.tree
  marked := h.marked.tree
  removable := hrem
  consistent := .inl hold

theorem wpe_createStaging {α : Type} {Q : α → Disk κ → Prop}
    {next : CacheM κ α} (hbase : d.tree = x.base)
    (hnext : (device x.platform).wpe next Q E x.Recoverable
      { d with tree := (x.journal.staging, .dir) :: (x.journal.transaction, .dir) :: x.base }) :
    (device x.platform).wpe (do
      io "create restore transaction" x.journal.transaction (.createDir x.journal.transaction)
      io "create restore staging directory" x.journal.staging (.createDir x.journal.staging)
      next) Q E x.Recoverable d := by
  have ho : ∀ q, ¬x.journal.transaction <+: q →
      q ≠ x.journal.transaction ∧ q ≠ x.journal.staging := by
    intro q hq
    refine ⟨?_, ?_⟩
    · rintro rfl
      exact hq (prefix_refl _)
    · rintro rfl
      exact hq (prefix_append _ _)
  have ho₁ : x.Old ((x.journal.transaction, .dir) :: x.base) := fun q hq => by
    rw [get_cons, if_neg (ho q hq).1]
  have ho₂ : x.Old ((x.journal.staging, .dir) :: (x.journal.transaction, .dir) :: x.base) :=
    fun q hq => by rw [get_cons, if_neg (ho q hq).2, ho₁ q hq]
  have hT : get ((x.journal.transaction, .dir) :: x.base) x.journal.transaction = some .dir := by
    rw [get_cons, if_pos rfl]
  have hne : x.journal.transaction ≠ x.journal.staging := by simp [staging]
  have hT₂ : get ((x.journal.staging, .dir) :: (x.journal.transaction, .dir) :: x.base)
      x.journal.transaction = some .dir := by
    rw [get_cons, if_neg hne, hT]
  have h₁ := (h.inside ho₁ (.inl hT)).recoverable
  have h₂ := (h.inside ho₂ (.inl hT₂)).recoverable
  have hp : get d.tree x.journal.transaction.dropLast = some .dir := by
    rw [hbase]
    refine base_above_transaction ( dropLast_prefix _) ?_
    intro he
    have hl := congrArg length he
    rw [x.transaction_eq] at hl
    simp at hl
  refine wpe_bind (wpe_createDir (by rw [hbase, x.unused]) hp h.recoverable ?_ ?_)
  · rw [hbase]
    exact h₁
  rw [hbase]
  refine wpe_bind (wpe_createDir ?_ ?_ h₁ h₂ hnext)
  · rw [get_cons, if_neg hne.symm]
    exact base_transaction_absent _
  · rw [staging, dropLast_concat, hT]

theorem wpe_extractBundle {Q : CacheResult Unit → Disk κ → Prop}
    (hold : x.Old d.tree) (hT : get d.tree x.journal.transaction = some .dir)
    (hQ : x.Recoverable { d with tree := x.extracted bundle d.tree } →
      Q (bundle.check (x.journal.roots.map JournalRoot.path))
        { d with tree := x.extracted bundle d.tree }) :
    (device x.platform).wpe (io "extract bundle" x.journal.staging
      (.extractBundle x.journal.staging (x.journal.roots.map JournalRoot.path) bundle))
      Q E x.Recoverable d := by
  have hi : ∀ tree, (∀ q, ¬x.journal.staging <+: q → get tree q = get d.tree q) →
      x.Recoverable { d with tree } := by
    intro tree hs
    refine (h.inside (Old.congr hold fun q hq => ?_) (.inl ?_)).recoverable
    · exact hs q fun hp => hq ((prefix_append _ _).trans hp)
    have ho : ¬x.journal.staging <+: x.journal.transaction := by
      intro hp
      have hl := hp.length_le
      simp [staging] at hl
    rw [hs _ ho, hT]
  have he := hi (x.extracted bundle d.tree) fun q hq => get_extracted_of_outside hq
  refine wpe_io rfl h.recoverable ?_ he (hQ he)
  intro d₁ hd₁
  cases hd₁ with
  | extractBundle hs => exact hi _ hs

end

theorem complete_of_check (hcarries : x.Carries bundle)
    (hch : bundle.check (x.journal.roots.map JournalRoot.path) = .ok ()) : x.Complete := by
  intro e he
  rw [hcarries]
  exact Bundle.newTree_of_check hch (mem_map_of_mem he)

theorem wpe_preparation (h : x.Pending d false false false) (hbase : d.tree = x.base)
    (hcarries : x.Carries request.bundle) : (device x.platform).wpe
      (manager.preparation request (x.journal.roots.map JournalRoot.path) x.journal)
      (fun _ s => x.Pending s true false false ∧ ∀ e ∈ x.journal.roots, x.Untouched s.tree e)
      (fun _ s => x.Pending s false false false) x.Recoverable d := by
  refine wpe_createStaging h hbase ?_
  have ho₂ : x.Old ((x.journal.staging, .dir) :: (x.journal.transaction, .dir) :: x.base) := by
    intro q hq
    have hsc := scaffold_of_outside hq
    have hB : q ≠ x.journal.backup := by
      rintro rfl
      exact hq (prefix_append _ _)
    rwa [scaffold, get_cons, if_neg hB] at hsc
  have hT₂ : get ((x.journal.staging, .dir) :: (x.journal.transaction, .dir) :: x.base)
      x.journal.transaction = some .dir := by
    have hne : x.journal.transaction ≠ x.journal.staging := by simp [staging]
    rw [get_cons, if_neg hne, get_cons, if_pos rfl]
  have h₂ := h.inside ho₂ (.inl hT₂)
  have ho₃ : x.Old x.scaffold := fun q hq => scaffold_of_outside hq
  have hT₃ : get x.scaffold x.journal.transaction = some .dir :=
    scaffold_above (.inl rfl) (prefix_append _ _)
  have h₃ := h.inside ho₃ (.inl hT₃)
  refine wpe_bind (wpe_createDir ?_ ?_ h₂.recoverable h₃.recoverable ?_)
  · have hS : x.journal.backup ≠ x.journal.staging := by
      simp [staging, backup]
    have hT : x.journal.backup ≠ x.journal.transaction := by simp [backup]
    rw [get_cons, if_neg hS, get_cons, if_neg hT]
    exact base_transaction_absent _
  · rw [backup, dropLast_concat, hT₂]
  refine wpe_bind (wpe_extractBundle h₃ ho₃ hT₃ fun hr => ?_)
  have hs := staged_of_extracted hcarries
  have h₄ := h.inside hs.old (.inl hs.transaction)
  refine wpe_bind (wpe_liftResult hr (fun _ hc => ?_) fun _ _ => h₄)
  have hco := complete_of_check hcarries hc
  refine wpe_bind (wpe_liftResult hr (fun _ _ => ?_) fun _ _ => h₄)
  refine wpe_seq (wpe_createBackupParents h₄ hs) ?_
  rintro ⟨⟩ s ⟨tree, rfl, hs', hb⟩
  have h₅ := h.inside hs'.old (.inl hs'.transaction)
  obtain ⟨hu, hsa⟩ := hs'.unsettled hco hb
  refine wpe_bind (wpe_syncTreeDirectories h₅.recoverable ?_)
  refine wpe_bind (wpe_syncDirectory h₅.recoverable ?_)
  refine wpe_writeMarker h₅.marked.prepared h₅.recoverable fun journals hg => ?_
  have h₆ : x.Pending { d with tree, journals } true false false :=
    ⟨h₅.journaled.update (by simp [preparedMarker]) (by simp [preparedMarker]) hg,
      h₅.marked.set_prepared true hg, h₅.removable, hu⟩
  exact ⟨h₆.recoverable, h₆, hsa⟩

/-! ## Mutation -/

theorem Skeleton.createParentDir (h : x.Skeleton t) {c : RelativePath}
    (hc : c ∈ x.journal.createdParents) :
    x.Skeleton ((joinRelative x.journal.workspace c, .dir) :: t) ∧
      ∀ e ∈ x.journal.roots, x.SameCells t ((joinRelative x.journal.workspace c, .dir) :: t) e := by
  refine ⟨⟨?_, ?_, ?_, ?_⟩, ?_⟩
  · intro q hq hT hn
    rw [get_cons, if_neg (hn c hc)]
    exact h.outside q hq hT hn
  · intro c' hc'
    rw [get_cons]
    split
    · exact .inl rfl
    · exact h.parents c' hc'
  · intro e he q hq
    rw [get_cons, h.staging e he q hq, ite_self]
  · intro e he hh q hq
    rw [get_cons, h.backup e he hh q hq, ite_self]
  · intro e he slot
    funext r
    have hne : x.cell slot e ++ r ≠ joinRelative x.journal.workspace c := by
      intro heq
      exact x.free_created hc slot e he (heq ▸ prefix_append _ r)
    rw [below, get_cons, if_neg hne, below]

variable (x) in
/-- A state reached from `d` before any root has moved. -/
def Calm (d s : Disk κ) : Prop :=
  ∃ tree, s = { d with tree } ∧ x.Unsettled tree ∧ ∀ e ∈ x.journal.roots, x.Untouched tree e

theorem Calm.trans {d₁ d₂ : Disk κ} (h : x.Calm d d₁) (h' : x.Calm d₁ d₂) : x.Calm d d₂ := by
  obtain ⟨tree, rfl, -⟩ := h
  obtain ⟨tree', rfl, ht'⟩ := h'
  exact ⟨tree', rfl, ht'⟩

theorem Calm.tree {d₁ : Disk κ} (h : x.Calm d d₁) :
    x.Unsettled d₁.tree ∧ ∀ e ∈ x.journal.roots, x.Untouched d₁.tree e := by
  obtain ⟨tree, rfl, ht⟩ := h
  exact ht

theorem Calm.self {d₁ : Disk κ} (h : x.Calm d d₁) : x.Calm d₁ d₁ := by
  obtain ⟨tree, rfl, ht⟩ := h
  exact ⟨tree, rfl, ht⟩

theorem wpe_createLiveParent (h : x.Calm d d) {c : RelativePath}
    (hc : c ∈ x.journal.createdParents) :
    (device x.platform).wpe (createLiveParent x.journal.workspace c)
      (fun _ => x.Calm d) (fun _ => x.Calm d) (x.Calm d) d := by
  obtain ⟨hun, hu⟩ := h.tree
  rw [createLiveParent]
  cases hcr : createDir d.tree (joinRelative x.journal.workspace c) with
  | ok tree' =>
    have ht' : tree' = (joinRelative x.journal.workspace c, .dir) :: d.tree := by
      unfold createDir at hcr
      split at hcr
      · simp at hcr
      · split at hcr <;> simp_all
    subst ht'
    obtain ⟨hs, hsa⟩ := hun.skeleton.createParentDir hc
    have hs' := fun e he => (hu e he).congr (hsa e he)
    have hC' : x.Calm d { d with tree := (joinRelative x.journal.workspace c, .dir) :: d.tree } :=
      ⟨_, rfl, ⟨hun.complete, hs, fun e he => .inl (hs' e he)⟩, hs'⟩
    have hex : exec x.platform (.createDir (joinRelative x.journal.workspace c))
        d = (.ok (), { d with
          tree := (joinRelative x.journal.workspace c, .dir) :: d.tree }) := by
      change update _ (createDir d.tree (joinRelative x.journal.workspace c)) = _
      rw [hcr]
      rfl
    refine wpe_bind (wpe_call hex h (by rintro _ ⟨⟩) hC' ?_)
    exact wpe_syncParent (joinRelative_ne_nil _ _) hC' hC'
  | error kind =>
    have hex : exec x.platform (.createDir (joinRelative x.journal.workspace c))
        d = (.error kind, d) := by
      change update _ (createDir d.tree (joinRelative x.journal.workspace c)) = _
      rw [hcr]
      rfl
    refine wpe_bind (wpe_call hex h (by rintro _ ⟨⟩) h ?_)
    cases kind with
    | alreadyExists => exact wpe_pure h h
    | _ => exact wpe_throw h h

theorem wpe_createLiveParents (h : x.Calm d d) {parents : List RelativePath}
    (hpa : ∀ c ∈ parents, c ∈ x.journal.createdParents) :
    (device x.platform).wpe (createLiveParents x.journal.workspace parents)
      (fun _ => x.Calm d) (fun _ => x.Calm d) (x.Calm d) d := by
  refine wpe_post (wpe_forM (fun rest s =>
      (∀ c ∈ rest, c ∈ x.journal.createdParents) ∧ x.Calm d s) (fun _ _ hs => hs.2) ?_
      ⟨hpa, h⟩) (fun _ _ hs => hs.2)
  rintro c rest s ⟨hr, hs⟩
  refine wpe_mono (wpe_createLiveParent hs.self (hr c mem_cons_self)) ?_
    (fun _ _ he => hs.trans he) (fun _ hc => hs.trans hc)
  intro _ s' hs'
  exact ⟨fun c hc => hr c (mem_cons_of_mem _ hc), hs.trans hs'⟩

variable {C : Disk κ → Prop}

theorem Unsettled.same (h : x.Unsettled t) (hsk : x.Skeleton t')
    (hsame : ∀ e ∈ x.journal.roots, x.SameCells t t' e) : x.Unsettled t' :=
  ⟨h.complete, hsk, fun e he => (h.roots e he).congr (hsame e he)⟩

theorem wpe_installStaged {Q : Unit → Disk κ → Prop} (h : x.Unsettled d.tree)
    (he : e ∈ x.journal.roots)
    (hsta : x.BackedUp d.tree e ∨ e.hadOriginal = false ∧ x.Untouched d.tree e)
    (hC : ∀ tree, x.Unsettled tree → C { d with tree })
    (hQ : ∀ tree, x.Unsettled tree → x.Installed tree e →
      (∀ f ∈ x.journal.roots, f ≠ e → x.SameCells d.tree tree f) → Q () { d with tree }) :
    (device x.platform).wpe (do
      createParent (x.journal.live e)
      renameDurably "install staged cache output" (x.journal.live e) (x.journal.staged e)
        (x.journal.live e)) Q E C d := by
  have hgr : ∀ part tree, part <+: (x.cell .live e).dropLast →
      (∀ q, get tree q = if q <+: part then some .dir else get d.tree q) →
      x.Unsettled tree ∧ ∀ f ∈ x.journal.roots, x.SameCells d.tree tree f := by
    intro part tree hpa hg
    obtain ⟨hsk, hs⟩ := h.skeleton.grow he hpa hg
    exact ⟨h.same hsk hs, hs⟩
  refine wpe_bind (wpe_createParent (joinRelative_ne_nil _ _)
    (fun q hq => h.skeleton.above_live he hq) (hC _ h)
    (fun part tree hpa hg => hC _ (hgr part tree hpa hg).1) ?_)
  intro tree hg
  obtain ⟨hun, hs⟩ := hgr _ tree (prefix_refl _) hg
  have hs' : x.BackedUp tree e ∨ e.hadOriginal = false ∧ x.Untouched tree e :=
    hsta.imp (·.congr (hs e he)) (And.imp_right (·.congr (hs e he)))
  have hst : get tree (x.cell .staged e) ≠ none := by
    rcases hs' with hb | ⟨-, hu⟩
    · exact get_cell_of_fresh h.complete he hb.2.2.2
    · exact get_cell_of_fresh h.complete he hu.2.2
  have hfr : below tree (x.cell .live e) = absent := by
    rcases hs' with hb | ⟨hh, hu⟩
    · exact hb.2.1
    · exact hu.1.trans (original_absent he hh)
  have hp : get tree (x.cell .live e).dropLast = some .dir := (hg _).trans (if_pos (prefix_refl _))
  have hr := rename_cell he (show Slot.staged ≠ .live by decide) hst hp hfr
  have hm := moves_move (t := tree) he (show Slot.staged ≠ .live by decide)
  have hi := installed_of_move he hs'
  have hu' := hun.moves hm (.inr (.inr hi))
  refine wpe_renameDurably (joinRelative_ne_nil _ _) (joinRelative_ne_nil _ _) hr
    (hC _ hun) (hC _ hu') (hQ _ hu' hi fun f hf hne slot => ?_)
  exact (hm.others f hf hne slot).trans (hs f hf slot)

theorem wpe_installRoot (h : x.Unsettled d.tree) (he : e ∈ x.journal.roots)
    (hunt : x.Untouched d.tree e) (hC : ∀ tree, x.Unsettled tree → C { d with tree })
    (hE : ∀ error tree, x.Unsettled tree → E error { d with tree }) :
    (device x.platform).wpe (installRoot request x.journal e)
      (fun _ s => ∃ tree, s = { d with tree } ∧ x.Unsettled tree ∧ x.Installed tree e ∧
        ∀ f ∈ x.journal.roots, f ≠ e → x.SameCells d.tree tree f) E C d := by
  refine wpe_bind (wpe_checkCancelled (hC _ h) ?_ (hE _ _ h))
  cases hh : e.hadOriginal with
  | false =>
    exact wpe_installStaged h he (.inr ⟨hh, hunt⟩) hC fun tree hu hi hs => ⟨tree, rfl, hu, hi, hs⟩
  | true =>
    have hl : get d.tree (x.cell .live e) ≠ none := by
      rw [get_cell, hunt.1, ← get_cell]
      exact (had_of_present he).mp hh
    have ha := h.skeleton.backup e he hh
    have hr := rename_cell he (show Slot.live ≠ .saved by decide) hl (ha _ (above_self _)) hunt.2.1
    have hm := moves_move (t := d.tree) he (show Slot.live ≠ .saved by decide)
    have hb := hunt.backUp he hh
    have hu := h.moves hm (.inr (.inl hb))
    refine wpe_bind (wpe_createParent_of_dirs (joinRelative_ne_nil _ _) ha (hC _ h) ?_)
    refine wpe_bind (wpe_renameDurably (joinRelative_ne_nil _ _)
      (joinRelative_ne_nil _ _) hr (hC _ h) (hC _ hu) ?_)
    refine wpe_installStaged hu he (.inl hb) hC fun tree hu' hi hs => ?_
    exact ⟨tree, rfl, hu', hi, fun f hf hne slot =>
      (hs f hf hne slot).trans (hm.others f hf hne slot)⟩

theorem roots_nodup : x.journal.roots.Nodup := by
  refine (validateJournal_ok x.valid).2.1.imp ?_
  rintro e f ha rfl
  exact ha.1 (prefix_refl _)

theorem wpe_installRoots (h : x.Unsettled d.tree)
    (hall : ∀ e ∈ x.journal.roots, x.Untouched d.tree e)
    (hC : ∀ tree, x.Unsettled tree → C { d with tree })
    (hE : ∀ error tree, x.Unsettled tree → E error { d with tree }) :
    (device x.platform).wpe (forM x.journal.roots (installRoot request x.journal))
      (fun _ s => ∃ tree, s = { d with tree } ∧ x.Unsettled tree ∧
        ∀ e ∈ x.journal.roots, x.Installed tree e) E C d := by
  refine wpe_post (wpe_forM (fun rest s =>
      (∀ e ∈ rest, e ∈ x.journal.roots) ∧ rest.Nodup ∧ ∃ tree, s = { d with tree } ∧
        x.Unsettled tree ∧ (∀ e ∈ rest, x.Untouched tree e) ∧
        ∀ e ∈ x.journal.roots, e ∉ rest → x.Installed tree e) ?_ ?_ ?_) ?_
  · rintro rest s ⟨-, -, tree, rfl, hu, -⟩
    exact hC tree hu
  · rintro e rest s ⟨hr, hno, tree, rfl, hu, hw, hd⟩
    have he : e ∈ x.journal.roots := hr e mem_cons_self
    obtain ⟨hn, hn'⟩ := nodup_cons.mp hno
    refine wpe_post (wpe_installRoot hu he (hw e mem_cons_self) hC hE) ?_
    rintro ⟨⟩ s ⟨tree', rfl, hu', hi, hs⟩
    have hr' : ∀ f ∈ rest, f ∈ x.journal.roots := fun f hf => hr f (mem_cons_of_mem _ hf)
    refine ⟨hr', hn', tree', rfl, hu', fun f hf => ?_, fun f hf hfn => ?_⟩
    · have hne : f ≠ e := by
        rintro rfl
        exact hn hf
      exact (hw f (mem_cons_of_mem _ hf)).congr (hs f (hr' f hf) hne)
    by_cases hfe : f = e
    · subst hfe
      exact hi
    · exact (hd f hf (by simp [hfe, hfn])).congr (hs f hf hfe)
  · exact ⟨fun e he => he, roots_nodup, d.tree, rfl, h, hall, fun e he hn => absurd he hn⟩
  · rintro ⟨⟩ s ⟨-, -, tree, rfl, hu, -, hd⟩
    exact ⟨tree, rfl, hu, fun e he => hd e he (by simp)⟩

variable (x) in
structure Prepared (d : Disk κ) : Prop where
  pending : x.Pending d true false false
  untouched : ∀ e ∈ x.journal.roots, x.Untouched d.tree e

theorem Prepared.calm (h : x.Prepared d) : x.Calm d d :=
  ⟨d.tree, rfl, h.pending.consistent, h.untouched⟩

theorem Prepared.of_calm {s : Disk κ} (h : x.Prepared d) (hs : x.Calm d s) : x.Prepared s := by
  obtain ⟨tree, rfl, hu, hsa⟩ := hs
  exact ⟨h.pending.unsettled hu, hsa⟩

theorem Pending.commit (h : x.Pending d true false false)
    (hinst : ∀ e ∈ x.journal.roots, x.Installed d.tree e) {journals : JournalDir}
    (hget : ∀ g, journals.get g =
      if g = commitMarker x.journal.id then some .empty else d.journals.get g) :
    x.Pending { d with journals } true true false :=
  ⟨h.journaled.update (by simp [commitMarker]) (by simp [commitMarker]) hget,
    h.marked.set_committed true hget, h.removable,
    new_of_installed h.consistent.complete h.consistent.skeleton hinst⟩

theorem wpe_installOutputs (h : x.Prepared d) :
    (device x.platform).wpe (forM x.journal.roots (installRoot request x.journal))
      (fun _ s => x.Pending s true false false ∧ ∀ e ∈ x.journal.roots, x.Installed s.tree e)
      (fun _ s => x.Pending s true false false) (fun s => x.Pending s true false false) d := by
  have hu : x.Unsettled d.tree := h.pending.consistent
  refine wpe_post (wpe_installRoots hu h.untouched
    (fun tree ht => h.pending.unsettled ht) (fun _ tree ht => h.pending.unsettled ht)) ?_
  rintro ⟨⟩ s ⟨tree, rfl, hu', hi⟩
  exact ⟨h.pending.unsettled hu', hi⟩

theorem wpe_installAndCommit (h : x.Prepared d) : (device x.platform).wpe (do
      forM x.journal.roots (installRoot request x.journal)
      manager.writeCommitMarker x.journal.id)
      (fun _ s => x.Pending s true true false) (fun _ s => x.Pending s true false false)
      x.Recoverable d := by
  refine wpe_bind (wpe_mono (wpe_installOutputs h) ?_ (fun _ _ he => he)
    (fun _ hc => hc.recoverable))
  rintro ⟨⟩ s ⟨hs, hi⟩
  refine wpe_writeMarker hs.marked.committed hs.recoverable fun journals hg => ?_
  have hco := hs.commit hi hg
  exact ⟨hco.recoverable, hco⟩

theorem wpe_mutation (h : x.Prepared d) :
    (device x.platform).wpe (manager.mutation request x.journal)
      (fun _ s => x.Pending s true true false) (fun _ s => x.Pending s true false false)
      x.Recoverable d := by
  refine wpe_bind (wpe_mono (wpe_createLiveParents h.calm fun _ hc => hc) ?_ ?_ ?_)
  · intro _ s hs
    exact wpe_installAndCommit (h.of_calm hs)
  · intro _ s hs
    exact (h.of_calm hs).pending
  · intro s hs
    exact (h.of_calm hs).pending.recoverable

/-! ## The restore -/

theorem wpe_prepareOutputs (h : x.Pending d false false false) (hbase : d.tree = x.base)
    (hcarries : x.Carries request.bundle) : (device x.platform).wpe
      (manager.prepareOutputs request (x.journal.roots.map JournalRoot.path) x.journal)
      (fun _ s => x.Prepared s) (fun _ s => x.Recoverable s) x.Recoverable d := by
  refine wpe_bind (wpe_attempt (wpe_mono (wpe_preparation h hbase hcarries) ?_ ?_ (fun _ hc => hc)))
  · rintro ⟨⟩ s ⟨hs, ha⟩
    exact wpe_pure hs.recoverable ⟨hs, ha⟩
  intro error s hs
  refine wpe_seq (wpe_removeTransactionState hs hs.consistent) ?_
  intro _ s' hf
  exact wpe_throw (.inl hf) (.inl hf)

theorem wpe_replaceOutputs (h : x.Prepared d) :
    (device x.platform).wpe (manager.replaceOutputs request x.journal)
      (fun _ s => x.Recoverable s) (fun _ s => x.Recoverable s) x.Recoverable d := by
  refine wpe_bind (wpe_attempt (wpe_mono (wpe_mutation h) ?_ ?_ (fun _ hc => hc)))
  · rintro ⟨⟩ s hs
    refine wpe_seq (wpe_cleanupCommitted hs hs.consistent) ?_
    intro _ s' hf
    exact wpe_pure (.inl hf) (.inl hf)
  intro error s hs
  refine wpe_seq (wpe_rollback hs) ?_
  intro _ s' hf
  exact wpe_throw (.inl hf) (.inl hf)

end Transaction

end Octa.Restore
