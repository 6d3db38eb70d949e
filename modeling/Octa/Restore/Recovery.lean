import Octa.Restore.Transaction

/-!
# Recovery of an interrupted transaction

`Recoverable` lists the durable states of a transaction: which markers exist and
what the tree then holds.
-/

namespace Octa.Restore

open FileTree Crash Device Octa.Cache RestoreManager Disk
open List hiding get

namespace Transaction

variable {κ : Type} (x : Transaction κ)

/-! ## Durable states -/

structure Journaled (d : Disk κ) : Prop where
  json : d.journals.get ⟨x.journal.id, .json⟩ = some (.intent x.journal)
  only : ∀ f, d.journals.get f ≠ none → f.extension = .json → f = ⟨x.journal.id, .json⟩
  published : d.journals.get ⟨x.journal.id, .tmp⟩ = none

structure Marked (d : Disk κ) (prepared committed rolledBack : Bool) : Prop where
  prepared : d.journals.get (preparedMarker x.journal.id) =
    if prepared then some .empty else none
  committed : d.journals.get (commitMarker x.journal.id) =
    if committed then some .empty else none
  rolledBack : d.journals.get (rolledBackMarker x.journal.id) =
    if rolledBack then some .empty else none

/-- What the tree holds under given prepared, committed and rolled-back markers. -/
def Consistent (t : Tree String κ) : Bool → Bool → Bool → Prop
  | false, false, false => x.Old t ∨ x.New t
  | true, false, false => x.Unsettled t
  | _, true, false => x.New t
  | _, false, true => x.Old t
  | _, true, true => False

/-- The transaction directory exists or has been removed completely. -/
def Removable (t : Tree String κ) : Prop :=
  get t x.journal.transaction = some .dir ∨ below t x.journal.transaction = absent

structure Pending (d : Disk κ) (prepared committed rolledBack : Bool) : Prop where
  journaled : x.Journaled d
  marked : x.Marked d prepared committed rolledBack
  removable : x.Removable d.tree
  consistent : x.Consistent d.tree prepared committed rolledBack

structure Finished (d : Disk κ) : Prop where
  no_journal : ∀ f, d.journals.get f ≠ none → f.extension ≠ .json
  published : d.journals.get ⟨x.journal.id, .tmp⟩ = none
  marked : x.Marked d false false false
  gone : below d.tree x.journal.transaction = absent
  outcome : x.Old d.tree ∨ x.New d.tree

def Recoverable (d : Disk κ) : Prop :=
  x.Finished d ∨ ∃ prepared committed rolledBack, x.Pending d prepared committed rolledBack

variable {x} {d : Disk κ} {t t' : Tree String κ} {e : JournalRoot}
variable {prepared committed rolledBack : Bool}

theorem Pending.recoverable (h : x.Pending d prepared committed rolledBack) :
    x.Recoverable d := .inr ⟨_, _, _, h⟩

theorem Journaled.tree (h : x.Journaled d) : x.Journaled { d with tree := t } :=
  ⟨h.json, h.only, h.published⟩

theorem Marked.tree (h : x.Marked d prepared committed rolledBack) :
    x.Marked { d with tree := t } prepared committed rolledBack :=
  ⟨h.prepared, h.committed, h.rolledBack⟩

variable {journals : JournalDir}

theorem Journaled.update {file : JournalFile} {val : Option JournalContent} (h : x.Journaled d)
    (hjson : file.extension ≠ .json) (htmp : file.extension ≠ .tmp)
    (hget : ∀ g, journals.get g = if g = file then val else d.journals.get g) :
    x.Journaled { d with journals } := by
  have hs : ∀ g, g.extension = .json ∨ g.extension = .tmp → journals.get g = d.journals.get g := by
    intro g hg
    rw [hget, if_neg]
    rintro rfl
    exact hg.elim hjson htmp
  refine ⟨(hs _ (.inl rfl)).trans h.json, fun f hf he => h.only f ?_ he,
    (hs _ (.inr rfl)).trans h.published⟩
  rwa [← hs f (.inl he)]

theorem Marked.set_prepared (pres : Bool) (h : x.Marked d prepared committed rolledBack)
    (hget : ∀ g, journals.get g = if g = preparedMarker x.journal.id then
      (if pres then some .empty else none) else d.journals.get g) :
    x.Marked { d with journals } pres committed rolledBack where
  prepared := by rw [hget, if_pos rfl]
  committed := by rw [hget, if_neg (by simp [commitMarker, preparedMarker]), h.committed]
  rolledBack := by rw [hget, if_neg (by simp [rolledBackMarker, preparedMarker]), h.rolledBack]

theorem Marked.set_committed (pres : Bool) (h : x.Marked d prepared committed rolledBack)
    (hget : ∀ g, journals.get g = if g = commitMarker x.journal.id then
      (if pres then some .empty else none) else d.journals.get g) :
    x.Marked { d with journals } prepared pres rolledBack where
  prepared := by rw [hget, if_neg (by simp [commitMarker, preparedMarker]), h.prepared]
  committed := by rw [hget, if_pos rfl]
  rolledBack := by rw [hget, if_neg (by simp [rolledBackMarker, commitMarker]), h.rolledBack]

theorem Marked.set_rolledBack (pres : Bool) (h : x.Marked d prepared committed rolledBack)
    (hget : ∀ g, journals.get g = if g = rolledBackMarker x.journal.id then
      (if pres then some .empty else none) else d.journals.get g) :
    x.Marked { d with journals } prepared committed pres where
  prepared := by rw [hget, if_neg (by simp [rolledBackMarker, preparedMarker]), h.prepared]
  committed := by rw [hget, if_neg (by simp [rolledBackMarker, commitMarker]), h.committed]
  rolledBack := by rw [hget, if_pos rfl]

theorem Recoverable.of_get (h : x.Recoverable d) (hget : ∀ f, journals.get f = d.journals.get f ∨
      f.extension = .tmp ∧ journals.get f = none) : x.Recoverable { d with journals } := by
  have hs : ∀ f : JournalFile, f.extension ≠ .tmp → journals.get f = d.journals.get f :=
    fun f hf => (hget f).resolve_right fun ht => hf ht.1
  have htm : d.journals.get ⟨x.journal.id, .tmp⟩ = none →
      journals.get ⟨x.journal.id, .tmp⟩ = none := fun hn =>
    (hget _).elim (fun heq => heq.trans hn) And.right
  have hmr : ∀ {p c r}, x.Marked d p c r → x.Marked { d with journals } p c r := fun hm =>
    ⟨(hs _ (by simp [preparedMarker])).trans hm.prepared,
      (hs _ (by simp [commitMarker])).trans hm.committed,
      (hs _ (by simp [rolledBackMarker])).trans hm.rolledBack⟩
  have hjs : ∀ f, journals.get f ≠ none → f.extension = .json → d.journals.get f ≠ none := by
    intro f hf he
    rwa [← hs f (by simp [he])]
  rcases h with ⟨hno, hp, hma, hg, ho⟩ | ⟨p, c, r, hj, hma, hr, hc⟩
  · exact .inl ⟨fun f hf he => hno f (hjs f hf he) he, htm hp, hmr hma, hg, ho⟩
  refine .inr ⟨p, c, r, ⟨?_, ?_, htm hj.published⟩, hmr hma, hr, hc⟩
  · exact (hs _ (by simp)).trans hj.json
  · exact fun f hf he => hj.only f (hjs f hf he) he

theorem Consistent.workspace (h : x.Consistent t prepared committed rolledBack) :
    get t x.journal.workspace = some .dir := by
  have ho : x.Old t → get t x.journal.workspace = some .dir := fun ho =>
    (ho _ x.workspace_apart_transaction.2).trans x.workspace_dir
  cases prepared <;> cases committed <;> cases rolledBack
  · exact h.elim ho fun hn => hn.workspace
  · exact ho h
  · exact h.workspace
  · exact h.elim
  · exact h.skeleton.workspace
  · exact ho h
  · exact h.workspace
  · exact h.elim

/-! ## Removing the transaction state -/

theorem Consistent.congr (h : x.Consistent t false committed rolledBack)
    (hsame : ∀ q, ¬x.journal.transaction <+: q → get t' q = get t q) :
    x.Consistent t' false committed rolledBack := by
  cases committed <;> cases rolledBack
  · exact h.imp (fun ho => Old.congr ho hsame) fun hn => New.congr hn hsame
  · exact Old.congr h hsame
  · exact New.congr h hsame
  · exact h.elim

theorem Consistent.drop_committed (h : x.Consistent t false committed rolledBack) :
    x.Consistent t false false rolledBack := by
  cases committed <;> cases rolledBack
  · exact h
  · exact h
  · exact .inr h
  · exact h.elim

theorem Consistent.drop_rolledBack (h : x.Consistent t false false rolledBack) :
    x.Old t ∨ x.New t := by
  cases rolledBack
  · exact h
  · exact .inl h

theorem Pending.remove_journal (h : x.Pending d false false false)
    (hgone : below d.tree x.journal.transaction = absent) (hget : ∀ g, journals.get g =
      if g = ⟨x.journal.id, .json⟩ then none else d.journals.get g) :
    x.Finished { d with journals } where
  no_journal f hf hext := by
    rw [hget] at hf
    split at hf
    · exact hf rfl
    · rename_i hne
      exact hne (h.journaled.only f hf hext)
  published := by rw [hget, if_neg (by simp), h.journaled.published]
  marked := ⟨by rw [hget, if_neg (by simp [preparedMarker]), h.marked.prepared],
    by rw [hget, if_neg (by simp [commitMarker]), h.marked.committed],
    by rw [hget, if_neg (by simp [rolledBackMarker]), h.marked.rolledBack]⟩
  gone := hgone
  outcome := h.consistent

theorem Pending.erase {tree : Tree String κ} (h : x.Pending d false committed rolledBack)
    (hsame : ∀ q, ¬x.journal.transaction <+: q → get tree q = get d.tree q)
    (hrem : x.Removable tree) : x.Pending { d with tree } false committed rolledBack where
  journaled := h.journaled.tree
  marked := h.marked.tree
  removable := hrem
  consistent := h.consistent.congr hsame

theorem Removable.torn (h : x.Removable t) (htorn : ∀ q, get t' q = get t q ∨
      x.journal.transaction <+: q ∧ q ≠ x.journal.transaction ∧ get t' q = none) :
    x.Removable t' := by
  rcases h with hd | ha
  · left
    rw [← hd]
    exact (htorn _).resolve_right fun hr => hr.2.1 rfl
  right
  funext r
  rcases htorn (x.journal.transaction ++ r) with hs | ⟨-, -, hn⟩
  · exact hs.trans (congrFun ha r)
  · exact hn

variable {E : CacheError → Disk κ → Prop} {mgr : RestoreManager}

theorem wpe_removeTransactionState (h : x.Pending d prepared committed rolledBack)
    (hcons : x.Consistent d.tree false committed rolledBack) : (device x.platform).wpe
      (mgr.removeTransactionState x.journal.id x.journal.transaction)
      (fun _ d => x.Finished d) E x.Recoverable d := by
  refine wpe_bind (wpe_removeFileIfPresent h.recoverable fun j₁ hj₁ => ?_)
  have h₁ : x.Pending { d with journals := j₁ } false committed rolledBack :=
    ⟨h.journaled.update (by simp [preparedMarker]) (by simp [preparedMarker]) hj₁,
      h.marked.set_prepared false hj₁, h.removable, hcons⟩
  refine ⟨h₁.recoverable, wpe_bind (wpe_syncJournalRoot h₁.recoverable ?_)⟩
  refine wpe_bind (wpe_removeTransaction h₁.removable h₁.recoverable ?_ ?_)
  · intro tree ht
    have hs : ∀ q, ¬x.journal.transaction <+: q → get tree q = get d.tree q :=
      fun q hq => (ht q).resolve_right fun hr => hq hr.1
    exact (h₁.erase hs (h₁.removable.torn ht)).recoverable
  intro tree hs hg
  have h₂ := h₁.erase hs (.inr hg)
  refine ⟨h₂.recoverable, ?_⟩
  refine wpe_bind (wpe_removeFileIfPresent h₂.recoverable fun j₂ hj₂ => ?_)
  have h₃ : x.Pending { d with tree, journals := j₂ } false false rolledBack :=
    ⟨h₂.journaled.update (by simp [commitMarker]) (by simp [commitMarker]) hj₂,
      h₂.marked.set_committed false hj₂, h₂.removable, h₂.consistent.drop_committed⟩
  refine ⟨h₃.recoverable, ?_⟩
  refine wpe_bind (wpe_removeFileIfPresent h₃.recoverable fun j₃ hj₃ => ?_)
  have h₄ : x.Pending { d with tree, journals := j₃ } false false false :=
    ⟨h₃.journaled.update (by simp [rolledBackMarker]) (by simp [rolledBackMarker]) hj₃,
      h₃.marked.set_rolledBack false hj₃, h₃.removable, h₃.consistent.drop_rolledBack⟩
  refine ⟨h₄.recoverable, ?_⟩
  refine wpe_bind (wpe_removeFileIfPresent h₄.recoverable fun j₄ hj₄ => ?_)
  have hd := h₄.remove_journal hg hj₄
  exact ⟨.inl hd, wpe_syncJournalRoot (.inl hd) hd⟩

theorem wpe_removeUnpreparedTransactionState (h : x.Pending d false false false) :
    (device x.platform).wpe
      (mgr.removeUnpreparedTransactionState x.journal.id x.journal.transaction)
      (fun _ d => x.Finished d) E x.Recoverable d := by
  refine wpe_bind (wpe_removeTransaction h.removable h.recoverable ?_ ?_)
  · intro tree ht
    have hs : ∀ q, ¬x.journal.transaction <+: q → get tree q = get d.tree q :=
      fun q hq => (ht q).resolve_right fun hr => hq hr.1
    exact (h.erase hs (h.removable.torn ht)).recoverable
  intro tree hs hg
  have h₁ := h.erase hs (.inr hg)
  have hd := h₁.remove_journal hg (JournalDir.get_remove _ _)
  have he : exec x.platform (.journalRemove ⟨x.journal.id, .json⟩)
      { d with tree } = (.ok (), { d with
        tree, journals := d.journals.remove ⟨x.journal.id, .json⟩ }) := by
    change updateJournals _ (d.journals.removeFile ⟨x.journal.id, .json⟩) = _
    rw [JournalDir.removeFile, h₁.journaled.json]
    rfl
  refine ⟨h₁.recoverable, wpe_bind (wpe_call he h₁.recoverable (by rintro _ ⟨⟩) (.inl hd) ?_)⟩
  exact wpe_syncJournalRoot (.inl hd) hd

/-! ## Rolling back the roots -/

section Rollback

variable {C : Disk κ → Prop}

theorem get_cell_of_fresh {slot : Slot} (hco : x.Complete) (he : e ∈ x.journal.roots)
    (h : below t (x.cell slot e) = x.fresh e.path) : get t (x.cell slot e) ≠ none := by
  rw [get_cell, h]
  exact hco e he

theorem get_saved_of_original (he : e ∈ x.journal.roots) (hhad : e.hadOriginal = true)
    (h : below t (x.cell .saved e) = below x.base (x.cell .live e)) :
    get t (x.cell .saved e) ≠ none := by
  rw [get_cell, h, ← get_cell]
  exact (had_of_present he).mp hhad

theorem get_cell_of_absent {slot : Slot} (h : below t (x.cell slot e) = absent) :
    get t (x.cell slot e) = none := by
  rw [get_cell, h, absent]

theorem above_self (p : FsPath) : p.dropLast <+: p.dropLast := prefix_refl _

section

variable (h : x.Unsettled d.tree)
include h

theorem wpe_restoreOriginal {Q : Unit → Disk κ → Prop}
    (he : e ∈ x.journal.roots) (hba : x.BackedUp d.tree e) (hC : C d)
    (hC' : C { d with tree := move d.tree (x.cell .saved e) (x.cell .live e) })
    (hQ : Q () { d with tree := move d.tree (x.cell .saved e) (x.cell .live e) }) :
    (device x.platform).wpe (do
      createParent (x.cell .live e)
      renameDurably "restore backed-up output" (x.cell .saved e) (x.cell .saved e)
        (x.cell .live e)) Q E C d := by
  have ha := fun q hq => h.skeleton.above_original (q := q) he hba.1 hq
  refine wpe_bind (wpe_createParent_of_dirs (joinRelative_ne_nil _ _) ha hC ?_)
  have hr := rename_cell (t := d.tree) he (show Slot.saved ≠ .live by decide)
    (get_saved_of_original he hba.1 hba.2.2.1) (ha _ (above_self _)) hba.2.1
  exact wpe_renameDurably (joinRelative_ne_nil _ _) (joinRelative_ne_nil _ _) hr hC hC' hQ

theorem wpe_rollbackRoot (he : e ∈ x.journal.roots)
    (hC : ∀ tree, x.Unsettled tree → C { d with tree }) :
    (device x.platform).wpe (rollbackRoot x.journal e)
      (fun _ s => ∃ tree, s = { d with tree } ∧ x.Moves e d.tree tree ∧ x.Untouched tree e)
      E C d := by
  have hCd : C d := hC d.tree h
  have hsta : x.Moves e d.tree d.tree := ⟨fun _ _ => rfl, fun _ _ _ _ => rfl⟩
  rcases h.roots e he with hsm | hb | hi
  · -- the staged value is still there, so nothing has to be done
    obtain ⟨hl, hsa, hst⟩ := hsm
    have hd : ∃ tree, d = { d with tree } ∧ x.Moves e d.tree tree ∧ x.Untouched tree e :=
      ⟨d.tree, rfl, hsta, hl, hsa, hst⟩
    have hin := get_cell_of_fresh h.complete he hst
    cases hh : e.hadOriginal with
    | true =>
      rw [rollbackRoot, if_pos hh]
      refine wpe_ifExists hCd (fun hs => absurd (get_cell_of_absent hsa) hs) fun _ => ?_
      exact wpe_ifExists hCd (fun _ => wpe_pure hCd hd) fun hn => absurd hn hin
    | false =>
      have ho := get_cell_of_absent (hl.trans (original_absent he hh))
      rw [rollbackRoot, if_neg (by simp [hh])]
      refine wpe_ifExists hCd (fun _ => ?_) fun hn => absurd hn hin
      exact wpe_ifExists hCd (fun hs => absurd ho hs) fun _ => wpe_pure hCd hd
  · -- only the original has to return
    have hh := hb.1
    have hin := get_saved_of_original he hh hb.2.2.1
    have hm := moves_move (t := d.tree) he (show Slot.saved ≠ .live by decide)
    have hbc := hb.restore he
    rw [rollbackRoot, if_pos hh]
    refine wpe_ifExists hCd (fun _ => ?_) fun hn => absurd hn hin
    refine wpe_ifExists hCd (fun hs => absurd (get_cell_of_absent hb.2.1) hs) fun _ => ?_
    exact wpe_restoreOriginal h he hb hCd (hC _ (h.moves hm (.inl hbc))) ⟨_, rfl, hm, hbc⟩
  · have hin := get_cell_of_fresh h.complete he hi.1
    have ho := get_cell_of_absent hi.2.2
    have hm := moves_move (t := d.tree) he (show Slot.live ≠ .staged by decide)
    have ha := h.skeleton.staging e he
    have hr := rename_cell he (show Slot.live ≠ .staged by decide) hin (ha _ (above_self _)) hi.2.2
    cases hh : e.hadOriginal with
    | true =>
      -- the new value returns to staging, then the original returns
      have hsa := get_saved_of_original he hh hi.2.1
      have hb := hi.revert he hh
      have h₁ := h.moves hm (.inr (.inl hb))
      have hm' := moves_move (t := move d.tree (x.cell .live e) (x.cell .staged e)) he
        (show Slot.saved ≠ .live by decide)
      have hbc := hb.restore he
      rw [rollbackRoot, if_pos hh]
      refine wpe_ifExists hCd (fun _ => ?_) fun hn => absurd hn hsa
      refine wpe_ifExists hCd (fun _ => ?_) fun hn => absurd hn hin
      refine wpe_ifExists hCd (fun hs => absurd ho hs) fun _ => ?_
      refine wpe_bind (wpe_createParent_of_dirs (joinRelative_ne_nil _ _) ha hCd ?_)
      refine wpe_bind (wpe_renameDurably (joinRelative_ne_nil _ _)
        (joinRelative_ne_nil _ _) hr hCd (hC _ h₁) ?_)
      refine wpe_restoreOriginal h₁ he hb (hC _ h₁)
        (hC _ (h₁.moves hm' (.inl hbc))) ⟨_, rfl, ?_, hbc⟩
      exact ⟨fun q hq => (hm'.free q hq).trans (hm.free q hq),
        fun f hf hne slot => (hm'.others f hf hne slot).trans (hm.others f hf hne slot)⟩
    | false =>
      have hbc := hi.revert_new he hh
      rw [rollbackRoot, if_neg (by simp [hh])]
      refine wpe_ifExists hCd (fun hs => absurd ho hs) fun _ => ?_
      refine wpe_ifExists hCd (fun _ => ?_) fun hn => absurd hn hin
      refine wpe_bind (wpe_createParent_of_dirs (joinRelative_ne_nil _ _) ha hCd ?_)
      exact wpe_renameDurably (joinRelative_ne_nil _ _) (joinRelative_ne_nil _ _) hr hCd
        (hC _ (h.moves hm (.inl hbc))) ⟨_, rfl, hm, hbc⟩

theorem wpe_rollbackRoots
    (hC : ∀ tree, x.Unsettled tree → C { d with tree }) :
    (device x.platform).wpe (forM x.journal.roots.reverse (rollbackRoot x.journal))
      (fun _ s => ∃ tree, s = { d with tree } ∧ x.Unsettled tree ∧
        ∀ e ∈ x.journal.roots, x.Untouched tree e) E C d := by
  refine wpe_post (wpe_forM (fun rest s => (∀ e ∈ rest, e ∈ x.journal.roots) ∧
      ∃ tree, s = { d with tree } ∧ x.Unsettled tree ∧
        ∀ e ∈ x.journal.roots, e ∉ rest → x.Untouched tree e) ?_ ?_ ?_) ?_
  · rintro rest s ⟨-, tree, rfl, hu, -⟩
    exact hC tree hu
  · rintro e rest s ⟨hr, tree, rfl, hu, hd⟩
    have he : e ∈ x.journal.roots := hr e mem_cons_self
    refine wpe_post (wpe_rollbackRoot hu he hC) ?_
    rintro ⟨⟩ s ⟨tree', rfl, hm, hb⟩
    refine ⟨fun f hf => hr f (mem_cons_of_mem _ hf), tree', rfl,
      hu.moves hm (.inl hb), fun f hf hn => ?_⟩
    by_cases hfe : f = e
    · subst hfe
      exact hb
    · exact (hd f hf (by simp [hfe, hn])).congr (hm.others f hf hfe)
  · exact ⟨fun e he => mem_reverse.mp he, d.tree, rfl, h,
      fun e he hn => absurd (mem_reverse.mpr he) hn⟩
  · rintro ⟨⟩ s ⟨-, tree, rfl, hu, hd⟩
    exact ⟨tree, rfl, hu, fun e he => hd e he (by simp)⟩

theorem wpe_removeCreatedParents
    (hall : ∀ e ∈ x.journal.roots, x.Untouched d.tree e)
    (hC : ∀ tree, x.Unsettled tree → C { d with tree }) : (device x.platform).wpe
      (forM x.journal.createdParents.reverse (removeCreatedParent x.journal))
      (fun _ s => ∃ tree, s = { d with tree } ∧ x.Unsettled tree ∧ x.Old tree) E C d := by
  have hso := (validateParents_ok (validateJournal_ok x.valid).2.2).2.1
  -- the parents that remain are in decreasing order, all others are gone
  refine wpe_post (wpe_forM (fun rest s =>
      (∀ c ∈ rest, c ∈ x.journal.createdParents) ∧ rest.Pairwise (fun a b => b < a) ∧
      ∃ tree, s = { d with tree } ∧ x.Skeleton tree ∧ (∀ e ∈ x.journal.roots, x.Untouched tree e) ∧
        ∀ c ∈ x.journal.createdParents, c ∉ rest →
          get tree (joinRelative x.journal.workspace c) = none) ?_ ?_ ?_) ?_
  · rintro rest s ⟨-, -, tree, rfl, hs, hu, -⟩
    exact hC tree ⟨h.complete, hs, fun e he => .inl (hu e he)⟩
  · rintro c rest s ⟨hr, hp, tree, rfl, hs, hu, hg⟩
    have hc : c ∈ x.journal.createdParents := hr c mem_cons_self
    obtain ⟨hh, ht⟩ := pairwise_cons.mp hp
    have hCd : C { d with tree } := hC tree ⟨h.complete, hs, fun e he => .inl (hu e he)⟩
    have hla : ∀ c' ∈ x.journal.createdParents, c < c' →
        get tree (joinRelative x.journal.workspace c') = none := by
      intro c' hc' hl
      refine hg c' hc' fun hm => ?_
      rcases mem_cons.mp hm with rfl | hm
      · exact lt_irrefl c'.value hl
      · exact lt_asymm (show c.value < c'.value from hl) (hh c' hm)
    have hr' : ∀ c ∈ rest, c ∈ x.journal.createdParents := fun c hc => hr c (mem_cons_of_mem _ hc)
    rcases hs.parents c hc with hd | hno
    · obtain ⟨hs', hsa⟩ := hs.erase_parent hc
      have hu' := fun e he => (hu e he).congr (hsa e he)
      have hC' := hC _ ⟨h.complete, hs', fun e he => .inl (hu' e he)⟩
      have hex : exec x.platform (.removeDir (joinRelative x.journal.workspace c))
          { d with tree } = (.ok (), { d with
            tree := erase tree (joinRelative x.journal.workspace c) }) := by
        change update _ (removeDir tree (joinRelative x.journal.workspace c)) = _
        rw [removeDir, hd]
        simp only [hs.parent_empty hu hc hla, if_true]
        rfl
      refine wpe_bind (wpe_call hex hCd (by rintro _ ⟨⟩) hC' ?_)
      refine wpe_syncParent (joinRelative_ne_nil _ _) hC' ⟨hr', ht, _, rfl, hs', hu', ?_⟩
      intro c' hc' hn
      rw [get_erase]
      split
      · rfl
      rename_i hne
      exact hg c' hc' (by
        rw [mem_cons, not_or]
        exact ⟨fun heq => hne (by rw [heq]), hn⟩)
    · have hex : exec x.platform (.removeDir (joinRelative x.journal.workspace c))
          { d with tree } = (.error .notFound, { d with tree }) := by
        change update _ (removeDir tree (joinRelative x.journal.workspace c)) = _
        rw [removeDir, hno]
        rfl
      refine wpe_bind (wpe_call hex hCd (by rintro _ ⟨⟩) hCd ?_)
      refine wpe_pure hCd ⟨hr', ht, tree, rfl, hs, hu, fun c' hc' hn => ?_⟩
      by_cases hcc : c' = c
      · rw [hcc, hno]
      · exact hg c' hc' (by simp [hcc, hn])
  · refine ⟨fun c hc => mem_reverse.mp hc, pairwise_reverse.mpr hso, d.tree, rfl,
      h.skeleton, hall, fun c hc hn => absurd (mem_reverse.mpr hc) hn⟩
  · rintro ⟨⟩ s ⟨-, -, tree, rfl, hs, hu, hg⟩
    exact ⟨tree, rfl, ⟨h.complete, hs, fun e he => .inl (hu e he)⟩,
      old_of_untouched hs hu fun c hc => hg c hc (by simp)⟩

end

end Rollback

theorem Skeleton.transaction_dir (h : x.Skeleton t) : get t x.journal.transaction = some .dir := by
  obtain ⟨e, he⟩ := exists_mem_of_ne_nil _ (roots_ne_nil_of_valid x.valid)
  refine h.staging e he _ ?_
  have hd : (x.cell .staged e).dropLast = x.journal.staging ++ e.path.components.dropLast :=
    dropLast_joinRelative _ _
  rw [hd]
  exact (prefix_append _ _).trans (prefix_append _ _)

theorem Pending.unsettled {tree : Tree String κ} (h : x.Pending d true false false)
    (hun : x.Unsettled tree) : x.Pending { d with tree } true false false where
  journaled := h.journaled.tree
  marked := h.marked.tree
  removable := .inl hun.skeleton.transaction_dir
  consistent := hun

theorem wpe_rollback (h : x.Pending d true false false) :
    (device x.platform).wpe (mgr.rollback x.journal.id x.journal)
      (fun _ d => x.Finished d) E x.Recoverable d := by
  have hC : ∀ tree, x.Unsettled tree → x.Recoverable { d with tree } :=
    fun tree hu => (h.unsettled hu).recoverable
  refine wpe_seq (wpe_rollbackRoots h.consistent hC) ?_
  rintro ⟨⟩ s ⟨tree, rfl, hs, hu⟩
  refine wpe_seq (wpe_removeCreatedParents hs hu hC) ?_
  rintro ⟨⟩ s ⟨tree', rfl, hu', ho⟩
  have h₁ := h.unsettled hu'
  have hn : d.journals.get (rolledBackMarker x.journal.id) = none := h.marked.rolledBack
  refine wpe_bind (wpe_writeMarker hn h₁.recoverable fun journals hg => ?_)
  have h₂ : x.Pending { d with tree := tree', journals } true false true :=
    ⟨h₁.journaled.update (by simp [rolledBackMarker]) (by simp [rolledBackMarker]) hg,
      h₁.marked.set_rolledBack true hg, h₁.removable, ho⟩
  exact ⟨h₂.recoverable, wpe_removeTransactionState h₂ ho⟩

/-! ## Committed transactions -/

theorem wpe_cleanupCommitted (h : x.Pending d prepared true false) (hnew : x.New d.tree) :
    (device x.platform).wpe (mgr.cleanupCommitted x.journal.id x.journal)
      (fun _ d => x.Finished d) E x.Recoverable d := by
  refine wpe_seq (wpe_forM
    (fun rest s => s = d ∧ ∀ e ∈ rest, e ∈ x.journal.roots) ?_ ?_ ⟨rfl, fun _ he => he⟩) ?_
  · rintro rest s ⟨rfl, -⟩
    exact h.recoverable
  · rintro e rest s ⟨rfl, hr⟩
    have he : e ∈ x.journal.roots := hr e mem_cons_self
    have hl : get s.tree (x.cell .live e) ≠ none :=
      get_cell_of_fresh hnew.complete he (hnew.roots e he)
    refine wpe_ifExists h.recoverable (fun _ => ?_) fun hn => absurd hn hl
    exact wpe_pure h.recoverable ⟨rfl, fun f hf => hr f (mem_cons_of_mem _ hf)⟩
  · rintro ⟨⟩ s ⟨rfl, -⟩
    exact wpe_removeTransactionState h hnew

/-! ## Recovery -/

theorem wpe_recoverOne (h : x.Pending d prepared committed rolledBack) :
    (device x.platform).wpe (mgr.recoverOne x.journal.id x.journal)
      (fun _ d => x.Finished d) E x.Recoverable d := by
  have hC := h.recoverable
  refine wpe_bind (wpe_liftResult hC (fun _ _ => ?_) fun error he => ?_)
  swap
  · rw [x.valid] at he
    simp at he
  refine wpe_bind (wpe_markerExists h.marked.committed hC ?_)
  refine wpe_bind (wpe_markerExists h.marked.rolledBack hC ?_)
  refine wpe_bind (wpe_markerExists h.marked.prepared hC ?_)
  cases committed with
  | true =>
    cases rolledBack with
    | true => cases prepared <;> exact h.consistent.elim
    | false =>
      have hn : x.New d.tree := by
        have := h.consistent
        cases prepared <;> exact this
      exact wpe_cleanupCommitted h hn
  | false =>
    cases rolledBack with
    | true =>
      have ho : x.Old d.tree := by
        have := h.consistent
        cases prepared <;> exact this
      exact wpe_removeTransactionState h ho
    | false =>
      cases prepared with
      | true => exact wpe_rollback h
      | false => exact wpe_removeUnpreparedTransactionState h

theorem wpe_recoverJournal (h : x.Pending d prepared committed rolledBack) :
    (device x.platform).wpe (mgr.recoverJournal ⟨x.journal.id, .json⟩)
      (fun _ d => x.Finished d) E x.Recoverable d := by
  have hC := h.recoverable
  have hd := h.consistent.workspace
  have hm : exec x.platform (.symlinkMetadata x.journal.workspace) d = (.ok .dir, d) := by
    change (found (get d.tree x.journal.workspace), d) = _
    rw [hd]
    rfl
  have hc : exec x.platform (.canonicalize x.journal.workspace) d =
      (.ok x.journal.workspace, d) := by
    change (found ((get d.tree (x.platform.canonical x.journal.workspace)).map _), d) = _
    rw [x.canonical, hd]
    rfl
  refine wpe_bind (wpe_readJournal h.journaled.json x.bounded x.valid rfl hC ?_)
  refine wpe_bind (wpe_bind (wpe_call hm hC (by rintro _ ⟨⟩) hC ?_))
  refine wpe_bind (wpe_io hc hC (by rintro _ ⟨⟩) hC ?_)
  rw [if_neg (by simp)]
  refine wpe_pure hC ?_
  refine wpe_bind (wpe_io rfl hC (by rintro _ ⟨⟩) hC ?_)
  exact wpe_recoverOne h

/-- Recovery of a recoverable state succeeds, finishes the transaction, and
passes through recoverable states only. -/
theorem wpe_recover (h : x.Recoverable d) :
    (device x.platform).wpe mgr.recover (fun _ d => x.Finished d) (fun _ _ => False)
      x.Recoverable d := by
  refine wpe_bind (wpe_io rfl h (by rintro _ ⟨⟩) h ?_)
  refine wpe_bind (wpe_cleanupTemporaryJournals (fun journals hg => h.of_get hg) ?_)
  intro journals hg hgo
  have h₁ : x.Recoverable { d with journals } := h.of_get hg
  have hfi : ∀ f, journals.get f ≠ none → f.extension = .json → f = ⟨x.journal.id, .json⟩ := by
    intro f hf he
    rcases h₁ with hfn | ⟨p, c, r, hp⟩
    · exact absurd he (hfn.no_journal f hf)
    · exact hp.journaled.only f hf he
  refine wpe_bind (wpe_journalFiles _ rfl hfi h₁ ?_)
  rcases h₁ with hfn | ⟨p, c, r, hp⟩
  · have hn : journals.get ⟨x.journal.id, .json⟩ = none := by
      by_contra hs
      exact hfn.no_journal _ hs rfl
    rw [if_pos hn]
    exact wpe_bind (wpe_pure (.inl hfn) (wpe_pure (.inl hfn) hfn))
  have hs : journals.get ⟨x.journal.id, .json⟩ ≠ none := by
    have hj := hp.journaled.json
    rw [hj]
    simp
  rw [if_neg hs]
  refine wpe_bind (wpe_seq (wpe_recoverJournal hp) ?_)
  intro _ s hfn
  exact wpe_pure (.inl hfn) (wpe_pure (.inl hfn) hfn)

end Transaction

end Octa.Restore
