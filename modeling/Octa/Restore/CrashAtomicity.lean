import Octa.Restore.Replacement

/-!
# Crash atomicity of output restoration

Every state in which a restore can be stopped is either untouched or a
recoverable state of its transaction.
-/

namespace Octa.Restore

open FileTree Crash Device Octa.Cache RestoreManager Disk

variable {κ : Type} {request : RestoreRequest κ} {manager : RestoreManager} {d : Disk κ}
variable {platform : Platform} {x : Transaction κ}

namespace Transaction

variable {e : JournalRoot}

/-! ## A single new root -/

variable (x) in
def shelf : Tree String κ :=
  (x.journal.staging, .dir) :: (x.journal.transaction, .dir) :: x.base

theorem get_scaffold_shelf {q : FsPath} (hq : q ≠ x.journal.backup) :
    get x.shelf q = get x.scaffold q := by
  rw [scaffold, get_cons, if_neg hq, shelf]

theorem old_shelf : x.Old x.shelf := by
  intro q hq
  have hB : q ≠ x.journal.backup := by
    rintro rfl
    exact hq (List.prefix_append _ _)
  rw [get_scaffold_shelf hB, scaffold_of_outside hq]

theorem shelf_transaction : get x.shelf x.journal.transaction = some .dir := by
  have hB : x.journal.transaction ≠ x.journal.backup := by simp [RestoreJournal.backup]
  rw [get_scaffold_shelf hB]
  exact scaffold_above (.inl rfl) (List.prefix_append _ _)

theorem shelf_staging {r : FsPath} (hr : r ≠ []) : get x.shelf (x.journal.staging ++ r) = none := by
  have hB : x.journal.staging ++ r ≠ x.journal.backup := by
    intro he
    have ha := x.anchor_apart (show Slot.staged ≠ .saved by decide)
    have hp : x.journal.staging <+: x.journal.backup := by
      rw [← he]
      exact List.prefix_append _ _
    exact ha.1 hp
  rw [get_scaffold_shelf hB]
  exact scaffold_below hr

theorem wpe_stageNewRoot (h : x.Pending d false false false) (hbase : d.tree = x.base)
    (hcarries : x.Carries request.bundle) (hroots : x.journal.roots = [e]) :
    (device x.platform).wpe (stageNewRoot request x.journal e)
      (fun _ s => s = { d with tree := x.extracted request.bundle x.shelf } ∧
        x.Pending s false false false ∧ x.Complete)
      (fun _ s => x.Pending s false false false) x.Recoverable d := by
  have hli : [e.path] = x.journal.roots.map JournalRoot.path := by rw [hroots]; rfl
  have h₂ := h.inside old_shelf (.inl shelf_transaction)
  have ho : ∀ q, ¬x.journal.transaction <+: q →
      get (x.extracted request.bundle x.shelf) q = get x.shelf q := fun q hq =>
    get_extracted_of_outside fun hp => hq ((List.prefix_append _ _).trans hp)
  have hT : get (x.extracted request.bundle x.shelf) x.journal.transaction = some .dir := by
    have hn : ¬x.journal.staging <+: x.journal.transaction := by
      intro hp
      have hl := hp.length_le
      simp [RestoreJournal.staging] at hl
    rw [get_extracted_of_outside hn, shelf_transaction]
  have h₃ := h.inside (Old.congr old_shelf ho) (.inl hT)
  refine wpe_createStaging h hbase ?_
  rw [hli]
  refine wpe_bind (wpe_extractBundle h₂ old_shelf shelf_transaction fun hr => ?_)
  refine wpe_bind (wpe_liftResult hr (fun _ hc => ?_) fun _ _ => h₃)
  refine wpe_bind (wpe_liftResult hr (fun _ _ => ?_) fun _ _ => h₃)
  exact wpe_syncTreeDirectories hr ⟨rfl, h₃, complete_of_check hcarries hc⟩

theorem new_root_installed (hcarries : x.Carries request.bundle) (hco : x.Complete)
    (hroots : x.journal.roots = [e]) (hhad : e.hadOriginal = false)
    (hcr : x.journal.createdParents = []) :
    ∃ tree, rename (x.extracted request.bundle x.shelf) (x.cell .staged e) (x.cell .live e) =
        .ok tree ∧ x.New tree ∧ get tree x.journal.transaction = some .dir := by
  have he : e ∈ x.journal.roots := by simp [hroots]
  have ho : x.Old (x.extracted request.bundle x.shelf) := Old.congr old_shelf fun q hq =>
    get_extracted_of_outside fun hp => hq ((List.prefix_append _ _).trans hp)
  have hst := below_extracted_staged (t := x.shelf) hcarries he fun r hr => shelf_staging hr
  have hs := get_cell_of_fresh hco he hst
  have hfr : below (x.extracted request.bundle x.shelf) (x.cell .live e) = absent := by
    rw [← original_absent he hhad]
    funext r
    exact ho _ (x.not_transaction_below_live r)
  have hpa : get (x.extracted request.bundle x.shelf) (x.cell .live e).dropLast = some .dir := by
    have hT : ¬x.journal.transaction <+: (x.cell .live e).dropLast :=
      x.not_transaction_of_live (List.dropLast_prefix _)
    rw [ho _ hT]
    refine (x.base_above_live he (List.prefix_refl _)).resolve_right ?_
    rintro ⟨c, hc, -⟩
    rw [hcr] at hc
    simp at hc
  have ha : Slot.staged ≠ .live := by decide
  have hap := x.cell_apart he he (.inl ha)
  refine ⟨_, rename_cell he ha hs hpa hfr, ⟨hco, ?_, ?_⟩, ?_⟩
  · rw [(moves_move he ha).free _ free_workspace, ho _ x.workspace_apart_transaction.2,
      x.workspace_dir]
  · intro f hf
    rw [hroots, List.mem_singleton] at hf
    subst hf
    rw [below_move_dst hap, hst]
  have hli : ¬x.cell .live e <+: x.journal.transaction := fun hp =>
    x.workspace_apart_transaction.1 ((List.prefix_append _ _).trans hp)
  have hn : ∀ r, ¬x.journal.staging ++ r <+: x.journal.transaction := by
    intro r hp
    have hl := hp.length_le
    simp [RestoreJournal.staging] at hl
  rw [get_move_of_outside hap (hn _) hli]
  have hsta : ¬x.journal.staging <+: x.journal.transaction := by simpa using hn []
  rw [get_extracted_of_outside hsta, shelf_transaction]

theorem wpe_restoreNewRoot (h : x.Pending d false false false) (hbase : d.tree = x.base)
    (hcarries : x.Carries request.bundle) (hroots : x.journal.roots = [e])
    (hhad : e.hadOriginal = false) (hcr : x.journal.createdParents = []) :
    (device x.platform).wpe (manager.restoreNewRoot request x.journal e)
      (fun _ s => x.Recoverable s) (fun _ s => x.Recoverable s) x.Recoverable d := by
  -- every exit discards the transaction and passes its result on
  have hd : ∀ {s : Disk κ}, x.Pending s false false false → ∀ {α : Type} (next : CacheM κ α),
      (∀ s, x.Finished s → (device x.platform).wpe next (fun _ s => x.Recoverable s)
        (fun _ s => x.Recoverable s) x.Recoverable s) →
      (device x.platform).wpe (do
        manager.removeUnpreparedTransactionState x.journal.id x.journal.transaction
        next) (fun _ s => x.Recoverable s) (fun _ s => x.Recoverable s) x.Recoverable s := by
    intro s hs α next hnx
    refine wpe_seq (wpe_removeUnpreparedTransactionState hs) ?_
    intro _ s' hf
    exact hnx s' hf
  have ht : ∀ (error : CacheError) (s : Disk κ), x.Finished s →
      (device x.platform).wpe (throw error : CacheM κ RestoreOutcome)
        (fun _ s => x.Recoverable s) (fun _ s => x.Recoverable s) x.Recoverable s :=
    fun error s hf => wpe_throw (.inl hf) (.inl hf)
  refine wpe_bind (wpe_attempt (wpe_mono (wpe_stageNewRoot h hbase hcarries hroots) ?_ ?_
    (fun _ hc => hc)))
  swap
  · intro error s hs
    exact hd hs _ (ht error)
  rintro ⟨⟩ s ⟨rfl, h₁, hco⟩
  refine wpe_bind (wpe_attempt (wpe_checkCancelled h₁.recoverable ?_ ?_))
  swap
  · exact hd h₁ _ (ht _)
  obtain ⟨tree, hr, hn, hT⟩ := new_root_installed hcarries hco hroots hhad hcr
  have h₂ : x.Pending { d with tree } false false false :=
    ⟨h.journaled.tree, h.marked.tree, .inl hT, .inr hn⟩
  have he : exec x.platform (.rename (x.journal.staged e) (x.journal.live e))
      { d with tree := x.extracted request.bundle x.shelf } = (.ok (), { d with tree }) := by
    change update _ (rename _ (x.cell .staged e) (x.cell .live e)) = _
    rw [hr]
    rfl
  refine wpe_bind (wpe_attempt (wpe_io he h₁.recoverable (by rintro _ ⟨⟩) h₂.recoverable ?_))
  refine wpe_bind (wpe_attempt (wpe_syncRenameParents (joinRelative_ne_nil _ _)
    (joinRelative_ne_nil _ _) h₂.recoverable ?_))
  refine hd h₂ _ fun s hf => ?_
  exact wpe_pure (.inl hf) (.inl hf)

end Transaction

/-! ## Every stop of a restore -/

structure Quiet (request : RestoreRequest κ) (start d : Disk κ) : Prop where
  tree : d.tree = start.tree
  journals : ∀ f, f.extension ≠ .tmp → d.journals.get f = start.journals.get f

structure Opens (platform : Platform) (request : RestoreRequest κ) (start : Disk κ)
    (x : Transaction κ) : Prop where
  host : x.platform = platform
  base : x.base = start.tree
  id : x.journal.id = request.id
  workspace : x.journal.workspace = platform.canonical request.workspace
  roots : validateOutputRoots request.outputRoots = .ok (x.journal.roots.map JournalRoot.path)
  carries : x.Carries request.bundle

def Stopped (platform : Platform) (request : RestoreRequest κ) (start d : Disk κ) : Prop :=
  Quiet request start d ∨ ∃ x, Opens platform request start x ∧ x.Recoverable d

theorem wpe_writeJournal {E : CacheError → Disk κ → Prop} {C : Disk κ → Prop}
    {Q : Unit → Disk κ → Prop} {stem : String} {jr : RestoreJournal}
    (hpl : manager.platform = platform) (htmp : d.journals.get ⟨stem, .tmp⟩ = none)
    (hE : ∀ error, E error d) (hC : ∀ journals : JournalDir,
      (∀ f, f.extension ≠ .tmp → journals.get f = d.journals.get f) → C { d with journals })
    (hend : validateJournal jr = .ok () → platform.encodedSize jr ≤ maxJournalBytes →
      ∀ journals : JournalDir, (∀ f, journals.get f =
        if f = ⟨stem, .json⟩ then some (.intent jr) else
          if f = ⟨stem, .tmp⟩ then none else d.journals.get f) →
      C { d with journals } ∧ Q () { d with journals }) :
    (device platform).wpe (manager.writeJournal stem jr) Q E C d := by
  have hCd : C d := hC d.journals fun _ _ => rfl
  have hs : ∀ cnt, ∀ f : JournalFile, f.extension ≠ .tmp →
      (d.journals.set ⟨stem, .tmp⟩ cnt).get f = d.journals.get f := by
    intro cnt f hf
    rw [JournalDir.get_set, if_neg (by rintro rfl; exact hf rfl)]
  have hs₂ : ∀ first second, ∀ f : JournalFile, f.extension ≠ .tmp →
      ((d.journals.set ⟨stem, .tmp⟩ first).set ⟨stem, .tmp⟩ second).get f = d.journals.get f := by
    intro first second f hf
    rw [JournalDir.get_set, if_neg (by rintro rfl; exact hf rfl), hs first f hf]
  refine wpe_bind (wpe_liftResult hCd (fun _ hv => ?_) fun error _ => hE error)
  split
  · exact wpe_throw hCd (hE _)
  rename_i hsi
  rw [hpl] at hsi
  refine wpe_bind (wpe_io (exec_journalCreateNew htmp) hCd (by rintro _ ⟨⟩) (hC _ (hs _)) ?_)
  refine wpe_bind (wpe_io rfl (hC _ (hs _)) ?_ (hC _ (hs₂ _ _)) ?_)
  · intro d₁ hd₁
    cases hd₁ with
    | journalWrite length => exact hC _ (hs₂ _ _)
  refine wpe_bind (wpe_io rfl (hC _ (hs₂ _ _)) (by rintro _ ⟨⟩) (hC _ (hs₂ _ _)) ?_)
  generalize hj : (d.journals.set ⟨stem, .tmp⟩ .empty).set ⟨stem, .tmp⟩ (.intent jr) = j
  have hg : ∀ f, j.get f = if f = ⟨stem, .tmp⟩ then some (.intent jr) else d.journals.get f := by
    intro f
    rw [← hj, JournalDir.get_set, JournalDir.get_set]
    by_cases hf : f = ⟨stem, .tmp⟩ <;> simp [hf]
  have he : exec platform (.journalRename ⟨stem, .tmp⟩ ⟨stem, .json⟩)
      { d with journals := j } = (.ok (), { d with
        journals := (j.remove ⟨stem, .tmp⟩).set ⟨stem, .json⟩ (.intent jr) }) := by
    change updateJournals _ (j.rename ⟨stem, .tmp⟩ ⟨stem, .json⟩) = _
    rw [JournalDir.rename, hg, if_pos rfl]
    rfl
  obtain ⟨hC', hQ⟩ := hend hv (by omega)
    ((j.remove ⟨stem, .tmp⟩).set ⟨stem, .json⟩ (.intent jr)) (by
      intro f
      rw [JournalDir.get_set, JournalDir.get_remove, hg]
      by_cases hf : f = ⟨stem, .tmp⟩ <;> simp [hf])
  have hCj : C { d with journals := j } := hC j fun f hf => by
    rw [hg, if_neg (by rintro rfl; exact hf rfl)]
  refine wpe_bind (wpe_io he hCj (by rintro _ ⟨⟩) hC' ?_)
  exact wpe_syncJournalRoot hC' hQ

theorem Quiet.start : Quiet request d d := ⟨rfl, fun _ _ => rfl⟩

theorem pending_of_recorded (hready : Ready platform request d)
    (hopens : Opens platform request d x) {journals : JournalDir} (hget : ∀ f, journals.get f =
      if f = ⟨request.id, .json⟩ then some (.intent x.journal) else
        if f = ⟨request.id, .tmp⟩ then none else d.journals.get f) :
    x.Pending { d with journals } false false false := by
  have hn : ∀ extension, d.journals.get ⟨request.id, extension⟩ = none := by
    intro extension
    by_contra hs
    exact (hready.no_journal _ hs).2 rfl
  have hm : ∀ extension, extension ≠ .json → journals.get ⟨x.journal.id, extension⟩ = none := by
    intro extension hne
    rw [hget, hopens.id, if_neg (by simpa using hne), hn, ite_self]
  refine ⟨⟨?_, ?_, hm _ (by decide)⟩,
    ⟨hm _ (by decide), hm _ (by decide), hm _ (by decide)⟩, .inr ?_, .inl ?_⟩
  · rw [hget, hopens.id, if_pos rfl]
  · intro f hf he
    rw [hget] at hf
    split at hf
    · rename_i heq
      rw [heq, hopens.id]
    split at hf
    · exact absurd rfl hf
    · exact absurd he (hready.no_journal f hf).1
  · funext r
    rw [below, ← hopens.base]
    exact Transaction.base_transaction_absent r
  · intro q _
    rw [← hopens.base]

def Handed (platform : Platform) (request : RestoreRequest κ) (start : Disk κ) :
    RestoreOutcome ⊕ RestoreJournal → Disk κ → Prop
  | .inl _, d => Stopped platform request start d
  | .inr journal, d =>
    ∃ x, Opens platform request start x ∧ x.journal = journal ∧ x.Prepared d

section

variable (hready : Ready manager.platform request d)
include hready

theorem wpe_restoreLocked {outputRoots : List RelativePath}
    (hroots : validateOutputRoots request.outputRoots = .ok outputRoots) :
    (device manager.platform).wpe (manager.restoreLocked request
      (manager.platform.canonical request.workspace) outputRoots)
      (Handed manager.platform request d)
      (fun _ s => Stopped manager.platform request d s)
      (Stopped manager.platform request d) d := by
  have hs : Stopped manager.platform request d d := .inl Quiet.start
  refine wpe_bind (wpe_liftResult hs (fun tx htr => ?_) fun _ _ => hs)
  refine wpe_bind (wpe_mono (wpe_inspectLiveRoots outputRoots [] []) ?_ ?_ ?_)
  · rintro ⟨entries, created⟩ s ⟨rfl, he, hi⟩
    rw [List.nil_append] at he
    simp only at he hi
    subst he
    have ht : s.journals.get ⟨request.id, .tmp⟩ = none := by
      by_contra hso
      exact (hready.no_journal _ hso).2 rfl
    refine wpe_bind (wpe_writeJournal rfl ht (fun _ => hs) (fun journals hg => .inl ⟨rfl, hg⟩) ?_)
    intro hv hbounded journals hg
    obtain ⟨x, hx⟩ : ∃ x, x = Transaction.ofRequest request hready htr hi hv hbounded := ⟨_, rfl⟩
    have hj : x.journal = RestoreJournal.new request.id
        (manager.platform.canonical request.workspace) tx
        (outputRoots.map (noted s.tree (manager.platform.canonical request.workspace)))
        created := by rw [hx]; rfl
    have hm : x.journal.roots.map JournalRoot.path = outputRoots := by
      rw [hj]
      simp [RestoreJournal.new, noted, Function.comp_def]
    have ho : Opens manager.platform request s x := by
      refine ⟨by rw [hx]; rfl, by rw [hx]; rfl, by rw [hx]; rfl, by rw [hx]; rfl, ?_, ?_⟩
      · rw [hm, hroots]
      · rw [Transaction.Carries, hx]
        rfl
    have hp : x.Pending { s with journals } false false false :=
      pending_of_recorded hready ho (by rw [hj]; exact hg)
    have hst : ∀ s', x.Recoverable s' → Stopped manager.platform request s s' :=
      fun s' hs' => .inr ⟨x, ho, hs'⟩
    refine ⟨hst _ hp.recoverable, ?_⟩
    have hd : device manager.platform = device (κ := κ) x.platform := by
      rw [ho.host]
    rw [← hj, hd]
    split
    · rename_i root hsi
      have he : x.journal.roots = [⟨root, false⟩] := by
        rw [hj]
        exact hsi
      refine wpe_bind (wpe_mono (Transaction.wpe_restoreNewRoot hp
        ho.base.symm ho.carries he rfl (by rw [hj]; rfl)) ?_ ?_ hst)
      · intro _ s' hs'
        exact wpe_pure (hst s' hs') (hst s' hs')
      · intro _ s' hs'
        exact hst s' hs'
    · rw [← hm]
      refine wpe_bind (wpe_mono (Transaction.wpe_prepareOutputs hp
        ho.base.symm ho.carries) ?_ ?_ hst)
      · intro _ s' hs'
        exact wpe_pure (hst s' hs'.pending.recoverable) ⟨x, ho, rfl, hs'⟩
      · intro _ s' hs'
        exact hst s' hs'
  · rintro _ s rfl
    exact hs
  · rintro s rfl
    exact hs

theorem wpe_restoreUntilPrepared :
    (device manager.platform).wpe (manager.restoreUntilPrepared request)
      (Handed manager.platform request d)
      (fun _ s => Stopped manager.platform request d s)
      (Stopped manager.platform request d) d := by
  have hs : Stopped manager.platform request d d := .inl Quiet.start
  have hc : exec manager.platform (.canonicalize request.workspace) d =
      (.ok (manager.platform.canonical request.workspace), d) := by
    change (found ((get d.tree (manager.platform.canonical request.workspace)).map _), d) = _
    rw [hready.workspace]
    rfl
  refine wpe_bind (wpe_liftResult hs (fun _ _ => ?_) fun _ _ => hs)
  refine wpe_bind (wpe_io hc hs (by rintro _ ⟨⟩) hs ?_)
  refine wpe_bind (wpe_liftResult hs (fun outs hr => ?_) fun _ _ => hs)
  refine wpe_bind (wpe_io rfl hs (by rintro _ ⟨⟩) hs ?_)
  refine wpe_bind (wpe_checkCancelled hs ?_ hs)
  refine wpe_bind (wpe_liftResult hs (fun outputsMatch _ => ?_) fun _ _ => hs)
  cases outputsMatch with
  | true =>
    refine wpe_bind (wpe_liftResult hs (fun _ _ => ?_) fun _ _ => hs)
    exact wpe_pure hs hs
  | false => exact wpe_restoreLocked hready hr

theorem wpe_restoreWithCallbacks :
    (device manager.platform).wpe (manager.restoreWithCallbacks request)
      (fun _ s => Stopped manager.platform request d s)
      (fun _ s => Stopped manager.platform request d s)
      (Stopped manager.platform request d) d := by
  refine wpe_seq (wpe_restoreUntilPrepared hready) ?_
  intro result s hs
  cases result with
  | inl outcome => exact wpe_pure hs hs
  | inr jr =>
    obtain ⟨x, ho, rfl, hp⟩ := hs
    have hst : ∀ s', x.Recoverable s' → Stopped manager.platform request d s' :=
      fun s' hs' => .inr ⟨x, ho, hs'⟩
    have hd : device manager.platform = device (κ := κ) x.platform := by
      rw [ho.host]
    rw [hd]
    exact wpe_mono (Transaction.wpe_replaceOutputs hp) (fun _ => hst) (fun _ => hst) hst

end

/-! ## Recovery from every stop -/

def Settled (platform : Platform) (request : RestoreRequest κ) (start d : Disk κ) : Prop :=
  Quiet request start d ∧ (∀ f, f.extension = .tmp → d.journals.get f = none) ∨
    ∃ x, Opens platform request start x ∧ x.Finished d

variable {start : Disk κ}

theorem wpe_recover_of_stopped (hready : Ready manager.platform request start)
    (h : Stopped manager.platform request start d) : (device manager.platform).wpe manager.recover
      (fun _ s => Settled manager.platform request start s) (fun _ _ => False)
      (Stopped manager.platform request start) d := by
  rcases h with hq | ⟨x, ho, hr⟩
  · -- without a journal only temporary files are removed
    have hk : ∀ journals : JournalDir, (∀ g, journals.get g = d.journals.get g ∨
        g.extension = .tmp ∧ journals.get g = none) →
        Quiet request start { d with journals } := by
      intro journals hge
      refine ⟨hq.tree, fun f hf => ?_⟩
      exact ((hge f).resolve_right fun ht => hf ht.1).trans (hq.journals f hf)
    refine wpe_bind (wpe_io rfl (.inl hq) (by rintro _ ⟨⟩) (.inl hq) ?_)
    refine wpe_bind (wpe_cleanupTemporaryJournals (fun journals hge => .inl (hk journals hge)) ?_)
    intro journals hge hgo
    have hq' := hk journals hge
    have hn : ∀ f, f.extension = .json → journals.get f = none := by
      intro f he
      by_contra hso
      have hsa := hq'.journals f (by simp [he])
      rw [hsa] at hso
      exact (hready.no_journal f hso).1 he
    refine wpe_bind (wpe_journalFiles ⟨request.id, .json⟩ rfl
      (fun g hg he => absurd (hn g he) hg) (.inl hq') ?_)
    rw [if_pos (hn _ rfl)]
    exact wpe_bind (wpe_pure (.inl hq') (wpe_pure (.inl hq') (.inl ⟨hq', hgo⟩)))
  · have hd : device manager.platform = device (κ := κ) x.platform := by
      rw [ho.host]
    rw [hd]
    refine wpe_mono (Transaction.wpe_recover hr) ?_ ?_ ?_
    · exact fun _ s hs => .inr ⟨x, ho, hs⟩
    · exact fun _ _ hfa => hfa
    · exact fun s hs => .inr ⟨x, ho, hs⟩

/-! ## The outcome -/

/-- Every path holds its original node: the roots are as they were and no
parent directory that the restore created is left. -/
def OutputsOld (start final : Disk κ) : Prop :=
  ∀ path, get final.tree path = get start.tree path

def OutputsNew (platform : Platform) (request : RestoreRequest κ) (final : Disk κ) : Prop :=
  ∀ root ∈ request.outputRoots,
    below final.tree (joinRelative (platform.canonical request.workspace) root) =
      request.bundle.newTree root

/-- The transaction directory, the journal and the markers are gone. -/
structure Cleared (platform : Platform) (request : RestoreRequest κ) (final : Disk κ) :
    Prop where
  transaction : ∀ transaction,
    transactionPath (platform.canonical request.workspace) request.id = .ok transaction →
    below final.tree transaction = absent
  journals : ∀ extension, final.journals.get ⟨request.id, extension⟩ = none

theorem Transaction.Finished.cleared (h : x.Finished d) (hopens : Opens platform request start x) :
    Cleared platform request d := by
  refine ⟨fun tx ht => ?_, fun extension => ?_⟩
  · have hp := (validateJournal_ok x.valid).1
    rw [hopens.workspace, hopens.id, ht] at hp
    rw [Except.ok.inj hp]
    exact h.gone
  rw [← hopens.id]
  cases extension with
  | json =>
    by_contra hs
    exact h.no_journal _ hs rfl
  | tmp => exact h.published
  | prepared => exact h.marked.prepared
  | committed => exact h.marked.committed
  | rolledBack => exact h.marked.rolledBack

theorem Transaction.New.outputs (h : x.New d.tree) (hopens : Opens platform request start x) :
    OutputsNew platform request d := by
  intro root hr
  rw [← mem_of_validateOutputRoots hopens.roots] at hr
  obtain ⟨e, he, rfl⟩ := List.mem_map.mp hr
  rw [← hopens.carries, ← h.roots e he, ← hopens.workspace]
  rfl

theorem Transaction.Finished.outputs (h : x.Finished d) (hopens : Opens platform request start x) :
    OutputsOld start d ∨ OutputsNew platform request d := by
  rcases h.outcome with ho | hn
  · left
    intro path
    rw [← hopens.base]
    by_cases hp : x.journal.transaction <+: path
    · obtain ⟨r, rfl⟩ := hp
      rw [base_transaction_absent]
      exact congrFun h.gone r
    · exact ho path hp
  · exact .inr (hn.outputs hopens)

theorem Settled.outcome (hready : Ready platform request start)
    (h : Settled platform request start d) :
    (OutputsOld start d ∨ OutputsNew platform request d) ∧ Cleared platform request d := by
  rcases h with ⟨hq, ht⟩ | ⟨x, ho, hf⟩
  · refine ⟨.inl fun path => by rw [hq.tree], fun tx htr => ?_, ?_⟩
    · rw [hq.tree]
      exact below_of_missing hready.closed (hready.unused tx htr)
    · intro extension
      by_cases he : extension = .tmp
      · exact ht _ he
      by_contra hs
      rw [hq.journals _ he] at hs
      exact (hready.no_journal _ hs).2 rfl
  · exact ⟨hf.outputs ho, hf.cleared ho⟩

/-- A recovery from `d` can stop in `d'`. -/
def InterruptedRecovery (manager : RestoreManager) (d d' : Disk κ) : Prop :=
  (device manager.platform).Stops manager.recover.run d d'

theorem stopped_of_restore {stop : Disk κ} (hready : Ready manager.platform request d)
    (hstop : (device manager.platform).Stops (manager.restoreWithCallbacks request).run
      d stop) : Stopped manager.platform request d stop :=
  wpe_stops (wpe_restoreWithCallbacks hready) hstop

theorem stopped_of_recoveries {stop : Disk κ} (hready : Ready manager.platform request start)
    (h : Stopped manager.platform request start d)
    (hre : Relation.ReflTransGen (InterruptedRecovery manager) d stop) :
    Stopped manager.platform request start stop := by
  induction hre with
  | refl => exact h
  | tail _ hs ih => exact wpe_stops (wpe_recover_of_stopped hready ih) hs

theorem recover_settles (hready : Ready manager.platform request start)
    (h : Stopped manager.platform request start d) :
    ∃ count final, (device manager.platform).run manager.recover.run d =
      (.ok count, final) ∧ Settled manager.platform request start final :=
  exists_of_wpe (wpe_recover_of_stopped hready h)

/-- A restore stopped anywhere, followed by any number of stopped recoveries
and one complete recovery, leaves all outputs old or all outputs new. -/
theorem restore_crash_atomic (manager : RestoreManager) (request : RestoreRequest κ)
    (start stop last : Disk κ) (hready : Ready manager.platform request start)
    (hstop : (device manager.platform).Stops (manager.restoreWithCallbacks request).run
      start stop) (hrecoveries : Relation.ReflTransGen (InterruptedRecovery manager) stop last) :
    ∃ count final, (device manager.platform).run manager.recover.run last = (.ok count, final) ∧
      (OutputsOld start final ∨ OutputsNew manager.platform request final) ∧
      Cleared manager.platform request final := by
  have hlast := stopped_of_recoveries hready (stopped_of_restore hready hstop) hrecoveries
  obtain ⟨count, final, hrun, hsettled⟩ := recover_settles hready hlast
  exact ⟨count, final, hrun, hsettled.outcome hready⟩

/-! ## A restore of two roots -/

def sampleManager : RestoreManager where
  platform :=
    { canonical := id
      canonical_canonical := fun _ => rfl
      encodedSize := fun _ => 0
      decodeError := fun _ => "" }
  stateRoot := ["state"]

def sampleOut : RelativePath := ⟨"out", by decide +kernel⟩

def sampleReport : RelativePath := ⟨"dist/report", by decide +kernel⟩

/-- One root replaces a file, the other one is new and has a missing parent. -/
def sampleRequest : RestoreRequest Bool where
  descriptor := .ok ()
  workspace := ["work"]
  outputRoots := [sampleOut, sampleReport]
  bundle :=
    { entries := [(sampleReport, .leaf true), (sampleOut, .leaf true)]
      verdict := .ok () }
  outputsMatch := .ok false
  validate := fun _ => .ok ()
  cancelled := fun _ => false
  id := "r1"

def sampleDisk : Disk Bool where
  tree := [([], .dir), (["work"], .dir), (["work", "out"], .leaf false)]
  journals := ⟨[], by simp⟩

theorem sample_ready : Ready sampleManager.platform sampleRequest sampleDisk where
  closed := by
    intro p hp hs
    have hm : p = [] ∨ p = ["work"] ∨ p = ["work", "out"] := by
      by_contra hn
      push Not at hn
      obtain ⟨-, hw, ho⟩ := hn
      exact hs (by simp [sampleDisk, hp, hw, ho, FileTree.get])
    rcases hm with rfl | rfl | rfl
    · exact absurd rfl hp
    · rfl
    · rfl
  workspace := rfl
  unused := by
    intro tx ht
    rw [(transactionPath_ok ht).2]
    decide +kernel
  no_journal := fun f hf => absurd rfl hf

theorem restore_crash_atomic_sample : ∃ count final,
      (device sampleManager.platform).run sampleManager.recover.run
        ((device sampleManager.platform).after 30
          (sampleManager.restoreWithCallbacks sampleRequest).run sampleDisk) =
        (.ok count, final) ∧
      (OutputsOld sampleDisk final ∨ OutputsNew sampleManager.platform sampleRequest final) ∧
      Cleared sampleManager.platform sampleRequest final :=
  restore_crash_atomic sampleManager sampleRequest sampleDisk _ _ sample_ready
    (Stops.after 30 _ _) .refl

end Octa.Restore
