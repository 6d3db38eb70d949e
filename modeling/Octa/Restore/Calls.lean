import Octa.Restore.Manager

/-!
# One rule for each helper of the restore code

Every rule reduces the transformer of a helper to the state it leaves.
-/

namespace Octa.Restore

open FileTree Crash Device Octa.Cache RestoreManager Disk
open List hiding get

variable {κ : Type} {platform : Platform} {mgr : RestoreManager}
variable {E : CacheError → Disk κ → Prop} {C : Disk κ → Prop} {d : Disk κ}
variable {operation : String} {path : FsPath} {Q : Unit → Disk κ → Prop} {file : JournalFile}

theorem wpe_call {request : FsCall κ} {Q : Except ErrorKind request.Value → Disk κ → Prop}
    {rep : Except ErrorKind request.Value} {d' : Disk κ}
    (hexec : exec platform request d = (rep, d')) (hC : C d)
    (htorn : ∀ d₁, Disk.Torn request d d₁ → C d₁) (hC' : C d') (hQ : Q rep d') :
    (device platform).wpe (call request) Q E C d := by
  have hr : (call request).run =
      Program.call request fun rep : FsCall.Reply request => .done (.ok rep) := rfl
  unfold wpe
  rw [hr]
  refine ⟨hC, htorn, ?_⟩
  have hd : (device platform).exec request d = (rep, d') := hexec
  rw [hd]
  exact ⟨hC', hQ⟩

theorem wpe_io {request : FsCall κ} {Q : request.Value → Disk κ → Prop} {val : request.Value}
    {d' : Disk κ} (hexec : exec platform request d = (.ok val, d')) (hC : C d)
    (htorn : ∀ d₁, Disk.Torn request d d₁ → C d₁) (hC' : C d') (hQ : Q val d') :
    (device platform).wpe (io operation path request) Q E C d :=
  wpe_bind (wpe_call hexec hC htorn hC' (wpe_pure hC' hQ))

theorem wpe_liftResult {α : Type} {Q : α → Disk κ → Prop} {result : CacheResult α} (hC : C d)
    (hok : ∀ val, result = .ok val → Q val d) (her : ∀ error, result = .error error → E error d) :
    (device platform).wpe (liftResult result) Q E C d := by
  cases result with
  | ok val => exact wpe_pure hC (hok val rfl)
  | error error => exact wpe_throw hC (her error rfl)

theorem wpe_checkCancelled {request : RestoreRequest κ} {checkpoint : Checkpoint} (hC : C d)
    (hQ : Q () d) (hE : E .cancelled d) :
    (device platform).wpe (checkCancelled request checkpoint) Q E C d := by
  unfold checkCancelled
  split
  · exact wpe_throw hC hE
  · exact wpe_pure hC hQ

/-! ## Calls without effect -/

theorem wpe_syncDirectory (hC : C d) (hQ : Q () d) :
    (device platform).wpe (syncDirectory path) Q E C d :=
  wpe_io rfl hC (by rintro _ ⟨⟩) hC hQ

theorem wpe_syncJournalRoot (hC : C d) (hQ : Q () d) :
    (device platform).wpe mgr.syncJournalRoot Q E C d :=
  wpe_io rfl hC (by rintro _ ⟨⟩) hC hQ

theorem wpe_syncParent (hpath : path ≠ []) (hC : C d) (hQ : Q () d) :
    (device platform).wpe (syncParent path) Q E C d := by
  rw [syncParent, if_neg hpath]
  exact wpe_syncDirectory hC hQ

variable {dest src reported : FsPath}

theorem wpe_syncRenameParents (hsrc : src ≠ [])
    (hde : dest ≠ []) (hC : C d) (hQ : Q () d) :
    (device platform).wpe (syncRenameParents src dest) Q E C d := by
  refine wpe_bind (wpe_syncParent hsrc hC ?_)
  split
  · exact wpe_syncParent hde hC hQ
  · exact wpe_pure hC hQ

theorem wpe_syncTreeDirectories {root : FsPath} (hC : C d) (hQ : Q () d) :
    (device platform).wpe (syncTreeDirectories root) Q E C d := by
  refine wpe_bind (wpe_io rfl hC (by rintro _ ⟨⟩) hC ?_)
  refine wpe_mono (wpe_forM (fun _ s => s = d) ?_ ?_ rfl) ?_ (fun _ _ h => h) (fun _ h => h)
  · rintro _ s rfl
    exact hC
  · rintro path _ s rfl
    exact wpe_syncDirectory hC rfl
  · rintro ⟨⟩ s rfl
    exact hQ

theorem wpe_pathExists {Q : Bool → Disk κ → Prop} (hC : C d) (hQ : Q (get d.tree path).isSome d) :
    (device platform).wpe (pathExists path) Q E C d := by
  refine wpe_bind (wpe_call rfl hC (by rintro _ ⟨⟩) hC ?_)
  cases hg : get d.tree path with
  | none | some node =>
    rw [hg] at hQ
    exact wpe_pure hC hQ

theorem wpe_ifExists {α : Type} {Q : α → Disk κ → Prop} {pres missing : CacheM κ α} (hC : C d)
    (hpres : get d.tree path ≠ none → (device platform).wpe pres Q E C d)
    (hmiss : get d.tree path = none → (device platform).wpe missing Q E C d) :
    (device platform).wpe (do if ← pathExists path then pres else missing) Q E C d := by
  refine wpe_bind (wpe_pathExists hC ?_)
  cases hg : get d.tree path with
  | none => exact hmiss hg
  | some node => exact hpres (by simp [hg])

/-! ## Calls on the tree -/

theorem wpe_renameDurably {tree : Tree String κ}
    (hsrc : src ≠ []) (hde : dest ≠ []) (h : rename d.tree src dest = .ok tree)
    (hC : C d) (hC' : C { d with tree }) (hQ : Q () { d with tree }) :
    (device platform).wpe (renameDurably operation reported src dest) Q E C d := by
  have he : exec platform (.rename src dest) d = (.ok (), { d with tree }) := by
    change d.update (rename d.tree src dest) = _
    rw [h]
    rfl
  refine wpe_bind (wpe_io he hC (by rintro _ ⟨⟩) hC' ?_)
  exact wpe_syncRenameParents hsrc hde hC' hQ

theorem wpe_createParent (hpath : path ≠ [])
    (hdirs : ∀ q, q <+: path.dropLast → get d.tree q = some .dir ∨ get d.tree q = none) (hC : C d)
    (hC' : ∀ part tree, part <+: path.dropLast →
      (∀ q, get tree q = if q <+: part then some .dir else get d.tree q) → C { d with tree })
    (hQ : ∀ tree, (∀ q, get tree q = if q <+: path.dropLast then some .dir else get d.tree q) →
      Q () { d with tree }) : (device platform).wpe (createParent path) Q E C d := by
  have hs : ∀ part, part <+: path.dropLast → ∃ tree, createDirAll d.tree part = .ok tree ∧
      ∀ q, get tree q = if q <+: part then some .dir else get d.tree q :=
    fun part hp => createDirAll_spec fun q hq => hdirs q (hq.trans hp)
  obtain ⟨tree, ht, hg⟩ := hs path.dropLast (prefix_refl _)
  have he : exec platform (.createDirAll path.dropLast) d = (.ok (), { d with tree }) := by
    change d.update (createDirAll d.tree path.dropLast) = _
    rw [ht]
    rfl
  rw [createParent, if_neg hpath]
  refine wpe_io he hC ?_ (hC' _ tree (prefix_refl _) hg) (hQ tree hg)
  intro d₁ hd₁
  cases hd₁ with
  | @createDirAll _ part _ torn hp hc =>
    obtain ⟨tree', ht', hg'⟩ := hs part hp
    rw [hc, Except.ok.injEq] at ht'
    subst ht'
    exact hC' part _ hp hg'

theorem wpe_createParent_of_dirs (hpath : path ≠ [])
    (hdirs : ∀ q, q <+: path.dropLast → get d.tree q = some .dir) (hC : C d) (hQ : Q () d) :
    (device platform).wpe (createParent path) Q E C d := by
  have ha : ∀ part, part <+: path.dropLast → createDirAll d.tree part = .ok d.tree :=
    fun part hp => createDirAll_of_dirs fun q hq => hdirs q (hq.trans hp)
  have he : exec platform (.createDirAll path.dropLast) d = (.ok (), d) := by
    change d.update (createDirAll d.tree path.dropLast) = _
    rw [ha _ (prefix_refl _)]
    rfl
  rw [createParent, if_neg hpath]
  refine wpe_io he hC ?_ hC hQ
  intro d₁ hd₁
  cases hd₁ with
  | createDirAll hp hc =>
    rw [ha _ hp, Except.ok.injEq] at hc
    subst hc
    exact hC

theorem wpe_createDir (hfree : get d.tree path = none) (hpar : get d.tree path.dropLast = some .dir)
    (hC : C d) (hC' : C { d with tree := (path, .dir) :: d.tree })
    (hQ : Q () { d with tree := (path, .dir) :: d.tree }) :
    (device platform).wpe (io operation reported (.createDir path)) Q E C d := by
  have he : exec platform (.createDir path) d =
      (.ok (), { d with tree := (path, .dir) :: d.tree }) := by
    change d.update (createDir d.tree path) = _
    rw [createDir_eq_ok hfree hpar]
    rfl
  exact wpe_io he hC (by rintro _ ⟨⟩) hC' hQ

theorem wpe_removeTransaction (hdir : get d.tree path = some .dir ∨ below d.tree path = absent)
    (hC : C d) (hC' : ∀ tree, (∀ q, get tree q = get d.tree q ∨
      path <+: q ∧ q ≠ path ∧ get tree q = none) → C { d with tree })
    (hend : ∀ tree, (∀ q, ¬path <+: q → get tree q = get d.tree q) →
      below tree path = absent → C { d with tree } ∧ Q () { d with tree }) :
    (device platform).wpe (removeTransaction operation path) Q E C d := by
  have ht : ∀ d₁, Disk.Torn (.removeDirAll path) d d₁ → C d₁ := by
    intro d₁ hd₁
    cases hd₁ with
    | removeDirAll hg => exact hC' _ hg
  rcases hdir with hdir | ha
  · have he : exec platform (.removeDirAll path) d =
        (.ok (), { d with tree := eraseBelow d.tree path }) := by
      change d.update (removeDirAll d.tree path) = _
      rw [removeDirAll, hdir]
      rfl
    have hgo : below (eraseBelow d.tree path) path = absent := by
      funext r
      rw [below, get_eraseBelow, if_pos (prefix_append path r), absent]
    have hr : ∀ q, ¬path <+: q → get (eraseBelow d.tree path) q = get d.tree q := by
      intro q hq
      rw [get_eraseBelow, if_neg hq]
    obtain ⟨hC₁, hQ⟩ := hend _ hr hgo
    exact wpe_bind (wpe_call he hC ht hC₁ (wpe_syncDirectory hC₁ hQ))
  · have hn : get d.tree path = none := by
      have := congrFun ha []
      simpa [below, absent] using this
    have he : exec platform (.removeDirAll path) d = (.error .notFound, d) := by
      change d.update (removeDirAll d.tree path) = _
      rw [removeDirAll, hn]
      rfl
    obtain ⟨hC₁, hQ⟩ := hend d.tree (fun _ _ => rfl) ha
    exact wpe_bind (wpe_call he hC ht hC (wpe_pure hC₁ hQ))

/-! ## Calls on the journal directory -/

theorem wpe_removeFileIfPresent (hC : C d) (h : ∀ journals : JournalDir,
      (∀ g, journals.get g = if g = file then none else d.journals.get g) →
      C { d with journals } ∧ Q () { d with journals }) :
    (device platform).wpe (mgr.removeFileIfPresent file) Q E C d := by
  cases hge : d.journals.get file with
  | none =>
    have he : exec platform (.journalRemove file) d = (.error .notFound, d) := by
      change d.updateJournals (d.journals.removeFile file) = _
      rw [JournalDir.removeFile, hge]
      rfl
    have hs : ∀ g, d.journals.get g = if g = file then none else d.journals.get g := by
      intro g
      by_cases hg : g = file <;> simp [hg, hge]
    obtain ⟨-, hQ⟩ := h d.journals hs
    exact wpe_bind (wpe_call he hC (by rintro _ ⟨⟩) hC (wpe_pure hC hQ))
  | some cnt =>
    have he : exec platform (.journalRemove file) d =
        (.ok (), { d with journals := d.journals.remove file }) := by
      change d.updateJournals (d.journals.removeFile file) = _
      rw [JournalDir.removeFile, hge]
      rfl
    obtain ⟨hC', hQ⟩ := h _ (d.journals.get_remove file)
    exact wpe_bind (wpe_call he hC (by rintro _ ⟨⟩) hC' (wpe_pure hC' hQ))

theorem exec_journalCreateNew (hnone : d.journals.get file = none) :
    exec platform (.journalCreateNew file) d =
      (.ok (), { d with journals := d.journals.set file .empty }) := by
  change d.updateJournals (d.journals.createNew file) = _
  rw [JournalDir.createNew, hnone]
  rfl

theorem wpe_writeMarker {mk : JournalFile}
    (hnone : d.journals.get mk = none) (hC : C d) (h : ∀ journals : JournalDir,
      (∀ g, journals.get g = if g = mk then some .empty else d.journals.get g) →
      C { d with journals } ∧ Q () { d with journals }) :
    (device platform).wpe (mgr.writeMarker mk) Q E C d := by
  obtain ⟨hC', hQ⟩ := h _ fun g => d.journals.get_set mk g .empty
  refine wpe_bind (wpe_io (exec_journalCreateNew hnone) hC (by rintro _ ⟨⟩) hC' ?_)
  refine wpe_bind (wpe_io rfl hC' (by rintro _ ⟨⟩) hC' ?_)
  exact wpe_syncJournalRoot hC' hQ

theorem wpe_markerExists {Q : Bool → Disk κ → Prop} {mk : JournalFile} {pres : Bool}
    (hget : d.journals.get mk = if pres then some .empty else none) (hC : C d)
    (hQ : Q pres d) : (device platform).wpe (mgr.markerExists mk) Q E C d := by
  refine wpe_bind (wpe_call rfl hC (by rintro _ ⟨⟩) hC ?_)
  cases pres with
  | false | true =>
    rw [hget]
    exact wpe_pure hC hQ

theorem wpe_readJournal {Q : RestoreJournal → Disk κ → Prop} {jr : RestoreJournal}
    (hget : d.journals.get file = some (.intent jr))
    (hsize : platform.encodedSize jr ≤ maxJournalBytes) (hv : validateJournal jr = .ok ())
    (hstem : file.stem = jr.id) (hC : C d) (hQ : Q jr d) :
    (device platform).wpe (mgr.readJournal file) Q E C d := by
  have hm : exec platform (.journalMetadata file) d = (.ok (platform.encodedSize jr), d) := by
    change (found ((d.journals.get file).map platform.length), d) = _
    rw [hget]
    rfl
  have hr : exec platform (.journalRead file) d = (.ok (.intent jr), d) := by
    change (found (d.journals.get file), d) = _
    rw [hget]
    rfl
  refine wpe_bind (wpe_io hm hC (by rintro _ ⟨⟩) hC ?_)
  rw [if_neg (by omega)]
  refine wpe_bind (wpe_io hr hC (by rintro _ ⟨⟩) hC ?_)
  refine wpe_bind (wpe_pure hC ?_)
  refine wpe_bind (wpe_liftResult hC (fun _ _ => ?_) fun error he => ?_)
  · rw [if_neg (not_not.mpr hstem)]
    exact wpe_pure hC hQ
  · rw [hv] at he
    exact absurd he (by simp)

theorem wpe_cleanupTemporaryJournals
    (hC : ∀ journals : JournalDir, (∀ g, journals.get g = d.journals.get g ∨
      g.extension = .tmp ∧ journals.get g = none) → C { d with journals })
    (hQ : ∀ journals : JournalDir, (∀ g, journals.get g = d.journals.get g ∨
      g.extension = .tmp ∧ journals.get g = none) →
      (∀ g, g.extension = .tmp → journals.get g = none) → Q () { d with journals }) :
    (device platform).wpe mgr.cleanupTemporaryJournals Q E C d := by
  have hCd : C d := hC d.journals fun _ => .inl rfl
  refine wpe_bind (wpe_io rfl hCd (by rintro _ ⟨⟩) hCd ?_)
  -- the files that are still to be removed are the only temporary ones left
  refine wpe_mono (wpe_forM (fun rest s => s.tree = d.tree ∧
      (∀ g, s.journals.get g = d.journals.get g ∨ g.extension = .tmp ∧ s.journals.get g = none) ∧
      (∀ f ∈ rest, f.extension = .tmp) ∧
      ∀ g, g.extension = .tmp → g ∉ rest → s.journals.get g = none) ?_ ?_ ?_) ?_
    (fun _ _ h => h) (fun _ h => h)
  · rintro rest ⟨tree, journals⟩ ⟨rfl, hs, -⟩
    exact hC journals hs
  · rintro file rest ⟨tree, journals⟩ ⟨rfl, hs, ht, hgo⟩
    have hfi : file.extension = .tmp := ht file mem_cons_self
    refine wpe_removeFileIfPresent (hC journals hs) fun js' hge => ?_
    have hs' : ∀ g, js'.get g = d.journals.get g ∨ g.extension = .tmp ∧ js'.get g = none := by
      intro g
      by_cases hg : g = file
      · right
        rw [hge, if_pos hg, hg]
        exact ⟨hfi, rfl⟩
      · rw [hge, if_neg hg]
        exact hs g
    refine ⟨hC js' hs', rfl, hs', fun f hf => ht f (mem_cons_of_mem _ hf), ?_⟩
    intro g hg hr
    rw [hge]
    split
    · rfl
    · rename_i hne
      exact hgo g hg (by simp [hne, hr])
  · refine ⟨rfl, fun _ => .inl rfl, fun f hf => by simpa using (mem_filter.mp hf).2, ?_⟩
    intro g hg hn
    by_contra hso
    exact hn (mem_filter.mpr ⟨(d.journals.mem_names_iff g).mpr hso, by simpa using hg⟩)
  · rintro ⟨⟩ ⟨tree, journals⟩ ⟨rfl, hs, -, hgo⟩
    exact hQ journals hs fun g hg => hgo g hg (by simp)

theorem wpe_journalFiles {Q : List JournalFile → Disk κ → Prop} (file : JournalFile)
    (hjson : file.extension = .json)
    (honly : ∀ g, d.journals.get g ≠ none → g.extension = .json → g = file) (hC : C d)
    (hQ : Q (if d.journals.get file = none then [] else [file]) d) :
    (device platform).wpe mgr.journalFiles Q E C d := by
  have hl : d.journals.names.filter (fun f => decide (f.extension = .json)) =
      if d.journals.get file = none then [] else [file] := by
    have hm : ∀ g, g ∈ d.journals.names.filter (fun f => decide (f.extension = .json)) ↔
        d.journals.get g ≠ none ∧ g.extension = .json := by
      intro g
      rw [mem_filter, JournalDir.mem_names_iff, decide_eq_true_eq]
    have hno := d.journals.nodup.filter (fun f => decide (f.extension = .json))
    split
    · rename_i hn
      rw [eq_nil_iff_forall_not_mem]
      intro g hg
      obtain ⟨hs, he⟩ := (hm g).mp hg
      rw [honly g hs he] at hs
      exact hs hn
    rename_i hs
    refine (perm_singleton.mp ((perm_ext_iff_of_nodup hno (nodup_singleton file)).mpr fun g => ?_))
    rw [mem_singleton]
    constructor
    · intro hg
      obtain ⟨h₁, h₂⟩ := (hm g).mp hg
      exact honly g h₁ h₂
    · rintro rfl
      exact (hm g).mpr ⟨hs, hjson⟩
  refine wpe_bind (wpe_io rfl hC (by rintro _ ⟨⟩) hC ?_)
  rw [hl]
  by_cases hn : d.journals.get file = none
  · rw [if_pos hn] at hQ ⊢
    exact wpe_pure hC (by simpa using hQ)
  · rw [if_neg hn] at hQ ⊢
    exact wpe_pure hC (by simpa using hQ)

end Octa.Restore
