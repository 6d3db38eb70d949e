import Octa.Restore.CrashAtomicity

/-!
# A failing call during the mutation

One call of the mutation reports an error, its own effect having happened or
not, and the restore rolls back.  The rollback decides by the error alone and
does not look at the markers.
-/

namespace Octa.Restore

open FileTree Crash Device Octa.Cache RestoreManager List Disk

variable {κ : Type} {request : RestoreRequest κ} {manager : RestoreManager} {d s : Disk κ}
variable {kinds : FsCall κ → ErrorKind} {failing : FsCall κ} {applied : Bool}

def refusal (kinds : FsCall κ → ErrorKind) (request : FsCall κ) : request.Reply :=
  .error (kinds request)

/-- The failure of this call leaves the commit marker on the disk. -/
def leavesCommitMarker (id : String) : FsCall κ → Bool → Bool
  | .journalCreateNew file, applied => decide (file = commitMarker id) && applied
  | .journalSync file, _ => decide (file = commitMarker id)
  | .journalSyncDirectory, _ => true
  | _, _ => false

def Unmarked (id : String) (request : FsCall κ) : Prop :=
  ∀ applied, leavesCommitMarker id request applied = false

namespace Transaction

variable {x : Transaction κ}

/-! ## Strict parts of the mutation -/

variable {op id : String} {path : FsPath}

theorem strict_io {P : FsCall κ → Prop} {request : FsCall κ} (h : P request) :
    Strict (refusal kinds) P (io op path request).run := by
  refine ⟨h, ⟨.io op path (kinds request), rfl⟩, fun rep => ?_⟩
  cases rep with
  | ok val | error kind => exact trivial

theorem strict_syncParent (id : String) :
    Strict (refusal kinds) (Unmarked id) (syncParent path : CacheM κ Unit).run := by
  unfold syncParent
  split
  · exact trivial
  · exact strict_io fun _ => rfl

theorem strict_createParent :
    Strict (refusal kinds) (Unmarked id) (createParent path : CacheM κ Unit).run := by
  unfold createParent
  split
  · exact trivial
  · exact strict_io fun _ => rfl

theorem strict_renameDurably {reported source destination : FsPath} :
    Strict (refusal kinds) (Unmarked id)
      (renameDurably op reported source destination : CacheM κ Unit).run := by
  refine Strict.bind (strict_io fun _ => rfl) fun _ => ?_
  refine Strict.bind (strict_syncParent id) fun _ => ?_
  split
  · exact strict_syncParent id
  · exact trivial

theorem strict_installStaged {journal : RestoreJournal} {e : JournalRoot} :
    Strict (refusal kinds) (Unmarked id) (do
      createParent (journal.live e)
      renameDurably "install staged cache output" (journal.live e)
        (journal.staged e) (journal.live e) : CacheM κ Unit).run :=
  Strict.bind strict_createParent fun _ => strict_renameDurably

theorem strict_installRoot {journal : RestoreJournal} {e : JournalRoot} :
    Strict (refusal kinds) (Unmarked id) (installRoot request journal e).run := by
  have hc : Strict (refusal kinds) (Unmarked id) (checkCancelled request (.root e.path)).run := by
    unfold checkCancelled
    split <;> exact trivial
  refine Strict.bind hc fun _ => ?_
  cases e.hadOriginal with
  | false => exact strict_installStaged
  | true =>
    refine Strict.bind strict_createParent fun _ => ?_
    exact Strict.bind strict_renameDurably fun _ => strict_installStaged

/-! ## Failures while the parents are created -/

variable {res : Except CacheError Unit}

theorem faulted_createLiveParent (id : String) {c : RelativePath} (hcalm : x.Calm d d)
    (hc : c ∈ x.journal.createdParents)
    (h : (device x.platform).Faulted (refusal kinds) failing applied
      (createLiveParent x.journal.workspace c).run d res s) :
    Unmarked id failing ∧ x.Calm d s := by
  have hs := (wp_iff.mp (wpe_createLiveParent hcalm hc)).2
  cases h with
  | here hr =>
    refine ⟨fun _ => rfl, ?_⟩
    have hsta : s = if applied then ((device x.platform).exec
        (.createDir (joinRelative x.journal.workspace c)) d).2 else d := by
      simp only [refusal] at hr
      generalize kinds (.createDir (joinRelative x.journal.workspace c)) = kind at hr
      cases kind <;> exact (Prod.mk.inj hr).2.symm
    rw [hsta]
    cases applied with
    | false => exact hs _ (.here _ _)
    | true => exact hs _ (.later (.here _ _))
  | later hl =>
    generalize hre : (device x.platform).exec
      (.createDir (joinRelative x.journal.workspace c)) d = rep at hl
    obtain ⟨rep, d₁⟩ := rep
    cases rep with
    | ok val =>
      obtain ⟨hca, -, hsto⟩ := Faulted.of_strict (strict_syncParent id) hl
      refine ⟨hca, hs _ (.later ?_)⟩
      rw [hre]
      exact hsto
    | error kind => cases kind <;> cases hl

theorem faulted_createLiveParents (id : String) {parents : List RelativePath} (hcalm : x.Calm d d)
    (hpa : ∀ c ∈ parents, c ∈ x.journal.createdParents)
    (h : (device x.platform).Faulted (refusal kinds) failing applied
      (createLiveParents x.journal.workspace parents).run d res s) :
    Unmarked id failing ∧ x.Calm d s := by
  induction parents generalizing d with
  | nil => cases h
  | cons c rest ih =>
    have hc := hpa c mem_cons_self
    have hre : ∀ c ∈ rest, c ∈ x.journal.createdParents := fun c hc => hpa c (mem_cons_of_mem _ hc)
    rw [createLiveParents, forM_cons] at h
    rcases h.of_bind_except with ⟨e, hf, -⟩ | ⟨_, s₁, hf, hr⟩ | ⟨_, s₁, hr, hl⟩
    · exact faulted_createLiveParent id hcalm hc hf
    · obtain ⟨hca, hs₁⟩ := faulted_createLiveParent id hcalm hc hf
      have he := wpe_stops (wpe_createLiveParents hs₁.self hre) (Stops.run _ _)
      rw [createLiveParents, hr] at he
      exact ⟨hca, hs₁.trans he⟩
    have hs₁ := wpe_ok (wpe_createLiveParent hcalm hc) hr
    obtain ⟨hca, hs⟩ := ih hs₁.self hre hl
    exact ⟨hca, hs₁.trans hs⟩

/-! ## Failures while the marker is written -/

theorem state_of_io {request : FsCall κ} {val val' : request.Value} {s' : Disk κ}
    (hexec : exec x.platform request d = (.ok val, s))
    (hrun : (device x.platform).run (io op path request).run d = (.ok val', s')) : s' = s := by
  have hr : (device x.platform).wpe (io op path request) (fun _ s' => s' = s)
      (fun _ _ => True) (fun _ => True) d :=
    wpe_io hexec trivial (fun _ _ => trivial) trivial rfl
  have hs := wpe_ok hr hrun
  exact hs

theorem faulted_io {request : FsCall κ} {res : Except CacheError request.Value}
    (h : (device x.platform).Faulted (refusal kinds) failing applied
      (io op path request).run d res s) : failing = request ∧ (∃ e, res = .error e) ∧
      s = if applied then (exec x.platform request d).2 else d := by
  cases h with
  | here hr =>
    obtain ⟨hre, hs⟩ := Prod.mk.inj hr
    exact ⟨rfl, ⟨_, hre.symm⟩, hs.symm⟩
  | later hl =>
    generalize ((device x.platform).exec request d).1 = reply at hl
    cases reply <;> cases hl

theorem faulted_writeCommitMarker (h : x.Pending d true false false)
    (hinst : ∀ e ∈ x.journal.roots, x.Installed d.tree e)
    (hfa : (device x.platform).Faulted (refusal kinds) failing applied
      (manager.writeCommitMarker x.journal.id).run d res s) :
    if leavesCommitMarker x.journal.id failing applied then
      x.Unsettled s.tree ∧ x.Pending s true true false
    else x.Pending s true false false := by
  have hex : exec x.platform (.journalCreateNew (commitMarker x.journal.id)) d =
      (.ok (), { d with journals := d.journals.set (commitMarker x.journal.id) .empty }) :=
    exec_journalCreateNew h.marked.committed
  have hc : x.Unsettled d.tree ∧
      x.Pending { d with journals := d.journals.set (commitMarker x.journal.id) .empty }
        true true false :=
    ⟨h.consistent, h.commit hinst fun g => d.journals.get_set _ g _⟩
  rcases hfa.of_bind_except with ⟨e, hf, -⟩ | ⟨_, s₁, hf, -⟩ | ⟨_, s₁, hr, hl⟩
  · obtain ⟨rfl, -, rfl⟩ := faulted_io hf
    rw [hex]
    cases applied with
    | false => simpa [leavesCommitMarker] using h
    | true => simpa [leavesCommitMarker] using hc
  · obtain ⟨-, ⟨e, he⟩, -⟩ := faulted_io hf
    simp at he
  obtain rfl := state_of_io hex hr
  have hm : s = { d with journals := d.journals.set (commitMarker x.journal.id) .empty } ∧
      leavesCommitMarker x.journal.id failing applied = true := by
    rcases hl.of_bind_except with
      ⟨e, hs, -⟩ | ⟨_, s₂, hs, -⟩ | ⟨_, s₂, hr, hd⟩
    · obtain ⟨rfl, -, rfl⟩ := faulted_io hs
      exact ⟨ite_self _, by simp [leavesCommitMarker]⟩
    · obtain ⟨-, ⟨e, he⟩, -⟩ := faulted_io hs
      simp at he
    obtain rfl := state_of_io rfl hr
    obtain ⟨rfl, -, rfl⟩ := faulted_io hd
    exact ⟨ite_self _, rfl⟩
  rw [hm.1, hm.2]
  exact hc

theorem faulted_mutation {error : CacheError} (h : x.Prepared d)
    (hfa : (device x.platform).Faulted (refusal kinds) failing applied
      (manager.mutation request x.journal).run d (.error error) s) :
    if leavesCommitMarker x.journal.id failing applied then
      x.Unsettled s.tree ∧ x.Pending s true true false
    else x.Pending s true false false := by
  have ha : ∀ c ∈ x.journal.createdParents, c ∈ x.journal.createdParents := fun _ hc => hc
  rcases hfa.of_bind_except with ⟨e, hf, -⟩ | ⟨_, s₁, hf, hr⟩ | ⟨_, s₁, hr, hl⟩
  · obtain ⟨hca, hs⟩ := faulted_createLiveParents x.journal.id h.calm ha hf
    rw [hca applied]
    exact (h.of_calm hs).pending
  · obtain ⟨hca, hs₁⟩ := faulted_createLiveParents x.journal.id h.calm ha hf
    have hs := wpe_error (wpe_installAndCommit (h.of_calm hs₁)) hr
    rw [hca applied]
    exact hs
  have hs₁ := wpe_ok (wpe_createLiveParents h.calm ha) hr
  have h₁ := h.of_calm hs₁
  have hst : Strict (refusal kinds) (Unmarked x.journal.id)
      (forM x.journal.roots (installRoot request x.journal) : CacheM κ Unit).run :=
    Strict.forM fun _ _ => strict_installRoot
  rcases hl.of_bind_except with
    ⟨e, hi, -⟩ | ⟨_, s₂, hi, -⟩ | ⟨_, s₂, hi, hm⟩
  · obtain ⟨hca, -, hsto⟩ := hi.of_strict hst
    have hs := wpe_stops (wpe_installOutputs h₁) hsto
    rw [hca applied]
    exact hs
  · obtain ⟨-, ⟨e, he⟩, -⟩ := hi.of_strict hst
    simp at he
  · obtain ⟨h₂, hins⟩ := wpe_ok (wpe_installOutputs h₁) hi
    exact faulted_writeCommitMarker h₂ hins hm

/-! ## The rollback of a committed transaction -/

/-- A rollback that starts with the commit marker on the disk passes through a
state with both terminal markers. -/
theorem rollback_conflict (manager : RestoreManager) (hun : x.Unsettled d.tree)
    (h : x.Pending d true true false) :
    ∃ stop, (device x.platform).Stops (manager.rollback x.journal.id x.journal).run d stop ∧
      stop.journals.get (commitMarker x.journal.id) ≠ none ∧
      stop.journals.get (rolledBackMarker x.journal.id) ≠ none := by
  have hr : (device x.platform).wpe
      (forM x.journal.roots.reverse (rollbackRoot x.journal)) _ (fun _ _ => False)
      (fun _ => True) d := wpe_rollbackRoots hun fun _ _ => trivial
  obtain ⟨_, s₁, hr₁, tree₁, rfl, hu₁, hs⟩ := exists_of_wpe hr
  have hp : (device x.platform).wpe
      (forM x.journal.createdParents.reverse (removeCreatedParent x.journal)) _
      (fun _ _ => False) (fun _ => True) { d with tree := tree₁ } :=
    wpe_removeCreatedParents hu₁ hs fun _ _ => trivial
  obtain ⟨_, s₂, hr₂, tree₂, rfl, -⟩ := exists_of_wpe hp
  have hn : d.journals.get (rolledBackMarker x.journal.id) = none := h.marked.rolledBack
  have hm : (device x.platform).wpe (manager.writeRolledBackMarker x.journal.id)
      (fun _ s => s.journals.get (commitMarker x.journal.id) ≠ none ∧
        s.journals.get (rolledBackMarker x.journal.id) ≠ none)
      (fun _ _ => False) (fun _ => True) { d with tree := tree₂ } := by
    refine wpe_writeMarker hn trivial fun js hg => ⟨trivial, ?_, ?_⟩
    · rw [hg, if_neg (by simp [commitMarker, rolledBackMarker])]
      simp [h.marked.committed]
    · rw [hg, if_pos rfl]
      simp
  obtain ⟨_, stop, hr₃, hb⟩ := exists_of_wpe hm
  refine ⟨stop, ?_, hb⟩
  exact .bind_ok hr₁ (.bind_ok hr₂ (.bind_ok hr₃ (.here _ _)))

end Transaction

/-! ## Rollback after a failing call -/

/-- Whatever interrupts the rollback that starts on `failed`, no durable state
mixes the outcomes and a complete recovery settles the outputs. -/
def KeepsOutputs (manager : RestoreManager) (request : RestoreRequest κ) (start : Disk κ)
    (journal : RestoreJournal) (failed : Disk κ) : Prop :=
  ∀ stop last,
    (device manager.platform).Stops (manager.rollback journal.id journal).run failed stop →
    Relation.ReflTransGen (InterruptedRecovery manager) stop last →
    ¬(last.journals.get (commitMarker journal.id) ≠ none ∧
      last.journals.get (rolledBackMarker journal.id) ≠ none) ∧
    (last.journals.get (commitMarker journal.id) ≠ none →
      OutputsNew manager.platform request last) ∧
    ∃ count final,
      (device manager.platform).run manager.recover.run last = (.ok count, final) ∧
      (OutputsOld start final ∨ OutputsNew manager.platform request final)

variable {start prepared failed : Disk κ} {journal : RestoreJournal}

theorem prepared_of_run (hready : Ready manager.platform request start)
    (hrun : (device manager.platform).run (manager.restoreUntilPrepared request).run start =
      (.ok (.inr journal), prepared)) :
    ∃ x, Opens manager.platform request start x ∧ x.journal = journal ∧ x.Prepared prepared := by
  have hh := wpe_ok (wpe_restoreUntilPrepared hready) hrun
  exact hh

theorem Stopped.markers {plat : Platform} (hready : Ready plat request start)
    (h : Stopped plat request start d) : ¬(d.journals.get (commitMarker request.id) ≠ none ∧
      d.journals.get (rolledBackMarker request.id) ≠ none) ∧
    (d.journals.get (commitMarker request.id) ≠ none → OutputsNew plat request d) := by
  rcases h with hq | ⟨x, ho, hr⟩
  · have hn : d.journals.get (commitMarker request.id) = none := by
      rw [hq.journals _ (by simp [commitMarker])]
      by_contra hs
      exact (hready.no_journal _ hs).2 rfl
    exact ⟨fun hb => hb.1 hn, fun hs => absurd hn hs⟩
  rw [← ho.id]
  rcases hr with hf | ⟨p, c, r, hp⟩
  · have hn := hf.marked.committed
    exact ⟨fun hb => hb.1 hn, fun hs => absurd hn hs⟩
  have hc := hp.consistent
  rw [hp.marked.committed, hp.marked.rolledBack]
  cases c with
  | false => exact ⟨fun hb => hb.1 rfl, fun hs => absurd rfl hs⟩
  | true =>
    cases r with
    | true => cases p <;> exact hc.elim
    | false =>
      have hnw : x.New d.tree := by cases p <;> exact hc
      exact ⟨fun hb => hb.2 rfl, fun _ => hnw.outputs ho⟩

theorem keepsOutputs_of_pending {x : Transaction κ} (hready : Ready manager.platform request start)
    (hopens : Opens manager.platform request start x) (h : x.Pending failed true false false) :
    KeepsOutputs manager request start x.journal failed := by
  intro stop last hs hre
  rw [← hopens.host] at hs
  have hro : (device x.platform).wpe (manager.rollback x.journal.id x.journal)
      (fun _ s => x.Finished s) (fun _ _ => False) x.Recoverable failed :=
    Transaction.wpe_rollback h
  have hr := wpe_stops hro hs
  have hl := stopped_of_recoveries hready (.inr ⟨x, hopens, hr⟩) hre
  obtain ⟨hm, hc⟩ := hl.markers hready
  obtain ⟨count, final, hru, hse⟩ := recover_settles hready hl
  rw [hopens.id]
  exact ⟨hm, hc, count, final, hru, (hse.outcome hready).1⟩

theorem not_keepsOutputs_of_committed {x : Transaction κ}
    (hopens : Opens manager.platform request start x) (hun : x.Unsettled failed.tree)
    (h : x.Pending failed true true false) :
    ¬KeepsOutputs manager request start x.journal failed := by
  intro hk
  obtain ⟨stop, hs, hb⟩ := Transaction.rollback_conflict manager hun h
  rw [hopens.host] at hs
  exact (hk stop stop hs .refl).1 hb

/-- A rollback that a failing call starts keeps the outputs together exactly
when that call does not leave the commit marker behind. -/
theorem rollback_keeps_outputs_iff (manager : RestoreManager) (request : RestoreRequest κ)
    (start prepared failed : Disk κ) (journal : RestoreJournal) (kinds : FsCall κ → ErrorKind)
    (failing : FsCall κ) (applied : Bool) (error : CacheError)
    (hready : Ready manager.platform request start) (hprepared : (device manager.platform).run
      (manager.restoreUntilPrepared request).run start = (.ok (.inr journal), prepared))
    (hfault : (device manager.platform).Faulted (refusal kinds) failing applied
      (manager.mutation request journal).run prepared (.error error) failed) :
    KeepsOutputs manager request start journal failed ↔
      leavesCommitMarker journal.id failing applied = false := by
  obtain ⟨x, hopens, rfl, hx⟩ := prepared_of_run hready hprepared
  rw [← hopens.host] at hfault
  have hleft := Transaction.faulted_mutation hx hfault
  cases hmarker : leavesCommitMarker x.journal.id failing applied with
  | false =>
    rw [hmarker] at hleft
    exact ⟨fun _ => rfl, fun _ => keepsOutputs_of_pending hready hopens hleft⟩
  | true =>
    rw [hmarker] at hleft
    have hnot := not_keepsOutputs_of_committed hopens hleft.1 hleft.2
    exact ⟨fun hkeeps => absurd hkeeps hnot, fun hfalse => absurd hfalse (by simp)⟩

/-! ## A restore of one root -/

def soloRequest : RestoreRequest Bool :=
  { sampleRequest with
    outputRoots := [sampleOut]
    bundle := { entries := [(sampleOut, .leaf true)], verdict := .ok () } }

theorem solo_ready : Ready sampleManager.platform soloRequest sampleDisk :=
  ⟨sample_ready.closed, sample_ready.workspace, sample_ready.unused, sample_ready.no_journal⟩

/-- The call that fails when call `n` of the mutation is refused without effect. -/
def soloFault (n : ℕ) (P : RestoreJournal → FsCall Bool → Bool) : Bool :=
  match (device sampleManager.platform).run
      (sampleManager.restoreUntilPrepared soloRequest).run sampleDisk with
  | (.ok (.inr journal), prepared) =>
    match (device sampleManager.platform).faultAt (refusal fun _ => .other) false n
        (sampleManager.mutation soloRequest journal).run prepared with
    | some (failing, .error _, _) => P journal failing
    | _ => false
  | _ => false

theorem exists_soloFault {n : ℕ} {P : RestoreJournal → FsCall Bool → Bool}
    (h : soloFault n P = true) : ∃ journal prepared failing error failed,
      (device sampleManager.platform).run
        (sampleManager.restoreUntilPrepared soloRequest).run sampleDisk =
        (.ok (.inr journal), prepared) ∧
      (device sampleManager.platform).Faulted (refusal fun _ => .other) failing false
        (sampleManager.mutation soloRequest journal).run prepared (.error error) failed ∧
      P journal failing = true := by
  unfold soloFault at h
  split at h
  · rename_i journal prepared hr
    split at h
    · rename_i failing error failed hf
      exact ⟨journal, prepared, failing, error, failed, hr, .of_faultAt hf, h⟩
    · simp at h
  · simp at h

/-- The synchronization of the commit marker fails: the rollback ends in a
conflict. -/
theorem rollback_after_unsynced_commit : ∃ journal prepared failing error failed,
      (device sampleManager.platform).run
        (sampleManager.restoreUntilPrepared soloRequest).run sampleDisk =
        (.ok (.inr journal), prepared) ∧
      (device sampleManager.platform).Faulted (refusal fun _ => .other) failing false
        (sampleManager.mutation soloRequest journal).run prepared (.error error) failed ∧
      ¬KeepsOutputs sampleManager soloRequest sampleDisk journal failed := by
  have hcheck : soloFault 9 (fun journal failing =>
      leavesCommitMarker journal.id failing false) = true := by decide +kernel
  obtain ⟨journal, prepared, failing, error, failed, hrun, hfault, hleaves⟩ :=
    exists_soloFault hcheck
  refine ⟨journal, prepared, failing, error, failed, hrun, hfault, ?_⟩
  obtain ⟨x, hopens, rfl, hx⟩ := prepared_of_run solo_ready hrun
  rw [← hopens.host] at hfault
  have hleft := Transaction.faulted_mutation hx hfault
  rw [hleaves] at hleft
  exact not_keepsOutputs_of_committed hopens hleft.1 hleft.2

def isInstall (journal : RestoreJournal) : FsCall Bool → Bool
  | .rename _ path => journal.roots.any fun entry => decide (path = journal.live entry)
  | _ => false

/-- The old root has been saved when the new one is refused, and the rollback brings it back. -/
theorem rollback_keeps_outputs_solo : ∃ journal prepared failing error failed,
      (device sampleManager.platform).run
        (sampleManager.restoreUntilPrepared soloRequest).run sampleDisk =
        (.ok (.inr journal), prepared) ∧ isInstall journal failing = true ∧
      (device sampleManager.platform).Faulted (refusal fun _ => .other) failing false
        (sampleManager.mutation soloRequest journal).run prepared (.error error) failed ∧
      KeepsOutputs sampleManager soloRequest sampleDisk journal failed := by
  have hcheck : soloFault 5 (fun journal failing => isInstall journal failing &&
      !leavesCommitMarker journal.id failing false) = true := by decide +kernel
  obtain ⟨journal, prepared, failing, error, failed, hrun, hfault, hcall⟩ :=
    exists_soloFault hcheck
  obtain ⟨hinstall, hleaves⟩ := (Bool.and_eq_true _ _).mp hcall
  refine ⟨journal, prepared, failing, error, failed, hrun, hinstall, hfault, ?_⟩
  have hiff := rollback_keeps_outputs_iff sampleManager soloRequest sampleDisk prepared failed
    journal _ failing false error solo_ready hrun hfault
  exact hiff.mpr (by simpa using hleaves)

end Octa.Restore
