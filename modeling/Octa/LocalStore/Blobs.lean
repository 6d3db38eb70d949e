import Octa.LocalStore.Locks
import Octa.LocalStore.Publication

/-!
# Content addressing

A blob becomes visible through the rename of a verified temporary file and in no
other way.  The argument does not look at the locks: it holds whoever else writes,
collects or crashes.
-/

namespace Octa.LocalStore

open Wire (Bytes)
open LocalCacheStore

variable {ρ : Type} {store : LocalCacheStore ρ} {s s' : State ρ} {i : ℕ} {a a' : Agent ρ}
  {label : Label} {effect : Effect} {file : File}

/-- Every visible blob has the size and the digest its path spells out. -/
def Intact (store : LocalCacheStore ρ) (s : State ρ) : Prop :=
  ∀ path file, s.find (.blob path) = some file → store.Addressed path file.content

/-- The temporary file that is renamed to a blob path was verified for it, and it is
the whole stream of its writer. -/
theorem Move.rename_blob {path : BlobPath}
    (h : Move store s i a label (.rename (.blob path) file) a') (hso : Sound store s)
    (ha : s.agents[i]? = some a) : ∃ desc body, a = .writer (.blob desc body) .vacant ∧
      desc.validate = .ok () ∧ path = blobRelativePath desc ∧
      store.Verifies desc file.content ∧
      (file.content = body ∨ 2 ^ 64 ≤ body.length) := by
  obtain ⟨job, rfl, -, hp, ht, -⟩ := h.rename_inv
  obtain ⟨⟨hc, hl⟩, hv⟩ := hso.staged i _ ha file ht
  cases job with
  | action nsp result => cases hp
  | blob desc body =>
    refine ⟨desc, body, rfl, hso.validated i _ ha _ rfl, ObjectPath.blob.inj hp, hv, ?_⟩
    rw [hc] at hl ⊢
    simp only [copied, incoming, List.length_take] at hl ⊢
    have hs := desc.encodedSizeBytes.toNat_lt
    by_cases hb : body.length < 2 ^ 64
    · exact .inl (List.take_of_length_le (by omega))
    · exact .inr (not_lt.mp hb)

theorem Intact.step {e : Event ρ} (h : Intact store s) (hso : Sound store s)
    (hstep : Step store s e s') : Intact store s' := by
  cases hstep with
  | @move i a a' label effect ha hm =>
    intro path file hf
    rcases effect.find_cases i s (.blob path) with he | hr | hu
    · exact h path file (he.symm.trans hf)
    · obtain ⟨file', rfl, hfn⟩ := hr
      cases hfn.symm.trans hf
      obtain ⟨desc, body, -, hv, rfl, hve, -⟩ := hm.rename_blob hso ha
      exact hve.addressed hv
    · exact absurd (hu.2.symm.trans hf) (by simp)
  | start | reopen | tick => exact h

theorem Step.blob_appears {e : Event ρ} {path : BlobPath} (hstep : Step store s e s')
    (hso : Sound store s) (hb : s.find (.blob path) = none)
    (haf : s'.find (.blob path) = some file) :
    ∃ (i : ℕ) (desc : BlobDescriptor) (body : Bytes),
      s.agents[i]? = some (Agent.writer (.blob desc body) .vacant) ∧
      path = blobRelativePath desc ∧ store.Verifies desc file.content ∧
      (file.content = body ∨ 2 ^ 64 ≤ body.length) := by
  have hc : s'.find (.blob path) ≠ s.find (.blob path) := by
    rw [hb, haf]
    exact Option.some_ne_none file
  cases hstep with
  | @move i a a' label effect ha hm =>
    rcases effect.find_cases i s (.blob path) with he | hr | hu
    · exact absurd he hc
    · obtain ⟨file', rfl, hf⟩ := hr
      cases hf.symm.trans haf
      obtain ⟨desc, body, rfl, -, hp, hv, hbo⟩ := hm.rename_blob hso ha
      exact ⟨i, desc, body, ha, hp, hv, hbo⟩
    · exact absurd (hu.2.symm.trans haf) (by simp)
  | start | reopen | tick => exact absurd rfl hc

theorem sound_of_run {init : State ρ → Prop} {hist : List (State ρ × Event ρ)}
    (hinit : ∀ s, init s → s.agents = []) (hrun : (store.system init).Run hist s) : Sound store s :=
  hrun.invariant (G := fun _ _ => True) (fun _ _ => trivial)
    (fun _ hs => Sound.of_nil (hinit _ hs)) (fun _ _ _ _ hI hst => hI.step hst)

/-- In every run over any streams, collections, failures and crashes each visible
blob has the size and digest of its path, and only verified streams appear. -/
theorem LocalCacheStore.blobs_addressed (store : LocalCacheStore ρ) {init : State ρ → Prop}
    (hinit : ∀ s, init s → s.agents = [] ∧ Intact store s) {history : List (State ρ × Event ρ)}
    (hrun : (store.system init).Run history s) : Intact store s ∧
      ∀ e s' path file, Step store s e s' → s.find (.blob path) = none →
        s'.find (.blob path) = some file →
        ∃ (i : ℕ) (descriptor : BlobDescriptor) (body : Bytes),
          s.agents[i]? = some (Agent.writer (.blob descriptor body) .vacant) ∧
          path = blobRelativePath descriptor ∧ store.Verifies descriptor file.content ∧
          (file.content = body ∨ 2 ^ 64 ≤ body.length) := by
  have hsound : Sound store s := sound_of_run (fun s hs => (hinit s hs).1) hrun
  have hboth : Sound store s ∧ Intact store s :=
    hrun.invariant (G := fun _ _ => True) (I := fun s => Sound store s ∧ Intact store s)
      (fun _ _ => trivial) (fun s hs => ⟨Sound.of_nil (hinit s hs).1, (hinit s hs).2⟩)
      (fun _ _ _ _ hI hstep => ⟨hI.1.step hstep, hI.2.step hI.1 hstep⟩)
  refine ⟨hboth.2, ?_⟩
  intro e s' path file hstep hbefore hafter
  exact hstep.blob_appears hsound hbefore hafter

/-- A stream of one byte is published under its digest. -/
theorem LocalCacheStore.blobs_addressed_byte :
    ∃ history s, (tiny.system (· = State.fresh [])).Run history s ∧
      s.find (.blob (blobRelativePath (.byte 7))) = some ⟨[7], 0⟩ ∧
      Intact tiny s := by
  have habsent : Step tiny
      (State.fresh [.writer (.blob (.byte 7) [7]) .inspecting]) (.agent 0 .plain)
      (State.fresh [.writer (.blob (.byte 7) [7]) (.locking false)]) :=
    .move rfl (.writer (.absent rfl))
  have hpublishable : Publishable tiny
      (State.fresh [.writer (.blob (.byte 7) [7]) (.locking false)]) (.blob (.byte 7) [7]) 0 :=
    { ledger := rfl
      counts := by decide
      fits := by decide
      complete := trivial
      length := rfl
      verifies := by
        change tiny.Verifies (.byte 7) [7]
        decide
      absent := rfl }
  have hsmoothly := Relation.ReflTransGen.head ⟨0, habsent⟩ (hpublishable.smoothly rfl)
  obtain ⟨history, hrun, -⟩ := Smoothly.run (P := fun _ _ => True) (s := State.fresh [])
    hsmoothly (.blob (by decide) (by decide)) trivial fun _ _ => trivial
  refine ⟨history, _, hrun, rfl, (tiny.blobs_addressed ?_ hrun).1⟩
  rintro s rfl
  refine ⟨rfl, ?_⟩
  intro path file hfile
  cases hfile

end Octa.LocalStore
