import Octa.LocalStore.Locks
import Octa.LocalStore.Publication

/-!
# Referential integrity

An action record is published after the blob it names, under the shared
collection lock, and a collection marks from the records that survived its
evictions before it sweeps.
-/

namespace Octa.LocalStore

open Wire (Bytes)
open LocalCacheStore

variable {ρ : Type} {store : LocalCacheStore ρ} {s s' : State ρ} {i j : ℕ} {a a' b : Agent ρ}
  {label : Label} {effect : Effect}

/-! ## References -/

/-- A valid record of `result` is visible. -/
def Visible (store : LocalCacheStore ρ) (s : State ρ) (path : ActionPath) (result : ρ) : Prop :=
  ∃ file, s.find (.action path) = some file ∧ store.Reads path file.content result

def Names (store : LocalCacheStore ρ) (result : ρ) (blob : BlobPath) : Prop :=
  ∃ descriptor ∈ store.outputBundle result, blobRelativePath descriptor = blob

def Present (s : State ρ) (blob : BlobPath) : Prop := ∃ file, s.find (.blob blob) = some file

def Integral (store : LocalCacheStore ρ) (s : State ρ) : Prop :=
  ∀ path result blob, Visible store s path result → Names store result blob → Present s blob

def LocalCacheStore.KeepsBundles (store : LocalCacheStore ρ) : Prop :=
  ∀ result result', store.fromSlice (store.toVec result) = some result' →
    store.outputBundle result' = store.outputBundle result

/-- What an agent relies on: a publication on the blob it has seen, a collection on
the records it has loaded and on the blobs it has marked. -/
def Relies (store : LocalCacheStore ρ) (s : State ρ) : Agent ρ → Prop
  | .writer (.action _ result) .filling | .writer (.action _ result) .synced
  | .writer (.action _ result) .prepared | .writer (.action _ result) .guarded
  | .writer (.action _ result) .vacant => ∀ blob, Names store result blob → Present s blob
  | .collector (.evicting _ entries _ removed) _ => ∀ path result, Visible store s path result →
      (path, result) ∈ entries ∧ path ∉ removed
  | .collector (.sweeping _ reachable _) _ => ∀ path result blob, Visible store s path result →
      Names store result blob → blob ∈ reachable
  | .detached _ => False
  | _ => True

def Relied (store : LocalCacheStore ρ) (s : State ρ) : Prop :=
  ∀ (i : ℕ) (a : Agent ρ), s.agents[i]? = some a → Relies store s a

def Unspoiled : Event ρ → Prop
  | .agent _ (.quarantine (.blob _)) => False
  | _ => True

def Uncancelled : Event ρ → Prop
  | .agent _ .cancel => False
  | _ => True

/-! ## Steps of others -/

variable {path : ActionPath} {result : ρ}

theorem Visible.of_apply (hre : ∀ path file, effect ≠ .rename (.action path) file)
    (h : Visible store (effect.apply i s) path result) : Visible store s path result := by
  obtain ⟨file, hf, hr⟩ := h
  rcases effect.find_cases i s (.action path) with he | ⟨file', hef, -⟩ | ⟨-, hn⟩
  · exact ⟨file, he.symm.trans hf, hr⟩
  · exact absurd hef (hre path file')
  · exact absurd (hn.symm.trans hf) (by simp)

variable {blob : BlobPath}

theorem Present.apply (hun : effect ≠ .unlink (.blob blob))
    (h : Present s blob) : Present (effect.apply i s) blob := by
  obtain ⟨file, hf⟩ := h
  rcases effect.find_cases i s (.blob blob) with he | ⟨file', -, hf'⟩ | ⟨hef, -⟩
  · exact ⟨file, he.trans hf⟩
  · exact ⟨file', hf'⟩
  · exact absurd hef hun

/-- Whoever relies on a blob or on records holds the collection lock, so the steps of
others leave it what it relies on. -/
theorem Relies.of_other (h : Relies store s b) (hexcl : Exclusive s) (ha : s.agents[i]? = some a)
    (hb : s.agents[j]? = some b) (hmove : Move store s i a label effect a')
    (hmover : Relies store s a) (hla : Unspoiled (.agent i label : Event ρ)) :
    Relies store (effect.apply i s) b := by
  have hvi : b.holdsExclusive = true → ∀ path result,
      Visible store (effect.apply i s) path result → Visible store s path result := by
    intro hh path result
    apply Visible.of_apply
    rintro path' file rfl
    exact hexcl.no_rename hb hh ha hmove
  have hp : b.holdsShared = true → ∀ blob, Present s blob → Present (effect.apply i s) blob := by
    intro hh blob
    apply Present.apply
    rintro rfl
    rcases hmove.unlink_blob_inv with rfl | ⟨_, rfl⟩ | ⟨rfl, _, _, _, _, _, rfl, -⟩
    · exact hla
    · exact hmover
    · exact Bool.false_ne_true ((hexcl.notShared ha hb rfl).symm.trans hh)
  cases b with
  | writer job stage =>
    cases job with
    | blob => trivial
    | action nameSpace result =>
      cases stage with
      | filling | synced | prepared | guarded | vacant =>
        exact fun blob hbl => hp rfl blob (h blob hbl)
      | _ => trivial
  | collector phase caller =>
    cases phase with
    | evicting => exact fun path result hv => h path result (hvi rfl path result hv)
    | sweeping => exact fun path result blob hv => h path result blob (hvi rfl path result hv)
    | _ => trivial
  | detached => exact h.elim
  | reader | crashed => trivial

/-! ## Own steps -/

theorem mem_loadActions (h : Visible store s path result) :
    (path, result) ∈ store.loadActions s.objects := by
  obtain ⟨file, hf, hl, hd, hv, hh, hs⟩ := h
  apply List.mem_filterMap.mpr
  refine ⟨(.action path, file), IndexMap.mem_of_lookup hf, ?_⟩
  simp [hd, hl, hv, hh, hs]

theorem mem_reachableBlobs {entries : List (ActionPath × ρ)} {removed : List ActionPath}
    (he : (path, result) ∈ entries) (hre : path ∉ removed) (hns : Names store result blob) :
    blob ∈ store.reachableBlobs entries removed := by
  obtain ⟨desc, hb, hbl⟩ := hns
  apply List.mem_filterMap.mpr
  refine ⟨(path, result), List.mem_filter.mpr ⟨he, by simpa using hre⟩, ?_⟩
  rw [Option.mem_def.mp hb]
  exact congrArg some hbl

theorem relies_afterCollection (caller : Option (Job ρ)) (result : Except CacheError Unit) :
    Relies store s (afterCollection caller result) := by
  rcases caller with - | (- | -) <;> rcases result with - | - <;> trivial

theorem Move.relies (hmove : Move store s i a label effect a') (h : Relies store s a)
    (hlabel : Uncancelled (.agent i label : Event ρ)) : Relies store (effect.apply i s) a' := by
  cases hmove with
  | @writer job stage _ _ _ hmove =>
    cases job with
    | blob => cases hmove <;> trivial
    | action nameSpace result =>
      cases hmove with
      | create hc =>
        rintro blob ⟨desc, hb, rfl⟩
        obtain ⟨file, hf, -⟩ := hc desc hb
        exact ⟨file, hf⟩
      | write | verify | guard | vacant => exact h
      | _ => trivial
  | collector hmove =>
    cases hmove with
    | plan hv hes =>
      intro path result hvi
      exact ⟨hes.mem_iff.mpr (mem_loadActions hvi), List.not_mem_nil⟩
    | @evict began entries planned removed path hp =>
      intro path' result hvi
      have hne : path' ≠ path := by
        rintro rfl
        obtain ⟨file, hf, -⟩ := hvi
        simp [Effect.apply] at hf
      obtain ⟨he, hr⟩ := h path' result (hvi.of_apply fun _ _ heq => by cases heq)
      exact ⟨he, List.not_mem_cons_of_ne_of_not_mem hne hr⟩
    | defer => exact h
    | mark =>
      intro path result blob hvi hn
      obtain ⟨he, hr⟩ := h path result hvi
      exact mem_reachableBlobs he hr hn
    | retain | postpone => exact h
    | sweep =>
      intro path result blob hvi
      exact h path result blob (hvi.of_apply fun _ _ heq => by cases heq)
    | evictFault | reconcile | tear | fail => exact relies_afterCollection _ _
    | _ => trivial
  | cancel => exact hlabel
  | detached => exact h.elim
  | reader hmove => cases hmove <;> trivial
  | crash | crashTorn => trivial

theorem Starts.relies (h : Starts store a) : Relies store s a := by
  cases h <;> trivial

variable {e : Event ρ}

theorem Relied.step (h : Relied store s) (hso : Sound store s)
    (hla : Unspoiled e) (huncancelled : Uncancelled e) (hstep : Step store s e s') :
    Relied store s' := by
  intro j b hb
  cases hstep with
  | @move i a a' label effect ha hm =>
    change Relies store (effect.apply i s) b
    rcases Transition.getElem?_set_cases hb with ⟨rfl, rfl⟩ | ⟨-, hb₀⟩
    · exact hm.relies (h j a ha) huncancelled
    · exact (h j b hb₀).of_other hso.exclusive ha hb₀ hm (h i a ha) hla
  | @start a hs =>
    rcases (Step.start hs).agents_cases hb with hb₀ | ⟨_, _, _, he, _⟩ | ⟨_, _, hs'⟩
    · exact h j b hb₀
    · cases he
    · exact hs'.relies
  | reopen | tick => exact h j b hb

/-! ## Integrity -/

theorem Move.swept (hmove : Move store s i a (.sweep blob) effect a') (h : Relies store s a) :
    (∃ began caller reachable blobs file,
      a = .collector (.sweeping began reachable (blob :: blobs)) caller ∧
        s.find (.blob blob) = some file ∧
        store.config.temporaryGrace ≤ began - file.modified) ∧
      ∀ path result, Visible store s path result → ¬ Names store result blob := by
  cases hmove with
  | writer hmove => cases hmove
  | @collector phase caller _ _ _ hmove =>
    cases hmove with
    | sweep hf hr ha =>
      refine ⟨⟨_, caller, _, _, _, rfl, hf, ha⟩, ?_⟩
      intro path result hv hn
      exact hr (h path result blob hv hn)
  | detached => exact h.elim
  | reader hmove => cases hmove

theorem Move.renamed_named {file : File}
    (hmove : Move store s i a label (.rename (.action path) file) a') (hso : Sound store s)
    (hbu : store.KeepsBundles) (ha : s.agents[i]? = some a) (h : Relies store s a)
    (hre : store.Reads path file.content result) (hns : Names store result blob) :
    Present s blob := by
  obtain ⟨job, rfl, -, hp, ht, -⟩ := hmove.rename_inv
  obtain ⟨⟨hc, -⟩, -⟩ := hso.staged i _ ha file ht
  cases job with
  | blob => cases hp
  | action nameSpace result' =>
    have hb : store.outputBundle result = store.outputBundle result' := by
      apply hbu result' result
      rw [← hre.2.1, hc]
      rfl
    obtain ⟨desc, hd, hbl⟩ := hns
    exact h blob ⟨desc, hb ▸ hd, hbl⟩

theorem Integral.step (h : Integral store s) (hso : Sound store s)
    (hre : Relied store s) (hbu : store.KeepsBundles) (hla : Unspoiled e)
    (hstep : Step store s e s') : Integral store s' := by
  cases hstep with
  | @move i a a' label effect ha hm =>
    rintro path result blob ⟨file, hf, hr⟩ hn
    change (effect.apply i s).find (.action path) = some file at hf
    change Present (effect.apply i s) blob
    rcases effect.find_cases i s (.action path) with he | ⟨file', rfl, hf'⟩ | ⟨-, hno⟩
    · have hv : Visible store s path result := ⟨file, he.symm.trans hf, hr⟩
      apply Present.apply _ (h path result blob hv hn)
      rintro rfl
      rcases hm.unlink_blob_inv with rfl | ⟨_, rfl⟩ | ⟨rfl, -⟩
      · exact hla
      · exact hre i _ ha
      · exact (hm.swept (hre i a ha)).2 path result hv hn
    · cases hf'.symm.trans hf
      have hp := hm.renamed_named hso hbu ha (hre i a ha) hr hn
      exact hp.apply fun he => by cases he
    · exact absurd (hno.symm.trans hf) (by simp)
  | start | reopen | tick => exact h

def Phase.marked : Phase ρ → Bool
  | .sweeping _ _ _ | .measured _ => true
  | _ => false

def LocalCacheStore.paired : LocalCacheStore UInt8 where
  config := tiny.config
  blake3 := tiny.blake3
  expand := tiny.expand
  toVec := fun value => [value]
  fromSlice := fun content => content.head?
  action := fun value => ⟨.blake3, Vector.replicate 32 value, 0⟩
  outputBundle := fun value => some (.byte value)
  checks := fun _ => true
  maxActionResultWireBytes := 10
  shardName := fun _ => 0

theorem LocalCacheStore.paired_valid (value : UInt8) : paired.Valid value :=
  ⟨rfl, show 1 ≤ 10 by decide⟩

theorem Starts.record (value : UInt8) :
    Starts paired (.writer (.action "main" value) (.locking false)) := .action (paired_valid value)

end Octa.LocalStore
