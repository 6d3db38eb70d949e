import Mathlib.Algebra.Order.BigOperators.Group.List
import Octa.LocalStore.Store

/-!
# What a step can do

The shared state changes through few effects, and each effect has few causes.  The
collection lock excludes a collector from everyone who holds it in shared mode.
-/

namespace Octa.LocalStore

open Wire (Bytes)

variable {ρ : Type} {store : LocalCacheStore ρ} {s s' : State ρ} {i j : ℕ} {a a' b : Agent ρ}
  {label : Label} {effect : Effect} {path : ObjectPath} {file : File}

/-! ## Objects -/

@[simp]
theorem State.find_remove (s : State ρ) (path path' : ObjectPath) :
    (s.remove path).find path' = if path' = path then none else s.find path' :=
  IndexMap.lookup_filter_ne s.objects path path'

theorem State.visibleBytes_remove_le (s : State ρ) (path : ObjectPath) :
    (s.remove path).visibleBytes ≤ s.visibleBytes := by
  apply List.Sublist.sum_le_sum
  · exact List.filter_sublist.map _
  · intro n _
    exact Nat.zero_le n

/-! ## Effects -/

namespace Effect

@[simp]
theorem apply_none (i : ℕ) (s : State ρ) : Effect.none.apply i s = s := rfl

theorem find_rename (i : ℕ) (s : State ρ) (path path' : ObjectPath) (file : File) :
    ((Effect.rename path file).apply i s).find path' =
      if path' = path then some file else s.find path' :=
  IndexMap.lookup_cons_ite path path' file s.objects

theorem find_cases (effect : Effect) (i : ℕ) (s : State ρ) (path : ObjectPath) :
    (effect.apply i s).find path = s.find path ∨
      (∃ file, effect = .rename path file ∧ (effect.apply i s).find path = some file) ∨
      (effect = .unlink path ∧ (effect.apply i s).find path = Option.none) := by
  cases effect with
  | none | temporary | ledger => exact .inl rfl
  | rename path' file =>
    rw [find_rename]
    by_cases hp : path = path'
    · subst hp
      exact .inr (.inl ⟨file, rfl, if_pos rfl⟩)
    · exact .inl (if_neg hp)
  | unlink path' =>
    change (s.remove path').find path = _ ∨ _
    by_cases hp : path = path'
    · subst hp
      exact .inr (.inr ⟨rfl, by simp [apply]⟩)
    · exact .inl (by simp [hp])

end Effect

/-! ## Causes -/

theorem Move.rename_inv (h : Move store s i a label (.rename path file) a') :
    ∃ job, a = .writer job .vacant ∧ a' = .writer job .renamed ∧
      path = store.destination job ∧ s.temporary i = some file ∧ label = .plain := by
  cases h with
  | @writer job stage _ _ _ hm =>
    cases hm with
    | rename ht => exact ⟨job, rfl, rfl, rfl, ht, rfl⟩
  | collector hm | detached _ hm | reader hm => cases hm

theorem Move.unlink_blob_inv {path : BlobPath}
    (h : Move store s i a label (.unlink (.blob path)) a') : label = .quarantine (.blob path) ∨
      (∃ phase, a = .detached phase) ∨ label = .sweep path ∧ ∃ began reachable blobs caller file,
        a = .collector (.sweeping began reachable (path :: blobs)) caller ∧
          a' = .collector (.sweeping began reachable blobs) caller ∧
          s.find (.blob path) = some file ∧ path ∉ reachable ∧
          State.OlderThan began file store.config.temporaryGrace := by
  cases h with
  | @writer job stage _ _ _ hm =>
    generalize hp : ObjectPath.blob path = q at hm
    generalize he : Effect.unlink q = effect at hm
    cases hm <;> first | (cases he; done) | skip
    all_goals
      obtain rfl := Effect.unlink.inj he
      exact .inl (by rw [← hp])
  | @collector phase caller _ _ _ hm =>
    cases hm with
    | sweep hf hr ha =>
      exact .inr (.inr ⟨rfl, _, _, _, caller, _, rfl, rfl, hf, hr, ha⟩)
  | detached => exact .inr (.inl ⟨_, rfl⟩)
  | reader hm =>
    cases hm with
    | quarantine => exact .inl rfl

theorem Move.temporary_inv {file : Option File}
    (h : Move store s i a label (.temporary j file) a') : j = i ∨ file = none := by
  cases h with
  | writer hm => cases hm <;> exact .inl rfl
  | collector hm | detached _ hm =>
    cases hm
    exact .inr rfl
  | reader hm => cases hm

theorem Move.locks (h : Move store s i a label effect a') :
    (a'.holdsShared = true → a.holdsShared = true ∨ s.SharedFree) ∧
      (a'.holdsExclusive = true → a.holdsExclusive = true ∨ s.ExclusiveFree) := by
  cases h with
  | @writer job stage _ _ _ hm =>
    cases hm with
    | lock hf => exact ⟨fun _ => .inr hf, fun h => absurd h Bool.false_ne_true⟩
    | fail => exact ⟨fun h => absurd h Bool.false_ne_true, fun h => absurd h Bool.false_ne_true⟩
    | abandon hs | abandonFile hs =>
      refine ⟨fun _ => .inl ?_, fun h => absurd h Bool.false_ne_true⟩
      cases stage <;> first | rfl | cases hs
    | _ => exact ⟨by simp [Agent.holdsShared], by simp [Agent.holdsExclusive]⟩
  | @collector phase caller _ _ _ hm =>
    have ha : ∀ result, (afterCollection caller result).holdsShared = false ∧
        (afterCollection caller result).holdsExclusive = false := by
      intro result
      cases caller <;> cases result <;> exact ⟨rfl, rfl⟩
    cases hm with
    | lock hf => exact ⟨fun h => absurd h Bool.false_ne_true, fun _ => .inr hf⟩
    | evictFault | reconcile | tear | fail => simp [ha]
    | _ => exact ⟨by simp [Agent.holdsShared], by simp [Agent.holdsExclusive]⟩
  | reader hm =>
    cases hm with
    | lock hf => exact ⟨fun _ => .inr hf, fun h => absurd h Bool.false_ne_true⟩
    | _ => exact ⟨by simp [Agent.holdsShared], by simp [Agent.holdsExclusive]⟩
  | cancel | detached | crash | crashTorn =>
    exact ⟨by simp [Agent.holdsShared], by simp [Agent.holdsExclusive]⟩

theorem Starts.holds (h : Starts store a) : a.holdsShared = false ∧ a.holdsExclusive = false := by
  cases h <;> exact ⟨rfl, rfl⟩

/-! ## Exclusion -/

def Exclusive (s : State ρ) : Prop :=
  ∀ (i j : ℕ) (a b : Agent ρ), s.agents[i]? = some a → s.agents[j]? = some b → i ≠ j →
    a.holdsExclusive = true →
    b.holdsExclusive = false ∧ b.holdsShared = false

theorem Exclusive.notShared (h : Exclusive s) (ha : s.agents[i]? = some a)
    (hb : s.agents[j]? = some b) (hexcl : a.holdsExclusive = true) : b.holdsShared = false := by
  by_cases hi : i = j
  · subst hi
    cases ha.symm.trans hb
    cases a with
    | writer => cases hexcl
    | collector => rfl
    | detached | reader | crashed => cases hexcl
  · exact (h i j a b ha hb hi hexcl).2

variable {e : Event ρ}

theorem Step.agents_cases (h : Step store s e s')
    (hb : s'.agents[j]? = some b) : s.agents[j]? = some b ∨
      (∃ label effect a, e = .agent j label ∧ s.agents[j]? = some a ∧
        Move store s j a label effect b) ∨
      (j = s.agents.length ∧ e = .start b ∧ Starts store b) := by
  cases h with
  | @move i a a' label effect ha hm =>
    rcases Transition.getElem?_set_cases hb with ⟨rfl, rfl⟩ | ⟨-, hb⟩
    · exact .inr (.inl ⟨label, effect, a, rfl, ha, hm⟩)
    · exact .inl hb
  | @start a hs =>
    by_cases hj : j < s.agents.length
    · exact .inl ((List.getElem?_append_left hj).symm.trans hb)
    right
    right
    have hr : [a][j - s.agents.length]? = some b :=
      (List.getElem?_append_right (not_lt.mp hj)).symm.trans hb
    obtain ⟨hz, hg⟩ := List.getElem?_eq_some_iff.mp hr
    have hlt : j - s.agents.length < 1 := hz
    have hl : j = s.agents.length := by omega
    have hab : a = b := by simpa [show j - s.agents.length = 0 by omega] using hg
    subst hab
    exact ⟨hl, rfl, hs⟩
  | reopen | tick => exact .inl hb

theorem mem_agents (h : s.agents[i]? = some a) : a ∈ s.agents := List.mem_of_getElem? h

theorem Exclusive.step (h : Exclusive s) (hstep : Step store s e s') : Exclusive s' := by
  intro j k b c hb hc hne hex
  rcases hstep.agents_cases hb with hb₀ | ⟨label, effect, a, he, ha, hm⟩ | ⟨-, -, hs⟩
  · rcases hstep.agents_cases hc with hc₀ | ⟨label, effect, a, he, ha, hm⟩ | ⟨-, -, hs⟩
    · exact h j k b c hb₀ hc₀ hne hex
    · -- the other agent moves while the lock is held
      obtain ⟨hbe, hb'⟩ := h j k b a hb₀ ha hne hex
      constructor
      · by_contra hc'
        rcases hm.locks.2 (Bool.of_not_eq_false hc') with ho | hf
        · exact Bool.false_ne_true (hbe.symm.trans ho)
        · exact Bool.false_ne_true ((hf b (mem_agents hb₀)).1.symm.trans hex)
      by_contra hc'
      rcases hm.locks.1 (Bool.of_not_eq_false hc') with ho | hf
      · exact Bool.false_ne_true (hb'.symm.trans ho)
      · exact Bool.false_ne_true ((hf b (mem_agents hb₀)).symm.trans hex)
    · exact hs.holds.symm
  · -- the holder itself has moved, so the other one has not
    have hc₀ : s.agents[k]? = some c := by
      rcases hstep.agents_cases hc with hc₀ | ⟨label', eff', a', he', -⟩ | ⟨-, he', -⟩
      · exact hc₀
      · rw [he] at he'
        exact absurd (Event.agent.inj he').1 hne
      · rw [he] at he'
        cases he'
    rcases hm.locks.2 hex with ho | hf
    · exact h j k a c ha hc₀ hne ho
    · exact hf c (mem_agents hc₀)
  · exact absurd hex (by simp [hs.holds])

theorem Exclusive.of_nil (h : s.agents = []) : Exclusive s := by
  intro i j a b ha
  simp [h] at ha

theorem Exclusive.no_rename (h : Exclusive s) (hb : s.agents[j]? = some b)
    (hexcl : b.holdsExclusive = true) (ha : s.agents[i]? = some a)
    (hmove : Move store s i a label (.rename path file) a') : False := by
  obtain ⟨job, rfl, -⟩ := hmove.rename_inv
  have hs := h.notShared hb ha hexcl
  cases hs

/-! ## Temporary files -/

def LocalCacheStore.JobValid (store : LocalCacheStore ρ) : Job ρ → Prop
  | .blob descriptor _ => descriptor.validate = .ok ()
  | .action _ result => store.Valid result

def Agent.job : Agent ρ → Option (Job ρ)
  | .writer job _ => some job
  | .collector _ caller => caller
  | _ => none

def LocalCacheStore.Holds (store : LocalCacheStore ρ) : Agent ρ → File → Prop
  | .writer job .synced, file =>
    file.content = store.copied job ∧ file.content.length = store.incoming job
  | .writer job .prepared, file | .writer job .guarded, file | .writer job .vacant, file =>
    (file.content = store.copied job ∧ file.content.length = store.incoming job) ∧
      store.JobVerifies job file.content
  | _, _ => True

theorem Move.job_eq (h : Move store s i a label effect a') : ∀ job ∈ a'.job, a.job = some job := by
  intro job hj
  cases h with
  | writer hm => cases hm <;> exact hj
  | @collector phase caller _ _ _ hm =>
    have ha : ∀ result, job ∈ (afterCollection caller result).job → caller = some job := by
      intro result hr
      cases caller <;> cases result <;> exact hr
    cases hm with
    | evictFault | reconcile | tear | fail => exact ha _ hj
    | _ => exact hj
  | reader hm => cases hm <;> cases hj
  | cancel | detached | crash | crashTorn => cases hj

def Validated (store : LocalCacheStore ρ) (s : State ρ) : Prop :=
  ∀ (i : ℕ) (a : Agent ρ), s.agents[i]? = some a → ∀ job ∈ a.job, store.JobValid job

theorem Validated.step (h : Validated store s) (hstep : Step store s e s') :
    Validated store s' := by
  intro j b hb job hj
  rcases hstep.agents_cases hb with hb₀ | ⟨label, effect, a, -, ha, hm⟩ | ⟨-, -, hs⟩
  · exact h j b hb₀ job hj
  · exact h j a ha job (hm.job_eq job hj)
  cases hs with
  | blob hv | action hv => obtain rfl := Option.some.inj hj; exact hv
  | collector | reader => cases hj

/-- Complete temporary files hold what was copied, verified ones verify. -/
def Staged (store : LocalCacheStore ρ) (s : State ρ) : Prop :=
  ∀ (i : ℕ) (a : Agent ρ), s.agents[i]? = some a → ∀ file ∈ s.temporary i, store.Holds a file

theorem Move.holds (h : Move store s i a label effect a')
    (hb : ∀ file ∈ s.temporary i, store.Holds a file) :
    ∀ file ∈ (effect.apply i s).temporary i, store.Holds a' file := by
  intro file hf
  cases h with
  | @writer job stage _ _ _ hm =>
    cases hm with
    | write hl =>
      simp only [Effect.apply, Function.update_self, Option.mem_some_iff] at hf
      subst hf
      exact ⟨rfl, hl⟩
    | verify ht hv =>
      cases ht.symm.trans hf
      exact ⟨hb _ hf, hv⟩
    | guard | vacant => exact hb _ hf
    | _ => trivial
  | @collector phase caller _ _ _ hm =>
    have ha : ∀ result, store.Holds (afterCollection caller result) file := by
      intro result
      cases caller <;> cases result <;> trivial
    cases hm with
    | evictFault | reconcile | tear | fail => exact ha _
    | _ => trivial
  | reader hm => cases hm <;> trivial
  | cancel | detached | crash | crashTorn => trivial

theorem Move.temporary_of_ne (h : Move store s i a label effect a') (hne : j ≠ i)
    (hfile : (effect.apply i s).temporary j = some file) : s.temporary j = some file := by
  cases effect with
  | temporary k file' =>
    by_cases hk : j = k
    · subst hk
      rcases h.temporary_inv with rfl | rfl
      · exact absurd rfl hne
      · simp [Effect.apply] at hfile
    · simpa [Effect.apply, hk] using hfile
  | rename => simpa [Effect.apply, hne] using hfile
  | _ => exact hfile

theorem Starts.holdsFile (h : Starts store a) (file : File) : store.Holds a file := by
  cases h <;> trivial

theorem Staged.step (h : Staged store s) (hstep : Step store s e s') : Staged store s' := by
  intro j b hb file hf
  cases hstep with
  | @move i a a' label effect ha hm =>
    rcases Transition.getElem?_set_cases hb with ⟨rfl, rfl⟩ | ⟨hne, hb₀⟩
    · exact hm.holds (h j a ha) file hf
    · exact h j b hb₀ file (hm.temporary_of_ne hne hf)
  | @start a hs =>
    rcases (Step.start hs).agents_cases hb with hb₀ | ⟨_, _, _, he, _⟩ | ⟨_, _, hs'⟩
    · exact h j b hb₀ file hf
    · cases he
    · exact hs'.holdsFile file
  | reopen | tick => exact h j b hb file hf

/-! ## Standing invariants -/

structure Sound (store : LocalCacheStore ρ) (s : State ρ) : Prop where
  exclusive : Exclusive s
  validated : Validated store s
  staged : Staged store s

theorem Sound.of_nil (h : s.agents = []) : Sound store s where
  exclusive := Exclusive.of_nil h
  validated := by
    intro i a ha
    simp [h] at ha
  staged := by
    intro i a ha
    simp [h] at ha

theorem Sound.step (h : Sound store s) (hstep : Step store s e s') : Sound store s' where
  exclusive := h.exclusive.step hstep
  validated := h.validated.step hstep
  staged := h.staged.step hstep

end Octa.LocalStore
