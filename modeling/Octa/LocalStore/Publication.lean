import Octa.LocalStore.Store

/-!
# An undisturbed publication

A publication that is alone with the store, has room and something valid to write
makes its object visible.
-/

namespace Octa.LocalStore

open Relation (ReflTransGen)

variable {ρ : Type} {store : LocalCacheStore ρ} {s : State ρ} {job : Job ρ}

abbrev Smoothly (store : LocalCacheStore ρ) : State ρ → State ρ → Prop :=
  ReflTransGen fun s s' => ∃ i, Step store s (.agent i .plain) s'

theorem Smoothly.run {P : State ρ → Event ρ → Prop} {a : Agent ρ} {t : State ρ}
    (h : Smoothly store { s with agents := s.agents ++ [a] } t) (ha : Starts store a)
    (hst : P s (.start a)) (hpl : ∀ s i, P s (.agent i .plain)) :
    ∃ hist, (store.system (· = s)).Run hist t ∧ ∀ e ∈ hist, P e.1 e.2 := by
  apply Transition.System.Run.of_chain (S := store.system (· = s)) rfl
  apply ReflTransGen.head ⟨.start a, hst, .start ha⟩
  apply ReflTransGen.mono _ _ _ h
  rintro s s' ⟨i, hs⟩
  exact ⟨.agent i .plain, hpl s i, hs⟩

/-- The store allows the publication of `job`. -/
structure Publishable (store : LocalCacheStore ρ) (s : State ρ) (job : Job ρ) (used : ℕ) :
    Prop where
  ledger : s.ledger = some used
  counts : used + store.incoming job < 2 ^ 64
  fits : used + store.incoming job ≤ store.config.highWatermarkBytes
  complete : s.Complete store job
  length : (store.copied job).length = store.incoming job
  verifies : store.JobVerifies job (store.copied job)
  absent : s.find (store.destination job) = none

/-- The state once the object of an undisturbed publication is visible. -/
def renamedState (store : LocalCacheStore ρ) (s : State ρ) (job : Job ρ) (used : ℕ) : State ρ where
  objects := (store.destination job, ⟨store.copied job, s.now⟩) :: s.objects
  temporary := Function.update (Function.update (Function.update s.temporary 0 (some ⟨[], s.now⟩)) 0
    (some ⟨store.copied job, s.now⟩)) 0 none
  ledger := some (used + store.incoming job)
  now := s.now
  agents := [.writer job .renamed]

theorem Smoothly.head {t : State ρ} {a a' : Agent ρ} {effect : Effect} (hag : s.agents = [a])
    (h : Move store s 0 a .plain effect a')
    (hrest : Smoothly store { effect.apply 0 s with agents := [a'] } t) : Smoothly store s t := by
  have hs : Step store s (.agent 0 .plain) { effect.apply 0 s with agents := s.agents.set 0 a' } :=
    .move (by rw [hag]; rfl) h
  rw [hag] at hs
  exact ReflTransGen.head ⟨0, hs⟩ hrest

theorem Publishable.smoothly {used : ℕ} (h : Publishable store s job used)
    (hag : s.agents = [.writer job (.locking false)]) :
    Smoothly store s (renamedState store s job used) := by
  have hf : s.SharedFree := by simp [State.SharedFree, hag, Agent.holdsExclusive]
  apply Smoothly.head hag (.writer (.lock hf))
  apply Smoothly.head
  · rfl
  · exact .writer (.reserve h.ledger h.counts h.fits)
  apply Smoothly.head
  · rfl
  · exact .writer (.create h.complete)
  apply Smoothly.head
  · rfl
  · exact .writer (.write h.length)
  apply Smoothly.head
  · rfl
  · have hv : store.JobVerifies job (File.mk (store.copied job) s.now).content := h.verifies
    exact .writer (.verify rfl hv)
  apply Smoothly.head
  · rfl
  · apply Move.writer
    apply WriterMove.guard
    simp [State.ObjectFree, LocalCacheStore.guards]
  apply Smoothly.head
  · rfl
  · exact .writer (.vacant h.absent)
  apply Smoothly.head
  · rfl
  · exact .writer (.rename rfl)
  exact .refl

/-! ## Chains of steps -/

section Chains

variable {P : Event ρ → Prop} {s₀ t : State ρ} {a a' : Agent ρ} {label : Label} {effect : Effect}

abbrev Chain (store : LocalCacheStore ρ) (P : Event ρ → Prop) : State ρ → State ρ → Prop :=
  ReflTransGen fun s s' => ∃ e, P e ∧ Step store s e s'

theorem Chain.move (hs : Chain store P s₀ s) (i : ℕ) (ha : s.agents[i]? = some a)
    (h : Move store s i a label effect a') (hlabel : P (.agent i label) := by trivial) :
    Chain store P s₀ { effect.apply i s with agents := s.agents.set i a' } :=
  ReflTransGen.tail hs ⟨.agent i label, hlabel, .move ha h⟩

theorem Chain.start (hs : Chain store P s₀ s) (h : Starts store a)
    (hcall : P (.start a) := by trivial) :
    Chain store P s₀ { s with agents := s.agents ++ [a] } :=
  ReflTransGen.tail hs ⟨.start a, hcall, .start h⟩

theorem Smoothly.chain (h : Smoothly store s t) (hplain : ∀ i, P (.agent i .plain)) :
    Chain store P s t :=
  ReflTransGen.mono (fun _ _ ⟨i, hs⟩ => ⟨.agent i .plain, hplain i, hs⟩) _ _ h

theorem Chain.run (h : Chain store P s t) :
    ∃ history, (store.system (· = s)).Run history t ∧ ∀ e ∈ history, P e.2 :=
  Transition.System.Run.of_chain (S := store.system (· = s)) (P := fun _ e => P e) rfl h

end Chains

/-! ## A small store -/

def LocalCacheStore.tiny : LocalCacheStore Unit where
  config :=
    { maxBytes := 100, highWatermarkBytes := 90, lowWatermarkBytes := 50,
      maxExpandedBlobBytes := 100, maxBlobCompressionRatio := 10, temporaryGrace := 5 }
  blake3 := fun content => Vector.replicate 32 (content.headD 0)
  expand := fun _ content => some content
  toVec := fun _ => [1]
  fromSlice := fun _ => some ()
  action := fun _ => ⟨.blake3, Vector.replicate 32 0, 0⟩
  outputBundle := fun _ => none
  checks := fun _ => true
  maxActionResultWireBytes := 10
  shardName := fun _ => 0

def BlobDescriptor.byte (value : UInt8) : BlobDescriptor where
  digest := ⟨.blake3, Vector.replicate 32 value, 1⟩
  encoding := .identity
  encodedSizeBytes := 1
  expandedSizeBytes := 1
  entryCount := 1

def State.fresh (calls : List (Agent ρ)) : State ρ where
  objects := []
  temporary := fun _ => none
  ledger := some 0
  now := 0
  agents := calls

def Job.unit : Job Unit := .action "main" ()

theorem Publishable.unit (calls : List (Agent Unit)) :
    Publishable LocalCacheStore.tiny (State.fresh calls) Job.unit 0 where
  ledger := rfl
  counts := by decide
  fits := by decide
  complete := fun _ hb => by cases hb
  length := rfl
  verifies := trivial
  absent := rfl

theorem Smoothly.unit :
    Smoothly LocalCacheStore.tiny (State.fresh [.writer Job.unit (.locking false)])
      (renamedState LocalCacheStore.tiny
        (State.fresh [.writer Job.unit (.locking false)]) Job.unit 0) :=
  (Publishable.unit _).smoothly rfl

theorem Starts.unit : Starts LocalCacheStore.tiny (.writer Job.unit (.locking false)) :=
  .action (by decide)

end Octa.LocalStore
