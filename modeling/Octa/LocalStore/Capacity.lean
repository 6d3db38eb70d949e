import Octa.LocalStore.Locks
import Octa.LocalStore.Publication

/-!
# The capacity ledger

A publication owes its reservation from the moment it is recorded until its
object is visible or the reservation is released.
-/

namespace Octa.LocalStore

open Wire (Bytes)
open LocalCacheStore

variable {ρ : Type} {store : LocalCacheStore ρ} {s s' : State ρ} {i : ℕ} {a a' : Agent ρ}
  {label : Label} {effect : Effect}

/-! ## Reservations -/

/-- The part of a publication's reservation that no visible object accounts for. -/
def LocalCacheStore.owed (store : LocalCacheStore ρ) : Agent ρ → ℕ
  | .writer job .reserved | .writer job .filling | .writer job .synced | .writer job .prepared
  | .writer job .guarded | .writer job .vacant | .writer job .comparing
  | .writer job (.replacing _) | .writer job (.releasing _) => store.incoming job
  | .writer job (.closing answer) => if answer = .ok .written then 0 else store.incoming job
  | _ => 0

def LocalCacheStore.totalOwed (store : LocalCacheStore ρ) (s : State ρ) : ℕ :=
  (s.agents.map store.owed).sum

/-- The publication has dropped the collection lock and still has to release its
reservation. -/
def Agent.lapsed : Agent ρ → Bool
  | .writer _ (.replacing _) | .writer _ (.releasing _) => true
  | _ => false

theorem owed_eq_zero (hsh : a.holdsShared = false) (hla : a.lapsed = false) : store.owed a = 0 := by
  cases a with
  | writer job stage => cases stage <;> first | rfl | (cases hla; done) | cases hsh
  | collector | detached | reader | crashed => rfl

def Covered (store : LocalCacheStore ρ) (s : State ρ) : Prop :=
  ∀ used, s.ledger = some used → s.visibleBytes + store.totalOwed s ≤ used

def Measured (s : State ρ) : Prop :=
  ∀ (i : ℕ) bytes caller, s.agents[i]? = some (.collector (.measured bytes) caller) →
    s.visibleBytes ≤ bytes

/-- No directory synchronisation fails after a rename, and a measurement is recorded
only while no publication is between the end of its work and its release. -/
def Orderly (s : State ρ) : Event ρ → Prop
  | .agent _ .syncFault => False
  | .agent _ .reconcile | .reopen => ∀ a ∈ s.agents, a.lapsed = false
  | _ => True

/-! ## Steps -/

theorem owed_afterCollection (caller : Option (Job ρ)) (result : Except CacheError Unit) :
    store.owed (afterCollection caller result) = 0 := by
  cases caller <;> cases result <;> rfl

theorem visibleBytes_rename (i : ℕ) (s : State ρ) (path : ObjectPath) (file : File) :
    ((Effect.rename path file).apply i s).visibleBytes = file.content.length + s.visibleBytes := by
  simp [Effect.apply, State.visibleBytes]

/-- A step moves bytes between the ledger, the visible objects and its own
reservation, and never towards an uncovered object. -/
theorem Move.balance (h : Move store s i a label effect a') (hsync : label ≠ .syncFault)
    (hre : label ≠ .reconcile) (hho : ∀ file ∈ s.temporary i, store.Holds a file)
    {used' : ℕ} (hld : (effect.apply i s).ledger = some used') :
    ∃ used, s.ledger = some used ∧ (store.owed a ≤ used →
      (effect.apply i s).visibleBytes + store.owed a' + used ≤
        s.visibleBytes + store.owed a + used') := by
  have hu : ∀ path, (s.remove path).visibleBytes ≤ s.visibleBytes := s.visibleBytes_remove_le
  cases h with
  | @writer job stage _ _ _ hm =>
    cases hm with
    | @reserve retry used hus hf =>
      cases hld
      refine ⟨used, hus, fun _ => ?_⟩
      change s.visibleBytes + store.incoming job + used ≤ s.visibleBytes + 0 + _
      omega
    | @release answer used hus =>
      cases hld
      refine ⟨used, hus, fun ho => ?_⟩
      change s.visibleBytes + 0 + used ≤
        s.visibleBytes + store.incoming job + (used - store.incoming job)
      omega
    | @rename file ht =>
      refine ⟨used', hld, fun _ => ?_⟩
      have hl : file.content.length = store.incoming job := (hho file ht).1.2
      rw [visibleBytes_rename, hl]
      change _ + 0 + _ ≤ s.visibleBytes + store.incoming job + used'
      omega
    | quarantine | replace =>
      refine ⟨used', hld, fun _ => ?_⟩
      have hle := hu (store.destination job)
      simp only [Effect.apply, owed]
      omega
    | tear | releaseTear => cases hld
    | syncFault => exact absurd rfl hsync
    | @close answer ha =>
      refine ⟨used', hld, fun _ => ?_⟩
      simp [owed, ha]
    | fail hs =>
      refine ⟨used', hld, fun _ => ?_⟩
      simp [owed]
    | abandon hs | abandonFile hs =>
      refine ⟨used', hld, fun _ => ?_⟩
      have ho : store.owed (.writer job stage) = store.incoming job := by
        cases stage <;> first | rfl | cases hs
      rw [ho]
      simp [owed, Effect.apply, State.visibleBytes]
    | _ =>
      refine ⟨used', hld, fun _ => ?_⟩
      simp [owed, Effect.apply, State.visibleBytes]
  | @collector phase caller _ _ _ hm =>
    cases hm with
    | discard | evict | sweep =>
      refine ⟨used', hld, fun _ => ?_⟩
      simp only [Effect.apply, owed]
      exact Nat.add_le_add_right (hu _) _
    | evictFault =>
      refine ⟨used', hld, fun _ => ?_⟩
      rw [owed_afterCollection]
      exact Nat.add_le_add_right (hu _) _
    | reconcile => exact absurd rfl hre
    | tear => cases hld
    | fail =>
      refine ⟨used', hld, fun _ => ?_⟩
      rw [owed_afterCollection]
      exact le_rfl
    | _ =>
      refine ⟨used', hld, fun _ => ?_⟩
      exact le_rfl
  | detached hb hm =>
    cases hm with
    | discard | evict | evictFault | sweep =>
      refine ⟨used', hld, fun _ => ?_⟩
      exact Nat.add_le_add_right (hu _) _
    | reconcile | tear => cases hb
    | _ =>
      refine ⟨used', hld, fun _ => ?_⟩
      exact le_rfl
  | reader hm =>
    cases hm with
    | quarantine =>
      refine ⟨used', hld, fun _ => ?_⟩
      exact Nat.add_le_add_right (hu _) _
    | _ =>
      refine ⟨used', hld, fun _ => ?_⟩
      exact le_rfl
  | cancel | crash =>
    refine ⟨used', hld, fun _ => ?_⟩
    simp [owed]
  | crashTorn => cases hld

theorem Move.reconcile_inv (h : Move store s i a .reconcile effect a') :
    ∃ bytes caller, a = .collector (.measured bytes) caller ∧ effect = .ledger (some bytes) ∧
      a' = afterCollection caller (.ok ()) := by
  cases h with
  | writer hm => cases hm
  | collector hm =>
    cases hm with
    | reconcile => exact ⟨_, _, rfl, rfl, rfl⟩
  | detached hb hm =>
    cases hm
    cases hb
  | reader hm => cases hm

theorem Effect.visibleBytes_le (hre : ∀ path file, effect ≠ .rename path file) (i : ℕ)
    (s : State ρ) : (effect.apply i s).visibleBytes ≤ s.visibleBytes := by
  cases effect with
  | rename path file => exact absurd rfl (hre path file)
  | unlink path => exact s.visibleBytes_remove_le path
  | _ => exact le_rfl

theorem Move.measured_inv {bytes : ℕ} {caller : Option (Job ρ)}
    (h : Move store s i a label effect (.collector (.measured bytes) caller)) :
    effect = .none ∧ s.visibleBytes ≤ bytes := by
  cases h with
  | writer hm => cases hm
  | @collector phase caller' _ _ _ hm =>
    generalize ha : Agent.collector (.measured bytes) caller = a' at hm
    cases hm with
    | below | measure =>
      cases ha
      exact ⟨rfl, Nat.le_add_right _ _⟩
    | evictFault | reconcile | tear | fail =>
      revert ha
      cases caller' <;> simp [afterCollection]
    | _ => cases ha
  | reader hm => cases hm

/-! ## Runs -/

theorem Measured.step {e : Event ρ} (h : Measured s) (hso : Sound store s)
    (hstep : Step store s e s') : Measured s' := by
  intro j bytes caller hj
  cases hstep with
  | @move i a a' label effect ha hm =>
    change (effect.apply i s).visibleBytes ≤ bytes
    rcases Transition.getElem?_set_cases hj with ⟨rfl, rfl⟩ | ⟨-, hj₀⟩
    · obtain ⟨rfl, hl⟩ := hm.measured_inv
      exact hl
    have hb := h j bytes caller hj₀
    have hr : ∀ path file, effect ≠ .rename path file := by
      rintro path file rfl
      exact hso.exclusive.no_rename hj₀ rfl ha hm
    exact (Effect.visibleBytes_le hr i s).trans hb
  | @start a hs =>
    rcases (Step.start hs).agents_cases hj with hj₀ | ⟨_, _, _, he, _⟩ | ⟨_, _, hs'⟩
    · exact h j bytes caller hj₀
    · cases he
    · cases hs'
  | reopen | tick => exact h j bytes caller hj

theorem owed_le_totalOwed (store : LocalCacheStore ρ) (ha : s.agents[i]? = some a) :
    store.owed a ≤ store.totalOwed s :=
  List.single_le_sum (fun _ _ => Nat.zero_le _) _ (List.mem_map_of_mem (mem_agents ha))

theorem totalOwed_eq_zero (hsh : ∀ a ∈ s.agents, a.holdsShared = false)
    (hla : ∀ a ∈ s.agents, a.lapsed = false) : store.totalOwed s = 0 := by
  apply List.sum_eq_zero
  intro n hn
  obtain ⟨a, ha, rfl⟩ := List.mem_map.mp hn
  exact owed_eq_zero (hsh a ha) (hla a ha)

theorem Covered.step {e : Event ρ} (h : Covered store s) (hso : Sound store s) (hme : Measured s)
    (hor : Orderly s e) (hstep : Step store s e s') : Covered store s' := by
  intro used' hl
  cases hstep with
  | @move i a a' label effect ha hm =>
    have hs := Transition.sum_map_set ha store.owed a'
    change (effect.apply i s).visibleBytes + ((s.agents.set i a').map store.owed).sum ≤ used'
    by_cases hr : label = .reconcile
    · subst hr
      obtain ⟨bytes, caller, rfl, rfl, rfl⟩ := hm.reconcile_inv
      obtain rfl := Option.some.inj hl
      have hz : store.totalOwed s = 0 := by
        apply totalOwed_eq_zero _ hor
        intro b hb
        obtain ⟨j, hj⟩ := List.mem_iff_getElem?.mp hb
        exact hso.exclusive.notShared ha hj rfl
      have hby := hme i bytes caller ha
      rw [owed_afterCollection] at hs
      unfold totalOwed at hz
      change s.visibleBytes + _ ≤ bytes
      omega
    · have hsy : label ≠ .syncFault := by
        rintro rfl
        exact hor
      obtain ⟨used, hu, hba⟩ := hm.balance hsy hr (hso.staged i a ha) hl
      have hc := h used hu
      have ho := owed_le_totalOwed store ha
      have hbl := hba (by omega)
      unfold totalOwed at hc ho
      omega
  | @start a hst =>
    have hc := h used' hl
    have ho : store.owed a = 0 := by
      cases hst <;> rfl
    have ht : store.totalOwed { s with agents := s.agents ++ [a] } = store.totalOwed s := by
      simp [totalOwed, ho]
    rw [ht]
    exact hc
  | @reopen rest hn hf =>
    cases hl
    have hz : store.totalOwed s = 0 := totalOwed_eq_zero (fun b hb => (hf b hb).2) hor
    change s.visibleBytes + store.totalOwed s ≤ _
    omega
  | tick => exact h used' hl

/-- In every run whose steps are orderly the ledger is at least what is visible. -/
theorem LocalCacheStore.ledger_covers (store : LocalCacheStore ρ) {init : State ρ → Prop}
    (hinit : ∀ s, init s → s.agents = [] ∧ ∀ used, s.ledger = some used → s.visibleBytes ≤ used)
    {history : List (State ρ × Event ρ)} (hrun : (store.system init).Run history s)
    (horderly : ∀ entry ∈ history, Orderly entry.1 entry.2) :
    ∀ used, s.ledger = some used → s.visibleBytes ≤ used := by
  have hall : Sound store s ∧ Measured s ∧ Covered store s := by
    apply hrun.invariant (I := fun s => Sound store s ∧ Measured s ∧ Covered store s) horderly
    · intro s hs
      obtain ⟨hagents, hledger⟩ := hinit s hs
      refine ⟨Sound.of_nil hagents, ?_, ?_⟩
      · intro i bytes caller hi
        simp [hagents] at hi
      · intro used hused
        simpa [totalOwed, hagents] using hledger used hused
    rintro s e s' horderly ⟨hsound, hmeasured, hcovered⟩ hstep
    exact ⟨hsound.step hstep, hmeasured.step hsound hstep,
      hcovered.step hsound hmeasured horderly hstep⟩
  intro used hused
  exact (Nat.le_add_right _ _).trans (hall.2.2 used hused)

/-- The record of the small store is published and covered. -/
theorem LocalCacheStore.ledger_covers_unit :
    ∃ history s, (tiny.system (· = State.fresh [])).Run history s ∧
      s.visibleBytes = 1 ∧ ∀ used, s.ledger = some used → s.visibleBytes ≤ used := by
  obtain ⟨history, hrun, horderly⟩ := Smoothly.run (P := Orderly) (s := State.fresh [])
    Smoothly.unit Starts.unit trivial fun _ _ => trivial
  refine ⟨history, _, hrun, rfl, tiny.ledger_covers ?_ hrun horderly⟩
  rintro s rfl
  exact ⟨rfl, fun used _ => Nat.zero_le used⟩

/-! ## Two ways to under-count -/

theorem Chain.unit : Chain tiny (fun _ => True) (State.fresh []) (renamedState tiny
      (State.fresh [.writer Job.unit (.locking false)]) Job.unit 0) :=
  (Chain.start .refl Starts.unit).trans (Smoothly.unit.chain fun _ => trivial)

/-- The directory cannot be synchronised after the rename, so the reservation of a
visible record is released. -/
theorem chain_syncFault : ∃ s, Chain tiny (fun _ => True) (State.fresh []) s ∧
      s.agents = [.writer Job.unit (.finished (.error .io))] ∧
      s.ledger = some 0 ∧ s.visibleBytes = 1 := by
  have h₁ := Chain.unit.move 0 rfl (.writer .syncFault)
  have h₂ := h₁.move 0 rfl (.writer (.close (by simp)))
  have h₃ := h₂.move 0 rfl (.writer (.release rfl))
  exact ⟨_, h₃, rfl, rfl, rfl⟩

/-- A second call finds the record.  Between the end of its work and its release a
collection records what it measured, so the release takes the bytes of the visible
record. -/
theorem chain_lateRelease : ∃ s, Chain tiny (fun _ => True) (State.fresh []) s ∧
      s.agents = [.writer Job.unit (.finished (.ok .written)),
        .writer Job.unit (.finished (.ok .alreadyPresent)), .collector (.finished (.ok ())) none] ∧
      s.ledger = some 0 ∧ s.visibleBytes = 1 := by
  have h₁ := Chain.unit.move 0 rfl (.writer .sync)
  have h₂ := h₁.move 0 rfl (.writer .commit)
  have h₃ := h₂.start Starts.unit
  have h₄ := h₃.move 1 rfl (.writer (.lock (by decide)))
  have h₅ := h₄.move 1 rfl (.writer (.reserve rfl (by decide) (by decide)))
  have h₆ := h₅.move 1 rfl (.writer (.create fun _ hb => by cases hb))
  have h₇ := h₆.move 1 rfl (.writer (.write rfl))
  have h₈ := h₇.move 1 rfl (.writer (.verify rfl trivial))
  have h₉ := h₈.move 1 rfl (.writer (.guard (by decide)))
  have h₁₀ := h₉.move 1 rfl (.writer (.occupied rfl))
  have h₁₁ := h₁₀.move 1 rfl (.writer (.sameAction rfl rfl (by decide) rfl))
  have h₁₂ := h₁₁.move 1 rfl (.writer (.close (by simp)))
  -- the collection runs to its end here
  have h₁₃ := h₁₂.start .collector
  have h₁₄ := h₁₃.move 2 rfl (.collector (.lock (by decide)))
  have h₁₅ := h₁₄.move 2 rfl (.collector (@CollectorMove.below _ _ _ _ _ 0 50 (by decide)
    (by decide)))
  have h₁₆ := h₁₅.move 2 rfl (.collector .reconcile)
  have h₁₇ := h₁₆.move 1 rfl (.writer (.release rfl))
  exact ⟨_, h₁₇, rfl, rfl, rfl⟩

/-- The ledger falls below the visible bytes after a failed synchronisation, and also
without any failure. -/
theorem LocalCacheStore.ledger_undercounts :
    (∃ history s, (tiny.system (· = State.fresh [])).Run history s ∧
      s.agents = [.writer Job.unit (.finished (.error .io))] ∧
      s.ledger = some 0 ∧ s.visibleBytes = 1) ∧
    ∃ history s, (tiny.system (· = State.fresh [])).Run history s ∧
      s.agents = [.writer Job.unit (.finished (.ok .written)),
        .writer Job.unit (.finished (.ok .alreadyPresent)), .collector (.finished (.ok ())) none] ∧
      s.ledger = some 0 ∧ s.visibleBytes = 1 := by
  constructor
  · obtain ⟨s, hchain, hs⟩ := chain_syncFault
    obtain ⟨history, hrun, -⟩ := hchain.run
    exact ⟨history, s, hrun, hs⟩
  obtain ⟨s, hchain, hs⟩ := chain_lateRelease
  obtain ⟨history, hrun, -⟩ := hchain.run
  exact ⟨history, s, hrun, hs⟩

end Octa.LocalStore
