import Mathlib.Data.Option.Basic
import Mathlib.Order.Lattice
import Octa.Foundation.Machine

/-!
# Locks that are taken in order

Any number of processes take and release shared and exclusive locks and work
under them.  A process waits for another one when its next lock is held by the
other in a conflicting mode.
-/

namespace Locking

open Transition List Function

inductive Mode where
  | shared
  | exclusive
  deriving DecidableEq, Repr

def Mode.Conflicts (left right : Mode) : Prop := left = .exclusive ∨ right = .exclusive

theorem Mode.Conflicts.symm {left right : Mode} (h : left.Conflicts right) : right.Conflicts left :=
  Or.symm h

/-- One instruction of a process; `work` stands for what the process does under the locks it
holds. -/
inductive Instruction (ν τ : Type) where
  | acquire (lock : ν) (mode : Mode)
  | release (lock : ν)
  | work (task : τ)
  deriving DecidableEq, Repr

variable {π κ ν τ : Type}

/-- The locks held after an instruction. -/
def Instruction.apply [DecidableEq ν] (held : List (ν × Mode)) : Instruction ν τ → List (ν × Mode)
  | .acquire lock mode => (lock, mode) :: held
  | .release lock => held.filter fun entry => entry.1 ≠ lock
  | .work _ => held

/-! ## Discipline -/

section Discipline

variable [LinearOrder ν]

/-- Every lock that a program takes is above the locks held at that point, and it works under
the locks that its tasks need. -/
def Disciplined (needs : τ → List (ν × Mode)) : List (ν × Mode) → List (Instruction ν τ) → Prop
  | _, [] => True
  | held, .acquire lock mode :: rest =>
    (∀ entry ∈ held, entry.1 < lock) ∧ Disciplined needs ((lock, mode) :: held) rest
  | held, .release lock :: rest => Disciplined needs (held.filter fun entry => entry.1 ≠ lock) rest
  | held, .work task :: rest => needs task ⊆ held ∧ Disciplined needs held rest

variable {needs : τ → List (ν × Mode)} {held : List (ν × Mode)} {locks : List ν}
variable {rest : List (Instruction ν τ)}

theorem Disciplined.acquire_all {mode : Mode}
    (habove : ∀ entry ∈ held, ∀ lock ∈ locks, entry.1 < lock)
    (hsort : locks.Pairwise (· < ·))
    (hrest : Disciplined needs ((locks.map fun lock => (lock, mode)).reverse ++ held) rest) :
    Disciplined needs held (locks.map (fun lock => .acquire lock mode) ++ rest) := by
  induction locks generalizing held with
  | nil => exact hrest
  | cons lock locks ih =>
    obtain ⟨hfirst, hsort⟩ := pairwise_cons.mp hsort
    refine ⟨fun entry he => habove entry he lock mem_cons_self, ih ?_ hsort ?_⟩
    · intro entry he other hother
      obtain rfl | he := mem_cons.mp he
      · exact hfirst other hother
      · exact habove entry he other (mem_cons_of_mem _ hother)
    · rwa [map_cons, reverse_cons, append_assoc, singleton_append] at hrest

theorem Disciplined.release_all
    (hrest : Disciplined needs (held.filter fun entry => entry.1 ∉ locks) rest) :
    Disciplined needs held (locks.map .release ++ rest) := by
  induction locks generalizing held with
  | nil => simpa using hrest
  | cons lock locks ih =>
    refine ih ?_
    rw [filter_filter]
    simpa [Bool.and_comm] using hrest

end Discipline

/-! ## Processes -/

structure Process (ν τ : Type) where
  program : List (Instruction ν τ)
  held : List (ν × Mode)

def Process.idle : Process ν τ := ⟨[], []⟩

def Process.next (p : Process ν τ) : Option ν :=
  match p.program with
  | .acquire lock _ :: _ => some lock
  | _ => none

/-- A process that holds what it takes for a task and has not given it up. -/
def Process.WorksOn (p : Process ν τ) (task : τ) : Prop := ∃ rest, p.program = .work task :: rest

inductive Action (π κ : Type) where
  | begin (p : π) (operation : κ)
  | advance (p : π)
  | stop (p : π)

/-- `p` waits until `q` gives up a lock. -/
def WaitsFor (s : π → Process ν τ) (p q : π) : Prop :=
  p ≠ q ∧ ∃ lock mode rest, (s p).program = .acquire lock mode :: rest ∧
    ∃ mode', (lock, mode') ∈ (s q).held ∧ mode.Conflicts mode'

def Free (s : π → Process ν τ) (p : π) (lock : ν) (mode : Mode) : Prop :=
  ∀ q, p ≠ q → ∀ mode', (lock, mode') ∈ (s q).held → ¬mode.Conflicts mode'

def Compatible (s : π → Process ν τ) : Prop :=
  ∀ p q lock mode mode', p ≠ q → (lock, mode) ∈ (s p).held → (lock, mode') ∈ (s q).held →
    ¬mode.Conflicts mode'

def Enabled (s : π → Process ν τ) (p : π) : Instruction ν τ → Prop
  | .acquire lock mode => Free s p lock mode
  | _ => True

open Classical in
/-- Processes that run operations; an idle process begins any of them, and a running one may
stop at any point. -/
noncomputable def machine [DecidableEq π] [DecidableEq ν] (code : κ → List (Instruction ν τ)) :
    Machine (π → Process ν τ) (Action π κ) where
  init _ := .idle
  step s
    | .begin p operation =>
      if (s p).program = [] ∧ (s p).held = [] then
        some (update s p ⟨code operation, []⟩)
      else none
    | .advance p =>
      match (s p).program with
      | instruction :: rest =>
        if Enabled s p instruction then
          some (update s p ⟨rest, instruction.apply (s p).held⟩)
        else none
      | [] => none
    | .stop p => some (update s p .idle)

section Runs

variable [DecidableEq π] [LinearOrder ν] {code : κ → List (Instruction ν τ)}
variable {needs : τ → List (ν × Mode)} {s s' : π → Process ν τ} {a : Action π κ}

theorem step_cases (h : (machine code).step s a = some s') : ∃ p proc, s' = update s p proc ∧
      ((∃ op, proc = ⟨code op, []⟩) ∨ proc = .idle ∨
        ∃ instruction rest, (s p).program = instruction :: rest ∧ Enabled s p instruction ∧
          proc = ⟨rest, instruction.apply (s p).held⟩) := by
  cases a with
  | begin p op =>
    simp only [machine] at h
    split at h
    · exact ⟨p, _, (Option.some.inj h).symm, .inl ⟨op, rfl⟩⟩
    · cases h
  | advance p =>
    simp only [machine] at h
    split at h
    · rename_i instruction rest hprogram
      split at h
      · rename_i henabled
        exact ⟨p, _, (Option.some.inj h).symm,
          .inr (.inr ⟨instruction, rest, hprogram, henabled, rfl⟩)⟩
      · cases h
    · cases h
  | stop p => exact ⟨p, _, (Option.some.inj h).symm, .inr (.inl rfl)⟩

theorem disciplined_of_reachable (hcode : ∀ op, Disciplined needs [] (code op))
    (h : (machine code).Reachable s) (p : π) : Disciplined needs (s p).held (s p).program := by
  refine h.invariant (I := fun s => ∀ p, Disciplined needs (s p).held (s p).program)
    (fun p => show Disciplined needs [] [] from trivial) ?_ p
  intro s a s' _ hall hs p
  obtain ⟨q, proc, rfl, hproc⟩ := step_cases hs
  by_cases hp : p = q
  · subst hp
    have hbefore := hall p
    rw [update_self]
    obtain ⟨op, rfl⟩ | rfl | ⟨instruction, rest, hprogram, -, rfl⟩ := hproc
    · exact hcode op
    · trivial
    · rw [hprogram] at hbefore
      cases instruction with
      | acquire lock mode => exact hbefore.2
      | release lock => exact hbefore
      | work task => exact hbefore.2
  · rw [update_of_ne hp]
    exact hall p

theorem needs_held_of_worksOn (hcode : ∀ op, Disciplined needs [] (code op))
    (h : (machine code).Reachable s) {p : π} {task : τ} (hwork : (s p).WorksOn task) :
    needs task ⊆ (s p).held := by
  obtain ⟨rest, hprogram⟩ := hwork
  have hd := disciplined_of_reachable hcode h p
  rw [hprogram] at hd
  exact hd.1

theorem compatible_of_reachable (h : (machine code).Reachable s) : Compatible s := by
  refine h.invariant (fun _ _ _ _ _ _ hp => absurd hp not_mem_nil) ?_
  intro s a s' _ hc hs
  obtain ⟨r, proc, rfl, hpro⟩ := step_cases hs
  -- the moved process against any other one
  have hm : ∀ {q lock mode mode'}, r ≠ q → (lock, mode) ∈ proc.held →
      (lock, mode') ∈ (s q).held → ¬mode.Conflicts mode' := by
    intro q lock mode mode' hne hr hq
    obtain ⟨op, rfl⟩ | rfl | ⟨instruction, rest, -, henabled, rfl⟩ := hpro
    · exact absurd hr not_mem_nil
    · exact absurd hr not_mem_nil
    cases instruction with
    | acquire taken mode₀ =>
      obtain he | hr := mem_cons.mp hr
      · obtain ⟨rfl, rfl⟩ := Prod.mk.inj he
        exact henabled q hne mode' hq
      · exact hc r q lock mode mode' hne hr hq
    | release lock' => exact hc r q lock mode mode' hne (mem_filter.mp hr).1 hq
    | work task => exact hc r q lock mode mode' hne hr hq
  intro p q lock mode mode' hpq hp hq
  by_cases hpr : p = r
  · subst hpr
    rw [update_self] at hp
    rw [update_of_ne hpq.symm] at hq
    exact hm hpq hp hq
  rw [update_of_ne hpr] at hp
  by_cases hqr : q = r
  · subst hqr
    rw [update_self] at hq
    exact fun hcn => hm (Ne.symm hpr) hq hp hcn.symm
  · rw [update_of_ne hqr] at hq
    exact hc p q lock mode mode' hpq hp hq

omit [DecidableEq π] in
theorem next_lt_of_waits (hord : ∀ p, Disciplined needs (s p).held (s p).program)
    {p q : π} (h : Relation.TransGen (WaitsFor s) p q) {lock : ν}
    (hnext : (s q).next = some lock) : ∃ lock', (s p).next = some lock' ∧ lock' < lock := by
  have ho : ∀ {p q : π} {lock : ν}, WaitsFor s p q → (s q).next = some lock →
      ∃ lock', (s p).next = some lock' ∧ lock' < lock := by
    intro p q lock hw hnext
    obtain ⟨-, lock', mode, rest, hp, mode', hh, -⟩ := hw
    refine ⟨lock', by rw [Process.next, hp], ?_⟩
    have hq := hord q
    unfold Process.next at hnext
    split at hnext
    · rename_i taken mode₀ rest₀ hq'
      cases hnext
      rw [hq'] at hq
      exact hq.1 (lock', mode') hh
    · cases hnext
  induction h generalizing lock with
  | single hw => exact ho hw hnext
  | tail _ hw ih =>
    obtain ⟨mid, hm, hl⟩ := ho hw hnext
    obtain ⟨lock', hl', hlt'⟩ := ih hm
    exact ⟨lock', hl', hlt'.trans hl⟩

theorem not_waits_cyclically (hcode : ∀ op, Disciplined needs [] (code op))
    (h : (machine code).Reachable s) (p : π) : ¬Relation.TransGen (WaitsFor s) p p := by
  intro hc
  obtain ⟨lock, hn⟩ : ∃ lock, (s p).next = some lock := by
    obtain ⟨q, ⟨-, lock, mode, rest, hp, -⟩, -⟩ := Relation.TransGen.head'_iff.mp hc
    exact ⟨lock, by rw [Process.next, hp]⟩
  obtain ⟨lock', hne', hl⟩ := next_lt_of_waits (disciplined_of_reachable hcode h) hc hn
  rw [hn] at hne'
  exact (Option.some.inj hne' ▸ hl).false

end Runs

end Locking
