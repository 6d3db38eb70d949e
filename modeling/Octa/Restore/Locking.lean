import Mathlib.Data.List.Dedup
import Mathlib.Order.WithBot
import Octa.Cache.RelativePath
import Octa.Foundation.OrderedLocks

/-!
# The locks of output roots

A restore, a publication and a recovery lock the roots they work on together
with every ancestor of these roots below the workspace.
-/

namespace Octa.Restore

open Cache Locking List

/-- The keys of the components of a root, after the components in `pre`. -/
def prefixKeys (pre : String) : List String → List String
  | [] => []
  | component :: rest =>
    let key := if pre.isEmpty then component else pre ++ "/" ++ component
    key :: prefixKeys key rest

def outputKeys (roots : List RelativePath) : List String :=
  roots.flatMap fun root => prefixKeys "" root.components

section Stripes

variable {ω : Type} [LinearOrder ω]

/-- The names of the lock files, in the order in which they are locked.  `shardName` is the hash
and `workspaceKey` the canonical path of the workspace. -/
def outputStripes (shardName : List UInt8 → ω) (workspaceKey : List UInt8)
    (roots : List RelativePath) : List ω :=
  (((outputKeys roots).map fun key =>
    shardName (workspaceKey ++ [0] ++ key.toUTF8.toList)).dedup).insertionSort (· ≤ ·)

abbrev LockFile (ω : Type) := WithBot ω

def stripeFile (stripe : ω) : LockFile ω := WithBot.some stripe

/-- A canonical workspace and the roots in it that are worked on under one guard. -/
abbrev Journal := List UInt8 × List RelativePath

abbrev LockInstruction (ω : Type) := Instruction (LockFile ω) Journal

def lockOutputPaths (shardName : List UInt8 → ω) (workspaceKey : List UInt8)
    (roots : List RelativePath) : List (LockInstruction ω) :=
  (outputStripes shardName workspaceKey roots).map fun stripe =>
    .acquire (stripeFile stripe) .exclusive

def lockRecovery (exclusive : Bool) : LockInstruction ω :=
  .acquire ⊥ (if exclusive then .exclusive else .shared)

/-- The stripes are unlocked when the guard of `lock_output_paths` is dropped. -/
def dropOutputPaths (shardName : List UInt8 → ω) (workspaceKey : List UInt8)
    (roots : List RelativePath) : List (LockInstruction ω) :=
  (outputStripes shardName workspaceKey roots).map fun stripe => .release (stripeFile stripe)

end Stripes

/-- What a process does with the outputs of tasks.  A recovery goes through the journals whose
workspace still exists. -/
inductive Operation where
  | restore (workspace : List UInt8) (roots : List RelativePath)
  | publication (workspace : List UInt8) (roots : List RelativePath)
  | recovery (journals : List Journal)

section Operations

variable {ω : Type} [LinearOrder ω] (shardName : List UInt8 → ω)

/-- The outputs are read or replaced under the guard of `lock_output_paths`. -/
def lockedOutputs (journal : Journal) : List (LockInstruction ω) :=
  lockOutputPaths shardName journal.1 journal.2 ++
    .work journal :: dropOutputPaths shardName journal.1 journal.2

/-- The locks of an operation that runs to its end; an error drops all of them at once. -/
def lockProgram : Operation → List (LockInstruction ω)
  | .restore workspace roots =>
    lockRecovery false :: (lockedOutputs shardName (workspace, roots) ++ [.release ⊥])
  | .publication workspace roots => lockedOutputs shardName (workspace, roots)
  | .recovery journals =>
    lockRecovery true :: (journals.flatMap (lockedOutputs shardName) ++ [.release ⊥])

end Operations

/-! ## Overlapping roots share a stripe -/

theorem prefixKeys_append (pre : String) (xs ys : List String) :
    ∃ keys, prefixKeys pre (xs ++ ys) = prefixKeys pre xs ++ keys := by
  induction xs generalizing pre with
  | nil => exact ⟨prefixKeys pre ys, rfl⟩
  | cons comp xs ih =>
    obtain ⟨keys, hk⟩ := ih (if pre.isEmpty then comp else pre ++ "/" ++ comp)
    exact ⟨keys, congrArg (List.cons _) hk⟩

theorem exists_key_of_contains {root path : RelativePath} (h : contains root path = true) :
    ∃ key ∈ prefixKeys "" root.components, key ∈ prefixKeys "" path.components := by
  obtain ⟨rest, hr⟩ : ∃ rest, path.components = root.components ++ rest := by
    obtain he | hanc := (Bool.or_eq_true _ _).mp h
    · rw [of_decide_eq_true he]
      exact ⟨[], (append_nil _).symm⟩
    · obtain ⟨rest, -, hr⟩ := (isStrictAncestor_iff root path).mp hanc
      exact ⟨rest, hr⟩
  obtain ⟨keys, hke⟩ := prefixKeys_append "" root.components rest
  obtain ⟨comp, components, hro⟩ := exists_cons_of_ne_nil (components_ne_nil root)
  have hm : ∃ key, key ∈ prefixKeys "" root.components := by
    rw [hro, prefixKeys]
    exact ⟨_, mem_cons_self⟩
  obtain ⟨key, hk⟩ := hm
  refine ⟨key, hk, ?_⟩
  rw [hr, hke]
  exact mem_append_left _ hk

section Sharing

variable {ω : Type} [LinearOrder ω] (shardName : List UInt8 → ω) (workspace : List UInt8)

theorem mem_outputStripes {rs : List RelativePath} {stripe : ω} :
    stripe ∈ outputStripes shardName workspace rs ↔
      ∃ root ∈ rs, ∃ key ∈ prefixKeys "" root.components,
        shardName (workspace ++ [0] ++ key.toUTF8.toList) = stripe := by
  rw [outputStripes, mem_insertionSort, mem_dedup, mem_map]
  constructor
  · rintro ⟨key, hk, rfl⟩
    obtain ⟨root, hr, hk⟩ := mem_flatMap.mp hk
    exact ⟨root, hr, key, hk, rfl⟩
  · rintro ⟨root, hr, key, hk, rfl⟩
    exact ⟨key, mem_flatMap.mpr ⟨root, hr, hk⟩, rfl⟩

/-- Two lists of roots of which one has a root that contains a root of the other. -/
def Overlap (roots roots' : List RelativePath) : Prop :=
  ∃ root ∈ roots, ∃ root' ∈ roots', contains root root' = true ∨ contains root' root = true

instance (roots roots' : List RelativePath) : Decidable (Overlap roots roots') :=
  inferInstanceAs (Decidable (∃ root ∈ roots, ∃ root' ∈ roots', _))

theorem exists_common_stripe {rs roots' : List RelativePath} (h : Overlap rs roots') :
    ∃ stripe ∈ outputStripes shardName workspace rs,
      stripe ∈ outputStripes shardName workspace roots' := by
  obtain ⟨root, hr, root', hr', hc⟩ := h
  obtain ⟨key, hk, hk'⟩ : ∃ key ∈ prefixKeys "" root.components,
      key ∈ prefixKeys "" root'.components := by
    obtain hc | hc := hc
    · exact exists_key_of_contains hc
    · obtain ⟨key, hk, hk'⟩ := exists_key_of_contains hc
      exact ⟨key, hk', hk⟩
  exact ⟨_, (mem_outputStripes _ _).mpr ⟨root, hr, key, hk, rfl⟩,
    (mem_outputStripes _ _).mpr ⟨root', hr', key, hk', rfl⟩⟩

/-! ## Operations lock in order -/

theorem outputStripes_sorted (rs : List RelativePath) :
    (outputStripes shardName workspace rs).Pairwise (· < ·) := by
  have hs := pairwise_insertionSort (· ≤ ·) (((outputKeys rs).map fun key =>
    shardName (workspace ++ [0] ++ key.toUTF8.toList)).dedup)
  have hn : (outputStripes shardName workspace rs).Nodup :=
    (perm_insertionSort _ _).nodup_iff.mpr (nodup_dedup _)
  exact hs.imp₂ (fun _ _ hl hne => lt_of_le_of_ne hl hne) hn

/-- The locks that the work on a journal needs. -/
def outputLocks (journal : Journal) : List (LockFile ω × Mode) :=
  (outputStripes shardName journal.1 journal.2).map fun stripe => (stripeFile stripe, .exclusive)

theorem disciplined_lockedOutputs {held : List (LockFile ω × Mode)}
    (hheld : ∀ entry ∈ held, entry.1 = ⊥) (journal : Journal) {rest : List (LockInstruction ω)}
    (hrest : Disciplined (outputLocks shardName) held rest) :
    Disciplined (outputLocks shardName) held (lockedOutputs shardName journal ++ rest) := by
  let stripes : List (LockFile ω) := (outputStripes shardName journal.1 journal.2).map stripeFile
  have hacquire : lockOutputPaths shardName journal.1 journal.2 =
      stripes.map fun lock => .acquire lock .exclusive := by
    rw [lockOutputPaths, map_map]
    rfl
  have hrelease : dropOutputPaths shardName journal.1 journal.2 = stripes.map .release := by
    rw [dropOutputPaths, map_map]
    rfl
  have hlocks : outputLocks shardName journal = stripes.map fun lock => (lock, .exclusive) := by
    rw [outputLocks, map_map]
    rfl
  have hsort : stripes.Pairwise (· < ·) :=
    pairwise_map.mpr ((outputStripes_sorted shardName journal.1 journal.2).imp
      fun hlt => WithBot.coe_lt_coe.mpr hlt)
  have hbot : ∀ entry ∈ held, ∀ stripe ∈ stripes, entry.1 < stripe := by
    intro entry he stripe hstripe
    obtain ⟨name, -, rfl⟩ := mem_map.mp hstripe
    rw [hheld entry he]
    exact WithBot.bot_lt_coe name
  rw [lockedOutputs, append_assoc, hacquire, cons_append, hrelease]
  refine Disciplined.acquire_all hbot hsort ⟨?_, Disciplined.release_all ?_⟩
  · rw [hlocks]
    intro entry he
    exact mem_append_left _ (mem_reverse.mpr he)
  -- what is released is what was acquired
  have hheld' : held.filter (fun entry => entry.1 ∉ stripes) = held := by
    refine filter_eq_self.mpr fun entry he => decide_eq_true fun hstripe => ?_
    exact (hbot entry he _ hstripe).false
  have hnone : ((stripes.map fun lock => (lock, Mode.exclusive)).reverse.filter
      fun entry => entry.1 ∉ stripes) = [] := by
    simp
  rwa [filter_append, hheld', hnone, nil_append]

theorem disciplined_lockProgram (op : Operation) :
    Disciplined (outputLocks shardName) [] (lockProgram shardName op) := by
  have hbot (mode : Mode) : ∀ entry ∈ [((⊥ : LockFile ω), mode)], entry.1 = ⊥ := by
    intro entry he
    rw [mem_singleton.mp he]
  have hnone : ∀ entry ∈ ([] : List (LockFile ω × Mode)), entry.1 = ⊥ :=
    fun _ h => absurd h not_mem_nil
  have hend (mode : Mode) :
      Disciplined (outputLocks shardName) [((⊥ : LockFile ω), mode)] [.release ⊥] := trivial
  cases op with
  | restore workspace roots =>
    exact ⟨fun _ h => absurd h not_mem_nil, disciplined_lockedOutputs shardName (hbot _) _ (hend _)⟩
  | publication workspace roots =>
    have hdone : Disciplined (outputLocks shardName) ([] : List (LockFile ω × Mode)) [] := trivial
    have h := disciplined_lockedOutputs shardName hnone (workspace, roots) hdone
    rwa [append_nil] at h
  | recovery journals =>
    refine ⟨fun _ h => absurd h not_mem_nil, ?_⟩
    induction journals with
    | nil => exact hend _
    | cons journal journals ih =>
      rw [flatMap_cons, append_assoc]
      exact disciplined_lockedOutputs shardName (hbot _) journal ih

end Sharing

/-! ## The locks of concurrent processes -/

section Concurrency

variable {ω : Type} [LinearOrder ω]

/-- The state root as the processes that share it see it. -/
noncomputable def stateRoot (π : Type) [DecidableEq π] (shardName : List UInt8 → ω) :
    Transition.Machine (π → Process (LockFile ω) Journal) (Locking.Action π Operation) :=
  Locking.machine (lockProgram shardName)

/-- The guards of overlapping roots lock a common stripe, two processes never work on overlapping
roots, and no process waits for itself through others. -/
theorem output_locks_exclusive_and_deadlock_free (π : Type) [DecidableEq π]
    (shardName : List UInt8 → ω) : (∀ workspace roots roots', Overlap roots roots' →
      ∃ stripe, .acquire stripe .exclusive ∈ lockOutputPaths shardName workspace roots ∧
        .acquire stripe .exclusive ∈ lockOutputPaths shardName workspace roots') ∧
    ∀ s, (stateRoot π shardName).Reachable s →
      (∀ p q workspace roots roots', p ≠ q → Overlap roots roots' →
        (s p).WorksOn (workspace, roots) → ¬(s q).WorksOn (workspace, roots')) ∧
      ∀ p, ¬Relation.TransGen (WaitsFor s) p p := by
  refine ⟨?_, fun s hs => ⟨?_, ?_⟩⟩
  · intro workspace roots roots' hoverlap
    obtain ⟨stripe, hstripe, hstripe'⟩ := exists_common_stripe shardName workspace hoverlap
    exact ⟨_, mem_map.mpr ⟨stripe, hstripe, rfl⟩, mem_map.mpr ⟨stripe, hstripe', rfl⟩⟩
  · intro p q workspace roots roots' hpq hoverlap hp hq
    obtain ⟨stripe, hstripe, hstripe'⟩ := exists_common_stripe shardName workspace hoverlap
    have hheld := needs_held_of_worksOn (disciplined_lockProgram shardName) hs hp
      (mem_map.mpr ⟨stripe, hstripe, rfl⟩)
    have hheld' := needs_held_of_worksOn (disciplined_lockProgram shardName) hs hq
      (mem_map.mpr ⟨stripe, hstripe', rfl⟩)
    exact compatible_of_reachable hs p q _ _ _ hpq hheld hheld' (.inl rfl)
  · exact not_waits_cyclically (disciplined_lockProgram shardName) hs

def outerRoot : RelativePath := ⟨"lib", by decide +kernel⟩

def innerRoot : RelativePath := ⟨"lib/bin", by decide +kernel⟩

/-- The first process publishes `lib` and the second one restores `lib/bin`, for a hash that is
the length of the key. -/
def restoreWaits : Bool → Process (LockFile Nat) Journal
  | true => ⟨[.work ([0x2f], [outerRoot]), .release (stripeFile 5)], [(stripeFile 5, .exclusive)]⟩
  | false => ⟨[.acquire (stripeFile 5) .exclusive, .acquire (stripeFile 9) .exclusive,
      .work ([0x2f], [innerRoot]), .release (stripeFile 5), .release (stripeFile 9), .release ⊥],
      [(⊥, .shared)]⟩

theorem reachable_restoreWaits : (stateRoot Bool List.length).Reachable restoreWaits := by
  have hpublish : lockProgram List.length (.publication [0x2f] [outerRoot]) =
      .acquire (stripeFile 5) .exclusive :: (restoreWaits true).program := by decide +kernel
  have hrestore : lockProgram List.length (.restore [0x2f] [innerRoot]) =
      .acquire ⊥ .shared :: (restoreWaits false).program := by decide +kernel
  have hexec : (stateRoot Bool List.length).exec [.begin true (.publication [0x2f] [outerRoot]),
      .advance true, .begin false (.restore [0x2f] [innerRoot]), .advance false]
      (stateRoot Bool List.length).init = some restoreWaits := by
    simp [Transition.Machine.exec, stateRoot, Locking.machine, hpublish, hrestore, Enabled, Free,
      Process.idle, Instruction.apply, stripeFile, funext_iff, restoreWaits]
  exact ⟨_, Transition.Machine.Run.start.exec_trace hexec⟩

theorem nested_roots_wait :
    (∃ stripe, .acquire stripe .exclusive ∈ lockOutputPaths List.length [0x2f] [outerRoot] ∧
      .acquire stripe .exclusive ∈ lockOutputPaths List.length [0x2f] [innerRoot]) ∧
    (restoreWaits true).WorksOn ([0x2f], [outerRoot]) ∧ WaitsFor restoreWaits false true ∧
    ¬(restoreWaits false).WorksOn ([0x2f], [innerRoot]) ∧
    ¬Relation.TransGen (WaitsFor restoreWaits) false false := by
  have hoverlap : Overlap [outerRoot] [innerRoot] := by decide +kernel
  have hwork : (restoreWaits true).WorksOn ([0x2f], [outerRoot]) := ⟨_, rfl⟩
  obtain ⟨hshare, hreach⟩ := output_locks_exclusive_and_deadlock_free Bool List.length
  obtain ⟨hexclusive, hacyclic⟩ := hreach _ reachable_restoreWaits
  refine ⟨hshare [0x2f] _ _ hoverlap, hwork, ⟨by decide, stripeFile 5, .exclusive, _, rfl,
    .exclusive, mem_singleton_self _, .inl rfl⟩, ?_, hacyclic false⟩
  exact hexclusive true false [0x2f] _ _ (by decide) hoverlap hwork

end Concurrency

end Octa.Restore
