import Octa.ResultCache.Publication
import Mathlib.Data.List.Induction

/-!
# Publication through the layered store

A local tier with one remote tier behind it.  The finalizer publishes a blob and
then the action that names it; the layered store turns each of the two calls
into calls of its tiers.
-/

namespace Octa.ResultCache

open Octa.Task List

variable {δ υ : Type}

deriving instance DecidableEq for ActionResult

inductive RemoteEvent (δ υ : Type) where
  /-- the blob is there: not missing, written or already present -/
  | confirmed (blob : δ)
  | wrote (result : ActionResult δ υ)
  deriving DecidableEq

/-- One publication of the finalizer, with the answers of the tiers to the calls
it can lead to. -/
structure Publication (δ υ : Type) where
  noOutputs : Bool
  action : δ
  captured : CapturedResult υ
  outcome : CacheOutcome δ
  deliver : ConsoleEvent → Bool
  packOutputs : Except CacheError δ
  /-- the result cannot be represented within the limits of the protocol -/
  metadataError : Option String
  localBlob : Except CacheError WriteOutcome
  localReader : Except CacheError Unit
  localAction : Except CacheError (Option (ActionResult δ υ))
  localWrite : Except CacheError WriteOutcome
  remoteMissing : Except CacheError (List δ)
  remoteBlob : Except CacheError WriteOutcome
  remoteAction : Except CacheError WriteOutcome

namespace Publication

variable [DecidableEq δ] [DecidableEq υ] (p : Publication δ υ)

/-! ## The layered store -/

def uploadBlob (blob : δ) (stored : WriteOutcome) :
    List (RemoteEvent δ υ) × Except CacheError WriteOutcome :=
  match p.localReader with
  | .error error => ([], .error error)
  | .ok () =>
    match p.remoteBlob with
    | .ok .conflict => ([], .ok .conflict)
    | .ok _ => ([.confirmed blob], .ok stored)
    | .error .cancelled => ([], .error .cancelled)
    | .error (.failed _) => ([], .ok stored)

def syncBlob (blob : δ) (stored : WriteOutcome) :
    List (RemoteEvent δ υ) × Except CacheError WriteOutcome :=
  match p.remoteMissing with
  | .ok missing =>
    if missing = [] then ([.confirmed blob], .ok stored)
    else if missing = [blob] then p.uploadBlob blob stored
    else ([], .ok stored)
  | .error .cancelled => ([], .error .cancelled)
  | .error (.failed _) => ([], .ok stored)

/-- `write_blob_if_absent`: a failure of the remote tier degrades to local durability. -/
def writeBlobIfAbsent (blob : δ) : List (RemoteEvent δ υ) × Except CacheError WriteOutcome :=
  match p.localBlob with
  | .error error => ([], .error error)
  | .ok .conflict => ([], .ok .conflict)
  | .ok outcome => p.syncBlob blob outcome

/-- The local half of `write_action_if_absent`, after the remote one. -/
def writeLocally (existing : Option (ActionResult δ υ)) (remote : Option WriteOutcome) :
    Except CacheError WriteOutcome := do
  let outcome ← if existing.isSome then pure .alreadyPresent else p.localWrite
  if outcome = .conflict then pure .conflict
  else if outcome = .written ∨ remote = some .written then pure .written
  else pure .alreadyPresent

/-- `write_action_if_absent`: the remote tier first, then the local one. -/
def writeActionIfAbsent (result : ActionResult δ υ) :
    List (RemoteEvent δ υ) × Except CacheError WriteOutcome :=
  match p.localAction with
  | .error error => ([], .error error)
  | .ok existing =>
    -- an existing local nondeterministic result is not published remotely
    if ∃ known ∈ existing, known ≠ result then ([], .ok .conflict)
    else
      match p.remoteAction with
      | .ok .conflict => ([], .ok .conflict)
      | .ok .written => ([.wrote result], p.writeLocally existing (some .written))
      | .ok .alreadyPresent => ([], p.writeLocally existing (some .alreadyPresent))
      | .error .cancelled => ([], .error .cancelled)
      | .error (.failed _) => ([], p.writeLocally existing none)

/-! ## The finalizer -/

/-- The services of the finalizer, with the layered store as its store.  The checks
before the bundle is packed have passed. -/
def request : FinalizeRequest δ υ where
  deliver := p.deliver
  snapshot := .ok p.action
  registeredResourcesError := fun _ => none
  packOutputs := p.packOutputs
  writeBlobIfAbsent := fun blob => (p.writeBlobIfAbsent blob).2
  metadataError := fun _ => p.metadataError
  writeActionIfAbsent := fun result => (p.writeActionIfAbsent result).2

/-- What the remote tier acknowledges while the bundle is published. -/
def bundleEvents : List (RemoteEvent δ υ) :=
  if p.noOutputs then []
  else
    match p.packOutputs with
    | .error _ => []
    | .ok blob => (p.writeBlobIfAbsent blob).1

/-- What the remote tier acknowledges while the action is published. -/
def actionEvents : List (RemoteEvent δ υ) :=
  match p.request.publishBundle p.noOutputs p.captured p.outcome with
  | .error _ => []
  | .ok bundle =>
    match (p.request.publishResult (actionResult p.action bundle p.captured) p.captured
        p.outcome).written with
    | none => []
    | some result => (p.writeActionIfAbsent result).1

def events : List (RemoteEvent δ υ) := p.bundleEvents ++ p.actionEvents

/-- What the remote tier has acknowledged after a sequence of publications. -/
def log (ps : List (Publication δ υ)) : List (RemoteEvent δ υ) := ps.flatMap events

def Confirmed (log : List (RemoteEvent δ υ)) : Prop :=
  ∀ before result after, log = before ++ .wrote result :: after →
    ∀ blob ∈ result.outputBundle, .confirmed blob ∈ before

/-! ## When the remote tier is left without a blob -/

/-- The remote tier answers a blob call of the publication with a failure, or
with a list that is no answer to the question. -/
def LosesBlob (blob : δ) : Prop :=
  match p.remoteMissing with
  | .ok missing =>
    missing ≠ [] ∧ (missing = [blob] →
      p.localReader = .ok () ∧ ∃ message, p.remoteBlob = .error (.failed message))
  | .error .cancelled => False
  | .error (.failed _) => True

/-- The remote tier accepts the action of the publication as a new one. -/
structure Accepted (blob : δ) : Prop where
  outputs : p.noOutputs = false
  packed : p.packOutputs = .ok blob
  stored : p.localBlob = .ok .written ∨ p.localBlob = .ok .alreadyPresent
  metadata : p.metadataError = none
  unknown : ∃ existing, p.localAction = .ok existing ∧
    ∀ known ∈ existing, known = actionResult p.action (some blob) p.captured
  accepted : p.remoteAction = .ok .written

section Spec

variable {p}

variable {blob : δ}

variable {outcome stored : WriteOutcome}

omit [DecidableEq δ] [DecidableEq υ] in
theorem uploadBlob_ok (h : (p.uploadBlob blob stored).2 = .ok outcome) (hou : outcome ≠ .conflict) :
    (p.uploadBlob blob stored).1 = [.confirmed blob] ∨ (p.uploadBlob blob stored).1 = [] ∧
      p.localReader = .ok () ∧ ∃ msg, p.remoteBlob = .error (.failed msg) := by
  unfold uploadBlob at h ⊢
  split at h
  · cases h
  next hr =>
  rw [hr]
  split at h
  · cases h
    exact absurd rfl hou
  · exact .inl rfl
  · cases h
  · next msg hrm => exact .inr ⟨rfl, rfl, msg, hrm⟩

omit [DecidableEq υ] in
theorem writeBlobIfAbsent_ok (h : (p.writeBlobIfAbsent blob).2 = .ok outcome)
    (hou : outcome ≠ .conflict) : (p.localBlob = .ok .written ∨ p.localBlob = .ok .alreadyPresent) ∧
      (.confirmed blob ∈ (p.writeBlobIfAbsent blob).1 ∨ p.LosesBlob blob) := by
  unfold writeBlobIfAbsent at h ⊢
  cases hl : p.localBlob with
  | error error =>
    rw [hl] at h
    cases h
  | ok stored =>
    have hs : stored ≠ .conflict → (p.syncBlob blob stored).2 = .ok outcome →
        .confirmed blob ∈ (p.syncBlob blob stored).1 ∨ p.LosesBlob blob := by
      intro _ hs
      unfold syncBlob at hs ⊢
      unfold LosesBlob
      cases hm : p.remoteMissing with
      | error error =>
        rw [hm] at hs
        cases error with
        | cancelled => cases hs
        | failed msg => exact .inr trivial
      | ok missing =>
        rw [hm] at hs
        dsimp only at hs ⊢
        by_cases hn : missing = []
        · rw [if_pos hn]
          exact .inl mem_cons_self
        rw [if_neg hn] at hs ⊢
        by_cases hse : missing = [blob]
        · rw [if_pos hse] at hs ⊢
          rcases uploadBlob_ok hs hou with hc | ⟨-, hls⟩
          · rw [hc]
            exact .inl mem_cons_self
          · exact .inr ⟨hn, fun _ => hls⟩
        · exact .inr ⟨hn, fun h => absurd h hse⟩
    rw [hl] at h
    cases stored with
    | written => exact ⟨.inl rfl, hs (by decide) h⟩
    | alreadyPresent => exact ⟨.inr rfl, hs (by decide) h⟩
    | conflict =>
      cases h
      exact absurd rfl hou

omit [DecidableEq υ] in
theorem writeBlobIfAbsent_of_loses (hst : p.localBlob = .ok stored) (hou : stored ≠ .conflict)
    (h : p.LosesBlob blob) : p.writeBlobIfAbsent blob = ([], .ok stored) := by
  have hs : p.syncBlob blob stored = ([], .ok stored) := by
    unfold LosesBlob at h
    unfold syncBlob
    cases hm : p.remoteMissing with
    | error error =>
      rw [hm] at h
      cases error with
      | cancelled => cases h
      | failed msg => rfl
    | ok missing =>
      rw [hm] at h
      obtain ⟨hn, hse⟩ := h
      dsimp only
      rw [if_neg hn]
      by_cases hb : missing = [blob]
      · obtain ⟨hr, msg, hrm⟩ := hse hb
        rw [if_pos hb, uploadBlob, hr, hrm]
      · rw [if_neg hb]
  unfold writeBlobIfAbsent
  rw [hst]
  cases stored with
  | written | alreadyPresent => exact hs
  | conflict => exact absurd rfl hou

/-- The store reports at most the action it was asked to write, and only if it
was unknown and the remote tier wrote it. -/
theorem writeActionIfAbsent_events (p : Publication δ υ) (result : ActionResult δ υ) :
    (p.writeActionIfAbsent result).1 = [.wrote result] ∧ p.remoteAction = .ok .written ∧
        (∃ old, p.localAction = .ok old ∧ ∀ known ∈ old, known = result) ∨
      (p.writeActionIfAbsent result).1 = [] ∧ ¬(p.remoteAction = .ok .written ∧
        ∃ old, p.localAction = .ok old ∧ ∀ known ∈ old, known = result) := by
  unfold writeActionIfAbsent
  cases hl : p.localAction with
  | error error =>
    right
    refine ⟨rfl, fun h => ?_⟩
    obtain ⟨-, old, he, -⟩ := h
    cases he
  | ok old =>
    by_cases hk : ∃ known ∈ old, known ≠ result
    · right
      dsimp only
      rw [if_pos hk]
      refine ⟨rfl, fun h => ?_⟩
      obtain ⟨-, old', he, hs⟩ := h
      cases he
      obtain ⟨known, hm, hne⟩ := hk
      exact hne (hs known hm)
    have hs : ∀ known ∈ old, known = result := by
      intro known hm
      by_contra hne
      exact hk ⟨known, hm, hne⟩
    dsimp only
    rw [if_neg hk]
    cases hr : p.remoteAction with
    | error error =>
      right
      refine ⟨by cases error <;> rfl, fun h => ?_⟩
      cases h.1
    | ok outcome =>
      cases outcome with
      | written => exact .inl ⟨rfl, rfl, old, rfl, hs⟩
      | alreadyPresent | conflict => exact .inr ⟨rfl, fun h => by cases h.1⟩

theorem publishBundle_ok {bundle : Option δ}
    (h : p.request.publishBundle p.noOutputs p.captured p.outcome = .ok bundle) :
    bundle = none ∨ ∃ blob outcome, bundle = some blob ∧ p.noOutputs = false ∧
      p.packOutputs = .ok blob ∧ (p.writeBlobIfAbsent blob).2 = .ok outcome ∧
      outcome ≠ .conflict := by
  unfold FinalizeRequest.publishBundle at h
  cases hn : p.noOutputs with
  | true =>
    rw [hn] at h
    cases h
    exact .inl rfl
  | false =>
    rw [hn] at h
    have hpc : p.request.packOutputs = p.packOutputs := rfl
    rw [hpc] at h
    cases hp : p.packOutputs with
    | error error =>
      rw [hp] at h
      cases error <;> cases h
    | ok blob =>
      rw [hp] at h
      have hw : p.request.writeBlobIfAbsent blob = (p.writeBlobIfAbsent blob).2 := rfl
      cases hr : (p.writeBlobIfAbsent blob).2 with
      | error error =>
        simp only [hw, hr, Bool.false_eq_true, if_false] at h
        cases error <;> cases h
      | ok outcome =>
        simp only [hw, hr, Bool.false_eq_true, if_false] at h
        cases outcome with
        | written | alreadyPresent =>
          cases h
          exact .inr ⟨blob, _, rfl, rfl, rfl, hr, by decide⟩
        | conflict => cases h

theorem publishResult_written {result : ActionResult δ υ} :
    (p.request.publishResult result p.captured p.outcome).written =
      if p.metadataError = none then some result else none := by
  unfold FinalizeRequest.publishResult
  have hm : p.request.metadataError result = p.metadataError := rfl
  rw [hm]
  cases p.metadataError <;> rfl

theorem actionEvents_cases (p : Publication δ υ) :
    p.actionEvents = [] ∨ ∃ result, p.actionEvents = [.wrote result] ∧
      ∀ blob ∈ result.outputBundle, p.Accepted blob ∧
        (.confirmed blob ∈ p.bundleEvents ∨ p.LosesBlob blob) := by
  unfold actionEvents
  cases hb : p.request.publishBundle p.noOutputs p.captured p.outcome with
  | error returned => exact .inl rfl
  | ok bundle =>
    dsimp only
    rw [publishResult_written]
    by_cases hm : p.metadataError = none
    · rw [if_pos hm]
      dsimp only
      rcases p.writeActionIfAbsent_events (actionResult p.action bundle p.captured) with
        ⟨hw, hr, hu⟩ | ⟨hn, -⟩
      · refine .inr ⟨_, hw, fun blob hbl => ?_⟩
        obtain rfl : bundle = some blob := hbl
        rcases publishBundle_ok hb with hn | ⟨blob', outcome, he, ho, hp, hwr, hot⟩
        · cases hn
        cases he
        obtain ⟨hs, hc⟩ := writeBlobIfAbsent_ok hwr hot
        refine ⟨⟨ho, hp, hs, hm, hu, hr⟩, ?_⟩
        unfold bundleEvents
        rw [ho, hp]
        exact hc
      · exact .inl hn
    · rw [if_neg hm]
      exact .inl rfl

theorem events_of_loses (hacc : p.Accepted blob) (hlo : p.LosesBlob blob) :
    p.events = [.wrote (actionResult p.action (some blob) p.captured)] := by
  obtain ⟨stored, hs, ho⟩ : ∃ stored, p.localBlob = .ok stored ∧ stored ≠ .conflict := by
    rcases hacc.stored with h | h
    · exact ⟨_, h, by decide⟩
    · exact ⟨_, h, by decide⟩
  have hb := writeBlobIfAbsent_of_loses hs ho hlo
  have hbu : p.request.publishBundle p.noOutputs p.captured p.outcome = .ok (some blob) := by
    have hp : p.request.packOutputs = .ok blob := hacc.packed
    have hwr : p.request.writeBlobIfAbsent blob = .ok stored := by
      change (p.writeBlobIfAbsent blob).2 = _
      rw [hb]
    unfold FinalizeRequest.publishBundle
    rw [hacc.outputs, hp]
    simp only [Bool.false_eq_true, if_false, hwr]
    rcases hacc.stored with h | h
    · cases hs.symm.trans h
      rfl
    · cases hs.symm.trans h
      rfl
  have ha : p.actionEvents = [.wrote (actionResult p.action (some blob) p.captured)] := by
    unfold actionEvents
    rw [hbu]
    dsimp only
    rw [publishResult_written, if_pos hacc.metadata]
    dsimp only
    rcases p.writeActionIfAbsent_events (actionResult p.action (some blob) p.captured) with
      ⟨hw, -, -⟩ | ⟨-, hn⟩
    · exact hw
    · exact absurd ⟨hacc.accepted, hacc.unknown⟩ hn
  unfold events bundleEvents
  rw [hacc.outputs, hacc.packed, ha]
  simp only [Bool.false_eq_true, if_false, hb]
  rfl

end Spec

/-! ## Sequences of publications -/

/-- No publication leaves the remote tier with an action whose blob it failed to
take, unless the blob was confirmed by an earlier one. -/
def Supplied (ps : List (Publication δ υ)) : Prop :=
  ∀ before p after, ps = before ++ p :: after →
    ∀ blob, p.Accepted blob → p.LosesBlob blob → .confirmed blob ∈ log before

omit [DecidableEq υ] in
theorem wrote_notMem_bundleEvents (p : Publication δ υ) (result : ActionResult δ υ) :
    .wrote result ∉ p.bundleEvents := by
  unfold bundleEvents writeBlobIfAbsent syncBlob uploadBlob
  repeat' split
  all_goals simp

omit [DecidableEq δ] [DecidableEq υ] in
theorem confirmed_append {l l' : List (RemoteEvent δ υ)} :
    Confirmed (l ++ l') ↔ Confirmed l ∧ ∀ before result after,
      l' = before ++ .wrote result :: after →
        ∀ blob ∈ result.outputBundle, .confirmed blob ∈ l ++ before := by
  constructor
  · intro h
    constructor
    · intro before result after he
      apply h before result (after ++ l')
      rw [he, append_assoc, cons_append]
    intro before result after he
    apply h (l ++ before) result after
    rw [he, append_assoc]
  intro ⟨h, h'⟩ before result after he
  rcases append_eq_append_iff.mp he with ⟨front, hb, hl'⟩ | ⟨front, hl, ha⟩
  · rw [hb]
    exact h' front result after hl'
  cases front with
  | nil =>
    rw [append_nil] at hl
    rw [← hl]
    have hr := h' [] result after ha.symm
    rwa [append_nil] at hr
  | cons event front =>
    obtain ⟨rfl, -⟩ := List.cons.inj ha
    exact h before result front hl

theorem confirmed_log_concat (ps : List (Publication δ υ)) (p : Publication δ υ) :
    Confirmed (log (ps ++ [p])) ↔ Confirmed (log ps) ∧
      ∀ blob, p.Accepted blob → p.LosesBlob blob → .confirmed blob ∈ log ps := by
  have hl : log (ps ++ [p]) = log ps ++ p.events := by
    simp [log]
  rw [hl, confirmed_append]
  refine and_congr_right fun _ => ?_
  constructor
  · intro h blob ha hlo
    have he := events_of_loses ha hlo
    have hm := h [] _ [] he blob rfl
    rwa [append_nil] at hm
  intro h before result after heq blob hbl
  rcases p.actionEvents_cases with hn | ⟨result', hw, hr⟩
  · exfalso
    apply p.wrote_notMem_bundleEvents result
    rw [events, hn, append_nil] at heq
    rw [heq]
    exact mem_append_right _ mem_cons_self
  rw [events, hw] at heq
  -- the action is the last event, so everything of the bundle is before it
  have hs : before = p.bundleEvents ∧ result = result' := by
    rcases append_eq_append_iff.mp heq with ⟨front, hb, hre⟩ | ⟨front, hbu, hre⟩
    · cases front with
      | nil =>
        obtain ⟨hev, -⟩ := List.cons.inj hre
        exact ⟨by rw [hb, append_nil], (RemoteEvent.wrote.inj hev).symm⟩
      | cons event front =>
        have hle := congrArg List.length hre
        simp at hle
    cases front with
    | nil =>
      rw [append_nil] at hbu
      obtain ⟨hev, -⟩ := List.cons.inj hre
      exact ⟨hbu.symm, RemoteEvent.wrote.inj hev⟩
    | cons event front =>
      obtain ⟨rfl, -⟩ := List.cons.inj hre
      exfalso
      apply p.wrote_notMem_bundleEvents result
      rw [hbu]
      exact mem_append_right _ mem_cons_self
  obtain ⟨rfl, rfl⟩ := hs
  obtain ⟨ha, hc | hlo⟩ := hr blob hbl
  · exact mem_append_right _ hc
  · exact mem_append_left _ (h blob ha hlo)

theorem supplied_concat (ps : List (Publication δ υ)) (p : Publication δ υ) :
    Supplied (ps ++ [p]) ↔ Supplied ps ∧
      ∀ blob, p.Accepted blob → p.LosesBlob blob → .confirmed blob ∈ log ps := by
  constructor
  · intro h
    refine ⟨fun before q after he => h before q (after ++ [p]) ?_, h ps p [] rfl⟩
    rw [he, append_assoc, cons_append]
  intro ⟨h, hl⟩ before q after he
  rcases eq_nil_or_concat after with rfl | ⟨init, last, rfl⟩
  · obtain ⟨rfl, hq⟩ := append_inj' he rfl
    obtain ⟨rfl, -⟩ := List.cons.inj hq
    exact hl
  rw [concat_eq_append, ← cons_append, ← append_assoc] at he
  obtain ⟨rfl, -⟩ := append_inj' he rfl
  exact h before q init rfl

/-- The remote tier receives no dangling action exactly when no action is
accepted after its blob was lost. -/
theorem confirmed_iff_supplied (ps : List (Publication δ υ)) :
    Confirmed (log ps) ↔ Supplied ps := by
  induction ps using List.reverseRec with
  | nil =>
    constructor
    · intro _ before p after heq
      simp at heq
    · intro _ before result after heq
      simp [log] at heq
  | append_singleton ps p ih => rw [confirmed_log_concat, supplied_concat, ih]

/-- A remote tier that is unavailable for the blob and back for the action. -/
def recovering : Publication ℕ ℕ where
  noOutputs := false
  action := 1
  captured := ⟨"", .empty⟩
  outcome := .miss 1 .actionNotFound
  deliver := fun _ => true
  packOutputs := .ok 7
  metadataError := none
  localBlob := .ok .written
  localReader := .ok ()
  localAction := .ok none
  localWrite := .ok .written
  remoteMissing := .error (.failed "unavailable")
  remoteBlob := .error (.failed "unavailable")
  remoteAction := .ok .written

theorem recovering_not_confirmed : ¬Confirmed (log [recovering]) := by
  intro h
  have hmem := h [] (actionResult 1 (some 7) recovering.captured) [] (by decide +kernel) 7 rfl
  cases hmem

end Publication

end Octa.ResultCache
