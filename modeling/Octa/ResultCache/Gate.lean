import Octa.ResultCache.Invocation

/-!
# The publication gate

Which runs of a cacheable invocation may write an action result, and what a hit
means for the body.
-/

namespace Octa.ResultCache

open Octa.Task Transition List

variable {δ υ ν : Type}

namespace CacheableInvocation

variable {task : CacheableInvocation δ υ} {options : RunOptions}
  {results : InvocationResults υ ν} {history : List (InvocationState δ υ ν × Action δ υ ν)}
  {s s' : InvocationState δ υ ν} {a : Action δ υ ν}

structure Trace (task : CacheableInvocation δ υ) (options : RunOptions)
    (history : List (InvocationState δ υ ν × Action δ υ ν)) (s : InvocationState δ υ ν) :
    Prop where
  unlooked : s.lookedUp = false → s.cache = .init
  looked : ∀ found, s.cache.lookup = some found → shouldRun task.ancestors = true ∧
    s.cache.probe = options.cacheProbe ∧ ∃ before request,
      (before, Action.lookup request) ∈ history ∧
        request.lookup options options.cacheProbe = .ok found
  unblocked : s.cache.publicationBlocked = none →
    ∀ entry ∈ history, entry.2 ≠ Action.deferredFailure
  captured : ∀ position captured, (position, captured) ∈ s.cache.captures.entries →
    ∃ node ∈ task.command.commandNodes, node.position = position ∧
      ∀ output ∈ captured.outputs.task.entries, output.name ∈ node.exports.map Prod.fst
  resources : ∀ outputs, s.cache.resources = some outputs → outputs.task.entries = []

/-- What a step does to the cache state.  Only the lookup sets the lookup state
and the probe flag. -/
inductive CacheEffect (task : CacheableInvocation δ υ) (s : InvocationState δ υ ν) :
    Action δ υ ν → CacheState δ υ → Prop where
  | kept {action : Action δ υ ν} : action ≠ .deferredFailure → CacheEffect task s action s.cache
  | captured {node answers stdout outputs} : s.lookedUp = true →
      node ∈ task.command.commandNodes →
      (∀ output ∈ outputs.task.entries, output.name ∈ node.exports.map Prod.fst) →
      CacheEffect task s (.finish node answers) (s.cache.recordCommand node.position stdout outputs)
  | resources {artifacts reports} : s.lookedUp = true →
      CacheEffect task s (.resources artifacts reports)
        (s.cache.recordResources ⟨[], .empty, artifacts, reports⟩)
  | blocked : s.lookedUp = true →
      CacheEffect task s .deferredFailure (s.cache.blockPublication .deferredFailed)

section

variable (h : task.Trace options history s)
include h

theorem Trace.lookup (hlook : s.lookedUp = false)
    (request : LookupRequest δ υ) :
    task.Trace options (history ++ [(s, .lookup request)]) (task.lookupNode options request s) := by
  have hc := h.unlooked hlook
  have hu : ∀ e ∈ history ++ [(s, .lookup request)], e.2 ≠ Action.deferredFailure := by
    intro e he
    rcases mem_append.mp he with he | he
    · exact h.unblocked (by rw [hc]; rfl) e he
    · obtain rfl := mem_singleton.mp he
      nofun
  unfold lookupNode
  split
  · exact ⟨nofun, by rw [hc]; nofun, fun _ => hu, h.captured, h.resources⟩
  next hr =>
  split
  · exact ⟨nofun, by rw [hc]; nofun, fun _ => hu, h.captured, h.resources⟩
  next found hf =>
  refine ⟨nofun, ?_, fun _ => hu, h.captured, h.resources⟩
  intro found' hf'
  cases hf'
  exact ⟨by simpa using hr, rfl, s, request, by simp, hf⟩

theorem Trace.looked_append {found : LookupState δ υ}
    (hfo : s.cache.lookup = some found) :
    shouldRun task.ancestors = true ∧ s.cache.probe = options.cacheProbe ∧
      ∃ before request, (before, Action.lookup request) ∈ history ++ [(s, a)] ∧
        request.lookup options options.cacheProbe = .ok found := by
  obtain ⟨hr, hp, before, request, hm, hl⟩ := h.looked found hfo
  exact ⟨hr, hp, before, request, mem_append_left _ hm, hl⟩

theorem Trace.unblocked_append (ha : a ≠ .deferredFailure)
    (hbl : s.cache.publicationBlocked = none) :
    ∀ e ∈ history ++ [(s, a)], e.2 ≠ Action.deferredFailure := by
  intro e he
  rcases mem_append.mp he with he | he
  · exact h.unblocked hbl e he
  · obtain rfl := mem_singleton.mp he
    exact ha

theorem Trace.effect (hlook : s'.lookedUp = s.lookedUp)
    (hef : task.CacheEffect s a s'.cache) : task.Trace options (history ++ [(s, a)]) s' := by
  have hu : s.lookedUp = true → s'.lookedUp = false → s'.cache = .init := by
    rw [hlook]
    exact fun ht hf => absurd (ht.symm.trans hf) nofun
  generalize hca : s'.cache = cache at hef
  cases hef with
  | kept ha =>
    refine ⟨?_, ?_, ?_, ?_, ?_⟩ <;> rw [hca]
    · rw [hlook]
      exact h.unlooked
    · exact fun _ => h.looked_append
    · exact h.unblocked_append ha
    · exact h.captured
    · exact h.resources
  | @captured node answers stdout outputs hs hno hns =>
    refine ⟨hu hs, ?_, ?_, ?_, ?_⟩ <;> rw [hca]
    · exact fun _ => h.looked_append
    · exact h.unblocked_append nofun
    · intro position captured hc
      rcases OrderedMap.mem_insert.mp hc with hn | ⟨ho, -⟩
      · obtain ⟨rfl, rfl⟩ := Prod.mk.inj hn
        exact ⟨node, hno, rfl, hns⟩
      · exact h.captured position captured ho
    · exact h.resources
  | resources hs =>
    refine ⟨hu hs, ?_, ?_, ?_, ?_⟩ <;> rw [hca]
    · exact fun _ => h.looked_append
    · exact h.unblocked_append nofun
    · exact h.captured
    intro outputs hou
    cases hou
    rfl
  | blocked hs =>
    refine ⟨hu hs, ?_, ?_, ?_, ?_⟩ <;> rw [hca]
    · exact fun _ => h.looked_append
    · intro hnn
      cases hb : s.cache.publicationBlocked <;> simp [CacheState.blockPublication, hb] at hnn
    · exact h.captured
    · exact h.resources

theorem Trace.pairwise_apart :
    (s.cache.captures.values.map fun captured => captured.outputs.task).Pairwise
      TaskOutputs.Apart := by
  unfold OrderedMap.values
  rw [map_map, pairwise_map]
  refine s.cache.captures.sorted.imp_of_mem ?_
  rintro ⟨p, captured⟩ ⟨p', captured'⟩ hm hm' hl x hx y hy
  obtain ⟨node, hn, rfl, hns⟩ := h.captured p captured hm
  obtain ⟨node', hn', rfl, hns'⟩ := h.captured p' captured' hm'
  obtain ⟨x', hx', hxn⟩ := mem_map.mp (hns x hx)
  obtain ⟨y', hy', hyn⟩ := mem_map.mp (hns' y hy)
  rw [← hxn, ← hyn]
  exact FindResult.exports_apart task.outputs hn hn' (ne_of_lt hl) hx' hy'

end

/-- The aggregate keeps every captured output: no two commands share a name, and
the registered resources have none. -/
theorem Trace.mem_aggregate (h : task.Trace options history s) {captured : CapturedResult υ}
    (hcap : captured ∈ s.cache.captures.values) {output : TaskOutput υ}
    (hout : output ∈ captured.outputs.task.entries) :
    output ∈ (aggregate s.cache.captures s.cache.resources).outputs.task.entries := by
  have he : ∀ start : TaskOutputs υ, ∀ result ∈ s.cache.resources.toList,
      start.Apart result.task := by
    intro start result hr x hx y hy
    rw [h.resources result (Option.mem_toList.mp hr)] at hy
    cases hy
  simp only [aggregate]
  rw [TaskOutputs.mem_foldl_extend]
  · refine .inr ⟨captured.outputs.task, ?_, hout⟩
    simp only [map_append, map_map, mem_append, mem_map]
    exact .inl ⟨captured, hcap, rfl⟩
  · rw [map_append, map_map, pairwise_append]
    refine ⟨h.pairwise_apart, ?_, ?_⟩
    · rw [pairwise_map]
      exact pairwise_of_forall_mem_list fun x _ y hy => he x.task y hy
    intro x _ y hy
    obtain ⟨result, hr, rfl⟩ := mem_map.mp hy
    exact he x result hr
  · intro result _ x hx
    cases hx

def Hit (s : InvocationState δ υ ν) : Prop :=
  ∃ found, s.cache.lookup = some found ∧ found.hit.isSome = true

structure Quiet (s : InvocationState δ υ ν) : Prop where
  ran : s.ran = []
  uninvoked : ∀ position vars, s.commands position ≠ .invoked vars

theorem Hit.shouldRun_eq_false (h : Hit s) (others : List (CacheState δ υ)) :
    shouldRun (others ++ [s.cache]) = false := by
  obtain ⟨found, hf, hh⟩ := h
  simp [shouldRun, CacheState.shouldSkipBody, hf, hh]

theorem CacheEffect.lookup_eq (h : task.CacheEffect s a s'.cache) :
    s'.cache.lookup = s.cache.lookup := by
  generalize s'.cache = cache at h
  cases h <;> rfl

theorem CacheEffect.probe_eq (h : task.CacheEffect s a s'.cache) :
    s'.cache.probe = s.cache.probe := by
  generalize s'.cache = cache at h
  cases h <;> rfl

theorem Quiet.update {position : ℕ} {status : CommandStatus υ ν} (h : Quiet s)
    (hstat : ∀ vars, status ≠ .invoked vars) {ran : List BodyNode} (hran : ran = s.ran)
    (cache : CacheState δ υ) (results : InvocationResults υ ν) : Quiet { s with
      cache := cache, results := results, ran := ran
      commands := Function.update s.commands position status } := by
  refine ⟨hran.trans h.ran, fun other vars => ?_⟩
  by_cases ho : other = position
  · subst ho
    simpa using hstat vars
  · simpa [Function.update_of_ne ho] using h.uninvoked other vars

theorem ofFinish_ne_invoked {finish : Finish υ} {vars : ν} :
    CommandStatus.ofFinish finish ≠ .invoked vars := by
  cases finish <;> nofun

variable [DecidableEq ν]

theorem Step.cacheEffect (h : task.Step options s a s') :
    (∃ request, a = .lookup request ∧ s.lookedUp = false ∧ s' = task.lookupNode options request s) ∨
      s'.lookedUp = s.lookedUp ∧ task.CacheEffect s a s'.cache := by
  cases h with
  | lookup hl => exact .inl ⟨_, rfl, hl, rfl⟩
  | start hl hn hp => exact .inr ⟨rfl, .kept nofun⟩
  | @finish node answers vars hl hn hi =>
    refine .inr ⟨rfl, ?_⟩
    unfold InvocationState.finishNode
    cases hf : (node.finish vars answers s.results).1 with
    | succeeded stdout outputs =>
      obtain ⟨-, raw, arts, reps, -, hc⟩ := CommandNode.finish_succeeded hf
      simp only [hf]
      exact .captured hl hn (name_of_completionOutputs hc)
    | failed error | ignored =>
      simp only [hf]
      exact .kept nofun
  | expire status hl hn hs => exact .inr ⟨rfl, .kept nofun⟩
  | resources hl =>
    refine .inr ?_
    unfold resourcesNode
    split
    · exact ⟨rfl, .kept nofun⟩
    · exact ⟨rfl, .resources hl⟩
  | nested hl =>
    refine .inr ?_
    split
    · exact ⟨rfl, .kept nofun⟩
    · exact ⟨rfl, .kept nofun⟩
  | deferredFailure hl => exact .inr ⟨rfl, .blocked hl⟩
  | store | finalize hl => exact .inr ⟨rfl, .kept nofun⟩

theorem trace_init : task.Trace options [] (task.machine options results).init where
  unlooked := fun _ => rfl
  looked := by
    intro found hf
    cases hf
  unblocked := by simp
  captured := by
    intro position captured hc
    cases hc
  resources := by
    intro outputs ho
    cases ho

theorem trace_of_run (hrun : (task.machine options results).Run history s) :
    task.Trace options history s := by
  induction hrun with
  | start => exact trace_init
  | step hrun hs ih =>
    rcases (Step.of_step hs).cacheEffect with ⟨request, rfl, hl, rfl⟩ | ⟨hl, he⟩
    · exact ih.lookup hl request
    · exact ih.effect hl he

theorem ofStart_ne_invoked {node : CommandNode} {probe : Bool} {answers : StartAnswers υ ν}
    {vars : ν} :
    CommandStatus.ofStart (node.start false probe answers results) ≠ .invoked vars := by
  cases hg : answers.gates with
  | error error => simp [CommandNode.start, hg, CommandStatus.ofStart]
  | ok passed => cases passed <;> simp [CommandNode.start, hg, CommandStatus.ofStart]

theorem Step.quiet (h : task.Step options s a s') (hqu : Quiet s)
    (hhit : s.lookedUp = true → Hit s) : Quiet s' := by
  cases h with
  | lookup hl =>
    unfold lookupNode
    split
    · exact ⟨hqu.ran, hqu.uninvoked⟩
    · split <;> exact ⟨hqu.ran, hqu.uninvoked⟩
  | start hl hn hp =>
    have hr : shouldRun (task.guards s) = false := (hhit hl).shouldRun_eq_false _
    unfold startNode
    simp only [hr]
    exact hqu.update (fun _ => ofStart_ne_invoked) rfl _ _
  | finish vars hl hn hi => exact absurd hi (hqu.uninvoked _ _)
  | expire status hl hn hs =>
    refine hqu.update ?_ rfl _ _
    rintro vars rfl
    unfold expired at hs
    split at hs
    · exact ofFinish_ne_invoked (Option.some.inj hs)
    · exact ofFinish_ne_invoked (Option.some.inj hs)
    · split at hs <;> cases hs
    · cases hs
  | resources hl =>
    have hr : shouldRun (task.guards s) = false := (hhit hl).shouldRun_eq_false _
    unfold resourcesNode
    simpa [hr] using hqu
  | nested hl =>
    rw [(hhit hl).shouldRun_eq_false]
    exact hqu
  | deferredFailure hl | store => exact ⟨hqu.ran, hqu.uninvoked⟩
  | finalize hl => exact hqu

theorem Step.hit_back (h : task.Step options s a s') (hhit : s'.lookedUp = true → Hit s')
    (hlook : s.lookedUp = true) : Hit s := by
  rcases h.cacheEffect with ⟨request, -, hb, -⟩ | ⟨hs, he⟩
  · exact absurd (hlook.symm.trans hb) nofun
  · obtain ⟨found, hf, hi⟩ := hhit (hs.trans hlook)
    exact ⟨found, he.lookup_eq ▸ hf, hi⟩

theorem quiet_of_run (hrun : (task.machine options results).Run history s)
    (hhit : s.lookedUp = true → Hit s) : Quiet s := by
  induction hrun with
  | start => exact ⟨rfl, nofun⟩
  | step hrun hs ih =>
    have hb := (Step.of_step hs).hit_back hhit
    exact (Step.of_step hs).quiet (ih hb) hb

variable [DecidableEq δ]

/-- Everything that holds when the finalizer hands `result` to the store. -/
structure Permitted (options : RunOptions)
    (history : List (InvocationState δ υ ν × Action δ υ ν)) (s : InvocationState δ υ ν)
    (request : FinalizeRequest δ υ) (result : ActionResult δ υ) (lookupRequest : LookupRequest δ υ)
    (found : LookupState δ υ) (identity : PublicationIdentity δ) : Prop where
  /-- the lookup of this invocation ended as a miss with a publication identity -/
  lookedUp : ∃ before, (before, Action.lookup lookupRequest) ∈ history
  lookup : lookupRequest.lookup options options.cacheProbe = .ok found
  state : s.cache.lookup = some found
  miss : found.outcome.status = .miss
  publication : found.publication = some identity
  dry : options.dry = false
  probe : options.cacheProbe = false
  secretVariables : lookupRequest.secretNames = []
  secretOutputs : ∀ captured ∈ s.cache.captures.values,
    ∀ output ∈ captured.outputs.task.entries, output.secret = false
  unblocked : ∀ entry ∈ history, entry.2 ≠ Action.deferredFailure
  access : options.access.canWrite = true
  /-- the inputs at the finalizer are those of the lookup -/
  inputRoot : lookupRequest.snapshot = .ok identity.inputRoot ∧
    request.snapshot = .ok identity.inputRoot
  action : lookupRequest.actionDigest identity.inputRoot = .ok identity.action ∧
    result.action = identity.action

theorem publication_gate (task : CacheableInvocation δ υ) (options : RunOptions)
    (results : InvocationResults υ ν) {history : List (InvocationState δ υ ν × Action δ υ ν)}
    {s : InvocationState δ υ ν} (hrun : (task.machine options results).Run history s) :
    (∀ request result, task.written options request s = some result →
      ∃ lookupRequest found identity,
        Permitted options history s request result lookupRequest found identity) ∧
    (Hit s → Quiet s ∧ ∀ request, task.written options request s = none) ∧
    ∀ request, (∀ found, s.cache.lookup = some found → found.outcome.status ≠ .miss ∨
      found.outcome.reason = some .inputsChangedDuringLookup) →
        task.written options request s = none := by
  have htrace := trace_of_run hrun
  have hpermitted : ∀ request result, task.written options request s = some result →
      ∃ lookupRequest found identity,
        Permitted options history s request result lookupRequest found identity := by
    intro request result hwritten
    obtain ⟨-, hwritten⟩ := Option.ite_none_right_eq_some.mp hwritten
    obtain ⟨found, identity, bundle, hw, rfl⟩ := FinalizeRequest.finalize_written hwritten
    obtain ⟨-, hprobe, before, lookupRequest, hmem, hlookup⟩ := htrace.looked found hw.lookup
    have hpublishable := LookupRequest.lookup_publishable hlookup hw.publication
    refine ⟨lookupRequest, found, identity, ⟨before, hmem⟩, hlookup, hw.lookup, hw.status,
      hw.publication, hw.dry, hprobe ▸ hw.probe, hpublishable.secretNames, ?_,
      htrace.unblocked hw.unblocked, hw.access, ⟨hpublishable.snapshot, hw.snapshot⟩,
      hpublishable.action, rfl⟩
    intro captured hcaptured output houtput
    exact TaskOutputs.secretNames_eq_nil_iff.mp hw.secretNames output
      (htrace.mem_aggregate hcaptured houtput)
  refine ⟨hpermitted, ?_, ?_⟩
  · intro hhit
    refine ⟨quiet_of_run hrun fun _ => hhit, fun request => ?_⟩
    rw [Option.eq_none_iff_forall_ne_some]
    intro result hwritten
    obtain ⟨lookupRequest, found, identity, hp⟩ := hpermitted request result hwritten
    obtain ⟨found', hfound', hisSome⟩ := hhit
    cases hp.state.symm.trans hfound'
    rw [(LookupRequest.lookup_publishable hp.lookup hp.publication).hit] at hisSome
    cases hisSome
  · intro request hunpublished
    rw [Option.eq_none_iff_forall_ne_some]
    intro result hwritten
    obtain ⟨lookupRequest, found, identity, hp⟩ := hpermitted request result hwritten
    rcases hunpublished found hp.state with hstatus | hreason
    · exact hstatus hp.miss
    · exact (LookupRequest.lookup_publishable hp.lookup hp.publication).reason hreason

def lenientTask : FindResult where
  name := "report"
  octafileRun := none
  task :=
    { raw := none, interactive := none, ignoreError := none, timeout := none, run := none
      plugin := none
      cmds := some [⟨.plugin "shell" "exit 1", ⟨none, true, false, none, none, some true⟩⟩]
      outputs := []
      outputs_distinct := nodup_nil }

def lenientInvocation : CacheableInvocation ℕ ℕ where
  command := lenientTask
  ancestors := []
  shape := rfl
  outputs := rfl

def plainOptions : RunOptions := ⟨false, false, false, .readWrite, true⟩

def missRequest : LookupRequest ℕ ℕ where
  secretNames := []
  deliver := fun _ => true
  snapshot := .ok 7
  actionDigest := fun root => .ok (root + 1)
  getAction := fun _ => .ok none
  descriptorError := fun _ => none
  resourceContractError := fun _ => none
  findMissingBlobs := fun _ => .ok false
  revalidate := .ok true
  readBlob := fun _ => .ok ()
  restoreCachedBundle := fun _ => .ok 0
  commitVerifiedHit := .ok ()

def writeRequest : FinalizeRequest ℕ ℕ where
  deliver := fun _ => true
  snapshot := .ok 7
  registeredResourcesError := fun _ => none
  packOutputs := .ok 0
  writeBlobIfAbsent := fun _ => .ok .written
  metadataError := fun _ => none
  writeActionIfAbsent := fun _ => .ok .written

def lenientNode : CommandNode where
  name := "exit 1"
  stepLabel := "shell"
  cacheKey := "report::command[0]"
  position := 0
  runMode := .always
  ignoreErrors := true
  timeout := none
  plugin := some "shell"
  exports := []

def passingAnswers : StartAnswers ℕ Unit := ⟨.ok true, .ok (), .ok true, .ok true, fun _ =>
  true, true⟩

def lenientRun : List (Action ℕ ℕ Unit) :=
  [.lookup missRequest, .start lenientNode passingAnswers,
    .finish lenientNode ⟨.completed 1 false "" [] (some []) (some []), fun _ => true, true⟩]

theorem publication_gate_lenientRun :
    ∃ history s, (lenientInvocation.machine plainOptions fun _ => none).Run history s ∧
      history.map Prod.snd = lenientRun ∧
      lenientInvocation.written plainOptions writeRequest s = some ⟨8, none, some "", [], [], []⟩ ∧
      ∃ lookupRequest found identity, Permitted plainOptions history s writeRequest
        ⟨8, none, some "", [], [], []⟩ lookupRequest found identity := by
  obtain ⟨s, hexec, hwritten⟩ :
      ∃ s, (lenientInvocation.machine plainOptions fun _ => none).exec lenientRun
          (lenientInvocation.machine plainOptions fun _ => none).init = some s ∧
        lenientInvocation.written plainOptions writeRequest s =
          some ⟨8, none, some "", [], [], []⟩ := ⟨_, rfl, rfl⟩
  obtain ⟨history, hrun, hactions⟩ := Machine.Run.start.exec hexec
  have hgate := publication_gate lenientInvocation plainOptions _ hrun
  exact ⟨history, s, hrun, hactions, hwritten, hgate.1 writeRequest _ hwritten⟩

end CacheableInvocation

end Octa.ResultCache
