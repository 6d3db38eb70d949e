import Octa.ResultCache.Gate

/-!
# Completeness of published results

A published result should hold what every command of the body produced in this
invocation.
-/

namespace Octa.ResultCache

open Octa.Task Transition List

variable {δ υ ν : Type}

namespace CacheableInvocation

variable {task : CacheableInvocation δ υ} {options : RunOptions}
  {results : InvocationResults υ ν} {history : List (InvocationState δ υ ν × Action δ υ ν)}
  {s s' : InvocationState δ υ ν} {a : Action δ υ ν} {node : CommandNode}

/-- The graph starts the finalizer after every command node has finished. -/
def AllFinished (task : CacheableInvocation δ υ) (s : InvocationState δ υ ν) : Prop :=
  ∀ node ∈ task.command.commandNodes, (s.commands node.position).finished = true

/-- The plugin of the node exited with code zero in this invocation, and the
published result holds its standard output and its exports. -/
structure Published (history : List (InvocationState δ υ ν × Action δ υ ν))
    (s : InvocationState δ υ ν) (result : ActionResult δ υ) (node : CommandNode) (stdout : String)
    (outputs : CompletionOutputs υ) : Prop where
  status : s.commands node.position = .succeeded stdout outputs
  executed : ∃ before answers raw artifacts reports,
    (before, Action.finish node answers) ∈ history ∧
      answers.plugin = .completed 0 false stdout raw artifacts reports
  stdout : ∃ earlier later, result.stdout = some ("\n".intercalate (earlier ++ stdout :: later))
  exported : ∀ output ∈ outputs.task.entries, (output.name, output.value) ∈ result.taskOutputs

def Complete (task : CacheableInvocation δ υ)
    (history : List (InvocationState δ υ ν × Action δ υ ν)) (s : InvocationState δ υ ν)
    (result : ActionResult δ υ) : Prop :=
  ∀ node ∈ task.command.commandNodes, node.plugin.isSome = true →
    s.commands node.position ≠ .skipped →
      ∃ stdout outputs, Published history s result node stdout outputs

/-- The step does not take a command to a side path: no stored result stands in
for it, and no failure or timeout of it is ignored. -/
def Faithful [DecidableEq ν] (s : InvocationState δ υ ν) : Action δ υ ν → Prop
  | .start node answers => node.plugin.isSome = true → answers.gates = .ok true →
      answers.conditions = .ok true →
        ∀ vars, answers.context = .ok vars → node.checkInvocationResult vars s.results = none
  | .finish node answers => node.plugin.isSome = true → node.ignoreErrors = true →
      ¬ answers.plugin.ignorable
  | .expire node _ => node.plugin.isSome = true → node.ignoreErrors = true →
      ∃ stdout outputs, s.commands node.position = .succeeded stdout outputs
  | _ => True

theorem finishNode_status (s : InvocationState δ υ ν) (node : CommandNode) (vars : ν)
    (answers : FinishAnswers υ) : (s.finishNode node vars answers).commands node.position =
      .ofFinish (node.finish vars answers s.results).1 :=
  Function.update_self ..

variable {stdout : String} {outputs : CompletionOutputs υ}

theorem published_of_captured (htr : task.Trace options history s) {request : FinalizeRequest δ υ}
    {found : LookupState δ υ} {idn : PublicationIdentity δ} {bundle : Option δ}
    (hw : request.Written options s.cache found idn)
    (hstat : s.commands node.position = .succeeded stdout outputs)
    (hcap : (node.position, ⟨stdout, outputs⟩) ∈ s.cache.captures.entries)
    (hexec : ∃ before answers raw artifacts reports,
      (before, Action.finish node answers) ∈ history ∧
        answers.plugin = .completed 0 false stdout raw artifacts reports) : Published history s
      (actionResult idn.action bundle (aggregate s.cache.captures s.cache.resources)) node
      stdout outputs := by
  have hv : (⟨stdout, outputs⟩ : CapturedResult υ) ∈ s.cache.captures.values :=
    mem_map.mpr ⟨_, hcap, rfl⟩
  refine ⟨hstat, hexec, ?_, ?_⟩
  · have hs : stdout ∈ s.cache.captures.values.map CapturedResult.stdout := mem_map.mpr ⟨_, hv, rfl⟩
    obtain ⟨earlier, later, hsp⟩ := append_of_mem hs
    exact ⟨earlier, later, by rw [← hsp]; rfl⟩
  intro output ho
  have hm := htr.mem_aggregate hv ho
  have hp := TaskOutputs.secretNames_eq_nil_iff.mp hw.secretNames output hm
  refine mem_map.mpr ⟨output, ?_, rfl⟩
  exact mem_filter.mpr ⟨hm, by simp [hp]⟩

variable [DecidableEq ν]

section

variable (h : task.Step options s a s')
include h

theorem Step.status (hnode : node ∈ task.command.commandNodes) :
    s'.commands node.position = s.commands node.position ∨
    (∃ answers, a = .start node answers ∧ s.commands node.position = .pending ∧
      s'.commands node.position = .ofStart
        (node.start (shouldRun (task.guards s)) options.cacheProbe answers s.results)) ∨
    (∃ vars answers, a = .finish node answers ∧ s.commands node.position = .invoked vars ∧
      s' = s.finishNode node vars answers) ∨
    (∃ announced, a = .expire node announced ∧
      expired node announced (s.commands node.position) = some (s'.commands node.position)) := by
  have hsp : ∀ {other : CommandNode} {status : CommandStatus υ ν},
      other ∈ task.command.commandNodes → other ≠ node →
      Function.update s.commands other.position status node.position =
        s.commands node.position := by
    intro other status ho hne
    refine Function.update_of_ne (fun hp => hne ?_) _ _
    exact FindResult.eq_of_position_eq ho hnode hp.symm
  cases h with
  | lookup hl =>
    left
    unfold lookupNode
    split
    · rfl
    · split <;> rfl
  | @start other answers hl ho hpe =>
    by_cases hs : other = node
    · subst hs
      exact .inr (.inl ⟨answers, rfl, hpe, Function.update_self ..⟩)
    · exact .inl (hsp ho hs)
  | @finish other answers vars hl ho hi =>
    by_cases hs : other = node
    · subst hs
      exact .inr (.inr (.inl ⟨vars, answers, rfl, hi, rfl⟩))
    · exact .inl (hsp ho hs)
  | @expire other announced status hl ho hst =>
    by_cases hs : other = node
    · subst hs
      exact .inr (.inr (.inr ⟨announced, rfl, by simpa using hst⟩))
    · exact .inl (hsp ho hs)
  | resources hl =>
    left
    unfold resourcesNode
    split <;> rfl
  | nested hl =>
    left
    split <;> rfl
  | deferredFailure hl | store | finalize hl => exact .inl rfl

theorem Step.diverted (hnode : node ∈ task.command.commandNodes)
    (hdi : (s.commands node.position).diverted = true) :
    (s'.commands node.position).diverted = true := by
  rcases h.status hnode with hs | ⟨answers, -, hp, -⟩ | ⟨vars, answers, -, hi, -⟩ |
    ⟨announced, -, he⟩
  · rwa [hs]
  · rw [hp] at hdi
    cases hdi
  · rw [hi] at hdi
    cases hdi
  · cases hst : s.commands node.position <;> simp_all [CommandStatus.diverted, expired]

theorem Step.diverted_of_unfaithful (ha : ¬ Faithful s a) :
    ∃ node ∈ task.command.commandNodes, node.plugin.isSome = true ∧
      (s'.commands node.position).diverted = true := by
  cases h with
  | @start node answers hl hn hpe =>
    simp only [Faithful, not_forall] at ha
    obtain ⟨hp, hg, hc, vars, hco, hch⟩ := ha
    obtain ⟨cached, hca⟩ := Option.ne_none_iff_exists'.mp hch
    refine ⟨node, hn, hp, ?_⟩
    unfold startNode
    simp only [Function.update_self]
    rcases CommandNode.start_of_stored hg hco hc hca with
      hst | hst | ⟨error, hst⟩ <;> rw [hst] <;> rfl
  | @finish node answers vars hl hn hin =>
    simp only [Faithful, not_forall, not_not] at ha
    obtain ⟨hp, -, hi⟩ := ha
    refine ⟨node, hn, hp, ?_⟩
    unfold InvocationState.finishNode
    simp only [Function.update_self]
    rcases CommandNode.finish_of_ignorable vars s.results hi with
      hf | ⟨failure, hf⟩ <;> rw [hf] <;> rfl
  | @expire node announced status hl hn hs =>
    simp only [Faithful, not_forall] at ha
    obtain ⟨hp, -, hsu⟩ := ha
    refine ⟨node, hn, hp, ?_⟩
    simp only [Function.update_self]
    rcases expired_cases hs with ⟨rfl, -⟩ | ⟨error, rfl⟩ | ⟨stdout, outputs, hb, -⟩
    · rfl
    · rfl
    · exact absurd ⟨stdout, outputs, hb⟩ hsu
  | lookup | resources | nested | deferredFailure | store | finalize => exact absurd trivial ha

end

theorem diverted_of_run (hrun : (task.machine options results).Run history s)
    (h : ∃ e ∈ history, ¬ Faithful e.1 e.2) :
    ∃ node ∈ task.command.commandNodes, node.plugin.isSome = true ∧
      (s.commands node.position).diverted = true := by
  induction hrun with
  | start =>
    obtain ⟨e, he, -⟩ := h
    cases he
  | step hrun hs ih =>
    obtain ⟨e, he, hu⟩ := h
    rcases mem_append.mp he with he | he
    · obtain ⟨node, hn, hp, hd⟩ := ih ⟨e, he, hu⟩
      exact ⟨node, hn, hp, (Step.of_step hs).diverted hn hd⟩
    · obtain rfl := mem_singleton.mp he
      exact (Step.of_step hs).diverted_of_unfaithful hu

def Replaced (status : CommandStatus υ ν) : Prop :=
  status = .ignored ∨ ∃ cached, status = .reused cached

theorem Step.replaced (h : task.Step options s a s') (ha : Faithful s a)
    (hnode : node ∈ task.command.commandNodes) (hpl : node.plugin.isSome = true)
    (hre : Replaced (s'.commands node.position)) : Replaced (s.commands node.position) := by
  rcases h.status hnode with hs | ⟨answers, rfl, -, hst⟩ | ⟨vars, answers, rfl, -, hf⟩ |
    ⟨announced, rfl, he⟩
  · rwa [hs] at hre
  · exfalso
    rw [hst] at hre
    rcases hre with hig | ⟨cached, hr⟩
    · exact ofStart_ne_ignored hig
    obtain ⟨hg, hcn, vars, hco, hc⟩ := CommandNode.start_reused (ofStart_injective hr)
    rw [ha hpl hg hcn vars hco] at hc
    cases hc
  · exfalso
    rw [hf, finishNode_status] at hre
    rcases hre with hig | ⟨cached, hr⟩
    · obtain ⟨hign, hi⟩ := CommandNode.finish_ignored (ofFinish_injective hig)
      exact ha hpl hign hi
    · exact ofFinish_ne_reused hr
  exfalso
  rcases expired_cases he with ⟨-, hign, hb⟩ | ⟨error, hfa⟩ | ⟨stdout, outputs, hb, hs⟩
  · obtain ⟨stdout, outputs, hsu⟩ := ha hpl hign
    exact hb stdout outputs hsu
  · rw [hfa] at hre
    rcases hre with h | ⟨cached, h⟩ <;> cases h
  · rw [hs, hb] at hre
    rcases hre with h | ⟨cached, h⟩ <;> cases h

theorem not_replaced_of_run (hrun : (task.machine options results).Run history s)
    (hfa : ∀ e ∈ history, Faithful e.1 e.2) (hnode : node ∈ task.command.commandNodes)
    (hpl : node.plugin.isSome = true) : ¬ Replaced (s.commands node.position) := by
  apply hrun.invariant_of (I := fun s => ¬ Replaced (s.commands node.position)) hfa
  · rintro (h | ⟨cached, h⟩) <;> cases h
  · intro s a s' _ ha hs hst hr
    exact hs ((Step.of_step hst).replaced ha hnode hpl hr)

theorem Step.captured (h : task.Step options s a s')
    (hstat : s.commands node.position = .succeeded stdout outputs)
    (hcap : (node.position, ⟨stdout, outputs⟩) ∈ s.cache.captures.entries) :
    (node.position, ⟨stdout, outputs⟩) ∈ s'.cache.captures.entries := by
  cases h with
  | lookup hl =>
    unfold lookupNode
    split
    · exact hcap
    · split <;> exact hcap
  | @finish other answers vars hl ho hi =>
    have hp : node.position ≠ other.position := by
      intro hs
      rw [← hs, hstat] at hi
      cases hi
    unfold InvocationState.finishNode
    cases hf : (other.finish vars answers s.results).1 with
    | succeeded stdout' outs' =>
      simp only [hf]
      exact OrderedMap.mem_insert.mpr (.inr ⟨hcap, hp⟩)
    | failed error | ignored =>
      simp only [hf]
      exact hcap
  | resources hl =>
    unfold resourcesNode
    split <;> exact hcap
  | nested hl => split <;> exact hcap
  | start | expire | deferredFailure | store | finalize => exact hcap

theorem executed_of_run (hrun : (task.machine options results).Run history s)
    (hnode : node ∈ task.command.commandNodes)
    (hstat : s.commands node.position = .succeeded stdout outputs) :
    (node.position, ⟨stdout, outputs⟩) ∈ s.cache.captures.entries ∧
      ∃ before answers raw artifacts reports, (before, Action.finish node answers) ∈ history ∧
        answers.plugin = .completed 0 false stdout raw artifacts reports := by
  induction hrun with
  | start => cases hstat
  | @step history s s' a hrun hste ih =>
    have hs := Step.of_step hste
    have hk : s.commands node.position = .succeeded stdout outputs →
        (node.position, ⟨stdout, outputs⟩) ∈ s'.cache.captures.entries ∧
          ∃ before answers raw artifacts reports,
            (before, Action.finish node answers) ∈ history ++ [(s, a)] ∧
              answers.plugin = .completed 0 false stdout raw artifacts reports := by
      intro hb
      obtain ⟨hc, before, answers, raw, artifacts, reports, hm, hp⟩ := ih hb
      exact ⟨hs.captured hb hc, before, answers, raw, artifacts, reports, mem_append_left _ hm, hp⟩
    rcases hs.status hnode with hsa | ⟨answers, -, -, hst⟩ | ⟨vars, answers, rfl, -, rfl⟩ |
      ⟨announced, -, he⟩
    · exact hk (hsa ▸ hstat)
    · rw [hst] at hstat
      exact absurd hstat ofStart_ne_succeeded
    · rw [finishNode_status] at hstat
      have hf : (node.finish vars answers s.results).1 = .succeeded stdout outputs :=
        ofFinish_injective hstat
      obtain ⟨-, raw, artifacts, reports, hp, -⟩ := CommandNode.finish_succeeded hf
      refine ⟨?_, s, answers, raw, artifacts, reports, by simp, hp⟩
      simp only [InvocationState.finishNode, hf]
      exact OrderedMap.mem_insert.mpr (.inl rfl)
    rcases expired_cases he with ⟨hi, -⟩ | ⟨error, hfa⟩ | ⟨_, _, -, hsa⟩
    · rw [hstat] at hi
      cases hi
    · rw [hstat] at hfa
      cases hfa
    · exact hk (hsa ▸ hstat)

theorem Step.shouldRun_guards (h : task.Step options s a s') (hlook : s.lookedUp = true) :
    s'.lookedUp = true ∧ shouldRun (task.guards s') = shouldRun (task.guards s) := by
  rcases h.cacheEffect with ⟨request, -, hb, -⟩ | ⟨hs, he⟩
  · exact absurd (hlook.symm.trans hb) nofun
  · refine ⟨hs.trans hlook, ?_⟩
    simp [shouldRun, guards, CacheState.shouldSkipBody, he.lookup_eq, he.probe_eq]

theorem Step.started (h : task.Step options s a s') (hnode : node ∈ task.command.commandNodes)
    (hstat : s'.commands node.position = .suppressed ∨ s'.commands node.position = .empty) :
    s'.commands node.position = s.commands node.position ∨
      s.lookedUp = true ∧ ∃ answers, s'.commands node.position = .ofStart
        (node.start (shouldRun (task.guards s)) options.cacheProbe answers s.results) := by
  rcases h.status hnode with hs | ⟨answers, rfl, -, hst⟩ | ⟨vars, answers, -, -, rfl⟩ |
    ⟨announced, -, he⟩
  · exact .inl hs
  · cases h with
    | start hl => exact .inr ⟨hl, answers, hst⟩
  · rw [finishNode_status] at hstat
    cases hf : (node.finish vars answers s.results).1 <;> simp [hf, CommandStatus.ofFinish] at hstat
  rcases expired_cases he with ⟨hi, -⟩ | ⟨error, hfa⟩ | ⟨_, _, -, hs⟩
  · simp [hi] at hstat
  · simp [hfa] at hstat
  · exact .inl hs

theorem suppressed_of_run (hrun : (task.machine options results).Run history s)
    (hnode : node ∈ task.command.commandNodes) (hstat : s.commands node.position = .suppressed) :
    s.lookedUp = true ∧ (shouldRun (task.guards s) = false ∨ options.cacheProbe = true) := by
  induction hrun with
  | start => cases hstat
  | @step history s s' a hrun hste ih =>
    have hs := Step.of_step hste
    have hr : s.lookedUp = true ∧
        (shouldRun (task.guards s) = false ∨ options.cacheProbe = true) := by
      rcases hs.started hnode (.inl hstat) with hsa | ⟨hl, answers, hst⟩
      · exact ih (hsa ▸ hstat)
      · exact ⟨hl, CommandNode.start_suppressed (ofStart_injective (hst ▸ hstat))⟩
    obtain ⟨hl', hg⟩ := hs.shouldRun_guards hr.1
    exact ⟨hl', hg ▸ hr.2⟩

theorem empty_of_run (hrun : (task.machine options results).Run history s)
    (hnode : node ∈ task.command.commandNodes) (hstat : s.commands node.position = .empty) :
    node.plugin = none := by
  induction hrun with
  | start => cases hstat
  | step hrun hs ih =>
    rcases (Step.of_step hs).started hnode (.inr hstat) with hsa | ⟨-, answers, hst⟩
    · exact ih (hsa ▸ hstat)
    · exact CommandNode.start_empty (ofStart_injective (hst ▸ hstat))

variable [DecidableEq δ]

theorem complete_iff (task : CacheableInvocation δ υ) (options : RunOptions)
    (results : InvocationResults υ ν) {history : List (InvocationState δ υ ν × Action δ υ ν)}
    {s : InvocationState δ υ ν} (hrun : (task.machine options results).Run history s)
    (hfinished : task.AllFinished s) {request : FinalizeRequest δ υ} {result : ActionResult δ υ}
    (hwritten : task.written options request s = some result) :
    task.Complete history s result ↔ ∀ entry ∈ history, Faithful entry.1 entry.2 := by
  have htrace := trace_of_run hrun
  obtain ⟨hancestors, hwritten⟩ := Option.ite_none_right_eq_some.mp hwritten
  obtain ⟨found, identity, bundle, hw, rfl⟩ := FinalizeRequest.finalize_written hwritten
  obtain ⟨-, hprobe, before, lookupRequest, -, hlookup⟩ := htrace.looked found hw.lookup
  have hhit := (LookupRequest.lookup_publishable hlookup hw.publication).hit
  have hrunnable : shouldRun (task.guards s) = true := by
    have hbody : s.cache.shouldSkipBody = false := by
      simp [CacheState.shouldSkipBody, hw.probe, hw.lookup, hhit]
    simpa [shouldRun, guards, hbody] using hancestors
  constructor
  · intro hcomplete
    by_contra hunfaithful
    push Not at hunfaithful
    obtain ⟨node, hnode, hplugin, hdiverted⟩ := diverted_of_run hrun hunfaithful
    have hskipped : s.commands node.position ≠ .skipped := by
      intro hskipped
      rw [hskipped] at hdiverted
      cases hdiverted
    obtain ⟨stdout, outputs, hpublished⟩ := hcomplete node hnode hplugin hskipped
    rw [hpublished.status] at hdiverted
    cases hdiverted
  · intro hfaithful node hnode hplugin hskipped
    have hover := hfinished node hnode
    have hreplaced := not_replaced_of_run hrun hfaithful hnode hplugin
    cases hstatus : s.commands node.position with
    | pending | invoked | failed =>
      rw [hstatus] at hover
      cases hover
    | skipped => exact absurd hstatus hskipped
    | suppressed =>
      obtain ⟨-, hguards | hprobing⟩ := suppressed_of_run hrun hnode hstatus
      · cases hrunnable.symm.trans hguards
      · cases hw.probe.symm.trans (hprobe.trans hprobing)
    | empty =>
      rw [empty_of_run hrun hnode hstatus] at hplugin
      cases hplugin
    | reused cached => exact absurd (.inr ⟨cached, hstatus⟩) hreplaced
    | ignored => exact absurd (.inl hstatus) hreplaced
    | succeeded stdout outputs =>
      obtain ⟨hcaptured, hexecuted⟩ := executed_of_run hrun hnode hstatus
      exact ⟨stdout, outputs, published_of_captured htrace hw hstatus hcaptured hexecuted⟩

theorem lenientRun_incomplete :
    ∃ history s, (lenientInvocation.machine plainOptions fun _ => none).Run history s ∧
      history.map Prod.snd = lenientRun ∧ lenientInvocation.AllFinished s ∧
      lenientInvocation.written plainOptions writeRequest s = some ⟨8, none, some "", [], [], []⟩ ∧
      ¬ lenientInvocation.Complete history s ⟨8, none, some "", [], [], []⟩ := by
  obtain ⟨s, hexec, hwritten, hstatus⟩ :
      ∃ s, (lenientInvocation.machine plainOptions fun _ => none).exec lenientRun
          (lenientInvocation.machine plainOptions fun _ => none).init = some s ∧
        lenientInvocation.written plainOptions writeRequest s =
          some ⟨8, none, some "", [], [], []⟩ ∧ s.commands 0 = .ignored := ⟨_, rfl, rfl, rfl⟩
  obtain ⟨history, hrun, hactions⟩ := Machine.Run.start.exec hexec
  refine ⟨history, s, hrun, hactions, ?_, hwritten, ?_⟩
  · intro node hnode
    obtain rfl : node = lenientNode := mem_singleton.mp hnode
    rw [show lenientNode.position = 0 from rfl, hstatus]
    rfl
  intro hcomplete
  obtain ⟨stdout, outputs, hpublished⟩ := hcomplete lenientNode (mem_singleton.mpr rfl) rfl
    (by rw [show lenientNode.position = 0 from rfl, hstatus]; nofun)
  have hsucceeded := hpublished.status
  rw [show lenientNode.position = 0 from rfl, hstatus] at hsucceeded
  cases hsucceeded

def cleanRun : List (Action ℕ ℕ Unit) :=
  [.lookup missRequest, .start lenientNode passingAnswers,
    .finish lenientNode ⟨.completed 0 false "done" [] (some []) (some []), fun _ => true, true⟩]

theorem complete_iff_cleanRun :
    ∃ history s, (lenientInvocation.machine plainOptions fun _ => none).Run history s ∧
      history.map Prod.snd = cleanRun ∧ lenientInvocation.AllFinished s ∧
      lenientInvocation.written plainOptions writeRequest s =
        some ⟨8, none, some "done", [], [], []⟩ ∧
      lenientInvocation.Complete history s ⟨8, none, some "done", [], [], []⟩ := by
  obtain ⟨s, hexec, hwritten, hstatus⟩ :
      ∃ s, (lenientInvocation.machine plainOptions fun _ => none).exec cleanRun
          (lenientInvocation.machine plainOptions fun _ => none).init = some s ∧
        lenientInvocation.written plainOptions writeRequest s =
          some ⟨8, none, some "done", [], [], []⟩ ∧
        (s.commands 0).finished = true := ⟨_, rfl, rfl, rfl⟩
  obtain ⟨history, hrun, hactions⟩ := Machine.Run.start.exec hexec
  have hfinished : lenientInvocation.AllFinished s := by
    intro node hnode
    obtain rfl : node = lenientNode := mem_singleton.mp hnode
    exact hstatus
  refine ⟨history, s, hrun, hactions, hfinished, hwritten, ?_⟩
  refine (complete_iff lenientInvocation plainOptions _ hrun hfinished hwritten).mpr ?_
  rintro ⟨before, action⟩ hentry
  have haction : action ∈ history.map Prod.snd := mem_map.mpr ⟨_, hentry, rfl⟩
  rw [hactions] at haction
  simp only [map_nil, nil_append, cleanRun, mem_cons, not_mem_nil, or_false] at haction
  rcases haction with rfl | rfl | rfl
  · trivial
  · intro _ _ _ vars _
    rfl
  · intro _ _ hignorable
    exact hignorable.1 rfl

end CacheableInvocation

end Octa.ResultCache
