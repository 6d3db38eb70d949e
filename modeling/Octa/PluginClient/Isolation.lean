import Octa.PluginClient.Routing

/-!
# Isolation of requests

A plugin that answers every command with its start, output and one terminal
response, and every cache planning request with one reply, at any later time.
-/

namespace Octa.PluginClient

open Transition Function Request

variable {δ : Type} {validate : δ → Except String Unit} {s : State δ} {a : Action δ}
  {id : Id} {q q' : Request δ}
variable {r : PluginResponse δ}

/-! ## A conforming plugin -/

inductive Stage where
  | silent
  | executeReceived
  | started
  | planReceived
  | answered
  deriving DecidableEq, Repr

variable {stage : Stage}

structure Connected (δ : Type) where
  client : State δ
  plugin : Id → Stage

/-- The stage of a request after an action of its caller; a frame behind a torn one cannot be
read. -/
def Stage.after (s : State δ) (stage : Stage) : Action δ → Stage
  | .write _ => if s.torn then stage else .executeReceived
  | .sendPlan _ ok => if s.writer && ok && !s.torn then .planReceived else stage
  | _ => stage

def Phase.isUnused : Phase δ → Bool
  | .unused => true
  | _ => false

namespace Connected

def answers (c : Connected δ) : PluginResponse δ → Option (Id → Stage)
  | .started id =>
    if c.plugin id = .executeReceived then some (update c.plugin id .started) else none
  | .stdout id _ | .stderr id _ | .stdoutBytes id _ | .stderrBytes id _ | .diagnostic id _
  | .progress id _ | .registerArtifact id _ | .registerReport id _ =>
    if c.plugin id = .started then some c.plugin else none
  | .completed id _ _ =>
    if c.plugin id = .started then some (update c.plugin id .answered) else none
  | .cachePlan id _ | .cachePlanUnavailable id =>
    if c.plugin id = .planReceived then some (update c.plugin id .answered) else none
  | .error id _ =>
    if c.plugin id = .started ∨ c.plugin id = .planReceived then
      some (update c.plugin id .answered)
    -- an error that is about no request
    else if (c.client.requests id).phase.isUnused then some c.plugin
    else none
  | .hello _ | .schema _ | .modelCatalog _ | .shutdown _ => some c.plugin

def step (validate : δ → Except String Unit) (c : Connected δ) (a : Action δ) :
    Option (Connected δ) :=
  match a with
  | .invalidFrame _ => none
  | .dispatch r =>
    (c.answers r).bind fun plugin => (c.client.step validate a).map fun s => ⟨s, plugin⟩
  | _ =>
    (c.client.step validate a).map fun s =>
      ⟨s, match a.caller with
        | some id => update c.plugin id ((c.plugin id).after c.client a)
        | none => c.plugin⟩

end Connected

def connected (validate : δ → Except String Unit) : Machine (Connected δ) (Action δ) where
  init := ⟨.init, fun _ => .silent⟩
  step := Connected.step validate

/-- An entry is taken out of its table before its answer has come, or there is no room in the
control queue. -/
def Endangers (c : Connected δ) : Action δ → Prop
  | .drop id _ | .timeoutPlan id => c.plugin id = .planReceived
  | .expire id => c.plugin id = .executeReceived
  | .dispatch r => c.client.forControl r = true ∧
      controlResponseCapacity ≤ c.client.control.length
  | _ => False

/-! ## Invariant -/

def Phase.isUnsent : Phase δ → Bool
  | .unused | .lockingWriter | .registering | .writing | .removing | .sendingPlan => true
  | _ => false

structure Fits (stage : Stage) (q : Request δ) : Prop where
  unsent : q.phase.isUnsent = true → stage = .silent
  writing : q.phase = .writing → q.IsAwaiting
  execute : stage = .executeReceived →
    ∃ route, q.command = some route ∧ route.state ≠ .running
  answering : stage = .started ∨ stage = .answered → ¬q.IsAwaiting
  plan : stage = .planReceived ∨ q.phase = .sendingPlan → q.plan = true
  planned : q.plan = true → q.planned = none
  fresh : q.phase.isFresh = true → q.planned = none ∧ q.plan = false

section Move

theorem Move.stage_cases (hmove : Move s id a q q') (stage : Stage) : stage.after s a = stage ∨
      q.phase = .writing ∧ q'.command = q.command ∧ stage.after s a = .executeReceived ∨
      q.phase = .sendingPlan ∧ q'.plan = q.plan ∧ stage.after s a = .planReceived := by
  cases hmove with
  | written hp =>
    cases ht : s.torn with
    | true => exact .inl (if_pos ht)
    | false => exact .inr (.inl ⟨hp, rfl, if_neg (by simp [ht])⟩)
  | planSent hp hw =>
    cases ht : s.torn with
    | true => exact .inl (if_neg (by simp [ht]))
    | false => exact .inr (.inr ⟨hp, rfl, if_pos (by simp [ht, hw])⟩)
  | planFailed error hp hf => exact .inl (if_neg (by simp [hf]))
  | _ => exact .inl rfl

section

variable (h : Fits stage q)
include h

theorem Fits.unsent_of_move (hmove : Move s id a q q')
    (hun' : q'.phase.isUnsent = true) : stage.after s a = .silent := by
  have hu := h.unsent
  cases hmove <;> simp_all [Phase.isUnsent, Stage.after, markCancelled]

theorem Fits.writing_of_move (hmove : Move s id a q q')
    (hab : q.abandoned = true → q.phase.hasGivenUp = true)
    (hwr' : q'.phase = .writing) : q'.IsAwaiting := by
  have hw := h.writing
  cases hmove <;> simp_all [Phase.hasGivenUp, markCancelled, Request.IsAwaiting]

theorem Fits.execute_of_move (hmove : Move s id a q q')
    (hex : a = .expire id → stage ≠ .executeReceived) (hsg : stage.after s a = .executeReceived) :
    ∃ rt, q'.command = some rt ∧ rt.state ≠ .running := by
  obtain hs | ⟨hp, hc, -⟩ | ⟨-, -, hpl⟩ := hmove.stage_cases stage
  · rw [hs] at hsg
    obtain ⟨rt, hr, hst⟩ := h.execute hsg
    have hm : q.markCancelled.command = some ⟨.cancelled, rt.sender⟩ := by
      rw [markCancelled, hr]
      rfl
    cases hmove with
    | registered => exact ⟨_, rfl, CommandRouteState.noConfusion⟩
    | unregistered hp =>
      rw [h.unsent (by rw [hp]; rfl)] at hsg
      cases hsg
    | expire => exact absurd hsg (hex rfl)
    | markCancelled | abandon => exact ⟨_, hm, CommandRouteState.noConfusion⟩
    | _ => exact ⟨rt, hr, hst⟩
  · obtain ⟨sender, hr⟩ := h.writing hp
    exact ⟨_, hc.trans hr, CommandRouteState.noConfusion⟩
  · rw [hpl] at hsg
    cases hsg

theorem Fits.answering_of_move (hmove : Move s id a q q')
    (hsg : stage.after s a = .started ∨ stage.after s a = .answered) : ¬q'.IsAwaiting := by
  obtain hs | ⟨-, -, he⟩ | ⟨-, -, hp⟩ := hmove.stage_cases stage
  · rw [hs] at hsg
    rintro ⟨sender, hroute⟩
    obtain ⟨hph, -⟩ | hroute := hmove.of_awaiting hroute
    · rw [h.unsent (by rw [hph]; rfl)] at hsg
      obtain hsg | hsg := hsg <;> cases hsg
    · exact h.answering hsg ⟨sender, hroute⟩
  · rw [he] at hsg
    obtain hsg | hsg := hsg <;> cases hsg
  · rw [hp] at hsg
    obtain hsg | hsg := hsg <;> cases hsg

theorem Fits.plan_of_move (hmove : Move s id a q q')
    (hdrop : ∀ tears, a = .drop id tears → stage ≠ .planReceived)
    (hti : a = .timeoutPlan id → stage ≠ .planReceived)
    (hsg : stage.after s a = .planReceived ∨ q'.phase = .sendingPlan) : q'.plan = true := by
  obtain hsg | hphase := hsg
  · obtain hs | ⟨-, -, he⟩ | ⟨hphase, hp, -⟩ := hmove.stage_cases stage
    · rw [hs] at hsg
      have hp := h.plan (.inl hsg)
      cases hmove with
      | planFailed error hphase =>
        rw [h.unsent (by rw [hphase]; rfl)] at hsg
        cases hsg
      | planned result hphase hr =>
        rw [h.planned hp] at hr
        cases hr
      | planTimedOut => exact absurd hsg (hti rfl)
      | planDropped => exact absurd hsg (hdrop _ rfl)
      | plan => rfl
      | _ => exact hp
    · rw [he] at hsg
      cases hsg
    · exact hp.trans (h.plan (.inr hphase))
  · have hp := h.plan
    cases hmove <;> simp_all [markCancelled]

theorem Fits.move (hmove : Move s id a q q')
    (hab : q.abandoned = true → q.phase.hasGivenUp = true)
    (hdrop : ∀ tears, a = .drop id tears → stage ≠ .planReceived)
    (hti : a = .timeoutPlan id → stage ≠ .planReceived)
    (hex : a = .expire id → stage ≠ .executeReceived) : Fits (stage.after s a) q' where
  unsent := h.unsent_of_move hmove
  writing := h.writing_of_move hmove hab
  execute := h.execute_of_move hmove hex
  answering := h.answering_of_move hmove
  plan := h.plan_of_move hmove hdrop hti
  planned := by
    have hp := h.planned
    have hf := h.fresh
    cases hmove <;> simp_all [Phase.isFresh, markCancelled]
  fresh := by
    have hf := h.fresh
    cases hmove <;> simp_all [Phase.isFresh, markCancelled]

end

end Move

/-! ## Answers -/

theorem push_phase : (q.push r).phase = q.phase := by
  unfold push
  split
  · split
    · rfl
    · split <;> rfl
  · rfl

theorem push_plan : (q.push r).plan = q.plan ∧ (q.push r).planned = q.planned := by
  unfold push
  split
  · split
    · exact ⟨rfl, rfl⟩
    · split <;> exact ⟨rfl, rfl⟩
  · exact ⟨rfl, rfl⟩

theorem push_not_awaiting (h : q.IsRunning) : ¬(q.push r).IsAwaiting := by
  obtain ⟨sender, hc⟩ := h
  unfold push
  rintro ⟨sender', ha⟩
  simp only [hc] at ha
  split at ha
  · split at ha
    · cases ha
    · split at ha <;> cases ha
  · rw [hc] at ha
    cases ha

theorem finish_planned {rt : CommandRoute} : (q.finish id r rt).planned = q.planned := by
  unfold finish notifyStart pushLast
  obtain ⟨st, sender⟩ := rt
  cases st <;> cases sender <;> dsimp only <;> first | rfl | (split <;> rfl)

theorem Answer.phase_eq (h : Answer id r q q') : q'.phase = q.phase := by
  cases h with
  | output => exact push_phase
  | finished _ hr => exact (removal_finish hr).phase
  | _ => rfl

theorem Answer.plan_of (h : Answer id r q q') (hplan : q'.plan = true) :
    q.plan = true ∧ q'.planned = q.planned := by
  cases h with
  | plan => cases hplan
  | output => exact ⟨push_plan.1.symm.trans hplan, push_plan.2⟩
  | finished _ hr => exact ⟨(removal_finish hr).plan.symm.trans hplan, finish_planned⟩
  | _ => exact ⟨hplan, rfl⟩

theorem Answer.not_awaiting (h : Answer id r q q') (hplan : q.plan = true → q.command = none) :
    ¬q'.IsAwaiting := by
  cases h with
  | plan _ hq => exact not_awaiting_of_none (hplan hq)
  | acknowledged | abandoned =>
    rintro ⟨_, h⟩
    cases h
  | progress _ _ hr => exact fun h => not_running_of_awaiting h hr
  | output _ _ hr => exact push_not_awaiting hr
  | finished _ hrt => exact not_awaiting_of_none (removal_finish hrt).command
  | ignored _ ha => exact ha

theorem Fits.answer {stg' : Stage} (h : Fits stage q) (han : Answer id r q q')
    (hplan : q.plan = true → q.command = none) (hsent : stage ≠ .silent)
    (hsg' : stg' = .started ∨ stg' = .answered) : Fits stg' q' := by
  have hp : q'.phase.isUnsent ≠ true := by
    rw [han.phase_eq]
    exact fun hu => hsent (h.unsent hu)
  constructor
  · exact fun hu => absurd hu hp
  · intro hw
    rw [hw] at hp
    exact absurd rfl hp
  · rintro rfl
    obtain hsg' | hsg' := hsg' <;> cases hsg'
  · exact fun _ => han.not_awaiting hplan
  · rintro (rfl | hs)
    · obtain hsg' | hsg' := hsg' <;> cases hsg'
    · rw [hs] at hp
      exact absurd rfl hp
  · intro hp'
    obtain ⟨hq, hpl⟩ := han.plan_of hp'
    exact hpl.trans (h.planned hq)
  · intro hf
    exfalso
    apply hp
    cases hq : q'.phase <;> simp_all [Phase.isFresh, Phase.isUnsent]

def Stage.Allows (stage : Stage) : PluginResponse δ → Prop
  | .started _ => stage = .executeReceived
  | .cachePlan .. | .cachePlanUnavailable _ => stage = .planReceived
  | .error .. => stage = .started ∨ stage = .planReceived
  | .hello _ | .schema _ | .modelCatalog _ | .shutdown _ => False
  | _ => stage = .started

theorem Stage.Allows.ne_silent (h : stage.Allows r) : stage ≠ .silent := by
  rintro rfl
  cases r <;> simp [Allows] at h

theorem not_rejected (h : Fits stage q) (hplan : q.plan = true → q.command = none)
    (hal : stage.Allows r) : ¬Rejected id q r := by
  intro hre
  cases hre with
  | plan _ hn | planUnavailable hn =>
    rw [h.plan (.inl hal)] at hn
    cases hn
  | started hc =>
    obtain ⟨⟨st, sender⟩, hrt, hs⟩ := h.execute hal
    obtain hn | ⟨_, hr⟩ := hc
    · rw [hrt] at hn
      cases hn
    rw [hrt] at hr
    cases hr
    exact hs rfl
  | early ha ht hsd =>
    have hsg : stage = .started ∨ stage = .planReceived := by
      cases r <;> simp_all [Stage.Allows, PluginResponse.isStarted]
    obtain rfl | rfl := hsg
    · exact h.answering (.inl rfl) ha
    · exact not_awaiting_of_none (hplan (h.plan (.inl rfl))) ha

theorem answers_cases {c : Connected δ} {plugin : Id → Stage} (h : c.answers r = some plugin) :
    (∀ id, r.id? ≠ some id → plugin id = c.plugin id) ∧ ∀ id, r.id? = some id →
        ((c.plugin id).Allows r ∧ (plugin id = .started ∨ plugin id = .answered)) ∨
          (c.client.requests id).phase = .unused ∧ r.isTerminal = true ∧ plugin = c.plugin := by
  cases r with
  | hello | schema | modelCatalog | shutdown =>
    cases h
    refine ⟨fun _ _ => rfl, ?_⟩
    intro id hi
    cases hi
  | error id msg =>
    simp only [Connected.answers] at h
    split at h
    · rename_i hs
      cases h
      refine ⟨?_, ?_⟩
      · intro id' hi
        exact update_of_ne (fun he => hi (by rw [he]; rfl)) _ _
      · rintro id' ⟨⟩
        exact .inl ⟨hs, .inr (update_self ..)⟩
    obtain ⟨hu, h⟩ := Option.ite_none_right_eq_some.mp h
    cases h
    refine ⟨fun _ _ => rfl, ?_⟩
    rintro id' ⟨⟩
    refine .inr ⟨?_, rfl, rfl⟩
    cases hp : (c.client.requests id).phase <;> simp_all [Phase.isUnused]
  | started id | completed id | cachePlan id | cachePlanUnavailable id =>
    obtain ⟨hs, h⟩ := Option.ite_none_right_eq_some.mp h
    cases h
    refine ⟨?_, ?_⟩
    · intro id' hi
      exact update_of_ne (fun he => hi (by rw [he]; rfl)) _ _
    rintro id' ⟨⟩
    refine .inl ⟨hs, ?_⟩
    rw [update_self]
    first
      | exact .inl rfl
      | exact .inr rfl
  | _ id =>
    obtain ⟨hs, h⟩ := Option.ite_none_right_eq_some.mp h
    cases h
    refine ⟨fun _ _ => rfl, ?_⟩
    rintro id' ⟨⟩
    exact .inl ⟨hs, .inl hs⟩

theorem Answer.eq_of_idle (h : Answer id r q q') (hcmd : q.command = none)
    (hplan : q.plan = false) : q' = q := by
  cases h with
  | plan _ hq =>
    rw [hplan] at hq
    cases hq
  | acknowledged _ hq | abandoned _ hq | finished _ hq =>
    rw [hcmd] at hq
    cases hq
  | progress _ _ hr | output _ _ hr =>
    exact absurd hr (not_running_of_none hcmd)
  | ignored => rfl

theorem dispatch_isolated (validate : δ → Except String Unit) {c : Connected δ}
    {plugin : Id → Stage} (hread : c.client.handler = .reading)
    (hfits : ∀ id, Fits (c.plugin id) (c.client.requests id)) {history : List (State δ × Action δ)}
    (hinv : Inv history c.client) (hans : c.answers r = some plugin)
    (hsafe : ¬Endangers c (.dispatch r)) :
    (c.client.dispatchResponse validate r).handler = .reading ∧
      (∀ id, Fits (plugin id) ((c.client.dispatchResponse validate r).requests id)) ∧
      ∀ id, r.id? ≠ some id →
        (c.client.dispatchResponse validate r).requests id = c.client.requests id := by
  obtain ⟨ho, hn⟩ := answers_cases hans
  obtain ⟨id, hr, ⟨msg, hre, -⟩ | ⟨q, han, hs'⟩⟩ | ⟨hc, hs'⟩ :=
    dispatchResponse_cases validate c.client r
  · exfalso
    obtain ⟨ha, -⟩ | ⟨-, ht, -⟩ := hn id hr
    · exact not_rejected (hfits id) (hinv id).1.command_of_plan ha hre
    · rw [hre.not_terminal] at ht
      cases ht
  · rw [hs']
    refine ⟨hread, ?_, ?_⟩
    · intro id'
      rw [State.set_requests]
      by_cases hi : id' = id
      · obtain rfl := hi
        rw [update_self]
        obtain ⟨ha, hs⟩ | ⟨hu, -, rfl⟩ := hn id' hr
        · exact (hfits id').answer han (hinv id').1.command_of_plan ha.ne_silent hs
        have hp' : (c.client.requests id').plan = false := by
          apply ((hfits id').fresh _).2
          rw [hu]
          rfl
        rw [han.eq_of_idle ((hinv id').1.command_of_unused hu) hp']
        exact hfits id'
      · have hne : r.id? ≠ some id' := by
          rw [hr]
          exact fun h => hi (Option.some.inj h).symm
        rw [update_of_ne hi, ho id' hne]
        exact hfits id'
    · intro id' hi
      rw [State.set_requests, update_of_ne]
      rintro rfl
      exact hi hr
  · have hro : c.client.control.length < controlResponseCapacity := by
      by_contra hf
      exact hsafe ⟨hc, Nat.le_of_not_lt hf⟩
    rw [hs', State.pushControl, if_pos hro]
    refine ⟨hread, ?_, fun _ _ => rfl⟩
    intro id
    by_cases hr : r.id? = some id
    · obtain ⟨ha, hs⟩ | ⟨-, -, rfl⟩ := hn id hr
      · have hig : Answer id r (c.client.requests id) (c.client.requests id) :=
          ignored_of_command (.inl (State.command_of_forControl hc hr))
        exact (hfits id).answer hig (hinv id).1.command_of_plan ha.ne_silent hs
      · exact hfits id
    · rw [ho id hr]
      exact hfits id

/-! ## Runs -/

variable {c c' : Connected δ} {history : List (Connected δ × Action δ)}

theorem Connected.step_cases (h : c.step validate a = some c') :
    c.client.step validate a = some c'.client ∧ (∀ msg, a ≠ .invalidFrame msg) ∧
      (∀ r, a = .dispatch r → c.answers r = some c'.plugin) ∧
      (∀ id, a.caller = some id → c'.plugin = update c.plugin id ((c.plugin id).after c.client a)) ∧
      (a.caller = none → (∀ r, a ≠ .dispatch r) → c'.plugin = c.plugin) := by
  unfold Connected.step at h
  split at h
  · cases h
  · rename_i r
    obtain ⟨plugin, ha, h⟩ := Option.bind_eq_some_iff.mp h
    obtain ⟨s, hs, rfl⟩ := Option.map_eq_some_iff.mp h
    refine ⟨hs, fun _ h => (by cases h), ?_, fun _ h => (by cases h), ?_⟩
    · rintro r' ⟨⟩
      exact ha
    · intro _ hne
      exact absurd rfl (hne r)
  rename_i hf hd
  obtain ⟨s, hs, rfl⟩ := Option.map_eq_some_iff.mp h
  refine ⟨hs, hf, fun r hr => absurd hr (hd r), ?_, ?_⟩
  · intro id hc
    simp only [hc]
  · intro hc _
    simp only [hc]

theorem client_run (h : (connected validate).Run history c) :
    ∃ hist', (client validate).Run hist' c.client := by
  induction h with
  | start => exact ⟨[], .start⟩
  | step _ hs ih =>
    obtain ⟨hist', hr⟩ := ih
    exact ⟨_, hr.step (Connected.step_cases hs).1⟩

/-- The handler has not failed the protocol, and as long as it reads, the tables have what the
plugin answers. -/
def Isolated (c : Connected δ) : Prop :=
  (∀ message, c.client.handler ≠ .failing message) ∧
    (c.client.handler = .reading → ∀ id, Fits (c.plugin id) (c.client.requests id))

theorem Isolated.step (h : Isolated c) (hrun : ∃ history, (client validate).Run history c.client)
    (hsafe : ¬Endangers c a) (hstep : c.step validate a = some c') : Isolated c' := by
  obtain ⟨history, hrun⟩ := hrun
  have hi := inv_of_run hrun
  obtain ⟨hcli, hfr, hd, hc', ho'⟩ := Connected.step_cases hstep
  generalize hs' : c'.client = s' at hcli
  cases step_of_some hcli with
  | @caller _ id q hc hm =>
    have hm := move_of_some hc hm
    refine ⟨?_, ?_⟩
    · rw [hs', State.set_handler, State.afterMove_handler]
      exact h.1
    intro hr id'
    rw [hs', State.set_handler, State.afterMove_handler] at hr
    rw [hs', State.set_requests, State.afterMove_requests, hc' id hc]
    by_cases hid : id' = id
    · obtain rfl := hid
      rw [update_self, update_self]
      refine (h.2 hr id').move hm (hi id').1.abandoned ?_ ?_ ?_
      · rintro tears rfl hsg
        exact hsafe hsg
      · rintro rfl hsg
        exact hsafe hsg
      · rintro rfl hsg
        exact hsafe hsg
    · rw [update_of_ne hid, update_of_ne hid]
      exact h.2 hr id'
  | other hc ha hre hh =>
    rw [← hs'] at hre hh
    refine ⟨?_, ?_⟩
    · obtain hs | ⟨-, hcl⟩ := hh
      · rw [hs]
        exact h.1
      · intro msg hf
        rw [hcl] at hf
        cases hf
    intro hr id
    rw [hre, ho' hc ha]
    obtain hs | ⟨-, hcl⟩ := hh
    · exact h.2 (hs.symm.trans hr) id
    · rw [hcl] at hr
      cases hr
  | @dispatch r hr =>
    obtain ⟨hh, hfi, -⟩ := dispatch_isolated validate hr (h.2 hr) hi (hd r rfl) hsafe
    refine ⟨?_, ?_⟩
    · intro msg hf
      rw [hs', hh] at hf
      cases hf
    intro _ id
    rw [hs']
    exact hfi id
  | @invalidFrame msg => exact absurd rfl (hfr msg)
  | failCommands hf => exact absurd hf (h.1 _)
  | closePlans | closeCommands =>
    refine ⟨?_, ?_⟩
    · intro msg hf
      rw [hs'] at hf
      cases hf
    intro hr
    rw [hs'] at hr
    cases hr

theorem isolated_of_run (h : (connected validate).Run history c)
    (hsafe : ∀ e ∈ history, ¬Endangers e.1 e.2) : Isolated c := by
  apply h.invariant_of (G := fun c a => ¬Endangers c a) hsafe
  · refine ⟨fun _ h => (by cases h), ?_⟩
    intro _ id
    constructor <;> simp [connected, State.init, unused, Request.IsAwaiting]
  · rintro c a c' ⟨history, hr⟩ hsafe hi hs
    exact hi.step (client_run hr) hsafe hs

/-- As long as no entry is taken out of its table before its answer and the control queue has
room, a client never fails the protocol, and a response touches only the request it names. -/
theorem requests_isolated (h : (connected validate).Run history c)
    (hsafe : ∀ entry ∈ history, ¬Endangers entry.1 entry.2) :
    (∀ message, c.client.handler ≠ .failing message) ∧
      ∀ r c', (connected validate).step c (.dispatch r) = some c' → ¬Endangers c (.dispatch r) →
        c'.client.handler = .reading ∧
          ∀ id, r.id? ≠ some id → c'.client.requests id = c.client.requests id := by
  have hisolated := isolated_of_run h hsafe
  refine ⟨hisolated.1, ?_⟩
  intro r c' hstep hendangers
  obtain ⟨history', hrun⟩ := client_run h
  change c.step validate (.dispatch r) = some c' at hstep
  obtain ⟨hclient, -, hdispatch, -⟩ := Connected.step_cases hstep
  obtain ⟨hreading, hs'⟩ := Option.ite_none_right_eq_some.mp hclient
  rw [← Option.some.inj hs']
  obtain ⟨hhandler, -, hothers⟩ := dispatch_isolated validate hreading (hisolated.2 hreading)
    (inv_of_run hrun) (hdispatch r rfl) hendangers
  exact ⟨hhandler, hothers⟩

instance (c : Connected δ) (a : Action δ) : Decidable (Endangers c a) := by
  unfold Endangers
  split <;> infer_instance

def startCommand (id : Id) : List (Action Unit) :=
  [.start id, .lockWriter id, .register id, .write id]

/-- One caller gives up its command and another one gets its plan. -/
def cancelAndPlan : List (Action Unit) :=
  startCommand "a" ++ [.cancel "a", .markCancelled "a", .sendCancel "a" true, .plan "b",
    .sendPlan "b" true, .dispatch (.started "a"), .dispatch (.completed "a" 1 ())]

theorem requests_isolated_cancel : ∃ history c, (connected fun _ : Unit => .ok ()).Run history c ∧
      c.plugin "b" = .planReceived ∧ c.plugin "a" = .answered ∧
      ((∀ message, c.client.handler ≠ .failing message) ∧
        ∀ r c', (connected fun _ : Unit => .ok ()).step c (.dispatch r) = some c' →
          ¬Endangers c (.dispatch r) → c'.client.handler = .reading ∧
            ∀ id, r.id? ≠ some id → c'.client.requests id = c.client.requests id) := by
  have hexec : ((connected fun _ : Unit => .ok ()).exec cancelAndPlan
      (connected fun _ : Unit => .ok ()).init).map (fun c => (c.plugin "b", c.plugin "a")) =
      some (.planReceived, .answered) := by decide +kernel
  obtain ⟨c, hexec, hc⟩ := Option.map_eq_some_iff.mp hexec
  obtain ⟨hb, ha⟩ := Prod.mk.inj hc
  have hrun := Machine.Run.start.exec_trace hexec
  have hsafe : ∀ entry ∈ (connected fun _ : Unit => .ok ()).trace cancelAndPlan
      (connected fun _ : Unit => .ok ()).init, ¬Endangers entry.1 entry.2 := by decide +kernel
  exact ⟨_, c, hrun, hb, ha, requests_isolated hrun hsafe⟩

/-- A plan is dropped while another command runs, then its reply comes. -/
def lateReply : List (Action Unit) :=
  startCommand "a" ++ [.dispatch (.started "a"), .resume "a", .plan "b", .sendPlan "b" true,
    .drop "b" false, .dispatch (.cachePlanUnavailable "b"), .failCommands]

/-- A command is cancelled before its start while another one runs, then its start comes. -/
def lateStart : List (Action Unit) :=
  startCommand "a" ++ [.dispatch (.started "a"), .resume "a"] ++ startCommand "b" ++
    [.cancel "b", .markCancelled "b", .expire "b", .dispatch (.started "b"), .failCommands]

/-- A plan that was dropped, and a command that was cancelled, end another command. -/
theorem abandoned_request_fails_others : (∃ c, (connected fun _ : Unit => .ok ()).exec lateReply
        (connected fun _ : Unit => .ok ()).init = some c ∧
      (c.client.requests "a").command = none ∧
      (c.client.requests "a").queue = [.error "a" "Plugin returned an unknown cache plan 'b'"]) ∧
    ∃ c, (connected fun _ : Unit => .ok ()).exec lateStart
        (connected fun _ : Unit => .ok ()).init = some c ∧
      (c.client.requests "a").command = none ∧
      (c.client.requests "a").queue = [.error "a" "Plugin acknowledged unknown command 'b'"] := by
  have hreply : ((connected fun _ : Unit => .ok ()).exec lateReply
      (connected fun _ : Unit => .ok ()).init).map
      (fun c => ((c.client.requests "a").command, (c.client.requests "a").queue)) =
      some (none, [.error "a" "Plugin returned an unknown cache plan 'b'"]) := by decide +kernel
  have hstart : ((connected fun _ : Unit => .ok ()).exec lateStart
      (connected fun _ : Unit => .ok ()).init).map
      (fun c => ((c.client.requests "a").command, (c.client.requests "a").queue)) =
      some (none, [.error "a" "Plugin acknowledged unknown command 'b'"]) := by decide +kernel
  obtain ⟨c, hexec, hc⟩ := Option.map_eq_some_iff.mp hreply
  obtain ⟨c', hexec', hc'⟩ := Option.map_eq_some_iff.mp hstart
  exact ⟨⟨c, hexec, Prod.mk.inj hc⟩, c', hexec', Prod.mk.inj hc'⟩

end Octa.PluginClient
