import Octa.PluginClient.Client

/-!
# What the steps of a plugin client do

A step of a caller changes its own request only.  A response changes the request it names,
goes to the control queue or fails the protocol.
-/

namespace Octa.PluginClient

open Request

variable {δ : Type} {validate : δ → Except String Unit} {s s' : State δ} {a : Action δ}
variable {q : Request δ} {id : Id} {r : PluginResponse δ}

@[simp]
theorem State.set_handler (id : Id) (q : Request δ) : (s.set id q).handler = s.handler := rfl

@[simp]
theorem State.set_requests (id : Id) (q : Request δ) :
    (s.set id q).requests = Function.update s.requests id q := rfl

/-! ## Callers -/

theorem Request.markCancelled_command_eq_none : q.markCancelled.command = none ↔ q.command = none :=
  Option.map_eq_none_iff

/-- What an action of the caller of the request `id`, or of a task spawned for it, does to the
request. -/
inductive Move (s : State δ) (id : Id) : Action δ → Request δ → Request δ → Prop where
  | start {q : Request δ} : q.phase = .unused →
      Move s id (.start id) q { q with phase := .lockingWriter }
  | locked {q : Request δ} : q.phase = .lockingWriter →
      Move s id (.lockWriter id) q { q with phase := .registering }
  | registered {q : Request δ} : q.phase = .registering →
      Move s id (.register id) q
        { q with phase := .writing, command := some ⟨.awaitingStart, true⟩ }
  | written {q : Request δ} : q.phase = .writing →
      Move s id (.write id) q { q with phase := .waiting }
  | writeFailed {q : Request δ} : q.phase = .writing →
      Move s id (.writeFails id) q { q with phase := .removing }
  | unregistered {q : Request δ} : q.phase = .removing →
      Move s id (.unregister id) q { q with phase := .failed .io, command := none, queue := [] }
  | executing {q : Request δ} : q.phase = .waiting → q.started = some (.ok ()) →
      Move s id (.resume id) q { q with phase := .executing }
  | notLocked {q : Request δ} (error : PluginClientError) : q.phase = .lockingWriter →
      Move s id (.lockWriter id) q { q with phase := .failed error, queue := [] }
  | rejected {q : Request δ} (error : PluginClientError) : q.phase = .waiting →
      Move s id (.resume id) q { q with phase := .failed error, queue := [] }
  | cancelled {q : Request δ} {ok : Bool} (error : PluginClientError) :
      q.phase = .sendingCancel →
      Move s id (.sendCancel id ok) q { q with phase := .failed error, queue := [] }
  | cancel {q : Request δ} : q.phase = .waiting →
      Move s id (.cancel id) q { q with phase := .cancelling }
  | markCancelled {q : Request δ} : q.phase = .cancelling →
      Move s id (.markCancelled id) q { q.markCancelled with phase := .sendingCancel }
  | dropped {q : Request δ} {tears : Bool} : q.phase.holdsExecution →
      Move s id (.drop id tears) q { q with phase := .dropped, queue := [] }
  | abandon {q : Request δ} : q.abandoned →
      Move s id (.abandon id) q { q.markCancelled with abandoned := false }
  | expire {q : Request δ} {sender : Bool} : q.command = some ⟨.cancelled, sender⟩ →
      Move s id (.expire id) q { q with command := none, completed := true }
  | plan {q : Request δ} : q.phase = .unused →
      Move s id (.plan id) q { q with phase := .sendingPlan, plan := true }
  | planSent {q : Request δ} : q.phase = .sendingPlan → s.writer = true →
      Move s id (.sendPlan id true) q { q with phase := .awaitingPlan }
  | planFailed {q : Request δ} {ok : Bool} (error : PluginClientError) : q.phase = .sendingPlan →
      (s.writer && ok) = false →
      Move s id (.sendPlan id ok) q { q with phase := .planned (.error error), plan := false }
  | planned {q : Request δ} (result : Except PluginClientError (Option δ)) :
      q.phase = .awaitingPlan → q.planned = some result →
      Move s id (.resumePlan id) q { q with phase := .planned result, plan := false }
  | planTimedOut {q : Request δ} (error : PluginClientError) : q.phase = .awaitingPlan →
      Move s id (.timeoutPlan id) q { q with phase := .planned (.error error), plan := false }
  | planDropped {q : Request δ} {tears : Bool} :
      q.phase = .sendingPlan ∨ q.phase = .awaitingPlan →
      Move s id (.drop id tears) q { q with phase := .dropped, plan := false }
  | receive {q : Request δ} {cancelled : Bool} {r : PluginResponse δ}
      {rest : List (PluginResponse δ)} : q.phase = .executing → q.queue = r :: rest →
      Move s id (.receive id cancelled) q { q with queue := rest, received := q.received ++ [r] }
  | progress {q : Request δ} {cancelled : Bool} : q.phase = .executing →
      Move s id (.receive id cancelled) q { q with progress := none }
  | same {q : Request δ} {cancelled : Bool} : Move s id (.receive id cancelled) q q

theorem move_of_receiveOutput {cancelled : Bool}
    {result : Except PluginClientError (Option (PluginResponse δ)) × Request δ}
    (hph : q.phase = .executing) (h : q.receiveOutput id cancelled = some result) :
    Move s id (.receive id cancelled) q result.2 := by
  unfold receiveOutput at h
  split at h
  · cases h
    exact .same
  split at h
  · cases h
    exact .same
  split at h
  · rename_i hq
    cases h
    exact .receive hph hq
  split at h
  · obtain ⟨progress, -, rfl⟩ := Option.map_eq_some_iff.mp h
    exact .progress hph
  · cases h
    exact .same

theorem move_of_some {q' : Request δ} (hca : a.caller = some id) (h : q.move s a = some q') :
    Move s id a q q' := by
  cases a with
  | start | register | write | writeFails | unregister | cancel | markCancelled | plan
  | timeoutPlan =>
    cases hca
    simp only [move] at h
    split at h
    · rename_i hp
      cases h
      first
        | exact .start hp
        | exact .registered hp
        | exact .written hp
        | exact .writeFailed hp
        | exact .unregistered hp
        | exact .cancel hp
        | exact .markCancelled hp
        | exact .plan hp
        | exact .planTimedOut _ hp
    · cases h
  | lockWriter =>
    cases hca
    simp only [move] at h
    split at h
    · rename_i hp
      split at h
      · cases h
      split at h
      · cases h
        exact .locked hp
      · cases h
        exact .notLocked _ hp
    · cases h
  | resume =>
    cases hca
    simp only [move] at h
    split at h
    · rename_i hp hs
      cases h
      exact .executing hp hs
    · rename_i hp hs
      cases h
      exact .rejected _ hp
    · cases h
  | sendCancel =>
    cases hca
    simp only [move] at h
    split at h
    · rename_i hp
      split at h
      · cases h
      · cases h
        exact .cancelled _ hp
    · cases h
  | drop =>
    cases hca
    simp only [move] at h
    split at h
    · cases h
    · cases h
    · cases h
    · cases h
    · rename_i hp
      cases h
      exact .planDropped (.inl hp)
    · rename_i hp
      cases h
      exact .planDropped (.inr hp)
    · cases h
      apply Move.dropped
      cases hp : q.phase <;> simp_all [Phase.holdsExecution]
  | abandon =>
    cases hca
    simp only [move] at h
    split at h
    · rename_i ha
      cases h
      exact .abandon ha
    · cases h
  | expire =>
    cases hca
    simp only [move] at h
    split at h
    · rename_i hc
      cases h
      exact .expire hc
    · cases h
  | sendPlan _ ok =>
    cases hca
    simp only [move] at h
    split at h
    · rename_i hp
      split at h
      · cases h
      split at h
      · rename_i ho
        obtain ⟨hw, rfl⟩ := Bool.and_eq_true_iff.mp ho
        cases h
        exact .planSent hp hw
      rename_i ho
      cases h
      exact .planFailed _ hp (Bool.eq_false_iff.mpr ho)
    · cases h
  | resumePlan =>
    cases hca
    simp only [move] at h
    split at h
    · rename_i hp hpl
      cases h
      exact .planned _ hp hpl
    · cases h
  | receive =>
    cases hca
    simp only [move] at h
    split at h
    · rename_i hp
      obtain ⟨result, hr, rfl⟩ := Option.map_eq_some_iff.mp h
      exact move_of_receiveOutput hp hr
    · cases h
  | _ => cases hca

theorem State.afterMove_requests : (s.afterMove a).requests = s.requests := by
  unfold afterMove
  split <;> try rfl
  all_goals split <;> rfl

theorem State.afterMove_handler : (s.afterMove a).handler = s.handler := by
  unfold afterMove
  split <;> try rfl
  all_goals split <;> rfl

/-! ## Responses -/

def PluginResponse.isStarted : PluginResponse δ → Bool
  | .started _ => true
  | _ => false

inductive Answer (id : Id) (r : PluginResponse δ) : Request δ → Request δ → Prop where
  | plan {q : Request δ} (result : Except PluginClientError (Option δ)) : q.plan = true →
      Answer id r q { q with plan := false, planned := some result }
  | acknowledged {q : Request δ} {sender : Bool} : r = .started id →
      q.command = some ⟨.awaitingStart, sender⟩ → q.phase.awaitsStart = true →
      Answer id r q { q with command := some ⟨.running, sender⟩, started := some (.ok ()) }
  | abandoned {q : Request δ} {sender : Bool} : r = .started id →
      q.command = some ⟨.awaitingStart, sender⟩ → q.phase.awaitsStart = false →
      Answer id r q { q with command := some ⟨.running, sender⟩, abandoned := true }
  | progress {q : Request δ} (progress : ProgressUpdate δ) : r.isReplaceable = true →
      q.IsRunning → Answer id r q { q with progress := some progress }
  | output {q : Request δ} : r.isReplaceable = false → r.isTerminal = false → q.IsRunning →
      r.isStarted = false → Answer id r q (q.push r)
  | finished {q : Request δ} {route : CommandRoute} : r.isTerminal = true →
      q.command = some route → Answer id r q (q.finish id r route)
  | ignored {q : Request δ} : ¬q.IsRunning → ¬q.IsAwaiting → Answer id r q q

inductive Rejected (id : Id) (q : Request δ) : PluginResponse δ → Prop where
  | plan (content : δ) : q.plan = false → Rejected id q (.cachePlan id content)
  | planUnavailable : q.plan = false → Rejected id q (.cachePlanUnavailable id)
  | started : q.command = none ∨ q.IsRunning → Rejected id q (.started id)
  | early {r : PluginResponse δ} : q.IsAwaiting → r.isTerminal = false →
      r.isStarted = false → Rejected id q r

theorem Rejected.not_terminal (h : Rejected id q r) : r.isTerminal = false := by
  cases h with
  | plan | planUnavailable | started => rfl
  | early _ ht => exact ht

def Settled (s : State δ) (id : Id) (r : PluginResponse δ) (s' : State δ) : Prop :=
  (∃ message, Rejected id (s.requests id) r ∧ s' = s.failProtocol message) ∨
    ∃ q, Answer id r (s.requests id) q ∧ s' = s.set id q

theorem settled_answerPlan {result : Except PluginClientError (Option δ)}
    (hr : (∃ cnt, r = .cachePlan id cnt) ∨ r = .cachePlanUnavailable id) :
    Settled s id r (s.answerPlan id result) := by
  unfold State.answerPlan
  split
  · rename_i hp
    exact .inr ⟨_, .plan result hp, rfl⟩
  rename_i hp
  have hp := Bool.eq_false_iff.mpr hp
  obtain ⟨cnt, rfl⟩ | rfl := hr
  · exact .inl ⟨_, .plan cnt hp, rfl⟩
  · exact .inl ⟨_, .planUnavailable hp, rfl⟩

theorem settled_acknowledge :
    Settled s id (.started id) (s.answer id ((s.requests id).acknowledge id)) := by
  unfold acknowledge
  split
  · rename_i hc
    exact .inl ⟨_, .started (.inl hc), rfl⟩
  · rename_i sender hc
    cases hp : (s.requests id).phase.awaitsStart with
    | true =>
      refine .inr ⟨_, .acknowledged rfl hc hp, ?_⟩
      simp [State.answer, notifyStart, hp]
    | false =>
      refine .inr ⟨_, .abandoned rfl hc hp, ?_⟩
      simp [State.answer, hp]
  · rename_i sender hc
    refine .inr ⟨_, .ignored ?_ ?_, rfl⟩
    · rintro ⟨_, h⟩
      rw [hc] at h
      cases h
    rintro ⟨_, h⟩
    rw [hc] at h
    cases h
  · rename_i sender hc
    exact .inl ⟨_, .started (.inr ⟨sender, hc⟩), rfl⟩

theorem ignored_of_command
    (h : q.command = none ∨ ∃ sender, q.command = some ⟨.cancelled, sender⟩) : Answer id r q q := by
  apply Answer.ignored
  · rintro ⟨_, h'⟩
    obtain h | ⟨_, h⟩ := h <;> · rw [h] at h'; cases h'
  · rintro ⟨_, h'⟩
    obtain h | ⟨_, h⟩ := h <;> · rw [h] at h'; cases h'

theorem settled_replaceProgress {progress : ProgressUpdate δ}
    (hrepl : progress.observation.isNone = true) : Settled s id (.progress id progress)
      (s.answer id ((s.requests id).replaceProgress id progress)) := by
  unfold replaceProgress
  split
  · rename_i sender hc
    exact .inr ⟨_, .progress progress hrepl ⟨sender, hc⟩, rfl⟩
  · rename_i sender hc
    exact .inl ⟨_, .early ⟨sender, hc⟩ rfl rfl, rfl⟩
  · rename_i sender hc
    exact .inr ⟨_, ignored_of_command (.inr ⟨sender, hc⟩), rfl⟩
  · rename_i hc
    exact .inr ⟨_, ignored_of_command (.inl hc), rfl⟩

theorem settled_output (hrepl : r.isReplaceable = false) (hterm : r.isTerminal = false)
    (hsd : r.isStarted = false) : Settled s id r (s.answer id ((s.requests id).output id r)) := by
  unfold output
  split
  · rename_i sender hc
    exact .inr ⟨_, .output hrepl hterm ⟨sender, hc⟩ hsd, rfl⟩
  · rename_i sender hc
    exact .inl ⟨_, .early ⟨sender, hc⟩ hterm hsd, rfl⟩
  · rename_i sender hc
    exact .inr ⟨_, ignored_of_command (.inr ⟨sender, hc⟩), rfl⟩
  · rename_i hc
    exact .inr ⟨_, ignored_of_command (.inl hc), rfl⟩

def State.forControl (s : State δ) : PluginResponse δ → Bool
  | .hello _ | .schema _ | .modelCatalog _ | .shutdown _ => true
  | .error id _ => (s.requests id).command.isNone && !(s.requests id).plan
  | _ => false

theorem State.command_of_forControl (h : s.forControl r = true) (hid : r.id? = some id) :
    (s.requests id).command = none := by
  cases r with
  | error id' msg =>
    cases hid
    exact Option.isNone_iff_eq_none.mp (Bool.and_eq_true_iff.mp h).1
  | hello | schema | modelCatalog | shutdown => cases hid
  | _ => cases h

theorem dispatchTerminal_cases (hterm : r.isTerminal = true) (hid : r.id? = some id) :
    (∃ q, Answer id r (s.requests id) q ∧ s.dispatchTerminal id r = s.set id q) ∨
      s.forControl r = true ∧ s.dispatchTerminal id r = s.pushControl r := by
  unfold State.dispatchTerminal
  split
  · rename_i route hc
    exact .inl ⟨_, .finished hterm hc, rfl⟩
  rename_i hc
  split
  · rename_i id' msg
    cases hid
    split
    · rename_i hp
      refine .inl ⟨_, .plan (.error (.protocol msg)) hp, ?_⟩
      simp [State.answerPlan, hp]
    rename_i hp
    refine .inr ⟨?_, rfl⟩
    simp [State.forControl, hc, hp]
  · refine .inl ⟨_, ignored_of_command (.inl hc), ?_⟩
    simp [State.set]

theorem dispatchResponse_cases (validate : δ → Except String Unit) (s : State δ)
    (r : PluginResponse δ) :
    (∃ id, r.id? = some id ∧ Settled s id r (s.dispatchResponse validate r)) ∨
      s.forControl r = true ∧ s.dispatchResponse validate r = s.pushControl r := by
  cases r with
  | hello | schema | modelCatalog | shutdown => exact .inr ⟨rfl, rfl⟩
  | cachePlan id cnt => exact .inl ⟨id, rfl, settled_answerPlan (.inl ⟨cnt, rfl⟩)⟩
  | cachePlanUnavailable id => exact .inl ⟨id, rfl, settled_answerPlan (.inr rfl)⟩
  | started id => exact .inl ⟨id, rfl, settled_acknowledge⟩
  | progress id progress =>
    refine .inl ⟨id, rfl, ?_⟩
    simp only [State.dispatchResponse, State.dispatchExecutionResponse]
    split
    · rename_i hn
      exact settled_replaceProgress hn
    · rename_i hs
      exact settled_output (Bool.eq_false_iff.mpr hs) rfl rfl
  | stdout id | stderr id | stdoutBytes id | stderrBytes id | diagnostic id | registerArtifact id
  | registerReport id =>
    exact .inl ⟨id, rfl, settled_output rfl rfl rfl⟩
  | completed id code outputs =>
    obtain ⟨q, h⟩ | h := dispatchTerminal_cases (s := s) (r := .completed id code outputs) rfl rfl
    · exact .inl ⟨id, rfl, .inr ⟨q, h⟩⟩
    · exact .inr h
  | error id msg =>
    obtain ⟨q, h⟩ | h := dispatchTerminal_cases (s := s) (r := .error id msg) rfl rfl
    · exact .inl ⟨id, rfl, .inr ⟨q, h⟩⟩
    · exact .inr h

theorem State.pushControl_requests (r : PluginResponse δ) :
    (s.pushControl r).requests = s.requests := by
  unfold pushControl
  split <;> rfl

theorem State.pushControl_handler (r : PluginResponse δ) :
    (s.pushControl r).handler = s.handler ∨ (s.pushControl r).handler = .closing := by
  unfold pushControl
  split
  · exact .inl rfl
  · exact .inr rfl

/-! ## Steps -/

inductive Step (validate : δ → Except String Unit) (s : State δ) : Action δ → State δ → Prop where
  | caller {a : Action δ} {id : Id} {q : Request δ} : a.caller = some id →
      (s.requests id).move s a = some q → Step validate s a ((s.afterMove a).set id q)
  | other {a : Action δ} {s' : State δ} : a.caller = none → (∀ r, a ≠ .dispatch r) →
      s'.requests = s.requests →
      s'.handler = s.handler ∨ s.handler = .reading ∧ s'.handler = .closing →
      Step validate s a s'
  | dispatch {r : PluginResponse δ} : s.handler = .reading →
      Step validate s (.dispatch r) (s.dispatchResponse validate r)
  | invalidFrame {message : String} : s.handler = .reading →
      Step validate s (.invalidFrame message) (s.failProtocol message)
  | failCommands {message : String} : s.handler = .failing message →
      Step validate s .failCommands { s with
        requests := fun id =>
          (s.requests id).terminate (.protocol message) (some (.error id message))
        handler := .closing }
  | closePlans : s.handler = .closing →
      Step validate s .closePlans { s with
        requests := fun id => (s.requests id).closePlan .connectionClosed
        connectionClosed := true
        handler := .draining }
  | closeCommands : s.handler = .draining →
      Step validate s .closeCommands { s with
        requests := fun id => (s.requests id).terminate .connectionClosed none
        handler := .ended }

theorem step_of_shared (hca : a.caller = none) (h : s.shared validate a = some s') :
    Step validate s a s' := by
  cases a with
  | send | closeWriter =>
    obtain ⟨-, h⟩ := Option.ite_none_right_eq_some.mp h
    cases h
    exact .other rfl (fun _ h => by cases h) rfl (.inl rfl)
  | receiveControl =>
    simp only [State.shared] at h
    split at h
    · cases h
      exact .other rfl (fun _ h => by cases h) rfl (.inl rfl)
    · cases h
  | signalShutdown =>
    cases h
    exact .other rfl (fun _ h => by cases h) rfl (.inl rfl)
  | dispatch =>
    obtain ⟨hr, h⟩ := Option.ite_none_right_eq_some.mp h
    cases h
    exact .dispatch hr
  | invalidFrame =>
    obtain ⟨hr, h⟩ := Option.ite_none_right_eq_some.mp h
    cases h
    exact .invalidFrame hr
  | endOfStream =>
    obtain ⟨hr, h⟩ := Option.ite_none_right_eq_some.mp h
    cases h
    exact .other rfl (fun _ h => by cases h) rfl (.inr ⟨hr, rfl⟩)
  | observeShutdown =>
    obtain ⟨hr, h⟩ := Option.ite_none_right_eq_some.mp h
    cases h
    exact .other rfl (fun _ h => by cases h) rfl (.inr ⟨hr.1, rfl⟩)
  | failCommands =>
    simp only [State.shared] at h
    split at h
    · rename_i hh
      cases h
      exact .failCommands hh
    · cases h
  | closePlans =>
    obtain ⟨hc, h⟩ := Option.ite_none_right_eq_some.mp h
    cases h
    exact .closePlans hc
  | closeCommands =>
    obtain ⟨hd, h⟩ := Option.ite_none_right_eq_some.mp h
    cases h
    exact .closeCommands hd
  | _ => cases hca

theorem step_of_some (h : s.step validate a = some s') : Step validate s a s' := by
  unfold State.step at h
  cases hc : a.caller with
  | none =>
    simp only [hc] at h
    exact step_of_shared hc h
  | some id =>
    simp only [hc] at h
    obtain ⟨q, hm, rfl⟩ := Option.map_eq_some_iff.mp h
    exact .caller hc hm

end Octa.PluginClient
