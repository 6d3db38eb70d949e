import Octa.Foundation.Machine

/-!
# The plugin client

One connection to a plugin process is shared by commands and by cache planning.
-/

namespace Octa.PluginClient

variable {δ : Type}

def controlResponseCapacity : ℕ := 16

def commandResponseCapacity : ℕ := 32

/-- The text of a `Uuid`, or whatever a plugin puts in its place. -/
abbrev Id := String

inductive PluginClientError where
  | io
  | protocol (message : String)
  | connectionClosed
  | writerClosed
  | responseQueueOverflow (id : Id) (capacity : ℕ)
  deriving DecidableEq, Repr

structure ProgressUpdate (δ : Type) where
  observation : Option δ
  data : δ
  deriving DecidableEq, Repr

inductive PluginResponse (δ : Type) where
  | hello (version : δ)
  | schema (schema : δ)
  | modelCatalog (catalog : δ)
  | cachePlan (id : Id) (plan : δ)
  | cachePlanUnavailable (id : Id)
  | started (id : Id)
  | stdout (id : Id) (line : δ)
  | stderr (id : Id) (line : δ)
  | stdoutBytes (id : Id) (bytes : δ)
  | stderrBytes (id : Id) (bytes : δ)
  | diagnostic (id : Id) (content : δ)
  | progress (id : Id) (progress : ProgressUpdate δ)
  | registerArtifact (id : Id) (artifact : δ)
  | registerReport (id : Id) (report : δ)
  | completed (id : Id) (code : Int) (outputs : δ)
  | error (id : Id) (message : String)
  | shutdown (message : String)
  deriving DecidableEq, Repr

namespace PluginResponse

def id? : PluginResponse δ → Option Id
  | .cachePlan id _ | .cachePlanUnavailable id | .started id | .stdout id _ | .stderr id _
  | .stdoutBytes id _ | .stderrBytes id _ | .diagnostic id _ | .progress id _
  | .registerArtifact id _ | .registerReport id _ | .completed id _ _ | .error id _ => some id
  | .hello _ | .schema _ | .modelCatalog _ | .shutdown _ => none

/-- Progress without an observation, of which a newer one replaces an older one. -/
def isReplaceable : PluginResponse δ → Bool
  | .progress _ update => update.observation.isNone
  | _ => false

def isTerminal : PluginResponse δ → Bool
  | .completed .. | .error .. => true
  | _ => false

end PluginResponse

/-! ## Requests -/

/-- `CommandRouteState`; the sender inside `AwaitingStart` belongs to the request. -/
inductive CommandRouteState where
  | awaitingStart
  | running
  | cancelled
  deriving DecidableEq, Repr

structure CommandRoute where
  state : CommandRouteState
  /-- whether the route still has the sender of the response queue -/
  sender : Bool
  deriving DecidableEq, Repr

inductive Phase (δ : Type) where
  | unused
  -- `start_execution`
  | lockingWriter
  | registering
  | writing
  | removing
  | waiting
  | cancelling
  | sendingCancel
  | failed (error : PluginClientError)
  -- the returned `PluginExecution` is in use
  | executing
  -- `plan_cache`
  | sendingPlan
  | awaitingPlan
  | planned (result : Except PluginClientError (Option δ))
  | dropped

namespace Phase

def holdsExecution : Phase δ → Bool
  | .lockingWriter | .registering | .writing | .removing | .waiting | .cancelling
  | .sendingCancel | .executing => true
  | _ => false

/-- `started_rx` is alive. -/
def awaitsStart : Phase δ → Bool
  | .lockingWriter | .registering | .writing | .removing | .waiting => true
  | _ => false

def isFresh : Phase δ → Bool
  | .unused | .lockingWriter | .registering => true
  | _ => false

end Phase

/-- The entries of one request in `commands` and `plans` with the channels it shares with
its caller. -/
structure Request (δ : Type) where
  phase : Phase δ
  command : Option CommandRoute
  plan : Bool
  /-- what was sent to `started_rx` -/
  started : Option (Except PluginClientError Unit)
  /-- what was sent to the receiver of the cache plan -/
  planned : Option (Except PluginClientError (Option δ))
  /-- the response queue -/
  queue : List (PluginResponse δ)
  /-- what `receive_output` has taken out of the queue -/
  received : List (PluginResponse δ)
  /-- progress that was not looked at yet -/
  progress : Option (ProgressUpdate δ)
  overflowed : Bool
  completed : Bool
  /-- the task that cancels an abandoned command was spawned -/
  abandoned : Bool

namespace Request

def unused : Request δ :=
  ⟨.unused, none, false, none, none, [], [], none, false, false, false⟩

def stream (q : Request δ) : List (PluginResponse δ) := q.received ++ q.queue

def IsAwaiting (q : Request δ) : Prop := ∃ sender, q.command = some ⟨.awaitingStart, sender⟩

def IsRunning (q : Request δ) : Prop := ∃ sender, q.command = some ⟨.running, sender⟩

instance (q : Request δ) : Decidable q.IsAwaiting :=
  match h : q.command with
  | none => isFalse (by rintro ⟨_, h'⟩; rw [h] at h'; cases h')
  | some ⟨.awaitingStart, sender⟩ => isTrue ⟨sender, h⟩
  | some ⟨.running, _⟩ | some ⟨.cancelled, _⟩ =>
    isFalse (by rintro ⟨_, h'⟩; rw [h] at h'; cases h')

instance (q : Request δ) : Decidable q.IsRunning :=
  match h : q.command with
  | none => isFalse (by rintro ⟨_, h'⟩; rw [h] at h'; cases h')
  | some ⟨.running, sender⟩ => isTrue ⟨sender, h⟩
  | some ⟨.awaitingStart, _⟩ | some ⟨.cancelled, _⟩ =>
    isFalse (by rintro ⟨_, h'⟩; rw [h] at h'; cases h')

/-- `pending.send(..)`. -/
def notifyStart (q : Request δ) (result : Except PluginClientError Unit) : Request δ :=
  if q.phase.awaitsStart then { q with started := some result } else q

def push (q : Request δ) (r : PluginResponse δ) : Request δ :=
  match q.command with
  | some ⟨.running, true⟩ =>
    if !q.phase.holdsExecution then { q with command := some ⟨.running, false⟩ }
    else if q.queue.length < commandResponseCapacity then { q with queue := q.queue ++ [r] }
    else { q with command := some ⟨.running, false⟩, overflowed := true }
  | _ => q

def pushLast (q : Request δ) (r : PluginResponse δ) : Request δ :=
  if q.phase.holdsExecution && decide (q.queue.length < commandResponseCapacity) then
    { q with queue := q.queue ++ [r] }
  else { q with overflowed := true }

/-- `Started`; an error is a protocol failure. -/
def acknowledge (id : Id) (q : Request δ) : Except String (Request δ) :=
  match q.command with
  | none => .error s!"Plugin acknowledged unknown command '{id}'"
  | some ⟨.awaitingStart, sender⟩ =>
    let q := { q with command := some ⟨.running, sender⟩ }
    .ok (if q.phase.awaitsStart then q.notifyStart (.ok ()) else { q with abandoned := true })
  | some ⟨.cancelled, _⟩ => .ok q
  | some ⟨.running, _⟩ => .error s!"Plugin acknowledged command '{id}' more than once"

def replaceProgress (id : Id) (progress : ProgressUpdate δ) (q : Request δ) :
    Except String (Request δ) :=
  match q.command with
  | some ⟨.running, _⟩ => .ok { q with progress := some progress }
  | some ⟨.awaitingStart, _⟩ =>
    .error s!"Plugin sent progress before acknowledging command '{id}'"
  | some ⟨.cancelled, _⟩ | none => .ok q

def output (id : Id) (r : PluginResponse δ) (q : Request δ) : Except String (Request δ) :=
  match q.command with
  | some ⟨.running, _⟩ => .ok (q.push r)
  | some ⟨.awaitingStart, _⟩ =>
    .error s!"Plugin sent output before acknowledging command '{id}'"
  | some ⟨.cancelled, _⟩ | none => .ok q

def finish (id : Id) (r : PluginResponse δ) (route : CommandRoute) (q : Request δ) : Request δ :=
  let q := { q with command := none, completed := true }
  match route with
  | ⟨.awaitingStart, _⟩ =>
    q.notifyStart (.error (.protocol (match r with
      | .error _ message => message
      | _ => s!"Plugin completed command '{id}' before acknowledging it")))
  | ⟨.running, true⟩ => q.pushLast r
  | ⟨.running, false⟩ | ⟨.cancelled, _⟩ => q

/-- A route that is taken out of the table when the connection ends; `last` is put into the
queue if there is room. -/
def terminate (error : PluginClientError) (last : Option (PluginResponse δ)) (q : Request δ) :
    Request δ :=
  match q.command with
  | none => q
  | some route =>
    let q := { q with command := none, completed := true }
    match route, last with
    | ⟨.awaitingStart, _⟩, _ => q.notifyStart (.error error)
    | ⟨.running, true⟩, some r =>
      if q.phase.holdsExecution && decide (q.queue.length < commandResponseCapacity) then
        { q with queue := q.queue ++ [r] }
      else q
    | _, _ => q

/-- A pending cache plan that is answered because the connection ends. -/
def closePlan (error : PluginClientError) (q : Request δ) : Request δ :=
  if q.plan then { q with plan := false, planned := some (.error error) } else q

/-- `mark_cancelled`; the timer it starts is `Action.expire`. -/
def markCancelled (q : Request δ) : Request δ :=
  { q with command := q.command.map fun route => { route with state := .cancelled } }

/-- `receive_output`: `none` while it waits. -/
def receiveOutput (id : Id) (cancelled : Bool) (q : Request δ) :
    Option (Except PluginClientError (Option (PluginResponse δ)) × Request δ) :=
  if cancelled then some (.error (.protocol "Command cancelled"), q)
  else if q.overflowed then
    some (.error (.responseQueueOverflow id commandResponseCapacity), q)
  else
    match q.queue with
    | r :: rest => some (.ok (some r), { q with queue := rest, received := q.received ++ [r] })
    | [] =>
      if (q.command.map CommandRoute.sender).getD false then
        q.progress.map fun progress =>
          (.ok (some (.progress id progress)), { q with progress := none })
      else some (.ok none, q)

end Request

/-! ## The client -/

inductive Handler where
  | reading
  /-- `fail_protocol` before it has `commands` -/
  | failing (message : String)
  /-- behind the loop -/
  | closing
  /-- at the end of the task, before it has `commands` -/
  | draining
  | ended
  deriving DecidableEq, Repr

structure State (δ : Type) where
  requests : Id → Request δ
  writer : Bool
  /-- the `start_execution` that has locked the writer -/
  writerLock : Option Id
  /-- the frame written last is incomplete -/
  torn : Bool
  control : List (PluginResponse δ)
  shutdownSignal : Bool
  connectionClosed : Bool
  handler : Handler

namespace State

def init : State δ := ⟨fun _ => .unused, true, none, false, [], false, false, .reading⟩

def set (s : State δ) (id : Id) (q : Request δ) : State δ :=
  { s with requests := Function.update s.requests id q }

/-- The first part of `fail_protocol`. -/
def failProtocol (s : State δ) (message : String) : State δ :=
  { s with
    requests := fun id => (s.requests id).closePlan (.protocol message)
    connectionClosed := true
    handler := .failing message }

def answer (s : State δ) (id : Id) : Except String (Request δ) → State δ
  | .ok q => s.set id q
  | .error message => s.failProtocol message

/-- `control_tx.try_send`; the handler leaves its loop when there is no room. -/
def pushControl (s : State δ) (r : PluginResponse δ) : State δ :=
  if s.control.length < controlResponseCapacity then { s with control := s.control ++ [r] }
  else { s with handler := .closing }

def answerPlan (s : State δ) (id : Id) (result : Except PluginClientError (Option δ)) :
    State δ :=
  if (s.requests id).plan then
    s.set id { s.requests id with plan := false, planned := some result }
  else s.failProtocol s!"Plugin returned an unknown cache plan '{id}'"

def dispatchTerminal (s : State δ) (id : Id) (r : PluginResponse δ) : State δ :=
  match (s.requests id).command with
  | some route => s.set id ((s.requests id).finish id r route)
  | none =>
    match r with
    | .error _ message =>
      if (s.requests id).plan then s.answerPlan id (.error (.protocol message))
      else s.pushControl r
    | _ => s

def dispatchExecutionResponse (s : State δ) (r : PluginResponse δ) : State δ :=
  match r with
  | .started id => s.answer id ((s.requests id).acknowledge id)
  | .progress id progress =>
    if progress.observation.isNone then
      s.answer id ((s.requests id).replaceProgress id progress)
    else s.answer id ((s.requests id).output id r)
  | .stdout id _ | .stderr id _ | .stdoutBytes id _ | .stderrBytes id _ | .diagnostic id _
  | .registerArtifact id _ | .registerReport id _ =>
    s.answer id ((s.requests id).output id r)
  | .completed id _ _ | .error id _ => s.dispatchTerminal id r
  | _ => s.pushControl r

/-- `dispatch_response`, with `validate` for `PluginCachePlan::validate`. -/
def dispatchResponse (validate : δ → Except String Unit) (s : State δ) (r : PluginResponse δ) :
    State δ :=
  match r with
  | .cachePlan id plan =>
    s.answerPlan id (match validate plan with
      | .ok () => .ok (some plan)
      | .error message => .error (.protocol message))
  | .cachePlanUnavailable id => s.answerPlan id (.ok none)
  | _ => s.dispatchExecutionResponse r

end State

inductive Action (δ : Type) where
  -- `start_execution`, `tears` when part of a frame was written
  | start (id : Id)
  | lockWriter (id : Id)
  | register (id : Id)
  | write (id : Id)
  | writeFails (id : Id)
  | unregister (id : Id)
  | resume (id : Id)
  | cancel (id : Id)
  | markCancelled (id : Id)
  | sendCancel (id : Id) (ok : Bool)
  -- the caller drops its future or its execution
  | drop (id : Id) (tears : Bool)
  -- spawned tasks
  | abandon (id : Id)
  | expire (id : Id)
  -- `plan_cache`
  | plan (id : Id)
  | sendPlan (id : Id) (ok : Bool)
  | resumePlan (id : Id)
  | timeoutPlan (id : Id)
  -- `receive_output`
  | receive (id : Id) (cancelled : Bool)
  -- other frames, control exchanges and `cleanup`
  | send (ok : Bool)
  | receiveControl
  | signalShutdown
  | closeWriter
  -- the response handler
  | dispatch (r : PluginResponse δ)
  | invalidFrame (message : String)
  | endOfStream
  | observeShutdown
  | failCommands
  | closePlans
  | closeCommands

def Request.move (s : State δ) (q : Request δ) : Action δ → Option (Request δ)
  | .start _ =>
    match q.phase with
    | .unused => some { q with phase := .lockingWriter }
    | _ => none
  | .lockWriter _ =>
    match q.phase with
    | .lockingWriter =>
      if s.writerLock.isSome then none
      else if s.writer then some { q with phase := .registering }
      else some { q with phase := .failed .writerClosed, queue := [] }
    | _ => none
  | .register _ =>
    match q.phase with
    | .registering => some { q with phase := .writing, command := some ⟨.awaitingStart, true⟩ }
    | _ => none
  | .write _ =>
    match q.phase with
    | .writing => some { q with phase := .waiting }
    | _ => none
  | .writeFails _ =>
    match q.phase with
    | .writing => some { q with phase := .removing }
    | _ => none
  | .unregister _ =>
    match q.phase with
    | .removing => some { q with phase := .failed .io, command := none, queue := [] }
    | _ => none
  | .resume _ =>
    match q.phase, q.started with
    | .waiting, some (.ok ()) => some { q with phase := .executing }
    | .waiting, some (.error error) => some { q with phase := .failed error, queue := [] }
    | _, _ => none
  | .cancel _ =>
    match q.phase with
    | .waiting => some { q with phase := .cancelling }
    | _ => none
  | .markCancelled _ =>
    match q.phase with
    | .cancelling => some { q.markCancelled with phase := .sendingCancel }
    | _ => none
  | .sendCancel _ ok =>
    match q.phase with
    | .sendingCancel =>
      if s.writerLock.isSome then none
      else
        let error := if s.writer then
          if ok then .protocol "Command cancelled" else .io
          else .writerClosed
        some { q with phase := .failed error, queue := [] }
    | _ => none
  | .drop _ _ =>
    match q.phase with
    | .unused | .failed _ | .planned _ | .dropped => none
    | .sendingPlan | .awaitingPlan => some { q with phase := .dropped, plan := false }
    | _ => some { q with phase := .dropped, queue := [] }
  | .abandon _ => if q.abandoned then some { q.markCancelled with abandoned := false } else none
  | .expire _ =>
    match q.command with
    | some ⟨.cancelled, _⟩ => some { q with command := none, completed := true }
    | _ => none
  | .plan _ =>
    match q.phase with
    | .unused => some { q with phase := .sendingPlan, plan := true }
    | _ => none
  | .sendPlan _ ok =>
    match q.phase with
    | .sendingPlan =>
      if s.writerLock.isSome then none
      else if s.writer && ok then some { q with phase := .awaitingPlan }
      else
        let error := if s.writer then PluginClientError.io else .writerClosed
        some { q with phase := .planned (.error error), plan := false }
    | _ => none
  | .resumePlan _ =>
    match q.phase, q.planned with
    | .awaitingPlan, some result => some { q with phase := .planned result, plan := false }
    | _, _ => none
  | .timeoutPlan id =>
    match q.phase with
    | .awaitingPlan =>
      let message := s!"Plugin did not return cache plan '{id}' within 5 seconds"
      some { q with phase := .planned (.error (.protocol message)), plan := false }
    | _ => none
  | .receive id cancelled =>
    match q.phase with
    | .executing => (q.receiveOutput id cancelled).map Prod.snd
    | _ => none
  | _ => none

def Action.caller : Action δ → Option Id
  | .start id | .lockWriter id | .register id | .write id | .writeFails id | .unregister id
  | .resume id | .cancel id | .markCancelled id | .sendCancel id _ | .drop id _ | .abandon id
  | .expire id | .plan id | .sendPlan id _ | .resumePlan id | .timeoutPlan id
  | .receive id _ => some id
  | _ => none

namespace State

def writesFrame (s : State δ) (id : Id) : Bool :=
  match (s.requests id).phase with
  | .writing | .sendingPlan | .sendingCancel => true
  | _ => false

def afterMove (s : State δ) : Action δ → State δ
  | .lockWriter id => if s.writer then { s with writerLock := some id } else s
  | .write _ => { s with writerLock := none, torn := false }
  | .writeFails _ => { s with torn := true }
  | .unregister _ => { s with writerLock := none }
  | .sendCancel _ ok | .sendPlan _ ok => if s.writer then { s with torn := !ok } else s
  | .drop id tears =>
    { s with
      writerLock := if s.writerLock = some id then none else s.writerLock
      torn := s.torn || (tears && s.writesFrame id) }
  | _ => s

/-- The steps of the response handler and those that concern no request. -/
def shared (validate : δ → Except String Unit) (s : State δ) : Action δ → Option (State δ)
  | .send ok => if s.writer && s.writerLock.isNone then some { s with torn := !ok } else none
  | .receiveControl =>
    match s.control with
    | _ :: rest => some { s with control := rest }
    | [] => none
  | .signalShutdown => some { s with shutdownSignal := true, connectionClosed := true }
  | .closeWriter =>
    if s.shutdownSignal && s.writerLock.isNone then some { s with writer := false } else none
  | .dispatch r => if s.handler = .reading then some (s.dispatchResponse validate r) else none
  | .invalidFrame message =>
    if s.handler = .reading then some (s.failProtocol message) else none
  | .endOfStream => if s.handler = .reading then some { s with handler := .closing } else none
  | .observeShutdown =>
    if s.handler = .reading ∧ s.shutdownSignal then some { s with handler := .closing }
    else none
  | .failCommands =>
    match s.handler with
    | .failing message =>
      some { s with
        requests := fun id =>
          (s.requests id).terminate (.protocol message) (some (.error id message))
        handler := .closing }
    | _ => none
  | .closePlans =>
    if s.handler = .closing then
      some { s with
        requests := fun id => (s.requests id).closePlan .connectionClosed
        connectionClosed := true
        handler := .draining }
    else none
  | .closeCommands =>
    if s.handler = .draining then
      some { s with
        requests := fun id => (s.requests id).terminate .connectionClosed none
        handler := .ended }
    else none
  | _ => none

def step (validate : δ → Except String Unit) (s : State δ) (a : Action δ) : Option (State δ) :=
  match a.caller with
  | some id => ((s.requests id).move s a).map fun q => (s.afterMove a).set id q
  | none => s.shared validate a

end State

def client (validate : δ → Except String Unit) : Transition.Machine (State δ) (Action δ) where
  init := .init
  step := State.step validate

end Octa.PluginClient
