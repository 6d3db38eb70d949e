import Mathlib.Data.List.Dedup
import Octa.Foundation.System

/-!
# The execution recorder

The recorder publishes the lifecycle of task scopes and command steps.
-/

namespace Octa.Recorder

/-! ## Console -/

/-- What the parts behind the console do with one record: the event sink, the
renderer, and whether a tick or a background record stores an error before the call
looks into the error slot. -/
structure Weather where
  sink : Bool
  render : Bool
  noise : Bool
  deriving DecidableEq, Repr

structure Console where
  backgroundError : Bool
  droppedDiagnostics : ℕ
  deriving DecidableEq, Repr

/-- What a console call did: whether the record reached the event sink, whether the
sink accepted it, and what the call returned. -/
structure Reply where
  sent : Bool
  accepted : Bool
  ok : Bool
  deriving DecidableEq, Repr

namespace Console

/-- `render`: the error slot is reported before the result of the record itself. -/
def render (console : Console) (weather : Weather) : Console × Bool :=
  let result := weather.sink && weather.render
  if console.backgroundError || weather.noise then
    ({ console with backgroundError := !result }, false)
  else (console, result)

/-- `emit`: reports dropped diagnostics first; `report` is the weather of that record. -/
def emit (console : Console) (report weather : Weather) : Console × Reply :=
  if console.droppedDiagnostics = 0 then
    let (console, ok) := console.render weather
    (console, ⟨true, weather.sink, ok⟩)
  else
    let (after, reported) := { console with droppedDiagnostics := 0 }.render report
    if reported then
      let (console, ok) := after.render weather
      (console, ⟨true, weather.sink, ok⟩)
    else ({ after with droppedDiagnostics := console.droppedDiagnostics },
      ⟨false, false, false⟩)

end Console

/-! ## Lifecycles -/

inductive ConsoleStatus where
  | skipped
  | success
  | cancelled
  | failed
  deriving DecidableEq, Repr

namespace ConsoleStatus

def severity : ConsoleStatus → ℕ
  | skipped => 0
  | success => 1
  | cancelled => 2
  | failed => 3

def max (a b : ConsoleStatus) : ConsoleStatus := if a.severity ≤ b.severity then b else a

end ConsoleStatus

inductive LifecycleState where
  | planned
  | declared
  | started
  | publishingFinish
  | finished
  deriving DecidableEq, Repr

inductive Ident where
  | scope (id : ℕ)
  | step (id : ℕ)
  deriving DecidableEq, Repr

inductive Kind where
  | declared
  | started
  | finished
  deriving DecidableEq, Repr

structure Entry where
  kind : Kind
  ident : Ident
  status : ConsoleStatus
  accepted : Bool
  deriving DecidableEq, Repr

structure ExecutionBinding where
  scope : ℕ
  step : Option ℕ
  deriving DecidableEq, Repr

def ExecutionBinding.Names (binding : ExecutionBinding) : Ident → Prop
  | .scope id => binding.scope = id
  | .step id => binding.step = some id

/-- The nodes of a plan.  Every command node allocates its own step. -/
structure Bindings where
  scopes : List ℕ
  nodes : List ExecutionBinding
  step_unique : ∀ (i j : ℕ) (a b : ExecutionBinding) (id : ℕ), nodes[i]? = some a →
    nodes[j]? = some b → a.step = some id → b.step = some id → i = j

/-! ## States -/

inductive Phase where
  | idle
  /-- Holds the start lock; the lifecycle was `declared`. -/
  | starting (ident : Ident)
  | startSent (ident : Ident) (ok : Bool)
  /-- `complete` validated the scope and registers artifacts and reports. -/
  | registering (status : ConsoleStatus)
  | finishing (ident : Ident) (previous : LifecycleState) (status : ConsoleStatus)
  | finishSent (ident : Ident) (previous : LifecycleState) (status : ConsoleStatus) (ok : Bool)
  /-- The step is finished; the scope is still to be updated. -/
  | closing (status : ConsoleStatus)
  /-- The future was dropped. -/
  | dropped (phase : Phase)
  deriving DecidableEq

/-- Where the executor stands: it declares, lets the nodes run and finishes the rest.
`scopes` is the pass over the scopes, as opposed to the one over the steps. -/
inductive Main where
  | undeclared (rejected : Bool)
  | declaring (scopes : Bool) (pending : List Ident)
  | declareSent (scopes : Bool) (ident : Ident) (ok : Bool) (pending : List Ident)
  | emptyFinishing (ident : Ident) (pending : List Ident)
  | emptySent (ident : Ident) (ok : Bool) (pending : List Ident)
  | running
  | publishing (scopes : Bool) (status : ConsoleStatus)
      (pending : List (Ident × LifecycleState)) (failed : Bool)
  | publishSent (scopes : Bool) (status : ConsoleStatus) (ident : Ident)
      (previous : LifecycleState) (ok : Bool) (pending : List (Ident × LifecycleState))
      (failed : Bool)
  | returned (failed : Bool)

structure State where
  lifecycle : Ident → LifecycleState
  status : Ident → ConsoleStatus
  remaining : ℕ → ℕ
  startedAt : Ident → Bool
  finishedAt : Ident → Bool
  console : Console
  log : List Entry
  phases : List Phase
  main : Main

def insertionOrder (keys : List ℕ) : List ℕ := keys.reverse.dedup.reverse

namespace Bindings

variable (plan : Bindings)

def allScopes : List ℕ := insertionOrder (plan.scopes ++ plan.nodes.map (·.scope))

def allSteps : List ℕ := insertionOrder (plan.nodes.filterMap (·.step))

def idents (scopes : Bool) : List Ident :=
  if scopes then plan.allScopes.map .scope else plan.allSteps.map .step

/-- `ExecutionRecorder::new`. -/
def new (console : Console) : State where
  lifecycle := fun _ => .planned
  status := fun _ => .skipped
  remaining := fun scope => plan.nodes.countP (·.scope = scope)
  startedAt := fun _ => false
  finishedAt := fun _ => false
  console := console
  log := []
  phases := plan.nodes.map fun _ => .idle
  main := .undeclared false

end Bindings

namespace State

def setLifecycle (s : State) (ident : Ident) (lifecycle : LifecycleState) : State :=
  { s with lifecycle := Function.update s.lifecycle ident lifecycle }

def send (s : State) (kind : Kind) (ident : Ident) (report weather : Weather) : State × Bool :=
  let (console, reply) := s.console.emit report weather
  ({ s with
      console := console
      log := if reply.sent then s.log ++ [⟨kind, ident, s.status ident, reply.accepted⟩]
        else s.log }, reply.ok)

def reserve (s : State) (ident : Ident) (status : ConsoleStatus) : State :=
  { s.setLifecycle ident .publishingFinish with
    status := Function.update s.status ident ((s.status ident).max status) }

def commitStart (s : State) (ident : Ident) : State :=
  { s.setLifecycle ident .started with startedAt := Function.update s.startedAt ident true }

def commitFinish (s : State) (ident : Ident) : State :=
  { s.setLifecycle ident .finished with finishedAt := Function.update s.finishedAt ident true }

def decrement (s : State) (scope : ℕ) (status : ConsoleStatus) : State :=
  { s with
    remaining := Function.update s.remaining scope (s.remaining scope - 1)
    status := Function.update s.status (.scope scope) ((s.status (.scope scope)).max status) }

def StartsFree (s : State) : Prop :=
  ∀ p ∈ s.phases, ∀ ident ok, p ≠ .starting ident ∧ p ≠ .startSent ident ok

/-- The scopes or steps that `finish_remaining` closes, with their lifecycles. -/
def unfinished (s : State) (idents : List Ident) : List (Ident × LifecycleState) :=
  (idents.filter fun ident => s.lifecycle ident ∈ [.declared, .started]).map fun ident =>
    (ident, s.lifecycle ident)

def remainingStatus (status : ConsoleStatus) (lifecycle : LifecycleState) : ConsoleStatus :=
  if status = .failed ∧ lifecycle = .declared then .skipped else status

def reserveAll (s : State) (status : ConsoleStatus) (pending : List (Ident × LifecycleState)) :
    State :=
  pending.foldl (fun s entry => s.reserve entry.1 (remainingStatus status entry.2)) s

/-- `results` finds the time of every finish. -/
def ResultsOk (plan : Bindings) (s : State) : Prop :=
  ∀ scopes, ∀ ident ∈ plan.idents scopes, s.finishedAt ident = true

end State

/-! ## Steps -/

inductive Label where
  | proceeds
  | sends (report weather : Weather)
  | returns (ok : Bool)
  | drops
  deriving DecidableEq

def Phase.live : Phase → Bool
  | .dropped _ => false
  | _ => true

inductive NodeMove (binding : ExecutionBinding) (s : State) :
    Phase → Label → State → Phase → Prop where
  | start {ident : Ident} : binding.Names ident → s.lifecycle ident = .declared →
      s.StartsFree → NodeMove binding s .idle .proceeds s (.starting ident)
  | startAgain {ident : Ident} : binding.Names ident → s.lifecycle ident = .started →
      NodeMove binding s .idle (.returns true) s .idle
  | startRefused {ident : Ident} : binding.Names ident →
      s.lifecycle ident ∈ [.planned, .publishingFinish, .finished] →
      NodeMove binding s .idle (.returns false) s .idle
  | sendStart {ident : Ident} {report weather : Weather} :
      NodeMove binding s (.starting ident) (.sends report weather)
        (s.send .started ident report weather).1
        (.startSent ident (s.send .started ident report weather).2)
  | commitStart {ident : Ident} :
      NodeMove binding s (.startSent ident true) (.returns true) (s.commitStart ident) .idle
  | failStart {ident : Ident} :
      NodeMove binding s (.startSent ident false) (.returns false) s .idle
  | complete {status : ConsoleStatus} : s.lifecycle (.scope binding.scope) = .started →
      s.remaining binding.scope ≠ 0 → NodeMove binding s .idle .proceeds s (.registering status)
  | completeRefused :
      (s.lifecycle (.scope binding.scope) ≠ .started ∨ s.remaining binding.scope = 0) →
      NodeMove binding s .idle (.returns false) s .idle
  -- an artifact or a report; only the console changes
  | register {status : ConsoleStatus} {report weather : Weather} :
      (s.console.emit report weather).2.ok = true →
      NodeMove binding s (.registering status) (.sends report weather)
        { s with console := (s.console.emit report weather).1 } (.registering status)
  | registerFailed {status : ConsoleStatus} {report weather : Weather} :
      (s.console.emit report weather).2.ok = false →
      NodeMove binding s (.registering status) (.sends report weather)
        { s with console := (s.console.emit report weather).1 } .idle
  | noStep {status : ConsoleStatus} : binding.step = none →
      NodeMove binding s (.registering status) .proceeds s (.closing status)
  | finishStep {status : ConsoleStatus} {id : ℕ} : binding.step = some id →
      s.lifecycle (.step id) ∈ [.declared, .started] →
      NodeMove binding s (.registering status) .proceeds (s.reserve (.step id) status)
        (.finishing (.step id) (s.lifecycle (.step id)) status)
  | stepRefused {status : ConsoleStatus} {id : ℕ} : binding.step = some id →
      s.lifecycle (.step id) ∉ [.declared, .started] →
      NodeMove binding s (.registering status) (.returns false) s .idle
  | sendFinish {ident : Ident} {previous : LifecycleState} {status : ConsoleStatus}
      {report weather : Weather} :
      NodeMove binding s (.finishing ident previous status) (.sends report weather)
        (s.send .finished ident report weather).1
        (.finishSent ident previous status (s.send .finished ident report weather).2)
  | commitStep {id : ℕ} {previous : LifecycleState} {status : ConsoleStatus} :
      NodeMove binding s (.finishSent (.step id) previous status true) .proceeds
        (s.commitFinish (.step id)) (.closing status)
  | commitScope {id : ℕ} {previous : LifecycleState} {status : ConsoleStatus} :
      NodeMove binding s (.finishSent (.scope id) previous status true) (.returns true)
        (s.commitFinish (.scope id)) .idle
  | rollback {ident : Ident} {previous : LifecycleState} {status : ConsoleStatus} :
      NodeMove binding s (.finishSent ident previous status false) (.returns false)
        (s.setLifecycle ident previous) .idle
  | close {status : ConsoleStatus} : s.lifecycle (.scope binding.scope) = .started →
      1 < s.remaining binding.scope →
      NodeMove binding s (.closing status) (.returns true)
        (s.decrement binding.scope status) .idle
  | closeLast {status : ConsoleStatus} : s.lifecycle (.scope binding.scope) = .started →
      s.remaining binding.scope = 1 →
      NodeMove binding s (.closing status) .proceeds
        ((s.decrement binding.scope status).setLifecycle (.scope binding.scope) .publishingFinish)
        (.finishing (.scope binding.scope) .started status)
  | closeRefused {status : ConsoleStatus} :
      (s.lifecycle (.scope binding.scope) ≠ .started ∨ s.remaining binding.scope = 0) →
      NodeMove binding s (.closing status) (.returns false) s .idle
  | drop {phase : Phase} : phase.live = true →
      NodeMove binding s phase .drops s (.dropped phase)

def Phase.ended : Phase → Bool
  | .idle | .dropped _ => true
  | _ => false

/-- One step of `declare` and of `finish_remaining`. -/
inductive MainMove (plan : Bindings) (s : State) : Main → Label → State → Main → Prop where
  -- `declare`, again after a rejected event
  | declare {rejected : Bool} : MainMove plan s (.undeclared rejected) .proceeds s
      (.declaring true ((plan.idents true).filter fun ident => s.lifecycle ident = .planned))
  | sendDeclare {scopes : Bool} {ident : Ident} {pending : List Ident}
      {report weather : Weather} :
      MainMove plan s (.declaring scopes (ident :: pending)) (.sends report weather)
        (s.send .declared ident report weather).1
        (.declareSent scopes ident (s.send .declared ident report weather).2 pending)
  | failDeclare {scopes : Bool} {ident : Ident} {pending : List Ident} :
      MainMove plan s (.declareSent scopes ident false pending) (.returns false) s
        (.undeclared true)
  | commitDeclare {scopes : Bool} {ident : Ident} {pending : List Ident} :
      (∀ id, ident = .scope id → s.remaining id ≠ 0) →
      MainMove plan s (.declareSent scopes ident true pending) .proceeds
        (s.setLifecycle ident .declared) (.declaring scopes pending)
  -- an empty scope is closed at once
  | commitEmpty {id : ℕ} {pending : List Ident} : s.remaining id = 0 →
      MainMove plan s (.declareSent true (.scope id) true pending) .proceeds
        ((s.setLifecycle (.scope id) .declared).reserve (.scope id) .skipped)
        (.emptyFinishing (.scope id) pending)
  | sendEmpty {ident : Ident} {pending : List Ident} {report weather : Weather} :
      MainMove plan s (.emptyFinishing ident pending) (.sends report weather)
        (s.send .finished ident report weather).1
        (.emptySent ident (s.send .finished ident report weather).2 pending)
  | finishEmpty {ident : Ident} {pending : List Ident} :
      MainMove plan s (.emptySent ident true pending) .proceeds
        (s.commitFinish ident) (.declaring true pending)
  | failEmpty {ident : Ident} {pending : List Ident} :
      MainMove plan s (.emptySent ident false pending) (.returns false)
        (s.setLifecycle ident .declared) (.undeclared true)
  | declareSteps : MainMove plan s (.declaring true []) .proceeds s
      (.declaring false ((plan.idents false).filter fun ident => s.lifecycle ident = .planned))
  | declared : MainMove plan s (.declaring false []) (.returns true) s .running
  -- `finish_failed_start` ignores what `finish_remaining` returns
  | finishFailedStart : MainMove plan s (.undeclared true) .proceeds
        (s.reserveAll .failed (s.unfinished (plan.idents false)))
        (.publishing false .failed (s.unfinished (plan.idents false)) true)
  -- `finish_remaining`, once every node has returned
  | finishSteps {status : ConsoleStatus} : (∀ p ∈ s.phases, p.ended = true) →
      MainMove plan s .running .proceeds
        (s.reserveAll status (s.unfinished (plan.idents false)))
        (.publishing false status (s.unfinished (plan.idents false)) false)
  | sendFinish {scopes : Bool} {status : ConsoleStatus} {ident : Ident}
      {previous : LifecycleState} {pending : List (Ident × LifecycleState)} {failed : Bool}
      {report weather : Weather} :
      MainMove plan s (.publishing scopes status ((ident, previous) :: pending) failed)
        (.sends report weather) (s.send .finished ident report weather).1
        (.publishSent scopes status ident previous (s.send .finished ident report weather).2
          pending failed)
  | commitFinish {scopes : Bool} {status : ConsoleStatus} {ident : Ident}
      {previous : LifecycleState} {pending : List (Ident × LifecycleState)} {failed : Bool} :
      MainMove plan s (.publishSent scopes status ident previous true pending failed) .proceeds
        (s.commitFinish ident) (.publishing scopes status pending failed)
  | rollback {scopes : Bool} {status : ConsoleStatus} {ident : Ident}
      {previous : LifecycleState} {pending : List (Ident × LifecycleState)} {failed : Bool} :
      MainMove plan s (.publishSent scopes status ident previous false pending failed) .proceeds
        (s.setLifecycle ident previous) (.publishing scopes status pending true)
  | finishScopes {status : ConsoleStatus} {failed : Bool} :
      MainMove plan s (.publishing false status [] failed) .proceeds
        (s.reserveAll status (s.unfinished (plan.idents true)))
        (.publishing true status (s.unfinished (plan.idents true)) failed)
  | finished {status : ConsoleStatus} {failed : Bool} :
      MainMove plan s (.publishing true status [] failed) (.returns !failed) s (.returned failed)

inductive Action where
  | node (i : ℕ) (label : Label)
  | main (label : Label)
  /-- A tick or a record without a waiting caller fails. -/
  | backgroundError
  /-- A synchronous diagnostic finds the buffer full. -/
  | dropDiagnostic
  deriving DecidableEq

inductive Step (plan : Bindings) : State → Action → State → Prop where
  | node {s s' : State} {i : ℕ} {binding : ExecutionBinding} {p p' : Phase} {label : Label} :
      s.main = .running → plan.nodes[i]? = some binding → s.phases[i]? = some p →
      NodeMove binding s p label s' p' →
      Step plan s (.node i label) { s' with phases := s.phases.set i p' }
  | main {s s' : State} {m' : Main} {label : Label} : MainMove plan s s.main label s' m' →
      Step plan s (.main label) { s' with main := m' }
  | backgroundError {s : State} :
      Step plan s .backgroundError
        { s with console := { s.console with backgroundError := true } }
  | dropDiagnostic {s : State} :
      Step plan s .dropDiagnostic
        { s with console :=
            { s.console with droppedDiagnostics := s.console.droppedDiagnostics + 1 } }

def Bindings.system (plan : Bindings) (console : Console) :
    Transition.System State Action where
  init := (· = plan.new console)
  step := Step plan

end Octa.Recorder
