import Octa.Foundation.FiniteGraph
import Octa.Foundation.Machine

/-!
# Concurrent execution of a plan

The executor as a machine whose actions are the atomic sections of the code
between two suspension points: lock sections, atomic counter operations, token
checks, channel operations.
-/

namespace Octa.Scheduler

open Transition

/-- A cleanup action attached to an internal barrier in the main task graph. -/
structure DeferredAction (ν : Type) where
  /-- Declaration order used to run unfinished cleanup actions in LIFO order. -/
  order : ℕ
  /-- Tasks that must finish before this cleanup action is considered registered. -/
  registeredAfter : List ν

/-- A task graph together with the cleanup actions of its barriers.  The
planner numbers the actions of one plan consecutively. -/
structure ExecutionPlan (ν : Type) where
  dag : FiniteGraph ν
  deferred : ν → Option (DeferredAction ν)
  failfast : ν → Bool
  requiresConcurrencyPermit : ν → Bool
  /-- the node publishes its lifecycle through an execution binding -/
  bound : ν → Bool
  deferred_mem : ∀ {n action}, deferred n = some action → n ∈ dag.nodes
  order_injective : ∀ {n m action action'}, deferred n = some action →
    deferred m = some action' → action.order = action'.order → n = m

inductive ExecutorError where
  | taskFailed
  | taskCancelled
  | concurrencyLimiterClosed
  | lifecycle
  | channelError
  deriving DecidableEq, Repr

inductive Phase (ν : Type) where
  /-- not spawned -/
  | idle
  /-- before execution: runtime guard, scope, permit, step -/
  | spawned
  /-- in `Executable::execute`, or in the nested plan of a barrier -/
  | executing
  /-- execution returned a successful outcome -/
  | succeeded
  /-- the cancellation check of `handle_success` has passed -/
  | registering
  /-- recorded as completed, about to decrement the dependants -/
  | publishing
  /-- at the head of the loop over the nodes that became ready -/
  | releasing (ready : Finset ν)
  /-- `finished` was not cancelled, about to count the node as active -/
  | counting (dep : ν) (ready : Finset ν)
  /-- about to send the node -/
  | sending (dep : ν) (ready : Finset ν)
  /-- about to give up its own share of the active counter -/
  | retiring
  /-- it was the last active node, about to cancel `finished` -/
  | closing
  /-- in `handle_error`, before the fail-fast decision -/
  | failing (error : ExecutorError)
  /-- in `handle_error`, about to cancel `finished` -/
  | reporting (error : ExecutorError)
  /-- in `complete_scope` -/
  | completing (result : Except ExecutorError Unit)
  | done (result : Except ExecutorError Unit)
  | aborted

def Phase.over {ν : Type} : Phase ν → Bool
  | .done _ | .aborted => true
  | _ => false

inductive MainPhase (ν : Type) where
  | scheduling (initial : Finset ν)
  | sendingInitial (node : ν) (initial : Finset ν)
  | processing
  /-- the receiver is gone, the node tasks are awaited; a shutdown may abort them -/
  | joining (shutdown : Bool)
  | returned
  /-- in `run_deferred`, with the snapshot of the completed nodes -/
  | cleaning (completed : Finset ν) (rest : List ν)
  | finished

structure State (ν : Type) where
  main : MainPhase ν
  phase : ν → Phase ν
  inDegree : ν → ℕ
  queue : List ν
  /-- the receiving half of the channel still exists -/
  receiving : Bool
  handles : List ν
  active : ℕ
  completed : Finset ν
  /-- the token that stops the consumption of the queue -/
  finished : Bool
  /-- the execution token -/
  cancelled : Bool
  callerCancelled : Bool
  /-- history: the nodes executed during the traversal -/
  executed : List ν
  /-- history: the nodes whose execution returned a successful outcome -/
  succeeded : Finset ν
  /-- history: the nodes that have decremented their dependants -/
  released : Finset ν
  /-- history: the nodes that have left the active counter -/
  retired : Finset ν
  /-- history: the actions executed by `run_deferred` -/
  cleaned : List ν

inductive Action (ν : Type) where
  | countInitial (node : ν)
  | sendInitial
  | startProcessing
  | receive (node : ν)
  | stopReceiving
  | cancel
  | refuse (node : ν) (error : ExecutorError)
  | begin (node : ν)
  | finish (node : ν) (outcome : Except ExecutorError Unit)
  | check (node : ν)
  | register (node : ν)
  | decrement (node : ν)
  | poll (node dep : ν)
  | count (node : ν)
  | send (node : ν)
  | drain (node : ν)
  | retire (node : ν)
  | close (node : ν)
  | fail (node : ν)
  | report (node : ν)
  | complete (node : ν) (published : Bool)
  | unwind (node : ν)
  | abort (node : ν)
  | join
  | startCleanup (listing : List ν)
  | sweep
  | endCleanup

def Action.node {ν : Type} : Action ν → Option ν
  | .receive n | .refuse n _ | .begin n | .finish n _ | .check n | .register n
  | .decrement n | .poll n _ | .count n | .send n | .drain n | .retire n | .close n | .fail n
  | .report n | .complete n _ | .unwind n | .abort n => some n
  | _ => none

variable {ν : Type} [DecidableEq ν]

def State.at (s : State ν) (n : ν) (p : Phase ν) : State ν :=
  { s with phase := Function.update s.phase n p }

namespace ExecutionPlan

variable (plan : ExecutionPlan ν)

/-- Deferred barriers are released only by their predecessors, never as graph roots. -/
def initial : Finset ν :=
  plan.dag.nodes.filter fun n => plan.deferred n = none ∧ (plan.dag.preds n).card = 0

def capacity : ℕ := max plan.dag.nodes.card 1

/-- The nodes whose in-degree drops to zero when `node` succeeds. -/
def newlyReady (inDegree : ν → ℕ) (node : ν) : Finset ν :=
  (plan.dag.edges node).filter fun dep => inDegree dep - 1 = 0

def decremented (inDegree : ν → ℕ) (node dep : ν) : ℕ :=
  if dep ∈ plan.dag.edges node then inDegree dep - 1 else inDegree dep

/-- Reaching a barrier consumes its cleanup action even when the nested plan fails. -/
def consumed (completed : Finset ν) (node : ν) : Finset ν :=
  if (plan.deferred node).isSome then insert node completed else completed

def order (node : ν) : ℕ := ((plan.deferred node).map DeferredAction.order).getD 0

def deferredNodes : Finset ν := plan.dag.nodes.filter fun n => (plan.deferred n).isSome

/-- The deferred actions, listed in any order, sorted by decreasing declaration order. -/
def cleanupOrder (listing : List ν) : List ν :=
  listing.insertionSort fun n m => plan.order m ≤ plan.order n

/-- An action declared after the failed node was never reached and must not run. -/
def registered (completed : Finset ν) (node : ν) : Bool :=
  match plan.deferred node with
  | some action => action.registeredAfter.all fun task => decide (task ∈ completed)
  | none => false

def init : State ν where
  main := .scheduling plan.initial
  phase := fun _ => .idle
  inDegree := fun n => (plan.dag.preds n).card
  queue := []
  receiving := true
  handles := []
  active := 0
  completed := ∅
  finished := false
  cancelled := false
  callerCancelled := false
  executed := []
  succeeded := ∅
  released := ∅
  retired := ∅
  cleaned := []

def refuses (s : State ν) (node : ν) : ExecutorError → Bool
  | .lifecycle => plan.bound node
  | .taskCancelled => plan.requiresConcurrencyPermit node && s.cancelled
  | .concurrencyLimiterClosed => plan.requiresConcurrencyPermit node
  | _ => false

def mainStep (s : State ν) : Action ν → Option (State ν)
  | .countInitial node =>
    match s.main with
    | .scheduling initial =>
      if node ∈ initial then
        some { s with
          main := .sendingInitial node (initial.erase node), active := s.active + 1 }
      else none
    | _ => none
  | .sendInitial =>
    match s.main with
    | .sendingInitial node initial =>
      if s.queue.length < plan.capacity then
        some { s with main := .scheduling initial, queue := s.queue ++ [node] }
      else none
    | _ => none
  | .startProcessing =>
    match s.main with
    | .scheduling initial =>
      if initial = ∅ then
        some { s with
          main := .processing, finished := s.finished || decide (plan.initial = ∅) }
      else none
    | _ => none
  | .receive node =>
    match s.main, s.queue with
    | .processing, head :: queue =>
      if node = head then
        some { s.at node .spawned with queue := queue, handles := s.handles ++ [node] }
      else none
    | _, _ => none
  | .stopReceiving =>
    match s.main with
    | .processing =>
      if s.cancelled || s.finished then
        some { s with
          main := .joining s.callerCancelled, receiving := false, queue := [] }
      else none
    | _ => none
  | .cancel => some { s with cancelled := true, callerCancelled := true }
  | .abort node =>
    match s.main, s.phase node with
    | .joining true, .idle => none
    | .joining true, .done _ => none
    | .joining true, _ => some (s.at node .aborted)
    | _, _ => none
  | .join =>
    match s.main with
    | .joining _ =>
      if s.handles.all fun node => (s.phase node).over then
        some { s with main := .returned }
      else none
    | _ => none
  | .startCleanup listing =>
    match s.main with
    | .returned =>
      if listing.Nodup ∧ listing.toFinset = plan.deferredNodes then
        some { s with main := .cleaning s.completed (plan.cleanupOrder listing) }
      else none
    | _ => none
  | .sweep =>
    match s.main with
    | .cleaning completed (node :: rest) =>
      if node ∈ completed ∨ plan.registered completed node = false then
        some { s with main := .cleaning completed rest }
      else
        some { s with main := .cleaning completed rest, cleaned := s.cleaned ++ [node] }
    | _ => none
  | .endCleanup =>
    match s.main with
    | .cleaning _ [] => some { s with main := .finished }
    | _ => none
  | _ => none

def nodeStep (failfast : Bool) (s : State ν) : Action ν → Option (State ν)
  | .refuse node error =>
    match s.phase node with
    | .spawned => if plan.refuses s node error then some (s.at node (.failing error)) else none
    | _ => none
  | .begin node =>
    match s.phase node with
    | .spawned =>
      some { s.at node .executing with
        executed := s.executed ++ [node]
        completed := plan.consumed s.completed node }
    | _ => none
  | .finish node outcome =>
    match s.phase node, outcome with
    | .executing, .ok () =>
      some { s.at node .succeeded with succeeded := insert node s.succeeded }
    | .executing, .error error => some (s.at node (.failing error))
    | _, _ => none
  | .check node =>
    match s.phase node with
    | .succeeded =>
      if s.cancelled then some (s.at node (.completing (.ok ())))
      else some (s.at node .registering)
    | _ => none
  | .register node =>
    match s.phase node with
    | .registering => some { s.at node .publishing with completed := insert node s.completed }
    | _ => none
  | .decrement node =>
    match s.phase node with
    | .publishing =>
      some { s.at node (.releasing (plan.newlyReady s.inDegree node)) with
        inDegree := plan.decremented s.inDegree node
        released := insert node s.released }
    | _ => none
  | .poll node dep =>
    match s.phase node with
    | .releasing ready =>
      if dep ∈ ready then
        if s.finished then some (s.at node (.releasing (ready.erase dep)))
        else some (s.at node (.counting dep (ready.erase dep)))
      else none
    | _ => none
  | .count node =>
    match s.phase node with
    | .counting dep ready => some { s.at node (.sending dep ready) with active := s.active + 1 }
    | _ => none
  | .send node =>
    match s.phase node with
    | .sending dep ready =>
      if s.receiving then
        if s.queue.length < plan.capacity then
          some { s.at node (.releasing ready) with queue := s.queue ++ [dep] }
        else none
      else some (s.at node (.completing (.error .channelError)))
    | _ => none
  | .drain node =>
    match s.phase node with
    | .releasing ready => if ready = ∅ then some (s.at node .retiring) else none
    | _ => none
  | .retire node =>
    match s.phase node with
    | .retiring =>
      some { s.at node (if s.active = 1 then .closing else .completing (.ok ())) with
        active := s.active - 1
        retired := insert node s.retired }
    | _ => none
  | .close node =>
    match s.phase node with
    | .closing => some { s.at node (.completing (.ok ())) with finished := true }
    | _ => none
  | .fail node =>
    match s.phase node with
    | .failing error =>
      some { s.at node (.reporting error) with
        cancelled := s.cancelled || (failfast || plan.failfast node) }
    | _ => none
  | .report node =>
    match s.phase node with
    | .reporting error =>
      some { s.at node (.completing (.error error)) with finished := true }
    | _ => none
  | .complete node published =>
    match s.phase node with
    | .completing (.error error) => some (s.at node (.done (.error error)))
    | .completing (.ok ()) =>
      if published then some (s.at node (.done (.ok ())))
      else if plan.bound node then some (s.at node (.done (.error .lifecycle)))
      else none
    | _ => none
  | .unwind node =>
    match s.phase node with
    | .executing => some (s.at node .aborted)
    | _ => none
  | _ => none

/-- `Executor::execute` on the plan, from the initial in-degrees to the end of the cleanup. -/
def executor (failfast : Bool) : Machine (State ν) (Action ν) where
  init := plan.init
  step s a := (plan.mainStep s a).or (plan.nodeStep failfast s a)

end ExecutionPlan

end Octa.Scheduler
