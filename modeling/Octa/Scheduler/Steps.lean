import Octa.Scheduler.Executor

/-!
# What one step of the executor can do

`Step` lists every transition of the executor with its guard and its effect.
The invariants are proved by cases on it.
-/

namespace Octa.Scheduler

open Transition

variable {ν : Type} [DecidableEq ν]

attribute [simp] State.at

namespace ExecutionPlan

variable (plan : ExecutionPlan ν) (failfast : Bool)

inductive Step (s : State ν) : Action ν → State ν → Prop where
  | countInitial {n initial} (hmain : s.main = .scheduling initial) (hn : n ∈ initial) :
      Step s (.countInitial n)
        { s with main := .sendingInitial n (initial.erase n), active := s.active + 1 }
  | sendInitial {n initial} (hmain : s.main = .sendingInitial n initial)
      (hroom : s.queue.length < plan.capacity) :
      Step s .sendInitial { s with main := .scheduling initial, queue := s.queue ++ [n] }
  | startProcessing (hmain : s.main = .scheduling ∅) :
      Step s .startProcessing
        { s with main := .processing, finished := s.finished || decide (plan.initial = ∅) }
  | receive {n queue} (hmain : s.main = .processing) (hqueue : s.queue = n :: queue) :
      Step s (.receive n) { s.at n .spawned with queue := queue, handles := s.handles ++ [n] }
  | stopReceiving (hmain : s.main = .processing) (hstop : s.cancelled ∨ s.finished) :
      Step s .stopReceiving
        { s with main := .joining s.callerCancelled, receiving := false, queue := [] }
  | cancel : Step s .cancel { s with cancelled := true, callerCancelled := true }
  | abort {n} (hmain : s.main = .joining true) (hidle : s.phase n ≠ .idle)
      (hdone : ∀ result, s.phase n ≠ .done result) : Step s (.abort n) (s.at n .aborted)
  | join {shutdown} (hmain : s.main = .joining shutdown)
      (hover : ∀ n ∈ s.handles, (s.phase n).over) : Step s .join { s with main := .returned }
  | startCleanup {listing} (hmain : s.main = .returned) (hnodup : listing.Nodup)
      (hlisting : listing.toFinset = plan.deferredNodes) :
      Step s (.startCleanup listing)
        { s with main := .cleaning s.completed (plan.cleanupOrder listing) }
  | skip {completed n rest} (hmain : s.main = .cleaning completed (n :: rest))
      (hskip : n ∈ completed ∨ plan.registered completed n = false) :
      Step s .sweep { s with main := .cleaning completed rest }
  | clean {completed n rest} (hmain : s.main = .cleaning completed (n :: rest))
      (hn : n ∉ completed) (hregistered : plan.registered completed n = true) :
      Step s .sweep { s with main := .cleaning completed rest, cleaned := s.cleaned ++ [n] }
  | endCleanup {completed} (hmain : s.main = .cleaning completed []) :
      Step s .endCleanup { s with main := .finished }
  | refuse {n error} (hphase : s.phase n = .spawned) (hrefused : plan.refuses s n error) :
      Step s (.refuse n error) (s.at n (.failing error))
  | begin {n} (hphase : s.phase n = .spawned) :
      Step s (.begin n) { s.at n .executing with
        executed := s.executed ++ [n]
        completed := plan.consumed s.completed n }
  | succeed {n} (hphase : s.phase n = .executing) :
      Step s (.finish n (.ok ()))
        { s.at n .succeeded with succeeded := insert n s.succeeded }
  | finish {n error} (hphase : s.phase n = .executing) :
      Step s (.finish n (.error error)) (s.at n (.failing error))
  | giveUp {n} (hphase : s.phase n = .succeeded) (hcancelled : s.cancelled) :
      Step s (.check n) (s.at n (.completing (.ok ())))
  | check {n} (hphase : s.phase n = .succeeded) (hcancelled : s.cancelled = false) :
      Step s (.check n) (s.at n .registering)
  | register {n} (hphase : s.phase n = .registering) :
      Step s (.register n) { s.at n .publishing with completed := insert n s.completed }
  | decrement {n} (hphase : s.phase n = .publishing) :
      Step s (.decrement n) { s.at n (.releasing (plan.newlyReady s.inDegree n)) with
        inDegree := plan.decremented s.inDegree n
        released := insert n s.released }
  | drop {n dep ready} (hphase : s.phase n = .releasing ready) (hdep : dep ∈ ready)
      (hfinished : s.finished) : Step s (.poll n dep) (s.at n (.releasing (ready.erase dep)))
  | poll {n dep ready} (hphase : s.phase n = .releasing ready) (hdep : dep ∈ ready)
      (hfinished : s.finished = false) :
      Step s (.poll n dep) (s.at n (.counting dep (ready.erase dep)))
  | count {n dep ready} (hphase : s.phase n = .counting dep ready) :
      Step s (.count n) { s.at n (.sending dep ready) with active := s.active + 1 }
  | send {n dep ready} (hphase : s.phase n = .sending dep ready) (hopen : s.receiving)
      (hroom : s.queue.length < plan.capacity) :
      Step s (.send n) { s.at n (.releasing ready) with queue := s.queue ++ [dep] }
  | sendClosed {n dep ready} (hphase : s.phase n = .sending dep ready)
      (hclosed : s.receiving = false) :
      Step s (.send n) (s.at n (.completing (.error .channelError)))
  | drain {n} (hphase : s.phase n = .releasing ∅) : Step s (.drain n) (s.at n .retiring)
  | retireLast {n} (hphase : s.phase n = .retiring) (hactive : s.active = 1) :
      Step s (.retire n) { s.at n .closing with
        active := s.active - 1, retired := insert n s.retired }
  | retire {n} (hphase : s.phase n = .retiring) (hactive : s.active ≠ 1) :
      Step s (.retire n) { s.at n (.completing (.ok ())) with
        active := s.active - 1, retired := insert n s.retired }
  | close {n} (hphase : s.phase n = .closing) :
      Step s (.close n) { s.at n (.completing (.ok ())) with finished := true }
  | fail {n error} (hphase : s.phase n = .failing error) :
      Step s (.fail n) { s.at n (.reporting error) with
        cancelled := s.cancelled || (failfast || plan.failfast n) }
  | report {n error} (hphase : s.phase n = .reporting error) :
      Step s (.report n) { s.at n (.completing (.error error)) with finished := true }
  | complete {n published} (hphase : s.phase n = .completing (.ok ())) (hok : published = true) :
      Step s (.complete n published) (s.at n (.done (.ok ())))
  | lifecycle {n published} (hphase : s.phase n = .completing (.ok ()))
      (hlost : published = false) (hbound : plan.bound n) :
      Step s (.complete n published) (s.at n (.done (.error .lifecycle)))
  | completeError {n published error} (hphase : s.phase n = .completing (.error error)) :
      Step s (.complete n published) (s.at n (.done (.error error)))
  | unwind {n} (hphase : s.phase n = .executing) : Step s (.unwind n) (s.at n .aborted)

variable {plan failfast}

variable {s s' : State ν} {a : Action ν}

theorem Step.of_mainStep (h : plan.mainStep s a = some s') : plan.Step failfast s a s' := by
  cases a <;> simp only [mainStep] at h <;> (repeat' split at h) <;> cases h
  · exact .countInitial ‹_› ‹_›
  · exact .sendInitial ‹_› ‹_›
  · exact .startProcessing (by simp_all only)
  · exact .receive ‹_› (by simp_all only)
  · exact .stopReceiving ‹_› (by simp_all)
  · exact .cancel
  · exact .abort ‹_› ‹_› ‹_›
  · exact .join ‹_› (by simp_all)
  · exact .startCleanup ‹_› (by simp_all) (by simp_all)
  · exact .skip ‹_› ‹_›
  · exact .clean ‹_› (by simp_all) (by simp_all)
  · exact .endCleanup ‹_›

theorem Step.of_nodeStep
    (h : plan.nodeStep failfast s a = some s') : plan.Step failfast s a s' := by
  cases a <;> simp only [nodeStep] at h <;> (repeat' split at h) <;> cases h
  · exact .refuse ‹_› ‹_›
  · exact .begin ‹_›
  · exact .succeed ‹_›
  · exact .finish ‹_›
  · exact .giveUp ‹_› ‹_›
  · exact .check ‹_› (by simp_all)
  · exact .register ‹_›
  · exact .decrement ‹_›
  · exact .drop ‹_› ‹_› ‹_›
  · exact .poll ‹_› ‹_› (by simp_all)
  · exact .count ‹_›
  · exact .send ‹_› ‹_› ‹_›
  · exact .sendClosed ‹_› (by simp_all)
  · exact .drain (by simp_all only)
  · exact .retireLast ‹_› ‹_›
  · exact .retire ‹_› ‹_›
  · exact .close ‹_›
  · exact .fail ‹_›
  · exact .report ‹_›
  · exact .completeError ‹_›
  · exact .complete ‹_› ‹_›
  · exact .lifecycle ‹_› (by simp_all) ‹_›
  · exact .unwind ‹_›

theorem Step.of_step
    (h : (plan.executor failfast).step s a = some s') : plan.Step failfast s a s' := by
  rcases Option.or_eq_some_iff.mp h with hm | ⟨-, hn⟩
  · exact .of_mainStep hm
  · exact .of_nodeStep hn

omit [DecidableEq ν] in
theorem apart_or_node (a : Action ν) (m : ν) : (∀ n ∈ a.node, m ≠ n) ∨ a.node = some m := by
  cases a.node with
  | none => simp
  | some n => simp [eq_comm, em']

theorem Step.frame (h : plan.Step failfast s a s') {m : ν} (hm : ∀ n ∈ a.node, m ≠ n) :
    s'.phase m = s.phase m ∧ (m ∈ s'.handles ↔ m ∈ s.handles) ∧
      (m ∈ s'.executed ↔ m ∈ s.executed) ∧ (m ∈ s'.succeeded ↔ m ∈ s.succeeded) ∧
      (m ∈ s'.released ↔ m ∈ s.released) ∧ (m ∈ s'.retired ↔ m ∈ s.retired) := by
  cases h <;> simp_all [Action.node, Function.update_of_ne]

end ExecutionPlan

end Octa.Scheduler
