import Octa.PluginClient.Routing

/-!
# The end of a connection

The end of the response handler answers every call that waits for its start, but only those
calls whose route is in the table by then.
-/

namespace Octa.PluginClient

open Transition

variable {δ : Type} {validate : δ → Except String Unit} {s : State δ}
  {history : List (State δ × Action δ)}

def Action.isRegister : Action δ → Bool
  | .register _ => true
  | _ => false

def RegistersLate (s : State δ) (a : Action δ) : Prop :=
  s.handler = .ended ∧ a.isRegister = true

instance (s : State δ) (a : Action δ) : Decidable (RegistersLate s a) := instDecidableAnd

theorem command_eq_none_of_ended (h : (client validate).Run history s)
    (hlate : ∀ e ∈ history, ¬RegistersLate e.1 e.2) (hen : s.handler = .ended)
    (id : Id) : (s.requests id).command = none := by
  refine of_ended (G := fun s a => ¬RegistersLate s a) (P := fun q => q.command = none) h hlate
    (fun _ h => h) ?_ hen id
  intro s a id q q' hen hlate hm hn
  cases hm with
  | registered => exact absurd ⟨hen, rfl⟩ hlate
  | markCancelled | abandon => exact Request.markCancelled_command_eq_none.mpr hn
  | unregistered | expire => rfl
  | _ => exact hn

/-- When no route is registered after the end of the handler, a call that waits for its start
is answered: it was acknowledged before, or its next step returns an error. -/
theorem ended_answers_waiting (h : (client validate).Run history s)
    (hlate : ∀ entry ∈ history, ¬RegistersLate entry.1 entry.2) (hended : s.handler = .ended)
    (id : Id) : (s.requests id).command = none ∧
      ((s.requests id).phase = .waiting → (s.requests id).started = some (.ok ()) ∨
        ∃ error s', (client validate).step s (.resume id) = some s' ∧
          (s'.requests id).phase = .failed error) := by
  have hnone := command_eq_none_of_ended h hlate hended id
  refine ⟨hnone, ?_⟩
  intro hphase
  have hshape := (inv_of_run h id).1
  cases hstarted : (s.requests id).started with
  | none =>
    have hawaiting := hshape.waiting hstarted (.inr hphase)
    exact absurd hawaiting (not_awaiting_of_none hnone)
  | some result =>
    cases result with
    | ok => exact .inl rfl
    | error error =>
      refine .inr ⟨error, s.set id { s.requests id with phase := .failed error, queue := [] },
        ?_, by rw [State.set_requests, Function.update_self]⟩
      simp only [client, State.step, Action.caller, Request.move, hphase, hstarted]
      rfl

def Phase.isWaiting : Phase δ → Bool
  | .waiting => true
  | _ => false

theorem Phase.eq_waiting {phase : Phase δ} (h : phase.isWaiting = true) : phase = .waiting := by
  cases phase <;> first | rfl | cases h

def closedWhileWaiting (id : Id) : List (Action Unit) :=
  [.start id, .lockWriter id, .register id, .write id, .endOfStream, .closePlans, .closeCommands]

theorem ended_answers_waiting_closed :
    ∃ history s, (client fun _ : Unit => .ok ()).Run history s ∧ s.handler = .ended ∧
      (s.requests "a").phase = .waiting ∧ (s.requests "a").started ≠ some (.ok ()) ∧
      ((s.requests "a").command = none ∧
        ((s.requests "a").phase = .waiting → (s.requests "a").started = some (.ok ()) ∨
          ∃ error s', (client fun _ : Unit => .ok ()).step s (.resume "a") = some s' ∧
            (s'.requests "a").phase = .failed error)) := by
  have hexec : ((client fun _ : Unit => .ok ()).exec (closedWhileWaiting "a") .init).map
      (fun s => (s.handler, (s.requests "a").phase.isWaiting,
        (s.requests "a").started.any Except.isOk)) =
      some (.ended, true, false) := by decide +kernel
  obtain ⟨s, hexec, hs⟩ := Option.map_eq_some_iff.mp hexec
  have hrun := Machine.Run.start.exec_trace hexec
  have hlate : ∀ entry ∈ (client fun _ : Unit => .ok ()).trace (closedWhileWaiting "a") .init,
      ¬RegistersLate entry.1 entry.2 := by decide +kernel
  obtain ⟨hended, hrest⟩ := Prod.mk.inj hs
  obtain ⟨hphase, hstarted⟩ := Prod.mk.inj hrest
  refine ⟨_, s, hrun, hended, ?_, ?_, ended_answers_waiting hrun hlate hended "a"⟩
  · exact Phase.eq_waiting hphase
  intro hok
  rw [hok] at hstarted
  cases hstarted

/-- A frame of the plugin cannot be read while the call waits for the writer. -/
def registeredLate (id : Id) : List (Action Unit) :=
  [.start id, .invalidFrame "expected value", .failCommands, .closePlans, .closeCommands,
    .lockWriter id, .register id, .write id]

/-- The handler has ended, and the call waits for an acknowledgement that nobody sends. -/
theorem waits_on_ended_handler :
    ∃ s, (client fun _ : Unit => .ok ()).Reachable s ∧ s.handler = .ended ∧
      (s.requests "a").IsAwaiting ∧ (s.requests "a").phase = .waiting ∧
      (s.requests "a").started = none ∧
      (client fun _ : Unit => .ok ()).step s (.resume "a") = none := by
  have hexec : ((client fun _ : Unit => .ok ()).exec (registeredLate "a") .init).map
      (fun s => (s.handler, decide (s.requests "a").IsAwaiting, (s.requests "a").phase.isWaiting,
        (s.requests "a").started.isNone)) =
      some (.ended, true, true, true) := by decide +kernel
  obtain ⟨s, hexec, hs⟩ := Option.map_eq_some_iff.mp hexec
  have hreachable := Machine.Reachable.exec ⟨[], .start⟩ hexec
  obtain ⟨hended, hrest⟩ := Prod.mk.inj hs
  obtain ⟨hawaiting, hrest⟩ := Prod.mk.inj hrest
  obtain ⟨hphase, hstarted⟩ := Prod.mk.inj hrest
  have hphase := Phase.eq_waiting hphase
  have hstarted := Option.isNone_iff_eq_none.mp hstarted
  refine ⟨s, hreachable, hended, of_decide_eq_true hawaiting, hphase, hstarted, ?_⟩
  simp [client, State.step, Action.caller, Request.move, hphase, hstarted]

end Octa.PluginClient
