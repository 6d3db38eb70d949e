import Octa.Recorder.Shutdown

/-!
# The event protocol

The accepted events of a scope or step are those of its committed transitions, and at
most one more whose commit is still to come.
-/

namespace Octa.Recorder

open List

variable {plan : Bindings} {s : State} {history : List (State × Action)}

inductive Reached : LifecycleState → List Kind → Prop where
  | planned : Reached .planned []
  | declared {events : List Kind} : Reached .planned events →
      Reached .declared (events ++ [.declared])
  | started {events : List Kind} : Reached .declared events →
      Reached .started (events ++ [.started])
  | finished {previous : LifecycleState} {events : List Kind} :
      previous ∈ [LifecycleState.declared, .started] → Reached previous events →
      Reached .finished (events ++ [.finished])

/-- The complete event sequences: a step may be skipped before it starts. -/
def completeSequences : List (List Kind) :=
  [[.declared, .started, .finished], [.declared, .finished]]

theorem Reached.isPrefix {lifecycle : LifecycleState} {events : List Kind}
    (h : Reached lifecycle events) : ∃ full ∈ completeSequences, events <+: full := by
  cases h with
  | planned => exact ⟨_, mem_cons_self, nil_prefix⟩
  | declared h =>
    cases h
    exact ⟨_, mem_cons_self, by decide⟩
  | started h =>
    cases h with
    | declared h =>
      cases h
      exact ⟨_, mem_cons_self, by decide⟩
  | finished hp h =>
    cases h with
    | declared h =>
      cases h
      exact ⟨_, mem_cons_of_mem _ mem_cons_self, by decide⟩
    | started h =>
      cases h with
      | declared h =>
        cases h
        exact ⟨_, mem_cons_self, by decide⟩
    | _ => exact absurd hp (by decide)

def Claim.origin : Claim → LifecycleState
  | .declare _ => .planned
  | .start _ => .declared
  | .finish previous _ => previous

def Claim.delivered : Claim → List Kind
  | .declare (some true) => [.declared]
  | .start (some true) => [.started]
  | .finish _ (some true) => [.finished]
  | _ => []

def Trace.accepted (trace : Trace) : List Kind :=
  (trace.filter fun event => event.2).map Prod.fst

/-- The accepted events are those on the way to the lifecycle and that of the claim. -/
def View.Orderly (v : View) : Prop :=
  match v.claim with
  | none => Reached v.lifecycle v.trace.accepted
  | some c => ∃ events, Reached c.origin events ∧ v.trace.accepted = events ++ c.delivered

def Honest (_ : Kind) (reply : Reply) : Prop := reply.sent = true ∧ reply.accepted = reply.ok

theorem Trace.accepted_after {trace : Trace} {kind : Kind} {rep : Reply} (h : Honest kind rep) :
    (trace.after kind rep).accepted = trace.accepted ++ if rep.ok then [kind] else [] := by
  unfold Trace.after Trace.accepted
  rw [if_pos h.1, filter_append, map_append, h.2]
  cases rep.ok <;> rfl

theorem Local.orderly {v v' : View} (h : Local Honest False v v') (hv : v.Consistent)
    (hor : v.Orderly) : v'.Orderly := by
  cases h with
  | refl => exact hor
  | plan | start | reserve => exact ⟨_, hor, (append_nil _).symm⟩
  | dropStart hd => exact absurd hd id
  | @sendDeclare t f reply hre =>
    obtain ⟨events, hr, he⟩ := hor
    refine ⟨events, hr, ?_⟩
    change (t.after .declared reply).accepted = _
    rw [Trace.accepted_after hre, he]
    cases reply.ok <;> simp [Claim.delivered]
  | @sendStart t f reply hre =>
    obtain ⟨events, hr, he⟩ := hor
    refine ⟨events, hr, ?_⟩
    change (t.after .started reply).accepted = _
    rw [Trace.accepted_after hre, he]
    cases reply.ok <;> simp [Claim.delivered]
  | @sendFinish prev t f reply hre =>
    obtain ⟨events, hr, he⟩ := hor
    refine ⟨events, hr, ?_⟩
    change (t.after .finished reply).accepted = _
    rw [Trace.accepted_after hre, he]
    cases reply.ok <;> simp [Claim.delivered]
  | @commitDeclare t f =>
    obtain ⟨events, hr, he⟩ := hor
    change Reached .declared t.accepted
    rw [he]
    exact .declared hr
  | @commitEmpty t f =>
    obtain ⟨events, hr, he⟩ := hor
    exact ⟨_, .declared hr, he.trans (append_nil _).symm⟩
  | @commitStart t f =>
    obtain ⟨events, hr, he⟩ := hor
    change Reached .started t.accepted
    rw [he]
    exact .started hr
  | @commitFinish prev t f =>
    obtain ⟨events, hr, he⟩ := hor
    change Reached .finished t.accepted
    rw [he]
    exact .finished (hv.fits _ rfl).2 hr
  | _ =>
    -- the event was rejected or never sent
    obtain ⟨events, hr, he⟩ := hor
    have hs : Trace.accepted _ = events := he.trans (append_nil events)
    change Reached _ (Trace.accepted _)
    rw [hs]
    exact hr

theorem View.Orderly.reached {v : View} (h : v.Orderly) (hv : v.Consistent) :
    ∃ lifecycle, Reached lifecycle v.trace.accepted := by
  unfold View.Orderly at h
  split at h
  · exact ⟨_, h⟩
  next c hc =>
  obtain ⟨events, hr, he⟩ := h
  have hf := hv.fits c hc
  rw [he]
  unfold Claim.delivered
  split
  · exact ⟨_, .declared hr⟩
  · exact ⟨_, .started hr⟩
  · exact ⟨_, .finished hf.2 hr⟩
  · rw [append_nil]
    exact ⟨_, hr⟩

def State.acceptedEvents (s : State) (ident : Ident) : List Kind :=
  (s.log.filter fun entry => entry.ident = ident ∧ entry.accepted = true).map (·.kind)

theorem State.acceptedEvents_eq (s : State) (i : Ident) :
    s.acceptedEvents i = (s.trace i).accepted := by
  unfold State.acceptedEvents Trace.accepted State.trace
  rw [filter_map, map_map, filter_filter]
  congr 1
  apply filter_congr
  intro e _
  simp [and_comm]

/-- Without aborts, and with a console that fails only where the event sink does, the
accepted events of every scope and step form a beginning of a complete sequence; once
`finish_remaining` has returned `Ok` each has one finish event and `results` succeeds. -/
theorem Bindings.lifecycle_protocol (plan : Bindings)
    (hrun : (plan.system ⟨false, 0⟩).Run history s) (hclear : ∀ entry ∈ history, entry.2.Clear)
    (hdrops : ∀ entry ∈ history, ∀ i, entry.2 ≠ .node i .drops) :
    (∀ ident, ∃ full ∈ completeSequences, s.acceptedEvents ident <+: full) ∧
    (s.main = .returned false → s.ResultsOk plan ∧
      ∀ scopes, ∀ ident ∈ plan.idents scopes, s.acceptedFinishes ident = 1) := by
  refine ⟨fun ident => ?_, fun hreturned => ?_⟩
  · obtain ⟨g, hheld, horderly⟩ := run_invariant False (I := View.Orderly) hrun
      (fun entry hentry => (hclear entry hentry).meets (console_clear_of_mem hrun hclear hentry)
        fun _ _ _ => ⟨rfl, rfl⟩)
      (fun entry hentry i heq => hdrops entry hentry i heq) .planned
      fun _ _ hlocal hv hI => hlocal.orderly hv hI
    obtain ⟨lifecycle, hreached⟩ := (horderly ident).reached (hheld.consistent ident)
    rw [State.acceptedEvents_eq]
    exact hreached.isPrefix
  obtain ⟨g, -, honce⟩ := run_once hrun hclear
  have hflight : ∀ entry ∈ history, ¬ DropsInFlight entry.1 entry.2 := by
    rintro entry hentry ⟨i, _, heq, -⟩
    exact hdrops entry hentry i heq
  refine ⟨fun scopes ident hident => ?_, fun scopes ident hident => ?_⟩
  · exact (honce ident).finishedAt.mpr (finished_of_returned hrun hflight hreturned hident)
  · rw [State.acceptedFinishes_eq]
    exact (honce ident).delivered (.inl (finished_of_returned hrun hflight hreturned hident))

theorem Bindings.lifecycle_protocol_single :
    ∃ history s, (Bindings.single.system ⟨false, 0⟩).Run history s ∧ s.main = .returned false ∧
      s.acceptedEvents (.scope 0) = [.declared, .started, .finished] ∧
      (∀ ident, ∃ full ∈ completeSequences, s.acceptedEvents ident <+: full) ∧
      s.ResultsOk .single ∧ s.acceptedFinishes (.step 0) = 1 := by
  obtain ⟨history, s, hrun, hreturned, hclear, hlog⟩ := exists_rejectedRun
  obtain ⟨hsequences, hresults⟩ := Bindings.lifecycle_protocol .single hrun
    (fun entry hentry => (hclear entry hentry).1) fun entry hentry => (hclear entry hentry).2
  obtain ⟨hok, honce⟩ := hresults hreturned
  exact ⟨history, s, hrun, hreturned, by rw [State.acceptedEvents, hlog]; rfl, hsequences, hok,
    honce false (.step 0) (by decide)⟩

end Octa.Recorder
