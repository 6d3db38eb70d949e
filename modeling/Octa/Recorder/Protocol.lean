import Octa.Foundation.IndexMap
import Octa.Recorder.Recorder

/-!
# The protocol of one scope or step

Seen from one scope or step, the recorder is a small automaton: somebody claims
the next transition, sends its event and commits it or takes it back.
-/

namespace Octa.Recorder

open List Function State

/-! ## The automaton -/

/-- A transition in flight, and the answer of the console once its event was sent. -/
inductive Claim where
  | declare (sent : Option Bool)
  | start (sent : Option Bool)
  | finish (previous : LifecycleState) (sent : Option Bool)
  deriving DecidableEq

/-- The events of one scope or step that reached the sink, with its verdicts. -/
abbrev Trace := List (Kind × Bool)

structure View where
  lifecycle : LifecycleState
  claim : Option Claim
  trace : Trace
  finishedAt : Bool

def Trace.after (trace : Trace) (kind : Kind) (reply : Reply) : Trace :=
  if reply.sent then trace ++ [(kind, reply.accepted)] else trace

/-- The transitions of one scope or step.  `P` holds of the replies to the events, and
`drops` if a start may be given up after its event was sent. -/
inductive Local (P : Kind → Reply → Prop) (drops : Prop) : View → View → Prop where
  | refl {v : View} : Local P drops v v
  | plan {t : Trace} {f : Bool} :
      Local P drops ⟨.planned, none, t, f⟩ ⟨.planned, some (.declare none), t, f⟩
  | unplan {t : Trace} {f : Bool} :
      Local P drops ⟨.planned, some (.declare none), t, f⟩ ⟨.planned, none, t, f⟩
  | sendDeclare {t : Trace} {f : Bool} {reply : Reply} : P .declared reply →
      Local P drops ⟨.planned, some (.declare none), t, f⟩
        ⟨.planned, some (.declare (some reply.ok)), t.after .declared reply, f⟩
  | failDeclare {t : Trace} {f : Bool} :
      Local P drops ⟨.planned, some (.declare (some false)), t, f⟩ ⟨.planned, none, t, f⟩
  | commitDeclare {t : Trace} {f : Bool} :
      Local P drops ⟨.planned, some (.declare (some true)), t, f⟩ ⟨.declared, none, t, f⟩
  | commitEmpty {t : Trace} {f : Bool} :
      Local P drops ⟨.planned, some (.declare (some true)), t, f⟩
        ⟨.publishingFinish, some (.finish .declared none), t, f⟩
  | start {t : Trace} {f : Bool} :
      Local P drops ⟨.declared, none, t, f⟩ ⟨.declared, some (.start none), t, f⟩
  | sendStart {t : Trace} {f : Bool} {reply : Reply} : P .started reply →
      Local P drops ⟨.declared, some (.start none), t, f⟩
        ⟨.declared, some (.start (some reply.ok)), t.after .started reply, f⟩
  | commitStart {t : Trace} {f : Bool} :
      Local P drops ⟨.declared, some (.start (some true)), t, f⟩ ⟨.started, none, t, f⟩
  | failStart {t : Trace} {f : Bool} :
      Local P drops ⟨.declared, some (.start (some false)), t, f⟩ ⟨.declared, none, t, f⟩
  | dropStart {sent : Option Bool} {t : Trace} {f : Bool} : drops →
      Local P drops ⟨.declared, some (.start sent), t, f⟩ ⟨.declared, none, t, f⟩
  | reserve {previous : LifecycleState} {t : Trace} {f : Bool} :
      previous ∈ [LifecycleState.declared, .started] →
      Local P drops ⟨previous, none, t, f⟩
        ⟨.publishingFinish, some (.finish previous none), t, f⟩
  | sendFinish {previous : LifecycleState} {t : Trace} {f : Bool} {reply : Reply} :
      P .finished reply →
      Local P drops ⟨.publishingFinish, some (.finish previous none), t, f⟩
        ⟨.publishingFinish, some (.finish previous (some reply.ok)),
          t.after .finished reply, f⟩
  | commitFinish {previous : LifecycleState} {t : Trace} {f : Bool} :
      Local P drops ⟨.publishingFinish, some (.finish previous (some true)), t, f⟩
        ⟨.finished, none, t, true⟩
  | rollback {previous : LifecycleState} {t : Trace} {f : Bool} :
      Local P drops ⟨.publishingFinish, some (.finish previous (some false)), t, f⟩
        ⟨previous, none, t, f⟩

def Claim.Fits : Claim → LifecycleState → Prop
  | .declare _, l => l = .planned
  | .start _, l => l = .declared
  | .finish previous _, l =>
    l = .publishingFinish ∧ previous ∈ [LifecycleState.declared, .started]

/-- The claim fits the lifecycle, and a finish in flight has its claim. -/
structure View.Consistent (v : View) : Prop where
  fits : ∀ c, v.claim = some c → c.Fits v.lifecycle
  publishing : v.lifecycle = .publishingFinish → v.claim ≠ none

theorem Local.consistent {P : Kind → Reply → Prop} {drops : Prop} {v v' : View}
    (h : Local P drops v v') (hv : v.Consistent) : v'.Consistent := by
  cases h with
  | refl => exact hv
  | rollback =>
    have hp := (hv.fits _ rfl).2
    refine ⟨(fun c hc => nomatch hc), fun hl => ?_⟩
    simp only at hl
    rw [hl] at hp
    exact absurd hp (by decide)
  | reserve hp =>
    refine ⟨?_, fun _ => Option.some_ne_none _⟩
    rintro c hc
    cases hc
    exact ⟨rfl, hp⟩
  | commitEmpty =>
    refine ⟨?_, fun _ => Option.some_ne_none _⟩
    rintro c hc
    cases hc
    exact ⟨rfl, by decide⟩
  | sendFinish =>
    refine ⟨?_, fun _ => Option.some_ne_none _⟩
    rintro c hc
    cases hc
    exact ⟨rfl, (hv.fits _ rfl).2⟩
  | _ =>
    refine ⟨?_, fun hl => by cases hl⟩
    rintro c hc
    cases hc
    try rfl

/-! ## Claims of the recorder -/

/-- The claim of a node.  A dropped node keeps its reservation of a finish event, while
the start lock is released. -/
def Phase.claim : Phase → Option (Ident × Claim)
  | .starting ident => some (ident, .start none)
  | .startSent ident ok => some (ident, .start (some ok))
  | .finishing ident previous _ => some (ident, .finish previous none)
  | .finishSent ident previous _ ok => some (ident, .finish previous (some ok))
  | .dropped (.finishing ident previous _) => some (ident, .finish previous none)
  | .dropped (.finishSent ident previous _ ok) => some (ident, .finish previous (some ok))
  | _ => none

/-- The claims of `declare` and `finish_remaining`. -/
def Main.claims : Main → List (Ident × Claim)
  | .declaring _ pending => pending.map fun ident => (ident, .declare none)
  | .declareSent _ ident ok pending =>
    (ident, .declare (some ok)) :: pending.map fun ident => (ident, .declare none)
  | .emptyFinishing ident pending =>
    (ident, .finish .declared none) :: pending.map fun ident => (ident, .declare none)
  | .emptySent ident ok pending =>
    (ident, .finish .declared (some ok)) :: pending.map fun ident => (ident, .declare none)
  | .publishing _ _ pending _ => pending.map fun entry => (entry.1, .finish entry.2 none)
  | .publishSent _ _ ident previous ok pending _ =>
    (ident, .finish previous (some ok)) ::
      pending.map fun entry => (entry.1, .finish entry.2 none)
  | _ => []

/-- Who holds the claim of a scope or step: a node, or the executor itself. -/
abbrev Holders := Ident → Option (Option ℕ × Claim)

structure Held (plan : Bindings) (s : State) (g : Holders) : Prop where
  node : ∀ i ident c, (∃ p, s.phases[i]? = some p ∧ p.claim = some (ident, c)) ↔
    g ident = some (some i, c)
  main : ∀ ident c, (ident, c) ∈ s.main.claims ↔ g ident = some (none, c)
  nodup : (s.main.claims.map Prod.fst).Nodup
  fits : ∀ ident k c, g ident = some (k, c) → c.Fits (s.lifecycle ident)
  publishing : ∀ ident, s.lifecycle ident = .publishingFinish → g ident ≠ none
  bound : ∀ i ident c, g ident = some (some i, c) →
    ∃ binding, plan.nodes[i]? = some binding ∧ binding.Names ident
  ended : s.main ≠ .running → ∀ p ∈ s.phases, p.ended = true

def State.trace (s : State) (ident : Ident) : Trace :=
  (s.log.filter fun entry => entry.ident = ident).map fun entry => (entry.kind, entry.accepted)

def State.view (s : State) (g : Holders) (ident : Ident) : View where
  lifecycle := s.lifecycle ident
  claim := (g ident).map Prod.snd
  trace := s.trace ident
  finishedAt := s.finishedAt ident

/-! ## What the operations change -/

section Operations

variable {s : State} {kind : Kind} {ident oth : Ident} {report weather : Weather}

@[simp]
theorem State.send_lifecycle : (s.send kind ident report weather).1.lifecycle = s.lifecycle := rfl

theorem State.send_trace : (s.send kind ident report weather).1.trace ident =
      (s.trace ident).after kind (s.console.emit report weather).2 := by
  simp only [send, trace, Trace.after]
  split
  · simp
  · rfl

theorem State.send_trace_of_ne (h : oth ≠ ident) :
    (s.send kind ident report weather).1.trace oth = s.trace oth := by
  simp only [send, trace]
  split
  · simp [Ne.symm h]
  · rfl

@[simp]
theorem State.setLifecycle_self (l : LifecycleState) :
    (s.setLifecycle ident l).lifecycle ident = l := update_self ..

@[simp]
theorem State.reserve_self (status : ConsoleStatus) :
    (s.reserve ident status).lifecycle ident = .publishingFinish := update_self ..

@[simp]
theorem State.commitStart_self : (s.commitStart ident).lifecycle ident = .started := update_self ..

@[simp]
theorem State.commitFinish_self : (s.commitFinish ident).lifecycle ident = .finished :=
  update_self ..

@[simp]
theorem State.commitFinish_finishedAt : (s.commitFinish ident).finishedAt ident = true :=
  update_self ..

end Operations

/-- The kind of the lifecycle event that a node task sends next. -/
def Phase.sends : Phase → Option Kind
  | .starting _ => some .started
  | .finishing _ _ _ => some .finished
  | _ => none

def Main.sends : Main → Option Kind
  | .declaring _ _ => some .declared
  | .emptyFinishing _ _ | .publishing _ _ _ _ => some .finished
  | _ => none

/-- The reply of an action meets `P`, if the action sends a lifecycle event. -/
def Meets (P : Kind → Reply → Prop) (s : State) : Action → Prop
  | .node i (.sends report weather) => ∀ p, s.phases[i]? = some p → ∀ kind ∈ p.sends,
      P kind (s.console.emit report weather).2
  | .main (.sends report weather) => ∀ kind ∈ s.main.sends,
      P kind (s.console.emit report weather).2
  | _ => True

def Refines (plan : Bindings) (P : Kind → Reply → Prop) (drops : Prop) (s : State) (g : Holders)
    (s' : State) : Prop :=
  ∃ g', Held plan s' g' ∧ ∀ ident, Local P drops (s.view g ident) (s'.view g' ident)

variable {plan : Bindings} {P : Kind → Reply → Prop} {drops : Prop} {s s' : State} {g : Holders}

/-! ## Steps of nodes -/

section Nodes

variable {i : ℕ} {binding : ExecutionBinding} {p p' : Phase}

theorem Held.claim_eq (h : Held plan s g) (hi : s.phases[i]? = some p) {ident : Ident} {c : Claim}
    (hcl : p.claim = some (ident, c)) : g ident = some (some i, c) :=
  (h.node i ident c).mp ⟨p, hi, hcl⟩

theorem Held.consistent (h : Held plan s g) (ident : Ident) : (s.view g ident).Consistent := by
  refine ⟨?_, ?_⟩
  · intro c hc
    obtain ⟨⟨k, c'⟩, hg, rfl⟩ := Option.map_eq_some_iff.mp hc
    exact h.fits ident k c' hg
  · intro hl hn
    exact h.publishing ident hl (Option.map_eq_none_iff.mp hn)

/-- The claims of a step fit the lifecycles when the step is local to every identity. -/
theorem Held.of_local (h : Held plan s g) (g' : Holders)
    (hnode : ∀ i ident c, (∃ p, s'.phases[i]? = some p ∧ p.claim = some (ident, c)) ↔
      g' ident = some (some i, c))
    (hmain : ∀ ident c, (ident, c) ∈ s'.main.claims ↔ g' ident = some (none, c))
    (hno : (s'.main.claims.map Prod.fst).Nodup) (hbound : ∀ i ident c, g' ident = some (some i, c) →
      ∃ binding, plan.nodes[i]? = some binding ∧ binding.Names ident)
    (hended : s'.main ≠ .running → ∀ p ∈ s'.phases, p.ended = true)
    (hlocal : ∀ ident, Local P drops (s.view g ident) (s'.view g' ident)) :
    Refines plan P drops s g s' := by
  have hc : ∀ ident, (s'.view g' ident).Consistent :=
    fun ident => (hlocal ident).consistent (h.consistent ident)
  refine ⟨g', ⟨hnode, hmain, hno, ?_, ?_, hbound, hended⟩, hlocal⟩
  · intro ident k c hs
    apply (hc ident).fits c
    change (g' ident).map Prod.snd = some c
    rw [hs]
    rfl
  intro ident hl hn
  apply (hc ident).publishing hl
  change (g' ident).map Prod.snd = none
  rw [hn]
  rfl

theorem Held.main_claims_nil (hrun : s.main = .running) : s.main.claims = [] := by
  rw [hrun]
  rfl

section

variable (h : Held plan s g)
include h

/-- The claims of the nodes once one of them is in another phase. -/
theorem Held.node_set (hi : s.phases[i]? = some p) {j : ℕ} {ident : Ident}
    {c : Claim} : (∃ q, (s.phases.set i p')[j]? = some q ∧ q.claim = some (ident, c)) ↔
      if j = i then p'.claim = some (ident, c) else g ident = some (some j, c) := by
  split
  · next hj =>
    subst hj
    rw [List.getElem?_set_self (List.getElem?_eq_some_iff.mp hi).1]
    exact ⟨fun ⟨q, hq, hc⟩ => Option.some.inj hq ▸ hc, fun hc => ⟨p', rfl, hc⟩⟩
  next hj =>
  rw [List.getElem?_set_ne (Ne.symm hj)]
  exact h.node j ident c

theorem Held.node_step (hrun : s.main = .running)
    (hbind : plan.nodes[i]? = some binding) (hi : s.phases[i]? = some p) (ident : Ident)
    (before after : Option Claim) (hg : g ident = before.map fun c => (some i, c))
    (hp : p.claim = before.map fun c => (ident, c)) (hp' : p'.claim = after.map fun c => (ident, c))
    (hmain : s'.main = s.main) (hns : after ≠ none → binding.Names ident)
    (hothers : ∀ oth, oth ≠ ident → s'.lifecycle oth = s.lifecycle oth ∧
      s'.trace oth = s.trace oth ∧ s'.finishedAt oth = s.finishedAt oth)
    (hlocal : Local P drops ⟨s.lifecycle ident, before, s.trace ident, s.finishedAt ident⟩
      ⟨s'.lifecycle ident, after, s'.trace ident, s'.finishedAt ident⟩) :
    Refines plan P drops s g { s' with phases := s.phases.set i p' } := by
  have hb : s.view g ident = ⟨s.lifecycle ident, before, s.trace ident, s.finishedAt ident⟩ := by
    simp [view, hg, Option.map_map, Function.comp_def]
  refine h.of_local (update g ident (after.map fun c => (some i, c))) ?_ ?_ ?_ ?_ ?_ ?_
  · intro j oth c
    rw [h.node_set hi, hp']
    by_cases ho : oth = ident
    · subst ho
      rw [update_self, hg]
      split
      · next hj =>
        subst hj
        cases after <;> simp
      · next hj => cases before <;> cases after <;> simp [Ne.symm hj]
    have hne : ∀ o : Option Claim, (o.map fun c => (ident, c)) ≠ some (oth, c) := by
      rintro (_ | c') he
      · cases he
      · cases he
        exact ho rfl
    rw [update_of_ne ho]
    split
    · next hj =>
      subst hj
      refine iff_of_false (hne after) fun hol => ?_
      obtain ⟨q, hq, hc⟩ := (h.node j oth c).mpr hol
      cases hi.symm.trans hq
      exact hne before (hp.symm.trans hc)
    · rfl
  · intro oth c
    change (oth, c) ∈ s'.main.claims ↔ _
    rw [hmain, Held.main_claims_nil hrun]
    constructor
    · intro hm
      cases hm
    intro hg'
    by_cases ho : oth = ident
    · subst ho
      rw [update_self] at hg'
      cases after <;> cases hg'
    rw [update_of_ne ho] at hg'
    have hm := (h.main oth c).mpr hg'
    rw [Held.main_claims_nil hrun] at hm
    cases hm
  · change (s'.main.claims.map Prod.fst).Nodup
    rw [hmain]
    exact h.nodup
  · intro j oth c hg'
    by_cases ho : oth = ident
    · subst ho
      rw [update_self] at hg'
      cases after with
      | none => cases hg'
      | some c' =>
        cases hg'
        exact ⟨binding, hbind, hns (Option.some_ne_none _)⟩
    · rw [update_of_ne ho] at hg'
      exact h.bound j oth c hg'
  · intro hne
    exact absurd (hmain.trans hrun) hne
  · intro oth
    by_cases ho : oth = ident
    · subst ho
      rw [hb]
      simpa [view, trace, Option.map_map, Function.comp_def] using hlocal
    obtain ⟨hl, ht, hf⟩ := hothers oth ho
    have hs : s.view g oth = view { s' with phases := s.phases.set i p' }
          (update g ident (after.map fun c => (some i, c))) oth := by
      simp only [view, update_of_ne ho]
      change View.mk _ _ _ _ = View.mk (s'.lifecycle oth) _ (s'.trace oth) (s'.finishedAt oth)
      rw [hl, ht, hf]
    rw [← hs]
    exact .refl

theorem Held.node_still (hi : s.phases[i]? = some p)
    (hrun : s.main = .running) (hp : p.claim = none) (hp' : p'.claim = none)
    (hmain : s'.main = s.main) (hlife : s'.lifecycle = s.lifecycle) (hlog : s'.log = s.log)
    (hfin : s'.finishedAt = s.finishedAt) :
    Refines plan P drops s g { s' with phases := s.phases.set i p' } := by
  refine h.of_local g ?_ ?_ ?_ h.bound ?_ ?_
  · intro j ident c
    rw [h.node_set hi, hp']
    split
    · next hj =>
      subst hj
      refine iff_of_false nofun fun ho => ?_
      obtain ⟨q, hq, hc⟩ := (h.node j ident c).mpr ho
      cases hi.symm.trans hq
      rw [hp] at hc
      cases hc
    · rfl
  · intro ident c
    change (ident, c) ∈ s'.main.claims ↔ _
    rw [hmain]
    exact h.main ident c
  · change (s'.main.claims.map Prod.fst).Nodup
    rw [hmain]
    exact h.nodup
  · intro hne
    exact absurd (hmain.trans hrun) hne
  · intro ident
    have hs : s.view g ident = view { s' with phases := s.phases.set i p' } g ident := by
      simp [view, trace, hlife, hlog, hfin]
    rw [← hs]
    exact .refl

theorem Held.names (hbind : plan.nodes[i]? = some binding) {ident : Ident}
    {c : Claim} (hg : g ident = some (some i, c)) : binding.Names ident := by
  obtain ⟨bd', hb', hn⟩ := h.bound i ident c hg
  cases hbind.symm.trans hb'
  exact hn

theorem Held.free_of_declared (hrun : s.main = .running)
    {ident : Ident} (hlife : s.lifecycle ident = .declared)
    (hst : ∀ (j : ℕ) q sent, s.phases[j]? = some q → q.claim ≠ some (ident, .start sent)) :
    g ident = none := by
  by_contra hs
  obtain ⟨⟨k, c⟩, hg⟩ := Option.ne_none_iff_exists'.mp hs
  have hf := h.fits ident k c hg
  rw [hlife] at hf
  cases c with
  | declare => cases hf
  | start sent =>
    cases k with
    | none =>
      have hm := (h.main ident _).mpr hg
      rw [Held.main_claims_nil hrun] at hm
      cases hm
    | some j =>
      obtain ⟨q, hq, hc⟩ := (h.node j ident _).mpr hg
      exact hst j q sent hq hc
  | finish => cases hf.1

theorem Held.free_of_started {ident : Ident}
    (hlife : s.lifecycle ident = .started) : g ident = none := by
  by_contra hs
  obtain ⟨⟨k, c⟩, hg⟩ := Option.ne_none_iff_exists'.mp hs
  have hf := h.fits ident k c hg
  rw [hlife] at hf
  cases c with
  | declare | start => cases hf
  | finish => cases hf.1

end

theorem Phase.start_claim {ident : Ident} {sent : Option Bool}
    (h : p.claim = some (ident, .start sent)) :
    p = .starting ident ∨ ∃ ok, p = .startSent ident ok := by
  unfold Phase.claim at h
  split at h <;> cases h
  · exact .inl rfl
  · exact .inr ⟨_, rfl⟩

theorem Held.free_of_step (h : Held plan s g) (hrun : s.main = .running)
    (hbind : plan.nodes[i]? = some binding) (hi : s.phases[i]? = some p) (hp : p.claim = none)
    {id : ℕ} (hstep : binding.step = some id)
    (hlife : s.lifecycle (.step id) ∈ [LifecycleState.declared, .started]) :
    g (.step id) = none := by
  rcases mem_cons.mp hlife with hd | hs
  · apply h.free_of_declared hrun hd
    intro j q sent hq hc
    have hg := h.claim_eq hq hc
    obtain ⟨bd', hb', hn⟩ := h.bound j _ _ hg
    obtain rfl := plan.step_unique i j binding bd' id hbind hb' hstep hn
    cases hi.symm.trans hq
    rw [hp] at hc
    cases hc
  · exact h.free_of_started (mem_singleton.mp hs)

theorem NodeMove.refines {label : Label} (hmove : NodeMove binding s p label s' p')
    (h : Held plan s g) (hrun : s.main = .running) (hbind : plan.nodes[i]? = some binding)
    (hi : s.phases[i]? = some p) (hP : Meets P s (.node i label))
    (hdrops : label = .drops → drops) :
    Refines plan P drops s g { s' with phases := s.phases.set i p' } := by
  have hst : p.claim = none → p'.claim = none → s'.main = s.main →
      s'.lifecycle = s.lifecycle → s'.log = s.log → s'.finishedAt = s.finishedAt →
      Refines plan P drops s g { s' with phases := s.phases.set i p' } :=
    fun hp hp' hm hli hl hf =>
      h.node_still hi hrun hp hp' hm hli hl hf
  cases hmove with
  | @start ident hns hli hfr =>
    have hg : g ident = none := by
      apply h.free_of_declared hrun hli
      intro j q sent hq hc
      rcases Phase.start_claim hc with rfl | ⟨ok, rfl⟩
      · exact (hfr _ (mem_of_getElem? hq) ident true).1 rfl
      · exact (hfr _ (mem_of_getElem? hq) ident ok).2 rfl
    refine h.node_step hrun hbind hi ident none (some (.start none)) hg rfl rfl rfl
      (fun _ => hns) (fun _ _ => ⟨rfl, rfl, rfl⟩) ?_
    rw [hli]
    exact .start
  | @sendStart ident report weather =>
    have hg := h.claim_eq hi rfl
    have hli : s.lifecycle ident = .declared := h.fits ident _ _ hg
    refine h.node_step hrun hbind hi ident (some (.start none)) (some (.start (some _)))
      hg rfl rfl rfl (fun _ => h.names hbind hg)
      (fun oth hne => ⟨rfl, send_trace_of_ne hne, rfl⟩) ?_
    rw [send_trace, send_lifecycle, hli]
    exact .sendStart (hP _ hi _ rfl)
  | @commitStart ident =>
    have hg := h.claim_eq hi rfl
    have hli : s.lifecycle ident = .declared := h.fits ident _ _ hg
    refine h.node_step hrun hbind hi ident (some (.start (some true))) none
      hg rfl rfl rfl (fun hn => absurd rfl hn)
      (fun oth hne => ⟨update_of_ne hne _ _, rfl, rfl⟩) ?_
    rw [hli, commitStart_self]
    exact .commitStart
  | @failStart ident =>
    have hg := h.claim_eq hi rfl
    have hli : s.lifecycle ident = .declared := h.fits ident _ _ hg
    refine h.node_step hrun hbind hi ident (some (.start (some false))) none
      hg rfl rfl rfl (fun hn => absurd rfl hn) (fun _ _ => ⟨rfl, rfl, rfl⟩) ?_
    rw [hli]
    exact .failStart
  | @finishStep status id hs hli =>
    have hg := h.free_of_step hrun hbind hi rfl hs hli
    refine h.node_step hrun hbind hi (.step id) none
      (some (.finish (s.lifecycle (.step id)) none)) hg rfl rfl rfl (fun _ => hs)
      (fun oth hne => ⟨update_of_ne hne _ _, rfl, rfl⟩) ?_
    rw [reserve_self]
    exact .reserve hli
  | @sendFinish ident prev status report weather =>
    have hg := h.claim_eq hi rfl
    have hli := (h.fits ident _ _ hg).1
    refine h.node_step hrun hbind hi ident (some (.finish prev none))
      (some (.finish prev (some _))) hg rfl rfl rfl (fun _ => h.names hbind hg)
      (fun oth hne => ⟨rfl, send_trace_of_ne hne, rfl⟩) ?_
    rw [send_trace, send_lifecycle, hli]
    exact .sendFinish (hP _ hi _ rfl)
  | @commitStep id prev status =>
    have hg := h.claim_eq hi rfl
    have hli := (h.fits (.step id) _ _ hg).1
    refine h.node_step hrun hbind hi (.step id) (some (.finish prev (some true))) none
      hg rfl rfl rfl (fun hn => absurd rfl hn)
      (fun oth hne => ⟨update_of_ne hne _ _, rfl, update_of_ne hne _ _⟩) ?_
    rw [hli, commitFinish_self, commitFinish_finishedAt]
    exact .commitFinish
  | @commitScope id prev status =>
    have hg := h.claim_eq hi rfl
    have hli := (h.fits (.scope id) _ _ hg).1
    refine h.node_step hrun hbind hi (.scope id) (some (.finish prev (some true))) none
      hg rfl rfl rfl (fun hn => absurd rfl hn)
      (fun oth hne => ⟨update_of_ne hne _ _, rfl, update_of_ne hne _ _⟩) ?_
    rw [hli, commitFinish_self, commitFinish_finishedAt]
    exact .commitFinish
  | @rollback ident prev status =>
    have hg := h.claim_eq hi rfl
    have hli := (h.fits ident _ _ hg).1
    refine h.node_step hrun hbind hi ident (some (.finish prev (some false))) none
      hg rfl rfl rfl (fun hn => absurd rfl hn)
      (fun oth hne => ⟨update_of_ne hne _ _, rfl, rfl⟩) ?_
    rw [hli, setLifecycle_self]
    exact .rollback
  | @closeLast status hli hr =>
    have hg := h.free_of_started hli
    refine h.node_step hrun hbind hi (.scope binding.scope) none
      (some (.finish .started none)) hg rfl rfl rfl (fun _ => rfl)
      (fun oth hne => ⟨update_of_ne hne _ _, rfl, rfl⟩) ?_
    rw [hli, setLifecycle_self]
    exact .reserve (by decide)
  | drop hlv =>
    cases p with
    | starting ident | startSent ident =>
      have hg := h.claim_eq hi rfl
      have hli : s.lifecycle ident = .declared := h.fits ident _ _ hg
      refine h.node_step hrun hbind hi ident (some (.start _)) none hg rfl rfl rfl
        (fun hn => absurd rfl hn) (fun _ _ => ⟨rfl, rfl, rfl⟩) ?_
      rw [hli]
      exact .dropStart (hdrops rfl)
    | finishing ident | finishSent ident =>
      have hg := h.claim_eq hi rfl
      refine h.node_step hrun hbind hi ident (some (.finish _ _)) (some (.finish _ _))
        hg rfl rfl rfl (fun _ => h.names hbind hg) (fun _ _ => ⟨rfl, rfl, rfl⟩) ?_
      exact .refl
    | dropped => cases hlv
    | _ => exact hst rfl rfl rfl rfl rfl rfl
  | _ => exact hst rfl rfl rfl rfl rfl rfl

end Nodes

/-! ## Steps of the executor -/

section Executor

variable {m' : Main}

theorem Held.main_update (h : Held plan s g) (g' : Holders) (hphases : s'.phases = s.phases)
    (hg : ∀ ident, g' ident = g ident ∨ ((∀ i c, g ident ≠ some (some i, c)) ∧
      ∀ i c, g' ident ≠ some (some i, c)))
    (hcs : ∀ ident c, (ident, c) ∈ m'.claims ↔ g' ident = some (none, c))
    (hno : (m'.claims.map Prod.fst).Nodup) (hover : m' ≠ .running → ∀ p ∈ s.phases, p.ended = true)
    (hlocal : ∀ ident, Local P drops (s.view g ident) (s'.view g' ident)) :
    Refines plan P drops s g { s' with main := m' } := by
  refine h.of_local g' ?_ hcs hno ?_ ?_ hlocal
  · intro i ident c
    change (∃ p, s'.phases[i]? = some p ∧ _) ↔ _
    rw [hphases, h.node i ident c]
    rcases hg ident with he | ⟨hb, ha⟩
    · rw [he]
    · exact ⟨fun hs => absurd hs (hb i c), fun hs => absurd hs (ha i c)⟩
  · intro i ident c hs
    rcases hg ident with he | ⟨-, ha⟩
    · exact h.bound i ident c (he.symm.trans hs)
    · exact absurd hs (ha i c)
  intro hne
  change ∀ p ∈ s'.phases, _
  rw [hphases]
  exact hover hne

variable {rest : List (Ident × Claim)}

theorem Held.main_first (h : Held plan s g) {ident : Ident} {c₀ : Claim} (after : Option Claim)
    (hbefore : s.main.claims = (ident, c₀) :: rest)
    (hafter : m'.claims = (after.map fun c => (ident, c)).toList ++ rest)
    (hphases : s'.phases = s.phases)
    (hothers : ∀ oth, oth ≠ ident → s'.lifecycle oth = s.lifecycle oth ∧
      s'.trace oth = s.trace oth ∧ s'.finishedAt oth = s.finishedAt oth)
    (hlocal : Local P drops ⟨s.lifecycle ident, some c₀, s.trace ident, s.finishedAt ident⟩
      ⟨s'.lifecycle ident, after, s'.trace ident, s'.finishedAt ident⟩) :
    Refines plan P drops s g { s' with main := m' } := by
  have hh : g ident = some (none, c₀) := by
    rw [← h.main ident c₀, hbefore]
    exact mem_cons_self
  have hn := h.nodup
  rw [hbefore, map_cons, nodup_cons] at hn
  have hre : ∀ oth c, oth ≠ ident → ((oth, c) ∈ rest ↔ g oth = some (none, c)) := by
    intro oth c hne
    rw [← h.main oth c, hbefore, mem_cons]
    exact ⟨.inr, fun hm => hm.resolve_left fun he => hne (Prod.mk.inj he).1⟩
  have hnt : ∀ c, (ident, c) ∉ rest := fun c hm => hn.1 (mem_map.mpr ⟨_, hm, rfl⟩)
  apply h.main_update (update g ident (after.map fun c => (none, c))) hphases
  · intro oth
    by_cases ho : oth = ident
    · subst ho
      right
      rw [hh, update_self]
      constructor
      · intro i c hs
        cases hs
      · intro i c hs
        cases after <;> cases hs
    · exact .inl (update_of_ne ho _ _)
  · intro oth c
    rw [hafter, mem_append]
    by_cases ho : oth = ident
    · subst ho
      rw [update_self]
      cases after with
      | none => simp [hnt]
      | some c' => simp [hnt, eq_comm]
    rw [update_of_ne ho, ← hre oth c ho]
    cases after with
    | none => simp
    | some c' => simp [ho]
  · rw [hafter]
    cases after with
    | none => exact hn.2
    | some c' => exact nodup_cons.mpr hn
  · intro _
    apply h.ended
    intro hr
    rw [Held.main_claims_nil hr] at hbefore
    cases hbefore
  · intro oth
    by_cases ho : oth = ident
    · subst ho
      have hv : s.view g oth = ⟨s.lifecycle oth, some c₀, s.trace oth, s.finishedAt oth⟩ := by
        simp [view, hh]
      rw [hv]
      simpa [view, Option.map_map, Function.comp_def] using hlocal
    obtain ⟨hl, ht, hf⟩ := hothers oth ho
    have hsa : s.view g oth = s'.view (update g ident (after.map fun c => (none, c))) oth := by
      simp [view, update_of_ne ho, hl, ht, hf]
    rw [← hsa]
    exact .refl

theorem Held.fits_first (h : Held plan s g) {ident : Ident} {c : Claim}
    (hclaims : s.main.claims = (ident, c) :: rest) : c.Fits (s.lifecycle ident) := by
  apply h.fits ident none c
  rw [← h.main ident c, hclaims]
  exact mem_cons_self

theorem mem_iff_lookup {claims : List (Ident × Claim)} (h : (claims.map Prod.fst).Nodup)
    {ident : Ident} {c : Claim} : (ident, c) ∈ claims ↔ claims.lookup ident = some c :=
  ⟨IndexMap.lookup_of_mem h, IndexMap.mem_of_lookup⟩

theorem Held.main_acquire (h : Held plan s g) (hbefore : s.main.claims = [])
    (hno : (m'.claims.map Prod.fst).Nodup) (hphases : s'.phases = s.phases) (hlog : s'.log = s.log)
    (hfin : s'.finishedAt = s.finishedAt) (hover : ∀ p ∈ s.phases, p.ended = true)
    (hnew : ∀ ident c, (ident, c) ∈ m'.claims → g ident = none ∧
      ∀ t f, Local P drops ⟨s.lifecycle ident, none, t, f⟩ ⟨s'.lifecycle ident, some c, t, f⟩)
    (hothers : ∀ ident, ident ∉ m'.claims.map Prod.fst → s'.lifecycle ident = s.lifecycle ident) :
    Refines plan P drops s g { s' with main := m' } := by
  have ht : ∀ ident, s'.trace ident = s.trace ident := by
    intro ident
    simp only [trace, hlog]
  apply h.main_update
    (fun ident => ((m'.claims.lookup ident).map fun c => (none, c)).or (g ident)) hphases
  · intro ident
    cases hl : m'.claims.lookup ident with
    | none => exact .inl rfl
    | some c =>
      right
      rw [(hnew ident c ((mem_iff_lookup hno).mpr hl)).1]
      constructor
      · intro i c' hs
        cases hs
      · intro i c' hs
        cases hs
  · intro ident c
    rw [mem_iff_lookup hno]
    cases hl : m'.claims.lookup ident with
    | none =>
      constructor
      · intro hs
        cases hs
      intro hs
      have hm := (h.main ident c).mpr hs
      rw [hbefore] at hm
      cases hm
    | some c' => simp
  · exact hno
  · intro _
    exact hover
  · intro ident
    cases hl : m'.claims.lookup ident with
    | none =>
      have hn : ident ∉ m'.claims.map Prod.fst := by
        intro hm
        obtain ⟨⟨_, c⟩, he, rfl⟩ := mem_map.mp hm
        rw [mem_iff_lookup hno, hl] at he
        cases he
      have hsa : s.view g ident = s'.view
          (fun ident => ((m'.claims.lookup ident).map fun c => (none, c)).or (g ident)) ident := by
        simp [view, hl, hothers ident hn, ht, hfin]
      rw [← hsa]
      exact .refl
    | some c =>
      obtain ⟨hnn, hlo⟩ := hnew ident c ((mem_iff_lookup hno).mpr hl)
      simpa [view, hl, hnn, ht, hfin] using hlo (s.trace ident) (s.finishedAt ident)

theorem Held.main_release (h : Held plan s g) {ident : Ident} {c₀ : Claim} {pending : List Ident}
    (hbefore : s.main.claims =
      (ident, c₀) :: pending.map fun ident => (ident, .declare none))
    (hphases : s'.phases = s.phases) (hlog : s'.log = s.log) (hfin : s'.finishedAt = s.finishedAt)
    (hothers : ∀ oth, oth ≠ ident → s'.lifecycle oth = s.lifecycle oth)
    (hlocal : ∀ t f, Local P drops ⟨s.lifecycle ident, some c₀, t, f⟩
      ⟨s'.lifecycle ident, none, t, f⟩) :
    Refines plan P drops s g { s' with main := .undeclared true } := by
  have ht : ∀ ident, s'.trace ident = s.trace ident := by
    intro ident
    simp only [trace, hlog]
  have hov : ∀ p ∈ s.phases, p.ended = true := by
    apply h.ended
    intro hr
    rw [Held.main_claims_nil hr] at hbefore
    cases hbefore
  let g' : Holders := fun oth => (g oth).filter fun e => e.1.isSome
  have hma : ∀ oth c, g oth = some (none, c) → g' oth = none := by
    intro oth c hg
    simp [g', hg]
  have hk : ∀ oth, (∀ c, g oth ≠ some (none, c)) → g' oth = g oth := by
    intro oth hn
    cases hg : g oth with
    | none => simp [g', hg]
    | some e =>
      obtain ⟨k, c⟩ := e
      cases k with
      | none => exact absurd hg (hn c)
      | some i => simp [g', hg]
  apply h.main_update g' hphases
  · intro oth
    by_cases hg : ∃ c, g oth = some (none, c)
    · obtain ⟨c, hg⟩ := hg
      right
      rw [hma oth c hg, hg]
      constructor
      · intro i c' hs
        cases hs
      · intro i c' hs
        cases hs
    · exact .inl (hk oth (not_exists.mp hg))
  · intro oth c
    constructor
    · intro hm
      cases hm
    intro hs
    by_cases hg : ∃ c, g oth = some (none, c)
    · obtain ⟨c', hg⟩ := hg
      rw [hma oth c' hg] at hs
      cases hs
    · rw [hk oth (not_exists.mp hg)] at hs
      exact absurd ⟨c, hs⟩ hg
  · exact nodup_nil
  · intro _
    exact hov
  · intro oth
    by_cases hg : ∃ c, g oth = some (none, c)
    · obtain ⟨c, hg⟩ := hg
      have hg' := hma oth c hg
      by_cases ho : oth = ident
      · subst ho
        have hc : (none, c) = ((none : Option ℕ), c₀) := by
          apply Option.some.inj
          rw [← hg, ← h.main oth c₀, hbefore]
          exact mem_cons_self
        cases hc
        simpa [view, hg, hg', ht, hfin] using hlocal (s.trace oth) (s.finishedAt oth)
      have hm := (h.main oth c).mpr hg
      rw [hbefore, mem_cons] at hm
      have hp := hm.resolve_left fun he => ho (Prod.mk.inj he).1
      obtain ⟨_, -, he⟩ := mem_map.mp hp
      cases he
      have hl : s.lifecycle oth = .planned := h.fits oth none _ hg
      have hv : s.view g oth = ⟨.planned, some (.declare none), s.trace oth, s.finishedAt oth⟩ := by
        simp [view, hg, hl]
      have hv' : s'.view g' oth = ⟨.planned, none, s.trace oth, s.finishedAt oth⟩ := by
        simp [view, hg', hothers oth ho, hl, ht, hfin]
      rw [hv, hv']
      exact .unplan
    · have ho : oth ≠ ident := by
        rintro rfl
        apply hg
        refine ⟨c₀, ?_⟩
        rw [← h.main oth c₀, hbefore]
        exact mem_cons_self
      have hsa : s.view g oth = s'.view g' oth := by
        simp [view, hk oth (not_exists.mp hg), hothers oth ho, ht, hfin]
      rw [← hsa]
      exact .refl

theorem nodup_idents (plan : Bindings) (scopes : Bool) : (plan.idents scopes).Nodup := by
  have hk : ∀ keys, (insertionOrder keys).Nodup := fun keys => nodup_reverse.mpr (nodup_dedup _)
  cases scopes with
  | true => exact List.Nodup.map (fun _ _ he => Ident.scope.inj he) (hk _)
  | false => exact List.Nodup.map (fun _ _ he => Ident.step.inj he) (hk _)

theorem Phase.claim_of_over {p : Phase} (hover : p.ended = true) {ident : Ident} {c : Claim}
    (hcl : p.claim = some (ident, c)) : ∃ prev sent, c = .finish prev sent := by
  unfold Phase.claim at hcl
  split at hcl <;> cases hcl
  · cases hover
  · cases hover
  · exact ⟨_, _, rfl⟩
  · exact ⟨_, _, rfl⟩
  · exact ⟨_, _, rfl⟩
  · exact ⟨_, _, rfl⟩

theorem Held.free (h : Held plan s g) (hclaims : s.main.claims = [])
    (hover : ∀ p ∈ s.phases, p.ended = true) {ident : Ident}
    (hlife : s.lifecycle ident ≠ .publishingFinish) : g ident = none := by
  by_contra hs
  obtain ⟨⟨k, c⟩, hg⟩ := Option.ne_none_iff_exists'.mp hs
  cases k with
  | none =>
    have hm := (h.main ident c).mpr hg
    rw [hclaims] at hm
    cases hm
  | some i =>
    obtain ⟨p, hp, hc⟩ := (h.node i ident c).mpr hg
    obtain ⟨prev, sent, rfl⟩ := Phase.claim_of_over (hover p (mem_of_getElem? hp)) hc
    exact hlife (h.fits ident _ _ hg).1

section ReserveAll

variable (s : State) (status : ConsoleStatus) (pending : List (Ident × LifecycleState))

theorem State.reserveAll_frame :
    (s.reserveAll status pending).phases = s.phases ∧ (s.reserveAll status pending).log = s.log ∧
      (s.reserveAll status pending).finishedAt = s.finishedAt ∧
      (s.reserveAll status pending).console = s.console ∧
      (s.reserveAll status pending).main = s.main := by
  unfold reserveAll
  induction pending generalizing s with
  | nil => exact ⟨rfl, rfl, rfl, rfl, rfl⟩
  | cons e pending ih => exact ih _

theorem State.reserveAll_lifecycle (ident : Ident) : (s.reserveAll status pending).lifecycle ident =
      if ident ∈ pending.map Prod.fst then .publishingFinish else s.lifecycle ident := by
  unfold reserveAll
  induction pending generalizing s with
  | nil => simp
  | cons e pending ih =>
    rw [foldl_cons, ih]
    by_cases hm : ident ∈ pending.map Prod.fst
    · rw [if_pos hm, map_cons, if_pos (mem_cons_of_mem _ hm)]
    rw [if_neg hm, map_cons]
    by_cases hi : ident = e.1
    · subst hi
      rw [if_pos mem_cons_self, reserve_self]
    · rw [if_neg (not_mem_cons_of_ne_of_not_mem hi hm)]
      exact update_of_ne hi _ _

end ReserveAll

theorem State.mem_unfinished {idents : List Ident} {ident : Ident} {prev : LifecycleState} :
    (ident, prev) ∈ s.unfinished idents ↔ ident ∈ idents ∧ s.lifecycle ident = prev ∧
      prev ∈ [LifecycleState.declared, .started] := by
  unfold unfinished
  simp only [mem_map, mem_filter, Prod.mk.injEq, decide_eq_true_eq]
  constructor
  · rintro ⟨_, ⟨hm, hl⟩, rfl, rfl⟩
    exact ⟨hm, rfl, hl⟩
  · rintro ⟨hm, rfl, hl⟩
    exact ⟨ident, ⟨hm, hl⟩, rfl, rfl⟩

theorem State.unfinished_keys (idents : List Ident) : (s.unfinished idents).map Prod.fst =
      idents.filter fun ident => s.lifecycle ident ∈ [LifecycleState.declared, .started] := by
  simp [unfinished, map_map, Function.comp_def]

theorem Held.reserve_unfinished (h : Held plan s g) (scopes : Bool) (status : ConsoleStatus)
    (failed : Bool) (hclaims : s.main.claims = []) (hover : ∀ p ∈ s.phases, p.ended = true) :
    Refines plan P drops s g { s.reserveAll status (s.unfinished (plan.idents scopes)) with
        main := .publishing scopes status (s.unfinished (plan.idents scopes)) failed } := by
  obtain ⟨hph, hl, hf, -, -⟩ := s.reserveAll_frame status (s.unfinished (plan.idents scopes))
  have hk : (Main.publishing scopes status (s.unfinished (plan.idents scopes)) failed).claims.map
      Prod.fst = (s.unfinished (plan.idents scopes)).map Prod.fst := by
    simp [Main.claims, map_map, Function.comp_def]
  apply h.main_acquire hclaims _ hph hl hf hover
  · intro ident c hm
    obtain ⟨⟨_, prev⟩, he, heq⟩ := mem_map.mp hm
    cases heq
    obtain ⟨-, hli, hp⟩ := mem_unfinished.mp he
    refine ⟨h.free hclaims hover ?_, ?_⟩
    · rw [hli]
      rintro rfl
      exact absurd hp (by decide)
    intro t f
    rw [reserveAll_lifecycle, if_pos (mem_map.mpr ⟨_, he, rfl⟩), hli]
    exact .reserve hp
  · intro ident hn
    rw [hk] at hn
    rw [reserveAll_lifecycle, if_neg hn]
  · rw [hk, unfinished_keys]
    exact (nodup_idents plan scopes).filter _

theorem Held.plan_declare (h : Held plan s g) (scopes : Bool) (hclaims : s.main.claims = [])
    (hover : ∀ p ∈ s.phases, p.ended = true) : Refines plan P drops s g { s with
        main := .declaring scopes
          ((plan.idents scopes).filter fun ident => s.lifecycle ident = .planned) } := by
  have hk : ∀ pending : List Ident,
      ((Main.declaring scopes pending).claims.map Prod.fst) = pending := by
    intro pending
    simp [Main.claims, map_map, Function.comp_def]
  apply h.main_acquire hclaims _ rfl rfl rfl hover
  · intro ident c hm
    obtain ⟨_, he, heq⟩ := mem_map.mp hm
    cases heq
    have hl : s.lifecycle ident = .planned := of_decide_eq_true (mem_filter.mp he).2
    refine ⟨h.free hclaims hover ?_, ?_⟩
    · rw [hl]
      exact LifecycleState.noConfusion
    intro t f
    rw [hl]
    exact .plan
  · intro ident _
    rfl
  · rw [hk]
    exact (nodup_idents plan scopes).filter _

theorem MainMove.refines {label : Label}
    (hmove : MainMove plan s s.main label s' m') (h : Held plan s g)
    (hP : Meets P s (.main label)) : Refines plan P drops s g { s' with main := m' } := by
  generalize hma : s.main = m at hmove
  have ho : m ≠ .running → ∀ p ∈ s.phases, p.ended = true := fun hne => h.ended (hma ▸ hne)
  have hc : s.main.claims = m.claims := congrArg Main.claims hma
  cases hmove with
  | declare => exact h.plan_declare true hc (ho (by simp))
  | @sendDeclare scopes ident pending report weather =>
    have hl : s.lifecycle ident = .planned := h.fits_first hc
    refine h.main_first (some (.declare (some _))) hc rfl rfl
      (fun oth hne => ⟨rfl, send_trace_of_ne hne, rfl⟩) ?_
    rw [send_trace, send_lifecycle, hl]
    exact .sendDeclare (hP _ (by rw [hma]; rfl))
  | @failDeclare scopes ident pending =>
    have hl : s.lifecycle ident = .planned := h.fits_first hc
    refine h.main_release hc rfl rfl rfl (fun _ _ => rfl) ?_
    intro t f
    rw [hl]
    exact .failDeclare
  | @commitDeclare scopes ident pending =>
    have hl : s.lifecycle ident = .planned := h.fits_first hc
    refine h.main_first none hc rfl rfl (fun oth hne => ⟨update_of_ne hne _ _, rfl, rfl⟩) ?_
    rw [hl, setLifecycle_self]
    exact .commitDeclare
  | @commitEmpty id pending =>
    have hl : s.lifecycle (.scope id) = .planned := h.fits_first hc
    refine h.main_first (some (.finish .declared none)) hc rfl rfl
      (fun oth hne => ⟨?_, rfl, rfl⟩) ?_
    · exact (update_of_ne hne _ _).trans (update_of_ne hne _ _)
    · rw [hl, reserve_self]
      exact .commitEmpty
  | @sendEmpty ident pending report weather =>
    have hf : Claim.Fits (.finish _ _) (s.lifecycle ident) := h.fits_first hc
    refine h.main_first (some (.finish .declared (some _))) hc rfl rfl
      (fun oth hne => ⟨rfl, send_trace_of_ne hne, rfl⟩) ?_
    rw [send_trace, send_lifecycle, hf.1]
    exact .sendFinish (hP _ (by rw [hma]; rfl))
  | @finishEmpty ident pending =>
    have hf : Claim.Fits (.finish _ _) (s.lifecycle ident) := h.fits_first hc
    refine h.main_first none hc rfl rfl
      (fun oth hne => ⟨update_of_ne hne _ _, rfl, update_of_ne hne _ _⟩) ?_
    rw [hf.1, commitFinish_self, commitFinish_finishedAt]
    exact .commitFinish
  | @failEmpty ident pending =>
    have hf : Claim.Fits (.finish _ _) (s.lifecycle ident) := h.fits_first hc
    refine h.main_release hc rfl rfl rfl (fun oth hne => update_of_ne hne _ _) ?_
    intro t f
    rw [hf.1, setLifecycle_self]
    exact .rollback
  | declareSteps => exact h.plan_declare false hc (ho (by simp))
  | declared =>
    exact h.main_acquire hc nodup_nil rfl rfl rfl (ho (by simp))
      (fun _ _ hm => by cases hm) (fun _ _ => rfl)
  | finishFailedStart => exact h.reserve_unfinished false _ true hc (ho (by simp))
  | finishSteps hr => exact h.reserve_unfinished false _ false hc hr
  | @sendFinish scopes status ident prev pending failed report weather =>
    have hf : Claim.Fits (.finish _ _) (s.lifecycle ident) := h.fits_first hc
    refine h.main_first (some (.finish prev (some _))) hc rfl rfl
      (fun oth hne => ⟨rfl, send_trace_of_ne hne, rfl⟩) ?_
    rw [send_trace, send_lifecycle, hf.1]
    exact .sendFinish (hP _ (by rw [hma]; rfl))
  | @commitFinish scopes status ident prev pending failed =>
    have hf : Claim.Fits (.finish _ _) (s.lifecycle ident) := h.fits_first hc
    refine h.main_first none hc rfl rfl
      (fun oth hne => ⟨update_of_ne hne _ _, rfl, update_of_ne hne _ _⟩) ?_
    rw [hf.1, commitFinish_self, commitFinish_finishedAt]
    exact .commitFinish
  | @rollback scopes status ident prev pending failed =>
    have hf : Claim.Fits (.finish _ _) (s.lifecycle ident) := h.fits_first hc
    refine h.main_first none hc rfl rfl (fun oth hne => ⟨update_of_ne hne _ _, rfl, rfl⟩) ?_
    rw [hf.1, setLifecycle_self]
    exact .rollback
  | finishScopes => exact h.reserve_unfinished true _ _ hc (ho (by simp))
  | finished =>
    exact h.main_acquire hc nodup_nil rfl rfl rfl (ho (by simp))
      (fun _ _ hm => by cases hm) (fun _ _ => rfl)

end Executor

/-! ## Runs -/

theorem Step.refines {a : Action} (hstep : Step plan s a s') (h : Held plan s g) (hP : Meets P s a)
    (hdrops : ∀ i, a = .node i .drops → drops) : Refines plan P drops s g s' := by
  have hc : ∀ console : Console, Refines plan P drops s g { s with console := console } :=
    fun console => ⟨g, ⟨h.node, h.main, h.nodup, h.fits, h.publishing, h.bound, h.ended⟩,
      fun _ => .refl⟩
  cases hstep with
  | @node s' i binding p p' label hr hb hi hm =>
    refine hm.refines h hr hb hi hP ?_
    rintro rfl
    exact hdrops i rfl
  | main hm => exact hm.refines h hP
  | backgroundError | dropDiagnostic => exact hc _

theorem held_new (plan : Bindings) (con : Console) : Held plan (plan.new con) fun _ => none where
  node := by
    intro i ident c
    constructor
    · rintro ⟨p, hp, hc⟩
      obtain ⟨_, -, rfl⟩ := mem_map.mp (mem_of_getElem? hp)
      cases hc
    · intro hs
      cases hs
  main := by
    intro ident c
    exact ⟨fun hm => (by cases hm), fun hs => (by cases hs)⟩
  nodup := nodup_nil
  fits := by
    intro ident k c hs
    cases hs
  publishing := by
    intro ident hl
    cases hl
  bound := by
    intro i ident c hs
    cases hs
  ended := by
    intro _ p hp
    obtain ⟨_, -, rfl⟩ := mem_map.mp hp
    rfl

variable (drops) in
theorem run_invariant {I : View → Prop} {con : Console} {hist : List (State × Action)}
    (hrun : (plan.system con).Run hist s) (hP : ∀ e ∈ hist, Meets P e.1 e.2)
    (hdrops : ∀ e ∈ hist, ∀ i, e.2 = .node i .drops → drops) (hinit : I ⟨.planned, none, [], false⟩)
    (hlocal : ∀ v v', Local P drops v v' → v.Consistent → I v → I v') :
    ∃ g, Held plan s g ∧ ∀ ident, I (s.view g ident) := by
  apply hrun.invariant (I := fun s => ∃ g, Held plan s g ∧ ∀ ident, I (s.view g ident))
    (G := fun s a => Meets P s a ∧ ∀ i, a = .node i .drops → drops)
    fun e he => ⟨hP e he, hdrops e he⟩
  · rintro s rfl
    exact ⟨_, held_new plan con, fun _ => hinit⟩
  rintro s a s' ⟨hm, hd⟩ ⟨g, hh, hI⟩ hs
  obtain ⟨g', hh', hl'⟩ := hs.refines hh hm hd
  exact ⟨g', hh', fun ident => hlocal _ _ (hl' ident) (hh.consistent ident) (hI ident)⟩

end Octa.Recorder
