import Octa.Recorder.Finish

/-!
# Shutdown

`finish_remaining` runs when every node has returned or was dropped.  It closes all
that was declared and is not in flight; what a dropped node had reserved stays in
flight.
-/

namespace Octa.Recorder

open List State

variable {plan : Bindings} {s s' : State} {con : Console}
  {history : List (State × Action)}
variable {p : Phase} {label : Label} {m m' : Main} {drops : Prop} {g : Holders} {scopes : Bool}
  {ident : Ident}

/-! ## Lost reservations -/

def Phase.inFlight : Phase → Bool
  | .finishing _ _ _ | .finishSent _ _ _ _ => true
  | _ => false

def Phase.lost : Phase → Bool
  | .dropped phase => phase.inFlight
  | _ => false

/-- The future of a node is dropped between the reservation of a finish event and its
commit. -/
def DropsInFlight (s : State) (a : Action) : Prop :=
  ∃ i p, a = .node i .drops ∧ s.phases[i]? = some p ∧ p.inFlight = true

theorem Phase.claim_of_lost (h : p.lost = true) :
    ∃ ident prev sent, p.claim = some (ident, .finish prev sent) := by
  cases p with
  | dropped phase =>
    cases phase with
    | finishing ident prev status => exact ⟨ident, prev, none, rfl⟩
    | finishSent ident prev status ok => exact ⟨ident, prev, some ok, rfl⟩
    | _ => cases h
  | _ => cases h

theorem Phase.lost_of_claim (hover : p.ended = true) (h : p.claim ≠ none) : p.lost = true := by
  cases p with
  | dropped phase =>
    cases phase with
    | finishing | finishSent => rfl
    | _ => exact absurd rfl h
  | idle => exact absurd rfl h
  | _ => cases hover

theorem NodeMove.lost {bd : ExecutionBinding} {p' : Phase} (hmove : NodeMove bd s p label s' p') :
    p.lost = false ∧ (p'.lost = true ↔ label = .drops ∧ p.inFlight = true) := by
  cases hmove with
  | drop hl =>
    refine ⟨?_, ?_⟩
    · cases p with
      | dropped => cases hl
      | _ => rfl
    · exact ⟨fun h => ⟨rfl, h⟩, fun h => h.2⟩
  | _ =>
    refine ⟨rfl, fun h => (by cases h), fun h => ?_⟩
    cases h.1

theorem MainMove.phases (hmove : MainMove plan s m label s' m') : s'.phases = s.phases := by
  cases hmove with
  | finishFailedStart | finishSteps | finishScopes => exact (reserveAll_frame ..).1
  | _ => rfl

theorem Step.lost {a : Action} (hstep : Step plan s a s') :
    (∃ p ∈ s'.phases, p.lost = true) ↔ (∃ p ∈ s.phases, p.lost = true) ∨ DropsInFlight s a := by
  have hs : ∀ {t : State}, t.phases = s.phases → ¬ DropsInFlight s a →
      ((∃ p ∈ t.phases, p.lost = true) ↔ (∃ p ∈ s.phases, p.lost = true) ∨ DropsInFlight s a) := by
    intro t hp hd
    rw [hp, or_iff_left hd]
  cases hstep with
  | @node s' i bd p p' label hr hb hi hm =>
    obtain ⟨hk, hl⟩ := hm.lost
    have hlt : i < s.phases.length := (List.getElem?_eq_some_iff.mp hi).1
    constructor
    · rintro ⟨q, hq, hq_lost⟩
      obtain ⟨j, hj⟩ := List.getElem?_of_mem hq
      rcases Transition.getElem?_set_cases hj with ⟨rfl, rfl⟩ | ⟨-, hj₀⟩
      · obtain ⟨rfl, hf⟩ := hl.mp hq_lost
        exact .inr ⟨j, p, rfl, hi, hf⟩
      · exact .inl ⟨q, mem_of_getElem? hj₀, hq_lost⟩
    rintro (⟨q, hq, hq_lost⟩ | ⟨j, q, he, hj, hf⟩)
    · obtain ⟨j, hj⟩ := List.getElem?_of_mem hq
      have hne : i ≠ j := by
        rintro rfl
        cases hi.symm.trans hj
        rw [hk] at hq_lost
        cases hq_lost
      refine ⟨q, mem_of_getElem? (i := j) ?_, hq_lost⟩
      exact (List.getElem?_set_ne hne).trans hj
    cases he
    cases hi.symm.trans hj
    exact ⟨p', mem_of_getElem? (List.getElem?_set_self hlt), hl.mpr ⟨rfl, hf⟩⟩
  | main hm =>
    refine hs hm.phases ?_
    rintro ⟨_, _, he, -⟩
    cases he
  | backgroundError | dropDiagnostic =>
    refine hs rfl ?_
    rintro ⟨_, _, he, -⟩
    cases he

theorem lost_iff (hrun : (plan.system con).Run history s) :
    (∃ p ∈ s.phases, p.lost = true) ↔ ∃ e ∈ history, DropsInFlight e.1 e.2 := by
  induction hrun with
  | start hs =>
    subst hs
    constructor
    · rintro ⟨p, hp, hl⟩
      obtain ⟨_, -, rfl⟩ := mem_map.mp hp
      cases hl
    · rintro ⟨_, he, -⟩
      cases he
  | @step history s s' a hrun hst ih =>
    rw [Step.lost hst, ih]
    simp only [mem_append, mem_singleton, or_and_right, exists_or, exists_eq_left]

/-! ## What `finish_remaining` closes -/

/-- The events that `declare` has still to send in the pass it is in. -/
def Main.awaited : Main → List Ident
  | .declaring _ pending => pending
  | .declareSent _ ident _ pending => ident :: pending
  | .emptyFinishing _ pending | .emptySent _ _ pending => pending
  | _ => []

/-- The pass of `declare` over the scopes or the steps is still to come. -/
def Main.declaresLater : Main → Bool → Bool
  | .undeclared _, _ => true
  | .declaring scopes _, pass | .declareSent scopes _ _ _, pass => scopes && !pass
  | .emptyFinishing _ _, pass | .emptySent _ _ _, pass => !pass
  | _, _ => false

/-- The finish events that `finish_remaining` has still to send in the pass it is in. -/
def Main.publishes : Main → List Ident
  | .publishing _ _ pending _ => pending.map Prod.fst
  | .publishSent _ _ ident _ _ pending _ => ident :: pending.map Prod.fst
  | _ => []

/-- The pass of `finish_remaining` over the scopes or the steps is still to come. -/
def Main.publishesLater : Main → Bool → Bool
  | .publishing scopes _ _ _, pass | .publishSent scopes _ _ _ _ _ _, pass => !scopes && pass
  | .returned _, _ => false
  | _, _ => true

/-- The start has failed, or a finish event of `finish_remaining` was rejected. -/
def Main.failed : Main → Bool
  | .publishing _ _ _ failed | .publishSent _ _ _ _ _ _ failed | .returned failed => failed
  | _ => false

/-- The finish event is published, or a node was dropped with it. -/
def State.Closed (s : State) (ident : Ident) : Prop :=
  s.lifecycle ident = .finished ∨ ∃ p ∈ s.phases, p.lost = true ∧ ∃ c, p.claim = some (ident, c)

/-- Unless the run has failed nothing is forgotten: what is not declared will be, and what is
not closed is about to be. -/
structure Tracked (plan : Bindings) (s : State) : Prop where
  declares : ∀ scopes, ∀ ident ∈ plan.idents scopes, s.lifecycle ident = .planned →
    ident ∈ s.main.awaited ∨ s.main.declaresLater scopes = true ∨ s.main.failed = true
  closes : ∀ scopes, ∀ ident ∈ plan.idents scopes, s.Closed ident ∨ ident ∈ s.main.publishes ∨
    s.main.publishesLater scopes = true ∨ s.main.failed = true

variable {P : Kind → Reply → Prop}

theorem Local.planned {v v' : View} (h : Local P drops v v')
    (hv : v.Consistent) (hlife : v'.lifecycle = .planned) : v.lifecycle = .planned := by
  cases h with
  | rollback =>
    have hp := (hv.fits _ rfl).2
    simp only at hlife
    rw [hlife] at hp
    exact absurd hp (by decide)
  | _ => first | exact hlife | rfl | cases hlife

theorem Held.closes (h : Held plan s g) (hclaims : s.main.claims = [])
    (hover : ∀ p ∈ s.phases, p.ended = true) (hid : ident ∈ plan.idents scopes)
    (hlife : s.lifecycle ident ≠ .planned) :
    s.Closed ident ∨ ident ∈ (s.unfinished (plan.idents scopes)).map Prod.fst := by
  have hr : s.lifecycle ident ∈ [LifecycleState.declared, .started] →
      ident ∈ (s.unfinished (plan.idents scopes)).map Prod.fst :=
    fun hm => mem_map.mpr ⟨_, mem_unfinished.mpr ⟨hid, rfl, hm⟩, rfl⟩
  cases hc : s.lifecycle ident with
  | planned => exact absurd hc hlife
  | declared | started => exact .inr (hr (by simp [hc]))
  | finished => exact .inl (.inl hc)
  | publishingFinish =>
    obtain ⟨⟨k, c⟩, hg⟩ := Option.ne_none_iff_exists'.mp (h.publishing ident hc)
    cases k with
    | none =>
      have hm := (h.main ident c).mpr hg
      rw [hclaims] at hm
      cases hm
    | some i =>
      obtain ⟨p, hp, hcl⟩ := (h.node i ident c).mpr hg
      have hm := mem_of_getElem? hp
      refine .inl (.inr ⟨p, hm, Phase.lost_of_claim (hover p hm) ?_, c, hcl⟩)
      rw [hcl]
      exact Option.some_ne_none _

theorem State.Closed.mono (h : s.Closed ident) (hphases : s'.phases = s.phases)
    (hlife : s.lifecycle ident = .finished → s'.lifecycle ident = .finished) : s'.Closed ident := by
  rcases h with hf | hl
  · exact .inl (hlife hf)
  refine .inr ?_
  rw [hphases]
  exact hl

theorem State.reserveAll_finished {status : ConsoleStatus} {idents : List Ident}
    (h : s.lifecycle ident = .finished) :
    (s.reserveAll status (s.unfinished idents)).lifecycle ident = .finished := by
  rw [reserveAll_lifecycle, if_neg, h]
  intro hm
  obtain ⟨⟨_, prev⟩, he, rfl⟩ := mem_map.mp hm
  obtain ⟨-, hl, hp⟩ := mem_unfinished.mp he
  rw [← hl, h] at hp
  exact absurd hp (by decide)

theorem MainMove.awaited (hmove : MainMove plan s m label s' m') (hid : ident ∈ plan.idents scopes)
    (hlife : s'.lifecycle ident = .planned) (hb : s.lifecycle ident = .planned)
    (h : ident ∈ m.awaited ∨ m.declaresLater scopes = true ∨ m.failed = true) :
    ident ∈ m'.awaited ∨ m'.declaresLater scopes = true ∨ m'.failed = true := by
  have hp : ident ∈ (plan.idents scopes).filter fun ident => s.lifecycle ident = .planned :=
    mem_filter.mpr ⟨hid, decide_eq_true hb⟩
  cases hmove with
  | declare =>
    cases scopes with
    | true => exact .inl hp
    | false => exact .inr (.inl rfl)
  | failDeclare | failEmpty => exact .inr (.inl rfl)
  | @commitDeclare scopes' first pending =>
    refine h.imp_left fun hm => (mem_cons.mp hm).resolve_left ?_
    rintro rfl
    rw [setLifecycle_self] at hlife
    cases hlife
  | @commitEmpty id pending =>
    refine h.imp_left fun hm => (mem_cons.mp hm).resolve_left ?_
    rintro rfl
    rw [reserve_self] at hlife
    cases hlife
  | declareSteps =>
    cases scopes with
    | true => rcases h with hm | hl | hfa <;> contradiction
    | false => exact .inl hp
  | declared => rcases h with hm | hl | hfa <;> contradiction
  | finishFailedStart | rollback => exact .inr (.inr rfl)
  | _ => exact h

theorem MainMove.publishes (hmove : MainMove plan s s.main label s' m') (hheld : Held plan s g)
    (h : Tracked plan s) (hid : ident ∈ plan.idents scopes) :
    s'.Closed ident ∨ ident ∈ m'.publishes ∨ m'.publishesLater scopes = true ∨
      m'.failed = true := by
  have hc := h.closes scopes ident hid
  have hd := h.declares scopes ident hid
  generalize hma : s.main = m at hmove hc hd
  have hp := hmove.phases
  have hcs : s.main.claims = m.claims := congrArg Main.claims hma
  have ho : m ≠ .running → ∀ p ∈ s.phases, p.ended = true := fun hne => hheld.ended (hma ▸ hne)
  cases hmove with
  | @finishSteps status hr =>
    cases scopes with
    | true => exact .inr (.inr (.inl rfl))
    | false =>
      have hl : s.lifecycle ident ≠ .planned := by
        intro hl
        rcases hd hl with hm | hla | hfa <;> contradiction
      rcases hheld.closes hcs hr hid hl with hcl | hm
      · exact .inl (hcl.mono hp reserveAll_finished)
      · exact .inr (.inl hm)
  | @finishScopes status failed =>
    by_cases hl : s.lifecycle ident = .planned
    · -- only a failed start leaves something undeclared
      rcases hd hl with hm | hla | hfa
      · cases hm
      · cases hla
      · exact .inr (.inr (.inr hfa))
    cases scopes with
    | true =>
      rcases hheld.closes hcs (ho (by simp)) hid hl with hcl | hm
      · exact .inl (hcl.mono hp reserveAll_finished)
      · exact .inr (.inl hm)
    | false =>
      rcases hc with hcl | hm | hla | hfa
      · exact .inl (hcl.mono hp reserveAll_finished)
      · cases hm
      · cases hla
      · exact .inr (.inr (.inr hfa))
  | @commitFinish scopes' status first prev pending failed =>
    by_cases hf : ident = first
    · subst hf
      exact .inl (.inl commitFinish_self)
    rcases hc with hcl | hm | hre
    · refine .inl (hcl.mono rfl fun hl => ?_)
      exact (Function.update_of_ne hf _ _).trans hl
    · exact .inr (.inl ((mem_cons.mp hm).resolve_left hf))
    · exact .inr (.inr hre)
  | finishFailedStart | rollback => exact .inr (.inr (.inr rfl))
  | finished =>
    rcases hc with hcl | hm | hla | hfa
    · exact .inl hcl
    · cases hm
    · cases hla
    · exact .inr (.inr (.inr hfa))
  | sendFinish => exact hc
  | _ => exact .inr (.inr (.inl rfl))

theorem Step.tracked {a : Action} (hstep : Step plan s a s')
    (hheld : Held plan s g) (hme : Meets P s a) (hdrops : ∀ i, a = .node i .drops → drops)
    (h : Tracked plan s) : Tracked plan s' := by
  obtain ⟨g', -, hlo⟩ := hstep.refines hheld hme hdrops
  have hp : ∀ ident, s'.lifecycle ident = .planned → s.lifecycle ident = .planned :=
    fun ident => (hlo ident).planned (hheld.consistent ident)
  cases hstep with
  | @node s' i bd p p' label hr hb hi hm =>
    have hma : s'.main = .running := by
      rw [← hr]
      cases hm <;> rfl
    refine ⟨fun scopes ident hid hl => ?_, fun scopes ident _ => ?_⟩
    · have ha := h.declares scopes ident hid (hp ident hl)
      change ident ∈ s'.main.awaited ∨ s'.main.declaresLater scopes = true ∨ s'.main.failed = true
      rwa [hma, ← hr]
    change _ ∨ _ ∨ s'.main.publishesLater scopes = true ∨ _
    rw [hma]
    exact .inr (.inr (.inl rfl))
  | main hm =>
    refine ⟨fun scopes ident hid hl => ?_, fun scopes ident hid => ?_⟩
    · exact hm.awaited hid hl (hp ident hl) (h.declares scopes ident hid (hp ident hl))
    · exact hm.publishes hheld h hid
  | backgroundError | dropDiagnostic => exact ⟨h.declares, h.closes⟩

theorem tracked_new (plan : Bindings) (con : Console) : Tracked plan (plan.new con) where
  declares := fun _ _ _ _ => .inr (.inl rfl)
  closes := fun _ _ _ => .inr (.inr (.inl rfl))

theorem run_tracked (hrun : (plan.system con).Run history s) : Tracked plan s := by
  have hb : ∃ g, Held plan s g ∧ Tracked plan s := by
    apply hrun.invariant (I := fun s => ∃ g, Held plan s g ∧ Tracked plan s)
      (G := fun _ _ => True) fun _ _ => trivial
    · rintro s rfl
      exact ⟨_, held_new plan con, tracked_new plan con⟩
    rintro s a s' - ⟨g, hh, ht⟩ hs
    have hm : Meets (fun _ _ => True) s a := by
      cases a with
      | node i label | main label => cases label <;> simp [Meets]
      | backgroundError | dropDiagnostic => trivial
    obtain ⟨g', hh', -⟩ := hs.refines hh hm fun _ _ => trivial
    exact ⟨g', hh', hs.tracked hh hm (fun _ _ => trivial) ht⟩
  obtain ⟨-, -, ht⟩ := hb
  exact ht

theorem closed_of_returned (hrun : (plan.system con).Run history s)
    (hret : s.main = .returned false) (hid : ident ∈ plan.idents scopes) : s.Closed ident := by
  have hcl := (run_tracked hrun).closes scopes ident hid
  rw [hret] at hcl
  rcases hcl with hc | hm | hl | hf
  · exact hc
  · cases hm
  · cases hl
  · cases hf

/-! ## Aborted nodes -/

theorem publish_pending (plan : Bindings) {status : ConsoleStatus}
    (pending : List (Ident × LifecycleState))
    (hmain : s.main = .publishing scopes status pending false) (hco : s.console = ⟨false, 0⟩) :
    ∃ s', plan.Smoothly s s' ∧ s'.main = .publishing scopes status [] false ∧
      s'.console = ⟨false, 0⟩ := by
  induction pending generalizing s with
  | nil => exact ⟨s, .refl, hmain, hco⟩
  | cons e pending ih =>
    obtain ⟨ident, prev⟩ := e
    have he : s.console.emit .fine .fine = (⟨false, 0⟩, ⟨true, true, true⟩) := by
      rw [hco]
      rfl
    have ho : (s.send .finished ident .fine .fine).2 = true := congrArg (·.2.ok) he
    have hs := Step.of_main hmain
      (@MainMove.sendFinish plan s scopes status ident prev pending false .fine .fine)
    rw [ho] at hs
    obtain ⟨s', hc, hm', hc'⟩ := ih
      (s := { (commitFinish { (s.send .finished ident .fine .fine).1 with
        main := .publishSent scopes status ident prev true pending false } ident) with
        main := .publishing scopes status pending false }) rfl (congrArg (·.1) he)
    refine ⟨s', .head ⟨_, rfl, hs⟩ (.head ⟨.main .proceeds, rfl, ?_⟩ hc), hm', hc'⟩
    exact Step.of_main rfl .commitFinish

theorem publish_pass (plan : Bindings) (scopes : Bool) (status : ConsoleStatus)
    (hco : s.console = ⟨false, 0⟩) : ∃ s', plan.Smoothly
        { s.reserveAll status (s.unfinished (plan.idents scopes)) with
          main := .publishing scopes status (s.unfinished (plan.idents scopes)) false } s' ∧
      s'.main = .publishing scopes status [] false ∧ s'.console = ⟨false, 0⟩ := by
  apply publish_pending plan (s.unfinished (plan.idents scopes)) rfl
  exact (reserveAll_frame s status _).2.2.2.1.trans hco

theorem finish_remaining_returns (plan : Bindings) (hmain : s.main = .running)
    (hover : ∀ p ∈ s.phases, p.ended = true) (hco : s.console = ⟨false, 0⟩)
    (status : ConsoleStatus) : ∃ s', plan.Smoothly s s' ∧ s'.main = .returned false := by
  have hs := Step.of_main hmain (@MainMove.finishSteps plan s status hover)
  obtain ⟨s₁, hc₁, hm₁, hco₁⟩ := publish_pass plan false status hco
  have hsc := Step.of_main hm₁ (@MainMove.finishScopes plan s₁ status false)
  obtain ⟨s₂, hc₂, hm₂, -⟩ := publish_pass plan true status hco₁
  have hr := Step.of_main hm₂ (@MainMove.finished plan s₂ status false)
  refine ⟨{ s₂ with main := .returned false }, ?_, rfl⟩
  exact .head ⟨_, rfl, hs⟩ (hc₁.trans (.head ⟨_, rfl, hsc⟩ (hc₂.tail ⟨_, rfl, hr⟩)))

theorem mem_insertionOrder {keys : List ℕ} {key : ℕ} : key ∈ insertionOrder keys ↔ key ∈ keys := by
  simp [insertionOrder]

theorem ExecutionBinding.Names.mem_idents {bd : ExecutionBinding} (h : bd.Names ident)
    (hbind : bd ∈ plan.nodes) : ∃ scopes, ident ∈ plan.idents scopes := by
  cases ident with
  | scope id =>
    refine ⟨true, mem_map.mpr ⟨id, mem_insertionOrder.mpr ?_, rfl⟩⟩
    exact mem_append_right _ (mem_map.mpr ⟨bd, hbind, h⟩)
  | step id =>
    refine ⟨false, mem_map.mpr ⟨id, mem_insertionOrder.mpr ?_, rfl⟩⟩
    exact mem_filterMap.mpr ⟨bd, hbind, h⟩

/-- The finish events of a scope or step that were sent to the sink. -/
def State.finishEvents (s : State) (ident : Ident) : ℕ :=
  s.log.countP fun entry => entry.kind = .finished ∧ entry.ident = ident

def State.acceptedFinishes (s : State) (ident : Ident) : ℕ :=
  s.log.countP fun entry => entry.kind = .finished ∧ entry.ident = ident ∧ entry.accepted = true

theorem State.acceptedFinishes_eq (s : State) (ident : Ident) :
    s.acceptedFinishes ident = (s.trace ident).finishes := by
  unfold acceptedFinishes Trace.finishes trace
  rw [List.count, countP_map, countP_filter]
  apply countP_congr
  intro e _
  simp only [Function.comp_apply, decide_eq_true_eq, beq_iff_eq, Prod.mk.injEq, Bool.and_eq_true]
  tauto

theorem run_once (hrun : (plan.system ⟨false, 0⟩).Run history s) (hcl : ∀ e ∈ history, e.2.Clear) :
    ∃ g, Held plan s g ∧ ∀ ident, (s.view g ident).Once :=
  run_invariant True hrun (fun e he => ((hcl e he).calm (console_clear_of_mem hrun hcl he)).meets)
    (fun _ _ _ _ => trivial) View.Once.initial fun _ _ hl hv hI => hl.once hv hI

/-- No event of `declare` and `finish_remaining` was rejected. -/
def Main.unrejected : Main → Bool
  | .undeclared rejected => !rejected
  | .declareSent _ _ ok _ | .emptySent _ ok _ => ok
  | .publishing _ _ _ failed | .returned failed => !failed
  | .publishSent _ _ _ _ ok _ failed => ok && !failed
  | _ => true

theorem MainMove.unrejected (hmove : MainMove plan s m label s' m')
    (hcl : (Action.main label).Clear) (hsink : (Action.main label).Accepted)
    (hco : s.console = ⟨false, 0⟩) (h : m.unrejected = true) : m'.unrejected = true := by
  have ho : ∀ kind ident report w, label = .sends report w →
      (s.send kind ident report w).2 = true := by
    rintro kind ident report w rfl
    have hr := Console.emit_clear report (hcl.weather w rfl)
    change (s.console.emit report w).2.ok = true
    rw [hco, hr]
    exact hsink w rfl
  cases hmove with
  | sendDeclare | sendEmpty => exact ho _ _ _ _ rfl
  | sendFinish =>
    change ((s.send _ _ _ _).2 && _) = true
    rw [ho _ _ _ _ rfl]
    exact h
  | failDeclare | failEmpty | finishFailedStart | rollback => cases h
  | commitFinish | finishScopes | finished => exact h
  | _ => rfl

theorem run_unrejected (hrun : (plan.system ⟨false, 0⟩).Run history s)
    (hcl : ∀ e ∈ history, e.2.Clear) (hsink : ∀ e ∈ history, e.2.Accepted) :
    s.main.unrejected = true := by
  have hb : s.console = ⟨false, 0⟩ ∧ s.main.unrejected = true := by
    apply hrun.invariant (I := fun s => s.console = ⟨false, 0⟩ ∧ s.main.unrejected = true)
      (G := fun _ a => a.Clear ∧ a.Accepted)
      fun e he => ⟨hcl e he, hsink e he⟩
    · rintro s rfl
      exact ⟨rfl, rfl⟩
    rintro s a s' ⟨ha, hac⟩ ⟨hc, hm⟩ hs
    refine ⟨hs.console_clear ha hc, ?_⟩
    cases hs with
    | node hr hbi hi hmo => cases hmo <;> exact hm
    | main hmo => exact hmo.unrejected ha hac hc hm
    | backgroundError | dropDiagnostic => exact hm
  exact hb.2

theorem Local.accepted {v v' : View} (h : Local (fun _ rep => rep.accepted = true) drops v v')
    (hv : ∀ event ∈ v.trace, event.2 = true) : ∀ event ∈ v'.trace, event.2 = true := by
  have haf : ∀ (t : Trace) kind (rep : Reply), (∀ event ∈ t, event.2 = true) →
      rep.accepted = true → ∀ event ∈ t.after kind rep, event.2 = true := by
    intro t kind rep ht ha event he
    unfold Trace.after at he
    split at he
    · rcases mem_append.mp he with ho | hn
      · exact ht event ho
      · rw [mem_singleton.mp hn]
        exact ha
    · exact ht event he
  cases h with
  | sendDeclare hr | sendStart hr | sendFinish hr => exact haf _ _ _ hv hr
  | _ => exact hv

theorem finishEvents_eq (hrun : (plan.system ⟨false, 0⟩).Run history s)
    (hcl : ∀ e ∈ history, e.2.Clear) (hsink : ∀ e ∈ history, e.2.Accepted)
    (ident : Ident) : s.finishEvents ident = s.acceptedFinishes ident := by
  obtain ⟨g, -, ha⟩ := run_invariant True (I := fun v => ∀ event ∈ v.trace, event.2 = true)
    hrun (fun e he => (hcl e he).meets (console_clear_of_mem hrun hcl he) fun w hw _ =>
        hsink e he w hw)
    (fun _ _ _ _ => trivial) (fun _ hev => absurd hev not_mem_nil)
    fun _ _ hl _ hI => hl.accepted hI
  apply countP_congr
  intro e he
  have hentry_accepted : e.accepted = true := by
    apply ha e.ident (e.kind, e.accepted)
    exact mem_map.mpr ⟨e, mem_filter.mpr ⟨he, decide_eq_true rfl⟩, rfl⟩
  simp [hentry_accepted]

theorem not_resultsOk_of_lost (hrun : (plan.system ⟨false, 0⟩).Run history s)
    (hcl : ∀ e ∈ history, e.2.Clear) (hlost : ∃ p ∈ s.phases, p.lost = true) :
    ¬ s.ResultsOk plan := by
  intro hr
  obtain ⟨g, hh, ho⟩ := run_once hrun hcl
  obtain ⟨p, hp, hlost⟩ := hlost
  obtain ⟨ident, prev, sent, hc⟩ := Phase.claim_of_lost hlost
  obtain ⟨i, hi⟩ := List.getElem?_of_mem hp
  have hg := hh.claim_eq hi hc
  obtain ⟨bd, hb, hn⟩ := hh.bound i ident _ hg
  obtain ⟨scopes, hid⟩ := hn.mem_idents (mem_of_getElem? hb)
  have hf : s.lifecycle ident = .finished := (ho ident).finishedAt.mp (hr scopes ident hid)
  rw [(hh.fits ident _ _ hg).1] at hf
  cases hf

theorem finished_of_returned (hrun : (plan.system con).Run history s)
    (hdrops : ∀ e ∈ history, ¬ DropsInFlight e.1 e.2) (hret : s.main = .returned false)
    (hid : ident ∈ plan.idents scopes) : s.lifecycle ident = .finished := by
  rcases closed_of_returned hrun hret hid with hf | ⟨p, hp, hl, -⟩
  · exact hf
  · obtain ⟨e, he, hd⟩ := (lost_iff hrun).mp ⟨p, hp, hl⟩
    exact absurd hd (hdrops e he)

def State.AllFinished (plan : Bindings) (s : State) : Prop :=
  ∀ scopes, ∀ ident ∈ plan.idents scopes, s.finishEvents ident = 1

/-- After any number of aborts `finish_remaining` returns, and returns `Ok`, if the sink accepts
every event. Then `results` succeeds with one finish event for every scope and step exactly if no
node was dropped while its finish event was in flight. -/
theorem Bindings.survives_aborts (plan : Bindings) (hrun : (plan.system ⟨false, 0⟩).Run history s)
    (hclear : ∀ entry ∈ history, entry.2.Clear) (hsink : ∀ entry ∈ history, entry.2.Accepted) :
    (s.main = .running → (∀ p ∈ s.phases, p.ended = true) →
      ∃ s', plan.Smoothly s s' ∧ s'.main = .returned false) ∧
    s.main ≠ .returned true ∧
    (s.main = .returned false → ((s.ResultsOk plan ∧ s.AllFinished plan) ↔
      ∀ entry ∈ history, ¬ DropsInFlight entry.1 entry.2)) := by
  refine ⟨fun hmain hover => ?_, fun hreturned => ?_, fun hreturned => ?_⟩
  · exact finish_remaining_returns plan hmain hover (console_clear hrun hclear) .cancelled
  · have hunrejected := run_unrejected hrun hclear hsink
    rw [hreturned] at hunrejected
    cases hunrejected
  constructor
  · rintro ⟨hresults, -⟩ entry hentry hdrop
    exact not_resultsOk_of_lost hrun hclear ((lost_iff hrun).mpr ⟨entry, hentry, hdrop⟩) hresults
  intro hdrops
  obtain ⟨g, -, honce⟩ := run_once hrun hclear
  refine ⟨fun scopes ident hident => ?_, fun scopes ident hident => ?_⟩
  · exact (honce ident).finishedAt.mpr (finished_of_returned hrun hdrops hreturned hident)
  · rw [finishEvents_eq hrun hclear hsink, State.acceptedFinishes_eq]
    exact (honce ident).delivered (.inl (finished_of_returned hrun hdrops hreturned hident))

theorem Bindings.Smoothly.nothing_left (hmain : s.main = .running)
    (hover : ∀ p ∈ s.phases, p.ended = true)
    (hnone : ∀ scopes, s.unfinished (plan.idents scopes) = []) :
    plan.Smoothly s { s with main := .returned false } := by
  have hst := Step.of_main hmain (@MainMove.finishSteps plan s .cancelled hover)
  rw [hnone false] at hst
  have hsc : Step plan { s with main := .publishing false .cancelled [] false } (.main .proceeds)
      { s with main := .publishing true .cancelled [] false } := by
    have hs := Step.of_main rfl (@MainMove.finishScopes plan
      { s with main := .publishing false .cancelled [] false } .cancelled false)
    rw [show unfinished { s with main := .publishing false .cancelled [] false }
      (plan.idents true) = [] from hnone true] at hs
    exact hs
  have hr := Step.of_main rfl (@MainMove.finished plan
    { s with main := .publishing true .cancelled [] false } .cancelled false)
  exact .head ⟨_, rfl, hst⟩ (.head ⟨_, rfl, hsc⟩ (.single ⟨_, rfl, hr⟩))

theorem Bindings.Smoothly.run_drop (h : Bindings.single.Smoothly (Bindings.single.new ⟨false, 0⟩) s)
    (hmain : s.main = .running) (hphases : s.phases = [p]) (hlive : p.live = true)
    (hnone : ∀ scopes, s.unfinished (Bindings.single.idents scopes) = []) :
    ∃ history, (Bindings.single.system ⟨false, 0⟩).Run history { s with
          phases := [.dropped p]
          main := .returned false } ∧
      (s, .node 0 .drops) ∈ history ∧ (∀ e ∈ history, e.2.Clear) ∧
      (∀ e ∈ history, e.2.Accepted) ∧
      ∀ e ∈ history, (∃ i, e.2 = .node i .drops) → e = (s, .node 0 .drops) := by
  have hr : Bindings.single.Smoothly { s with phases := [.dropped p] } { s with
        phases := [.dropped p]
        main := .returned false } := by
    refine Bindings.Smoothly.nothing_left hmain ?_ hnone
    intro q hq
    rw [mem_singleton.mp hq]
    rfl
  obtain ⟨history, ha, hm, hc⟩ := h.run_through (.single hmain hphases (.drop hlive)) hr
  refine ⟨history, ha, hm, fun e he => ?_, fun e he => ?_, fun e he hd => ?_⟩
  · rcases hc e he with rfl | hqu
    · exact ⟨Action.noConfusion, Action.noConfusion, fun _ hs => by cases hs⟩
    · exact (Action.accepted_of_undisturbed hqu).1
  · rcases hc e he with rfl | hqu
    · intro w hs
      cases hs
    · exact (Action.accepted_of_undisturbed hqu).2.1
  refine (hc e he).resolve_right fun hqu => ?_
  obtain ⟨i, heq⟩ := hd
  exact (Action.accepted_of_undisturbed hqu).2.2 i heq

/-- The node is dropped after it has completed. -/
theorem Bindings.survives_aborts_single :
    ∃ history s, (Bindings.single.system ⟨false, 0⟩).Run history s ∧
      s.main = .returned false ∧ (∃ entry ∈ history, entry.2 = .node 0 .drops) ∧
      s.ResultsOk .single ∧ s.AllFinished .single := by
  have h₁ := State.completing_reached.step
    (.single rfl rfl (@NodeMove.sendFinish _ _ _ _ _ .fine .fine)) rfl
  have h₂ := h₁.step (.single rfl rfl .commitScope) rfl
  obtain ⟨history, hrun, hmem, hclear, hsink, hdrops⟩ :=
    h₂.run_drop rfl rfl rfl fun scopes => by cases scopes <;> rfl
  refine ⟨history, _, hrun, rfl, ⟨_, hmem, rfl⟩, ?_⟩
  apply ((Bindings.survives_aborts .single hrun hclear hsink).2.2 rfl).mpr
  rintro entry hentry ⟨i, p, heq, hp, hflight⟩
  obtain rfl := hdrops entry hentry ⟨i, heq⟩
  cases heq
  cases hp
  cases hflight

/-- A node is dropped before its finish event is sent: `finish_remaining` returns `Ok`, but
`results` fails and the scope has no finish event. -/
theorem Bindings.abort_loses_finish :
    ∃ history s, (Bindings.single.system ⟨false, 0⟩).Run history s ∧
      (∀ entry ∈ history, entry.2.Clear) ∧ (∀ entry ∈ history, entry.2.Accepted) ∧
      s.main = .returned false ∧ Ident.scope 0 ∈ Bindings.single.idents true ∧
      s.finishEvents (.scope 0) = 0 ∧ ¬ s.ResultsOk .single := by
  obtain ⟨history, hrun, -, hclear, hsink, -⟩ :=
    State.completing_reached.run_drop rfl rfl rfl fun scopes => by cases scopes <;> rfl
  refine ⟨history, _, hrun, hclear, hsink, rfl, by decide, by decide, ?_⟩
  intro hresults
  cases hresults true (.scope 0) (by decide)

end Octa.Recorder
