import Octa.Recorder.Protocol

/-!
# Finish events

A finish event that the console answers as the sink did is published once: the
recorder either commits it or knows that it was rejected.
-/

namespace Octa.Recorder

open List Console

variable {plan : Bindings} {s s' : State} {console : Console}
  {history : List (State × Action)}

/-! ## Replies -/

/-- The call returns `Ok` only for a record that the sink accepted. -/
structure Reply.Valid (reply : Reply) : Prop where
  accepted : reply.ok = true → reply.accepted = true
  sent : reply.accepted = true → reply.sent = true

variable {weather : Weather}

theorem Console.render_ok (h : (console.render weather).2 = true) :
    (weather.sink && weather.render) = true ∧ console.backgroundError = false ∧
      weather.noise = false ∧ (console.render weather).1 = console := by
  unfold render at h ⊢
  split at h
  · cases h
  next hs =>
  have hs' := Bool.or_eq_false_iff.mp (Bool.eq_false_iff.mpr hs)
  refine ⟨h, hs'.1, hs'.2, ?_⟩
  rw [if_neg hs]

/-- Either the record is rendered, with an empty error slot if a report came first,
or it never reaches the sink. -/
theorem Console.emit_cases (console : Console) (report weather : Weather) : (∃ before : Console,
      (before = console ∧ console.droppedDiagnostics = 0 ∨ before.backgroundError = false) ∧
      console.emit report weather =
        ((before.render weather).1, ⟨true, weather.sink, (before.render weather).2⟩)) ∨
    (console.emit report weather).2 = ⟨false, false, false⟩ := by
  unfold emit
  by_cases hz : console.droppedDiagnostics = 0
  · rw [if_pos hz]
    exact .inl ⟨console, .inl ⟨rfl, hz⟩, rfl⟩
  rw [if_neg hz]
  cases hr : (render { console with droppedDiagnostics := 0 } report).2 with
  | true =>
    obtain ⟨-, hs, -, hsa⟩ := render_ok hr
    refine .inl ⟨(render { console with droppedDiagnostics := 0 } report).1, .inr ?_, if_pos hr⟩
    rw [hsa]
    exact hs
  | false => exact .inr (by simp [hr])

theorem Console.emit_valid (console : Console) (report weather : Weather) :
    (console.emit report weather).2.Valid := by
  obtain ⟨before, -, he⟩ | hlost := console.emit_cases report weather
  · rw [he]
    exact ⟨fun h => (Bool.and_eq_true_iff.mp (render_ok h).1).1, fun _ => rfl⟩
  · rw [hlost]
    exact ⟨fun h => (by cases h), fun h => (by cases h)⟩

/-- If the sink takes the record then nothing else behind the console fails. -/
def Calm (console : Console) (weather : Weather) : Prop :=
  weather.sink = true → weather.render = true ∧ weather.noise = false ∧
    (console.droppedDiagnostics = 0 → console.backgroundError = false)

theorem Calm.ok {report : Weather} (h : Calm console weather)
    (hacc : (console.emit report weather).2.accepted = true) :
    (console.emit report weather).2.ok = true := by
  obtain ⟨before, hb, he⟩ | hlost := console.emit_cases report weather
  · rw [he] at hacc ⊢
    obtain ⟨hr, hn, hs⟩ := h hacc
    have hem : before.backgroundError = false := by
      obtain ⟨rfl, hz⟩ | hem := hb
      · exact hs hz
      · exact hem
    have hsi : weather.sink = true := hacc
    simp [render, hem, hn, hsi, hr]
  · rw [hlost] at hacc
    cases hacc

def Faithful (kind : Kind) (reply : Reply) : Prop :=
  reply.Valid ∧ (kind = .finished → reply.accepted = true → reply.ok = true)

def CalmFinish (s : State) : Action → Prop
  | .node i (.sends _ weather) => ∀ p, s.phases[i]? = some p → p.sends = some .finished →
      Calm s.console weather
  | .main (.sends _ weather) => s.main.sends = some .finished → Calm s.console weather
  | _ => True

variable {a : Action}

theorem CalmFinish.meets (h : CalmFinish s a) : Meets Faithful s a := by
  cases a with
  | node i label =>
    cases label with
    | sends report weather =>
      intro p hp kind hk
      refine ⟨emit_valid _ _ _, ?_⟩
      rintro rfl
      exact (h p hp hk).ok
    | _ => trivial
  | main label =>
    cases label with
    | sends report weather =>
      intro kind hk
      refine ⟨emit_valid _ _ _, ?_⟩
      rintro rfl
      exact (h hk).ok
    | _ => trivial
  | backgroundError | dropDiagnostic => trivial

/-! ## Clear weather -/

def Action.weather? : Action → Option Weather
  | .node _ (.sends _ weather) | .main (.sends _ weather) => some weather
  | _ => none

structure Action.Clear (a : Action) : Prop where
  background : a ≠ .backgroundError
  diagnostic : a ≠ .dropDiagnostic
  weather : ∀ weather, a.weather? = some weather →
    weather.render = true ∧ weather.noise = false

def Action.Accepted (a : Action) : Prop :=
  ∀ weather, a.weather? = some weather → weather.sink = true

def Weather.fine : Weather := ⟨true, true, false⟩

def Action.undisturbed : Action → Bool
  | .node _ .drops | .backgroundError | .dropDiagnostic => false
  | .node _ (.sends _ weather) | .main (.sends _ weather) => weather = .fine
  | _ => true

/-- The runs in which every record is taken and no future is dropped. -/
abbrev Bindings.Smoothly (plan : Bindings) : State → State → Prop :=
  Relation.ReflTransGen fun s s' => ∃ a : Action, a.undisturbed = true ∧ Step plan s a s'

theorem Bindings.Smoothly.step {s₀ : State} (h : plan.Smoothly s₀ s) (hstep : Step plan s a s')
    (ha : a.undisturbed = true) : plan.Smoothly s₀ s' := h.tail ⟨a, ha, hstep⟩

theorem Bindings.Smoothly.run
    (h : plan.Smoothly (plan.new console) s) : ∃ history, (plan.system console).Run history s ∧
      ∀ e ∈ history, e.2.undisturbed = true :=
  Transition.System.Run.of_chain (S := plan.system console)
    (P := fun _ a => a.undisturbed = true) rfl h

variable {label : Label}

theorem Step.of_main {m m' : Main} (hmain : s.main = m)
    (hmove : MainMove plan s m label s' m') : Step plan s (.main label) { s' with main := m' } :=
  .main (hmain ▸ hmove)

theorem Action.accepted_of_undisturbed (h : a.undisturbed = true) :
    a.Clear ∧ a.Accepted ∧ ∀ i, a ≠ .node i .drops := by
  have hw : ∀ weather, a.weather? = some weather → weather = .fine := by
    intro weather hw
    unfold Action.weather? at hw
    split at hw
    · cases hw
      exact of_decide_eq_true h
    · cases hw
      exact of_decide_eq_true h
    · cases hw
  refine ⟨⟨?_, ?_, ?_⟩, ?_, ?_⟩
  · rintro rfl
    cases h
  · rintro rfl
    cases h
  · intro weather hs
    rw [hw weather hs]
    exact ⟨rfl, rfl⟩
  · intro weather hs
    rw [hw weather hs]
    rfl
  · rintro i rfl
    cases h

theorem Console.emit_clear (report : Weather) (h : weather.render = true ∧ weather.noise = false) :
    emit ⟨false, 0⟩ report weather = (⟨false, 0⟩, ⟨true, weather.sink, weather.sink⟩) := by
  simp [emit, render, h.1, h.2]

theorem NodeMove.console_clear {bd : ExecutionBinding} {p p' : Phase} {i : ℕ}
    (hmove : NodeMove bd s p label s' p') (hcl : (Action.node i label).Clear)
    (h : s.console = ⟨false, 0⟩) : s'.console = ⟨false, 0⟩ := by
  have he : ∀ report weather, label = .sends report weather →
      (s.console.emit report weather).1 = ⟨false, 0⟩ := by
    rintro report weather rfl
    rw [h, emit_clear report (hcl.weather weather rfl)]
  cases hmove with
  | sendStart | register | registerFailed | sendFinish => exact he _ _ rfl
  | _ => exact h

theorem MainMove.console_clear {m m' : Main} (hmove : MainMove plan s m label s' m')
    (hcl : (Action.main label).Clear) (h : s.console = ⟨false, 0⟩) : s'.console = ⟨false, 0⟩ := by
  have he : ∀ report weather, label = .sends report weather →
      (s.console.emit report weather).1 = ⟨false, 0⟩ := by
    rintro report weather rfl
    rw [h, emit_clear report (hcl.weather weather rfl)]
  cases hmove with
  | sendDeclare | sendEmpty | sendFinish => exact he _ _ rfl
  | finishFailedStart | finishSteps | finishScopes =>
    exact (State.reserveAll_frame ..).2.2.2.1.trans h
  | _ => exact h

theorem Step.console_clear (hstep : Step plan s a s') (hcl : a.Clear)
    (h : s.console = ⟨false, 0⟩) : s'.console = ⟨false, 0⟩ := by
  cases hstep with
  | node _ _ _ hm | main hm => exact hm.console_clear hcl h
  | backgroundError => exact absurd rfl hcl.background
  | dropDiagnostic => exact absurd rfl hcl.diagnostic

theorem Action.Clear.meets {P : Kind → Reply → Prop} (hcl : a.Clear) (h : s.console = ⟨false, 0⟩)
    (hP : ∀ weather, a.weather? = some weather →
      ∀ kind, P kind ⟨true, weather.sink, weather.sink⟩) : Meets P s a := by
  cases a with
  | node i label =>
    cases label with
    | sends report weather =>
      intro p _ kind _
      rw [h, emit_clear report (hcl.weather weather rfl)]
      exact hP weather rfl kind
    | _ => trivial
  | main label =>
    cases label with
    | sends report weather =>
      intro kind _
      rw [h, emit_clear report (hcl.weather weather rfl)]
      exact hP weather rfl kind
    | _ => trivial
  | backgroundError | dropDiagnostic => trivial

theorem console_clear (hrun : (plan.system ⟨false, 0⟩).Run history s)
    (hcl : ∀ e ∈ history, e.2.Clear) : s.console = ⟨false, 0⟩ := by
  apply hrun.invariant (I := fun s => s.console = ⟨false, 0⟩) (G := fun _ a => a.Clear) hcl
  · rintro s rfl
    rfl
  · intro s a s' ha hs hst
    exact hst.console_clear ha hs

theorem console_clear_of_mem (hrun : (plan.system ⟨false, 0⟩).Run history s)
    (hcl : ∀ e ∈ history, e.2.Clear) {e : State × Action}
    (he : e ∈ history) : e.1.console = ⟨false, 0⟩ := by
  obtain ⟨before, -, hb, hl, -⟩ := hrun.of_mem he
  exact console_clear hb fun x hx => hcl x (hl.subset hx)

theorem Action.Clear.calm (hcl : a.Clear) (h : s.console = ⟨false, 0⟩) : CalmFinish s a := by
  have hc : ∀ weather, a.weather? = some weather → Calm s.console weather := by
    intro weather hw _
    rw [h]
    exact ⟨(hcl.weather weather hw).1, (hcl.weather weather hw).2, fun _ => rfl⟩
  cases a with
  | node i label =>
    cases label with
    | sends report weather => exact fun _ _ _ => hc weather rfl
    | _ => trivial
  | main label =>
    cases label with
    | sends report weather => exact fun _ => hc weather rfl
    | _ => trivial
  | backgroundError | dropDiagnostic => trivial

/-- One task with one command. -/
def Bindings.single : Bindings where
  scopes := [0]
  nodes := [⟨0, some 0⟩]
  step_unique := by
    intro i j a b id hi hj ha hb
    cases i with
    | succ i => cases hi
    | zero =>
      cases j with
      | succ j => cases hj
      | zero => rfl

/-- The command is finished, and the finish event of the task is reserved. -/
def State.completing : State :=
  let s := ((Bindings.single.new ⟨false, 0⟩).send .declared (.scope 0) .fine .fine).1.setLifecycle
    (.scope 0) .declared
  let s := (s.send .declared (.step 0) .fine .fine).1.setLifecycle (.step 0) .declared
  let s := (s.send .started (.scope 0) .fine .fine).1.commitStart (.scope 0)
  let s := (s.send .started (.step 0) .fine .fine).1.commitStart (.step 0)
  let s := ((s.reserve (.step 0) .success).send .finished (.step 0) .fine .fine).1.commitFinish
    (.step 0)
  { (s.decrement 0 .success).setLifecycle (.scope 0) .publishingFinish with
    phases := [.finishing (.scope 0) .started .success]
    main := .running }

theorem State.startsFree_idle (h : s.phases = [.idle]) : s.StartsFree := by
  intro p hp i ok
  rw [h] at hp
  rw [mem_singleton.mp hp]
  exact ⟨Phase.noConfusion, Phase.noConfusion⟩

theorem Step.single {p p' : Phase} (hmain : s.main = .running)
    (hphases : s.phases = [p]) (hmove : NodeMove ⟨0, some 0⟩ s p label s' p') :
    Step .single s (.node 0 label) { s' with phases := [p'] } := by
  have hs : s.phases.set 0 p' = [p'] := by
    rw [hphases]
    rfl
  rw [← hs]
  exact .node hmain rfl (by rw [hphases]; rfl) hmove

theorem State.completing_reached :
    Bindings.single.Smoothly (Bindings.single.new ⟨false, 0⟩) State.completing := by
  have h₀ : Bindings.single.Smoothly (Bindings.single.new ⟨false, 0⟩) _ := .refl
  have h₁ := h₀.step (.of_main rfl .declare) rfl
  have h₂ := h₁.step (.of_main rfl (@MainMove.sendDeclare _ _ true (.scope 0) [] .fine .fine)) rfl
  have h₃ := h₂.step (.of_main rfl (.commitDeclare fun id hi => by cases hi; decide)) rfl
  have h₄ := h₃.step (.of_main rfl .declareSteps) rfl
  have h₅ := h₄.step (.of_main rfl (@MainMove.sendDeclare _ _ false (.step 0) [] .fine .fine)) rfl
  have h₆ := h₅.step (.of_main rfl (.commitDeclare fun id hi => by cases hi)) rfl
  have h₇ := h₆.step (.of_main rfl .declared) rfl
  have h₈ := h₇.step (.single rfl rfl
    (@NodeMove.start _ _ (.scope 0) rfl rfl (State.startsFree_idle rfl))) rfl
  have h₉ := h₈.step (.single rfl rfl (@NodeMove.sendStart _ _ _ .fine .fine)) rfl
  have h₁₀ := h₉.step (.single rfl rfl .commitStart) rfl
  have h₁₁ := h₁₀.step (.single rfl rfl
    (@NodeMove.start _ _ (.step 0) rfl rfl (State.startsFree_idle rfl))) rfl
  have h₁₂ := h₁₁.step (.single rfl rfl (@NodeMove.sendStart _ _ _ .fine .fine)) rfl
  have h₁₃ := h₁₂.step (.single rfl rfl .commitStart) rfl
  have h₁₄ := h₁₃.step (.single rfl rfl (@NodeMove.complete _ _ .success rfl (by decide))) rfl
  have h₁₅ := h₁₄.step (.single rfl rfl (.finishStep rfl (by decide))) rfl
  have h₁₆ := h₁₅.step (.single rfl rfl (@NodeMove.sendFinish _ _ _ _ _ .fine .fine)) rfl
  have h₁₇ := h₁₆.step (.single rfl rfl .commitStep) rfl
  exact h₁₇.step (.single rfl rfl (.closeLast rfl rfl)) rfl

theorem Bindings.Smoothly.run_through {s₁ s₂ : State} (h : plan.Smoothly (plan.new console) s)
    (hstep : Step plan s a s₁) (hlater : plan.Smoothly s₁ s₂) :
    ∃ history, (plan.system console).Run history s₂ ∧ (s, a) ∈ history ∧
      ∀ e ∈ history, e = (s, a) ∨ e.2.undisturbed = true := by
  obtain ⟨before, hbefore, hquiet⟩ := h.run
  obtain ⟨after, hrun, hquiet'⟩ := (hbefore.step hstep).extend
    (P := fun _ a => a.undisturbed = true) hlater
  refine ⟨_, hrun, by simp, fun e he => ?_⟩
  rcases mem_append.mp he with he | he
  · rcases mem_append.mp he with he | he
    · exact .inr (hquiet e he)
    · exact .inl (mem_singleton.mp he)
  · exact .inr (hquiet' e he)

def State.rejected : State :=
  { (State.completing.send .finished (.scope 0) .fine ⟨false, true, false⟩).1 with
    phases := [.finishSent (.scope 0) .started .success false] }

/-- The sink rejects the finish event of the task, and `finish_remaining` sends it again. -/
theorem exists_rejectedRun : ∃ history s, (Bindings.single.system ⟨false, 0⟩).Run history s ∧
      s.main = .returned false ∧
      (∀ e ∈ history, e.2.Clear ∧ ∀ i, e.2 ≠ .node i .drops) ∧
      s.log = [⟨.declared, .scope 0, .skipped, true⟩, ⟨.declared, .step 0, .skipped, true⟩,
        ⟨.started, .scope 0, .skipped, true⟩, ⟨.started, .step 0, .skipped, true⟩,
        ⟨.finished, .step 0, .success, true⟩, ⟨.finished, .scope 0, .success, false⟩,
        ⟨.finished, .scope 0, .failed, true⟩] := by
  have hsend : Step .single State.completing _ State.rejected :=
    .single rfl rfl (@NodeMove.sendFinish _ _ _ _ _ .fine ⟨false, true, false⟩)
  have h₀ : Bindings.single.Smoothly State.rejected _ := .refl
  have h₁ := h₀.step (.single rfl rfl .rollback) rfl
  have h₂ := h₁.step (.of_main rfl (@MainMove.finishSteps _ _ .failed (by decide))) rfl
  have h₃ := h₂.step (.of_main rfl .finishScopes) rfl
  have h₄ := h₃.step (.of_main rfl
    (@MainMove.sendFinish _ _ true .failed (.scope 0) .started [] false .fine .fine)) rfl
  have h₅ := h₄.step (.of_main rfl .commitFinish) rfl
  have h₆ := h₅.step (.of_main rfl .finished) rfl
  obtain ⟨history, hrun, -, hquiet⟩ := State.completing_reached.run_through hsend h₆
  refine ⟨history, _, hrun, rfl, fun e he => ?_, rfl⟩
  obtain rfl | hundisturbed := hquiet e he
  · refine ⟨⟨Action.noConfusion, Action.noConfusion, ?_⟩, fun _ hdrops => by cases hdrops⟩
    intro weather hweather
    cases hweather
    exact ⟨rfl, rfl⟩
  · have hall := Action.accepted_of_undisturbed hundisturbed
    exact ⟨hall.1, hall.2.2⟩

/-! ## One finish -/

def Trace.finishes (trace : Trace) : ℕ := trace.count (.finished, true)

def Trace.Final (trace : Trace) : Prop :=
  trace.Pairwise fun event later => event = (.finished, true) → later.1 ≠ .finished

/-- The accepted finish event has been committed or is about to be. -/
def View.Delivered (v : View) : Prop :=
  v.lifecycle = .finished ∨ ∃ previous, v.claim = some (.finish previous (some true))

structure View.Once (v : View) : Prop where
  final : v.trace.Final
  delivered : v.Delivered → v.trace.finishes = 1
  undelivered : ¬ v.Delivered → v.trace.finishes = 0
  finishedAt : v.finishedAt = true ↔ v.lifecycle = .finished

theorem Trace.after_other {trace : Trace} (kind : Kind) (rep : Reply)
    (hkind : kind ≠ .finished) (h : trace.Final) :
    (trace.after kind rep).Final ∧ (trace.after kind rep).finishes = trace.finishes := by
  unfold Trace.after
  split
  · constructor
    · apply pairwise_append.mpr
      refine ⟨h, pairwise_singleton _ _, ?_⟩
      intro event _ later hl _
      rw [mem_singleton.mp hl]
      exact hkind
    · simp [Trace.finishes, count_append, hkind]
  · exact ⟨h, rfl⟩

theorem Trace.after_finished {trace : Trace} {rep : Reply} (hv : rep.Valid) (h : trace.Final)
    (hnone : trace.finishes = 0) : (trace.after .finished rep).Final ∧
      (trace.after .finished rep).finishes = if rep.accepted then 1 else 0 := by
  unfold Trace.after
  split
  · constructor
    · apply pairwise_append.mpr
      refine ⟨h, pairwise_singleton _ _, ?_⟩
      rintro event he later _ rfl
      exact absurd he (count_eq_zero.mp hnone)
    · unfold Trace.finishes at hnone ⊢
      rw [count_append, hnone]
      cases rep.accepted <;> rfl
  next hs =>
  refine ⟨h, ?_⟩
  have ha : rep.accepted = false := by
    by_contra ha
    exact hs (hv.sent (Bool.of_not_eq_false ha))
  simp [hnone, ha]

theorem Local.once {drops : Prop} {v v' : View} (h : Local Faithful drops v v')
    (hv : v.Consistent) (honce : v.Once) : v'.Once := by
  cases h with
  | refl => exact honce
  | @sendDeclare t f reply hr =>
    obtain ⟨hfi, hc⟩ := Trace.after_other .declared reply (by decide) honce.final
    refine ⟨hfi, fun hd => ?_, fun _ => ?_, honce.finishedAt⟩
    · rcases hd with hd | ⟨_, hd⟩ <;> cases hd
    · rw [hc]
      exact honce.undelivered (by rintro (hd | ⟨_, hd⟩) <;> cases hd)
  | @sendStart t f reply hr =>
    obtain ⟨hfi, hc⟩ := Trace.after_other .started reply (by decide) honce.final
    refine ⟨hfi, fun hd => ?_, fun _ => ?_, honce.finishedAt⟩
    · rcases hd with hd | ⟨_, hd⟩ <;> cases hd
    · rw [hc]
      exact honce.undelivered (by rintro (hd | ⟨_, hd⟩) <;> cases hd)
  | @sendFinish prev t f reply hr =>
    have hn : t.finishes = 0 := honce.undelivered (by rintro (hd | ⟨_, hd⟩) <;> cases hd)
    obtain ⟨hfi, hc⟩ := Trace.after_finished hr.1 honce.final hn
    refine ⟨hfi, fun hd => ?_, fun hd => ?_, honce.finishedAt⟩
    · rcases hd with hd | ⟨_, hd⟩
      · cases hd
      · have ho : reply.ok = true := by
          simp only [Option.some.injEq, Claim.finish.injEq] at hd
          exact hd.2
        rw [hc, if_pos (hr.1.accepted ho)]
    have ho : ¬ reply.accepted = true := by
      intro ha
      exact hd (.inr ⟨prev, by rw [hr.2 rfl ha]⟩)
    rw [hc, if_neg ho]
  | commitFinish =>
    refine ⟨honce.final, fun _ => honce.delivered (.inr ⟨_, rfl⟩), fun hd => ?_, ?_⟩
    · exact absurd (.inl rfl) hd
    · simp
  | rollback =>
    have hp := (hv.fits _ rfl).2
    have hn := honce.undelivered (by rintro (hd | ⟨_, hd⟩) <;> cases hd)
    have hne : ∀ l, l ∈ [LifecycleState.declared, .started] → l ≠ .finished := by decide
    refine ⟨honce.final, ?_, fun _ => hn, ?_⟩
    · rintro (hd | ⟨_, hd⟩)
      · exact absurd hd (hne _ hp)
      · cases hd
    constructor
    · intro hf
      cases honce.finishedAt.mp hf
    · intro hl
      exact absurd hl (hne _ hp)
  | reserve hp =>
    have hne : ∀ l, l ∈ [LifecycleState.declared, .started] → l ≠ .finished := by decide
    have hn := honce.undelivered (by
      rintro (hd | ⟨_, hd⟩)
      · exact absurd hd (hne _ hp)
      · cases hd)
    refine ⟨honce.final, ?_, fun _ => hn, ?_⟩
    · rintro (hd | ⟨_, hd⟩) <;> cases hd
    constructor
    · intro hf
      exact absurd (honce.finishedAt.mp hf) (hne _ hp)
    · intro hl
      cases hl
  | _ =>
    have hn := honce.undelivered (by rintro (hd | ⟨_, hd⟩) <;> cases hd)
    refine ⟨honce.final, ?_, fun _ => hn, ?_⟩
    · rintro (hd | ⟨_, hd⟩) <;> cases hd
    constructor
    · intro hf
      cases honce.finishedAt.mp hf
    · intro hl
      cases hl

theorem View.Once.initial : View.Once ⟨.planned, none, [], false⟩ where
  final := .nil
  delivered := by rintro (hd | ⟨_, hd⟩) <;> cases hd
  undelivered := fun _ => rfl
  finishedAt := by simp

/-- No finish event of a scope or step follows one that the sink accepted. -/
def NoRepeat (log : List Entry) : Prop :=
  log.Pairwise fun entry later => entry.kind = .finished → entry.accepted = true →
    later.kind = .finished → later.ident ≠ entry.ident

theorem noRepeat_of_final (h : ∀ idn, (s.trace idn).Final) : NoRepeat s.log := by
  have hid : ∀ idn, s.log.Pairwise fun e later => e.ident = idn →
      later.ident = idn → (e.kind, e.accepted) = (.finished, true) →
      later.kind ≠ .finished := by
    intro idn
    have hfi := pairwise_filter.mp (pairwise_map.mp (h idn))
    refine hfi.imp ?_
    intro e later he hf hs
    exact he (decide_eq_true hf) (decide_eq_true hs)
  apply pairwise_iff_getElem.mpr
  intro i j hi hj hij hk ha hl hsa
  exact pairwise_iff_getElem.mp (hid s.log[i].ident) i j hi hj hij rfl hsa (Prod.ext hk ha) hl

/-- In every run whose finish events are sent in calm weather, an accepted finish
event is the last one of its scope or step. -/
theorem Bindings.finish_emitted_once (plan : Bindings) (console : Console)
    (hrun : (plan.system console).Run history s)
    (hcalm : ∀ entry ∈ history, CalmFinish entry.1 entry.2) : NoRepeat s.log := by
  obtain ⟨g, -, honce⟩ := run_invariant True hrun
    (fun entry hentry => (hcalm entry hentry).meets) (fun _ _ _ _ => trivial) View.Once.initial
    fun _ _ hlocal hv hI => hlocal.once hv hI
  exact noRepeat_of_final fun ident => (honce ident).final

/-- Two finish events of the task are sent, and only the second one is accepted. -/
theorem Bindings.finish_emitted_once_single :
    ∃ history s, (Bindings.single.system ⟨false, 0⟩).Run history s ∧
      (s.log.filter fun entry => entry.kind = .finished ∧ entry.ident = .scope 0).map
        Entry.accepted = [false, true] ∧ NoRepeat s.log := by
  obtain ⟨history, s, hrun, -, hclear, hlog⟩ := exists_rejectedRun
  refine ⟨history, s, hrun, by rw [hlog]; rfl, ?_⟩
  exact Bindings.finish_emitted_once .single _ hrun fun entry hentry =>
    (hclear entry hentry).1.calm
      (console_clear_of_mem hrun (fun entry hentry => (hclear entry hentry).1) hentry)

/-- The renderer fails on the finish event that the sink has accepted.  The recorder
takes the finish back, and `finish_remaining` sends it again. -/
theorem Bindings.finish_emitted_twice :
    ∃ history s, (Bindings.single.system ⟨false, 0⟩).Run history s ∧
      (∃ before after, s.log = before ++ [⟨.finished, .scope 0, .success, true⟩] ++ after ∧
        ∃ entry ∈ after, entry.kind = .finished ∧ entry.ident = .scope 0) ∧
      ¬ NoRepeat s.log := by
  obtain ⟨history, hrun, -⟩ := State.completing_reached.run
  have h₁ := hrun.step (.single rfl rfl (@NodeMove.sendFinish _ _ _ _ _ .fine ⟨true, false, false⟩))
  have h₂ := h₁.step (.single rfl rfl .rollback)
  have h₃ := h₂.step (.of_main rfl (@MainMove.finishSteps _ _ .failed (by decide)))
  have h₄ := h₃.step (.of_main rfl .finishScopes)
  have h₅ := h₄.step (.of_main rfl
    (@MainMove.sendFinish _ _ true .failed (.scope 0) .started [] false .fine .fine))
  refine ⟨_, _, h₅, ⟨[⟨.declared, .scope 0, .skipped, true⟩, ⟨.declared, .step 0, .skipped, true⟩,
    ⟨.started, .scope 0, .skipped, true⟩, ⟨.started, .step 0, .skipped, true⟩,
    ⟨.finished, .step 0, .success, true⟩], [⟨.finished, .scope 0, .failed, true⟩], rfl, _,
    mem_singleton_self _, rfl, rfl⟩, ?_⟩
  unfold NoRepeat
  decide

end Octa.Recorder
