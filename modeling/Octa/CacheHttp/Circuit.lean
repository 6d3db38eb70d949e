import Octa.Foundation.Machine

/-!
# The circuit breaker of the remote cache

Outcomes of overlapping operations arrive late and in any order.  A log keeps what each call
did; the deadline, the counter and the permits that count are functions of the log alone.
-/

namespace Octa.CacheHttp

open Function Transition

structure CircuitState where
  generation : ℕ
  failures : ℕ
  openUntil : Option ℕ
  deriving DecidableEq

inductive HttpCacheError where
  | circuitOpen
  deriving DecidableEq

/-- Times are numbers; `lastInstant` is the greatest one the clock can hold. -/
structure CircuitBreaker where
  threshold : ℕ
  openFor : ℕ
  lastInstant : ℕ
  one_le : 1 ≤ threshold
  threshold_le : threshold ≤ UInt32.size - 1

namespace CircuitBreaker

def nextGeneration (generation : ℕ) : ℕ := (generation + 1) % UInt64.size

def checkedDeadline (breaker : CircuitBreaker) (now : ℕ) : Option ℕ :=
  if now + breaker.openFor ≤ breaker.lastInstant then some (now + breaker.openFor) else none

def permit (state : CircuitState) (now : ℕ) : Except HttpCacheError (CircuitState × ℕ) :=
  if state.openUntil.any fun deadline => decide (now < deadline) then .error .circuitOpen
  else if state.openUntil.isSome then
    let generation := nextGeneration state.generation
    .ok (⟨generation, 0, none⟩, generation)
  else .ok (state, state.generation)

def success (state : CircuitState) (permit : ℕ) : CircuitState :=
  if state.generation = permit ∧ state.openUntil = none then { state with failures := 0 }
  else state

def failure (breaker : CircuitBreaker) (state : CircuitState) (permit now : ℕ) : CircuitState :=
  if state.generation ≠ permit then state
  else
    let failures := min (state.failures + 1) (UInt32.size - 1)
    if breaker.threshold ≤ failures then
      ⟨nextGeneration state.generation, failures, breaker.checkedDeadline now⟩
    else { state with failures }

variable {breaker : CircuitBreaker} {state : CircuitState} {g now : ℕ}

theorem permit_refused_iff :
    permit state now = .error .circuitOpen ↔ ∃ d, state.openUntil = some d ∧ now < d := by
  unfold permit
  cases state.openUntil with
  | none => simp
  | some d => by_cases h : now < d <;> simp [h]

theorem success_of_stale (h : g ≠ state.generation) : success state g = state :=
  if_neg fun hc => h hc.1.symm

theorem failure_of_stale (h : g ≠ state.generation) : breaker.failure state g now = state :=
  if_pos (Ne.symm h)

theorem failure_of_lt (h : state.failures + 1 < breaker.threshold) :
    breaker.failure state state.generation now = { state with failures := state.failures + 1 } := by
  have hm := breaker.threshold_le
  simp only [failure, ne_eq, not_true_eq_false, if_false]
  rw [Nat.min_eq_left (by omega), if_neg (by omega)]

theorem failure_of_eq (h : state.failures + 1 = breaker.threshold) :
    breaker.failure state state.generation now =
      ⟨nextGeneration state.generation, breaker.threshold, breaker.checkedDeadline now⟩ := by
  have hm := breaker.threshold_le
  simp only [failure, ne_eq, not_true_eq_false, if_false]
  rw [Nat.min_eq_left (by omega), if_pos (by omega), h]

end CircuitBreaker

/-! ## What the log says -/

/-- What a call did; a failure that set a deadline opened the circuit. -/
inductive Event where
  | granted (op : ℕ)
  | refused (op : ℕ)
  | succeeded (op : ℕ)
  | failed (op : ℕ)
  | opened (op : ℕ) (deadline : Option ℕ)

/-- Whether `op` has been granted its permit since the last opening; the newest event is first. -/
def current (op : ℕ) : List Event → Bool
  | [] | .opened _ _ :: _ => false
  | .granted other :: log => decide (other = op) || current op log
  | _ :: log => current op log

/-- The failures of current operations since the last opening and the last success of one. -/
def streak : List Event → ℕ
  | [] | .opened _ _ :: _ => 0
  | .succeeded op :: log => if current op log then 0 else streak log
  | .failed op :: log => if current op log then streak log + 1 else streak log
  | _ :: log => streak log

def lastDeadline : List Event → Option ℕ
  | [] => none
  | .opened _ deadline :: _ => deadline
  | _ :: log => lastDeadline log

/-! ## Operations that share one circuit -/

open CircuitBreaker

inductive Phase where
  | fresh
  | running (permit : ℕ)
  | reported

structure Client where
  circuit : CircuitState
  phase : ℕ → Phase
  now : ℕ
  log : List Event

inductive Call where
  | permit
  | success
  | failure

structure Action where
  op : ℕ
  time : ℕ
  call : Call

/-- The event of a failure that took the circuit from `old` to `new`. -/
def failureEvent (op : ℕ) (old new : CircuitState) : Event :=
  if new.openUntil = old.openUntil then .failed op else .opened op new.openUntil

def grant (s : Client) (a : Action) (answer : Except HttpCacheError (CircuitState × ℕ)) : Client :=
  match answer with
  | .ok (circuit, permit) =>
    ⟨circuit, update s.phase a.op (.running permit), a.time, .granted a.op :: s.log⟩
  | .error _ => { s with now := a.time, log := .refused a.op :: s.log }

def report (s : Client) (a : Action) (circuit : CircuitState) (event : Event) : Client :=
  ⟨circuit, update s.phase a.op .reported, a.time, event :: s.log⟩

def answer (breaker : CircuitBreaker) (s : Client) (a : Action) : Option Client :=
  match a.call, s.phase a.op with
  | .permit, .fresh => some (grant s a (permit s.circuit a.time))
  | .success, .running permit =>
    some (report s a (success s.circuit permit) (.succeeded a.op))
  | .failure, .running permit =>
    let circuit := breaker.failure s.circuit permit a.time
    some (report s a circuit (failureEvent a.op s.circuit circuit))
  | _, _ => none

/-- The clock does not run back, neither it nor the generation overflows, and every operation
asks for one permit and reports at most one outcome. -/
def breakerMachine (breaker : CircuitBreaker) : Machine Client Action where
  init := ⟨⟨0, 0, none⟩, fun _ => .fresh, 0, []⟩
  step s a :=
    if s.now ≤ a.time ∧ a.time + breaker.openFor ≤ breaker.lastInstant ∧
        s.circuit.generation + 1 < UInt64.size then answer breaker s a
    else none

variable {breaker : CircuitBreaker} {s s' : Client} {a : Action} {g : ℕ}

variable {circuit : CircuitState} {event : Event} {op : ℕ}

/-- A report ends its own operation only. -/
theorem running_of_report
    (h : (report s a circuit event).phase op = .running g) : s.phase op = .running g := by
  simp only [report, update_apply] at h
  split at h
  · cases h
  · exact h

/-- The circuit agrees with the log. -/
structure Agrees (breaker : CircuitBreaker) (s : Client) : Prop where
  held : ∀ op g, s.phase op = .running g →
    g ≤ s.circuit.generation ∧ (current op s.log = true ↔ g = s.circuit.generation)
  closed : s.circuit.openUntil = none →
    s.circuit.failures = streak s.log ∧ streak s.log < breaker.threshold ∧
      ∀ d, lastDeadline s.log = some d → d ≤ s.now
  opened : ∀ d, s.circuit.openUntil = some d →
    lastDeadline s.log = some d ∧ streak s.log = 0 ∧ ∀ op, current op s.log = false

namespace Agrees

theorem stale_of_open (h : Agrees breaker s) {d : ℕ} (hd : s.circuit.openUntil = some d)
    (hop : s.phase op = .running g) : g ≠ s.circuit.generation := by
  intro hg
  have hc := (h.held op g hop).2.mpr hg
  rw [(h.opened d hd).2.2 op] at hc
  cases hc

theorem closed_of_current (h : Agrees breaker s) (hcur : current op s.log = true) :
    s.circuit.openUntil = none := by
  cases hd : s.circuit.openUntil with
  | none => rfl
  | some d =>
    rw [(h.opened d hd).2.2 op] at hcur
    cases hcur

/-- A granted operation is current; the others are current if they were and the generation is
the same one. -/
theorem held_of_grant (hcur : ∀ op g, s.phase op = .running g → g ≤ circuit.generation ∧
      (current op s.log = true ↔ g = circuit.generation))
    (hop : (grant s a (.ok (circuit, circuit.generation))).phase op = .running g) :
    g ≤ circuit.generation ∧
      (current op (.granted a.op :: s.log) = true ↔ g = circuit.generation) := by
  simp only [grant, update_apply] at hop
  split at hop
  · next he =>
    cases hop
    simp [current, he]
  · next hne =>
    simpa only [current, decide_eq_false (Ne.symm hne), Bool.false_or] using hcur op g hop

section

variable (h : Agrees breaker s)
include h

/-- A permit after the deadline starts a fresh generation. -/
theorem grant_expired {d : ℕ} (hd : s.circuit.openUntil = some d)
    (htime : d ≤ a.time) (hwrap : s.circuit.generation + 1 < UInt64.size) :
    Agrees breaker (grant s a (permit s.circuit a.time)) := by
  obtain ⟨hl, hz, hc⟩ := h.opened d hd
  have hn : nextGeneration s.circuit.generation = s.circuit.generation + 1 := Nat.mod_eq_of_lt hwrap
  have hg : permit s.circuit a.time =
      .ok (⟨s.circuit.generation + 1, 0, none⟩, s.circuit.generation + 1) := by
    simp [permit, hd, hn, Nat.not_lt.mpr htime]
  rw [hg]
  refine ⟨fun op g hop => held_of_grant (fun op g hop => ?_) hop,
    fun _ => ⟨hz.symm, ?_, fun e he => ?_⟩, nofun⟩
  · have ho := (h.held op g hop).1
    rw [hc]
    exact ⟨Nat.le_succ_of_le ho, nofun, fun heq => absurd (heq ▸ ho) (Nat.not_succ_le_self _)⟩
  · exact hz.symm ▸ breaker.one_le
  · have hde : e = d := Option.some.inj (he.symm.trans hl)
    exact hde ▸ htime

theorem grant_closed (hnone : s.circuit.openUntil = none)
    (htime : s.now ≤ a.time) : Agrees breaker (grant s a (permit s.circuit a.time)) := by
  obtain ⟨hc, hl, hla⟩ := h.closed hnone
  have hg : permit s.circuit a.time = .ok (s.circuit, s.circuit.generation) := by
    simp [permit, hnone]
  rw [hg]
  exact ⟨fun op g ho => held_of_grant h.held ho,
    fun _ => ⟨hc, hl, fun d hd => Nat.le_trans (hla d hd) htime⟩,
    fun d hd => absurd (hnone.symm.trans hd) nofun⟩

theorem grant_refused {d : ℕ} (hd : s.circuit.openUntil = some d)
    (htime : a.time < d) : Agrees breaker (grant s a (permit s.circuit a.time)) := by
  rw [permit_refused_iff.mpr ⟨d, hd, htime⟩]
  exact ⟨h.held, fun hn => absurd (hn.symm.trans hd) nofun, h.opened⟩

/-- A report that leaves the generation and the current operations as they are. -/
theorem held_of_report (hgen : circuit.generation = s.circuit.generation)
    (hcur : ∀ op, current op (event :: s.log) = current op s.log)
    (hop : (report s a circuit event).phase op = .running g) :
    g ≤ circuit.generation ∧ (current op (event :: s.log) = true ↔ g = circuit.generation) := by
  rw [hgen, hcur]
  exact h.held op g (running_of_report hop)

/-- An outcome of a stale permit is recorded and changes nothing. -/
theorem report_stale
    (hcur : ∀ op, current op (event :: s.log) = current op s.log)
    (hstreak : streak (event :: s.log) = streak s.log)
    (hlast : lastDeadline (event :: s.log) = lastDeadline s.log) (htime : s.now ≤ a.time) :
    Agrees breaker (report s a s.circuit event) := by
  refine ⟨fun op g hop => h.held_of_report rfl hcur hop, fun hn => ?_, fun d hd => ?_⟩
  · obtain ⟨hc, hl, ho⟩ := h.closed hn
    simp only [report, hstreak, hlast]
    exact ⟨hc, hl, fun d hd => Nat.le_trans (ho d hd) htime⟩
  · simp only [report, hstreak, hlast, hcur]
    exact h.opened d hd

theorem report_success (hop : s.phase a.op = .running g)
    (htime : s.now ≤ a.time) :
    Agrees breaker (report s a (success s.circuit g) (.succeeded a.op)) := by
  have hg := (h.held a.op g hop).2
  by_cases hc : current a.op s.log = true
  · have hn := h.closed_of_current hc
    rw [success, if_pos ⟨(hg.mp hc).symm, hn⟩]
    refine ⟨fun op g hop => h.held_of_report rfl (fun _ => rfl) hop, fun _ => ?_,
      fun d hd => absurd (hn.symm.trans hd) nofun⟩
    simp only [report, streak, hc, if_true, lastDeadline]
    exact ⟨trivial, breaker.one_le, fun d hd => Nat.le_trans ((h.closed hn).2.2 d hd) htime⟩
  · rw [success_of_stale (mt hg.mpr hc)]
    exact h.report_stale (fun _ => rfl) (if_neg hc) rfl htime

theorem report_failure (hop : s.phase a.op = .running g)
    (htime : s.now ≤ a.time) (hclock : a.time + breaker.openFor ≤ breaker.lastInstant)
    (hwrap : s.circuit.generation + 1 < UInt64.size) :
    Agrees breaker (report s a (breaker.failure s.circuit g a.time)
      (failureEvent a.op s.circuit (breaker.failure s.circuit g a.time))) := by
  have hg := (h.held a.op g hop).2
  by_cases hc : current a.op s.log = true
  · have hn := h.closed_of_current hc
    obtain ⟨hcn, hl, hla⟩ := h.closed hn
    rw [hg.mp hc]
    rcases Nat.lt_or_eq_of_le (Nat.succ_le_of_lt hl) with hm | hf
    · rw [failure_of_lt (by omega), failureEvent, if_pos rfl]
      refine ⟨fun op g hop => h.held_of_report rfl (fun _ => rfl) hop, fun _ => ?_,
        fun d hd => absurd (hn.symm.trans hd) nofun⟩
      simp only [report, streak, hc, if_true, lastDeadline]
      exact ⟨congrArg (· + 1) hcn, hm, fun d hd => Nat.le_trans (hla d hd) htime⟩
    have hope : breaker.checkedDeadline a.time = some (a.time + breaker.openFor) := if_pos hclock
    rw [failure_of_eq (by omega), hope, failureEvent, if_neg (by simp [hn]),
      nextGeneration, Nat.mod_eq_of_lt hwrap]
    refine ⟨fun op g hop => ?_, nofun, fun d hd => ⟨hd, rfl, fun _ => rfl⟩⟩
    have ho := (h.held op g (running_of_report hop)).1
    exact ⟨Nat.le_succ_of_le ho, nofun, fun he => absurd (he ▸ ho) (Nat.not_succ_le_self _)⟩
  · rw [failure_of_stale (mt hg.mpr hc), failureEvent, if_pos rfl]
    exact h.report_stale (fun _ => rfl) (if_neg hc) rfl htime

theorem step (hs : (breakerMachine breaker).step s a = some s') : Agrees breaker s' := by
  obtain ⟨⟨ht, hc, hw⟩, hs⟩ := Option.ite_none_right_eq_some.mp hs
  unfold answer at hs
  split at hs
  · cases hs
    cases hd : s.circuit.openUntil with
    | none => exact h.grant_closed hd ht
    | some d =>
      rcases Nat.lt_or_ge a.time d with hl | hg
      · exact h.grant_refused hd hl
      · exact h.grant_expired hd hg hw
  · cases hs
    exact h.report_success ‹_› ht
  · cases hs
    exact h.report_failure ‹_› ht hc hw
  · cases hs

end

end Agrees

theorem agrees_of_reachable (h : (breakerMachine breaker).Reachable s) : Agrees breaker s := by
  apply h.invariant
  · exact ⟨nofun, fun _ => ⟨rfl, breaker.one_le, nofun⟩, nofun⟩
  · exact fun s a s' _ hs hst => hs.step hst

/-- After every run and at every later time: a permit is refused exactly while the last deadline
lies in the future; until then no outcome changes the circuit; a failure opens it exactly when it
is the configured number of failures in a row among the operations granted since the last
opening; the outcomes of all others are without effect. -/
theorem breaker_follows_log (h : (breakerMachine breaker).Reachable s) {now : ℕ}
    (hnow : s.now ≤ now) : (permit s.circuit now = .error .circuitOpen ↔
      ∃ d, lastDeadline s.log = some d ∧ now < d) ∧
    ∀ op g, s.phase op = .running g →
      (((∃ d, lastDeadline s.log = some d ∧ now < d) ∨ current op s.log = false) →
        success s.circuit g = s.circuit ∧ breaker.failure s.circuit g now = s.circuit) ∧
      (now + breaker.openFor ≤ breaker.lastInstant →
        ((breaker.failure s.circuit g now).openUntil ≠ s.circuit.openUntil ↔
          current op s.log = true ∧ streak s.log + 1 = breaker.threshold) ∧
        ((breaker.failure s.circuit g now).openUntil ≠ s.circuit.openUntil →
          (breaker.failure s.circuit g now).openUntil = some (now + breaker.openFor))) := by
  have hs := agrees_of_reachable h
  have hopen : (∃ d, lastDeadline s.log = some d ∧ now < d) ↔
      ∃ d, s.circuit.openUntil = some d ∧ now < d := by
    cases hd : s.circuit.openUntil with
    | none =>
      refine iff_of_false ?_ nofun
      rintro ⟨d, hlast, hlt⟩
      exact Nat.not_lt.mpr (Nat.le_trans ((hs.closed hd).2.2 d hlast) hnow) hlt
    | some d => rw [(hs.opened d hd).1]
  rw [permit_refused_iff, hopen]
  refine ⟨Iff.rfl, fun op g hop => ⟨fun hstale => ?_, fun hclock => ?_⟩⟩
  · have hne : g ≠ s.circuit.generation := by
      rcases hstale with ⟨d, hd, -⟩ | hcur
      · exact hs.stale_of_open hd hop
      · exact mt (hs.held op g hop).2.mpr (Bool.eq_false_iff.mp hcur)
    exact ⟨success_of_stale hne, failure_of_stale hne⟩
  by_cases hcur : current op s.log = true
  · have hnone := hs.closed_of_current hcur
    obtain ⟨hcount, hlt, -⟩ := hs.closed hnone
    rw [(hs.held op g hop).2.mp hcur, hnone]
    rcases Nat.lt_or_eq_of_le (Nat.succ_le_of_lt hlt) with hmore | hfull
    · rw [failure_of_lt (by omega)]
      simp only [hnone, ne_eq, not_true_eq_false, false_iff, false_imp_iff, and_true]
      exact fun hfull => Nat.ne_of_lt hmore hfull.2
    · rw [failure_of_eq (by omega), checkedDeadline, if_pos hclock]
      exact ⟨iff_of_true nofun ⟨hcur, hfull⟩, fun _ => rfl⟩
  · rw [failure_of_stale (mt (hs.held op g hop).2.mpr hcur)]
    simp [hcur]

def singleFailure : CircuitBreaker := ⟨1, 60, 1000, by decide, by decide⟩

/-- Two overlapping operations, of which the second one fails. -/
def overlapping : List Action := [⟨0, 0, .permit⟩, ⟨1, 1, .permit⟩, ⟨1, 2, .failure⟩]

theorem breaker_follows_log_overlapping :
    ∃ s, (breakerMachine singleFailure).Reachable s ∧ s.phase 0 = .running 0 ∧
      permit s.circuit 5 = .error .circuitOpen ∧ success s.circuit 0 = s.circuit := by
  obtain ⟨s, hexec⟩ : ∃ s, (breakerMachine singleFailure).exec overlapping
      (breakerMachine singleFailure).init = some s := ⟨_, rfl⟩
  have hs : (breakerMachine singleFailure).Reachable s := Machine.Reachable.exec ⟨[], .start⟩ hexec
  cases hexec
  obtain ⟨hrefused, houtcome⟩ := breaker_follows_log hs (by decide : _ ≤ 5)
  have hopen : ∃ d, lastDeadline [Event.opened 1 (some 62), .granted 1, .granted 0] = some d ∧
      5 < d := ⟨62, rfl, by decide⟩
  exact ⟨_, hs, rfl, hrefused.mpr hopen, ((houtcome 0 0 rfl).1 (.inl hopen)).1⟩

end Octa.CacheHttp
