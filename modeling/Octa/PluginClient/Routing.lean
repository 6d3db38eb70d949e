import Octa.PluginClient.Shape

/-!
# Routing of responses

Every response that names a running command reaches the execution of that command, in the
order of arrival and the terminal response last, unless the execution finds its queue
overflowed or the handler has left its loop.
-/

namespace Octa.PluginClient

open Transition List

variable {δ : Type} {validate : δ → Except String Unit} {s s' : State δ} {a : Action δ}
  {history : List (State δ × Action δ)} {id : Id} {q q' : Request δ}
variable {reading reading' : Prop} {arrived : List (PluginResponse δ)} {acks : ℕ}
  {r : PluginResponse δ}

/-! ## Arrivals -/

/-- A response, other than replaceable progress, that names the running command `id`. -/
def arrival (id : Id) (entry : State δ × Action δ) : Option (PluginResponse δ) :=
  match entry.2 with
  | .dispatch r =>
    if r.id? = some id ∧ r.isReplaceable = false ∧ (entry.1.requests id).IsRunning then some r
    else none
  | _ => none

def arrivals (id : Id) (history : List (State δ × Action δ)) : List (PluginResponse δ) :=
  history.filterMap (arrival id)

/-- A `Started` that is consumed by the call that waits for it. -/
def acknowledges (id : Id) (entry : State δ × Action δ) : Bool :=
  match entry.2 with
  | .dispatch r => r.id? = some id ∧ r.isStarted = true ∧ (entry.1.requests id).IsAwaiting
  | _ => false

def acknowledgements (id : Id) (history : List (State δ × Action δ)) : ℕ :=
  history.countP (acknowledges id)

/-! ## Deliveries -/

/-- The arrived responses have reached the execution up to an overflow or the end of the
handler's loop, and only an error of the handler's own may follow them. -/
def Reaches (id : Id) (reading : Prop) (q : Request δ) (arrived : List (PluginResponse δ)) :
    Prop :=
  ∃ reached lost failure, arrived = reached ++ lost ∧ q.stream = reached ++ failure ∧
    (lost = [] ∨ q.overflowed = true ∨ ¬reading) ∧
    (failure = [] ∨ ¬reading ∧ q.command = none ∧ (∀ r ∈ arrived, r.isTerminal = false) ∧
      ∃ message, failure = [.error id message])

structure Delivery (id : Id) (reading : Prop) (q : Request δ) (arrived : List (PluginResponse δ)) :
    Prop where
  delivered : q.phase.holdsExecution = true → Reaches id reading q arrived
  own : ∀ r ∈ q.stream, r.id? = some id
  terminal : ∀ r ∈ arrived.dropLast, r.isTerminal = false
  running : q.command.isSome = true → ∀ r ∈ arrived, r.isTerminal = false

theorem Reaches.of_lost {lost : List (PluginResponse δ)} (har : arrived = q.stream ++ lost)
    (hlost : lost = [] ∨ q.overflowed = true ∨ ¬reading) : Reaches id reading q arrived :=
  ⟨q.stream, lost, [], har, (append_nil _).symm, hlost, .inl rfl⟩

theorem Reaches.exists_lost {route : CommandRoute} (h : Reaches id reading q arrived)
    (hrt : q.command = some route) :
    ∃ lost, arrived = q.stream ++ lost ∧ (lost = [] ∨ q.overflowed = true ∨ ¬reading) := by
  obtain ⟨reached, lost, failure, ha, hs, hl, rfl | ⟨-, hn, -⟩⟩ := h
  · rw [append_nil] at hs
    exact ⟨lost, by rw [ha, hs], hl⟩
  · rw [hrt] at hn
    cases hn

theorem Reaches.congr (h : Reaches id reading q arrived) (hst : q'.stream = q.stream)
    (hover : q.overflowed = true → q'.overflowed = true)
    (hcmd : q.command = none → q'.command = none) (hread : reading' → reading) :
    Reaches id reading' q' arrived := by
  obtain ⟨reached, lost, failure, ha, hr, hl, hf⟩ := h
  refine ⟨reached, lost, failure, ha, hst.trans hr, ?_, ?_⟩
  · exact hl.imp_right (Or.imp hover (mt hread))
  · exact hf.imp_right (And.imp (mt hread) (And.imp_left hcmd))

theorem Silent.reaches (h : Silent q arrived acks) (hst : q'.stream = q.stream) :
    Reaches id reading q' arrived := by
  refine ⟨[], [], [], h.arrived, ?_, .inl rfl, .inl rfl⟩
  rw [hst, Request.stream, h.received, h.queue]

theorem Move.stream_eq (hmove : Move s id a q q') (hexec : q'.phase.holdsExecution = true) :
    q'.stream = q.stream ∧ q'.overflowed = q.overflowed ∧ (q.phase.isFresh = true ∨
        q.phase.holdsExecution = true ∧ (q.command = none → q'.command = none)) := by
  cases hmove <;>
    simp_all [Phase.holdsExecution, Phase.isFresh, Request.stream, Request.markCancelled]

theorem Delivery.move (hsh : Shape q arrived acks) (h : Delivery id reading q arrived)
    (hmove : Move s id a q q') : Delivery id reading q' arrived where
  delivered := by
    intro he
    obtain ⟨hs, hov, hf | ⟨hb, hc⟩⟩ := hmove.stream_eq he
    · exact (hsh.fresh hf).2.2.reaches hs
    · exact (h.delivered hb).congr hs hov.trans hc fun h => h
  own := by
    have ho := h.own
    cases hmove <;> simp_all [Request.stream, Request.markCancelled]
  terminal := h.terminal
  running := by
    have hr := h.running
    cases hmove with
    | registered hp =>
      have hsi := (hsh.fresh (by rw [hp]; rfl)).2.2
      simp [hsi.arrived]
    | _ => simp_all [Request.markCancelled]

section

variable (h : Delivery id reading q arrived)
include h

theorem Delivery.stream_eq (hsh : Shape q arrived acks)
    (hread : reading) (hcmd : q.command = some ⟨.running, true⟩)
    (hexec : q.phase.holdsExecution = true) : q.stream = arrived := by
  obtain ⟨lost, ha, rfl | ho | hn⟩ := (h.delivered hexec).exists_lost hcmd
  · rw [ha, append_nil]
  · rw [hsh.opened hcmd] at ho
    cases ho
  · exact absurd hread hn

theorem Delivery.dropLast (hrun : q.IsRunning) :
    ∀ r' ∈ (arrived ++ [r]).dropLast, r'.isTerminal = false := by
  obtain ⟨sender, hc⟩ := hrun
  rw [dropLast_concat]
  exact h.running (by rw [hc]; rfl)

theorem Delivery.congr (hph : q'.phase = q.phase)
    (hst : q'.stream = q.stream) (hover : q.overflowed = true → q'.overflowed = true)
    (hcmd : q.command = none → q'.command = none) (hread : reading' → reading) :
    Delivery id reading' q' arrived where
  delivered := by
    rw [hph]
    exact fun he => (h.delivered he).congr hst hover hcmd hread
  own := by
    rw [hst]
    exact h.own
  terminal := h.terminal
  running := by
    intro hs
    apply h.running
    cases hq : q.command with
    | none =>
      rw [hcmd hq] at hs
      exact hs
    | some route => rfl

theorem Delivery.lose (hrun : q.IsRunning)
    (hph : q'.phase = q.phase) (hst : q'.stream = q.stream)
    (hlost : q.phase.holdsExecution = true → q'.overflowed = true ∨ ¬reading')
    (hterm : r.isTerminal = true → q'.command = none) :
    Delivery id reading' q' (arrived ++ [r]) where
  delivered := by
    intro he
    rw [hph] at he
    obtain ⟨sender, hc⟩ := hrun
    obtain ⟨lost, ha, -⟩ := (h.delivered he).exists_lost hc
    have hsp : arrived ++ [r] = q'.stream ++ (lost ++ [r]) := by
      rw [ha, hst, append_assoc]
    exact .of_lost hsp (.inr (hlost he))
  own := by
    rw [hst]
    exact h.own
  terminal := h.dropLast hrun
  running := by
    intro hs r' hr'
    obtain ⟨sender, hc⟩ := hrun
    obtain hr' | hr' := mem_append.mp hr'
    · exact h.running (by rw [hc]; rfl) r' hr'
    obtain rfl := mem_singleton.mp hr'
    by_contra hn
    rw [hterm (by simpa using hn)] at hs
    cases hs

theorem Delivery.enqueue (hsh : Shape q arrived acks)
    (hread : reading) (hcmd : q.command = some ⟨.running, true⟩)
    (hexec : q.phase.holdsExecution = true) (hr : r.id? = some id)
    (hst : q'.stream = q.stream ++ [r]) (hterm : r.isTerminal = true → q'.command = none) :
    Delivery id reading q' (arrived ++ [r]) where
  delivered := by
    intro _
    have ha : arrived ++ [r] = q'.stream ++ [] := by
      rw [append_nil, hst, h.stream_eq hsh hread hcmd hexec]
    exact .of_lost ha (.inl rfl)
  own := by
    rw [hst]
    intro r' hr'
    obtain hr' | hr' := mem_append.mp hr'
    · exact h.own r' hr'
    · obtain rfl := mem_singleton.mp hr'
      exact hr
  terminal := h.dropLast ⟨true, hcmd⟩
  running := by
    intro hs r' hr'
    obtain hr' | hr' := mem_append.mp hr'
    · exact h.running (by rw [hcmd]; rfl) r' hr'
    obtain rfl := mem_singleton.mp hr'
    by_contra hn
    rw [hterm (by simpa using hn)] at hs
    cases hs

theorem Delivery.push (hsh : Shape q arrived acks)
    (hread : reading) (hr : r.id? = some id) (hterm : r.isTerminal = false)
    (hrun : q.IsRunning) : Delivery id reading (q.push r) (arrived ++ [r]) := by
  have hn : ∀ command : Option CommandRoute, r.isTerminal = true → command = none := by
    intro _ h'
    rw [hterm] at h'
    cases h'
  obtain ⟨sender, hc⟩ := hrun
  have hrun : q.IsRunning := ⟨sender, hc⟩
  unfold Request.push
  simp only [hc]
  cases sender with
  | false => exact h.lose hrun rfl rfl (fun he => .inl (hsh.taken hc he)) (hn _)
  | true =>
    dsimp only
    split
    · rename_i hg
      refine h.lose hrun rfl rfl ?_ (hn _)
      intro hex
      rw [hex] at hg
      cases hg
    rename_i hex
    split
    · refine h.enqueue hsh hread hc (by simpa using hex) hr ?_ (hn _)
      simp [Request.stream]
    · exact h.lose hrun rfl rfl (fun _ => .inl rfl) (hn _)

theorem Delivery.finish {route : CommandRoute}
    (hsh : Shape q arrived acks) (hread : reading) (hr : r.id? = some id)
    (hterm : r.isTerminal = true) (hrt : q.command = some route) :
    Delivery id reading (q.finish id r route) (logged q r arrived) := by
  have hrm : Removal q (q.finish id r route) := removal_finish hrt
  have hre : r.isReplaceable = false := by
    cases r <;> first | rfl | cases hterm
  obtain ⟨state, sender⟩ := route
  cases state with
  | awaitingStart =>
    have hru := not_running_of_awaiting ⟨sender, hrt⟩
    rw [logged_of_not_running (.inr hru)]
    refine h.congr hrm.phase ?_ ?_ (fun _ => hrm.command) (fun h => h)
    · simp only [Request.finish, Request.notifyStart, Request.stream]
      split <;> rfl
    · simp only [Request.finish, Request.notifyStart]
      split <;> exact fun h => h
  | cancelled =>
    have hru : ¬q.IsRunning := by
      rintro ⟨_, h'⟩
      rw [hrt] at h'
      cases h'
    rw [logged_of_not_running (.inr hru)]
    exact h.congr rfl rfl (fun h => h) (fun _ => rfl) (fun h => h)
  | running =>
    have hru : q.IsRunning := ⟨sender, hrt⟩
    rw [logged, if_pos ⟨hre, hru⟩]
    cases sender with
    | false =>
      exact h.lose hru hrm.phase rfl (fun he => .inl (hsh.taken hrt he)) (fun _ => hrm.command)
    | true =>
      simp only [Request.finish, Request.pushLast] at hrm ⊢
      split
      · rename_i hro
        obtain ⟨hex, -⟩ := Bool.and_eq_true_iff.mp hro
        refine h.enqueue hsh hread hrt hex hr ?_ (fun _ => rfl)
        simp [Request.stream]
      · exact h.lose hru rfl rfl (fun _ => .inl rfl) (fun _ => rfl)

theorem Delivery.answer (hsh : Shape q arrived acks)
    (hread : reading) (hr : r.id? = some id) (han : Answer id r q q') :
    Delivery id reading q' (logged q r arrived) := by
  cases han with
  | plan result hp =>
    have hn := hsh.command_of_plan hp
    rw [logged_of_not_running (.inr (not_running_of_none hn))]
    exact h.congr rfl rfl (fun h => h) (fun h => h) (fun h => h)
  | acknowledged _ hc | abandoned _ hc =>
    rw [logged_of_not_running (.inr (not_running_of_awaiting ⟨_, hc⟩))]
    refine h.congr rfl rfl (fun h => h) ?_ (fun h => h)
    intro hn
    rw [hc] at hn
    cases hn
  | progress progress hre _ =>
    rw [logged_of_not_running (.inl hre)]
    exact h.congr rfl rfl (fun h => h) (fun h => h) (fun h => h)
  | output hre ht hru =>
    rw [logged, if_pos ⟨hre, hru⟩]
    exact h.push hsh hread hr ht hru
  | finished ht hrt => exact h.finish hsh hread hr ht hrt
  | ignored hru =>
    rw [logged_of_not_running (.inr hru)]
    exact h

end

variable {error : PluginClientError}

theorem Delivery.terminate {last : Option (PluginResponse δ)}
    (h : Delivery id reading q arrived) (hlast : ∀ r ∈ last, ∃ msg, r = .error id msg) :
    Delivery id False (q.terminate error last) arrived := by
  cases hrt : q.command with
  | none =>
    simp only [Request.terminate, hrt]
    exact h.congr rfl rfl (fun h => h) (fun h => h) False.elim
  | some route =>
    have hre : Removal q (q.terminate error last) := removal_terminate hrt
    have hk : (q.terminate error last).queue = q.queue →
        (q.terminate error last).overflowed = q.overflowed →
        Delivery id False (q.terminate error last) arrived := by
      intro hq ho
      refine h.congr hre.phase ?_ ho.trans (fun _ => hre.command) False.elim
      rw [Request.stream, Request.stream, hre.received, hq]
    obtain ⟨state, sender⟩ := route
    cases state with
    | awaitingStart =>
      apply hk <;>
      · simp only [Request.terminate, hrt, Request.notifyStart]
        split <;> rfl
    | cancelled => apply hk <;> simp only [Request.terminate, hrt]
    | running =>
      cases sender with
      | false => apply hk <;> simp only [Request.terminate, hrt]
      | true =>
        cases last with
        | none => apply hk <;> simp only [Request.terminate, hrt]
        | some r =>
          obtain ⟨msg, rfl⟩ := hlast r rfl
          by_cases hro : (q.phase.holdsExecution &&
              decide (q.queue.length < commandResponseCapacity)) = true
          · simp only [Request.terminate, hrt, hro, if_true]
            have ht := h.running (by rw [hrt]; rfl)
            refine ⟨?_, ?_, h.terminal, fun h => by cases h⟩
            · intro he
              obtain ⟨lost, ha, -⟩ := (h.delivered he).exists_lost hrt
              refine ⟨q.stream, lost, [.error id msg], ha, ?_,
                .inr (.inr fun h => h), .inr ⟨fun h => h, rfl, ht, msg, rfl⟩⟩
              simp [Request.stream]
            intro r hr
            simp only [Request.stream, ← append_assoc] at hr
            obtain hr | hr := mem_append.mp hr
            · exact h.own r hr
            · obtain rfl := mem_singleton.mp hr
              rfl
          · apply hk <;> simp only [Request.terminate, hrt, hro] <;> rfl

theorem Delivery.closePlan (h : Delivery id reading q arrived)
    (hread : reading' → reading) : Delivery id reading' (q.closePlan error) arrived := by
  unfold Request.closePlan
  split <;> exact h.congr rfl rfl (fun h => h) (fun h => h) hread

theorem failed_logged {msg : String} (hsh : Shape q arrived acks)
    (hde : Delivery id reading q arrived) (hterm : r.isTerminal = false) :
    Shape (q.closePlan (.protocol msg)) (logged q r arrived) acks ∧
      Delivery id (Handler.failing msg = .reading) (q.closePlan (.protocol msg))
        (logged q r arrived) := by
  have hn : Handler.failing msg = .reading → False := fun h => by cases h
  by_cases h : r.isReplaceable = false ∧ q.IsRunning
  · rw [logged, if_pos h]
    refine ⟨(hsh.relog h.2).closePlan, ?_⟩
    have hl : Delivery id False q (arrived ++ [r]) := by
      refine hde.lose h.2 rfl rfl (fun _ => .inr fun h => h) ?_
      intro ht
      rw [hterm] at ht
      cases ht
    exact hl.closePlan hn
  · rw [logged, if_neg h]
    exact ⟨hsh.closePlan, hde.closePlan fun h => (hn h).elim⟩

/-! ## Runs -/

def Inv (history : List (State δ × Action δ)) (s : State δ) : Prop :=
  ∀ id, Shape (s.requests id) (arrivals id history) (acknowledgements id history) ∧
    Delivery id (s.handler = .reading) (s.requests id) (arrivals id history)

theorem arrivals_of_not_dispatch (ha : ∀ r, a ≠ .dispatch r) :
    arrivals id (history ++ [(s, a)]) = arrivals id history := by
  have hn : arrival id (s, a) = none := by
    cases a with
    | dispatch r => exact absurd rfl (ha r)
    | _ => rfl
  simp [arrivals, filterMap_append, hn]

theorem acknowledgements_of_not_dispatch (ha : ∀ r, a ≠ .dispatch r) :
    acknowledgements id (history ++ [(s, a)]) = acknowledgements id history := by
  have hf : acknowledges id (s, a) = false := by
    cases a with
    | dispatch r => exact absurd rfl (ha r)
    | _ => rfl
  simp [acknowledgements, countP_append, hf]

theorem arrivals_dispatch (hr : r.id? = some id) : arrivals id (history ++ [(s, .dispatch r)]) =
      logged (s.requests id) r (arrivals id history) := by
  unfold arrivals logged
  rw [filterMap_append]
  by_cases h : r.isReplaceable = false ∧ (s.requests id).IsRunning
  · simp [arrival, hr, h]
  · simp [arrival, hr, h]

theorem acknowledgements_dispatch (hr : r.id? = some id) :
    acknowledgements id (history ++ [(s, .dispatch r)]) =
      counted (s.requests id) r (acknowledgements id history) := by
  unfold acknowledgements counted
  rw [countP_append]
  by_cases h : r.isStarted = true ∧ (s.requests id).IsAwaiting
  · simp [acknowledges, hr, h]
  · simp [acknowledges, hr, h]

theorem arrivals_dispatch_ne (hr : r.id? ≠ some id) :
    arrivals id (history ++ [(s, .dispatch r)]) = arrivals id history := by
  simp [arrivals, filterMap_append, arrival, hr]

theorem acknowledgements_dispatch_ne (hr : r.id? ≠ some id) :
    acknowledgements id (history ++ [(s, .dispatch r)]) = acknowledgements id history := by
  simp [acknowledgements, countP_append, acknowledges, hr]

theorem Inv.init : Inv ([] : List (State δ × Action δ)) .init := by
  intro id
  have hs : Silent (.unused : Request δ) [] 0 := ⟨rfl, rfl, rfl, rfl, rfl⟩
  refine ⟨?_, ?_⟩
  · constructor <;> simp_all [State.init, Request.unused, Request.IsRunning, arrivals,
      acknowledgements, Phase.isPlanning]
  · constructor <;> simp_all [State.init, Request.unused, Request.stream, arrivals,
      Phase.holdsExecution]

section

variable (h : Inv history s)
include h

theorem Inv.caller (hca : a.caller = some id)
    (hmove : (s.requests id).move s a = some q) :
    Inv (history ++ [(s, a)]) ((s.afterMove a).set id q) := by
  intro id'
  have ha : ∀ r, a ≠ .dispatch r := by
    rintro r rfl
    cases hca
  rw [arrivals_of_not_dispatch ha, acknowledgements_of_not_dispatch ha, State.set_requests,
    State.set_handler, State.afterMove_requests, State.afterMove_handler]
  by_cases hi : id' = id
  · obtain rfl := hi
    rw [Function.update_self]
    obtain ⟨hs, hd⟩ := h id'
    exact ⟨hs.move (move_of_some hca hmove), hd.move hs (move_of_some hca hmove)⟩
  · rw [Function.update_of_ne hi]
    exact h id'

theorem Inv.rejected {msg : String} (hr : r.id? = some id)
    (hrej : Rejected id (s.requests id) r) :
    Inv (history ++ [(s, .dispatch r)]) (s.failProtocol msg) := by
  intro id'
  obtain ⟨hs, hd⟩ := h id'
  by_cases hi : id' = id
  · obtain rfl := hi
    rw [arrivals_dispatch hr, acknowledgements_dispatch hr, hrej.counted_eq]
    exact failed_logged hs hd hrej.not_terminal
  have hne : r.id? ≠ some id' := by
    rw [hr]
    exact fun h => hi (Option.some.inj h).symm
  rw [arrivals_dispatch_ne hne, acknowledgements_dispatch_ne hne]
  exact ⟨hs.closePlan, hd.closePlan fun h => by cases h⟩

theorem Inv.answered (hread : s.handler = .reading) (hr : r.id? = some id)
    (han : Answer id r (s.requests id) q) : Inv (history ++ [(s, .dispatch r)]) (s.set id q) := by
  intro id'
  obtain ⟨hs, hd⟩ := h id'
  rw [State.set_requests, State.set_handler]
  by_cases hi : id' = id
  · obtain rfl := hi
    rw [arrivals_dispatch hr, acknowledgements_dispatch hr, Function.update_self]
    exact ⟨hs.answer han, hd.answer hs hread hr han⟩
  have hne : r.id? ≠ some id' := by
    rw [hr]
    exact fun h => hi (Option.some.inj h).symm
  rw [arrivals_dispatch_ne hne, acknowledgements_dispatch_ne hne, Function.update_of_ne hi]
  exact ⟨hs, hd⟩

theorem Inv.control (hread : s.handler = .reading)
    (hr : s.forControl r = true) :
    Inv (history ++ [(s, .dispatch r)]) (s.pushControl r) := by
  intro id
  obtain ⟨hs, hd⟩ := h id
  have ha : arrivals id (history ++ [(s, .dispatch r)]) = arrivals id history ∧
      acknowledgements id (history ++ [(s, .dispatch r)]) = acknowledgements id history := by
    by_cases hi : r.id? = some id
    · have hn := State.command_of_forControl hr hi
      rw [arrivals_dispatch hi, acknowledgements_dispatch hi,
        logged_of_not_running (.inr (not_running_of_none hn)),
        counted_of_not_awaiting (.inr (not_awaiting_of_none hn))]
      exact ⟨rfl, rfl⟩
    · exact ⟨arrivals_dispatch_ne hi, acknowledgements_dispatch_ne hi⟩
  rw [ha.1, ha.2, State.pushControl_requests]
  exact ⟨hs, hd.congr rfl rfl (fun h => h) (fun h => h) fun _ => hread⟩

theorem Inv.step (hstep : Step validate s a s') : Inv (history ++ [(s, a)]) s' := by
  cases hstep with
  | caller hc hm => exact h.caller hc hm
  | other _ ha hrq hh =>
    intro id
    obtain ⟨hs, hd⟩ := h id
    rw [arrivals_of_not_dispatch ha, acknowledgements_of_not_dispatch ha, hrq]
    refine ⟨hs, hd.congr rfl rfl (fun h => h) (fun h => h) ?_⟩
    intro hre
    obtain hsa | ⟨hb, -⟩ := hh
    · rw [← hsa]
      exact hre
    · exact hb
  | dispatch hre =>
    obtain ⟨id, hr, ⟨msg, hrj, hs'⟩ | ⟨q, han, hs'⟩⟩ | ⟨hr, hs'⟩ :=
      dispatchResponse_cases validate s _
    · rw [hs']
      exact h.rejected hr hrj
    · rw [hs']
      exact h.answered hre hr han
    · rw [hs']
      exact h.control hre hr
  | invalidFrame =>
    intro id
    obtain ⟨hs, hd⟩ := h id
    rw [arrivals_of_not_dispatch (fun _ h => by cases h),
      acknowledgements_of_not_dispatch (fun _ h => by cases h)]
    exact ⟨hs.closePlan, hd.closePlan fun h => by cases h⟩
  | failCommands =>
    intro id
    obtain ⟨hs, hd⟩ := h id
    rw [arrivals_of_not_dispatch (fun _ h => by cases h),
      acknowledgements_of_not_dispatch (fun _ h => by cases h)]
    refine ⟨hs.terminate, ?_⟩
    refine (hd.terminate ?_).congr rfl rfl (fun h => h) (fun h => h) (fun h => by cases h)
    rintro r ⟨⟩
    exact ⟨_, rfl⟩
  | closePlans =>
    intro id
    obtain ⟨hs, hd⟩ := h id
    rw [arrivals_of_not_dispatch (fun _ h => by cases h),
      acknowledgements_of_not_dispatch (fun _ h => by cases h)]
    exact ⟨hs.closePlan, hd.closePlan fun h => by cases h⟩
  | closeCommands =>
    intro id
    obtain ⟨hs, hd⟩ := h id
    rw [arrivals_of_not_dispatch (fun _ h => by cases h),
      acknowledgements_of_not_dispatch (fun _ h => by cases h)]
    refine ⟨hs.terminate, ?_⟩
    refine (hd.terminate ?_).congr rfl rfl (fun h => h) (fun h => h) (fun h => by cases h)
    rintro r ⟨⟩

end

section

variable (h : (client validate).Run history s)
include h

theorem inv_of_run : Inv history s := by
  induction h with
  | start => exact Inv.init
  | step _ hs ih => exact ih.step (step_of_some hs)

theorem of_ended {G : State δ → Action δ → Prop} {P : Request δ → Prop}
    (hG : ∀ e ∈ history, G e.1 e.2)
    (hnone : ∀ q : Request δ, q.command = none → P q)
    (hmove : ∀ (s : State δ) (a : Action δ) (id : Id) (q q' : Request δ), s.handler = .ended →
      G s a → Move s id a q q' → P q → P q')
    (hen : s.handler = .ended) (id : Id) : P (s.requests id) := by
  have ha : s.handler = .ended → ∀ id, P (s.requests id) := by
    apply h.invariant_of (I := fun s => s.handler = .ended → ∀ id, P (s.requests id)) hG
    · intro hen
      cases hen
    intro s a s' _ hst ih hs hen id
    cases step_of_some hs with
    | @caller _ id' q hc hq =>
      rw [State.set_handler, State.afterMove_handler] at hen
      rw [State.set_requests, State.afterMove_requests]
      by_cases hi : id = id'
      · obtain rfl := hi
        rw [Function.update_self]
        exact hmove s a id _ _ hen hst (move_of_some hc hq) (ih hen id)
      · rw [Function.update_of_ne hi]
        exact ih hen id
    | other _ _ hrq hh =>
      rw [hrq]
      obtain hsa | ⟨-, hclosing⟩ := hh
      · exact ih (hsa.symm.trans hen) id
      · rw [hclosing] at hen
        cases hen
    | dispatch hr =>
      obtain ⟨id', -, ⟨msg, -, hs'⟩ | ⟨q, -, hs'⟩⟩ | ⟨-, hs'⟩ := dispatchResponse_cases validate s _
      · rw [hs'] at hen
        cases hen
      · rw [hs', State.set_handler, hr] at hen
        cases hen
      rw [hs'] at hen
      obtain hsa | hclosing := State.pushControl_handler (s := s) _
      · rw [hsa, hr] at hen
        cases hen
      · rw [hclosing] at hen
        cases hen
    | invalidFrame | failCommands | closePlans => cases hen
    | closeCommands =>
      apply hnone
      cases hrt : (s.requests id).command with
      | none => simp only [Request.terminate, hrt]
      | some route => exact (removal_terminate hrt).command
  exact ha hen id

theorem not_running_of_ended (hen : s.handler = .ended)
    (id : Id) : ¬(s.requests id).IsRunning := by
  refine of_ended (G := fun _ _ => True) (P := fun q => ¬q.IsRunning) h (fun _ _ => trivial) ?_ ?_
    hen id
  · intro q hn
    exact not_running_of_none hn
  · intro s a id q q' _ _ hm hr
    cases hm <;> simp_all [Request.IsRunning, Request.markCancelled]

end

structure Routed (history : List (State δ × Action δ)) (s : State δ) (id : Id) : Prop where
  /-- arrived responses reach the execution unless it overflows or the handler fails -/
  reaches : (s.requests id).phase.holdsExecution = true →
    Reaches id (s.handler = .reading) (s.requests id) (arrivals id history)
  /-- nothing reaches another command -/
  own : ∀ r ∈ (s.requests id).stream, r.id? = some id
  terminal_last : (s.requests id).phase.holdsExecution = true →
    ∀ r ∈ (s.requests id).stream.dropLast, r.isTerminal = false
  /-- an overflow is what the execution sees next -/
  overflow_seen : (s.requests id).overflowed = true →
    (s.requests id).receiveOutput id false =
      some (.error (.responseQueueOverflow id commandResponseCapacity), s.requests id)
  /-- behind its queue the execution sees the end of the connection -/
  end_seen : (s.requests id).phase = .executing → s.handler = .ended →
    (s.requests id).overflowed = false → (s.requests id).queue = [] →
    (s.requests id).receiveOutput id false = some (.ok none, s.requests id)
  started_at_most_once : acknowledgements id history ≤ 1
  started : (s.requests id).phase = .executing → acknowledgements id history = 1

theorem Reaches.terminal_last (h : Reaches id reading q arrived)
    (har : ∀ r ∈ arrived.dropLast, r.isTerminal = false) :
    ∀ r ∈ q.stream.dropLast, r.isTerminal = false := by
  obtain ⟨reached, lost, failure, hs, hst, -, hf⟩ := h
  rw [hst]
  obtain rfl | ⟨-, -, ha, msg, rfl⟩ := hf
  · rw [append_nil]
    intro r hr
    apply har
    rw [hs]
    by_cases hl : lost = []
    · rw [hl, append_nil]
      exact hr
    · rw [dropLast_append_of_ne_nil hl]
      exact mem_append_left _ (dropLast_subset _ hr)
  · rw [dropLast_concat]
    intro r hr
    apply ha
    rw [hs]
    exact mem_append_left _ hr

/-- In every run the responses that name a running command go to its execution. -/
theorem responses_routed (h : (client validate).Run history s) (id : Id) : Routed history s id := by
  obtain ⟨hshape, hdelivery⟩ := inv_of_run h id
  refine ⟨hdelivery.delivered, hdelivery.own, ?_, ?_, ?_, hshape.acks_le, ?_⟩
  · exact fun hexecution => (hdelivery.delivered hexecution).terminal_last hdelivery.terminal
  · intro hoverflowed
    simp [Request.receiveOutput, hoverflowed]
  · intro hexecuting hended hoverflowed hqueue
    have hrunning := not_running_of_ended h hended id
    have hnone : (s.requests id).command = none := by
      have hstarted := hshape.executing hexecuting
      exact (hshape.acknowledged hstarted (.inr hexecuting)).resolve_right hrunning
    simp [Request.receiveOutput, hoverflowed, hqueue, hnone]
  · exact fun hexecuting => hshape.acks_started (hshape.executing hexecuting)

/-- Two commands at once: each gives a line, and the first one completes while its caller
reads. -/
def twoCommands : List (Action ℕ) :=
  [.start "a", .lockWriter "a", .register "a", .write "a", .start "b", .lockWriter "b",
    .register "b", .write "b", .dispatch (.started "b"), .dispatch (.started "a"),
    .dispatch (.stdout "a" 1), .dispatch (.stdout "b" 3), .resume "b", .resume "a",
    .receive "a" false, .dispatch (.completed "a" 0 2)]

theorem responses_routed_two : ∃ history s, (client fun _ => .ok ()).Run history s ∧
      arrivals "a" history = [.stdout "a" 1, .completed "a" 0 2] ∧
      (s.requests "a").stream = arrivals "a" history ∧
      (s.requests "b").stream = [.stdout "b" 3] ∧
      acknowledgements "a" history = 1 ∧ Routed history s "a" := by
  have hexec : ((client fun _ => .ok ()).exec twoCommands .init).map
      (fun s => ((s.requests "a").stream, (s.requests "b").stream)) =
      some ([.stdout "a" 1, .completed "a" 0 2], [.stdout "b" 3]) := by decide +kernel
  obtain ⟨s, hexec, hstreams⟩ := Option.map_eq_some_iff.mp hexec
  obtain ⟨hstream, hother⟩ := Prod.mk.inj hstreams
  have hrun := Machine.Run.start.exec_trace hexec
  have harrivals : arrivals "a" ((client fun _ => .ok ()).trace twoCommands .init) =
      [.stdout "a" 1, .completed "a" 0 2] := by decide +kernel
  have hacks : acknowledgements "a"
      ((client fun _ => .ok ()).trace twoCommands .init) = 1 := by decide +kernel
  exact ⟨_, s, hrun, harrivals, hstream.trans harrivals.symm, hother, hacks,
    responses_routed hrun "a"⟩

end Octa.PluginClient
