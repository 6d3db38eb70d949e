import Octa.PluginClient.Steps

/-!
# The shape of a request

The phase of a request, its route and its channels fit together in every state: a route
that waits for its start has received nothing, a caller that waits for its start has a route
that does, and a running route has lost the sender of its queue only to an overflow or to a
caller that has gone.
-/

namespace Octa.PluginClient

variable {δ : Type} {s : State δ} {id : Id} {a : Action δ} {q q' : Request δ}

structure Silent (q : Request δ) (arrived : List (PluginResponse δ)) (acks : ℕ) : Prop where
  received : q.received = []
  queue : q.queue = []
  overflowed : q.overflowed = false
  arrived : arrived = []
  acks : acks = 0

def Phase.hasGivenUp : Phase δ → Bool
  | .cancelling | .sendingCancel | .failed _ | .dropped => true
  | _ => false

def Phase.isPlanning : Phase δ → Bool
  | .sendingPlan | .awaitingPlan | .planned _ => true
  | _ => false

theorem Phase.awaitsStart_of_hasGivenUp {phase : Phase δ} (h : phase.hasGivenUp = true) :
    phase.awaitsStart = false ∧ phase ≠ .executing := by
  cases phase <;> simp_all [hasGivenUp, awaitsStart]

theorem Phase.not_isPlanning_of_holdsExecution {phase : Phase δ}
    (h : phase.holdsExecution = true) : phase.isPlanning = false := by
  cases phase <;> simp_all [holdsExecution, isPlanning]

structure Shape (q : Request δ) (arrived : List (PluginResponse δ)) (acks : ℕ) : Prop where
  fresh : q.phase.isFresh = true → q.command = none ∧ q.started = none ∧ Silent q arrived acks
  plan : q.plan = true → q.phase.isPlanning = true
  planning : q.phase.isPlanning = true → q.command = none
  awaiting : ∀ sender, q.command = some ⟨.awaitingStart, sender⟩ →
    sender = true ∧ q.started = none ∧ Silent q arrived acks
  waiting : q.started = none → q.phase = .writing ∨ q.phase = .waiting → q.IsAwaiting
  opened : q.command = some ⟨.running, true⟩ → q.overflowed = false
  taken : q.command = some ⟨.running, false⟩ → q.phase.holdsExecution = true → q.overflowed = true
  acks_le : acks ≤ 1
  acks_running : q.IsRunning → acks = 1
  acks_started : q.started = some (.ok ()) → acks = 1
  executing : q.phase = .executing → q.started = some (.ok ())
  acknowledged : q.started = some (.ok ()) →
    q.phase.awaitsStart = true ∨ q.phase = .executing → q.command = none ∨ q.IsRunning
  abandoned : q.abandoned = true → q.phase.hasGivenUp = true

theorem Shape.command_of_plan {arrived : List (PluginResponse δ)} {acks : ℕ}
    (h : Shape q arrived acks) (hplan : q.plan = true) : q.command = none :=
  h.planning (h.plan hplan)

theorem Shape.command_of_unused {arrived : List (PluginResponse δ)} {acks : ℕ}
    (h : Shape q arrived acks) (hun : q.phase = .unused) : q.command = none := by
  apply (h.fresh _).1
  rw [hun]
  rfl

/-! ## Callers -/

section

variable (hmove : Move s id a q q')
include hmove

theorem Move.started : q'.started = q.started := by
  cases hmove <;> rfl

theorem Move.overflowed : q'.overflowed = q.overflowed := by
  cases hmove <;> rfl

theorem Move.of_fresh (hfr : q'.phase.isFresh = true) :
    q.phase.isFresh = true ∧ (q.command = none → q'.command = none) := by
  cases hmove <;> simp_all [Phase.isFresh, Request.markCancelled]

theorem Move.of_awaiting {sender : Bool}
    (hrt : q'.command = some ⟨.awaitingStart, sender⟩) :
    q.phase = .registering ∧ sender = true ∨ q.command = some ⟨.awaitingStart, sender⟩ := by
  cases hmove <;> simp_all [Request.markCancelled]

end

section Move

variable {arrived : List (PluginResponse δ)} {acks : ℕ}

theorem Silent.move (h : Silent q arrived acks) (hmove : Move s id a q q') :
    Silent q' arrived acks := by
  obtain ⟨hr, hq, ho, ha, hac⟩ := h
  cases hmove with
  | receive _ hn =>
    rw [hq] at hn
    cases hn
  | _ => exact ⟨hr, by first | exact hq | rfl, ho, ha, hac⟩

section

variable (h : Shape q arrived acks)
include h

theorem Shape.fresh_of_move (hmove : Move s id a q q')
    (hfr' : q'.phase.isFresh = true) :
    q'.command = none ∧ q'.started = none ∧ Silent q' arrived acks := by
  obtain ⟨hf, hc⟩ := hmove.of_fresh hfr'
  obtain ⟨hn, hs, hsi⟩ := h.fresh hf
  exact ⟨hc hn, hmove.started.trans hs, hsi.move hmove⟩

theorem Shape.plan_of_move (hmove : Move s id a q q')
    (hplan' : q'.plan = true) : q'.phase.isPlanning = true := by
  have hp := h.plan
  cases hmove with
  | dropped hh => simp_all [Phase.not_isPlanning_of_holdsExecution hh]
  | _ => simp_all [Phase.isPlanning, Request.markCancelled]

theorem Shape.planning_of_move (hmove : Move s id a q q')
    (hpl' : q'.phase.isPlanning = true) : q'.command = none := by
  have hf := h.fresh
  have hp := h.planning
  cases hmove <;> simp_all [Phase.isFresh, Phase.isPlanning, Request.markCancelled]

theorem Shape.awaiting_of_move (hmove : Move s id a q q')
    (sender : Bool) (hroute : q'.command = some ⟨.awaitingStart, sender⟩) :
    sender = true ∧ q'.started = none ∧ Silent q' arrived acks := by
  obtain ⟨hp, hs⟩ | hroute := hmove.of_awaiting hroute
  · obtain ⟨-, hsd, hsi⟩ := h.fresh (by rw [hp]; rfl)
    exact ⟨hs, hmove.started.trans hsd, hsi.move hmove⟩
  · obtain ⟨hs, hsd, hsi⟩ := h.awaiting sender hroute
    exact ⟨hs, hmove.started.trans hsd, hsi.move hmove⟩

theorem Shape.waiting_of_move (hmove : Move s id a q q')
    (hsd : q'.started = none) (hph : q'.phase = .writing ∨ q'.phase = .waiting) :
    q'.IsAwaiting := by
  have hw := h.waiting
  cases hmove with
  | abandon hab =>
    obtain ⟨ha, -⟩ := Phase.awaitsStart_of_hasGivenUp (h.abandoned hab)
    change q.phase = .writing ∨ q.phase = .waiting at hph
    obtain hph | hph := hph
    · rw [hph] at ha
      cases ha
    · rw [hph] at ha
      cases ha
  | _ => simp_all [Request.markCancelled, Request.IsAwaiting]

theorem Shape.taken_of_move (hmove : Move s id a q q')
    (hrt : q'.command = some ⟨.running, false⟩) (hho : q'.phase.holdsExecution = true) :
    q'.overflowed = true := by
  have hf := h.fresh
  have ht := h.taken
  cases hmove <;> simp_all [Phase.holdsExecution, Phase.isFresh, Request.markCancelled]

theorem Shape.acknowledged_of_move (hmove : Move s id a q q')
    (hsd : q'.started = some (.ok ())) (hph : q'.phase.awaitsStart = true ∨ q'.phase = .executing) :
    q'.command = none ∨ q'.IsRunning := by
  have hac := h.acknowledged
  have hf := h.fresh
  cases hmove with
  | abandon ha =>
    obtain ⟨haw, he⟩ := Phase.awaitsStart_of_hasGivenUp (h.abandoned ha)
    change q.phase.awaitsStart = true ∨ q.phase = .executing at hph
    obtain hph | hph := hph
    · rw [haw] at hph
      cases hph
    · exact absurd hph he
  | _ => simp_all [Phase.awaitsStart, Phase.isFresh, Request.markCancelled, Request.IsRunning]

theorem Shape.move (hmove : Move s id a q q') : Shape q' arrived acks where
  fresh := h.fresh_of_move hmove
  plan := h.plan_of_move hmove
  planning := h.planning_of_move hmove
  awaiting := h.awaiting_of_move hmove
  waiting := h.waiting_of_move hmove
  opened := by
    have ho := h.opened
    rw [hmove.overflowed]
    cases hmove <;> simp_all [Request.markCancelled]
  taken := h.taken_of_move hmove
  acks_le := h.acks_le
  acks_running := by
    have hr := h.acks_running
    cases hmove <;> simp_all [Request.markCancelled, Request.IsRunning]
  acks_started := by
    rw [hmove.started]
    exact h.acks_started
  executing := by
    have he := h.executing
    rw [hmove.started]
    cases hmove <;> simp_all [Request.markCancelled]
  acknowledged := h.acknowledged_of_move hmove
  abandoned := by
    have hf := h.fresh
    have ha := h.abandoned
    cases hmove <;> simp_all [Phase.hasGivenUp, Request.markCancelled]

end

end Move

/-! ## Responses -/

/-- The arrived responses of a request after a response that names it. -/
def logged (q : Request δ) (r : PluginResponse δ) (arrived : List (PluginResponse δ)) :
    List (PluginResponse δ) :=
  if r.isReplaceable = false ∧ q.IsRunning then arrived ++ [r] else arrived

/-- The consumed acknowledgements of a request after a response that names it. -/
def counted (q : Request δ) (r : PluginResponse δ) (acks : ℕ) : ℕ :=
  if r.isStarted = true ∧ q.IsAwaiting then acks + 1 else acks

theorem logged_of_not_running {r : PluginResponse δ} {arrived : List (PluginResponse δ)}
    (h : r.isReplaceable = true ∨ ¬q.IsRunning) : logged q r arrived = arrived := by
  apply if_neg
  rintro ⟨hre, hr⟩
  obtain h | h := h
  · rw [h] at hre
    cases hre
  · exact h hr

theorem counted_of_not_awaiting {r : PluginResponse δ} {acks : ℕ}
    (h : r.isStarted = false ∨ ¬q.IsAwaiting) : counted q r acks = acks := by
  apply if_neg
  rintro ⟨hs, ha⟩
  obtain h | h := h
  · rw [h] at hs
    cases hs
  · exact h ha

theorem not_running_of_awaiting (h : q.IsAwaiting) : ¬q.IsRunning := by
  rintro ⟨_, hr⟩
  obtain ⟨_, ha⟩ := h
  rw [ha] at hr
  cases hr

theorem not_running_of_none (h : q.command = none) : ¬q.IsRunning := by
  rintro ⟨_, hr⟩
  rw [h] at hr
  cases hr

theorem not_awaiting_of_none (h : q.command = none) : ¬q.IsAwaiting := by
  rintro ⟨_, ha⟩
  rw [h] at ha
  cases ha

theorem Shape.congr {arrived : List (PluginResponse δ)} {acks : ℕ} (h : Shape q arrived acks)
    (hph : q'.phase = q.phase) (hcmd : q'.command = q.command) (hsd : q'.started = q.started)
    (hplan : q'.plan = true → q.plan = true) (hrecv : q'.received = q.received)
    (hqu : q'.queue = q.queue) (hover : q'.overflowed = q.overflowed)
    (hab : q'.abandoned = q.abandoned) : Shape q' arrived acks := by
  have hsi : Silent q arrived acks → Silent q' arrived acks := fun hs =>
    ⟨hrecv.trans hs.received, hqu.trans hs.queue, hover.trans hs.overflowed, hs.arrived, hs.acks⟩
  have ha : q.IsAwaiting → q'.IsAwaiting := fun ⟨sender, hs⟩ =>
    ⟨sender, hcmd.trans hs⟩
  have hr : q'.IsRunning ↔ q.IsRunning := by
    unfold Request.IsRunning
    rw [hcmd]
  constructor
  · intro hf
    rw [hph] at hf
    obtain ⟨hn, hst, hs⟩ := h.fresh hf
    exact ⟨hcmd.trans hn, hsd.trans hst, hsi hs⟩
  · intro hp
    rw [hph]
    exact h.plan (hplan hp)
  · rw [hph, hcmd]
    exact h.planning
  · intro sender hse
    rw [hcmd] at hse
    obtain ⟨hs, hst, hsl⟩ := h.awaiting sender hse
    exact ⟨hs, hsd.trans hst, hsi hsl⟩
  · rw [hph, hsd]
    exact fun h₁ h₂ => ha (h.waiting h₁ h₂)
  · rw [hcmd, hover]
    exact h.opened
  · rw [hcmd, hph, hover]
    exact h.taken
  · exact h.acks_le
  · rw [hr]
    exact h.acks_running
  · rw [hsd]
    exact h.acks_started
  · rw [hph, hsd]
    exact h.executing
  · rw [hph, hsd, hcmd, hr]
    exact h.acknowledged
  · rw [hab, hph]
    exact h.abandoned

/-- What `finish` and `terminate` have in common. -/
structure Removal (q q' : Request δ) : Prop where
  command : q'.command = none
  phase : q'.phase = q.phase
  plan : q'.plan = q.plan
  abandoned : q'.abandoned = q.abandoned
  received : q'.received = q.received
  started : q'.started = q.started ∨
    q.phase.awaitsStart = true ∧ ∃ error, q'.started = some (.error error)
  notified : q.IsAwaiting → q.phase.awaitsStart = true → q'.started ≠ none

theorem removal_finish {r : PluginResponse δ} {route : CommandRoute}
    (hrt : q.command = some route) : Removal q (q.finish id r route) := by
  obtain ⟨state, sender⟩ := route
  unfold Request.finish Request.notifyStart Request.pushLast
  cases state with
  | awaitingStart =>
    dsimp only
    constructor <;> split <;> simp_all
  | running =>
    cases sender with
    | false => constructor <;> simp_all [Request.IsAwaiting]
    | true =>
      dsimp only
      constructor <;> split <;> simp_all [Request.IsAwaiting]
  | cancelled => constructor <;> simp_all [Request.IsAwaiting]

theorem removal_terminate {error : PluginClientError} {last : Option (PluginResponse δ)}
    {route : CommandRoute} (hrt : q.command = some route) : Removal q (q.terminate error last) := by
  obtain ⟨state, sender⟩ := route
  unfold Request.terminate Request.notifyStart
  simp only [hrt]
  cases state with
  | awaitingStart =>
    dsimp only
    constructor <;> split <;> simp_all
  | running =>
    cases sender with
    | false => constructor <;> simp_all [Request.IsAwaiting]
    | true =>
      cases last with
      | none => constructor <;> simp_all [Request.IsAwaiting]
      | some r =>
        dsimp only
        constructor <;> split <;> simp_all [Request.IsAwaiting]
  | cancelled => constructor <;> simp_all [Request.IsAwaiting]

theorem Shape.removal {arrived arrived' : List (PluginResponse δ)} {acks : ℕ}
    {route : CommandRoute} (h : Shape q arrived acks) (hrt : q.command = some route)
    (hrem : Removal q q') : Shape q' arrived' acks := by
  have ho : q'.started = some (.ok ()) → q.started = some (.ok ()) := by
    intro hs
    obtain h' | ⟨-, error, h'⟩ := hrem.started
    · exact h'.symm.trans hs
    · rw [h'] at hs
      cases hs
  constructor
  · intro hf
    rw [hrem.phase] at hf
    rw [(h.fresh hf).1] at hrt
    cases hrt
  · rw [hrem.plan, hrem.phase]
    exact h.plan
  · exact fun _ => hrem.command
  · intro sender hse
    rw [hrem.command] at hse
    cases hse
  · intro hn hw
    rw [hrem.phase] at hw
    have ha : q.phase.awaitsStart = true := by
      obtain h' | h' := hw <;> rw [h'] <;> rfl
    have hb : q.started = none := by
      obtain h' | ⟨-, error, h'⟩ := hrem.started
      · exact h'.symm.trans hn
      · rw [h'] at hn
        cases hn
    exact absurd hn (hrem.notified (h.waiting hb hw) ha)
  · intro hso
    rw [hrem.command] at hso
    cases hso
  · intro hso
    rw [hrem.command] at hso
    cases hso
  · exact h.acks_le
  · intro hr
    exact absurd hr (not_running_of_none hrem.command)
  · exact fun hs => h.acks_started (ho hs)
  · intro he
    rw [hrem.phase] at he
    have hst := h.executing he
    obtain h' | ⟨ha, -⟩ := hrem.started
    · exact h'.trans hst
    · rw [he] at ha
      cases ha
  · exact fun _ _ => .inl hrem.command
  · rw [hrem.abandoned, hrem.phase]
    exact h.abandoned

theorem Shape.terminate {arrived : List (PluginResponse δ)} {acks : ℕ} {error : PluginClientError}
    {last : Option (PluginResponse δ)} (h : Shape q arrived acks) :
    Shape (q.terminate error last) arrived acks := by
  cases hr : q.command with
  | none =>
    simp only [Request.terminate, hr]
    exact h
  | some route => exact h.removal hr (removal_terminate hr)

theorem Shape.running {arrived arrived' : List (PluginResponse δ)} {acks : ℕ} {route : CommandRoute}
    {sender : Bool} (h : Shape q arrived acks) (hrt : q.command = some route)
    (hcmd : q'.command = some ⟨.running, sender⟩) (hph : q'.phase = q.phase)
    (hplan : q'.plan = q.plan) (hop : sender = true → q'.overflowed = false)
    (hta : sender = false → q.phase.holdsExecution = true → q'.overflowed = true)
    (hwt : q.phase = .writing ∨ q.phase = .waiting → q'.started ≠ none)
    (hex : q.phase = .executing → q'.started = some (.ok ()))
    (hab : q'.abandoned = true → q.phase.hasGivenUp = true) : Shape q' arrived' 1 := by
  constructor
  · intro hf
    rw [hph] at hf
    rw [(h.fresh hf).1] at hrt
    cases hrt
  · rw [hplan, hph]
    exact h.plan
  · intro hp
    rw [hph] at hp
    rw [h.planning hp] at hrt
    cases hrt
  · intro sender' hse
    rw [hcmd] at hse
    cases hse
  · intro hn hw
    rw [hph] at hw
    exact absurd hn (hwt hw)
  · intro hs
    rw [hcmd] at hs
    cases hs
    exact hop rfl
  · intro hs he
    rw [hcmd] at hs
    cases hs
    rw [hph] at he
    exact hta rfl he
  · exact Nat.le_refl 1
  · exact fun _ => rfl
  · exact fun _ => rfl
  · rw [hph]
    exact hex
  · exact fun _ _ => .inr ⟨sender, hcmd⟩
  · rw [hph]
    exact hab

theorem Shape.push {arrived arrived' : List (PluginResponse δ)} {acks : ℕ} {r : PluginResponse δ}
    (h : Shape q arrived acks) (hrun : q.IsRunning) : Shape (q.push r) arrived' acks := by
  obtain ⟨sender, hc⟩ := hrun
  have hw : q.phase = .writing ∨ q.phase = .waiting → q.started ≠ none := by
    intro hwt hn
    exact not_running_of_awaiting (h.waiting hn hwt) ⟨sender, hc⟩
  obtain rfl := h.acks_running ⟨sender, hc⟩
  unfold Request.push
  simp only [hc]
  cases sender with
  | false =>
    exact h.running hc hc rfl rfl (fun h => by cases h) (fun _ => h.taken hc)
      hw h.executing h.abandoned
  | true =>
    dsimp only
    split
    · rename_i hg
      refine h.running hc rfl rfl rfl (fun h => by cases h) ?_ hw h.executing h.abandoned
      intro _ he
      rw [he] at hg
      cases hg
    split
    · refine @Shape.running _ _ _ _ _ _ _ true h hc rfl rfl rfl
        (fun _ => h.opened hc) ?_ hw h.executing h.abandoned
      intro hf
      cases hf
    · exact h.running hc rfl rfl rfl (fun h => by cases h) (fun _ _ => rfl) hw
        h.executing h.abandoned

theorem Shape.hasGivenUp {arrived : List (PluginResponse δ)} {acks : ℕ} {sender : Bool}
    (h : Shape q arrived acks) (hcmd : q.command = some ⟨.awaitingStart, sender⟩)
    (haw : q.phase.awaitsStart = false) : q.phase.hasGivenUp = true := by
  have hf : q.phase.isFresh ≠ true := by
    intro hf
    rw [(h.fresh hf).1] at hcmd
    cases hcmd
  have hp : q.phase.isPlanning ≠ true := by
    intro hp
    rw [h.planning hp] at hcmd
    cases hcmd
  have he : q.phase ≠ .executing := by
    intro he
    have hn := (h.awaiting sender hcmd).2.1
    rw [h.executing he] at hn
    cases hn
  cases hph : q.phase <;>
    simp_all [Phase.hasGivenUp, Phase.awaitsStart, Phase.isFresh, Phase.isPlanning]

theorem Shape.answer {arrived : List (PluginResponse δ)} {acks : ℕ} {r : PluginResponse δ}
    (h : Shape q arrived acks) (han : Answer id r q q') :
    Shape q' (logged q r arrived) (counted q r acks) := by
  cases han with
  | plan result hpl =>
    have hn := h.command_of_plan hpl
    rw [logged_of_not_running (.inr (not_running_of_none hn)),
      counted_of_not_awaiting (.inr (not_awaiting_of_none hn))]
    exact h.congr rfl rfl rfl (fun h => by cases h) rfl rfl rfl rfl
  | @acknowledged sender hr hc ha =>
    have haw : q.IsAwaiting := ⟨sender, hc⟩
    obtain ⟨rfl, hn, hs⟩ := h.awaiting sender hc
    rw [logged_of_not_running (.inr (not_running_of_awaiting haw)), counted, hr,
      if_pos ⟨rfl, haw⟩, hs.acks]
    refine h.running hc rfl rfl rfl (fun _ => hs.overflowed) (fun h => by cases h)
      (fun _ h => by cases h) (fun _ => rfl) h.abandoned
  | @abandoned sender hr hc ha =>
    have haw : q.IsAwaiting := ⟨sender, hc⟩
    obtain ⟨rfl, hn, hs⟩ := h.awaiting sender hc
    rw [logged_of_not_running (.inr (not_running_of_awaiting haw)), counted, hr,
      if_pos ⟨rfl, haw⟩, hs.acks]
    refine h.running hc rfl rfl rfl (fun _ => hs.overflowed) (fun h => by cases h)
      ?_ h.executing (fun _ => h.hasGivenUp hc ha)
    rintro (hp | hp) <;> · rw [hp] at ha; cases ha
  | progress progress hre _ =>
    have hsd : r.isStarted = false := by
      cases r <;> first | rfl | cases hre
    rw [logged_of_not_running (.inl hre), counted_of_not_awaiting (.inl hsd)]
    exact h.congr rfl rfl rfl (fun h => h) rfl rfl rfl rfl
  | output hre ht hru hsd =>
    rw [counted_of_not_awaiting (.inl hsd)]
    exact h.push hru
  | finished ht hrt =>
    have hsd : r.isStarted = false := by
      cases r <;> first | rfl | cases ht
    rw [counted_of_not_awaiting (.inl hsd)]
    exact h.removal hrt (removal_finish hrt)
  | ignored hru haw =>
    rw [logged_of_not_running (.inr hru), counted_of_not_awaiting (.inr haw)]
    exact h

theorem Shape.relog {arrived arrived' : List (PluginResponse δ)} {acks : ℕ}
    (h : Shape q arrived acks) (hrun : q.IsRunning) : Shape q arrived' acks := by
  obtain ⟨sender, hc⟩ := hrun
  obtain rfl := h.acks_running ⟨sender, hc⟩
  refine h.running hc hc rfl rfl ?_ ?_ ?_ h.executing h.abandoned
  · rintro rfl
    exact h.opened hc
  · rintro rfl
    exact h.taken hc
  · intro hw hn
    exact not_running_of_awaiting (h.waiting hn hw) ⟨sender, hc⟩

theorem Shape.closePlan {arrived : List (PluginResponse δ)} {acks : ℕ} {error : PluginClientError}
    (h : Shape q arrived acks) : Shape (q.closePlan error) arrived acks := by
  unfold Request.closePlan
  split
  · exact h.congr rfl rfl rfl (fun h => by cases h) rfl rfl rfl rfl
  · exact h

theorem Rejected.counted_eq {r : PluginResponse δ} {acks : ℕ} (h : Rejected id q r) :
    counted q r acks = acks := by
  apply counted_of_not_awaiting
  cases h with
  | plan | planUnavailable => exact .inl rfl
  | started hc =>
    refine .inr ?_
    intro ha
    obtain hn | hrun := hc
    · exact not_awaiting_of_none hn ha
    · exact not_running_of_awaiting ha hrun
  | early _ _ hs => exact .inl hs

end Octa.PluginClient
