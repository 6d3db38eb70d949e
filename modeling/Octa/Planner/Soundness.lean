import Octa.Planner.Lowering

/-!
# Every plan is a plan of layouts

The body of a task, its deferred commands and the closing stages, and with them
the whole of an invocation.
-/

namespace Octa.Planner

open Octa.Dag List Build
open NodeFlow hiding optional

/-! ## Series of stages -/

/-- The stages `fs` were added one after the other and end in `Q`. -/
structure Stages (s s' : GraphState) (P Q : List NodeId) (fs : List (NodeFlow Node)) : Prop where
  lowers : Lowers s s' P (.series fs) (series fs).atoms
  exits : Q = (series fs).exits Node.id P

namespace Stages

variable {s s₁ s' : GraphState} {P Q R : List NodeId} {f g : NodeFlow Node}
  {fs : List (NodeFlow Node)}

theorem nil (s : GraphState) (P : List NodeId) : Stages s s P P [] := ⟨.refl s P, rfl⟩

section

variable (h : Stages s s₁ P Q fs)
include h

theorem two (h' : Lowers s₁ s' Q (.seq f g) (f.atoms ++ g.atoms))
    (hR : R = g.exits Node.id (f.exits Node.id Q)) : Stages s s' P R (fs ++ [f, g]) where
  lowers := by
    have ha : (series (fs ++ [f, g])).atoms = (series fs).atoms ++ (f.atoms ++ g.atoms) := by
      simp [atoms_series]
    rw [ha]
    apply h.lowers.trans h'
    intro a b
    rw [edge_series_append, ← h.exits]
    simp [series, NodeFlow.Edge]
  exits := by
    rw [exits_series_append, ← h.exits, hR]
    rfl

theorem snoc (h' : Lowers s₁ s' Q g g.atoms)
    (hR : R = g.exits Node.id Q) : Stages s s' P R (fs ++ [g]) where
  lowers := by
    have ha : (series (fs ++ [g])).atoms = (series fs).atoms ++ g.atoms := by
      simp [atoms_series]
    rw [ha]
    rw [h.exits] at h'
    exact h.lowers.snoc h'
  exits := by
    rw [exits_series_append, ← h.exits, hR]
    rfl

theorem node {place : List Stage} {node : Option Node}
    (h' : TaskGraphBuilder.AddsNode s₁ s' Q R place node) :
    Stages s s' P R (fs ++ [.optional node]) :=
  h.snoc (by rw [atoms_optional]; exact h'.lowers) h'.exits

theorem append {gs : List (NodeFlow Node)} (h' : Stages s₁ s' Q R gs) :
    Stages s s' P R (fs ++ gs) where
  lowers := by
    have ha : (series (fs ++ gs)).atoms = (series fs).atoms ++ (series gs).atoms := by
      simp [atoms_series]
    rw [ha]
    apply h.lowers.trans h'.lowers
    intro a b
    rw [edge_series_append, ← h.exits]
  exits := by
    rw [exits_series_append, ← h.exits]
    exact h'.exits

end

end Stages

namespace TaskGraphBuilder

variable {ο : Type} {planner : TaskGraphBuilder ο} {build : Expand ο} {s s' : GraphState}
variable {index : ℕ} {ctx : InvocationContext} {base : List Stage} {depName name : String}
  {parents : List NodeId} {parallel runParallel : Bool} {calling : Prop} {s₀ : GraphState}
  {commands : List (ℕ × CommandLayout)} {deferred : List (ℕ × Node)} {terminal : Option NodeId}
  {nodes : List Node}

/-! ## Preparation -/

theorem prepareInvocation_ok (hbu : Sound build) {command : FindResult ο}
    {request : InvocationRequest} {prep : PreparedInvocation}
    (h : planner.prepareInvocation build command request s = .ok (prep, s')) :
    ∃ stages : Prefix, stages.Fits request.context.place ∧
      (∀ dep ∈ stages.deps, Expansion (request.context.place ++ [dep.1]) dep.2.1 dep.2.2) ∧
      SameInvocation request.context prep.context ∧
      Stages s s' request.entryParents prep.parents (stages.parts.map Prod.snd) := by
  obtain ⟨⟨ctx₁, parent₁⟩, s₁, hc, h₁⟩ := bind_ok h
  obtain ⟨⟨ctx₂, parent₂⟩, s₂, hb, h₂⟩ := bind_ok h₁
  obtain ⟨deps, s₃, hde, h₃⟩ := bind_ok h₂
  obtain ⟨⟨ctx₄, parent₄⟩, s₄, ha, h₄⟩ := bind_ok h₃
  obtain ⟨rfl, rfl⟩ := pure_ok h₄
  obtain ⟨commandGate, hc₁, hn₁, hs₁⟩ := addOptionalGate_ok hc
  obtain ⟨beforeGate, hc₂, hn₂, hs₂⟩ := addOptionalGate_ok hb
  obtain ⟨entries, grp, he, hg, hl, hex⟩ := processDependencies_ok hbu hde
  obtain ⟨afterGate, hc₄, hn₄, hs₄⟩ := addAfterDependencies_ok ha
  rw [gateOrParents_or] at hn₄
  have hp₁ := hs₁.place
  have hp₂ := hs₂.place.trans hp₁
  rw [hp₂] at he
  refine ⟨⟨commandGate, beforeGate, entries, grp, afterGate⟩, ?_,
    fun dep hd => (he dep hd).2.1, (hs₁.trans hs₂).trans hs₄, ?_⟩
  · refine ⟨hn₁.place, ?_, ?_, ?_, ?_, ?_⟩
    · rw [← hp₁]
      exact hn₂.place
    · exact fun dep hd => ⟨(he dep hd).1, (he dep hd).2.2⟩
    · rw [← hp₂]
      exact fun n hn => (hg n hn).1
    · rw [← hp₂]
      exact hn₄.place
    · intro n hn
      simp only [Prefix.control, mem_append, Option.mem_toList] at hn
      rcases hn with ((hn | hn) | hn) | hn
      · exact hc₁ n hn
      · exact hc₂ n hn
      · rw [(hg n hn).2]
        rfl
      · exact hc₄ n hn
  · have hga := ((Stages.nil s request.entryParents).node hn₁).node hn₂
    exact (hga.two (by rwa [atoms_optional]) hex).node hn₄

/-! ## The body -/

variable {item : TaskCommand}

variable {entries terminals predecessors : List NodeId}

theorem buildReferenced_ok (hbu : Sound build) {referenced : FindResult ο × ℕ} {x x' : Unit}
    (h : buildReferenced build item index ctx entries referenced x s =
      .ok ((terminals, x'), s')) : ∃ fs : List (NodeFlow Node),
      (∀ f ∈ fs, ∃ ord, Branch ctx.place (.command index ord) ctx.depName f) ∧
      Lowers s s' entries (.fan fs) (fan fs).atoms ∧
      terminals = fanExits Node.id entries fs := by
  obtain ⟨terminal, s₁, hi, hp⟩ := bind_ok h
  obtain ⟨hr, rfl⟩ := pure_ok hp
  cases hr
  obtain ⟨f, hb, hl, he⟩ := (hbu _ _ _ _ _ _ hi).branch rfl
  refine ⟨[f], ?_, hl, he⟩
  intro g hg
  rw [mem_singleton.mp hg]
  exact ⟨referenced.2, hb⟩

/-- A command that is not deferred: a node or task calls, unless the selector
of the call has no match on this platform. -/
theorem buildPayload_ok (hbu : Sound build) {command : FindResult ο}
    (h : planner.buildPayload build command item index ctx entries s = .ok (terminals, s')) :
    (∃ node : Node, (CommandLayout.plugin node).Fits ctx.place ctx.depName index ∧
      Lowers s s' entries (.atom node) [node] ∧ terminals = [node.id]) ∨
    ∃ called : List (ℕ × NodeFlow Node), item.payload.isTask = true ∧
      (∀ call ∈ called, Branch ctx.place (.command index call.1) ctx.depName call.2) ∧
      Lowers s s' entries (.fan (called.map Prod.snd)) (fan (called.map Prod.snd)).atoms ∧
      terminals = fanExits Node.id entries (called.map Prod.snd) := by
  unfold buildPayload at h
  cases hp : item.payload with
  | plugin key val =>
    rw [hp] at h
    obtain ⟨id, s₁, ha, hco, rfl⟩ := node_ok h
    obtain ⟨node, hc, rfl, hpl, hl⟩ := lowers_node ha hco
    refine .inl ⟨node, ⟨hpl, ?_, ?_⟩, hl, rfl⟩
    · rw [hc]
    · rw [hc]
      exact ⟨_, rfl⟩
  | task name =>
    rw [hp] at h
    obtain ⟨referenced, s₁, hr, h₁⟩ := bind_ok h
    obtain ⟨⟨terms', ⟨⟩⟩, s₂, hbr, h₂⟩ := bind_ok h₁
    obtain ⟨rfl, rfl⟩ := pure_ok h₂
    obtain ⟨found, s₃, hf, hpu⟩ := bind_ok hr
    obtain ⟨-, rfl⟩ := findAndFilterCommands_ok hf
    obtain ⟨-, rfl⟩ := pure_ok hpu
    obtain ⟨fs, hfs, hl, rfl⟩ : ∃ fs : List (NodeFlow Node), (∀ f ∈ fs, ∃ ord,
            Branch ctx.place (.command index ord) ctx.depName f) ∧
          Lowers _ _ entries (.fan fs) (fan fs).atoms ∧
          terminals = fanExits Node.id entries fs := by
      apply branches_ok _ hbr
      intro referenced _ x x' s s' terminals hb
      exact buildReferenced_ok hbu hb
    obtain ⟨called, rfl, hca⟩ := exists_labels hfs
    exact .inr ⟨called, rfl, hca, hl, rfl⟩

def CommandExpands (base : List Stage) (depName : String) (index : ℕ)
    (command : CommandLayout) : Prop :=
  command.Fits base depName index ∧
    ∀ call ∈ command.called, Expansion (base ++ [.command index call.1]) depName call.2

/-- What holds at the head of the loop over the commands, when the commands
before `index` have been added; task calls are among them only if `calling`. -/
structure BodyState (base : List Stage) (depName : String) (parents : List NodeId)
    (parallel : Bool) (calling : Prop) (s₀ s : GraphState) (body : Body) (index : ℕ)
    (commands : List (ℕ × CommandLayout)) (deferred : List (ℕ × Node)) : Prop where
  lowers : Lowers s₀ s parents (bodyFlow parallel commands)
    ((bodyFlow parallel commands).atoms ++ deferred.map Prod.snd)
  /-- the next sequential command starts where the body ends -/
  entries : parallel = false →
    gateOrParents body.sequentialParent parents =
      (bodyFlow parallel commands).exits Node.id parents
  terminals : parallel = true →
    body.parallelTerminals =
      fanExits Node.id parents (commands.map fun command => command.2.flow)
  nodes : body.deferredNodes = deferred.map fun entry => entry.2.id
  fits : ∀ command ∈ commands, CommandExpands base depName command.1 command.2
  called : ∀ command ∈ commands, command.2.called ≠ [] → calling
  ordered : commands.Pairwise fun c c' => c.1 < c'.1
  below : ∀ command ∈ commands, command.1 < index
  barriers : ∀ entry ∈ deferred, entry.2.id.place = base ++ [.deferred entry.1] ∧
    entry.2.action = .barrier
  deferred_ordered : deferred.Pairwise fun d d' => d.1 < d'.1
  deferred_below : ∀ entry ∈ deferred, entry.1 < index

theorem BodyState.initial (base : List Stage) (depName : String) (parents : List NodeId)
    (parallel : Bool) (calling : Prop) (s : GraphState) :
    BodyState base depName parents parallel calling s s {} 0 [] [] where
  lowers := by
    have hs : bodyFlow parallel [] = .skip := by cases parallel <;> rfl
    rw [hs]
    exact .refl s parents
  entries := by
    rintro rfl
    rfl
  terminals _ := rfl
  nodes := rfl
  fits := forall_mem_nil _
  called _ hcmd := absurd hcmd not_mem_nil
  ordered := List.Pairwise.nil
  below := forall_mem_nil _
  barriers := forall_mem_nil _
  deferred_ordered := List.Pairwise.nil
  deferred_below := forall_mem_nil _

/-- The entries of the next command of a sequential body are the exits of the
commands before it; those of a parallel body are the entries of the body. -/
theorem BodyState.entries_eq {body : Body}
    (h : BodyState base depName parents parallel calling s₀ s body index commands deferred) :
    body.entries parallel parents =
      if parallel then parents else (bodyFlow parallel commands).exits Node.id parents := by
  cases parallel with
  | true => rfl
  | false => exact h.entries rfl

section Rounds

variable {body : Body}

theorem BodyState.next (h : BodyState base depName parents parallel calling s₀ s body index commands
    deferred) :
    BodyState base depName parents parallel calling s₀ s body (index + 1) commands deferred :=
  { h with
    below := fun command hc => Nat.lt_succ_of_lt (h.below command hc)
    deferred_below := fun e he => Nat.lt_succ_of_lt (h.deferred_below e he) }

theorem pairwise_concat {α : Type} {r : α → α → Prop} {l : List α} {a : α}
    (h : l.Pairwise r) (ha : ∀ b ∈ l, r b a) : (l ++ [a]).Pairwise r :=
  pairwise_append.mpr ⟨h, pairwise_singleton r a, fun b hb c hc => by
    rw [mem_singleton.mp hc]
    exact ha b hb⟩

theorem edge_bodyFlow_concat (command : ℕ × CommandLayout) (a b : NodeId) :
    (bodyFlow parallel (commands ++ [command])).Edge Node.id parents a b ↔
      (bodyFlow parallel commands).Edge Node.id parents a b ∨ command.2.flow.Edge Node.id
          (if parallel then parents else (bodyFlow parallel commands).exits Node.id
            parents) a b := by
  cases parallel with
  | true =>
    simp only [bodyFlow, if_true, edge_fan, map_append, map_cons, map_nil,
      mem_append, mem_singleton, or_and_right, exists_or, exists_eq_left]
  | false =>
    simp only [bodyFlow, Bool.false_eq_true, if_false, map_append, map_cons,
      map_nil, edge_series_append]
    simp [series, NodeFlow.Edge]

section

variable (h : BodyState base depName parents parallel calling s₀ s body index commands deferred)
include h

theorem BodyState.command {layout : CommandLayout}
    (hfits : CommandExpands base depName index layout)
    (hca : layout.called ≠ [] → calling)
    (hlow : Lowers s s' (body.entries parallel parents) layout.flow layout.flow.atoms)
    (hterm : terminal.toList = layout.flow.exits Node.id (body.entries parallel parents)) :
    BodyState base depName parents parallel calling s₀ s' (body.complete parallel terminal)
        (index + 1)
      (commands ++ [(index, layout)]) deferred where
  lowers := by
    rw [h.entries_eq] at hlow
    have hbo := h.lowers.trans hlow (edge_bodyFlow_concat (index, layout))
    apply hbo.perm
    rw [atoms_bodyFlow, atoms_bodyFlow, flatMap_append, flatMap_singleton,
      append_assoc, append_assoc]
    exact perm_append_comm.append_left _
  entries hseq := by
    subst hseq
    have he := h.entries rfl
    have hs : (bodyFlow false (commands ++ [(index, layout)])).exits Node.id parents =
        terminal.toList := by
      rw [hterm, h.entries_eq]
      simp only [bodyFlow, Bool.false_eq_true, if_false, map_append, map_cons,
        map_nil, exits_series_append]
      rfl
    rw [hs]
    cases terminal with
    | some terminal => rfl
    | none =>
      -- nothing to continue from: there were no entries
      exact entries_eq_nil_of_exits hterm.symm
  terminals hparallel := by
    subst hparallel
    have hb := h.terminals rfl
    rw [Body.complete, if_pos rfl, hb, hterm, map_append, fanExits, fanExits, flatMap_append]
    simp [Body.entries]
  nodes := by
    rw [← h.nodes, Body.complete]
    split <;> rfl
  fits := forall_mem_append.mpr ⟨h.fits, forall_mem_singleton.mpr hfits⟩
  called := forall_mem_append.mpr ⟨h.called, forall_mem_singleton.mpr hca⟩
  ordered := pairwise_concat h.ordered h.below
  below := forall_mem_append.mpr ⟨h.next.below, forall_mem_singleton.mpr index.lt_succ_self⟩
  barriers := h.barriers
  deferred_ordered := h.deferred_ordered
  deferred_below := h.next.deferred_below

theorem BodyState.empty (hlow : Lowers s s' (body.entries parallel parents) .skip []) :
    BodyState base depName parents parallel calling s₀ s' (body.complete parallel none) (index + 1)
      commands deferred where
  lowers := by
    have hb := h.lowers.trans (k := bodyFlow parallel commands)
      (hlow.skip_entries parents) fun a b => by simp [NodeFlow.Edge]
    rwa [append_nil] at hb
  entries hseq := by
    subst hseq
    exact h.entries rfl
  terminals hparallel := by
    subst hparallel
    rw [Body.complete, if_pos rfl]
    exact (append_nil _).trans (h.terminals rfl)
  nodes := by
    rw [← h.nodes, Body.complete]
    split <;> rfl
  fits := h.fits
  called := h.called
  ordered := h.ordered
  below := h.next.below
  barriers := h.barriers
  deferred_ordered := h.deferred_ordered
  deferred_below := h.next.deferred_below

theorem BodyState.defer {node : Node} (hpl : node.id.place = base ++ [.deferred index])
    (hact : node.action = .barrier) (hlow : ∀ P, Lowers s s' P .skip [node]) :
    BodyState base depName parents parallel calling s₀ s'
      { body with deferredNodes := body.deferredNodes ++ [node.id] } (index + 1) commands
      (deferred ++ [(index, node)]) where
  lowers := by
    have hb := h.lowers.trans (k := bodyFlow parallel commands) (hlow parents) fun a b => by
      simp [NodeFlow.Edge]
    rw [map_append]
    rwa [append_assoc] at hb
  entries := h.entries
  terminals := h.terminals
  nodes := by
    rw [map_append, ← h.nodes]
    rfl
  fits := h.fits
  called := h.called
  ordered := h.ordered
  below := h.next.below
  barriers := forall_mem_append.mpr ⟨h.barriers, forall_mem_singleton.mpr ⟨hpl, hact⟩⟩
  deferred_ordered := pairwise_concat h.deferred_ordered h.deferred_below
  deferred_below := forall_mem_append.mpr ⟨h.next.deferred_below, forall_mem_singleton.mpr
    index.lt_succ_self⟩

end

end Rounds

/-! ## Deferred commands -/

variable {next : ℕ}

variable {reqs : List (NodeFlow Node)}

section

variable (hlow : Lowers (.empty next) s [] (.fan reqs) (fan reqs).atoms)
include hlow

theorem planned_of_lowers
    (hreqs : ∀ f ∈ reqs, Requested f ∨ Skipped s.dag f) : Planned s.plan := by
  obtain ⟨entries, hes, hk⟩ := hlow.deferred
  have hd : s.deferred = entries := hes
  have hn : s.dag.nodes.Perm (fan reqs).atoms := hlow.nodes
  refine Planned.mk reqs ⟨hn, fun a b => ?_⟩ hreqs ?_ ?_
  · rw [hlow.edges]
    exact or_iff_right DAG.not_edge_new
  · intro e he
    rw [hd] at he
    exact (hn.map Node.id).mem_iff.mpr (hk e he).1
  intro e he
  rw [hd] at he
  exact (hk e he).2

theorem skipEmpty_ok {place : List Stage}
    (hreqs : ∀ f ∈ reqs, Requested f) (h : skipEmpty place name s = .ok ((), s')) :
    Planned s'.plan := by
  obtain ⟨s₁, s₂, hg, h₁⟩ := bind_ok h
  cases hg
  split at h₁
  · next hempty =>
    obtain ⟨id, s₃, ha, h₂⟩ := bind_ok h₁
    obtain ⟨-, rfl⟩ := pure_ok h₂
    obtain ⟨node, hc, -, -, hn⟩ := addNode_ok ha
    have halone : s'.dag.nodes.Perm ([] ++ [node]) :=
      length_eq_zero_iff.mp hempty ▸ (hn []).nodes
    have hb : Lowers s s' [] (.fan [.atom node]) [node] :=
      (hn []).trans (.refl _ []) fun a b => by simp [fan, NodeFlow.Edge]
    have hbo := hlow.fan hb
    refine planned_of_lowers (hbo.perm ?_) ?_
    · rw [atoms_fan, atoms_fan, flatMap_append]
      rfl
    intro f hf
    rcases mem_append.mp hf with hf | hf
    · exact .inl (hreqs f hf)
    · exact .inr ⟨node, mem_singleton.mp hf, by rw [hc], perm_singleton.mp halone⟩
  · obtain ⟨-, rfl⟩ := pure_ok h₁
    exact planned_of_lowers hlow fun f hf => .inl (hreqs f hf)

end

theorem Expanded.requested {P : List NodeId} (h : Expanded ctx parallel P terminal s s') :
    ∃ f, Requested f ∧ Lowers s s' P (.fan [f]) (fan [f]).atoms := by
  obtain ⟨layout, hf, -, hd, hc, hl, -⟩ := h
  exact ⟨layout.flow, ⟨_, _, .mk layout hf hd hc⟩, hl⟩

theorem buildDeferred_ok (hbu : Sound build) {command : FindResult ο} {deferred : TaskCommand}
    (h : buildDeferred build command deferred name ctx (.empty next) = .ok ((), s')) :
    Planned s'.plan := by
  obtain ⟨terminal, s₁, hi, hs⟩ := bind_ok h
  obtain ⟨f, hr, hl⟩ := (hbu _ _ _ _ _ _ hi).requested
  refine skipEmpty_ok hl ?_ hs
  intro g hg
  rw [mem_singleton.mp hg]
  exact hr

theorem nestedBuilder_ok {nested : Build Unit} {plan : Plan}
    (h : nestedBuilder nested s = .ok (plan, s')) :
    ∃ s₁, nested (.empty s.next) = .ok ((), s₁) ∧ plan = s₁.plan ∧ s' = s.advance s₁.next := by
  unfold nestedBuilder at h
  split at h
  · next s₁ hn =>
    cases h
    exact ⟨s₁, hn, rfl, rfl⟩
  · cases h

theorem registerDeferred_ok {node : NodeId} {act : DeferredAction} {plan : Plan}
    (h : registerDeferred node act plan s = .ok ((), s')) :
    s'.dag = s.dag ∧ ∃ e : NodeId × DeferredAction × Plan, e.1 = node ∧
      e.2.2 = plan ∧ s'.deferred = s.deferred ++ [e] := by
  cases h
  exact ⟨rfl, _, rfl, rfl, rfl⟩

theorem createDeferredNode_ok (hbu : Sound build) {command : FindResult ο}
    {deferred : TaskCommand} {registeredAfter : List NodeId} {id : NodeId}
    (h : createDeferredNode build command deferred index ctx registeredAfter s = .ok (id, s')) :
    ∃ node : Node, node.id = id ∧ node.id.place = ctx.place ++ [.deferred index] ∧
      node.action = .barrier ∧ ∀ P, Lowers s s' P .skip [node] := by
  obtain ⟨order, s₁, ho, h₁⟩ := bind_ok h
  obtain ⟨plan, s₂, hn, h₂⟩ := bind_ok h₁
  obtain ⟨id', s₃, ha, h₃⟩ := bind_ok h₂
  obtain ⟨⟨⟩, s₄, hr, h₄⟩ := bind_ok h₃
  obtain ⟨rfl, rfl⟩ := pure_ok h₄
  cases ho
  obtain ⟨nested, hde, rfl, rfl⟩ := nestedBuilder_ok hn
  have hpl := buildDeferred_ok hbu hde
  obtain ⟨node, hc, rfl, hp, hno⟩ := addNode_ok ha
  obtain ⟨hd, registered, hi, hpln, hac⟩ := registerDeferred_ok hr
  refine ⟨node, rfl, hp, by rw [hc], fun P => ?_⟩
  have hl := hno P
  obtain ⟨entries, hes, hk⟩ := hl.deferred
  refine ⟨hd ▸ hl.nodes, hd ▸ hl.edges, entries ++ [registered], ?_, ?_⟩
  · rw [hac, hes, append_assoc]
    rfl
  intro e he
  rcases mem_append.mp he with he | he
  · exact hk e he
  · rw [mem_singleton.mp he, hi, hpln]
    exact ⟨mem_singleton_self _, hpl⟩

theorem chainDeferred_ok {last : List NodeId}
    (h : chainDeferred (nodes.map Node.id) predecessors s = .ok (last, s')) :
    Lowers s s' predecessors (.series (nodes.map .atom)) [] ∧
      last = (series (nodes.map .atom)).exits Node.id predecessors := by
  induction nodes generalizing s predecessors with
  | nil =>
    obtain ⟨rfl, rfl⟩ := pure_ok h
    exact ⟨.refl _ _, rfl⟩
  | cons node nodes ih =>
    obtain ⟨⟨⟩, s₁, hc, hr⟩ := bind_ok h
    obtain ⟨hl, hla⟩ := ih hr
    exact ⟨(connectParents_ok hc).seq hl, hla⟩

theorem exits_chain (hno : nodes ≠ []) (P : List NodeId) :
    ∃ id, (series (nodes.map .atom)).exits Node.id P = [id] := by
  obtain rfl | ⟨init, last, rfl⟩ := eq_nil_or_concat nodes
  · exact absurd rfl hno
  · rw [concat_eq_append, map_append, exits_series_append]
    exact ⟨last.id, rfl⟩

theorem attachDeferredNodes_ok
    (h : attachDeferredNodes ctx (nodes.map Node.id) predecessors s = .ok (terminal, s')) :
    ∃ root : Option Node,
      (∀ n ∈ root, n.id.place = ctx.placed .deferredRoot ∧ n.action = .barrier) ∧
      Lowers s s' predecessors (.seq (.optional root) (.series (nodes.reverse.map .atom)))
        root.toList ∧
      terminal.toList = (series (nodes.reverse.map .atom)).exits Node.id
        ((NodeFlow.optional root).exits Node.id predecessors) := by
  unfold attachDeferredNodes at h
  split at h
  · next he =>
    obtain ⟨join, hj, hl, hex⟩ := joinNodes_ok h
    obtain rfl : nodes = [] := by simpa using he
    refine ⟨join, hj, ?_, hex⟩
    have hs := hl.seq (.refl _ _)
    rwa [append_nil] at hs
  next hne =>
  have hno : nodes.reverse ≠ [] := by
    intro hn
    rw [reverse_eq_nil_iff.mp hn] at hne
    exact hne rfl
  obtain ⟨predecessors', s₁, hr, h₁⟩ := bind_ok h
  obtain ⟨last, s₂, hch, h₂⟩ := bind_ok h₁
  obtain ⟨rfl, rfl⟩ := pure_ok h₂
  rw [← map_reverse] at hch
  obtain ⟨hl, hla⟩ := chainDeferred_ok hch
  obtain ⟨id, hi⟩ := exits_chain hno predecessors'
  have ht : last.getLast?.toList =
      (series (nodes.reverse.map .atom)).exits Node.id predecessors' := by
    rw [hla, hi]
    rfl
  unfold registrationRoot at hr
  split at hr
  · next hp =>
    obtain ⟨root, s₃, ha, hpu⟩ := bind_ok hr
    obtain ⟨rfl, rfl⟩ := pure_ok hpu
    obtain ⟨node, hc, rfl, hpl, hnd⟩ := addNode_ok ha
    rw [List.isEmpty_iff.mp hp]
    refine ⟨some node, forall_mem_some ⟨hpl, by rw [hc]⟩, ?_, ht⟩
    have hro : Lowers s s₁ [] (.atom node) [node] :=
      (hnd []).trans (.refl _ []) fun a b => by simp [NodeFlow.Edge]
    have hs := hro.seq hl
    rwa [append_nil] at hs
  · obtain ⟨rfl, rfl⟩ := pure_ok hr
    refine ⟨none, forall_mem_none, ?_, ht⟩
    have hs := (Lowers.refl _ predecessors').seq hl
    rwa [append_nil] at hs

/-! ## The loop over the commands -/

section Loop

variable {command : FindResult ο} {body body' : Body}

theorem buildCommand_ok (hbu : Sound build)
    (hst : BodyState ctx.place ctx.depName parents parallel calling s₀ s body index
      commands deferred) (hcl : item.payload.isTask = true → calling)
    (h : planner.buildCommand build command ctx parents parallel body item index s =
      .ok (body', s')) :
    ∃ cmds' deferred', BodyState ctx.place ctx.depName parents parallel calling s₀ s'
      body' (index + 1) cmds' deferred' := by
  unfold buildCommand at h
  split at h
  · obtain ⟨rfl, rfl⟩ := pure_ok h
    exact ⟨commands, deferred, hst.next⟩
  split at h
  · obtain ⟨id, s₁, hno, hpu⟩ := bind_ok h
    obtain ⟨rfl, rfl⟩ := pure_ok hpu
    obtain ⟨node, rfl, hp, ha, hl⟩ := createDeferredNode_ok hbu hno
    exact ⟨commands, _, hst.defer hp ha hl⟩
  obtain ⟨terminals, s₁, hpa, h₁⟩ := bind_ok h
  obtain ⟨terminal, s₂, hj, h₂⟩ := bind_ok h₁
  obtain ⟨rfl, rfl⟩ := pure_ok h₂
  rcases buildPayload_ok hbu hpa with ⟨node, hf, hl, rfl⟩ | ⟨called, ht, hca, hl, rfl⟩
  · obtain ⟨rfl, rfl⟩ := pure_ok hj
    exact ⟨_, deferred, hst.command ⟨hf, forall_mem_nil _⟩ (fun hne => absurd rfl hne) hl rfl⟩
  obtain ⟨join, hpl, hb, he⟩ := joinNodes_ok hj
  cases called with
  | nil =>
    -- no match on this platform: nothing is added
    obtain ⟨rfl, rfl⟩ := pure_ok hj
    exact ⟨commands, deferred, hst.empty hl⟩
  | cons call called =>
    have hne : (call :: called).map Prod.snd ≠ [] := cons_ne_nil _ _
    rw [← exits_fan hne] at hb he
    have hf : CommandExpands ctx.place ctx.depName index (.calls (call :: called) join) :=
      ⟨⟨fun n hn => (hpl n hn).1, fun n hn => (hpl n hn).2,
        fun call hc => (hca call hc).2⟩, fun call hc => (hca call hc).1⟩
    have hfl : Lowers s s' (body.entries parallel parents)
        (CommandLayout.calls (call :: called) join).flow
        (CommandLayout.calls (call :: called) join).flow.atoms := by
      rw [CommandLayout.flow, atoms_seq, atoms_optional]
      exact hl.seq hb
    exact ⟨_, deferred, hst.command hf (fun _ => hcl ht) hfl he⟩

theorem buildCommands_ok (hbu : Sound build) {items : List TaskCommand}
    (hst : BodyState ctx.place ctx.depName parents parallel calling s₀ s body index
      commands deferred) (hca : ∀ item ∈ items, item.payload.isTask = true → calling)
    (h : planner.buildCommands build command ctx parents parallel (items.zipIdx index) body s =
      .ok (body', s')) :
    ∃ idx' cmds' deferred', BodyState ctx.place ctx.depName parents parallel calling
      s₀ s' body' idx' cmds' deferred' := by
  induction items generalizing index body s commands deferred with
  | nil =>
    obtain ⟨rfl, rfl⟩ := pure_ok h
    exact ⟨index, commands, deferred, hst⟩
  | cons item items ih =>
    rw [zipIdx_cons] at h
    obtain ⟨body₁, s₁, hr, hre⟩ := bind_ok h
    obtain ⟨cmds', deferred', hs'⟩ := buildCommand_ok hbu hst (hca item mem_cons_self) hr
    exact ih hs' (fun item hi => hca item (mem_cons_of_mem _ hi)) hre

end Loop

/-! ## The stages of the body -/

theorem BodyState.join {body : Body} {place : List Stage}
    (hst : BodyState base depName parents parallel calling s₀ s body index commands deferred)
    (h : joinNodes place name (body.terminals parallel) s = .ok (terminal, s')) :
    ∃ join : Option Node, (∀ n ∈ join, n.id.place = place ∧ n.action = .barrier) ∧
      Lowers s s' ((bodyFlow parallel commands).exits Node.id parents) (.optional join)
        join.toList ∧
      gateOrParents terminal parents = (NodeFlow.optional join).exits Node.id
        ((bodyFlow parallel commands).exits Node.id parents) := by
  cases parallel with
  | true =>
    have ht : body.terminals true =
        fanExits Node.id parents (commands.map fun command => command.2.flow) :=
      hst.terminals rfl
    rw [ht] at h
    exact joinFan_ok h
  | false =>
    have he := hst.entries rfl
    have ht : body.terminals false = body.sequentialParent.toList := rfl
    rw [ht] at h
    refine ⟨none, forall_mem_none, ?_⟩
    cases hp : body.sequentialParent with
    | none | some par =>
      rw [hp] at h he
      obtain ⟨rfl, rfl⟩ := pure_ok h
      exact ⟨.refl _ _, he⟩

structure BodyLayout (base : List Stage) (depName : String) (calling : Prop)
    (commands : List (ℕ × CommandLayout)) (join root : Option Node)
    (deferred : List (ℕ × Node)) : Prop where
  fits : ∀ command ∈ commands, CommandExpands base depName command.1 command.2
  called : ∀ command ∈ commands, command.2.called ≠ [] → calling
  ordered : commands.Pairwise fun c c' => c.1 < c'.1
  joined : ∀ n ∈ join, n.id.place = base ++ [.join] ∧ n.action = .barrier
  rooted : ∀ n ∈ root, n.id.place = base ++ [.deferredRoot] ∧ n.action = .barrier
  barriers : ∀ entry ∈ deferred, entry.2.id.place = base ++ [.deferred entry.1] ∧
    entry.2.action = .barrier
  deferred_ordered : deferred.Pairwise fun d d' => d'.1 < d.1

theorem buildCommandList_ok (hbu : Sound build) {command : FindResult ο} {items : List TaskCommand}
    (h : planner.buildCommandList build command ctx parents parallel items s = .ok (terminal, s')) :
    ∃ (commands : List (ℕ × CommandLayout)) (join root : Option Node) (deferred : List (ℕ × Node)),
      BodyLayout ctx.place ctx.depName (∃ item ∈ items, item.payload.isTask = true)
        commands join root deferred ∧
      Stages s s' parents terminal.toList [bodyFlow parallel commands, .optional join,
        .optional root, .series (deferred.map fun e => .atom e.2)] := by
  obtain ⟨body, s₁, hlo, h₁⟩ := bind_ok h
  obtain ⟨joined, s₂, hj, hat⟩ := bind_ok h₁
  obtain ⟨index, commands, deferred, hs⟩ := buildCommands_ok hbu
      (BodyState.initial _ _ parents parallel (∃ item ∈ items, item.payload.isTask = true) s)
        (fun item hi hta => ⟨item, hi, hta⟩)
      hlo
  obtain ⟨join, hjo, hl, hex⟩ := hs.join hj
  have hn : body.deferredNodes = (deferred.map Prod.snd).map Node.id := by
    rw [hs.nodes, map_map]
    rfl
  rw [hn] at hat
  obtain ⟨root, hr, hc, ht⟩ := attachDeferredNodes_ok hat
  have hre : (deferred.map Prod.snd).reverse.map atom =
      deferred.reverse.map fun e => .atom e.2 := by
    rw [← map_reverse, map_map]
    rfl
  rw [hre] at hc ht
  refine ⟨commands, join, root, deferred.reverse, ⟨hs.fits, hs.called, hs.ordered, hjo, hr, ?_,
      pairwise_reverse.mpr hs.deferred_ordered⟩, ?_, ?_⟩
  · intro e he
    exact hs.barriers e (mem_reverse.mp he)
  · rw [hex] at hc
    have ha := (hs.lowers.seq hl).trans hc
      (k := .series [bodyFlow parallel commands, .optional join, .optional root,
        .series (deferred.reverse.map fun e => .atom e.2)]) fun a b => by
      simp [series, NodeFlow.Edge, or_assoc]
    apply ha.perm
    -- the barriers of the deferred commands were created during the loop
    have hcl : (series (deferred.reverse.map fun e => atom e.2)).atoms =
        (deferred.map Prod.snd).reverse := by
      rw [← map_reverse]
      exact atoms_chain deferred.reverse
    simp only [atoms_series, flatMap_cons, flatMap_nil, atoms_optional,
      append_nil, append_assoc] at hcl ⊢
    rw [hcl, ← append_assoc join.toList]
    apply List.Perm.append_left
    exact perm_append_comm.trans ((reverse_perm _).symm.append_left _)
  · rw [ht, hex]
    rfl

theorem buildShorthand_ok {command : FindResult ο} {task : NodeId} (parallel : Bool)
    (h : planner.buildShorthand command ctx parents s = .ok (task, s')) :
    ∃ commands : List (ℕ × CommandLayout),
      BodyLayout ctx.place ctx.depName False commands none none [] ∧
      Stages s s' parents [task] [bodyFlow parallel commands, .optional none, .optional none,
        .series (([] : List (ℕ × Node)).map fun e => .atom e.2)] := by
  obtain ⟨id, s₁, ha, hco, rfl⟩ := node_ok h
  obtain ⟨node, hc, rfl, hp, hl⟩ := lowers_node ha hco
  refine ⟨[(0, .plugin node)], ⟨?_, ?_, pairwise_singleton _ _, forall_mem_none, forall_mem_none,
    forall_mem_nil _,
    List.Pairwise.nil⟩, ?_, ?_⟩
  · intro e he
    rw [mem_singleton.mp he]
    refine ⟨⟨hp, ?_, ?_⟩, forall_mem_nil _⟩
    · rw [hc]
    · rw [hc]
      exact ⟨_, rfl⟩
  · intro e he hca
    rw [mem_singleton.mp he] at hca
    exact hca rfl
  · have hf := hl.trans (.refl s' parents)
      (k := .series [bodyFlow parallel [(0, .plugin node)], .optional none, .optional none,
        .series (([] : List (ℕ × Node)).map fun e => .atom e.2)]) fun a b => by
      cases parallel <;>
        simp [bodyFlow, CommandLayout.flow, series, fan, NodeFlow.optional, NodeFlow.Edge]
    apply hf.perm
    cases parallel <;> rfl
  · cases parallel <;> rfl

theorem completeBody_ok {command : FindResult ο} {plan : Option TaskCachePlan} {P Q : List NodeId}
    {fs : List (NodeFlow Node)} (hst : Stages s₀ s P Q fs)
    (h : planner.completeBody command ctx plan Q s = .ok (terminal, s')) :
    ∃ rsc finalize : Option Node, (∀ n ∈ rsc, n.action.isControl) ∧
      Layout.At ctx.place .resources rsc ∧
      Layout.At ctx.place .cacheFinalize finalize ∧
      Publishes ctx finalize plan ∧
      Stages s₀ s' P terminal.toList (fs ++ [.optional rsc] ++ [.optional finalize]) := by
  obtain ⟨registered, s₁, hre, hf⟩ := bind_ok h
  obtain ⟨rsc, hc, hr⟩ := addResourceRegistration_ok hre
  obtain ⟨finalize, hn, hp⟩ := addCacheFinalize_ok hf
  exact ⟨rsc, finalize, hc, hr.place, hn.place, hp, (hst.node hr).node hn⟩

theorem BodyLayout.suffix {join root : Option Node}
    (h : BodyLayout base depName calling commands join root deferred)
    {lookup start resources finalize finish : Option Node} (hl : Layout.At base .cacheLookup lookup)
    (hst : Layout.At base .start start ∧ ∀ n ∈ start, n.action.isControl)
    (hres : Layout.At base .resources resources ∧ ∀ n ∈ resources, n.action.isControl)
    (hfi : Layout.At base .cacheFinalize finalize)
    (hfin : Layout.At base .finish finish ∧ ∀ n ∈ finish, n.action.isControl)
    {command : FindResult ο} {plan : Option TaskCachePlan}
    (hsh : planner.Shares command ctx plan lookup) (hpu : Publishes ctx finalize plan)
    (hpl : (∀ item ∈ (planner.definition command).commands, item.payload.isTask = false) →
      ¬calling ∧ finish = none) :
    Suffix.Fits ⟨lookup, start, parallel, commands, join, root, deferred, resources, finalize,
      finish⟩ base depName where
  lookup := hl
  start := hst.1
  commands command hcmd := (h.fits command hcmd).1
  commands_ordered := h.ordered
  join n hn := (h.joined n hn).1
  deferredRoot n hn := (h.rooted n hn).1
  deferred e hentry := (h.barriers e hentry).1
  deferred_ordered := h.deferred_ordered
  resources := hres.1
  finalize := hfi
  finish := hfin.1
  control_after := by
    intro n hn
    simp only [Suffix.control, mem_append, Option.mem_toList] at hn
    rcases hn with ((((hn | hn) | hn) | hn) | hn) | hn
    · exact hst.2 n hn
    · rw [(h.joined n hn).2]
      rfl
    · rw [(h.rooted n hn).2]
      rfl
    · obtain ⟨e, hentry, rfl⟩ := mem_map.mp hn
      rw [(h.barriers e hentry).2]
      rfl
    · exact hres.2 n hn
    · exact hfin.2 n hn
  cached := by
    cases lookup with
    | none =>
      obtain rfl : plan = none := hsh
      exact hpu
    | some lookup =>
      obtain ⟨contract, rfl, ha, hs, hi⟩ := hsh
      obtain ⟨node, st, hno, hsta, ha'⟩ := hpu
      cases hs.symm.trans hsta
      obtain ⟨hc, hnn⟩ := hpl hi
      refine ⟨contract, node, hno, ha, ha', fun command hcmd => ?_, hnn⟩
      by_contra hcl
      exact hc (h.called command hcmd hcl)

theorem buildTaskBody_ok (hbu : Sound build) {command : FindResult ο} {runParallel : Option Bool}
    (h : planner.buildTaskBody build command ctx parents runParallel s = .ok (terminal, s')) :
    ∃ stages : Suffix, stages.Fits ctx.place ctx.depName ∧
      stages.parallel = runParallel.getD command.task.parallel ∧
      (∀ item ∈ stages.commands, ∀ call ∈ item.2.called,
        Expansion (ctx.place ++ [.command item.1 call.1]) ctx.depName call.2) ∧
      Stages s s' parents terminal.toList (stages.parts.map Prod.snd) := by
  obtain ⟨⟨ctx', parents', plan⟩, s₁, hcc, h₁⟩ := bind_ok h
  obtain ⟨lookup, hl, hsa, hsh⟩ := addCacheLookup_ok hcc
  have hb := (Stages.nil s parents).node hl
  have hl' : Layout.At ctx'.place .cacheLookup lookup := by
    rw [hsa.place]
    exact hl.place
  rw [← hsa.place, ← hsa.depName]
  dsimp only at h₁
  cases hcm : command.task.cmds with
  | none =>
    rw [hcm] at h₁
    obtain ⟨task, s₂, hsho, hco⟩ := bind_ok h₁
    obtain ⟨commands, hbo, hst⟩ := buildShorthand_ok (runParallel.getD command.task.parallel) hsho
    have ha := (hb.node (AddsNode.none (ctx'.placed .start))).append hst
    obtain ⟨rsc, finalize, hc, hr, hfi, hp, hd⟩ := completeBody_ok ha hco
    refine ⟨⟨lookup, none, _, commands, none, none, [], rsc, finalize, none⟩,
      hbo.suffix hl' ⟨forall_mem_none, forall_mem_none⟩ ⟨hr, hc⟩ hfi
          ⟨forall_mem_none, forall_mem_none⟩
        hsh hp fun _ => ⟨id, rfl⟩, rfl,
      fun item hi => (hbo.fits item hi).2, ?_⟩
    exact hd.node (AddsNode.none (ctx'.placed .finish))
  | some items =>
    rw [hcm] at h₁
    obtain ⟨started, s₂, hsd, h₂⟩ := bind_ok h₁
    obtain ⟨terminal₁, s₃, hli, h₃⟩ := bind_ok h₂
    obtain ⟨terminal₂, s₄, hco, hfn⟩ := bind_ok h₃
    obtain ⟨start, hc₁, hs⟩ := startScope_ok hsd
    obtain ⟨commands, join, root, deferred, hbo, hst⟩ := buildCommandList_ok hbu hli
    have ha := (hb.node hs).append hst
    obtain ⟨rsc, finalize, hc₂, hr, hfi, hp, hd⟩ := completeBody_ok ha hco
    obtain ⟨finish, hc₃, hsc, hf⟩ := finishScope_ok hfn
    refine ⟨⟨lookup, start, _, commands, join, root, deferred, rsc, finalize, finish⟩,
      hbo.suffix hl' ⟨hs.place, hc₁⟩ ⟨hr, hc₂⟩ hfi ⟨hf.place, hc₃⟩ hsh hp fun hpl => ?_, rfl,
      fun item hi => (hbo.fits item hi).2, hd.node hf⟩
    have hite : ∀ item ∈ items, item.payload.isTask = false := by
      intro item hi
      have hm : item.toTaskCommand ∈ (planner.definition command).commands := by
        simp only [definition, Octa.Task.FindResult.commands, Task.definition, hcm,
          Option.map_some, Option.getD_some]
        exact mem_map_of_mem hi
      exact hpl _ hm
    refine ⟨fun hca => ?_, hsc ?_⟩
    · obtain ⟨item, hi, ht⟩ := hca
      rw [hite item hi] at ht
      cases ht
    rw [lifecycleScope, if_neg]
    rw [any_eq_true]
    intro han
    obtain ⟨item, hi, ht⟩ := han
    rw [hite item hi] at ht
    cases ht

/-! ## Invocations -/

theorem freshSerial_ok {serial : ℕ} (h : freshSerial s = .ok (serial, s')) :
    s'.dag = s.dag ∧ s'.deferred = s.deferred := by
  cases h
  exact ⟨rfl, rfl⟩

theorem assignSession_ok {command : FindResult ο} {ctx' : InvocationContext}
    (h : assignSession command ctx s = .ok (ctx', s')) :
    SameInvocation ctx ctx' ∧ s'.dag = s.dag ∧ s'.deferred = s.deferred := by
  unfold assignSession at h
  split at h
  · obtain ⟨session, s₁, hs, hp⟩ := bind_ok h
    obtain ⟨rfl, rfl⟩ := pure_ok hp
    exact ⟨⟨rfl, rfl⟩, freshSerial_ok hs⟩
  · obtain ⟨rfl, rfl⟩ := pure_ok h
    exact ⟨.refl _, rfl, rfl⟩

theorem sound_invocation (hbu : Sound build) : Sound (planner.invocation build) := by
  intro command request runParallel s terminal s' h
  obtain ⟨⟨⟩, s₁, hv, h₁⟩ := bind_ok h
  obtain ⟨scope, s₂, hsr, h₂⟩ := bind_ok h₁
  obtain ⟨⟨⟩, s₃, hco, h₃⟩ := bind_ok h₂
  obtain ⟨prep, s₄, hp, h₄⟩ := bind_ok h₃
  obtain ⟨ctx, s₅, hse, hbo⟩ := bind_ok h₄
  obtain ⟨-, rfl⟩ := Build.ofExecutor_ok hv
  obtain ⟨-, rfl⟩ := Build.ofExecutor_ok hco
  obtain ⟨hd, hdf⟩ := freshSerial_ok hsr
  obtain ⟨before, hb, hdp, hs, hst⟩ := prepareInvocation_ok hbu hp
  obtain ⟨hs', hd', hde'⟩ := assignSession_ok hse
  obtain ⟨after, haf, hpa, hc, hst'⟩ := buildTaskBody_ok hbu hbo
  have hpl : ctx.place = request.context.place := hs'.place.trans hs.place
  have hde : ctx.depName = request.context.depName := hs'.depName.trans hs.depName
  rw [hpl, hde] at haf hc
  have hpr : Stages _ s₅ request.entryParents prep.parents (before.parts.map Prod.snd) :=
    ⟨(hst.lowers.after hd hdf).before hd' hde', hst.exits⟩
  have ha := hpr.append hst'
  rw [← map_append] at ha
  exact ⟨⟨before, after⟩, ⟨hb, haf⟩, hpa, hdp, hc, ha.lowers, ha.exits⟩

theorem sound_buildInvocation (planner : TaskGraphBuilder ο) (fuel : ℕ) :
    Sound (planner.buildInvocation fuel) := by
  induction fuel with
  | zero =>
    intro command request runParallel s terminal s' h
    cases h
  | succ fuel ih => exact sound_invocation ih

/-! ## Plans -/

theorem buildRequests_ok (hbu : Sound build) {commands : List (FindResult ο × ℕ)}
    (h : buildRequests build runParallel commands s = .ok ((), s')) :
    ∃ reqs : List (NodeFlow Node), (∀ f ∈ reqs, Requested f) ∧
      Lowers s s' [] (.fan reqs) (fan reqs).atoms := by
  induction commands generalizing s with
  | nil =>
    obtain ⟨-, rfl⟩ := pure_ok h
    exact ⟨[], forall_mem_nil _, .refl _ _⟩
  | cons command commands ih =>
    obtain ⟨terminal, s₁, hi, hr⟩ := bind_ok h
    obtain ⟨f, hf, hl⟩ := (hbu _ _ _ _ _ _ hi).requested
    obtain ⟨reqs, hrq, hl'⟩ := ih hr
    refine ⟨[f] ++ reqs, ?_, ?_⟩
    · intro g hg
      rcases mem_append.mp hg with hg | hg
      · rw [mem_singleton.mp hg]
        exact hf
      · exact hrq g hg
    · have hb := hl.fan hl'
      rwa [atoms_fan, atoms_fan, ← flatMap_append, ← atoms_fan] at hb

theorem ofExcept_ok {α : Type} {result : Except PlanError α} {a : α}
    (h : Build.ofExcept result s = .ok (a, s')) : result = .ok a ∧ s' = s := by
  cases result with
  | error error => exact (Build.fail_ok h).elim
  | ok val =>
    obtain ⟨rfl, rfl⟩ := pure_ok h
    exact ⟨rfl, rfl⟩

theorem buildGraph_ok (hbu : Sound build) {oct : ο} {command : String}
    (h : planner.buildGraph build oct command runParallel (.empty next) = .ok ((), s')) :
    Planned s'.plan ∧ validateDag s'.dag command = .ok () := by
  obtain ⟨found, s₁, hf, h₁⟩ := bind_ok h
  obtain ⟨-, rfl⟩ := findAndFilterCommands_ok hf
  dsimp only at h₁
  split at h₁
  · exact (Build.fail_ok h₁).elim
  obtain ⟨⟨⟩, s₂, hr, h₂⟩ := bind_ok h₁
  obtain ⟨⟨⟩, s₃, hs, h₃⟩ := bind_ok h₂
  obtain ⟨st, s₄, hg, hva⟩ := bind_ok h₃
  cases hg
  obtain ⟨reqs, hre, hl⟩ := buildRequests_ok hbu hr
  obtain ⟨hv, rfl⟩ := ofExcept_ok hva
  exact ⟨skipEmpty_ok hl hre hs, hv⟩

theorem plan_ok {fuel : ℕ} {oct : ο} {command : String} {p : Plan}
    (h : planner.plan fuel oct command runParallel = .ok p) :
    Planned p ∧ validateDag p.dag command = .ok () := by
  unfold plan at h
  split at h
  · next s hg =>
    cases h
    exact buildGraph_ok (sound_buildInvocation planner fuel) hg
  · cases h

end TaskGraphBuilder

end Octa.Planner
