import Octa.Foundation.Machine
import Octa.Task.Execution

/-!
# Run mode `once`

The command nodes of one run share the stored invocation results.
-/

namespace Octa.Task

open Transition List CommandNode

variable {ι υ ν : Type}

structure RunState (ι υ ν : Type) where
  results : InvocationResults υ ν
  status : ι → CommandStatus υ ν
  /-- the successful plugin calls, in order -/
  invocations : List (ι × InvocationResult υ ν)

inductive RunAction (ι υ ν : Type) where
  | start (node : ι) (shouldRun cacheProbe : Bool) (answers : StartAnswers υ ν)
  | finish (node : ι) (answers : FinishAnswers υ)
  | expire (node : ι) (announced : Bool)

section Machine

variable [DecidableEq ι] (commands : ι → CommandNode)

def RunState.finishNode (s : RunState ι υ ν) (node : ι) (vars : ν) (answers : FinishAnswers υ) :
    RunState ι υ ν :=
  let finished := (commands node).finish vars answers s.results
  { results := finished.2
    status := Function.update s.status node (.ofFinish finished.1)
    invocations :=
      match finished.1 with
      | .succeeded stdout outputs => s.invocations ++ [(node, ⟨stdout, vars, outputs⟩)]
      | _ => s.invocations }

def runStep [DecidableEq ν] (s : RunState ι υ ν) : RunAction ι υ ν → Option (RunState ι υ ν)
  | .start node shouldRun cacheProbe answers =>
    match s.status node with
    | .pending =>
      some { s with
        status := Function.update s.status node
          (.ofStart ((commands node).start shouldRun cacheProbe answers s.results)) }
    | _ => none
  | .finish node answers =>
    match s.status node with
    | .invoked vars => some (s.finishNode commands node vars answers)
    | _ => none
  | .expire node announced =>
    (expired (commands node) announced (s.status node)).map fun status =>
      { s with status := Function.update s.status node status }

def commandRun [DecidableEq ν] : Machine (RunState ι υ ν) (RunAction ι υ ν) where
  init := ⟨fun _ => none, fun _ => .pending, []⟩
  step := runStep commands

end Machine

def CommandStatus.returned : CommandStatus υ ν → Bool
  | .reused _ | .ignored | .succeeded _ _ => true
  | _ => false

variable (commands : ι → CommandNode) (key : String)

def RunState.invocationsOf (s : RunState ι υ ν) : List (ι × InvocationResult υ ν) :=
  s.invocations.filter fun entry => (commands entry.1).cacheKey = key

/-- The plugin of the key was successfully invoked at most once, and every other
node of the key that returned has the result of that invocation. -/
structure Once (s : RunState ι υ ν) : Prop where
  unique : (s.invocationsOf commands key).length ≤ 1
  stored : ∀ entry ∈ s.invocationsOf commands key, ∀ other ≠ entry.1,
    (commands other).cacheKey = key → (s.status other).returned = true →
      s.status other = .reused entry.2

/-- No node of the key starts while another one is being invoked, and no failure
of a node of the key is ignored. -/
def Serial (s : RunState ι υ ν) : RunAction ι υ ν → Prop
  | .start node _ _ _ => (commands node).cacheKey = key →
      ∀ other vars, (commands other).cacheKey = key → s.status other ≠ .invoked vars
  | .finish node answers => (commands node).cacheKey = key → (commands node).ignoreErrors = true →
      ¬ answers.plugin.ignorable
  | .expire node _ => (commands node).cacheKey = key → (commands node).ignoreErrors = true →
      ∃ stdout outputs, s.status node = .succeeded stdout outputs

structure Unstored (s : RunState ι υ ν) : Prop where
  invocations : s.invocationsOf commands key = []
  results : s.results key = none
  unreturned : ∀ node, (commands node).cacheKey = key → (s.status node).returned = false
  alone : ∀ node other vars vars', (commands node).cacheKey = key →
    (commands other).cacheKey = key → s.status node = .invoked vars →
      s.status other = .invoked vars' → node = other

structure Stored (s : RunState ι υ ν) (entry : ι × InvocationResult υ ν) : Prop where
  invocations : s.invocationsOf commands key = [entry]
  results : s.results key = some entry.2
  reused : ∀ other ≠ entry.1, (commands other).cacheKey = key →
    (s.status other).returned = true → s.status other = .reused entry.2
  idle : ∀ node vars, (commands node).cacheKey = key → s.status node ≠ .invoked vars

variable {commands key} {s s' : RunState ι υ ν}

theorem Unstored.once (h : Unstored commands key s) : Once commands key s := by
  constructor
  · simp [h.invocations]
  · simp [h.invocations]

theorem Stored.once {e : ι × InvocationResult υ ν} (h : Stored commands key s e) :
    Once commands key s := by
  constructor
  · simp [h.invocations]
  intro other ho
  rw [h.invocations, mem_singleton] at ho
  subst ho
  exact h.reused

def Kept (commands : ι → CommandNode) (key : String) (s : RunState ι υ ν) : Prop :=
  Unstored commands key s ∨ ∃ entry, Stored commands key s entry

theorem Kept.once (h : Kept commands key s) : Once commands key s := by
  rcases h with h | ⟨e, h⟩
  · exact h.once
  · exact h.once

theorem Kept.frame (h : Kept commands key s) (hre : s'.results key = s.results key)
    (hlog : s'.invocationsOf commands key = s.invocationsOf commands key)
    (hstat : ∀ node, (commands node).cacheKey = key → s'.status node = s.status node) :
    Kept commands key s' := by
  rcases h with h | ⟨e, h⟩
  · refine .inl ⟨hlog.trans h.invocations, hre.trans h.results, ?_, ?_⟩
    · intro node hn
      rw [hstat node hn]
      exact h.unreturned node hn
    · intro node other vars vars' hn ho
      rw [hstat node hn, hstat other ho]
      exact h.alone node other vars vars' hn ho
  refine .inr ⟨e, hlog.trans h.invocations, hre.trans h.results, ?_, ?_⟩
  · intro other hne ho
    rw [hstat other ho]
    exact h.reused other hne ho
  intro node vars hn
  rw [hstat node hn]
  exact h.idle node vars hn

variable [DecidableEq ι]

variable {node : ι} {status : CommandStatus υ ν}

theorem Unstored.update (h : Unstored commands key s)
    (hret : status.returned = false) (hin : ∀ vars, status ≠ .invoked vars) :
    Unstored commands key { s with status := Function.update s.status node status } := by
  refine ⟨h.invocations, h.results, ?_, ?_⟩
  · intro other ho
    by_cases hs : other = node
    · subst hs
      simpa using hret
    · simpa [Function.update_of_ne hs] using h.unreturned other ho
  intro a b vars vars' ha hb hsa hsb
  have hne : ∀ {c : ι} {v : ν}, Function.update s.status node status c = .invoked v →
      s.status c = .invoked v := by
    intro c v hc
    by_cases hs : c = node
    · subst hs
      simp only [Function.update_self] at hc
      exact absurd hc (hin v)
    · rwa [Function.update_of_ne hs] at hc
  exact h.alone a b vars vars' ha hb (hne hsa) (hne hsb)

theorem Stored.update {entry : ι × InvocationResult υ ν} (h : Stored commands key s entry)
    (hre : node ≠ entry.1 → status.returned = true → status = .reused entry.2)
    (hin : ∀ vars, status ≠ .invoked vars) :
    Stored commands key { s with status := Function.update s.status node status } entry := by
  refine ⟨h.invocations, h.results, ?_, ?_⟩
  · intro other hne ho hr
    by_cases hs : other = node
    · subst hs
      simp only [Function.update_self] at hr ⊢
      exact hre hne hr
    · simp only [Function.update_of_ne hs] at hr ⊢
      exact h.reused other hne ho hr
  intro other vars ho
  by_cases hs : other = node
  · subst hs
    simpa using hin vars
  · simpa [Function.update_of_ne hs] using h.idle other vars ho

theorem Kept.update (h : Kept commands key s)
    (hre : status.returned = false) (hin : ∀ vars, status ≠ .invoked vars) :
    Kept commands key { s with status := Function.update s.status node status } := by
  rcases h with h | ⟨e, h⟩
  · exact .inl (h.update hre hin)
  refine .inr ⟨e, h.update (fun _ hr => ?_) hin⟩
  rw [hre] at hr
  cases hr

theorem Kept.start [DecidableEq ν] {shouldRun cacheProbe : Bool}
    {answers : StartAnswers υ ν} (h : Kept commands key s)
    (honce : (commands node).runMode = .once) (hkey : (commands node).cacheKey = key)
    (hidle : ∀ other vars, (commands other).cacheKey = key → s.status other ≠ .invoked vars) :
    Kept commands key { s with
      status := Function.update s.status node
        (.ofStart ((commands node).start shouldRun cacheProbe answers s.results)) } := by
  have hch : ∀ vars, (commands node).checkInvocationResult vars s.results = s.results key := by
    intro vars
    simp [checkInvocationResult, honce, hkey]
  cases hst : (commands node).start shouldRun cacheProbe answers s.results with
  | failed | skipped | suppressed | empty => exact h.update rfl nofun
  | reused cached =>
    obtain ⟨-, -, vars, -, hca⟩ := start_reused hst
    rw [hch] at hca
    rcases h with h | ⟨e, h⟩
    · rw [h.results] at hca
      cases hca
    · cases h.results.symm.trans hca
      exact .inr ⟨e, h.update (fun _ _ => rfl) nofun⟩
  | invoke vars =>
    have hn := start_invoke hst
    rw [hch] at hn
    rcases h with h | ⟨e, h⟩
    · refine .inl ⟨h.invocations, h.results, ?_, ?_⟩
      · intro other ho
        by_cases hs : other = node
        · subst hs
          simp [CommandStatus.ofStart, CommandStatus.returned]
        · simpa [Function.update_of_ne hs] using h.unreturned other ho
      · have hse : ∀ {c : ι} {v : ν}, (commands c).cacheKey = key →
            Function.update s.status node (.invoked vars) c = .invoked v → c = node := by
          intro c v hc hi
          by_contra hs
          rw [Function.update_of_ne hs] at hi
          exact hidle c v hc hi
        intro a b v v' ha hb hsa hsb
        exact (hse ha hsa).trans (hse hb hsb).symm
    · rw [h.results] at hn
      cases hn

variable {answers : FinishAnswers υ}

section

variable (h : Kept commands key s)
include h

theorem Kept.finish {vars : ν} (honce : (commands node).runMode = .once)
    (hkey : (commands node).cacheKey = key) (hstat : s.status node = .invoked vars)
    (hign : (commands node).ignoreErrors = true → ¬ answers.plugin.ignorable) :
    Kept commands key (s.finishNode commands node vars answers) := by
  rcases h with h | ⟨e, h⟩
  swap
  · exact absurd hstat (h.idle node vars hkey)
  unfold RunState.finishNode
  cases hf : ((commands node).finish vars answers s.results).1 with
  | failed error =>
    have hre := finish_snd_of_ne_succeeded (ν := ν) (by rw [hf]; nofun)
    simp only [hf, hre]
    exact .inl (h.update rfl nofun)
  | ignored =>
    obtain ⟨hi, hig⟩ := finish_ignored hf
    exact absurd hig (hign hi)
  | succeeded stdout outputs =>
    obtain ⟨hre, -⟩ := finish_succeeded hf
    have hot : ∀ other, (commands other).cacheKey = key → other ≠ node → ∀ v,
        s.status other ≠ .invoked v := by
      intro other ho hne v hin
      exact hne (h.alone other node v vars ho hkey hin hstat)
    refine .inr ⟨(node, ⟨stdout, vars, outputs⟩), ?_, ?_, ?_, ?_⟩
    · have he := h.invocations
      unfold RunState.invocationsOf at he
      simp [RunState.invocationsOf, hf, filter_append, he, hkey]
    · simp [hre, updateInvocationResult, honce, hkey]
    · intro other hne ho hr
      simp only [Function.update_of_ne hne] at hr
      rw [h.unreturned other ho] at hr
      cases hr
    intro other v ho
    by_cases hs : other = node
    · subst hs
      simp [hf, CommandStatus.ofFinish]
    · simpa [Function.update_of_ne hs] using hot other ho hs v

theorem Kept.expire {ann : Bool}
    (hex : expired (commands node) ann (s.status node) = some status)
    (hig : (commands node).ignoreErrors = true →
      ∃ stdout outputs, s.status node = .succeeded stdout outputs) :
    Kept commands key { s with status := Function.update s.status node status } := by
  rcases expired_cases hex with ⟨-, hi, hb⟩ | ⟨error, rfl⟩ | ⟨_, _, -, hs⟩
  · obtain ⟨stdout, outputs, hsu⟩ := hig hi
    exact absurd hsu (hb stdout outputs)
  · exact h.update rfl nofun
  · rw [hs, Function.update_eq_self]
    exact h

theorem Kept.other (hkey : (commands node).cacheKey ≠ key) {ress : InvocationResults υ ν}
    {invs : List (ι × InvocationResult υ ν)} (hre : ress key = s.results key)
    (hlog : invs = s.invocations ∨ ∃ result, invs = s.invocations ++ [(node, result)]) :
    Kept commands key ⟨ress, Function.update s.status node status, invs⟩ := by
  refine h.frame hre ?_ ?_
  · rcases hlog with rfl | ⟨result, rfl⟩
    · rfl
    · simp [RunState.invocationsOf, filter_append, hkey]
  intro other ho
  refine Function.update_of_ne ?_ _ _
  rintro rfl
  exact hkey ho

theorem Kept.finish_other {vars : ν} (hkey : (commands node).cacheKey ≠ key) :
    Kept commands key (s.finishNode commands node vars answers) := by
  unfold RunState.finishNode
  cases hf : ((commands node).finish vars answers s.results).1 with
  | failed error | ignored =>
    have hr := finish_snd_of_ne_succeeded (ν := ν) (by rw [hf]; nofun)
    exact h.other hkey (by rw [hr]) (.inl (by simp only [hf]))
  | succeeded stdout outputs =>
    obtain ⟨hr, -⟩ := finish_succeeded hf
    refine h.other hkey ?_ (.inr ⟨⟨stdout, vars, outputs⟩, by simp only [hf]⟩)
    rw [hr, updateInvocationResult]
    split
    · rfl
    · exact Function.update_of_ne (Ne.symm hkey) _ _

theorem Kept.step [DecidableEq ν] {a : RunAction ι υ ν}
    (honce : ∀ node, (commands node).cacheKey = key → (commands node).runMode = .once)
    (hse : Serial commands key s a) (hstep : runStep commands s a = some s') :
    Kept commands key s' := by
  cases a with
  | start node shouldRun cacheProbe answers =>
    simp only [runStep] at hstep
    split at hstep
    · cases hstep
      by_cases hk : (commands node).cacheKey = key
      · exact h.start (honce node hk) hk (hse hk)
      · exact h.other hk rfl (.inl rfl)
    · cases hstep
  | finish node answers =>
    simp only [runStep] at hstep
    split at hstep
    · next vars hs =>
      cases hstep
      by_cases hk : (commands node).cacheKey = key
      · exact h.finish (honce node hk) hk hs (hse hk)
      · exact h.finish_other hk
    · cases hstep
  | expire node ann =>
    simp only [runStep, Option.map_eq_some_iff] at hstep
    obtain ⟨status, he, rfl⟩ := hstep
    by_cases hk : (commands node).cacheKey = key
    · exact h.expire he (hse hk)
    · exact h.other hk rfl (.inl rfl)

end

theorem once_of_serial [DecidableEq ν] (commands : ι → CommandNode) (key : String)
    (honce : ∀ node, (commands node).cacheKey = key → (commands node).runMode = .once)
    {history : List (RunState ι υ ν × RunAction ι υ ν)} {s : RunState ι υ ν}
    (hrun : (commandRun commands).Run history s)
    (hserial : ∀ entry ∈ history, Serial commands key entry.1 entry.2) : Once commands key s := by
  have hkept : Kept commands key s := by
    apply hrun.invariant_of (I := Kept commands key) hserial
    · exact .inl ⟨rfl, rfl, fun _ _ => rfl, nofun⟩
    · intro s a s' _ ha hs hstep
      exact hs.step honce ha hstep
  exact hkept.once

/-- Two invocations of one task with run mode `once`. -/
def twins : Bool → CommandNode :=
  fun _ => ⟨"make", "shell", "build::command[0]", 0, .once, false, none, some "shell", []⟩

def twinStart (node : Bool) : RunAction Bool ℕ Unit :=
  .start node true false ⟨.ok true, .ok (), .ok true, .ok true, fun _ => true, true⟩

def twinFinish (node : Bool) (stdout : String) : RunAction Bool ℕ Unit :=
  .finish node ⟨.completed 0 false stdout [] (some []) (some []), fun _ => true, true⟩

/-- Both nodes look for a stored result before either of them stores one. -/
def racingRun : List (RunAction Bool ℕ Unit) :=
  [twinStart false, twinStart true, twinFinish false "first", twinFinish true "second"]

theorem racingRun_invokes_twice :
    (∀ node, (twins node).cacheKey = "build::command[0]" → (twins node).runMode = .once) ∧
      ∃ history s, (commandRun twins).Run history s ∧ history.map Prod.snd = racingRun ∧
        ¬ Once twins "build::command[0]" s := by
  refine ⟨fun _ _ => rfl, ?_⟩
  obtain ⟨s, hexec, hlog⟩ : ∃ s, (commandRun twins).exec racingRun
      (commandRun twins).init = some s ∧
      (s.invocationsOf twins "build::command[0]").length = 2 := ⟨_, rfl, rfl⟩
  obtain ⟨history, hrun, hactions⟩ := Machine.Run.start.exec hexec
  refine ⟨history, s, hrun, hactions, fun honce => ?_⟩
  have hunique := honce.unique
  omega

/-- The second node starts after the first one has stored its result. -/
def serialRun : List (RunAction Bool ℕ Unit) :=
  [twinStart false, twinFinish false "first", twinStart true]

theorem once_of_serial_twins :
    ∃ history s, (commandRun twins).Run history s ∧ history.map Prod.snd = serialRun ∧
      (∃ outputs, s.status true = .reused ⟨"first", (), outputs⟩) ∧
      Once twins "build::command[0]" s := by
  have hrun := ((Machine.Run.start (M := commandRun twins)).step (a := twinStart false) rfl).step
    (a := twinFinish false "first") rfl |>.step (a := twinStart true) rfl
  refine ⟨_, _, hrun, rfl, ⟨_, rfl⟩, ?_⟩
  apply once_of_serial twins _ (fun _ _ => rfl) hrun
  intro entry hentry
  simp only [nil_append, cons_append, mem_cons, not_mem_nil, or_false] at hentry
  rcases hentry with rfl | rfl | rfl
  · intro _ other vars _ hinvoked
    cases hinvoked
  · intro _ _ hignorable
    exact hignorable.1 rfl
  · intro _ other vars _ hinvoked
    cases other <;> cases hinvoked

end Octa.Task
