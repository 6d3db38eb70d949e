import Octa.Foundation.NumberedNames
import Octa.Planner.Expansion

/-!
# The names of sibling dependencies

The dependent of a task finds the results of its dependencies under the names
that `process_dependencies` gives to their invocations.
-/

namespace Octa.Planner

open Numbering List

namespace TaskGraphBuilder

variable {ο : Type} (planner : TaskGraphBuilder ο) (cmd : FindResult ο)

def selected (name : String) : List (FindResult ο) :=
  filterCommandByPlatform (planner.find cmd.octafile name)

/-- The declared dependencies up to the first one whose selector matches nothing. -/
def expandedDeps : List (Dependency × ℕ) :=
  cmd.task.deps.zipIdx.takeWhile fun dep => !(planner.find cmd.octafile dep.1.task).isEmpty

/-- A match of a declared dependency, with the positions of both. -/
abbrev Slot (ο : Type) := (Dependency × ℕ) × (FindResult ο × ℕ)

def slots (deps : List (Dependency × ℕ)) : List (Slot ο) :=
  deps.flatMap fun dep => (planner.selected cmd dep.1.task).zipIdx.map fun found => (dep, found)

section Requests

variable (parents : List NodeId) (context : InvocationContext)

def requests : List (Slot ο) → (String → ℕ) → List (FindResult ο × InvocationRequest)
  | [], _ => []
  | (dep, found) :: rest, emitted =>
    let named := generateUniqueTaskName cmd.task.deps dep.1.task emitted
    (planner.overrideDependency cmd dep.1 found.1,
      { context := context.nested named.1 (.dependency dep.2 found.2)
        entryParents := parents }) :: requests rest named.2

/-- The invocations that `processDependencies` asks for. -/
def dependencyRequests : List (FindResult ο × InvocationRequest) :=
  planner.requests cmd parents context (planner.slots cmd (planner.expandedDeps cmd)) fun _ => 0

end Requests

/-! ## What the loop asks for -/

section Loop

variable {planner cmd} {build : Expand ο} {parents : List NodeId} {context : InvocationContext}

variable {α σ β : Type}

theorem branches_append (branch : α → σ → Build (List NodeId × σ)) (xs ys : List α)
    (s : σ) : branches branch (xs ++ ys) s = (do
      let (terminals, s) ← branches branch xs s
      let (others, s) ← branches branch ys s
      pure (terminals ++ others, s)) := by
  induction xs generalizing s with
  | nil => simp [branches]
  | cons x xs ih => simp [branches, ih]

def buildSlot (planner : TaskGraphBuilder ο) (build : Expand ο) (cmd : FindResult ο)
    (parents : List NodeId) (context : InvocationContext) (slot : Slot ο) :
    (String → ℕ) → Build (List NodeId × (String → ℕ)) :=
  planner.buildDependency build cmd parents context slot.1.1 slot.1.2 slot.2

theorem branches_map (f : α → β) (branch : β → σ → Build (List NodeId × σ)) (xs : List α) (s : σ) :
    branches branch (xs.map f) s = branches (fun a => branch (f a)) xs s := by
  induction xs generalizing s with
  | nil => rfl
  | cons x xs ih => simp [branches, ih]

/-- Fails at the first declared dependency whose selector matches nothing. -/
def failMissing {α : Type} (planner : TaskGraphBuilder ο) (cmd : FindResult ο)
    (deps : List (Dependency × ℕ)) (result : α) : Build α :=
  match deps.find? fun dep => (planner.find cmd.octafile dep.1.task).isEmpty with
  | some dep => Build.fail (.commandNotFound dep.1.task)
  | none => pure result

theorem failMissing_bind_pure (deps : List (Dependency × ℕ)) (result : α)
    (f : α → β) : (do let result ← planner.failMissing cmd deps result; pure (f result)) =
      planner.failMissing cmd deps (f result) := by
  unfold failMissing
  cases deps.find? fun dep => (planner.find cmd.octafile dep.1.task).isEmpty with
  | none => exact pure_bind _ _
  | some dep => rfl

theorem branches_buildDependencyMatches (deps : List (Dependency × ℕ)) (emitted : String → ℕ) :
    branches (planner.buildDependencyMatches build cmd parents context) deps emitted =
      branches (planner.buildSlot build cmd parents context)
        (planner.slots cmd (deps.takeWhile fun dep =>
          !(planner.find cmd.octafile dep.1.task).isEmpty)) emitted >>=
        planner.failMissing cmd deps := by
  induction deps generalizing emitted with
  | nil => simp [branches, slots, failMissing]
  | cons dep deps ih =>
    cases hf : planner.find cmd.octafile dep.1.task with
    | nil =>
      have hfa : findAndFilterCommands planner cmd.octafile dep.1.task =
          Build.fail (.commandNotFound dep.1.task) := by
        rw [findAndFilterCommands, hf]
      simp [branches, slots, buildDependencyMatches, failMissing, hf, hfa]
      rfl
    | cons found others =>
      have hs : findAndFilterCommands planner cmd.octafile dep.1.task = pure (found :: others) := by
        rw [findAndFilterCommands, hf]
      have hsl : branches (planner.buildSlot build cmd parents context)
          ((planner.selected cmd dep.1.task).zipIdx.map fun found => (dep, found)) =
          branches (planner.buildDependency build cmd parents context dep.1 dep.2)
            (planner.selected cmd dep.1.task).zipIdx :=
        funext fun s => branches_map _ _ _ s
      have ht : planner.slots cmd ((dep :: deps).takeWhile fun dep =>
          !(planner.find cmd.octafile dep.1.task).isEmpty) =
          ((planner.selected cmd dep.1.task).zipIdx.map fun found => (dep, found)) ++
            planner.slots cmd (deps.takeWhile fun dep =>
              !(planner.find cmd.octafile dep.1.task).isEmpty) := by
        rw [takeWhile_cons_of_pos (by rw [hf]; rfl), slots, flatMap_cons]
        rfl
      have hm : ∀ result : List NodeId × (String → ℕ),
          planner.failMissing cmd (dep :: deps) result = planner.failMissing cmd deps result := by
        intro result
        rw [failMissing, List.find?_cons_of_neg (by rw [hf]; exact Bool.false_ne_true)]
        rfl
      rw [ht, branches_append, hsl]
      simp only [branches, buildDependencyMatches, hs, pure_bind, bind_assoc, ih, hm, selected, hf]
      refine bind_congr fun first => bind_congr fun rest => ?_
      exact failMissing_bind_pure deps rest fun rest => (first.1 ++ rest.1, rest.2)

theorem branches_buildSlot (slots : List (Slot ο)) (emitted : String → ℕ) :
    Prod.fst <$> branches (planner.buildSlot build cmd parents context) slots emitted =
      List.flatMap Option.toList <$>
        (planner.requests cmd parents context slots emitted).mapM fun request =>
          build request.1 request.2 none := by
  induction slots generalizing emitted with
  | nil => simp [branches, requests]
  | cons slot slots ih =>
    obtain ⟨dep, found⟩ := slot
    simp only [branches, requests, buildSlot, buildDependency, mapM_cons, map_bind,
      bind_assoc, pure_bind, map_pure, flatMap_cons]
    refine bind_congr fun term => ?_
    have ht := congrArg (fun others => (term.toList ++ ·) <$> others)
      (ih (generateUniqueTaskName cmd.task.deps dep.1.task emitted).2)
    simpa only [map_eq_pure_bind, bind_assoc, pure_bind] using ht

def groupDependencies (cmd : FindResult ο) (context : InvocationContext)
    (terminals : List NodeId) : Build (Option NodeId) :=
  if terminals.isEmpty then pure none
  else do
    let group ← createGroupNode (context.placed .dependencies)
      ("Group deps task for command " ++ cmd.name)
    connectParents terminals group
    pure (some group)

theorem processDependencies_eq : planner.processDependencies build cmd parents context = (do
      let terminals ← (planner.dependencyRequests cmd parents context).mapM fun request =>
        build request.1 request.2 none
      let terminals ← planner.failMissing cmd cmd.task.deps.zipIdx
        (terminals.flatMap Option.toList)
      groupDependencies cmd context terminals) := by
  have hs := congrArg (fun terminals => terminals >>= fun terminals =>
      planner.failMissing cmd cmd.task.deps.zipIdx terminals >>= groupDependencies cmd context)
    (@branches_buildSlot ο planner cmd build parents context
      (planner.slots cmd (planner.expandedDeps cmd)) fun _ => 0)
  simp only [map_eq_pure_bind, bind_assoc, pure_bind] at hs
  rw [processDependencies, branches_buildDependencyMatches, bind_assoc]
  refine Eq.trans (bind_congr fun result => ?_) hs
  rw [← failMissing_bind_pure _ _ Prod.fst, bind_assoc]
  refine bind_congr fun result => ?_
  rw [pure_bind]
  rfl

end Loop

/-! ## When the names are distinct -/

variable {planner cmd}

variable (planner cmd)

end TaskGraphBuilder

end Octa.Planner
