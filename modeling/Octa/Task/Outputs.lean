import Mathlib.Data.List.Nodup
import Octa.Foundation.OrderedMap

/-!
# Structured outputs

The values a command exports to its task, with their redaction flag, and the
merge of the values of several commands.  The type of the values is arbitrary.
-/

namespace Octa.Task

open List

variable {υ : Type}

structure TaskOutput (υ : Type) where
  name : String
  value : υ
  secret : Bool
  deriving DecidableEq, Repr

/-- Task exports retained internally together with their redaction metadata. -/
structure TaskOutputs (υ : Type) where
  entries : List (TaskOutput υ)
  distinct : (entries.map TaskOutput.name).Nodup

namespace TaskOutputs

def empty : TaskOutputs υ := ⟨[], nodup_nil⟩

/-- Inserts a value; a value with the same name is replaced, flag included. -/
def insert (outputs : TaskOutputs υ) (output : TaskOutput υ) : TaskOutputs υ where
  entries := output :: outputs.entries.filter fun entry => entry.name ≠ output.name
  distinct := by
    refine nodup_cons.mpr ⟨by simp, ?_⟩
    exact outputs.distinct.sublist (filter_sublist.map _)

def extend (older newer : TaskOutputs υ) : TaskOutputs υ :=
  newer.entries.foldl insert older

/-- Only values safe to persist or serialize in the public result. -/
def publicValues (outputs : TaskOutputs υ) : List (String × υ) :=
  (outputs.entries.filter fun entry => !entry.secret).map fun entry => (entry.name, entry.value)

def secretNames (outputs : TaskOutputs υ) : List String :=
  (outputs.entries.filter TaskOutput.secret).map TaskOutput.name

variable {entry : TaskOutput υ}

variable {outputs older : TaskOutputs υ}

theorem mem_insert {output : TaskOutput υ} : entry ∈ (outputs.insert output).entries ↔
      entry = output ∨ entry ∈ outputs.entries ∧ entry.name ≠ output.name := by
  simp [insert]

theorem secretNames_eq_nil_iff :
    outputs.secretNames = [] ↔ ∀ e ∈ outputs.entries, e.secret = false := by
  simp [secretNames, filter_eq_nil_iff]

theorem mem_foldl_insert {newer : List (TaskOutput υ)}
    (hdist : (newer.map TaskOutput.name).Nodup) : entry ∈ (newer.foldl insert older).entries ↔
      entry ∈ newer ∨ entry ∈ older.entries ∧ entry.name ∉ newer.map TaskOutput.name :=
  OrderedMap.mem_foldl_replacing (fun _ _ _ => mem_insert) hdist

def Apart (a b : TaskOutputs υ) : Prop :=
  ∀ x ∈ a.entries, ∀ y ∈ b.entries, x.name ≠ y.name

theorem mem_extend {newer : TaskOutputs υ} (h : older.Apart newer) :
    entry ∈ (older.extend newer).entries ↔ entry ∈ older.entries ∨ entry ∈ newer.entries := by
  rw [extend, mem_foldl_insert newer.distinct, or_comm]
  apply or_congr_left
  rw [and_iff_left_iff_imp]
  intro he hn
  obtain ⟨other, ho, hs⟩ := mem_map.mp hn
  exact h entry he other ho hs.symm

theorem mem_foldl_extend {ress : List (TaskOutputs υ)} {start : TaskOutputs υ}
    (hpair : ress.Pairwise Apart) (hst : ∀ result ∈ ress, start.Apart result) :
    entry ∈ (ress.foldl extend start).entries ↔
      entry ∈ start.entries ∨ ∃ result ∈ ress, entry ∈ result.entries := by
  induction ress generalizing start with
  | nil => simp
  | cons result rest ih =>
    obtain ⟨hr, hre⟩ := pairwise_cons.mp hpair
    have hf := hst result (by simp)
    have hm : ∀ other ∈ rest, (start.extend result).Apart other := by
      intro other ho x hx y hy
      rcases (mem_extend hf).mp hx with hx | hx
      · exact hst other (mem_cons_of_mem _ ho) x hx y hy
      · exact hr other ho x hx y hy
    rw [foldl_cons, ih hre hm, mem_extend hf]
    simp [or_assoc]

end TaskOutputs

structure RegisteredArtifact where
  name : String
  path : String
  contentType : Option String
  deriving DecidableEq, Repr

structure RegisteredReport where
  name : String
  path : String
  format : String
  deriving DecidableEq, Repr

structure CompletionOutputs (υ : Type) where
  step : List (String × υ)
  task : TaskOutputs υ
  artifacts : List RegisteredArtifact
  reports : List RegisteredReport

def CompletionOutputs.empty : CompletionOutputs υ := ⟨[], .empty, [], []⟩

structure StepExport where
  field : String
  secret : Bool
  deriving DecidableEq, Repr

/-- Selects the exports of a command from its step result, in some order.  The
field of a secret export is removed from the step result. -/
def selectExports : List (String × StepExport) → List (String × υ) → TaskOutputs υ →
    Except String (List (String × υ) × TaskOutputs υ)
  | [], step, task => .ok (step, task)
  | (name, stepExport) :: rest, step, task =>
    match step.lookup stepExport.field with
    | none => .error stepExport.field
    | some value =>
      let step :=
        if stepExport.secret then step.filter fun field => field.1 ≠ stepExport.field else step
      selectExports rest step (task.insert ⟨name, value, stepExport.secret⟩)

/-- Selects task-level outputs and removes secret exports from the public step result. -/
def completionOutputs (exports : List (String × StepExport)) (step : List (String × υ))
    (artifacts : List RegisteredArtifact) (reports : List RegisteredReport) :
    Except String (CompletionOutputs υ) :=
  match selectExports exports step .empty with
  | .error field => .error field
  | .ok (step, task) => .ok ⟨step, task, artifacts, reports⟩

variable {exports : List (String × StepExport)}

theorem name_of_selectExports {step step' : List (String × υ)} {task task' : TaskOutputs υ}
    (h : selectExports exports step task = .ok (step', task')) :
    ∀ e ∈ task'.entries, e ∈ task.entries ∨ e.name ∈ exports.map Prod.fst := by
  induction exports generalizing step task with
  | nil =>
    simp only [selectExports, Except.ok.injEq, Prod.mk.injEq] at h
    obtain ⟨-, rfl⟩ := h
    exact fun e he => .inl he
  | cons first rest ih =>
    obtain ⟨name, stepExport⟩ := first
    simp only [selectExports] at h
    split at h
    · cases h
    intro e he
    rcases ih h e he with hb | hn
    · rcases TaskOutputs.mem_insert.mp hb with rfl | ⟨hb, -⟩
      · exact .inr (by simp)
      · exact .inl hb
    · exact .inr (mem_cons_of_mem _ hn)

theorem name_of_completionOutputs {step : List (String × υ)} {arts : List RegisteredArtifact}
    {reps : List RegisteredReport} {outputs : CompletionOutputs υ}
    (h : completionOutputs exports step arts reps = .ok outputs) :
    ∀ e ∈ outputs.task.entries, e.name ∈ exports.map Prod.fst := by
  unfold completionOutputs at h
  split at h
  · cases h
  next hs =>
  obtain rfl := Except.ok.inj h
  intro e he
  rcases name_of_selectExports hs e he with hem | hn
  · simp [TaskOutputs.empty] at hem
  · exact hn

end Octa.Task
