import Octa.Task.Command
import Octa.Foundation.Fallible
import Octa.Foundation.IndexMap

/-!
# The contract of a task

What loading checks about the declared outputs of a task, and what the checks
guarantee when a step of it completes.
-/

namespace Octa.Task

open List Fallible

variable {υ : Type}

structure OutputSchema where
  valid : Bool
  type : Option String
  additionalProperties : Option Bool
  properties : Option (List String)
  required : Option (List (Option String))

def OutputSchema.requiredFields (schema : OutputSchema) : List String :=
  (schema.required.getD []).reduceOption

/-- The part of conformity that exports rely on: no required field is missing. -/
def OutputSchema.Conforms (schema : OutputSchema) (result : List (String × υ)) : Prop :=
  ∀ field ∈ schema.requiredFields, (result.lookup field).isSome

def requiredOutputFields (key : String) (schema : Option OutputSchema) :
    Except String (List String) :=
  match schema with
  | none => .ok []
  | some schema =>
    if !schema.valid then .error s!"invalid output schema for plugin '{key}'"
    else if schema.type ≠ some "object" then
      .error s!"output schema for plugin '{key}' must have type 'object'"
    else if schema.additionalProperties ≠ some false then
      .error s!"output schema for plugin '{key}' must set additionalProperties to false"
    else
      match schema.properties with
      | none => .error s!"output schema for plugin '{key}' must declare object properties"
      | some properties => .ok (properties.filter fun field => field ∈ schema.requiredFields)

/-- The registered plugins; `isBlank` tells that trimming leaves nothing of a text. -/
structure PluginRegistry where
  isBlank : String → Bool
  requiredOutputFields : String → List String

structure TaskFiles where
  inputs : Option (List String)
  outputs : List String

structure TaskCacheOptions where
  environment : List String
  salt : Option String

structure DeclaredTask extends OctafileTask where
  watch : Option Bool
  files : Option TaskFiles
  cache : Option TaskCacheOptions

namespace PluginRegistry

variable (registry : PluginRegistry)

def validateFiles (task : DeclaredTask) : Except String Unit := do
  if task.watch = some true ∧ (task.files.bind TaskFiles.inputs).isNone then
    throw "a watched task must declare 'files.inputs'"
  if let some files := task.files then
    if (files.inputs.getD []).any registry.isBlank then
      throw "file input patterns must not be empty"
    if files.outputs.any registry.isBlank then
      throw "file output roots must not be empty"

def validateCache (task : DeclaredTask) : Except String Unit := do
  if let some cache := task.cache then
    if cache.environment.any registry.isBlank ∨ ¬ cache.environment.Nodup then
      throw "cache environment names must be non-empty and unique"
    if cache.salt.any registry.isBlank then
      throw "cache salt must not be empty"

def pluginStep (id : String) (command : TaskCommand) : Except String (String × String × Bool) :=
  match command.payload with
  | .task _ => .error s!"command id '{id}' belongs to a task reference, not a plugin step"
  | .plugin key _ => .ok (id, key, command.options.deferred)

def collectSteps (commands : List TaskCommand) : Except String (List (String × String × Bool)) :=
  (commands.filterMap fun command => command.options.id.map (·, command)).mapM fun step =>
    pluginStep step.1 step.2

/-- The loop over the outputs; `secrecy` holds the fields seen so far, the last one first. -/
def validateOutputs (steps : List (String × String × Bool)) :
    List ((String × String) × Bool) → List (String × OutputSelection) → Except String Unit
  | _, [] => .ok ()
  | secrecy, (name, output) :: rest =>
    let producers := (steps.filter fun step => step.1 = output.step).map Prod.snd
    if registry.isBlank name || registry.isBlank output.step || registry.isBlank output.field then
      .error "output names, steps, and fields must not be empty"
    else if producers = [] then
      .error s!"output '{name}' references unknown plugin step '{output.step}'"
    else if producers.any Prod.snd then
      .error s!"output '{name}' references deferred step '{output.step}'"
    else if producers.any fun producer =>
        output.field ∉ registry.requiredOutputFields producer.1 then
      .error (s!"output '{name}' references field '{output.field}' that is undeclared or " ++
        s!"optional on a producer of plugin step '{output.step}'")
    else if (secrecy.lookup (output.step, output.field)).any fun secret =>
        secret ≠ output.secret then
      .error (s!"plugin field '{output.step}.{output.field}' cannot be exported as both " ++
        "secret and public")
    else validateOutputs steps (((output.step, output.field), output.secret) :: secrecy) rest

def validateTaskContract (task : DeclaredTask) : Except String Unit := do
  registry.validateFiles task
  registry.validateCache task
  let steps ← collectSteps (task.cmds.getD [])
  registry.validateOutputs steps [] task.outputs

end PluginRegistry

/-! ## What acceptance says -/

section Accepted

variable {registry : PluginRegistry} {task : DeclaredTask}

variable {steps : List (String × String × Bool)}

theorem mem_collectSteps {commands : List TaskCommand}
    (h : PluginRegistry.collectSteps commands = .ok steps) {command : TaskCommand}
    (hmem : command ∈ commands) {id key v : String} (hid : command.options.id = some id)
    (hpl : command.payload = .plugin key v) : (id, key, command.options.deferred) ∈ steps := by
  obtain ⟨step, hs, ho⟩ := exists_of_mem_source h
    (mem_filterMap.mpr ⟨command, hmem, by rw [hid]; rfl⟩)
  rw [PluginRegistry.pluginStep, hpl] at ho
  rwa [Except.ok.inj ho]

/-- What the loop over the outputs establishes behind the fields in `secrecy`. -/
structure Checked (registry : PluginRegistry) (steps : List (String × String × Bool))
    (secrecy : List ((String × String) × Bool)) (outputs : List (String × OutputSelection)) :
    Prop where
  required : ∀ output ∈ outputs, ∀ step ∈ steps, step.1 = output.2.step →
    output.2.field ∈ registry.requiredOutputFields step.2.1
  agrees : ∀ output ∈ outputs, ∀ secret,
    secrecy.lookup (output.2.step, output.2.field) = some secret → secret = output.2.secret
  consistent : ∀ a ∈ outputs, ∀ b ∈ outputs,
    (a.2.step, a.2.field) = (b.2.step, b.2.field) → a.2.secret = b.2.secret

theorem checked_of_validateOutputs
    {secrecy : List ((String × String) × Bool)} {outputs : List (String × OutputSelection)}
    (h : registry.validateOutputs steps secrecy outputs = .ok ()) :
    Checked registry steps secrecy outputs := by
  induction outputs generalizing secrecy with
  | nil => exact ⟨nofun, nofun, nofun⟩
  | cons first rest ih =>
    obtain ⟨name, output⟩ := first
    unfold PluginRegistry.validateOutputs at h
    obtain ⟨-, h⟩ := ite_error_eq_ok h
    obtain ⟨-, h⟩ := ite_error_eq_ok h
    obtain ⟨-, h⟩ := ite_error_eq_ok h
    obtain ⟨hfi, h⟩ := ite_error_eq_ok h
    obtain ⟨hag, h⟩ := ite_error_eq_ok h
    have hr := ih h
    have hsa : ∀ other ∈ rest, (output.step, output.field) = (other.2.step, other.2.field) →
        output.secret = other.2.secret := by
      intro other hother he
      exact hr.agrees other hother _ (by rw [he, lookup_cons_self])
    refine ⟨?_, ?_, ?_⟩
    · intro other hother step hst hi
      obtain rfl | hother := mem_cons.mp hother
      · by_contra hm
        refine hfi (any_eq_true.mpr ⟨step.2, mem_map_of_mem ?_, ?_⟩)
        · exact mem_filter.mpr ⟨hst, decide_eq_true hi⟩
        · exact decide_eq_true hm
      · exact hr.required other hother step hst hi
    · have hf {sec : Bool} (h : secrecy.lookup (output.step, output.field) = some sec) :
          sec = output.secret := by
        by_contra hne
        rw [h] at hag
        exact hag (decide_eq_true hne)
      intro other hother sec hs
      obtain rfl | hother := mem_cons.mp hother
      · exact hf hs
      have hl := hr.agrees other hother
      by_cases hk : (other.2.step, other.2.field) = (output.step, output.field)
      · rw [hk] at hs
        exact (hf hs).trans (hsa other hother hk.symm)
      · rw [lookup_cons, beq_false_of_ne hk] at hl
        exact hl sec hs
    · intro a ha b hb he
      obtain rfl | ha := mem_cons.mp ha
      · obtain rfl | hb := mem_cons.mp hb
        · rfl
        · exact hsa b hb he
      obtain rfl | hb := mem_cons.mp hb
      · exact (hsa a ha he.symm).symm
      · exact hr.consistent a ha b hb he

end Accepted

/-! ## What a step exports -/

section Selected

variable {exports : List (String × StepExport)} {step step' : List (String × υ)}
  {task task' : TaskOutputs υ}

/-- The public result that is left for the exports after one of them. -/
def afterExport (stepExport : StepExport) (step : List (String × υ)) : List (String × υ) :=
  if stepExport.secret then step.filter fun field => field.1 ≠ stepExport.field else step

theorem lookup_afterExport (stepExport : StepExport) (field : String) :
    (afterExport stepExport step).lookup field =
      if stepExport.secret = true ∧ stepExport.field = field then none else step.lookup field := by
  unfold afterExport
  split
  · next hs => simp only [IndexMap.lookup_filter_ne, hs, true_and, eq_comm]
  · next hp => rw [if_neg (mt And.left hp)]

/-- A field that the exports find in the result is not removed by one of them. -/
theorem pairwise_of_selectExports {r : List (String × υ) × TaskOutputs υ}
    (h : selectExports exports step task = .ok r) :
    (∀ x ∈ exports, (step.lookup x.2.field).isSome) ∧
      exports.Pairwise fun a b => ¬(a.2.secret = true ∧ a.2.field = b.2.field) := by
  induction exports generalizing step task with
  | nil => exact ⟨nofun, .nil⟩
  | cons first rest ih =>
    unfold selectExports at h
    split at h
    · cases h
    next v hv =>
      obtain ⟨hfl, hp⟩ := ih h
      have hl : ∀ x ∈ rest, (step.lookup x.2.field).isSome ∧
          ¬(first.2.secret = true ∧ first.2.field = x.2.field) := by
        intro x hx
        have hf := hfl x hx
        change ((afterExport first.2 step).lookup x.2.field).isSome at hf
        rw [lookup_afterExport] at hf
        split at hf
        · cases hf
        · next hne => exact ⟨hf, hne⟩
      refine ⟨fun x hx => ?_, pairwise_cons.mpr ⟨fun x hx => (hl x hx).2, hp⟩⟩
      obtain rfl | hx := mem_cons.mp hx
      · rw [hv]
        rfl
      · exact (hl x hx).1

/-- The selection succeeds with every export and without the secret fields. -/
theorem selectExports_ok (hns : (exports.map Prod.fst).Nodup)
    (hfi : ∀ x ∈ exports, (step.lookup x.2.field).isSome)
    (hpa : exports.Pairwise fun a b => ¬(a.2.secret = true ∧ a.2.field = b.2.field)) :
    ∃ step' task', selectExports exports step task = .ok (step', task') ∧
      (∀ x ∈ exports, ∃ v, step.lookup x.2.field = some v ∧ ⟨x.1, v, x.2.secret⟩ ∈ task'.entries) ∧
      (∀ e ∈ task.entries, e.name ∉ exports.map Prod.fst → e ∈ task'.entries) ∧
      ∀ field, step.lookup field = none ∨ (∃ x ∈ exports, x.2.secret = true ∧ x.2.field = field) →
        step'.lookup field = none := by
  induction exports generalizing step task with
  | nil =>
    refine ⟨step, task, rfl, nofun, fun e he _ => he, ?_⟩
    rintro field (hno | ⟨x, hx, -⟩)
    · exact hno
    · cases hx
  | cons first rest ih =>
    obtain ⟨hf, hpa⟩ := pairwise_cons.mp hpa
    obtain ⟨hna, hns⟩ := nodup_cons.mp hns
    obtain ⟨v, hv⟩ := Option.isSome_iff_exists.mp (hfi first mem_cons_self)
    have hl : ∀ x ∈ rest, (afterExport first.2 step).lookup x.2.field = step.lookup x.2.field := by
      intro x hx
      rw [lookup_afterExport, if_neg (hf x hx)]
    obtain ⟨step', task', hsl, hex, hk, hh⟩ :=
      @ih (afterExport first.2 step) (task.insert ⟨first.1, v, first.2.secret⟩) hns
        (fun x hx => by rw [hl x hx]; exact hfi x (mem_cons_of_mem _ hx)) hpa
    refine ⟨step', task', ?_, ?_, ?_, ?_⟩
    · unfold selectExports
      rw [hv]
      exact hsl
    · intro x hx
      obtain rfl | hx := mem_cons.mp hx
      · exact ⟨v, hv, hk _ (TaskOutputs.mem_insert.mpr (.inl rfl)) hna⟩
      · rw [← hl x hx]
        exact hex x hx
    · intro e he hn
      rw [map_cons, mem_cons, not_or] at hn
      exact hk e (TaskOutputs.mem_insert.mpr (.inr ⟨he, hn.1⟩)) hn.2
    rintro field (hno | ⟨x, hx, hs⟩)
    · refine hh field (.inl ?_)
      rw [lookup_afterExport, hno, ite_self]
    obtain rfl | hx := mem_cons.mp hx
    · exact hh field (.inl (by rw [lookup_afterExport, if_pos hs]))
    · exact hh field (.inr ⟨x, hx, hs⟩)

end Selected

/-- The completed step exports the declared outputs, and shows no secret one. -/
structure Exported (task : OctafileTask) (step : String) (result : List (String × υ))
    (outputs : CompletionOutputs υ) : Prop where
  declared : ∀ output ∈ task.outputs, output.2.step = step →
    ∃ value, result.lookup output.2.field = some value ∧
      ⟨output.1, value, output.2.secret⟩ ∈ outputs.task.entries
  only : ∀ entry ∈ outputs.task.entries,
    ∃ output ∈ task.outputs, output.2.step = step ∧ output.1 = entry.name
  hidden : ∀ output ∈ task.outputs, output.2.step = step → output.2.secret = true →
    outputs.step.lookup output.2.field = none

def SecretFieldsApart (task : OctafileTask) (step : String) : Prop :=
  ((stepExports task (some step)).filter fun x => x.2.secret).Pairwise fun a b =>
    a.2.field ≠ b.2.field

theorem mem_stepExports_iff {task : OctafileTask} {step : String} {x : String × StepExport} :
    x ∈ stepExports task (some step) ↔ ∃ output ∈ task.outputs, output.2.step = step ∧
      (output.1, ⟨output.2.field, output.2.secret⟩) = x := by
  simp [stepExports, and_assoc]

theorem lookup_of_conforms {key field : String} {fields : List String}
    {schema : Option OutputSchema} {result : List (String × υ)}
    (hsc : requiredOutputFields key schema = .ok fields) (hrs : ∀ s ∈ schema, s.Conforms result)
    (hfi : field ∈ fields) : (result.lookup field).isSome := by
  unfold requiredOutputFields at hsc
  split at hsc
  · obtain rfl := Except.ok.inj hsc
    cases hfi
  next s =>
  obtain ⟨-, hsc⟩ := ite_error_eq_ok hsc
  obtain ⟨-, hsc⟩ := ite_error_eq_ok hsc
  obtain ⟨-, hsc⟩ := ite_error_eq_ok hsc
  split at hsc
  · cases hsc
  · obtain rfl := Except.ok.inj hsc
    exact hrs s rfl field (of_decide_eq_true (mem_filter.mp hfi).2)

/-- An accepted task exports its declared outputs exactly if no field is taken
twice as a secret: the first export removes it from the result. -/
theorem declared_outputs_exported_iff (registry : PluginRegistry) (task : DeclaredTask)
    (haccepted : registry.validateTaskContract task = .ok ()) (command : TaskCommand)
    (hcommand : command ∈ task.cmds.getD []) (step key value : String)
    (hid : command.options.id = some step) (hplugin : command.payload = .plugin key value)
    (schema : Option OutputSchema)
    (hschema : requiredOutputFields key schema = .ok (registry.requiredOutputFields key))
    (result : List (String × υ)) (hresult : ∀ s ∈ schema, s.Conforms result)
    (exports : List (String × StepExport))
    (hexports : exports.Perm (stepExports task.toOctafileTask (some step)))
    (artifacts : List RegisteredArtifact) (reports : List RegisteredReport) :
    (∃ outputs, completionOutputs exports result artifacts reports = .ok outputs ∧
      Exported task.toOctafileTask step result outputs) ↔
    SecretFieldsApart task.toOctafileTask step := by
  obtain ⟨-, -, h⟩ := bind_eq_ok haccepted
  obtain ⟨-, -, h⟩ := bind_eq_ok h
  obtain ⟨steps, hsteps, h⟩ := bind_eq_ok h
  have hchecked := checked_of_validateOutputs h
  have hproducer := mem_collectSteps hsteps hcommand hid hplugin
  have hsame : ∀ a ∈ exports, ∀ b ∈ exports, a.2.field = b.2.field → a.2.secret = b.2.secret := by
    intro a ha b hb hfield
    obtain ⟨a, hout, rfl, rfl⟩ := mem_stepExports_iff.mp (hexports.mem_iff.mp ha)
    obtain ⟨b, hout', hstep, rfl⟩ := mem_stepExports_iff.mp (hexports.mem_iff.mp hb)
    exact hchecked.consistent a hout b hout' (Prod.ext hstep.symm hfield)
  have hapart : (exports.Pairwise fun a b => ¬(a.2.secret = true ∧ a.2.field = b.2.field)) ↔
      SecretFieldsApart task.toOctafileTask step := by
    rw [SecretFieldsApart, ← ((hexports.filter _).pairwise_iff fun {a b} h => h.symm),
      pairwise_filter]
    constructor
    · exact List.Pairwise.imp fun h hsecret _ heq => h ⟨hsecret, heq⟩
    · exact List.Pairwise.imp_of_mem fun ha hb h hboth =>
        h hboth.1 ((hsame _ ha _ hb hboth.2).symm.trans hboth.1) hboth.2
  rw [← hapart]
  constructor
  · rintro ⟨outputs, hok, -⟩
    unfold completionOutputs at hok
    split at hok
    · cases hok
    · next hselect => exact (pairwise_of_selectExports hselect).2
  intro hpairs
  have hnames : (exports.map Prod.fst).Nodup := by
    rw [(hexports.map Prod.fst).nodup_iff, stepExports, map_map]
    exact task.outputs_distinct.sublist (filter_sublist.map _)
  have hfields : ∀ x ∈ exports, (result.lookup x.2.field).isSome := by
    intro x hx
    obtain ⟨output, hout, hstep, rfl⟩ := mem_stepExports_iff.mp (hexports.mem_iff.mp hx)
    exact lookup_of_conforms hschema hresult (hchecked.required output hout _ hproducer hstep.symm)
  obtain ⟨step', task', hselect, hexported, -, hhidden⟩ :=
    @selectExports_ok υ exports result .empty hnames hfields hpairs
  have hok : completionOutputs exports result artifacts reports =
      .ok ⟨step', task', artifacts, reports⟩ := by
    rw [completionOutputs, hselect]
  have hdeclared {output : String × OutputSelection} (hout : output ∈ task.outputs)
      (hstep : output.2.step = step) :=
    hexports.mem_iff.mpr (mem_stepExports_iff.mpr ⟨output, hout, hstep, rfl⟩)
  refine ⟨_, hok, fun output hout hstep => hexported _ (hdeclared hout hstep), ?_, ?_⟩
  · intro entry hentry
    obtain ⟨x, hx, hname⟩ := mem_map.mp (name_of_completionOutputs hok entry hentry)
    obtain ⟨output, hout, hstep, rfl⟩ := mem_stepExports_iff.mp (hexports.mem_iff.mp hx)
    exact ⟨output, hout, hstep, hname⟩
  · intro output hout hstep hsecret
    exact hhidden _ (.inr ⟨_, hdeclared hout hstep, hsecret, rfl⟩)

/-- A task whose outputs take the field `token` of its only step as a secret. -/
def secretTask (outputs : List String) (h : outputs.Nodup) : DeclaredTask where
  raw := none
  interactive := none
  ignoreError := none
  timeout := none
  run := none
  plugin := none
  cmds := some [⟨.plugin "login" "", ⟨some "run", true, false, none, none, none⟩⟩]
  outputs := outputs.map fun output => (output, ⟨"run", "token", true⟩)
  outputs_distinct := by simpa [Function.comp_def] using h
  watch := none
  files := none
  cache := none

def tokenSchema : OutputSchema :=
  ⟨true, some "object", some false, some ["token"], some [some "token"]⟩

def tokenRegistry : PluginRegistry := ⟨String.isEmpty, fun _ => ["token"]⟩

theorem declared_outputs_exported_once :
    ∃ outputs, completionOutputs [("a", ⟨"token", true⟩)] [("token", 7)] [] [] = .ok outputs ∧
      Exported (secretTask ["a"] (by decide)).toOctafileTask "run" [("token", 7)] outputs :=
  (declared_outputs_exported_iff tokenRegistry (secretTask ["a"] (by decide)) (by decide +kernel)
    _ mem_cons_self "run" "login" "" rfl rfl (some tokenSchema) (by decide +kernel) _
    (by rintro _ ⟨⟩; unfold OutputSchema.Conforms; decide) _ (.refl _) [] []).mpr
      (pairwise_singleton _ _)

/-- Two outputs take one field as a secret: the second one does not find it. -/
theorem secret_field_exported_twice :
    tokenRegistry.validateTaskContract (secretTask ["a", "b"] (by decide)) = .ok () ∧
      requiredOutputFields "login" (some tokenSchema) = .ok ["token"] ∧
      tokenSchema.Conforms [("token", 7)] ∧
      completionOutputs (stepExports (secretTask ["a", "b"] (by decide)).toOctafileTask
        (some "run")) [("token", 7)] [] [] = .error "token" :=
  ⟨by decide +kernel, by decide +kernel, by unfold OutputSchema.Conforms; decide, rfl⟩

end Octa.Task
