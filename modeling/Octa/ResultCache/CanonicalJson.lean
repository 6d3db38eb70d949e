import Octa.Foundation.Json
import Octa.Foundation.OrderedMap
import Mathlib.Data.String.Basic

/-!
# Canonical JSON

The settings of an action are hashed as JSON text with the fields of every object in the order of
their names.
-/

namespace Octa.ResultCache

open List Json Relation OrderedMap

def canonicalJson : Json String → Json String
  | .object fields =>
    .object (ofEntries (fields.map fun field => (field.1, canonicalJson field.2))).entries
  | .array items => .array (items.map canonicalJson)
  | value => value
decreasing_by
  · exact sizeOf_field_lt ‹_›
  · have := sizeOf_lt_of_mem ‹_ ∈ items›
    simp only [Json.array.sizeOf_spec]
    omega

section Digest

-- `serde_json::to_vec`, and the digest of its bytes
variable {β δ : Type} (toVec : Json String → β) (hash : β → δ)

/-- The bytes that `digestJson` hashes. -/
def hashedBytes (value : Json String) : β := toVec (canonicalJson value)

def digestJson (value : Json String) : δ := hash (hashedBytes toVec value)

end Digest

variable {a b : Json String} {fields flds' : List (String × Json String)}

def canonicalFields (fields : List (String × Json String)) : List (String × Json String) :=
  fields.map fun field => (field.1, canonicalJson field.2)

theorem canonicalFields_names (hnames : (fields.map Prod.fst).Nodup) :
    ((canonicalFields fields).map Prod.fst).Nodup := by
  simpa [canonicalFields, Function.comp_def] using hnames

theorem canonicalJson_object : canonicalJson (.object fields) =
    .object (ofEntries (canonicalFields fields)).entries := by
  rw [canonicalJson]
  rfl

theorem canonicalJson_of_reorders (h : Reorders a b) (ha : a.Names (· ≠ ·)) :
    canonicalJson a = canonicalJson b := by
  induction h with
  | here hp =>
    cases ha with
    | object hns hal =>
      have hns' := (hp.map Prod.fst).nodup_iff.mp hns
      rw [canonicalJson_object, canonicalJson_object]
      refine congrArg (fun m : OrderedMap _ _ => Json.object m.entries) (ext_mem fun field => ?_)
      rw [mem_ofEntries (canonicalFields_names hns), mem_ofEntries (canonicalFields_names hns')]
      exact (hp.map _).mem_iff
  | item before after h ih =>
    cases ha with
    | array hal =>
      rw [canonicalJson, canonicalJson, map_append, map_append, map_cons, map_cons,
        ih (hal _ (by simp))]
  | field before after name h ih =>
    cases ha with
    | object hns hal =>
      have hf := ih (hal (name, _) (by simp))
      rw [canonicalJson, canonicalJson, map_append, map_append, map_cons, map_cons, hf]

theorem canonicalJson_of_reflTransGen (h : ReflTransGen Reorders a b) (ha : a.Names (· ≠ ·)) :
    canonicalJson a = canonicalJson b := by
  induction h using ReflTransGen.head_induction_on with
  | refl => rfl
  | head hs _ ih => exact (canonicalJson_of_reorders hs ha).trans (ih (hs.distinct ha))

theorem canonicalJson_ordered (ha : a.Names (· ≠ ·)) : (canonicalJson a).Names (· < ·) := by
  induction ha with
  | array _ ih =>
    rw [canonicalJson]
    exact .array (forall_mem_map.mpr ih)
  | object hns _ ih =>
    rw [canonicalJson_object]
    refine .object (pairwise_map.mpr (ofEntries _).sorted) fun field hf => ?_
    rw [mem_ofEntries (canonicalFields_names hns)] at hf
    obtain ⟨field, hm, rfl⟩ := mem_map.mp hf
    exact ih field hm
  | _ =>
    rw [canonicalJson] <;> simp
    constructor

theorem canonicalJson_of_ordered (ha : a.Names (· < ·)) : canonicalJson a = a := by
  induction ha with
  | array _ ih => rw [canonicalJson, map_congr_left ih, map_id']
  | object hns _ ih =>
    rw [canonicalJson, map_congr_left fun field hf => congrArg (Prod.mk field.1) (ih field hf),
      map_id', ofEntries_of_sorted (pairwise_map.mp hns)]
  | _ => rw [canonicalJson] <;> simp

theorem reorders_canonicalJson (ha : a.Names (· ≠ ·)) :
    ReflTransGen Reorders a (canonicalJson a) := by
  induction ha with
  | array _ ih =>
    rw [canonicalJson]
    exact reflTransGen_map (fun before _ _ after => .item before after) ih []
  | @object fields hns _ ih =>
    have hf : ReflTransGen Reorders (.object fields) (.object (canonicalFields fields)) := by
      refine @reflTransGen_map _ _ (fun f g => f.1 = g.1 ∧ Reorders f.2 g.2) _ Json.object ?_ _ _
        ?_ []
      · rintro before ⟨name, a⟩ ⟨_, b⟩ after ⟨rfl, h⟩
        exact .field before after name h
      · intro field hfi
        exact (ih field hfi).lift (Prod.mk field.1) fun _ _ h => ⟨rfl, h⟩
    rw [canonicalJson_object]
    exact hf.tail (.here (perm_ofEntries (canonicalFields_names hns)))
  | _ => rw [canonicalJson] <;> simp

/-- Canonical JSON does not depend on the order of fields and is its own canonical form, and two
values have the same bytes exactly when they differ in the order of fields at most. -/
theorem canonicalJson_normal_form {β : Type} {toVec : Json String → β}
    (hinj : ∀ a b : Json String, a.Names (· < ·) → b.Names (· < ·) → toVec a = toVec b → a = b)
    {a b : Json String} (ha : a.Names (· ≠ ·)) (hb : b.Names (· ≠ ·)) :
    (ReflTransGen Reorders a b → canonicalJson a = canonicalJson b) ∧
      canonicalJson (canonicalJson a) = canonicalJson a ∧
      (hashedBytes toVec a = hashedBytes toVec b ↔ ReflTransGen Reorders a b) := by
  refine ⟨fun h => canonicalJson_of_reflTransGen h ha,
    canonicalJson_of_ordered (canonicalJson_ordered ha), fun h => ?_, fun h => ?_⟩
  · have he := hinj _ _ (canonicalJson_ordered ha) (canonicalJson_ordered hb) h
    have hba := ReflTransGen.stdSymm.symm _ _ (reorders_canonicalJson hb)
    rw [← he] at hba
    exact (reorders_canonicalJson ha).trans hba
  · exact congrArg toVec (canonicalJson_of_reflTransGen h ha)

theorem canonicalJson_normal_form_swap : hashedBytes id (.object [("b", .null), ("a", .null)]) =
      hashedBytes id (.object [("a", .null), ("b", .null)]) := by
  refine ((canonicalJson_normal_form (fun _ _ _ _ h => h) ?_ ?_).2.2.mpr
    (.single (.here (.swap _ _ []))))
  all_goals exact .object (by decide) (by simp [Names.null])

end Octa.ResultCache
