import Octa.Foundation.Fallible
import Octa.Foundation.Json
import Octa.Foundation.OrderedMap
import Octa.Output.Redaction
import Mathlib.Data.String.Basic

/-!
# Sanitised records

Harness events are sanitised before they are written: the names of object fields as well as the
texts of scalars.
-/

namespace Octa.Codex

open List Json Fallible Octa.Output

abbrev Value := Json (List Char)

abbrev Fields := OrderedMap (List Char) Value

inductive SanitizationError where
  | keyCollision
  deriving DecidableEq

structure RunSanitizer where
  redactions : List Redaction
  isAlphanumeric : Char → Bool

def boolText (value : Bool) : List Char := (toString value).toList

namespace RunSanitizer

variable (sanitizer : RunSanitizer)

def sanitizeText (text : List Char) : List Char :=
  redact sanitizer.isAlphanumeric text sanitizer.redactions

/-- A number or boolean becomes a string when its own text changes. -/
def sanitizeScalar (value : Value) (original : List Char) : Value :=
  let sanitized := sanitizer.sanitizeText original
  if sanitized = original then value else .string sanitized

mutual

def sanitizeValueInPlace : Value → Except SanitizationError Value
  | .null => .ok .null
  | .bool value => .ok (sanitizer.sanitizeScalar (.bool value) (boolText value))
  | .number text => .ok (sanitizer.sanitizeScalar (.number text) text)
  | .string text => .ok (.string (sanitizer.sanitizeText text))
  | .array items => do return .array (← sanitizeItems items)
  | .object fields => do return .object (← sanitizeObject .empty fields).entries

def sanitizeItems : List Value → Except SanitizationError (List Value)
  | [] => .ok []
  | value :: rest => do
    let value ← sanitizeValueInPlace value
    return value :: (← sanitizeItems rest)

def sanitizeObject (values : Fields) : List (List Char × Value) → Except SanitizationError Fields
  | [] => .ok values
  | (name, value) :: rest => do
    let value ← sanitizeValueInPlace value
    let name := sanitizer.sanitizeText name
    if values.contains name then .error .keyCollision
    else sanitizeObject (values.insert name value) rest

end

def sanitizeValue (value : Value) : Except SanitizationError Value :=
  if sanitizer.redactions.isEmpty then .ok value else sanitizer.sanitizeValueInPlace value

end RunSanitizer

/-- The texts that a value shows: those of its leaves and the names of its fields. -/
inductive Shows : Value → List Char → Prop
  | bool (value : Bool) : Shows (.bool value) (boolText value)
  | number (text : List Char) : Shows (.number text) text
  | string (text : List Char) : Shows (.string text) text
  | item {items : List Value} {item : Value} {text : List Char} : item ∈ items → Shows item text →
      Shows (.array items) text
  | name {fields : List (List Char × Value)} {field : List Char × Value} : field ∈ fields →
      Shows (.object fields) field.1
  | field {fields : List (List Char × Value)} {field : List Char × Value} {text : List Char} :
      field ∈ fields → Shows field.2 text → Shows (.object fields) text

namespace RunSanitizer

variable {sanitizer : RunSanitizer} {value : Value} {items : List Value}
variable {fields : List (List Char × Value)} {m : Fields}

/-- Every text of a value is clean, and the fields of its objects are in order. -/
structure Clean (sanitizer : RunSanitizer) (value : Value) : Prop where
  ordered : value.Names (· < ·)
  texts : ∀ text, Shows value text → sanitizer.sanitizeText text = text

/-- The names of two fields stay apart. -/
abbrev Apart (sanitizer : RunSanitizer) (name other : List Char) : Prop :=
  sanitizer.sanitizeText name ≠ sanitizer.sanitizeText other

def CleanField (sanitizer : RunSanitizer) (field : List Char × Value) : Prop :=
  sanitizer.sanitizeText field.1 = field.1 ∧ sanitizer.Clean field.2

theorem Clean.array (h : ∀ item ∈ items, sanitizer.Clean item) :
    sanitizer.Clean (.array items) where
  ordered := .array fun item hitem => (h item hitem).ordered
  texts text htext := by
    cases htext with
    | item hitem hs => exact (h _ hitem).texts text hs

theorem Clean.object (h : ∀ field ∈ m.entries, sanitizer.CleanField field) :
    sanitizer.Clean (.object m.entries) where
  ordered := .object (pairwise_map.mpr m.sorted) fun field hfield => (h field hfield).2.ordered
  texts text htext := by
    cases htext with
    | name hfield => exact (h _ hfield).1
    | field hfield hs => exact (h _ hfield).2.texts text hs

/-- Sanitising a value gives a clean one, and succeeds while the names of its fields stay apart. -/
structure Runs (sanitizer : RunSanitizer) (value : Value) : Prop where
  clean : ∀ {result}, sanitizer.sanitizeValueInPlace value = .ok result → sanitizer.Clean result
  succeeds : value.Names sanitizer.Apart →
    ∃ result, sanitizer.sanitizeValueInPlace value = .ok result

theorem sanitizeItems_runs (h : ∀ item ∈ items, sanitizer.Runs item) :
    (∀ result, sanitizer.sanitizeItems items = .ok result → ∀ item ∈ result, sanitizer.Clean item) ∧
      ((∀ item ∈ items, item.Names sanitizer.Apart) →
        ∃ result, sanitizer.sanitizeItems items = .ok result) := by
  induction items with
  | nil => simp [sanitizeItems]
  | cons item items ih =>
    rw [forall_mem_cons] at h
    obtain ⟨hc, hs⟩ := ih h.2
    constructor
    · intro result hok
      obtain ⟨first, hf, hok⟩ := bind_eq_ok hok
      obtain ⟨rest, hr, hok⟩ := bind_eq_ok hok
      cases hok
      exact forall_mem_cons.mpr ⟨h.1.clean hf, hc rest hr⟩
    intro hn
    rw [forall_mem_cons] at hn
    obtain ⟨first, hf⟩ := h.1.succeeds hn.1
    obtain ⟨rest, hr⟩ := hs hn.2
    exact ⟨first :: rest, by rw [sanitizeItems, hf, hr]; rfl⟩

section Idempotent

variable (hidem : ∀ text, sanitizer.sanitizeText (sanitizer.sanitizeText text) =
  sanitizer.sanitizeText text)
include hidem

theorem sanitizeObject_runs (h : ∀ field ∈ fields, sanitizer.Runs field.2)
    (hm : ∀ field ∈ m.entries, sanitizer.CleanField field) :
    (∀ result, sanitizer.sanitizeObject m fields = .ok result →
      ∀ field ∈ result.entries, sanitizer.CleanField field) ∧
    ((fields.map Prod.fst).Pairwise sanitizer.Apart →
      (∀ field ∈ fields, field.2.Names sanitizer.Apart) →
      (∀ field ∈ fields, ¬m.contains (sanitizer.sanitizeText field.1)) →
      ∃ result, sanitizer.sanitizeObject m fields = .ok result) := by
  induction fields generalizing m with
  | nil => simpa [sanitizeObject] using hm
  | cons field fields ih =>
    obtain ⟨name, value⟩ := field
    rw [forall_mem_cons] at h
    have hi : ∀ first, sanitizer.sanitizeValueInPlace value = .ok first →
        ∀ field ∈ (m.insert (sanitizer.sanitizeText name) first).entries,
          sanitizer.CleanField field := by
      intro first hf field hfield
      rcases OrderedMap.mem_insert.mp hfield with rfl | ⟨hfield, -⟩
      · exact ⟨hidem name, h.1.clean hf⟩
      · exact hm field hfield
    constructor
    · intro result hok
      obtain ⟨first, hf, hok⟩ := bind_eq_ok hok
      exact (ih h.2 (hi first hf)).1 result (ite_error_eq_ok hok).2
    intro hp hn hk
    rw [map_cons, pairwise_cons] at hp
    rw [forall_mem_cons] at hn hk
    obtain ⟨first, hf⟩ := h.1.succeeds hn.1
    obtain ⟨result, hr⟩ := (ih h.2 (hi first hf)).2 hp.2 hn.2 fun field hfield hmem => by
      rcases OrderedMap.contains_insert.mp hmem with heq | hmem
      · exact hp.1 _ (mem_map_of_mem hfield) heq.symm
      · exact hk.2 field hfield hmem
    refine ⟨result, ?_⟩
    rw [sanitizeObject, hf, ← hr]
    exact if_neg hk.1

theorem sanitizeScalar_clean {orig : List Char} (hn : value.Names (· < ·))
    (hs : ∀ text, Shows value text → text = orig) :
    sanitizer.Clean (sanitizer.sanitizeScalar value orig) := by
  rw [sanitizeScalar]
  split
  · next heq => exact ⟨hn, fun text h => by rw [hs text h, heq]⟩
  refine ⟨.string _, fun text h => ?_⟩
  cases h
  exact hidem orig

theorem runs (value : Value) : sanitizer.Runs value := by
  induction value using Json.induction with
  | null => exact ⟨fun h => by cases h; exact ⟨.null, fun _ h => by cases h⟩, fun _ => ⟨_, rfl⟩⟩
  | bool b =>
    refine ⟨fun h => ?_, fun _ => ⟨_, rfl⟩⟩
    cases h
    exact sanitizeScalar_clean hidem (.bool b) fun text h => by cases h; rfl
  | number text =>
    refine ⟨fun h => ?_, fun _ => ⟨_, rfl⟩⟩
    cases h
    exact sanitizeScalar_clean hidem (.number text) fun text h => by cases h; rfl
  | string text =>
    refine ⟨fun h => ?_, fun _ => ⟨_, rfl⟩⟩
    cases h
    exact ⟨.string _, fun text h => by cases h; exact hidem _⟩
  | array items ih =>
    obtain ⟨hc, hs⟩ := sanitizeItems_runs ih
    constructor
    · intro result h
      obtain ⟨items', hi, h⟩ := bind_eq_ok h
      cases h
      exact .array (hc items' hi)
    rintro (_ | _ | _ | _ | hn)
    obtain ⟨items', hi⟩ := hs hn
    exact ⟨.array items', by rw [sanitizeValueInPlace, hi]; rfl⟩
  | object fields ih =>
    obtain ⟨hc, hs⟩ := @sanitizeObject_runs _ fields .empty hidem ih (by simp [OrderedMap.empty])
    constructor
    · intro result h
      obtain ⟨m, hm, h⟩ := bind_eq_ok h
      cases h
      exact .object (hc m hm)
    rintro (_ | _ | _ | _ | _ | ⟨hp, hn⟩)
    obtain ⟨m, hm⟩ := hs hp hn fun _ _ => Bool.false_ne_true
    exact ⟨.object m.entries, by rw [sanitizeValueInPlace, hm]; rfl⟩

end Idempotent

theorem sanitizeItems_fixed (h : ∀ item ∈ items, sanitizer.sanitizeValueInPlace item = .ok item) :
    sanitizer.sanitizeItems items = .ok items := by
  induction items with
  | nil => rfl
  | cons item items ih =>
    rw [forall_mem_cons] at h
    rw [sanitizeItems, h.1, ih h.2]
    rfl

theorem sanitizeObject_fixed (h : ∀ field ∈ fields, sanitizer.sanitizeText field.1 = field.1 ∧
      sanitizer.sanitizeValueInPlace field.2 = .ok field.2) (hn : (fields.map Prod.fst).Nodup)
    (hk : ∀ field ∈ fields, ¬m.contains field.1) : sanitizer.sanitizeObject m fields =
      .ok (fields.foldl (fun m field => m.insert field.1 field.2) m) := by
  induction fields generalizing m with
  | nil => rfl
  | cons field fields ih =>
    rw [map_cons, nodup_cons] at hn
    rw [forall_mem_cons] at h hk
    rw [sanitizeObject, h.1.2, foldl_cons, ← ih h.2 hn.2 fun other ho hmem => ?_]
    · rw [h.1.1]
      exact if_neg hk.1
    rcases OrderedMap.contains_insert.mp hmem with heq | hmem
    · exact hn.1 (heq ▸ mem_map_of_mem ho)
    · exact hk.2 other ho hmem

theorem Clean.fixed (h : sanitizer.Clean value) :
    sanitizer.sanitizeValueInPlace value = .ok value := by
  induction value using Json.induction with
  | null => rfl
  | bool b => rw [sanitizeValueInPlace, sanitizeScalar, if_pos (h.texts _ (.bool b))]
  | number text => rw [sanitizeValueInPlace, sanitizeScalar, if_pos (h.texts _ (.number text))]
  | string text => rw [sanitizeValueInPlace, h.texts _ (.string text)]
  | array items ih =>
    cases h.ordered with
    | array ho =>
      rw [sanitizeValueInPlace, sanitizeItems_fixed fun item hitem => ih item hitem
        ⟨ho item hitem, fun text ht => h.texts text (.item hitem ht)⟩]
      rfl
  | object fields ih =>
    cases h.ordered with
    | object hp ho =>
      rw [sanitizeValueInPlace, sanitizeObject_fixed (fun field hf => ⟨h.texts _ (.name hf),
          ih field hf ⟨ho field hf, fun text ht => h.texts text (.field hf ht)⟩⟩)
        (hp.imp fun hlt => hlt.ne) (by exact fun _ _ => Bool.false_ne_true)]
      exact congrArg (fun m : Fields => Except.ok (Json.object m.entries))
        (OrderedMap.ofEntries_of_sorted (pairwise_map.mp hp))

section

variable (hplain : ∀ secret ∈ sanitizer.redactions, secret.Plain)
include hplain

theorem not_infix_sanitizeText
    {secret : Redaction} (hs : secret ∈ sanitizer.redactions) (text : List Char) :
    ¬secret.value <:+: sanitizer.sanitizeText text := by
  rw [sanitizeText, redact_eq_replaceEach fun secret hs => (hplain secret hs).substring]
  exact Masking.not_infix_replaceEach 4 nil_notMem_orderedValues
    (mem_orderedValues.mpr ⟨(hplain secret hs).ne_nil, secret, hs, rfl⟩)
    (hplain secret hs).star_notMem text

theorem sanitizeText_idem
    (text : List Char) :
    sanitizer.sanitizeText (sanitizer.sanitizeText text) = sanitizer.sanitizeText text := by
  conv_lhs => rw [sanitizeText, redact_eq_replaceEach fun secret hs => (hplain secret hs).substring]
  refine Masking.replaceEach_eq_self _ fun nd hmem => ?_
  obtain ⟨-, secret, hs, rfl⟩ := mem_orderedValues.mp hmem
  exact not_infix_sanitizeText hplain hs text

end

/-- A sanitised value shows no secret and is left as it is when it is sanitised again, and
sanitising fails only when the names of two fields of an object become equal. -/
theorem sanitized_hides_secrets (hplain : ∀ secret ∈ sanitizer.redactions, secret.Plain)
    (value : Value) :
    (∀ result, sanitizer.sanitizeValue value = .ok result →
      (∀ text, Shows result text → ∀ secret ∈ sanitizer.redactions, ¬secret.value <:+: text) ∧
        sanitizer.sanitizeValue result = .ok result) ∧
    ∀ error, sanitizer.sanitizeValue value = .error error → ¬value.Names sanitizer.Apart := by
  have hruns := runs (sanitizeText_idem hplain) value
  unfold sanitizeValue
  split
  · next hnone =>
    rw [isEmpty_iff.mp hnone]
    exact ⟨fun result _ => ⟨fun _ _ secret hs => absurd hs not_mem_nil, rfl⟩,
      fun error h => by cases h⟩
  constructor
  · intro result h
    have hclean := hruns.clean h
    refine ⟨fun text ht secret hs => ?_, hclean.fixed⟩
    rw [← hclean.texts text ht]
    exact not_infix_sanitizeText hplain hs text
  intro error h hn
  obtain ⟨result, hok⟩ := hruns.succeeds hn
  rw [h] at hok
  cases hok

theorem sanitized_hides_secrets_number :
    ∃ result, RunSanitizer.sanitizeValue ⟨[⟨['4', '2'], .substring⟩], Char.isAlphanum⟩
        (.array [.number ['1', '4', '2']]) = .ok result ∧
      ∀ text, Shows result text → ¬['4', '2'] <:+: text := by
  have hok := (@sanitized_hides_secrets ⟨[⟨['4', '2'], .substring⟩], Char.isAlphanum⟩
    (by simpa using ⟨rfl, by simp, by decide⟩) (.array [.number ['1', '4', '2']])).1 _ rfl
  exact ⟨_, rfl, fun text ht => hok.1 text ht _ mem_cons_self⟩

end RunSanitizer

end Octa.Codex
