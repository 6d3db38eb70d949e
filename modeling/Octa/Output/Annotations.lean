import Octa.Foundation.NumberedNames

/-!
# Error annotations

An annotation is one line: named properties between commas, then the message.
Separators and line ends in the values are escaped.
-/

namespace Octa.Output

open List

structure SourceLocation where
  file : List Char
  line : Option ℕ
  column : Option ℕ

def replaceChar (old : Char) (new : String) (value : List Char) : List Char :=
  value.flatMap fun c => if c = old then new.toList else [c]

def escapeData (value : List Char) : List Char :=
  replaceChar '\n' "%0A" (replaceChar '\r' "%0D" (replaceChar '%' "%25" value))

def escapeProperty (value : List Char) : List Char :=
  replaceChar ',' "%2C" (replaceChar ':' "%3A" (escapeData value))

def digits (n : ℕ) : List Char := (toString n).toList

def pushProperty (text : List Char) (name : String) : Option (List Char) → List Char
  | some value => text ++ name.toList ++ value
  | none => text

def properties (title : List Char) (location : Option SourceLocation) : List Char :=
  let text := "title=".toList ++ escapeProperty title
  let text := pushProperty text ",file=" (location.map (escapeProperty ·.file))
  let text := pushProperty text ",line=" ((location.bind (·.line)).map digits)
  pushProperty text ",col=" ((location.bind (·.column)).map digits)

def writeAnnotation (title message : List Char) (location : Option SourceLocation) : List Char :=
  "::error ".toList ++ (properties title location ++ ':' :: ':' :: escapeData message ++ ['\n'])

/-! ## Reading a line back -/

/-- The properties that a line holds between its commas. -/
def fields (title : List Char) (location : Option SourceLocation) : List (List Char) :=
  ("title=".toList ++ escapeProperty title) ::
    ((location.map fun l => "file=".toList ++ escapeProperty l.file).toList ++
      ((location.bind (·.line)).map fun n => "line=".toList ++ digits n).toList ++
      ((location.bind (·.column)).map fun n => "col=".toList ++ digits n).toList)

def unescape : List Char → List Char
  | '%' :: '2' :: '5' :: rest => '%' :: unescape rest
  | '%' :: '0' :: 'D' :: rest => '\r' :: unescape rest
  | '%' :: '0' :: 'A' :: rest => '\n' :: unescape rest
  | '%' :: '3' :: 'A' :: rest => ':' :: unescape rest
  | '%' :: '2' :: 'C' :: rest => ',' :: unescape rest
  | c :: rest => c :: unescape rest
  | [] => []

theorem mem_replaceChar {old c : Char} {new : String} {value : List Char} :
    c ∈ replaceChar old new value ↔ old ∈ value ∧ c ∈ new.toList ∨ c ∈ value ∧ c ≠ old := by
  simp only [replaceChar, mem_flatMap]
  grind

theorem unescape_cons {c : Char} (h : c ≠ '%') (rest : List Char) :
    unescape (c :: rest) = c :: unescape rest := by
  rw [unescape] <;> simp [h]

/-- An escaping that works character by character is undone. -/
theorem unescape_escape {esc : List Char → List Char} (hnil : esc [] = [])
    (hcons : ∀ c value, esc (c :: value) = esc [c] ++ esc value)
    (hcode : ∀ c rest, unescape (esc [c] ++ rest) = c :: unescape rest) (value : List Char) :
    unescape (esc value) = value := by
  induction value with
  | nil => rw [hnil, unescape]
  | cons c value ih => rw [hcons, hcode, ih]

theorem unescape_escapeData (value : List Char) : unescape (escapeData value) = value := by
  refine unescape_escape rfl (by simp [escapeData, replaceChar]) (fun c rest => ?_) value
  by_cases h : c = '%' ∨ c = '\r' ∨ c = '\n'
  · rcases h with rfl | rfl | rfl <;> rfl
  simp only [not_or] at h
  simp [escapeData, replaceChar, h, unescape_cons]

theorem unescape_escapeProperty (value : List Char) : unescape (escapeProperty value) = value := by
  refine unescape_escape rfl (by simp [escapeProperty, escapeData, replaceChar])
    (fun c rest => ?_) value
  by_cases h : c = '%' ∨ c = '\r' ∨ c = '\n' ∨ c = ':' ∨ c = ','
  · rcases h with rfl | rfl | rfl | rfl | rfl <;> rfl
  simp only [not_or] at h
  simp [escapeProperty, escapeData, replaceChar, h, unescape_cons]

variable {title message : List Char} {loc : Option SourceLocation}

/-- The characters that values hold only escaped. -/
theorem notMem_value {c : Char} (hescaped : c = ',' ∨ c = ':' ∨ c = '\r' ∨ c = '\n') :
    (∀ value, c ∉ escapeProperty value) ∧ ∀ n, c ∉ digits n := by
  have hdigit : c.isDigit = false := by
    rcases hescaped with rfl | rfl | rfl | rfl <;> rfl
  refine ⟨?_, Numbering.notMem_toString hdigit⟩
  rcases hescaped with rfl | rfl | rfl | rfl <;> simp [escapeProperty, escapeData, mem_replaceChar]

theorem comma_notMem_field : ∀ field ∈ fields title loc, ',' ∉ field := by
  obtain ⟨hproperty, hdigits⟩ := @notMem_value ',' (.inl rfl)
  simp only [fields, mem_cons, mem_append, Option.mem_toList, Option.map_eq_some_iff]
  rintro field (rfl | (⟨_, -, rfl⟩ | ⟨_, -, rfl⟩) | ⟨_, -, rfl⟩) <;> simp [hproperty, hdigits]

theorem notMem_properties {c : Char} (hescaped : c = ':' ∨ c = '\r' ∨ c = '\n') :
    c ∉ properties title loc := by
  obtain ⟨hproperty, hdigits⟩ := notMem_value (.inr hescaped)
  rcases hescaped with rfl | rfl | rfl <;> rcases loc with _ | ⟨file, _ | line, _ | column⟩ <;>
    simp [properties, pushProperty, hproperty, hdigits]

theorem splitOn_properties : (properties title loc).splitOn ',' = fields title loc := by
  have hjoin : properties title loc = intercalate [','] (fields title loc) := by
    rcases loc with _ | ⟨file, _ | line, _ | column⟩ <;>
      simp [properties, pushProperty, fields, intercalate, intersperse]
  rw [hjoin]
  exact splitOn_intercalate _ comma_notMem_field (by simp [fields])

theorem fields_inj {title' : List Char} {loc' : Option SourceLocation}
    (h : fields title loc = fields title' loc') :
    title = title' ∧ loc = loc' := by
  have hproperty : Function.Injective escapeProperty :=
    Function.LeftInverse.injective unescape_escapeProperty
  have hdigits : Function.Injective digits := fun _ _ h =>
    Numbering.toString_injective (String.toList_injective h)
  simp only [fields, cons.injEq, append_cancel_left_eq] at h
  obtain ⟨htitle, h⟩ := h
  refine ⟨hproperty htitle, ?_⟩
  -- the names of the properties tell which of them are there
  rcases loc with _ | ⟨file, line, column⟩ <;>
    rcases loc' with _ | ⟨file', line', column'⟩ <;> simp at h ⊢
  rcases line with _ | line <;> rcases line' with _ | line' <;> rcases column with _ | column <;>
    rcases column' with _ | column' <;> simp_all [hproperty.eq_iff, hdigits.eq_iff]

theorem append_colon_inj {a b u v : List Char} (hleft : ':' ∉ a) (hright : ':' ∉ b)
    (h : a ++ ':' :: u = b ++ ':' :: v) : a = b ∧ u = v := by
  have hreverse := congrArg reverse h
  simp only [reverse_append, reverse_cons, append_assoc, singleton_append] at hreverse
  obtain ⟨hu, ha⟩ := Numbering.append_cons_inj (by simpa using hleft) (by simpa using hright)
    hreverse
  exact ⟨reverse_injective ha, reverse_injective hu⟩

theorem writeAnnotation_inj {title' message' : List Char} {loc' : Option SourceLocation}
    (h : writeAnnotation title message loc = writeAnnotation title' message' loc') :
    title = title' ∧ message = message' ∧ loc = loc' := by
  have h := append_cancel_left h
  rw [append_assoc, append_assoc] at h
  obtain ⟨hproperties, hrest⟩ := append_colon_inj (notMem_properties (.inl rfl))
    (notMem_properties (.inl rfl)) h
  have hfields := congrArg (splitOn ',') hproperties
  rw [splitOn_properties, splitOn_properties] at hfields
  obtain ⟨htitle, hlocation⟩ := fields_inj hfields
  have hmessage := congrArg unescape (append_cancel_right (cons.inj hrest).2)
  rw [unescape_escapeData, unescape_escapeData] at hmessage
  exact ⟨htitle, hmessage, hlocation⟩

/-- An annotation is a single line whose separators are its own and which determines what was
annotated. -/
theorem annotation_unforgeable :
    (∀ title message loc, ∃ line, writeAnnotation title message loc = line ++ ['\n'] ∧
      '\n' ∉ line ∧ '\r' ∉ line) ∧
    (∀ title loc, ':' ∉ properties title loc ∧
      (properties title loc).splitOn ',' = fields title loc) ∧
    ∀ title message loc title' message' loc',
      writeAnnotation title message loc = writeAnnotation title' message' loc' →
        title = title' ∧ message = message' ∧ loc = loc' := by
  refine ⟨fun title message loc => ?_, fun _ _ => ⟨notMem_properties (.inl rfl),
    splitOn_properties⟩, fun _ _ _ _ _ _ => writeAnnotation_inj⟩
  have hfeed : '\n' ∉ properties title loc := notMem_properties (by decide)
  have hreturn : '\r' ∉ properties title loc := notMem_properties (by decide)
  refine ⟨_, (append_assoc ..).symm, ?_, ?_⟩ <;> simp [hfeed, hreturn, escapeData, mem_replaceChar]

end Octa.Output
