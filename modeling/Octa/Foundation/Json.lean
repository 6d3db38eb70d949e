import Mathlib.Data.List.Perm.Basic

/-!
# JSON values

The fields of an object are listed in the order in which they are visited.
-/

/-- A JSON value over texts of type `σ`; a number is its text. -/
inductive Json (σ : Type) where
  | null
  | bool (value : Bool)
  | number (text : σ)
  | string (text : σ)
  | array (items : List (Json σ))
  | object (fields : List (σ × Json σ))

namespace Json

open List Relation

variable {σ : Type} {a b : Json σ}

@[elab_as_elim]
theorem induction {motive : Json σ → Prop} (null : motive .null) (bool : ∀ b, motive (.bool b))
    (number : ∀ text, motive (.number text)) (string : ∀ text, motive (.string text))
    (array : ∀ items, (∀ item ∈ items, motive item) → motive (.array items))
    (object : ∀ fields, (∀ field ∈ fields, motive field.2) → motive (.object fields))
    (value : Json σ) : motive value :=
  @Json.rec σ motive (fun items => ∀ item ∈ items, motive item)
    (fun fields => ∀ field ∈ fields, motive field.2) (fun field => motive field.2)
    null bool number string array object (forall_mem_nil _)
    (fun _ _ h ih => forall_mem_cons.mpr ⟨h, ih⟩) (forall_mem_nil _)
    (fun _ _ h ih => forall_mem_cons.mpr ⟨h, ih⟩) (fun _ _ h => h) value

theorem sizeOf_field_lt [SizeOf σ] {field : σ × Json σ} {fields : List (σ × Json σ)}
    (h : field ∈ fields) : sizeOf field.2 < sizeOf (object fields) := by
  have hm := sizeOf_lt_of_mem h
  obtain ⟨name, v⟩ := field
  simp only [Prod.mk.sizeOf_spec, object.sizeOf_spec] at hm ⊢
  omega

/-- In every object the names of two fields, in their order, are related by `r`. -/
inductive Names (r : σ → σ → Prop) : Json σ → Prop
  | null : Names r .null
  | bool (value : Bool) : Names r (.bool value)
  | number (text : σ) : Names r (.number text)
  | string (text : σ) : Names r (.string text)
  | array {items : List (Json σ)} : (∀ item ∈ items, Names r item) → Names r (.array items)
  | object {fields : List (σ × Json σ)} : (fields.map Prod.fst).Pairwise r →
      (∀ field ∈ fields, Names r field.2) → Names r (.object fields)

/-- One object, at any depth, lists its fields in another order. -/
inductive Reorders : Json σ → Json σ → Prop
  | here {fields fields' : List (σ × Json σ)} : fields.Perm fields' →
      Reorders (.object fields) (.object fields')
  | item {a b : Json σ} (before after : List (Json σ)) : Reorders a b →
      Reorders (.array (before ++ a :: after)) (.array (before ++ b :: after))
  | field {a b : Json σ} (before after : List (σ × Json σ)) (name : σ) : Reorders a b →
      Reorders (.object (before ++ (name, a) :: after)) (.object (before ++ (name, b) :: after))

theorem Reorders.symm (h : Reorders a b) : Reorders b a := by
  induction h with
  | here h => exact .here h.symm
  | item before after _ ih => exact .item before after ih
  | field before after name _ ih => exact .field before after name ih

instance : Std.Symm (@Reorders σ) := ⟨fun _ _ => Reorders.symm⟩

theorem Reorders.distinct (h : Reorders a b) (ha : a.Names (· ≠ ·)) : b.Names (· ≠ ·) := by
  induction h with
  | here hp =>
    cases ha with
    | object hns hal =>
      exact .object ((hp.map Prod.fst).nodup_iff.mp hns) fun field hf =>
        hal field (hp.mem_iff.mpr hf)
  | item before after h ih =>
    cases ha with
    | array hal =>
      rw [forall_mem_append, forall_mem_cons] at hal
      refine .array ?_
      rw [forall_mem_append, forall_mem_cons]
      exact ⟨hal.1, ih hal.2.1, hal.2.2⟩
  | field before after name h ih =>
    cases ha with
    | object hns hal =>
      rw [forall_mem_append, forall_mem_cons] at hal
      refine .object (by simpa using hns) ?_
      rw [forall_mem_append, forall_mem_cons]
      exact ⟨hal.1, ih hal.2.1, hal.2.2⟩

/-- The members of a list may be replaced one after the other. -/
theorem reflTransGen_map {α β : Type} {R : α → α → Prop} {S : β → β → Prop} {wrap : List α → β}
    (hwrap : ∀ before a b after, R a b → S (wrap (before ++ a :: after))
      (wrap (before ++ b :: after)))
    {f : α → α} {l : List α} (h : ∀ a ∈ l, ReflTransGen R a (f a)) (before : List α) :
    ReflTransGen S (wrap (before ++ l)) (wrap (before ++ l.map f)) := by
  induction l generalizing before with
  | nil => exact .refl
  | cons a l ih =>
    have hf : ReflTransGen S (wrap (before ++ a :: l)) (wrap (before ++ f a :: l)) :=
      (h a mem_cons_self).lift (fun x => wrap (before ++ x :: l)) fun _ _ => hwrap before _ _ l
    have hr := ih (fun x hx => h x (mem_cons_of_mem a hx)) (before ++ [f a])
    rw [append_assoc, append_assoc] at hr
    exact hf.trans hr

end Json
