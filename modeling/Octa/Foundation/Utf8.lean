import Mathlib.Data.List.Infix

/-!
# Texts and their UTF-8 bytes

The UTF-8 form of a text occurs in the bytes of another text only where the text
itself occurs: no character's form begins with a byte from the middle of a form.
-/

namespace Utf8

open List

def encode (text : List Char) : List UInt8 :=
  text.flatMap String.utf8EncodeChar

variable {text piece : List Char}

@[simp] theorem encode_nil : encode [] = [] := rfl

@[simp] theorem encode_cons (c : Char) (text : List Char) :
    encode (c :: text) = String.utf8EncodeChar c ++ encode text :=
  rfl

@[simp] theorem encode_append (text rest : List Char) :
    encode (text ++ rest) = encode text ++ encode rest :=
  flatMap_append

theorem encode_eq_nil : encode text = [] ↔ text = [] := by
  constructor
  · intro h
    cases text with
    | nil => rfl
    | cons c text => exact absurd (append_eq_nil_iff.mp h).1 String.utf8EncodeChar_ne_nil
  · intro h
    rw [h, encode_nil]

theorem eq_of_encodeChar_append {b c : Char} {xs ys : List UInt8}
    (h : String.utf8EncodeChar b ++ xs = String.utf8EncodeChar c ++ ys) : b = c := by
  have hb := congrArg (fun bytes => bytes.toByteArray.utf8DecodeChar? 0) h
  simp only [toByteArray_append, ByteArray.utf8DecodeChar?_utf8EncodeChar_append] at hb
  exact Option.some.inj hb

theorem prefix_of_encoded (h : encode piece <+: encode text) : piece <+: text := by
  induction piece generalizing text with
  | nil => exact nil_prefix
  | cons b piece ih =>
    cases text with
    | nil => exact absurd (encode_eq_nil.mp (prefix_nil.mp h)) (cons_ne_nil b piece)
    | cons c text =>
      obtain ⟨rest, hr⟩ := h
      rw [encode_cons, encode_cons, append_assoc] at hr
      obtain rfl := eq_of_encodeChar_append hr
      rw [append_cancel_left_eq] at hr
      exact cons_prefix_cons.mpr ⟨rfl, ih ⟨rest, hr⟩⟩

theorem encodeChar_length_le {b c : Char} {front rest tail : List UInt8} (hfr : front ≠ [])
    (h : front ++ (String.utf8EncodeChar b ++ rest) = String.utf8EncodeChar c ++ tail) :
    (String.utf8EncodeChar c).length ≤ front.length := by
  by_contra hl
  rw [not_le] at hl
  have hp : 0 < (String.utf8EncodeChar b).length := length_pos_iff.mpr String.utf8EncodeChar_ne_nil
  have hb : (String.utf8EncodeChar c)[front.length] = (String.utf8EncodeChar b)[0] := by
    have hg := congrArg (fun bytes => bytes[front.length]?) h
    simp only [List.getElem?_append_right le_rfl, Nat.sub_self, List.getElem?_append_left hp,
      List.getElem?_append_left hl, List.getElem?_eq_getElem hp,
      List.getElem?_eq_getElem hl] at hg
    exact (Option.some.inj hg).symm
  have hf : (String.utf8EncodeChar c)[front.length].IsUTF8FirstByte := by
    rw [hb]
    exact UInt8.isUTF8FirstByte_getElem_zero_utf8EncodeChar
  rw [UInt8.isUTF8FirstByte_getElem_utf8EncodeChar, length_eq_zero_iff] at hf
  exact hfr hf

theorem infix_of_encoded (h : encode piece <:+: encode text) : piece <:+: text := by
  cases piece with
  | nil => exact nil_infix
  | cons b piece =>
    induction text with
    | nil => exact absurd (encode_eq_nil.mp (infix_nil.mp h)) (cons_ne_nil b piece)
    | cons c text ih =>
      obtain ⟨front, back, h⟩ := h
      by_cases hf : front = []
      · rw [hf, nil_append] at h
        exact (prefix_of_encoded ⟨back, h⟩).isInfix
      rw [encode_cons, append_assoc, append_assoc, encode_cons] at h
      have hl := encodeChar_length_le hf h
      -- the occurrence starts behind the first character
      obtain ⟨front', rfl⟩ : String.utf8EncodeChar c <+: front :=
        prefix_of_prefix_length_le (prefix_append _ _) (h ▸ prefix_append front _) hl
      rw [append_assoc, append_cancel_left_eq, ← append_assoc _ _ back] at h
      have ht := ih ⟨front', back, by rw [encode_cons, append_assoc, h]⟩
      exact ht.trans (suffix_cons c text).isInfix

theorem infix_encoded (h : piece <:+: text) : encode piece <:+: encode text := by
  obtain ⟨front, back, rfl⟩ := h
  exact ⟨encode front, encode back, by simp⟩

end Utf8
