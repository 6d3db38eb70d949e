import Octa.Foundation.Masking
import Octa.Foundation.Utf8
import Mathlib.Data.List.Sort

/-!
# Secret values and their replacement in texts

A redaction is one resolved secret value with its matching rule: a string secret
is replaced wherever it occurs, a number or boolean only as a token of its own.
-/

namespace Octa.Output

open Masking List

inductive RedactionMatch where
  | substring
  | token
  deriving DecidableEq

structure Redaction where
  value : List Char
  matchKind : RedactionMatch
  deriving DecidableEq

abbrev Bytes := List UInt8

def Redaction.asBytes (redaction : Redaction) : Bytes :=
  Utf8.encode redaction.value

structure Redaction.Plain (redaction : Redaction) : Prop where
  substring : redaction.matchKind = .substring
  ne_nil : redaction.value ≠ []
  star_notMem : '*' ∉ redaction.value

def redactionMarker : List Char := List.replicate 5 '*'

def redactionMarkerBytes : Bytes := List.replicate 5 42

section Text

/-! ### Messages and lines -/

-- `char::is_alphanumeric`, which follows the Unicode tables
variable (isAlphanumeric : Char → Bool)

def isTokenCharacter (character : Char) : Bool :=
  isAlphanumeric character || character == '_'

def tokenBoundary (character : Option Char) : Bool :=
  character.all fun character => !isTokenCharacter isAlphanumeric character

/-- The search of `replaceToken` after the character `previous`; the number counts the
characters of the last match that are already written. -/
def replaceTokenFrom (secret : List Char) : ℕ → Option Char → List Char → List Char
  | _, _, [] => []
  | k + 1, _, a :: message => replaceTokenFrom secret k (some a) message
  | 0, previous, a :: message =>
    if secret.isPrefixOf (a :: message) then
      (if tokenBoundary isAlphanumeric previous &&
          tokenBoundary isAlphanumeric ((a :: message).drop secret.length).head? then
        redactionMarker
      else
        secret) ++ replaceTokenFrom secret (secret.length - 1) (some a) message
    else
      a :: replaceTokenFrom secret 0 (some a) message

def replaceToken (message secret : List Char) : List Char :=
  replaceTokenFrom isAlphanumeric secret 0 none message

/-- Longer values first, string values before tokens of the same length. -/
def Redaction.precedes (first second : Redaction) : Prop :=
  second.asBytes.length < first.asBytes.length ∨
    (second.asBytes.length = first.asBytes.length ∧
      (first.matchKind = .token → second.matchKind = .token))

instance : DecidableRel Redaction.precedes :=
  fun _ _ => inferInstanceAs (Decidable (_ ∨ _))

def redactOne (message : List Char) (secret : Redaction) : List Char :=
  match secret.matchKind with
  | .substring => replaceAll secret.value redactionMarker message
  | .token => replaceToken isAlphanumeric message secret.value

def redact (message : List Char) (secrets : List Redaction) : List Char :=
  let secrets := secrets.filter fun secret => secret.value ≠ []
  (secrets.insertionSort Redaction.precedes).foldl (redactOne isAlphanumeric) message

/-- The string values in the order in which `redact` replaces them. -/
def orderedValues (secrets : List Redaction) : List (List Char) :=
  ((secrets.filter fun secret => secret.value ≠ []).insertionSort Redaction.precedes).map
    Redaction.value

variable {isAlphanumeric} {secrets : List Redaction}

theorem mem_orderedValues {value : List Char} :
    value ∈ orderedValues secrets ↔ value ≠ [] ∧ ∃ sec ∈ secrets, sec.value = value := by
  simp only [orderedValues, mem_map, mem_insertionSort, mem_filter]
  constructor
  · rintro ⟨sec, ⟨hm, hne⟩, rfl⟩
    exact ⟨of_decide_eq_true hne, sec, hm, rfl⟩
  · rintro ⟨hne, sec, hm, rfl⟩
    exact ⟨sec, ⟨hm, decide_eq_true hne⟩, rfl⟩

theorem nil_notMem_orderedValues : [] ∉ orderedValues secrets := by
  intro hm
  exact (mem_orderedValues.mp hm).1 rfl

theorem foldl_redactOne (secrets : List Redaction)
    (hsub : ∀ sec ∈ secrets, sec.matchKind = .substring) (message : List Char) :
    secrets.foldl (redactOne isAlphanumeric) message =
      replaceEach (secrets.map Redaction.value) redactionMarker message := by
  induction secrets generalizing message with
  | nil => rfl
  | cons sec secrets ih =>
    have hon : redactOne isAlphanumeric message sec =
        replaceAll sec.value redactionMarker message := by
      rw [redactOne, hsub sec mem_cons_self]
    rw [foldl_cons, hon, map_cons, replaceEach_cons]
    exact ih (fun other ho => hsub other (mem_cons_of_mem sec ho)) _

theorem redact_eq_replaceEach (hsub : ∀ sec ∈ secrets, sec.matchKind = .substring)
    (message : List Char) : redact isAlphanumeric message secrets =
      replaceEach (orderedValues secrets) redactionMarker message := by
  apply foldl_redactOne
  intro sec hs
  rw [mem_insertionSort] at hs
  exact hsub sec (mem_of_mem_filter hs)

end Text

section Bytes

/-! ### Byte streams -/

def redactBytes (bytes : Bytes) (needles : List Bytes) : Bytes :=
  replaceEach needles redactionMarkerBytes bytes

theorem ne_ofNat_add {n k : ℕ} (hk : 128 ≤ k) (hn : n + k < 256) :
    (42 : UInt8) ≠ UInt8.ofNat (n + k) := by
  intro h
  have hna := congrArg UInt8.toNat h
  rw [UInt8.toNat_ofNat', Nat.mod_eq_of_lt hn] at hna
  have hl : (42 : UInt8).toNat = 42 := rfl
  omega

theorem redactBytes_nil (nds : List Bytes) : redactBytes [] nds = [] := by
  induction nds with
  | nil => rfl
  | cons nd nds ih => exact ih

theorem eq_star_of_mem_utf8EncodeChar {c : Char} (h : (42 : UInt8) ∈ String.utf8EncodeChar c) :
    c = '*' := by
  unfold String.utf8EncodeChar at h
  generalize hv : c.val.toNat = v at h
  dsimp only at h
  split at h
  · rename_i ha
    rw [mem_singleton] at h
    have hn := congrArg UInt8.toNat h
    rw [UInt8.toNat_ofNat', Nat.mod_eq_of_lt (by omega)] at hn
    apply Char.ext
    apply UInt32.toNat_inj.mp
    rw [hv, ← hn]
    rfl
  -- every byte of a longer form has its highest bit set
  split at h
  · simp only [mem_cons, not_mem_nil, or_false] at h
    rcases h with h | h <;> exact absurd h (ne_ofNat_add (by omega) (by omega))
  split at h
  · simp only [mem_cons, not_mem_nil, or_false] at h
    rcases h with h | h | h <;> exact absurd h (ne_ofNat_add (by omega) (by omega))
  · simp only [mem_cons, not_mem_nil, or_false] at h
    rcases h with h | h | h | h <;> exact absurd h (ne_ofNat_add (by omega) (by omega))

theorem Redaction.Plain.star_notMem_asBytes {red : Redaction} (h : red.Plain) :
    (42 : UInt8) ∉ red.asBytes := by
  intro hm
  obtain ⟨c, hc, hb⟩ := mem_flatMap.mp hm
  rw [eq_star_of_mem_utf8EncodeChar hb] at hc
  exact h.star_notMem hc

theorem Redaction.Plain.asBytes_ne_nil {redaction : Redaction} (h : redaction.Plain) :
    redaction.asBytes ≠ [] := by
  intro hn
  exact h.ne_nil (Utf8.encode_eq_nil.mp hn)

end Bytes

end Octa.Output
