import Octa.Bundle.Extract

/-!
# Reading back what was written

A reader reads a value from its encoding when it returns the value on every
stream that starts with these bytes and stops right behind them.
-/

namespace Octa.Bundle

open FileTree Wire Octa.Cache CanonicalReader List

variable {α β : Type}
variable {limits : BundleLimits} {path : RelativePath}

/-- The reader behind `bytes`. -/
def CanonicalReader.advance (reader : CanonicalReader) (bytes rest : Bytes) : CanonicalReader :=
  ⟨⟨rest, reader.inner.failure⟩, reader.taken ++ bytes, reader.maximum⟩

def Reads (m : Reading α) (bytes : Bytes) (value : α) : Prop :=
  ∀ (reader : CanonicalReader) (rest : Bytes), reader.inner.bytes = bytes ++ rest →
    reader.taken.length + bytes.length ≤ reader.maximum.toNat →
    m reader = .ok (value, reader.advance bytes rest)

namespace Reads

variable {m : Reading α} {bytes : Bytes} {a : α}

theorem pure (value : α) : Reads (Pure.pure value) [] value := by
  intro rd rest hb _
  change Except.ok (value, rd) = _
  rw [nil_append] at hb
  rw [CanonicalReader.advance, ← hb, append_nil]

theorem bind {f : α → Reading β} {bytes' : Bytes} {b : β} (h : Reads m bytes a)
    (h' : Reads (f a) bytes' b) : Reads (m >>= f) (bytes ++ bytes') b := by
  intro rd rest hb hl
  rw [length_append] at hl
  rw [append_assoc] at hb
  change (m rd >>= fun result => f result.1 result.2) = _
  rw [h rd (bytes' ++ rest) hb (by omega)]
  change f a (rd.advance bytes (bytes' ++ rest)) = _
  rw [h' (rd.advance bytes (bytes' ++ rest)) rest rfl (by
    simp only [CanonicalReader.advance, length_append]
    omega)]
  simp only [CanonicalReader.advance, append_assoc]

theorem bind_nil {f : α → Reading β} {b : β} (h : Reads m bytes a) (h' : Reads (f a) [] b) :
    Reads (m >>= f) bytes b := by
  have hb := h.bind h'
  rwa [append_nil] at hb

theorem map (h : Reads m bytes a) (f : α → β) : Reads (do return f (← m)) bytes (f a) :=
  h.bind_nil (f := fun a => Pure.pure (f a)) (pure (f a))

theorem exact (bytes : Bytes) : Reads (readExact bytes.length) bytes bytes := by
  intro rd rest hb hl
  have hm := rd.maximum.toNat_lt
  unfold readExact
  rw [if_neg (by omega), if_neg (by omega), if_neg (by rw [hb, length_append]; omega),
    hb, take_left, drop_left]
  rfl

theorem of_length {length : ℕ} (h : bytes.length = length) :
    Reads (readExact length) bytes bytes := by
  rw [← h]
  exact exact bytes

end Reads

theorem fromBigEndian_bigEndian {width n : ℕ} (h : n < 256 ^ width) :
    fromBigEndian (bigEndian width n) = n := by
  induction width generalizing n with
  | zero =>
    rw [pow_zero] at h
    rw [bigEndian]
    change 0 = n
    omega
  | succ width ih =>
    have hh : n / 256 < 256 ^ width := Nat.div_lt_of_lt_mul (by rwa [pow_succ'] at h)
    have hp := ih hh
    unfold fromBigEndian at hp ⊢
    rw [bigEndian, foldl_append, hp, foldl_cons, foldl_nil, UInt8.toNat_ofNat']
    omega

theorem reads_number (width : ℕ) {n : ℕ} (h : n < 256 ^ width) :
    Reads (readNumber width) (bigEndian width n) n := by
  have hr := (Reads.of_length (length_bigEndian width n)).map fromBigEndian
  rwa [fromBigEndian_bigEndian h] at hr

theorem bigEndian_one (byte : UInt8) : bigEndian 1 byte.toNat = [byte] := by
  simp [bigEndian]

theorem reads_u8 (byte : UInt8) : Reads readU8 [byte] byte := by
  have hr := (reads_number 1 byte.toNat_lt).map UInt8.ofNat
  rwa [bigEndian_one, UInt8.ofNat_toNat] at hr

theorem reads_bool (value : Bool) : Reads readBool [boolByte value] value := by
  have hn := reads_number 1 (boolByte value).toNat_lt
  rw [bigEndian_one] at hn
  refine hn.bind_nil ?_
  cases value <;> exact Reads.pure _

theorem fromUtf8_asBytes (text : String) : fromUtf8 (asBytes text) = some text := by
  unfold fromUtf8 asBytes String.fromUTF8?
  have hv : ByteArray.IsValidUTF8 ⟨text.toByteArray.data.toList.toArray⟩ := text.isValidUTF8
  rw [dif_pos hv]
  rfl

theorem reads_string {mx : UInt64} {text : String} (hpos : 0 < text.utf8ByteSize)
    (hmax : text.utf8ByteSize ≤ mx.toNat) (hfits : text.utf8ByteSize < 2 ^ 32) :
    Reads (readString mx) (textField text) text := by
  have hl : Reads readU32 (bigEndian 4 text.utf8ByteSize) text.utf8ByteSize :=
    reads_number 4 (by omega)
  unfold readString textField
  refine hl.bind ?_
  simp only
  rw [if_neg (by omega)]
  refine (Reads.of_length (length_asBytes text)).bind_nil ?_
  simp only [fromUtf8_asBytes]
  exact Reads.pure text

theorem reads_liftProtocol {value : α} {result : Except CacheProtocolError α}
    (h : result = .ok value) : Reads (liftM (liftProtocol result)) [] value := by
  rw [h]
  exact Reads.pure value

theorem RelativePath.new_value (path : RelativePath) : RelativePath.new path.value = .ok path := by
  unfold RelativePath.new
  split
  · rfl
  rename_i error hc
  rw [path.valid] at hc
  cases hc

structure PathFits (limits : BundleLimits) (path : RelativePath) : Prop where
  size : path.value.utf8ByteSize ≤ limits.maxPathBytes.toNat
  notRoot : path.isRoot = false

theorem size_pos (path : RelativePath) : 0 < path.value.utf8ByteSize := by
  have hv := path.valid
  unfold validate at hv
  obtain ⟨he, -⟩ := Fallible.ite_error_eq_ok hv
  rw [String.isEmpty_iff] at he
  exact Nat.pos_of_ne_zero fun hz => he (String.utf8ByteSize_eq_zero_iff.mp hz)

theorem size_le (path : RelativePath) : path.value.utf8ByteSize ≤ 16 * 1024 := by
  have hv := path.valid
  unfold validate at hv
  obtain ⟨-, hv⟩ := Fallible.ite_error_eq_ok hv
  have hs := (Fallible.ite_error_eq_ok hv).1
  unfold maxCacheStringBytes at hs
  omega

theorem reads_relativePath (h : PathFits limits path) :
    Reads (readRelativePath limits.maxPathBytes) (textField path.value) path := by
  have hs := size_le path
  unfold readRelativePath
  refine (reads_string (size_pos path) h.size (by omega)).bind_nil ?_
  refine (reads_liftProtocol (RelativePath.new_value path)).bind_nil ?_
  simp only [h.notRoot]
  exact Reads.pure path

theorem reads_head (h : PathFits limits path) (tag : UInt8) :
    Reads (readHead limits) (tag :: textField path.value) ⟨tag, path⟩ := by
  unfold readHead
  exact (reads_u8 tag).bind ((reads_relativePath h).map fun path => (⟨tag, path⟩ : Head))

/-- The bounds that the reader sets to the fields behind the path. -/
def OutputKind.Fits (limits : BundleLimits) (path : RelativePath) : OutputKind → Prop
  | .directory => True
  | .file content _ => content.length ≤ limits.maxFileBytes.toNat
  | .symlink target _ => validateSymlinkText path target = .ok () ∧
      target.utf8ByteSize ≤ limits.maxPathBytes.toNat ∧ target.utf8ByteSize < 2 ^ 32

theorem reads_fileHeader {cnt : Bytes} (exe : Bool)
    (h : cnt.length ≤ limits.maxFileBytes.toNat) :
    Reads (readFileHeader limits path) (boolByte exe :: bigEndian 8 cnt.length)
      (exe, cnt.length) := by
  have hm := limits.maxFileBytes.toNat_lt
  unfold readFileHeader
  refine (reads_bool exe).bind ((reads_number 8 (by omega)).bind_nil ?_)
  simp only
  rw [if_neg (by omega)]
  exact Reads.pure _

theorem target_size_pos {target : String} (h : validateSymlinkText path target = .ok ()) :
    0 < target.utf8ByteSize := by
  unfold validateSymlinkText at h
  obtain ⟨hc, -⟩ := Fallible.ite_error_eq_ok h
  refine Nat.pos_of_ne_zero fun hz => hc ?_
  rw [String.utf8ByteSize_eq_zero_iff] at hz
  simp [hz]

theorem reads_symlink {target : String} (isDirectory : Bool)
    (h : OutputKind.Fits limits path (.symlink target isDirectory)) :
    Reads (readSymlink limits path) (boolByte isDirectory :: textField target)
      (target, isDirectory) := by
  obtain ⟨hv, hs, hf⟩ := h
  unfold readSymlink
  refine (reads_bool isDirectory).bind (Reads.map ?_ fun target => (target, isDirectory))
  unfold readSymlinkTarget
  refine (reads_string (target_size_pos hv) hs hf).bind_nil ?_
  simp only [hv]
  exact Reads.pure target

end Octa.Bundle
