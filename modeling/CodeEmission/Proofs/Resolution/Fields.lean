import Mathlib.Algebra.Group.Nat.Defs
import CodeEmission.Patch

/-! # Patched fields

The address that a patched field stands for, read back from its bytes.
-/

namespace CodeEmission

namespace Bytes

theorem ofLittleEndian_littleEndian (width n : Nat) :
    ofLittleEndian (littleEndian width n) = n % 256 ^ width := by
  induction width generalizing n with
  | zero => simp [littleEndian, ofLittleEndian, Nat.mod_one]
  | succ width ih =>
    have hbyte : (UInt8.ofNat (n % 256)).toNat = n % 256 := by simp
    rw [littleEndian, ofLittleEndian, ih, hbyte, Nat.pow_succ', Nat.mod_mul]

theorem littleEndian_mod (width n : Nat) :
    littleEndian width (n % 256 ^ width) = littleEndian width n := by
  induction width generalizing n with
  | zero => rfl
  | succ width ih =>
    have hlow : n % 256 ^ (width + 1) % 256 = n % 256 :=
      Nat.mod_mod_of_dvd _ ⟨256 ^ width, Nat.pow_succ'⟩
    have hhigh : n % 256 ^ (width + 1) / 256 = n / 256 % 256 ^ width := by
      rw [Nat.pow_succ', Nat.mod_mul_right_div_self]
    rw [littleEndian, littleEndian, hlow, hhigh, ih]

end Bytes

namespace Relocation

/-- The address that the bytes of a field in code at `base` stand for: in an absolute field the
address itself, in a relative one its distance from the end of the field. -/
def decode (r : Relocation) (base : UInt64) (bytes : List UInt8) : UInt64 :=
  match r.kind with
  | .abs64 => UInt64.ofNat (Bytes.ofLittleEndian bytes)
  | .pcRel32 =>
    base + UInt64.ofNat r.offset + 4 +
      (UInt32.ofNat (Bytes.ofLittleEndian bytes)).toInt32.toInt64.toUInt64

/-- A distance is measured from the end of the field, which is a word then. -/
theorem distance_eq_ok {r : Relocation} {base address : UInt64} {distance : Int64} :
    r.distance base address = .ok distance ↔ base.toNat + r.fieldEnd ≤ Word.largest ∧
      (address - (base + UInt64.ofNat r.fieldEnd)).toInt64 = distance := by
  unfold Relocation.distance Word.address?
  split
  · rename_i h
    split at h
    · cases h
      simp [*]
    · cases h
  · rename_i h
    split at h
    · cases h
    · simp [*]

theorem length_fieldBytes {r : Relocation} {base address : UInt64} {bytes : List UInt8}
    (h : r.fieldBytes base address = .ok bytes) : bytes.length = r.kind.width := by
  unfold fieldBytes at h
  split at h
  · rename_i hk
    cases h
    rw [Bytes.length_littleEndian, hk]
    rfl
  · rename_i hk
    split at h
    · cases h
    · split at h
      · cases h
        rw [Bytes.length_littleEndian, hk]
        rfl
      · cases h

theorem signExtend_low_half {d : Int64} (h : -2147483648 ≤ d ∧ d ≤ 2147483647) :
    (UInt32.ofNat d.toUInt64.toUInt32.toNat).toInt32.toInt64 = d := by
  have hlow : d.toUInt64.toUInt32.toInt32 = d.toInt32 := by
    refine Int32.toBitVec.inj ?_
    rw [UInt32.toBitVec_toInt32, UInt64.toBitVec_toUInt32, Int64.toBitVec_toUInt64,
      Int64.toBitVec_toInt32, BitVec.signExtend_eq_setWidth_of_le _ (by decide)]
  have hmin : -2147483648 ≤ d.toInt := Int64.le_iff_toInt_le.1 h.1
  have hmax : d.toInt ≤ 2147483647 := Int64.le_iff_toInt_le.1 h.2
  rw [UInt32.ofNat_toNat, hlow]
  refine Int64.toInt_inj.1 ?_
  rw [Int32.toInt_toInt64, Int64.toInt_toInt32]
  exact Int.bmod_eq_of_le (by omega) (by omega)

/-- A field is read back as the address that was written into it. -/
theorem decode_fieldBytes {r : Relocation} {base address : UInt64} {bytes : List UInt8}
    (h : r.fieldBytes base address = .ok bytes) : r.decode base bytes = address := by
  unfold fieldBytes at h
  split at h
  · rename_i hk
    cases h
    simp only [decode, hk, Bytes.ofLittleEndian_littleEndian]
    simp
  · rename_i hk
    split at h
    · cases h
    · rename_i distance hdistance
      split at h
      · rename_i hd
        cases h
        have hlt : distance.toUInt64.toUInt32.toNat < 256 ^ 4 := UInt32.toNat_lt _
        simp only [decode, hk, Bytes.ofLittleEndian_littleEndian, Nat.mod_eq_of_lt hlt]
        rw [signExtend_low_half hd]
        have hend : base + UInt64.ofNat r.offset + 4 = base + UInt64.ofNat r.fieldEnd := by
          rw [fieldEnd, hk, RelocKind.width, UInt64.ofNat_add, UInt64.add_assoc]
          rfl
        rw [hend, ← (distance_eq_ok.1 hdistance).2, UInt64.toUInt64_toInt64, UInt64.add_comm,
          UInt64.sub_add_cancel]
      · cases h

end Relocation

end CodeEmission
