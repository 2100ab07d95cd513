import CodeEmission.Proofs.Layout.References
import CodeEmission.Proofs.Resolution.Fields

/-! # Distances

Signed 32-bit distances between addresses. Places in one block are always near enough to each other
for such a distance.
-/

namespace CodeEmission

/-- An address is a signed 32-bit distance away from another one. -/
def InReach (base address : UInt64) : Prop := ∃ d : Int32, base + d.toInt64.toUInt64 = address

theorem toInt_sub_offsets (base : UInt64) {m n : Nat} (hm : m < 2 ^ 31) (hn : n < 2 ^ 31) :
    ((base + UInt64.ofNat m) - (base + UInt64.ofNat n)).toInt64.toInt = (m : Int) - n := by
  have hsub : (base + UInt64.ofNat m) - (base + UInt64.ofNat n) =
      UInt64.ofNat m - UInt64.ofNat n := by grind
  have hm' : (Int64.ofNat m).toInt = m := Int64.toInt_ofNat_of_lt (by omega)
  have hn' : (Int64.ofNat n).toInt = n := Int64.toInt_ofNat_of_lt (by omega)
  rw [hsub, UInt64.toInt64_sub, UInt64.toInt64_ofNat', UInt64.toInt64_ofNat', Int64.toInt_sub,
    hm', hn']
  exact Int.bmod_eq_of_le (by omega) (by omega)

theorem sub_offsets_in_range (base : UInt64) {m n : Nat} (hm : m < 2 ^ 31) (hn : n < 2 ^ 31) :
    -2147483648 ≤ ((base + UInt64.ofNat m) - (base + UInt64.ofNat n)).toInt64 ∧
      ((base + UInt64.ofNat m) - (base + UInt64.ofNat n)).toInt64 ≤ 2147483647 := by
  have hd := toInt_sub_offsets base hm hn
  have hmin : (-2147483648 : Int64).toInt = -2147483648 := rfl
  have hmax : (2147483647 : Int64).toInt = 2147483647 := rfl
  constructor
  · rw [Int64.le_iff_toInt_le, hd, hmin]
    omega
  · rw [Int64.le_iff_toInt_le, hd, hmax]
    omega

theorem add_low_half_sub (base : UInt64) {m n : Nat} (hm : m < 2 ^ 31) (hn : n < 2 ^ 31) :
    base + UInt64.ofNat n + (UInt32.ofNat
        ((base + UInt64.ofNat m) - (base + UInt64.ofNat n)).toUInt32.toNat).toInt32.toInt64.toUInt64 =
      base + UInt64.ofNat m := by
  have hextend := Relocation.signExtend_low_half (sub_offsets_in_range base hm hn)
  rw [UInt64.toUInt64_toInt64] at hextend
  rw [hextend, UInt64.toUInt64_toInt64, UInt64.add_comm, UInt64.sub_add_cancel]

theorem inReach_offsets (base : UInt64) {m n : Nat} (hm : m < 2 ^ 31) (hn : n < 2 ^ 31) :
    InReach (base + UInt64.ofNat n) (base + UInt64.ofNat m) :=
  ⟨_, add_low_half_sub base hm hn⟩

namespace Relocation

variable {r : Relocation}

theorem fieldBytes_abs64 (hk : r.kind = .abs64) (base address : UInt64) :
    ∃ bytes, r.fieldBytes base address = .ok bytes := by
  simp only [fieldBytes, hk]
  exact ⟨_, rfl⟩

/-- Where the field ends behind the last address, no distance is measured. -/
theorem fieldBytes_of_largest_lt (hk : r.kind = .pcRel32) {base : UInt64}
    (hend : Word.largest < base.toNat + r.fieldEnd) (address : UInt64) :
    r.fieldBytes base address = .error (.crash .sum) := by
  simp only [fieldBytes, hk, distance, Word.address?]
  rw [if_neg (Nat.not_le.2 hend)]

/-- A distance is written into the code exactly if it has 32 bits, and the error is about the range
otherwise. -/
theorem fieldBytes_pcRel32 (hk : r.kind = .pcRel32) {base : UInt64}
    (hend : base.toNat + r.fieldEnd ≤ Word.largest) (address : UInt64) :
    (InReach (base + UInt64.ofNat r.fieldEnd) address ∧
        ∃ bytes, r.fieldBytes base address = .ok bytes) ∨
      (¬InReach (base + UInt64.ofNat r.fieldEnd) address ∧
        r.fieldBytes base address = .error (.relocationRange r.offset address)) := by
  have hdistance := distance_eq_ok.2
    ⟨hend, rfl (a := (address - (base + UInt64.ofNat r.fieldEnd)).toInt64)⟩
  simp only [fieldBytes, hk, hdistance]
  by_cases hd : -2147483648 ≤ (address - (base + UInt64.ofNat r.fieldEnd)).toInt64 ∧
      (address - (base + UInt64.ofNat r.fieldEnd)).toInt64 ≤ 2147483647
  · have hsum : base + UInt64.ofNat r.fieldEnd +
        (address - (base + UInt64.ofNat r.fieldEnd)).toInt64.toUInt64 = address := by
      rw [UInt64.toUInt64_toInt64, UInt64.add_comm, UInt64.sub_add_cancel]
    rw [← signExtend_low_half hd] at hsum
    rw [if_pos hd]
    exact .inl ⟨⟨_, hsum⟩, _, rfl⟩
  · rw [if_neg hd]
    refine .inr ⟨?_, rfl⟩
    rintro ⟨d, rfl⟩
    refine hd ?_
    have heq : (base + UInt64.ofNat r.fieldEnd + d.toInt64.toUInt64 -
        (base + UInt64.ofNat r.fieldEnd)).toInt64 = d.toInt64 := by
      have hsub (a b : UInt64) : a + b - a = b := by grind
      rw [hsub, Int64.toInt64_toUInt64]
    have hmin : (-2147483648 : Int64).toInt = -2147483648 := rfl
    have hmax : (2147483647 : Int64).toInt = 2147483647 := rfl
    have hle := Int32.le_toInt d
    have hlt := Int32.toInt_lt d
    rw [heq]
    constructor
    · rw [Int64.le_iff_toInt_le, Int32.toInt_toInt64, hmin]
      omega
    · rw [Int64.le_iff_toInt_le, Int32.toInt_toInt64, hmax]
      omega

end Relocation

end CodeEmission
