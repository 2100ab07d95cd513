import CodeEmission.Proofs.Buffer.Growth

/-! # The same writes into buffers of different sizes

A buffer follows a roomier one through the same operations: it holds the same bytes, or it has
overflowed and the roomier one has grown up to its capacity. So one comparison of sizes at the end
stands for all the tests made on the way, whether they are strict or not.
-/

namespace CodeEmission.CodeBuffer

variable {b u : CodeBuffer}

/-- How a buffer stands to a roomier one that has taken the same writes. -/
inductive Follows (b u : CodeBuffer) : Prop where
  | same (intact : b.Intact) (code : b.code = u.code)
  | behind (overflow : b.overflow ≠ none) (capacity_le : b.capacity ≤ u.offset)

theorem Follows.code (h : b.Follows u) (hb : b.overflow = none) : b.code = u.code := by
  cases h with
  | same _ hc => exact hc
  | behind ho _ => exact absurd hb ho

theorem Follows.offset (h : b.Follows u) (hb : b.overflow = none) : b.offset = u.offset :=
  congrArg Array.size (h.code hb)

/-- A buffer counts as too small exactly if the roomier one has reached its capacity. -/
theorem Follows.exhausted_iff (h : b.Follows u) : b.exhausted = true ↔ b.capacity ≤ u.offset := by
  cases h with
  | same hi hc =>
    have ho : b.offset = u.offset := congrArg Array.size hc
    have hle := b.offset_le_capacity
    simp only [exhausted, hi.not_overflowed, Bool.false_or, beq_iff_eq]
    omega
  | behind ho hle => simp [exhausted, overflowed, Option.isSome_iff_ne_none.2 ho, hle]

/-- A buffer that stays as it is falls behind for good. -/
theorem Follows.behind_of_grows {v : CodeBuffer} (h : b.Follows u) (hb : b.overflow ≠ none)
    (hu : u.Grows v) : b.Follows v := by
  cases h with
  | same hi _ => exact absurd hi.overflow hb
  | behind _ hle => exact .behind hb (hle.trans hu.offset_le)

theorem Follows.write (h : b.Follows u) (hu : u.Intact) {bytes : List UInt8}
    (hw : (u.write bytes).overflow = none) : (b.write bytes).Follows (u.write bytes) := by
  cases h with
  | same hi hc =>
    have ho : b.offset = u.offset := congrArg Array.size hc
    by_cases hle : b.offset + bytes.length ≤ b.capacity
    · have hbw := write_of_le hi hle
      refine .same ⟨?_, ?_⟩ ?_
      · rw [hbw]; exact hi.overflow
      · rw [hbw]; exact hi.writable
      · rw [hbw, code_append, code_write hu hw, hc]
    · rw [write_of_lt hi (Nat.lt_of_not_le hle)]
      refine .behind (by simp) ?_
      change b.capacity ≤ (u.write bytes).offset
      rw [offset_write hu hw]
      omega
  | behind hb hle =>
    rw [write_of_overflowed hb]
    exact .behind hb (hle.trans (write_grows u bytes).offset_le)

theorem Follows.writeAll (h : b.Follows u) (hu : u.Intact) {runs : List (List UInt8)}
    (hw : (u.writeAll runs).overflow = none) : (b.writeAll runs).Follows (u.writeAll runs) := by
  induction runs generalizing b u with
  | nil => exact h
  | cons bytes runs ih =>
    have hs : (u.write bytes).overflow = none := (writeAll_grows _ runs).overflow hw
    exact ih (h.write hu hs) ((write_grows u bytes).intact_right hu.writable hs) hw

theorem extendTo_follows (hi : b.Intact) (hc : b.code = u.code) {limit : Nat}
    (hb : limit ≤ b.capacity) (hu : limit ≤ u.capacity) :
    (b.extendTo limit hb).Follows (u.extendTo limit hu) :=
  .same ⟨hi.overflow, hi.writable⟩ (congrArg (Bytes.padTo limit) hc)

theorem Follows.align (h : b.Follows u) (hu : u.Intact) {alignment : Nat}
    (ha : (u.align alignment).overflow = none) :
    (b.align alignment).Follows (u.align alignment) := by
  cases h with
  | same hi hc =>
    have ho : b.offset = u.offset := congrArg Array.size hc
    by_cases hul : Word.alignTo u.offset alignment ≤ u.capacity
    · rw [align_of_le hu hul]
      by_cases hle : Word.alignTo b.offset alignment ≤ b.capacity
      · simp only [align_of_le hi hle, ho]
        exact extendTo_follows hi hc _ _
      · rw [align_of_lt hi (Nat.lt_of_not_le hle)]
        refine .behind (by simp) ?_
        rw [offset_extendTo, ← ho]
        exact (Nat.le_of_not_le hle).trans (le_max_right _ _)
    · rw [align_of_lt hu (Nat.lt_of_not_le hul)] at ha
      cases ha
  | behind hb hle =>
    rw [align_of_overflowed hb]
    exact .behind hb (hle.trans (align_grows u alignment).offset_le)

theorem Follows.reserve (h : b.Follows u) (hu : u.Intact) (size alignment : Nat)
    (hr : (u.reserve size alignment).1.overflow = none) :
    (b.reserve size alignment).1.Follows (u.reserve size alignment).1 ∧
      ((b.reserve size alignment).1.overflow = none →
        (b.reserve size alignment).2 = (u.reserve size alignment).2) ∧
      ((b.reserve size alignment).1.overflow ≠ none → (b.reserve size alignment).2 = none) := by
  cases h with
  | same hi hc =>
    have ho : b.offset = u.offset := congrArg Array.size hc
    by_cases hul : Word.alignTo u.offset alignment + size < u.capacity
    · rw [reserve_of_lt hu hul]
      by_cases hlt : Word.alignTo b.offset alignment + size < b.capacity
      · rw [reserve_of_lt hi hlt]
        refine ⟨?_, fun _ => by simp only [ho], fun hb => absurd hi.overflow hb⟩
        simp only [ho]
        exact extendTo_follows hi hc _ _
      · rw [reserve_of_le hi (Nat.le_of_not_lt hlt)]
        refine ⟨.behind (by simp) ?_, by simp, fun _ => rfl⟩
        rw [offset_extendTo, ← ho]
        exact (Nat.le_of_not_lt hlt).trans (le_max_right _ _)
    · rw [reserve_of_le hu (Nat.le_of_not_lt hul)] at hr
      cases hr
  | behind hb hle =>
    rw [reserve_of_overflowed hb]
    exact ⟨.behind hb (hle.trans (reserve_grows u size alignment).offset_le),
      fun ho => absurd ho hb, fun _ => rfl⟩

theorem Follows.fill {ε : Type} (h : b.Follows u) (offset : Nat) (plan : Plan ε) :
    (b.fill offset plan).Follows (u.fill offset plan) := by
  cases h with
  | same hi hc => exact .same ⟨hi.overflow, hi.writable⟩ (congrArg (plan.shift offset).apply hc)
  | behind hb hle => exact .behind hb (hle.trans_eq (offset_fill u offset plan).symm)

end CodeEmission.CodeBuffer
