import Mathlib.Order.Nat
import CodeEmission.CodeBuffer

/-! # Growth of code buffers

A buffer stays in its block, its cursor never moves back, and a buffer that has dropped something
takes nothing more. So a buffer that is intact at the end was intact at every step before, and holds
everything that was written.
-/

namespace CodeEmission.CodeBuffer

variable {b c d : CodeBuffer}

theorem capacity_le (b : CodeBuffer) : b.capacity ≤ Word.largest :=
  (Nat.le_add_left _ _).trans b.block.end_le

theorem offset_le_largest (b : CodeBuffer) : b.offset ≤ Word.largest :=
  b.offset_le_capacity.trans b.capacity_le

/-- Nothing was dropped, and more can be written. -/
structure Intact (b : CodeBuffer) : Prop where
  overflow : b.overflow = none
  writable : b.block.executable = false

theorem Intact.not_overflowed (hb : b.Intact) : b.overflowed = false := by
  simp [overflowed, hb.overflow]

theorem intact_of_block {block : Block} (h : block.executable = false) : Intact { block } :=
  ⟨rfl, h⟩

/-- An empty buffer of a given size, as far as the words reach. -/
def ofCapacity (capacity : Nat) : CodeBuffer where
  block := {
    address := 0
    size := min capacity Word.largest
    end_le := by
      rw [UInt64.toNat_zero, Nat.zero_add]
      exact Nat.min_le_right _ _ }

theorem ofCapacity_intact (capacity : Nat) : (ofCapacity capacity).Intact := intact_of_block rfl

/-- One buffer later in time than another. -/
structure Grows (b c : CodeBuffer) : Prop where
  address : c.block.address = b.block.address
  size : c.block.size = b.block.size
  executable : c.block.executable = b.block.executable
  offset_le : b.offset ≤ c.offset
  overflow : c.overflow = none → b.overflow = none

theorem Grows.refl (b : CodeBuffer) : b.Grows b := ⟨rfl, rfl, rfl, le_refl _, id⟩

theorem Grows.trans (h : b.Grows c) (h' : c.Grows d) : b.Grows d :=
  ⟨h'.address.trans h.address, h'.size.trans h.size, h'.executable.trans h.executable,
    h.offset_le.trans h'.offset_le, fun hd => h.overflow (h'.overflow hd)⟩

theorem Grows.capacity (h : b.Grows c) : c.capacity = b.capacity := h.size

theorem Grows.intact_right (h : b.Grows c) (hb : b.block.executable = false)
    (hc : c.overflow = none) : c.Intact := ⟨hc, h.executable.trans hb⟩

theorem write_of_overflowed (h : b.overflow ≠ none) (bytes : List UInt8) : b.write bytes = b := by
  simp [write, overflowed, Option.isSome_iff_ne_none.2 h]

theorem write_of_le (hb : b.Intact) {bytes : List UInt8}
    (h : b.offset + bytes.length ≤ b.capacity) : b.write bytes = b.append bytes h := by
  simp [write, hb.not_overflowed, hb.writable, h]

theorem write_of_lt (hb : b.Intact) {bytes : List UInt8}
    (h : b.capacity < b.offset + bytes.length) :
    b.write bytes = { b with overflow := some (.write bytes.length) } := by
  simp [write, hb.not_overflowed, Nat.not_le.2 h]

@[simp] theorem code_append (b : CodeBuffer) (bytes : List UInt8)
    (h : b.offset + bytes.length ≤ b.capacity) :
    (b.append bytes h).code = b.code ++ bytes.toArray := rfl

@[simp] theorem offset_append (b : CodeBuffer) (bytes : List UInt8)
    (h : b.offset + bytes.length ≤ b.capacity) :
    (b.append bytes h).offset = b.offset + bytes.length := by
  simp [offset, append]

theorem write_grows (b : CodeBuffer) (bytes : List UInt8) : b.Grows (b.write bytes) := by
  unfold write
  split
  · exact Grows.refl b
  · rename_i hb
    have hb : b.overflow = none := by simpa [overflowed] using hb
    split
    · split
      · exact ⟨rfl, rfl, rfl, le_refl _, by simp⟩
      · exact ⟨rfl, rfl, rfl, by simp, fun _ => hb⟩
    · exact ⟨rfl, rfl, rfl, le_refl _, by simp⟩

theorem writeAll_grows (b : CodeBuffer) (runs : List (List UInt8)) : b.Grows (b.writeAll runs) := by
  induction runs generalizing b with
  | nil => exact Grows.refl b
  | cons bytes runs ih => exact (write_grows b bytes).trans (ih (b.write bytes))

theorem code_write (hb : b.Intact) {bytes : List UInt8} (h : (b.write bytes).overflow = none) :
    (b.write bytes).code = b.code ++ bytes.toArray := by
  by_cases hle : b.offset + bytes.length ≤ b.capacity
  · rw [write_of_le hb hle, code_append]
  · rw [write_of_lt hb (Nat.lt_of_not_le hle)] at h
    cases h

theorem offset_write (hb : b.Intact) {bytes : List UInt8} (h : (b.write bytes).overflow = none) :
    (b.write bytes).offset = b.offset + bytes.length := by
  have hs := congrArg Array.size (code_write hb h)
  rwa [Array.size_append, List.size_toArray] at hs

theorem code_writeAll (hb : b.Intact) {runs : List (List UInt8)}
    (h : (b.writeAll runs).overflow = none) :
    (b.writeAll runs).code = b.code ++ runs.flatten.toArray := by
  induction runs generalizing b with
  | nil => simp [writeAll]
  | cons bytes runs ih =>
    have hs : (b.write bytes).overflow = none := (writeAll_grows _ runs).overflow h
    have hi : (b.write bytes).Intact := (write_grows b bytes).intact_right hb.writable hs
    have hr := ih hi h
    rw [code_write hb hs] at hr
    simpa [writeAll] using hr

theorem writeAll_of_le (hb : b.Intact) {runs : List (List UInt8)}
    (h : b.offset + runs.flatten.length ≤ b.capacity) : (b.writeAll runs).overflow = none := by
  induction runs generalizing b with
  | nil => exact hb.overflow
  | cons bytes runs ih =>
    rw [List.flatten_cons, List.length_append] at h
    have hle : b.offset + bytes.length ≤ b.capacity := by omega
    have hw := write_of_le hb hle
    have hi : (b.write bytes).Intact := by
      rw [hw]
      exact ⟨hb.overflow, hb.writable⟩
    refine ih hi ?_
    rw [(write_grows b bytes).capacity, offset_write hb hi.overflow]
    omega

@[simp] theorem offset_extendTo (b : CodeBuffer) (limit : Nat) (h : limit ≤ b.capacity) :
    (b.extendTo limit h).offset = max b.offset limit := by
  simp [offset, extendTo]

theorem extendTo_grows {limit : Nat} (h : limit ≤ b.capacity) (hb : b.overflow = none) :
    b.Grows (b.extendTo limit h) :=
  ⟨rfl, rfl, rfl, by rw [offset_extendTo]; exact le_max_left _ _, fun _ => hb⟩

theorem align_of_overflowed (h : b.overflow ≠ none) (alignment : Nat) : b.align alignment = b := by
  simp [align, overflowed, Option.isSome_iff_ne_none.2 h]

theorem align_of_le (hb : b.Intact) {alignment : Nat}
    (h : Word.alignTo b.offset alignment ≤ b.capacity) :
    b.align alignment = b.extendTo (Word.alignTo b.offset alignment) h := by
  simp [align, hb.not_overflowed, h]

theorem align_of_lt (hb : b.Intact) {alignment : Nat}
    (h : b.capacity < Word.alignTo b.offset alignment) :
    b.align alignment = { b with overflow := some .space } := by
  simp [align, hb.not_overflowed, Nat.not_le.2 h]

theorem align_grows (b : CodeBuffer) (alignment : Nat) : b.Grows (b.align alignment) := by
  unfold align
  split
  · exact Grows.refl b
  · rename_i hb
    dsimp only
    split
    · exact extendTo_grows _ (by simpa [overflowed] using hb)
    · exact ⟨rfl, rfl, rfl, le_refl _, by simp⟩

theorem reserve_of_overflowed (h : b.overflow ≠ none) (size alignment : Nat) :
    b.reserve size alignment = (b, none) := by
  simp [reserve, overflowed, Option.isSome_iff_ne_none.2 h]

theorem reserve_of_lt (hb : b.Intact) {size alignment : Nat}
    (h : Word.alignTo b.offset alignment + size < b.capacity) :
    b.reserve size alignment =
      (b.extendTo (Word.alignTo b.offset alignment + size) h.le,
        some (Word.alignTo b.offset alignment)) := by
  simp [reserve, hb.not_overflowed, h]

theorem reserve_of_le (hb : b.Intact) {size alignment : Nat}
    (h : b.capacity ≤ Word.alignTo b.offset alignment + size) :
    b.reserve size alignment = ({ b with overflow := some .space }, none) := by
  simp [reserve, hb.not_overflowed, Nat.not_lt.2 h]

theorem reserve_grows (b : CodeBuffer) (size alignment : Nat) :
    b.Grows (b.reserve size alignment).1 := by
  unfold reserve
  split
  · exact Grows.refl b
  · rename_i hb
    dsimp only
    split
    · rename_i hlt
      exact extendTo_grows hlt.le (by simpa [overflowed] using hb)
    · exact ⟨rfl, rfl, rfl, le_refl _, by simp⟩

/-- Reserved space starts at a multiple of the alignment and lies before the cursor. -/
theorem reserve_eq_some {size alignment start : Nat}
    (h : (b.reserve size alignment).2 = some start) :
    start = Word.alignTo b.offset alignment ∧
      start + size ≤ (b.reserve size alignment).1.offset := by
  unfold reserve at h ⊢
  split at h
  · cases h
  · rename_i hb
    dsimp only at h ⊢
    split at h
    · rename_i hlt
      cases h
      rw [if_neg hb, dif_pos hlt, offset_extendTo]
      exact ⟨rfl, le_max_right _ _⟩
    · cases h

theorem exists_of_reserve {size alignment : Nat}
    (h : (b.reserve size alignment).1.overflow = none) :
    ∃ start, (b.reserve size alignment).2 = some start := by
  unfold reserve at h ⊢
  split at h
  · rename_i hb
    have hnone : b.overflow = none := h
    simp [overflowed, hnone] at hb
  · rename_i hb
    dsimp only at h ⊢
    split at h
    · rename_i hlt
      rw [if_neg hb, dif_pos hlt]
      exact ⟨_, rfl⟩
    · cases h

theorem getElem?_extendTo {limit i : Nat} (h : limit ≤ b.capacity) (hi : i < b.offset) :
    (b.extendTo limit h).code[i]? = b.code[i]? := Array.getElem?_append_left hi

theorem getElem?_align {i : Nat} (alignment : Nat) (hi : i < b.offset) :
    (b.align alignment).code[i]? = b.code[i]? := by
  unfold align
  split
  · rfl
  · dsimp only
    split
    · exact getElem?_extendTo _ hi
    · rfl

theorem getElem?_reserve {i : Nat} (size alignment : Nat) (hi : i < b.offset) :
    (b.reserve size alignment).1.code[i]? = b.code[i]? := by
  unfold reserve
  split
  · rfl
  · dsimp only
    split
    · rename_i hlt
      exact getElem?_extendTo hlt.le hi
    · rfl

@[simp] theorem offset_fill {ε : Type} (b : CodeBuffer) (offset : Nat) (plan : Plan ε) :
    (b.fill offset plan).offset = b.offset := by
  simp [fill, CodeBuffer.offset]

theorem fill_grows {ε : Type} (b : CodeBuffer) (offset : Nat) (plan : Plan ε) :
    b.Grows (b.fill offset plan) :=
  ⟨rfl, rfl, rfl, (offset_fill b offset plan).ge, id⟩

end CodeEmission.CodeBuffer
