import CodeEmission.MappedBuffer
import CodeEmission.Proofs.Buffer.Unbounded

/-! # Buffers in memory

A buffer over memory that was zero does what a list of bytes with a limit does. Its cursor stays in
the memory, and nothing behind the cursor is changed for good: padding is zero, and so is space that
was reserved or refused.
-/

namespace CodeEmission

namespace Bytes

theorem toList_padTo (length : Nat) (bs : Bytes) :
    (padTo length bs).toList = bs.toList ++ List.replicate (length - bs.size) 0 := by
  simp [padTo]

theorem padTo_padTo {limit capacity : Nat} (bs : Bytes) (h : limit ≤ capacity) :
    padTo capacity (padTo limit bs) = padTo capacity bs := by
  refine Array.toList_inj.1 ?_
  rw [toList_padTo, toList_padTo, toList_padTo, size_padTo, List.append_assoc,
    List.replicate_append_replicate]
  congr 2
  omega

theorem overwrite_padTo {capacity offset : Nat} {bs : Bytes} {run : List UInt8}
    (h : offset + run.length ≤ bs.size) :
    overwrite (padTo capacity bs) offset run = padTo capacity (overwrite bs offset run) := by
  have hsize : offset + run.length ≤ (padTo capacity bs).size := by
    rw [size_padTo]
    exact h.trans (le_max_left _ _)
  have hlen : offset + run.length ≤ bs.toList.length := h
  refine Array.toList_inj.1 ?_
  rw [toList_overwrite hsize, toList_padTo, toList_padTo, toList_overwrite h, size_overwrite,
    List.take_append_of_le_length (by omega), List.drop_append_of_le_length hlen, List.append_assoc,
    List.append_assoc, List.append_assoc]

theorem overwrite_padTo_end {capacity : Nat} {bs : Bytes} {run : List UInt8}
    (h : bs.size + run.length ≤ capacity) :
    overwrite (padTo capacity bs) bs.size run = padTo capacity (bs ++ run.toArray) := by
  have hsize : bs.size + run.length ≤ (padTo (bs.size + run.length) bs).size := by
    rw [size_padTo]
    exact le_max_right _ _
  have hextended : overwrite (padTo (bs.size + run.length) bs) bs.size run = bs ++ run.toArray := by
    refine Array.toList_inj.1 ?_
    rw [toList_overwrite hsize, toList_padTo, Nat.add_sub_cancel_left, ← Array.length_toList,
      List.take_left, List.drop_append, Array.toList_append]
    simp
  rw [← padTo_padTo bs h, overwrite_padTo hsize, hextended]

end Bytes

namespace CodeBuffer

variable {b : CodeBuffer}

/-- A buffer in memory: its bytes, and zeros behind the cursor. -/
def mapped (b : CodeBuffer) : MappedBuffer where
  address := b.block.address
  memory := b.code.padTo b.capacity
  executable := b.block.executable
  cursor := b.offset
  overflow := b.overflow

theorem mapped_of_block {block : Block} (h : block.contents = #[]) :
    MappedBuffer.ofBlock block = mapped { block } := by
  simp only [MappedBuffer.ofBlock, mapped, code, capacity, offset, h]
  rfl

@[simp] theorem mapped_capacity (b : CodeBuffer) : b.mapped.capacity = b.capacity := by
  have hsize : b.mapped.capacity = max b.offset b.capacity := Bytes.size_padTo b.capacity b.code
  rw [hsize]
  exact max_eq_right b.offset_le_capacity

@[simp] theorem mapped_remaining (b : CodeBuffer) : b.mapped.remaining = b.remaining :=
  congrArg (· - b.offset) b.mapped_capacity

@[simp] theorem mapped_overflowed (b : CodeBuffer) : b.mapped.overflowed = b.overflowed := rfl

@[simp] theorem mapped_code (b : CodeBuffer) : b.mapped.code = b.code := by
  have hoffset : b.offset = Array.size b.code := rfl
  simp [MappedBuffer.code, mapped, Bytes.padTo, hoffset]

theorem mapped_zero_behind {i : Nat} (hi : b.mapped.cursor ≤ i) (hlt : i < b.mapped.capacity) :
    b.mapped.memory[i]? = some 0 := by
  rw [mapped_capacity] at hlt
  have hsize : Array.size b.code ≤ i := hi
  have hpad : i - Array.size b.code < b.capacity - Array.size b.code := by omega
  change (b.code ++ Array.replicate (b.capacity - Array.size b.code) 0)[i]? = some 0
  rw [Array.getElem?_append_right hsize, Array.getElem?_replicate, if_pos hpad]

theorem mapped_append (b : CodeBuffer) (bytes : List UInt8)
    (h : b.offset + bytes.length ≤ b.capacity) :
    (b.append bytes h).mapped =
      { b.mapped with
        memory := b.mapped.memory.overwrite b.offset bytes
        cursor := b.offset + bytes.length } :=
  MappedBuffer.ext rfl (Bytes.overwrite_padTo_end h).symm rfl (offset_append b bytes h) rfl

/-- Space that was never written to is zero, so only the cursor moves over it. -/
theorem mapped_extendTo {limit : Nat} (h : limit ≤ b.capacity) (hlimit : b.offset ≤ limit) :
    (b.extendTo limit h).mapped = { b.mapped with cursor := limit } :=
  MappedBuffer.ext rfl (Bytes.padTo_padTo b.code h) rfl
    ((offset_extendTo b limit h).trans (max_eq_right hlimit)) rfl

theorem overwrite_zeros {limit : Nat} (h : limit ≤ b.capacity) :
    b.mapped.memory.overwrite b.offset (List.replicate (limit - b.offset) 0) = b.mapped.memory := by
  have hle := b.offset_le_capacity
  have hroom : b.offset + (List.replicate (limit - b.offset) (0 : UInt8)).length ≤ b.capacity := by
    rw [List.length_replicate]
    omega
  have hzeros : b.code ++ (List.replicate (limit - b.offset) (0 : UInt8)).toArray =
      b.code.padTo limit := by
    rw [List.toArray_replicate]
    rfl
  calc b.mapped.memory.overwrite b.offset (List.replicate (limit - b.offset) 0)
      = (b.code ++ (List.replicate (limit - b.offset) (0 : UInt8)).toArray).padTo b.capacity :=
        Bytes.overwrite_padTo_end hroom
    _ = (b.code.padTo limit).padTo b.capacity := by rw [hzeros]
    _ = b.mapped.memory := Bytes.padTo_padTo b.code h

theorem mapped_write (b : CodeBuffer) (bytes : List UInt8) :
    b.mapped.write bytes = (b.write bytes).mapped := by
  have hle := b.offset_le_capacity
  unfold MappedBuffer.write write
  rw [mapped_overflowed, mapped_remaining, remaining]
  split
  · rfl
  by_cases hfits : b.offset + bytes.length ≤ b.capacity
  · rw [if_neg (by omega), dif_pos hfits]
    change (if b.block.executable = true then _ else _) = _
    split
    · rfl
    · exact (mapped_append b bytes hfits).symm
  · rw [if_pos (by omega), dif_neg hfits]
    rfl

theorem mapped_align (b : CodeBuffer) (alignment : Nat) :
    b.mapped.align alignment = (b.align alignment).mapped := by
  unfold MappedBuffer.align align
  rw [mapped_overflowed, mapped_capacity]
  split
  · rfl
  have hstart := Word.le_alignTo alignment (Nat.lt_succ_of_le b.offset_le_largest)
  change (if b.capacity < Word.alignTo b.offset alignment then _ else _) = _
  by_cases hfits : Word.alignTo b.offset alignment ≤ b.capacity
  · rw [if_neg (Nat.not_lt.2 hfits)]
    simp only [dif_pos hfits]
    rw [mapped_extendTo hfits hstart]
    split
    · rfl
    · exact MappedBuffer.ext rfl (overwrite_zeros hfits) rfl rfl rfl
  · rw [if_pos (Nat.lt_of_not_le hfits)]
    simp only [dif_neg hfits]
    rfl

/-- Space that is aligned and then refused leaves nothing behind. -/
theorem mapped_reserve (b : CodeBuffer) (size alignment : Nat) :
    b.mapped.reserve size alignment =
      ((b.reserve size alignment).1.mapped, (b.reserve size alignment).2) := by
  have hstart := Word.le_alignTo alignment (Nat.lt_succ_of_le b.offset_le_largest)
  unfold MappedBuffer.reserve reserve
  rw [mapped_overflowed, mapped_align]
  by_cases ho : b.overflowed = true
  · rw [if_pos ho, if_pos ho]
  rw [if_neg ho, if_neg ho]
  dsimp only
  by_cases hfits : Word.alignTo b.offset alignment ≤ b.capacity
  · have halign : b.align alignment = b.extendTo (Word.alignTo b.offset alignment) hfits := by
      simp [align, ho, hfits]
    have hremaining : (b.align alignment).remaining =
        b.capacity - Word.alignTo b.offset alignment := by
      rw [halign, remaining, offset_extendTo, max_eq_right hstart]
      rfl
    have hoverflowed : (b.align alignment).overflowed = false := by
      rw [halign]
      exact Bool.eq_false_of_not_eq_true ho
    rw [mapped_overflowed, mapped_remaining, hoverflowed, hremaining, halign,
      mapped_extendTo hfits hstart]
    by_cases hlt : Word.alignTo b.offset alignment + size < b.capacity
    · have hroom : ¬(false ||
          decide (b.capacity - Word.alignTo b.offset alignment ≤ size)) = true := by
        simp only [Bool.false_or, decide_eq_true_eq]
        omega
      rw [if_neg hroom, dif_pos hlt, mapped_extendTo hlt.le (hstart.trans (Nat.le_add_right _ _))]
    · have hroom : (false || decide (b.capacity - Word.alignTo b.offset alignment ≤ size)) = true := by
        simp only [Bool.false_or, decide_eq_true_eq]
        omega
      rw [if_pos hroom, dif_neg hlt]
      rfl
  · have halign : b.align alignment = { b with overflow := some .space } := by
      simp [align, ho, hfits]
    have hlt : ¬Word.alignTo b.offset alignment + size < b.capacity := by omega
    rw [halign, if_pos (by rfl), dif_neg hlt]
    rfl

@[simp] theorem mapped_isWritable (b : CodeBuffer) (offset length : Nat) :
    b.mapped.isWritable offset length = b.isWritable offset length := rfl

theorem mapped_fill {ε : Type} (b : CodeBuffer) {offset : Nat} {bytes : List UInt8}
    (h : offset + bytes.length ≤ b.offset) :
    b.mapped.fill offset bytes = (b.fill offset (.store 0 bytes : Plan ε)).mapped := by
  refine MappedBuffer.ext rfl (Bytes.overwrite_padTo h) rfl ?_ rfl
  exact (offset_fill b offset (.store 0 bytes : Plan ε)).symm

end CodeBuffer

namespace MappedBuffer

def perform (m : MappedBuffer) : Request → MappedBuffer × Reply
  | .number width value => (m.write (Bytes.littleEndian width value), .done)
  | .bytes bs => (m.write bs, .done)
  | .align alignment => (m.align alignment, .done)
  | .reserve size alignment =>
    let given := m.reserve size alignment
    (given.1, .start given.2)
  | .fill offset bs =>
    if m.isWritable offset bs.length then
      (m.fill offset bs, .view (some (m.memory.extract offset (offset + bs.length)).toList))
    else (m, .view none)

end MappedBuffer

namespace CodeBuffer

theorem mapped_view {offset length : Nat} (b : CodeBuffer) (h : offset + length ≤ b.offset) :
    b.mapped.memory.extract offset (offset + length) = b.block.slice offset length := by
  have hextract : (b.block.contents.extract offset (offset + length)).size = length := by
    rw [Array.size_extract]
    simp only [CodeBuffer.offset] at h
    omega
  have hmemory : b.mapped.memory = b.block.contents ++
      Array.replicate (b.capacity - b.block.contents.size) 0 := rfl
  have hbefore : offset + length - b.block.contents.size = 0 := Nat.sub_eq_zero_of_le h
  rw [Block.slice, Bytes.padTo, hextract, Nat.sub_self, hmemory, Array.extract_append, hbefore]
  simp

theorem mapped_perform (b : CodeBuffer) (r : Request) :
    b.mapped.perform r = ((b.perform r).1.mapped, (b.perform r).2) := by
  cases r with
  | number width value => rw [MappedBuffer.perform, mapped_write, perform]
  | bytes bs => rw [MappedBuffer.perform, mapped_write, perform]
  | align alignment => rw [MappedBuffer.perform, mapped_align, perform]
  | reserve size alignment => rw [MappedBuffer.perform, mapped_reserve, perform]
  | fill offset bs =>
    rw [MappedBuffer.perform, perform, mapped_isWritable]
    split
    · rename_i hwritable
      have hbefore : offset + bs.length ≤ b.offset :=
        of_decide_eq_true (Bool.and_eq_true_iff.1 hwritable).1
      rw [mapped_fill b hbefore, mapped_view b hbefore]
    · rfl

theorem mapped_answers (b : CodeBuffer) (rs : List Request) :
    answers MappedBuffer.perform b.mapped rs =
      ((answers perform b rs).1.mapped, (answers perform b rs).2) := by
  induction rs generalizing b with
  | nil => rfl
  | cons r rs ih =>
    rw [answers, answers, mapped_perform]
    dsimp only
    rw [ih]

end CodeBuffer

namespace MappedBuffer

/-- Whatever a buffer over new memory is asked for, it answers as the buffer that is nothing but the
bytes before its cursor, and the memory behind the cursor is zero. -/
theorem answers_ofBlock {block : Block} (h : block.contents = #[]) (rs : List Request) :
    let m := answers perform (ofBlock block) rs
    let b := answers CodeBuffer.perform { block } rs
    m.2 = b.2 ∧ m.1.code = b.1.code ∧ m.1.overflow = b.1.overflow ∧ m.1.capacity = block.size ∧
      m.1.cursor ≤ m.1.capacity ∧
      ∀ i, m.1.cursor ≤ i → i < m.1.capacity → m.1.memory[i]? = some 0 := by
  intro m b
  have hm : m = (b.1.mapped, b.2) := by
    rw [← CodeBuffer.mapped_answers, ← CodeBuffer.mapped_of_block h]
  have hsize : b.1.capacity = block.size := (CodeBuffer.answers_grows { block } rs).capacity
  rw [hm]
  refine ⟨rfl, b.1.mapped_code, rfl, b.1.mapped_capacity.trans hsize, ?_, ?_⟩
  · rw [CodeBuffer.mapped_capacity]
    exact b.1.offset_le_capacity
  · exact fun i hi hlt => CodeBuffer.mapped_zero_behind hi hlt

end MappedBuffer

end CodeEmission
