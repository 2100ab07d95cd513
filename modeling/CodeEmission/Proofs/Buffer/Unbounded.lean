import CodeEmission.Proofs.Buffer.Growth
import CodeEmission.Proofs.Resolution.Stores
import CodeEmission.Proofs.Rounding

/-! # Buffers and lists without end

A buffer answers its calls as a list of bytes would that never ends, up to the first call for which it
has no room. From then on it only lets the bytes be changed that it has.
-/

namespace CodeEmission

inductive Request where
  | number (width value : Nat)
  | bytes (bs : List UInt8)
  | align (alignment : Nat)
  | reserve (size alignment : Nat)
  /-- Asks for the bytes of a range before the cursor and writes others over them. -/
  | fill (offset : Nat) (bs : List UInt8)
  deriving DecidableEq, Repr

inductive Reply where
  | done
  | start (offset : Option Nat)
  | view (bs : Option (List UInt8))
  deriving DecidableEq, Repr

def answers {σ : Type} (perform : σ → Request → σ × Reply) (s : σ) : List Request → σ × List Reply
  | [] => (s, [])
  | r :: rs =>
    let rest := answers perform (perform s r).1 rs
    (rest.1, (perform s r).2 :: rest.2)

theorem answers_append {σ : Type} (perform : σ → Request → σ × Reply) (s : σ)
    (rs ts : List Request) :
    answers perform s (rs ++ ts) =
      ((answers perform (answers perform s rs).1 ts).1,
        (answers perform s rs).2 ++ (answers perform (answers perform s rs).1 ts).2) := by
  induction rs generalizing s with
  | nil => rfl
  | cons r rs ih => simp only [List.cons_append, answers, ih]

namespace Request

def zerosTo (length : Nat) (l : List UInt8) : List UInt8 := l ++ List.replicate (length - l.length) 0

/-- A call of a list of bytes that has no end. -/
def onList (l : List UInt8) : Request → List UInt8 × Reply
  | .number width value => (l ++ Bytes.littleEndian width value, .done)
  | .bytes bs => (l ++ bs, .done)
  | .align alignment => (zerosTo (Word.alignTo l.length alignment) l, .done)
  | .reserve size alignment =>
    let start := Word.alignTo l.length alignment
    (zerosTo start l ++ List.replicate size 0, .start (some start))
  | .fill offset bs =>
    if offset + bs.length ≤ l.length then
      (l.take offset ++ bs ++ l.drop (offset + bs.length),
        .view (some ((l.drop offset).take bs.length)))
    else (l, .view none)

/-- A call of a list of bytes that takes no more. -/
def onFull (l : List UInt8) : Request → List UInt8 × Reply
  | .fill offset bs => onList l (.fill offset bs)
  | .reserve .. => (l, .start none)
  | _ => (l, .done)

/-- How many bytes have to be left when a call is done. Reserved space does not reach the end. -/
def spare : Request → Nat
  | .reserve .. => 1
  | _ => 0

def Fits (capacity : Nat) (l : List UInt8) (r : Request) : Prop :=
  (onList l r).1.length + r.spare ≤ capacity

instance (capacity : Nat) (l : List UInt8) (r : Request) : Decidable (Fits capacity l r) :=
  inferInstanceAs (Decidable (_ ≤ _))

def AllFit (capacity : Nat) (l : List UInt8) : List Request → Prop
  | [] => True
  | r :: rs => r.Fits capacity l ∧ AllFit capacity (onList l r).1 rs

variable {capacity : Nat} {l : List UInt8}

/-- Either there is room for all calls, or some call is the first to have none. -/
theorem allFit_or_misfit (rs : List Request) (l : List UInt8) :
    AllFit capacity l rs ∨ ∃ before r after, rs = before ++ r :: after ∧
      AllFit capacity l before ∧ ¬r.Fits capacity (answers onList l before).1 := by
  induction rs generalizing l with
  | nil => exact .inl trivial
  | cons r rs ih =>
    by_cases hr : r.Fits capacity l
    · rcases ih (onList l r).1 with hall | ⟨before, s, after, rfl, hbefore, hs⟩
      · exact .inl ⟨hr, hall⟩
      · exact .inr ⟨r :: before, s, after, rfl, ⟨hr, hbefore⟩, hs⟩
    · exact .inr ⟨[], r, rs, rfl, trivial, hr⟩

theorem fits_align {alignment : Nat} (h : l.length ≤ Word.alignTo l.length alignment) :
    Fits capacity l (.align alignment) ↔ Word.alignTo l.length alignment ≤ capacity := by
  simp only [Fits, onList, zerosTo, spare, List.length_append, List.length_replicate]
  omega

theorem fits_reserve {size alignment : Nat} (h : l.length ≤ Word.alignTo l.length alignment) :
    Fits capacity l (.reserve size alignment) ↔
      Word.alignTo l.length alignment + size < capacity := by
  simp only [Fits, onList, zerosTo, spare, List.length_append, List.length_replicate]
  omega

theorem length_fill (l : List UInt8) (offset : Nat) (bs : List UInt8) :
    (onList l (.fill offset bs)).1.length = l.length := by
  unfold onList
  dsimp only
  split
  · simp only [List.length_append, List.length_take, List.length_drop]
    omega
  · rfl

theorem length_onFull (l : List UInt8) (r : Request) : (onFull l r).1.length = l.length := by
  cases r with
  | fill offset bs => exact length_fill l offset bs
  | _ => rfl

theorem length_answers_onFull (l : List UInt8) (rs : List Request) :
    (answers onFull l rs).1.length = l.length := by
  induction rs generalizing l with
  | nil => rfl
  | cons r rs ih => exact (ih _).trans (length_onFull l r)

end Request

namespace Bytes

theorem toList_overwrite {dest : Bytes} {offset : Nat} {bs : List UInt8}
    (h : offset + bs.length ≤ dest.size) :
    (overwrite dest offset bs).toList =
      dest.toList.take offset ++ bs ++ dest.toList.drop (offset + bs.length) := by
  have hlen : (dest.toList.take offset).length = offset := by
    rw [List.length_take, Array.length_toList]
    omega
  refine List.ext_getElem? ?_
  intro i
  rw [Array.getElem?_toList, List.append_assoc]
  by_cases hbefore : i < offset
  · rw [getElem?_overwrite_outside dest (.inl hbefore), List.getElem?_append_left (by omega),
      List.getElem?_take_of_lt hbefore, Array.getElem?_toList]
  · obtain ⟨k, rfl⟩ := Nat.exists_eq_add_of_le (Nat.le_of_not_lt hbefore)
    rw [List.getElem?_append_right (by omega), hlen, Nat.add_sub_cancel_left]
    by_cases hinside : k < bs.length
    · rw [getElem?_overwrite_inside h hinside, List.getElem?_append_left hinside]
    · rw [getElem?_overwrite_outside dest (.inr (by omega)),
        List.getElem?_append_right (Nat.le_of_not_lt hinside), List.getElem?_drop,
        Array.getElem?_toList]
      congr 1
      omega

end Bytes

namespace CodeBuffer

open Request

def perform (b : CodeBuffer) : Request → CodeBuffer × Reply
  | .number width value => (b.write (Bytes.littleEndian width value), .done)
  | .bytes bs => (b.write bs, .done)
  | .align alignment => (b.align alignment, .done)
  | .reserve size alignment =>
    let given := b.reserve size alignment
    (given.1, .start given.2)
  | .fill offset bs =>
    if b.isWritable offset bs.length then
      let plan : Plan Unit := .store 0 bs
      (b.fill offset plan, .view (some (b.block.slice offset bs.length).toList))
    else (b, .view none)

variable {b : CodeBuffer} {capacity : Nat} {l : List UInt8} {r : Request} {rs : List Request}

theorem perform_grows (b : CodeBuffer) (r : Request) : b.Grows (b.perform r).1 := by
  cases r with
  | number width value => exact write_grows b _
  | bytes bs => exact write_grows b bs
  | align alignment => exact align_grows b alignment
  | reserve size alignment => exact reserve_grows b size alignment
  | fill offset bs =>
    rw [perform]
    split
    · exact fill_grows b offset _
    · exact .refl b

theorem answers_grows (b : CodeBuffer) (rs : List Request) : b.Grows (answers perform b rs).1 := by
  induction rs generalizing b with
  | nil => exact .refl b
  | cons r rs ih => exact (perform_grows b r).trans (ih _)

structure HoldsList (b : CodeBuffer) (capacity : Nat) (l : List UInt8) : Prop where
  capacity : b.capacity = capacity
  writable : b.block.executable = false
  code : b.code.toList = l

namespace HoldsList

theorem offset (h : b.HoldsList capacity l) : b.offset = l.length := by
  rw [← h.code, Array.length_toList]
  rfl

theorem length_le (h : b.HoldsList capacity l) : l.length ≤ capacity := by
  rw [← h.offset, ← h.capacity]
  exact b.offset_le_capacity

theorem overflowing (h : b.HoldsList capacity l) (o : Option Overflow) :
    HoldsList { b with overflow := o } capacity l := ⟨h.capacity, h.writable, h.code⟩

theorem le_start (h : b.HoldsList capacity l) (hword : capacity < Word.modulus) (alignment : Nat) :
    l.length ≤ Word.alignTo l.length alignment :=
  Word.le_alignTo alignment (h.length_le.trans_lt hword)

theorem extendTo (h : b.HoldsList capacity l) {limit : Nat} (hle : limit ≤ b.capacity) :
    (b.extendTo limit hle).HoldsList capacity (zerosTo limit l) := by
  refine ⟨h.capacity, h.writable, ?_⟩
  have hcode : (b.extendTo limit hle).code.toList =
      b.code.toList ++ List.replicate (limit - b.code.size) 0 := by
    simp [CodeBuffer.extendTo, CodeBuffer.code, Bytes.padTo]
  rw [hcode, h.code, show b.code.size = l.length from h.offset, zerosTo]

theorem fill (h : b.HoldsList capacity l) (offset : Nat) (bs : List UInt8) :
    (b.perform (.fill offset bs)).1.HoldsList capacity (onList l (.fill offset bs)).1 ∧
      (b.perform (.fill offset bs)).1.overflow = b.overflow ∧
      (b.perform (.fill offset bs)).2 = (onList l (.fill offset bs)).2 := by
  have hwritable : b.isWritable offset bs.length = true ↔ offset + bs.length ≤ l.length := by
    rw [isWritable, h.writable, h.offset]
    simp
  unfold perform onList
  dsimp only
  split
  · rename_i hin
    have hle := hwritable.1 hin
    have hsize : offset + bs.length ≤ b.code.size := by
      rwa [← h.offset] at hle
    rw [if_pos hle]
    refine ⟨⟨h.capacity, h.writable, ?_⟩, rfl, ?_⟩
    · rw [← h.code, ← Bytes.toList_overwrite hsize]
      rfl
    · rw [← h.code]
      have hview : (b.block.slice offset bs.length).toList =
          (b.code.toList.drop offset).take bs.length := by
        have hnone : bs.length - (b.block.contents.extract offset (offset + bs.length)).size = 0 := by
          rw [Array.size_extract]
          change offset + bs.length ≤ b.block.contents.size at hsize
          omega
        rw [Block.slice, Bytes.padTo, hnone]
        simp [CodeBuffer.code, List.extract]
      rw [hview]
  · rename_i hout
    rw [if_neg (fun hle => hout (hwritable.2 hle))]
    exact ⟨h, rfl, rfl⟩

/-- A call with room for it is answered as by a list without end. -/
theorem perform_fits (h : b.HoldsList capacity l) (ho : b.overflow = none)
    (hword : capacity < Word.modulus) (hr : r.Fits capacity l) :
    (b.perform r).1.HoldsList capacity (onList l r).1 ∧ (b.perform r).1.overflow = none ∧
      (b.perform r).2 = (onList l r).2 := by
  have hi : b.Intact := ⟨ho, h.writable⟩
  have hwrite (bs : List UInt8) (hbs : (l ++ bs).length ≤ capacity) :
      (b.write bs).HoldsList capacity (l ++ bs) ∧ (b.write bs).overflow = none := by
    rw [write_of_le hi (by rwa [h.offset, h.capacity, ← List.length_append])]
    refine ⟨⟨h.capacity, h.writable, ?_⟩, ho⟩
    rw [code_append, Array.toList_append, h.code]
  cases r with
  | number width value =>
    obtain ⟨hl, hn⟩ := hwrite _ hr
    exact ⟨hl, hn, rfl⟩
  | bytes bs =>
    obtain ⟨hl, hn⟩ := hwrite _ hr
    exact ⟨hl, hn, rfl⟩
  | align alignment =>
    rw [fits_align (h.le_start hword alignment), ← h.offset, ← h.capacity] at hr
    have hx := h.extendTo hr
    rw [← align_of_le hi hr, h.offset] at hx
    refine ⟨hx, ?_, rfl⟩
    rw [perform, align_of_le hi hr]
    exact ho
  | reserve size alignment =>
    have hstart := h.le_start hword alignment
    rw [fits_reserve hstart, ← h.offset, ← h.capacity] at hr
    have hx := h.extendTo hr.le
    have hzeros : zerosTo (Word.alignTo b.offset alignment + size) l =
        zerosTo (Word.alignTo l.length alignment) l ++ List.replicate size 0 := by
      rw [zerosTo, zerosTo, List.append_assoc, List.replicate_append_replicate, h.offset]
      congr 2
      omega
    rw [hzeros] at hx
    have hreserve := reserve_of_lt hi hr
    refine ⟨?_, ?_, ?_⟩
    · rwa [perform, hreserve]
    · rwa [perform, hreserve]
    · rw [perform, hreserve, onList]
      dsimp only
      rw [h.offset]
  | fill offset bs =>
    obtain ⟨hl, hn, hreply⟩ := h.fill offset bs
    exact ⟨hl, hn.trans ho, hreply⟩

/-- After an overflow only bytes that are there can be changed. -/
theorem perform_full (h : b.HoldsList capacity l) (ho : b.overflow ≠ none) (r : Request) :
    (b.perform r).1.HoldsList capacity (onFull l r).1 ∧ (b.perform r).1.overflow ≠ none ∧
      (b.perform r).2 = (onFull l r).2 := by
  cases r with
  | number width value =>
    rw [perform, write_of_overflowed ho]
    exact ⟨h, ho, rfl⟩
  | bytes bs =>
    rw [perform, write_of_overflowed ho]
    exact ⟨h, ho, rfl⟩
  | align alignment =>
    rw [perform, align_of_overflowed ho]
    exact ⟨h, ho, rfl⟩
  | reserve size alignment =>
    rw [perform, reserve_of_overflowed ho]
    exact ⟨h, ho, rfl⟩
  | fill offset bs =>
    obtain ⟨hl, hn, hreply⟩ := h.fill offset bs
    exact ⟨hl, hn ▸ ho, hreply⟩

/-- The first call without room for it is refused as a whole. -/
theorem perform_misfit (h : b.HoldsList capacity l) (ho : b.overflow = none)
    (hword : capacity < Word.modulus) (hr : ¬r.Fits capacity l) :
    (b.perform r).1.HoldsList capacity (onFull l r).1 ∧ (b.perform r).1.overflow ≠ none ∧
      (b.perform r).2 = (onFull l r).2 := by
  have hi : b.Intact := ⟨ho, h.writable⟩
  have hwrite (bs : List UInt8) (hbs : capacity < (l ++ bs).length) :
      (b.write bs).HoldsList capacity l ∧ (b.write bs).overflow ≠ none := by
    rw [write_of_lt hi (by rwa [h.offset, h.capacity, ← List.length_append])]
    exact ⟨h.overflowing _, nofun⟩
  cases r with
  | number width value =>
    obtain ⟨hl, hn⟩ := hwrite _ (Nat.lt_of_not_le hr)
    exact ⟨hl, hn, rfl⟩
  | bytes bs =>
    obtain ⟨hl, hn⟩ := hwrite _ (Nat.lt_of_not_le hr)
    exact ⟨hl, hn, rfl⟩
  | align alignment =>
    rw [fits_align (h.le_start hword alignment), ← h.offset, ← h.capacity, Nat.not_le] at hr
    rw [perform, align_of_lt hi hr]
    exact ⟨h.overflowing _, nofun, rfl⟩
  | reserve size alignment =>
    rw [fits_reserve (h.le_start hword alignment), ← h.offset, ← h.capacity, Nat.not_lt] at hr
    rw [perform, reserve_of_le hi hr]
    exact ⟨h.overflowing _, nofun, rfl⟩
  | fill offset bs =>
    refine absurd ?_ hr
    rw [Fits, length_fill]
    exact h.length_le

theorem answers_fit (h : b.HoldsList capacity l) (ho : b.overflow = none)
    (hword : capacity < Word.modulus) (hfit : AllFit capacity l rs) :
    (answers perform b rs).1.HoldsList capacity (answers onList l rs).1 ∧
      (answers perform b rs).1.overflow = none ∧
      (answers perform b rs).2 = (answers onList l rs).2 := by
  induction rs generalizing b l with
  | nil => exact ⟨h, ho, rfl⟩
  | cons r rs ih =>
    obtain ⟨hl, hn, hreply⟩ := h.perform_fits ho hword hfit.1
    obtain ⟨hrest, hrestn, hreplies⟩ := ih hl hn hfit.2
    exact ⟨hrest, hrestn, congrArg₂ List.cons hreply hreplies⟩

theorem answers_full (h : b.HoldsList capacity l) (ho : b.overflow ≠ none) (rs : List Request) :
    (answers perform b rs).1.HoldsList capacity (answers onFull l rs).1 ∧
      (answers perform b rs).1.overflow ≠ none ∧
      (answers perform b rs).2 = (answers onFull l rs).2 := by
  induction rs generalizing b l with
  | nil => exact ⟨h, ho, rfl⟩
  | cons r rs ih =>
    obtain ⟨hl, hn, hreply⟩ := h.perform_full ho r
    obtain ⟨hrest, hrestn, hreplies⟩ := ih hl hn
    exact ⟨hrest, hrestn, congrArg₂ List.cons hreply hreplies⟩

/-- The calls before the first that is refused are answered as by a list without end, that call and
all calls after it as by a list that takes no more. -/
theorem answers_misfit {before after : List Request} (h : b.HoldsList capacity l)
    (ho : b.overflow = none) (hword : capacity < Word.modulus) (hfit : AllFit capacity l before)
    (hr : ¬r.Fits capacity (answers onList l before).1) :
    (answers perform b (before ++ r :: after)).1.HoldsList capacity
        (answers onFull (answers onList l before).1 (r :: after)).1 ∧
      (answers perform b (before ++ r :: after)).1.overflow ≠ none ∧
      (answers perform b (before ++ r :: after)).2 =
        (answers onList l before).2 ++
          (answers onFull (answers onList l before).1 (r :: after)).2 := by
  obtain ⟨hl, hn, hreplies⟩ := h.answers_fit ho hword hfit
  obtain ⟨hl', hn', hreply⟩ := hl.perform_misfit hn hword hr
  obtain ⟨hrest, hrestn, hrestreplies⟩ := hl'.answers_full hn' after
  rw [answers_append]
  refine ⟨hrest, hrestn, ?_⟩
  rw [hreplies]
  exact congrArg _ (congrArg₂ List.cons hreply hrestreplies)

end HoldsList

theorem read?_behind (b : CodeBuffer) {i : Nat} (hi : b.offset ≤ i) (hlt : i < b.capacity) :
    b.block.read? i 1 = some #[0] := by
  have hsize : i + 1 ≤ b.block.size := hlt
  have hbyte : b.block.byteAt i = 0 := by
    rw [Block.byteAt, Array.getElem?_eq_none hi]
    rfl
  rw [Block.read?, if_pos hsize, Block.slice_eq_ofFn, ← hbyte]
  rfl

/-- A new buffer answers calls as a list of bytes without end does, up to the first call for which it
has no room. That call and all after it change nothing but bytes before the cursor. At any time the
cursor is within the buffer, and all bytes behind it are zero. -/
theorem answers_as_unbounded (b : CodeBuffer) (hb : b.Intact) (hempty : b.code = #[])
    (hword : b.capacity < Word.modulus) (rs : List Request) :
    ((answers perform b rs).1.offset ≤ b.capacity ∧
      ∀ i, (answers perform b rs).1.offset ≤ i → i < b.capacity →
        (answers perform b rs).1.block.read? i 1 = some #[0]) ∧
    (AllFit b.capacity [] rs →
      (answers perform b rs).1.code.toList = (answers onList [] rs).1 ∧
        (answers perform b rs).1.offset = (answers onList [] rs).1.length ∧
        (answers perform b rs).2 = (answers onList [] rs).2 ∧
        (answers perform b rs).1.overflowed = false) ∧
    (¬AllFit b.capacity [] rs → ∃ before r after, rs = before ++ r :: after ∧
      AllFit b.capacity [] before ∧ ¬r.Fits b.capacity (answers onList [] before).1 ∧
        (answers perform b rs).1.code.toList =
          (answers onFull (answers onList [] before).1 (r :: after)).1 ∧
        (answers perform b rs).1.offset = (answers onList [] before).1.length ∧
        (answers perform b rs).2 =
          (answers onList [] before).2 ++
            (answers onFull (answers onList [] before).1 (r :: after)).2 ∧
        (answers perform b rs).1.overflowed = true) := by
  have hl : b.HoldsList b.capacity [] := ⟨rfl, hb.writable, congrArg Array.toList hempty⟩
  refine ⟨?_, ?_, ?_⟩
  · rw [← (answers_grows b rs).capacity]
    exact ⟨offset_le_capacity _, fun i hi hlt => read?_behind _ hi hlt⟩
  · intro hfit
    obtain ⟨hrs, hn, hreplies⟩ := hl.answers_fit hb.overflow hword hfit
    exact ⟨hrs.code, hrs.offset, hreplies, by simp [overflowed, hn]⟩
  · intro hnot
    obtain ⟨before, r, after, rfl, hfit, hr⟩ := (allFit_or_misfit rs []).resolve_left hnot
    obtain ⟨hrs, hn, hreplies⟩ := hl.answers_misfit hb.overflow hword hfit hr
    refine ⟨before, r, after, rfl, hfit, hr, hrs.code, ?_, hreplies, ?_⟩
    · rw [hrs.offset, length_answers_onFull]
    · rw [overflowed, Option.isSome_iff_ne_none]
      exact hn

theorem answers_as_unbounded_sixteen :
    ((answers perform (ofCapacity 16) [.number 2 0x1234, .align 8, .reserve 4 4]).1.code.toList =
        [0x34, 0x12, 0, 0, 0, 0, 0, 0, 0, 0, 0, 0] ∧
      (answers perform (ofCapacity 16) [.number 2 0x1234, .align 8, .reserve 4 4]).2 =
        [.done, .done, .start (some 8)]) ∧
    (answers perform (ofCapacity 16)
      [.number 2 0x1234, .bytes (List.replicate 15 1), .fill 1 [7]]).1.overflowed = true := by
  obtain ⟨-, hfit, -⟩ := answers_as_unbounded (ofCapacity 16) (ofCapacity_intact 16) rfl (by decide)
    [.number 2 0x1234, .align 8, .reserve 4 4]
  obtain ⟨hcode, -, hreplies, -⟩ := hfit ⟨by decide, by decide, by decide, trivial⟩
  obtain ⟨-, -, hmisfit⟩ := answers_as_unbounded (ofCapacity 16) (ofCapacity_intact 16) rfl
    (by decide) [.number 2 0x1234, .bytes (List.replicate 15 1), .fill 1 [7]]
  obtain ⟨_, _, _, -, -, -, -, -, -, ho⟩ := hmisfit (fun h => absurd h.2.1 (by decide))
  exact ⟨⟨hcode, hreplies⟩, ho⟩

end CodeBuffer

end CodeEmission
