import Mathlib.Data.List.Forall2
import Mathlib.Order.Nat
import CodeEmission.Memory

/-! # Reading back what was stored

A store changes the bytes it writes and no others, so a run of bytes is read back as it was written
unless a later store touches it.
-/

namespace CodeEmission

namespace Bytes

theorem getElem?_overwrite_outside (dest : Bytes) {offset i : Nat} {bs : List UInt8}
    (h : i < offset ∨ offset + bs.length ≤ i) : (overwrite dest offset bs)[i]? = dest[i]? := by
  induction bs generalizing dest offset with
  | nil => rfl
  | cons b bs ih =>
    rw [List.length_cons] at h
    have hne : offset ≠ i := by omega
    have hrest : i < offset + 1 ∨ offset + 1 + bs.length ≤ i := by omega
    rw [overwrite, ih _ hrest, Array.getElem?_setIfInBounds_ne hne]

theorem getElem?_overwrite_inside {dest : Bytes} {offset k : Nat} {bs : List UInt8}
    (hdest : offset + bs.length ≤ dest.size) (hk : k < bs.length) :
    (overwrite dest offset bs)[offset + k]? = bs[k]? := by
  induction bs generalizing dest offset k with
  | nil => cases hk
  | cons b bs ih =>
    rw [List.length_cons] at hdest hk
    cases k with
    | zero =>
      have hlt : offset < dest.size := by omega
      have houtside : offset + 0 < offset + 1 ∨ offset + 1 + bs.length ≤ offset + 0 := by omega
      rw [overwrite, getElem?_overwrite_outside _ houtside, Nat.add_zero,
        Array.getElem?_setIfInBounds_self_of_lt hlt]
      rfl
    | succ k =>
      have hsize : offset + 1 + bs.length ≤ (dest.setIfInBounds offset b).size := by
        rw [Array.size_setIfInBounds]
        omega
      have hrest := ih hsize (Nat.lt_of_succ_lt_succ hk)
      rw [overwrite, ← Nat.add_assoc, Nat.add_right_comm, hrest]
      rfl

theorem getD_padTo (length : Nat) (bs : Bytes) (i : Nat) :
    ((padTo length bs)[i]?).getD 0 = (bs[i]?).getD 0 := by
  by_cases h : i < bs.size
  · rw [padTo, Array.getElem?_append_left h]
  · have hle : bs.size ≤ i := Nat.le_of_not_lt h
    simp only [padTo, Array.getElem?_append_right hle, Array.getElem?_replicate,
      Array.getElem?_eq_none hle]
    split <;> rfl

end Bytes

namespace Block

variable {b c : Block}

def byteAt (b : Block) (i : Nat) : UInt8 := (b.contents[i]?).getD 0

theorem slice_eq_ofFn (b : Block) (offset length : Nat) :
    b.slice offset length = Array.ofFn fun i : Fin length => b.byteAt (offset + i) := by
  have hsize : (b.slice offset length).size = length := by
    simp only [slice, Bytes.size_padTo, Array.size_extract]
    omega
  refine Array.ext (by rw [hsize, Array.size_ofFn]) ?_
  intro i hi _
  rw [hsize] at hi
  have hget : (b.slice offset length)[i]? = some (b.byteAt (offset + i)) := by
    have hsome : ((b.slice offset length)[i]?).getD 0 = b.byteAt (offset + i) := by
      rw [slice, Bytes.getD_padTo, byteAt, Array.getElem?_extract]
      split
      · rfl
      · have hnone : b.contents.size ≤ offset + i := by omega
        rw [Array.getElem?_eq_none hnone]
    rw [← hsome, Array.getElem?_eq_getElem (by rwa [hsize])]
    rfl
  rw [Array.getElem_ofFn]
  exact Option.some.inj ((Array.getElem?_eq_getElem _).symm.trans hget)

theorem slice_congr {offset length : Nat}
    (h : ∀ i < length, b.byteAt (offset + i) = c.byteAt (offset + i)) :
    b.slice offset length = c.slice offset length := by
  rw [slice_eq_ofFn, slice_eq_ofFn]
  congr 1
  funext i
  exact h i i.isLt

theorem getElem?_slice (b : Block) (offset length p : Nat) :
    (b.slice offset length)[p]? = if p < length then some (b.byteAt (offset + p)) else none := by
  rw [slice_eq_ofFn, Array.getElem?_ofFn]
  split <;> rfl

theorem byteAt_of_slice {offset length i : Nat}
    (h : c.slice offset length = b.slice offset length) (hi : i < length) :
    c.byteAt (offset + i) = b.byteAt (offset + i) := by
  have hget := getElem?_slice c offset length i
  rw [h, getElem?_slice, if_pos hi, if_pos hi] at hget
  exact (Option.some.inj hget).symm

theorem slice_eq_of_byteAt {offset : Nat} {bytes : List UInt8}
    (h : ∀ i, (hi : i < bytes.length) → b.byteAt (offset + i) = bytes[i]) :
    (b.slice offset bytes.length).toList = bytes := by
  rw [slice_eq_ofFn, Array.toList_ofFn]
  refine List.ext_getElem (List.length_ofFn) ?_
  intro i hi hi'
  rw [List.getElem_ofFn]
  exact h i hi'

theorem slice_eq_of_getElem? {offset : Nat} {bytes : Bytes}
    (h : ∀ i < bytes.size, b.contents[offset + i]? = bytes[i]?) :
    b.slice offset bytes.size = bytes := by
  rw [slice_eq_ofFn]
  refine Array.ext Array.size_ofFn ?_
  intro i _ hi
  rw [Array.getElem_ofFn, byteAt, h i hi, Array.getElem?_eq_getElem hi]
  rfl

def Apart (s : Store) (offset length : Nat) : Prop :=
  s.offset + s.bytes.length ≤ offset ∨ offset + length ≤ s.offset

theorem byteAt_store_outside {s : Store} {i : Nat}
    (h : i < s.offset ∨ s.offset + s.bytes.length ≤ i) : (b.store s).byteAt i = b.byteAt i := by
  unfold store
  split
  · simp only [put, byteAt]
    rw [Bytes.getElem?_overwrite_outside _ h, Bytes.getD_padTo]
  · rfl

theorem byteAt_store_inside {s : Store} {k : Nat} (hs : s.offset + s.bytes.length ≤ b.size)
    (hk : k < s.bytes.length) : (b.store s).byteAt (s.offset + k) = s.bytes[k] := by
  have hpad : s.offset + s.bytes.length ≤
      (b.contents.padTo (s.offset + s.bytes.length)).size := by
    rw [Bytes.size_padTo]
    exact le_max_right _ _
  rw [store, dif_pos hs]
  simp only [put, byteAt]
  rw [Bytes.getElem?_overwrite_inside hpad hk, List.getElem?_eq_getElem hk]
  rfl

theorem slice_store_self {s : Store} (hs : s.offset + s.bytes.length ≤ b.size) :
    ((b.store s).slice s.offset s.bytes.length).toList = s.bytes :=
  slice_eq_of_byteAt fun _ hi => byteAt_store_inside hs hi

theorem store_frame (b : Block) (s : Store) :
    (b.store s).address = b.address ∧ (b.store s).size = b.size ∧
      (b.store s).executable = b.executable := by
  unfold store
  split <;> exact ⟨rfl, rfl, rfl⟩

theorem storeAll_frame (b : Block) (stores : List Store) :
    (b.storeAll stores).address = b.address ∧ (b.storeAll stores).size = b.size ∧
      (b.storeAll stores).executable = b.executable := by
  induction stores generalizing b with
  | nil => exact ⟨rfl, rfl, rfl⟩
  | cons s ss ih =>
    obtain ⟨ha, hs, hx⟩ := ih (b.store s)
    obtain ⟨ha', hs', hx'⟩ := store_frame b s
    exact ⟨ha.trans ha', hs.trans hs', hx.trans hx'⟩

theorem byteAt_storeAll_outside {stores : List Store} {i : Nat}
    (h : ∀ s ∈ stores, i < s.offset ∨ s.offset + s.bytes.length ≤ i) :
    (b.storeAll stores).byteAt i = b.byteAt i := by
  induction stores generalizing b with
  | nil => rfl
  | cons s ss ih =>
    have hrest := ih (b := b.store s) fun t ht => h t (List.mem_cons_of_mem _ ht)
    exact hrest.trans (byteAt_store_outside (h s List.mem_cons_self))

theorem slice_storeAll_apart {stores : List Store} {offset length : Nat}
    (h : ∀ s ∈ stores, Apart s offset length) :
    (b.storeAll stores).slice offset length = b.slice offset length := by
  refine slice_congr ?_
  intro i hi
  refine byteAt_storeAll_outside ?_
  intro s hs
  rcases h s hs with h | h <;> omega

/-- Two stores in the same place, which may differ in bytes that are not looked at. -/
structure Alike (limit i : Nat) (s t : Store) : Prop where
  offset : t.offset = s.offset
  length : t.bytes.length = s.bytes.length
  le_limit : s.offset + s.bytes.length ≤ limit
  bytes : s.offset ≤ i → i < s.offset + s.bytes.length → t.bytes = s.bytes

/-- Blocks with the same byte at a place still have it after stores that are alike. -/
theorem byteAt_storeAll_alike {ss ts : List Store} {limit i : Nat}
    (h : List.Forall₂ (Alike limit i) ss ts) (hb : limit ≤ b.size) (hc : limit ≤ c.size)
    (hi : c.byteAt i = b.byteAt i) : (c.storeAll ts).byteAt i = (b.storeAll ss).byteAt i := by
  induction h generalizing b c with
  | nil => exact hi
  | @cons s t ss ts hst _ ih =>
    have hbs := hst.le_limit.trans hb
    have hct : t.offset + t.bytes.length ≤ c.size := by
      rw [hst.offset, hst.length]
      exact hst.le_limit.trans hc
    refine ih ?_ ?_ ?_
    · rwa [(store_frame b s).2.1]
    · rwa [(store_frame c t).2.1]
    · by_cases hin : s.offset ≤ i ∧ i < s.offset + s.bytes.length
      · obtain ⟨k, rfl⟩ := Nat.exists_eq_add_of_le hin.1
        have hk : k < s.bytes.length := Nat.lt_of_add_lt_add_left hin.2
        have hbytes := hst.bytes hin.1 hin.2
        have hstored := byteAt_store_inside hct (hst.length ▸ hk)
        rw [hst.offset] at hstored
        rw [hstored, byteAt_store_inside hbs hk]
        simp only [hbytes]
      · have hout : i < s.offset ∨ s.offset + s.bytes.length ≤ i := by omega
        have hout' : i < t.offset ∨ t.offset + t.bytes.length ≤ i := by
          rwa [hst.offset, hst.length]
        rw [byteAt_store_outside hout, byteAt_store_outside hout', hi]

theorem slice_storeAll_cons {s : Store} {ss : List Store} (hs : s.offset + s.bytes.length ≤ b.size)
    (hss : ∀ t ∈ ss, Apart t s.offset s.bytes.length) :
    ((b.storeAll (s :: ss)).slice s.offset s.bytes.length).toList = s.bytes := by
  have hlater := slice_storeAll_apart (b := b.store s) hss
  exact (congrArg Array.toList hlater).trans (slice_store_self hs)

end Block

end CodeEmission
