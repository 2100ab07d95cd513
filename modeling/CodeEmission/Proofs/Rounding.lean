import Mathlib.Algebra.Group.Nat.Defs
import Mathlib.Data.Nat.Init
import Mathlib.Order.Bounds.Basic
import Mathlib.Order.MinMax
import Mathlib.Order.Nat
import CodeEmission.Word

/-! # Rounding up

Clearing the bits of a mask and keeping them splits a word in two. So rounding up never goes below
the word it starts from, whatever the alignment, and for a power of two it gives the next multiple, or
the largest word if this multiple is no word.
-/

namespace CodeEmission.Word

variable {value other align k : Nat}

/-- An alignment that can be asked for: none at all, or a power of two. -/
def IsAlignment (align : Nat) : Prop := align = 0 ∨ ∃ k, align = 2 ^ k

def roundUp (value align : Nat) : Nat := (value + (align - 1)) / align * align

theorem le_roundUp (value : Nat) (h : 0 < align) : value ≤ roundUp value align := by
  have hdiv := Nat.div_add_mod' (value + (align - 1)) align
  have hmod := Nat.mod_lt (value + (align - 1)) h
  unfold roundUp
  omega

theorem dvd_roundUp (value align : Nat) : align ∣ roundUp value align := Nat.dvd_mul_left _ _

theorem roundUp_le {multiple : Nat} (h : 0 < align) (hdvd : align ∣ multiple)
    (hle : value ≤ multiple) : roundUp value align ≤ multiple := by
  obtain ⟨q, rfl⟩ := hdvd
  have hq : (value + (align - 1)) / align ≤ q := by
    refine Nat.le_of_lt_succ ((Nat.div_lt_iff_lt_mul h).2 ?_)
    rw [Nat.succ_mul, Nat.mul_comm q]
    omega
  rw [roundUp, Nat.mul_comm align]
  exact Nat.mul_le_mul_right _ hq

theorem isLeast_roundUp (value : Nat) (h : 0 < align) :
    IsLeast {m | value ≤ m ∧ align ∣ m} (roundUp value align) :=
  ⟨⟨le_roundUp value h, dvd_roundUp value align⟩, fun _ hm => roundUp_le h hm.2 hm.1⟩

theorem roundUp_mono (h : 0 < align) (hle : value ≤ other) :
    roundUp value align ≤ roundUp other align :=
  roundUp_le h (dvd_roundUp other align) (hle.trans (le_roundUp other h))

theorem clear_add_keep {x m : Nat} (hx : x < modulus) (hm : m < modulus) :
    (x &&& (largest - m)) + (x &&& m) = x := by
  -- the sum has no carry, because no bit is in both parts
  have hparts (v w : BitVec 64) : ((v &&& ~~~w) + (v &&& w) = v) ∧
      ((v &&& ~~~w) + (v &&& w)).toNat = (v &&& ~~~w).toNat + (v &&& w).toNat := by
    have hdisjoint : (v &&& ~~~w) &&& (v &&& w) = 0 := by
      ext i
      cases hw : w[i] <;> simp [hw]
    refine ⟨?_, BitVec.toNat_add_of_and_eq_zero hdisjoint⟩
    rw [BitVec.add_eq_or_of_and_eq_zero _ _ hdisjoint]
    ext i
    cases hw : w[i] <;> simp [hw]
  obtain ⟨heq, hsum⟩ := hparts (BitVec.ofNat 64 x) (BitVec.ofNat 64 m)
  have hxv : (BitVec.ofNat 64 x).toNat = x := Nat.mod_eq_of_lt hx
  have hmv : (BitVec.ofNat 64 m).toNat = m := Nat.mod_eq_of_lt hm
  have hnot : (~~~BitVec.ofNat 64 m).toNat = largest - m := by
    rw [BitVec.toNat_not, hmv]
    rfl
  rwa [heq, BitVec.toNat_and, BitVec.toNat_and, hnot, hxv, hmv, eq_comm] at hsum

theorem alignTo_le (value align : Nat) : alignTo value align ≤ value + (align - 1) := by
  unfold alignTo
  split
  · omega
  · split
    · exact Nat.and_le_left
    · simp only [largest]
      omega

theorem le_alignTo (align : Nat) (h : value < modulus) : value ≤ alignTo value align := by
  unfold alignTo
  split
  · exact le_refl value
  · split
    · rename_i hlt
      have hsplit := clear_add_keep hlt ((Nat.le_add_left _ value).trans_lt hlt)
      have hkeep : (value + (align - 1)) &&& (align - 1) ≤ align - 1 := Nat.and_le_right
      omega
    · simp only [largest]
      omega

theorem alignTo_lt (align : Nat) (h : value < modulus) : alignTo value align < modulus := by
  unfold alignTo
  split
  · exact h
  · split
    · rename_i hlt
      exact Nat.and_le_left.trans_lt hlt
    · decide

theorem alignTo_of_zero (h : align ≤ modulus) : alignTo 0 align = 0 := by
  unfold alignTo
  split
  · rfl
  · rename_i hone
    have hlt : align - 1 < modulus := by omega
    have hsplit := clear_add_keep hlt hlt
    rw [Nat.and_self] at hsplit
    rw [Nat.zero_add, if_pos hlt]
    omega

/-- A multiple of a power of two is not moved by any alignment up to that power. -/
theorem alignTo_of_dvd (hvalue : 2 ^ k ∣ value) (halign : align ≤ 2 ^ k)
    (h : value + (align - 1) < modulus) : alignTo value align = value := by
  unfold alignTo
  split
  · rfl
  · have hpos : 0 < 2 ^ k := Nat.two_pow_pos k
    have hlow : align - 1 < 2 ^ k := by omega
    have hsplit := clear_add_keep h ((Nat.le_add_left _ value).trans_lt h)
    -- the mask is all that the sum has in its low bits
    have hmod : (value + (align - 1)) % 2 ^ k = align - 1 := by
      obtain ⟨q, rfl⟩ := hvalue
      rw [Nat.mul_add_mod, Nat.mod_eq_of_lt hlow]
    have hkeep : (value + (align - 1)) &&& (align - 1) = align - 1 := by
      have hle : (value + (align - 1)) &&& (align - 1) ≤ align - 1 := Nat.and_le_right
      rw [← Nat.mod_eq_of_lt (hle.trans_lt hlow), Nat.and_mod_two_pow, hmod,
        Nat.mod_eq_of_lt hlow, Nat.and_self]
    omega

/-- As long as the sum with the mask is a word, clearing the mask gives the next multiple. -/
theorem alignTo_two_pow (h : value + (2 ^ k - 1) < modulus) :
    alignTo value (2 ^ k) = roundUp value (2 ^ k) := by
  have hpos : 0 < 2 ^ k := Nat.two_pow_pos k
  unfold alignTo roundUp
  split
  · rename_i hone
    have htwo : 2 ^ k = 1 := by omega
    simp [htwo]
  · have hsplit := clear_add_keep h ((Nat.le_add_left _ value).trans_lt h)
    rw [Nat.and_two_pow_sub_one_eq_mod] at hsplit
    have hdiv := Nat.div_add_mod' (value + (2 ^ k - 1)) (2 ^ k)
    omega

theorem alignTo_min (value : Nat) (hk : k ≤ 64) :
    alignTo (min value largest) (2 ^ k) = min (roundUp value (2 ^ k)) largest := by
  have hpos : 0 < 2 ^ k := Nat.two_pow_pos k
  have hround := le_roundUp value hpos
  by_cases hfits : value + (2 ^ k - 1) < modulus
  · have hvalue : min value largest = value := by
      simp only [largest]
      omega
    have hle : roundUp value (2 ^ k) ≤ largest := by
      have hle : roundUp value (2 ^ k) ≤ value + (2 ^ k - 1) := Nat.div_mul_le_self _ _
      simp only [largest]
      omega
    rw [hvalue, alignTo_two_pow hfits, min_eq_left hle]
  · -- the next multiple is the number of words, or beyond it
    have hwords : modulus = 2 ^ (64 - k) * 2 ^ k := by
      rw [← Nat.pow_add, Nat.sub_add_cancel hk]
      rfl
    have hlarge : modulus ≤ roundUp value (2 ^ k) := by
      rw [hwords] at hfits ⊢
      exact Nat.mul_le_mul_right _ ((Nat.le_div_iff_mul_le hpos).2 (Nat.le_of_not_lt hfits))
    have hright : min (roundUp value (2 ^ k)) largest = largest :=
      min_eq_right ((Nat.sub_le _ _).trans hlarge)
    have hlast : largest + 1 = modulus := rfl
    rw [hright, alignTo]
    split
    · omega
    · rw [if_neg (by omega)]

theorem alignTo_eq_min (hvalue : value < modulus) (hk : k ≤ 64) :
    alignTo value (2 ^ k) = min (roundUp value (2 ^ k)) largest := by
  have hle : value ≤ largest := Nat.le_sub_one_of_lt hvalue
  rw [← alignTo_min value hk, min_eq_left hle]

/-- Rounding up does not go past a multiple. -/
theorem alignTo_le_of_dvd {multiple : Nat} (hvalue : value < modulus) (hk : k ≤ 64)
    (hle : value ≤ multiple) (hdvd : 2 ^ k ∣ multiple) : alignTo value (2 ^ k) ≤ multiple := by
  rw [alignTo_eq_min hvalue hk]
  exact (min_le_left _ _).trans (roundUp_le (Nat.two_pow_pos k) hdvd hle)

theorem dvd_alignTo (h : value + (2 ^ k - 1) < modulus) : 2 ^ k ∣ alignTo value (2 ^ k) := by
  rw [alignTo_two_pow h]
  exact dvd_roundUp value (2 ^ k)

theorem dvd_alignTo_of_lt (hvalue : value < modulus) (h : alignTo value (2 ^ k) < largest) :
    2 ^ k ∣ alignTo value (2 ^ k) := by
  by_cases hfits : value + (2 ^ k - 1) < modulus
  · exact dvd_alignTo hfits
  · have hone : ¬2 ^ k ≤ 1 := by omega
    rw [alignTo, if_neg hone, if_neg hfits] at h
    exact absurd h (Nat.lt_irrefl _)

theorem alignTo_le_alignTo {j : Nat} (hjk : j ≤ k) (h : value + (2 ^ k - 1) < modulus) :
    alignTo value (2 ^ j) ≤ alignTo value (2 ^ k) := by
  have hpow : 2 ^ j ≤ 2 ^ k := Nat.pow_le_pow_right (by decide) hjk
  rw [alignTo_two_pow h, alignTo_two_pow (by omega)]
  -- the multiple of the larger power is one of the smaller power
  have hdvd : 2 ^ j ∣ roundUp value (2 ^ k) :=
    Nat.dvd_trans (Nat.pow_dvd_pow 2 hjk) (dvd_roundUp value (2 ^ k))
  exact roundUp_le (Nat.two_pow_pos j) hdvd (le_roundUp value (Nat.two_pow_pos k))

theorem IsAlignment.max {a b : Nat} (ha : IsAlignment a) (hb : IsAlignment b) :
    IsAlignment (max a b) := by
  rw [Nat.max_def]
  split
  · exact hb
  · exact ha

theorem IsAlignment.exists_pow (h : IsAlignment align) (hpos : 0 < align) : ∃ k, align = 2 ^ k := by
  rcases h with rfl | h
  · cases hpos
  · exact h

/-- Rounding up keeps to the words, never goes below the word it starts from, and stays within one
alignment of it. Powers of two give the least multiple there is, or the largest word if that is no
word. -/
theorem alignTo_exact (hvalue : value < modulus) (halign : align < modulus) :
    value ≤ alignTo value align ∧ alignTo value align < modulus ∧
      (1 ≤ align → alignTo value align ≤ value + align - 1) ∧
      (∀ k, align = 2 ^ k →
        (∃ m, IsLeast {m | value ≤ m ∧ align ∣ m} m ∧
          alignTo value align = if m < modulus then m else largest) ∧
        ∀ other < modulus, value ≤ other → alignTo value align ≤ alignTo other align) ∧
      (align ≤ 1 → alignTo value align = value) := by
  refine ⟨le_alignTo align hvalue, alignTo_lt align hvalue, ?_, ?_, ?_⟩
  · intro hone
    rw [Nat.add_sub_assoc hone]
    exact alignTo_le value align
  · rintro k rfl
    have hpos : 0 < 2 ^ k := Nat.two_pow_pos k
    have hk : k ≤ 64 := ((Nat.pow_lt_pow_iff_right (by decide)).1 halign).le
    refine ⟨⟨roundUp value (2 ^ k), isLeast_roundUp value hpos, ?_⟩, ?_⟩
    · rw [alignTo_eq_min hvalue hk]
      split
      · rename_i hlt
        exact min_eq_left (Nat.le_sub_one_of_lt hlt)
      · rename_i hlarge
        exact min_eq_right ((Nat.sub_le _ _).trans (Nat.le_of_not_lt hlarge))
    · intro other hother hle
      rw [alignTo_eq_min hvalue hk, alignTo_eq_min hother hk]
      exact min_le_min_right largest (roundUp_mono hpos hle)
  · intro hone
    rw [alignTo, if_pos hone]

theorem alignTo_exact_last :
    let value := modulus - 10
    value < modulus ∧ 16 < modulus ∧ value ≤ alignTo value 16 ∧
      alignTo value 16 ≤ value + 16 - 1 ∧
      (∃ m, IsLeast {m | value ≤ m ∧ 16 ∣ m} m ∧
        alignTo value 16 = if m < modulus then m else largest) ∧
      alignTo value 16 = largest := by
  intro value
  have hvalue : value < modulus := by decide
  have halign : 16 < modulus := by decide
  obtain ⟨hle, _, hclose, hpower, _⟩ := alignTo_exact hvalue halign
  exact ⟨hvalue, halign, hle, hclose (by decide), (hpower 4 rfl).1, by decide⟩

/-- Other alignments than powers of two do not keep the order of words. -/
example : alignTo 24 24 = 40 ∧ alignTo 25 24 = 32 := by decide

end CodeEmission.Word
