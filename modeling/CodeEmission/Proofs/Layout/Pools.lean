import CodeEmission.Proofs.Buffer.Windows
import CodeEmission.Proofs.Layout.Following
import CodeEmission.Proofs.Rounding

/-! # Constant pools in a buffer

A size that is met was never cut off on the way, so the places computed for the entries follow one
another up to it. Each entry is then written into its own window of zeros.
-/

namespace CodeEmission

namespace PoolEntry

variable {e : PoolEntry}

theorem exists_constant (h : e.isMachine = false) : ∃ c, e.value = .constant c := by
  unfold isMachine at h
  cases hv : e.value with
  | constant c => exact ⟨c, rfl⟩
  | machine bytes =>
    rw [hv] at h
    cases h

end PoolEntry

namespace ConstantPool

variable {t : Target} {pool es : List PoolEntry} {e : PoolEntry} {c : Constant}
  {start last size align limit i o : Nat} {os : List Nat} {dest : Bytes}

/-- Slots for some entries that follow one another from `start` to `last`, each at the next multiple
of its alignment. -/
inductive Slots (t : Target) : (start : Nat) → List PoolEntry → List Nat → (last : Nat) → Prop
  | nil (start : Nat) : Slots t start [] [] start
  | cons {start last : Nat} {e : PoolEntry} {es : List PoolEntry} {os : List Nat}
      (le : start ≤ Word.alignTo start e.alignment)
      (rest : Slots t (Word.alignTo start e.alignment + t.allocSize e.type) es os last) :
      Slots t start (e :: es) (Word.alignTo start e.alignment :: os) last

theorem le_sizeFrom (h : size ≤ Word.largest) : size ≤ (sizeFrom t size align pool).1 := by
  induction pool generalizing size align with
  | nil => exact le_refl size
  | cons e es ih =>
    have hlt : size < Word.modulus := h.trans_lt (by decide)
    have hround := Word.le_alignTo e.alignment hlt
    refine le_trans ?_ (ih (Word.addSat_le _ _))
    exact le_min (hround.trans (Nat.le_add_right _ _)) h

theorem slots_of_size (hsize : size ≤ Word.largest)
    (h : (sizeFrom t size align pool).1 < Word.largest) :
    Slots t size pool (offsetsFrom t 0 size pool) (sizeFrom t size align pool).1 := by
  induction pool generalizing size align with
  | nil => exact .nil size
  | cons e es ih =>
    have hlt : size < Word.modulus := hsize.trans_lt (by decide)
    have hround := Word.le_alignTo e.alignment hlt
    have hnext : Word.addSat (Word.alignTo size e.alignment) (t.allocSize e.type) ≤
        (sizeFrom t size align (e :: es)).1 := le_sizeFrom (Word.addSat_le _ _)
    have hrest := ih (Word.addSat_le _ _) h
    have hsum : Word.alignTo size e.alignment + t.allocSize e.type < Word.largest := by
      have hmin := hnext.trans_lt h
      simp only [Word.addSat] at hmin
      omega
    have hsat : Word.addSat (Word.alignTo size e.alignment) (t.allocSize e.type) =
        Word.alignTo size e.alignment + t.allocSize e.type := Nat.min_eq_left hsum.le
    unfold sizeFrom offsetsFrom
    rw [hsat] at hrest ⊢
    simp only [Nat.zero_add]
    exact .cons hround hrest

namespace Slots

theorem length_eq (h : Slots t start pool os last) : os.length = pool.length := by
  induction h with
  | nil => rfl
  | cons _ _ ih => rw [List.length_cons, List.length_cons, ih]

theorem le_last (h : Slots t start pool os last) : start ≤ last := by
  induction h with
  | nil => exact le_refl _
  | cons le _ ih => omega

theorem slot (h : Slots t start pool os last) (he : pool[i]? = some e) (ho : os[i]? = some o) :
    start ≤ o ∧ (∃ free ≤ last, o = Word.alignTo free e.alignment) ∧
      o + t.allocSize e.type ≤ last := by
  induction h generalizing i with
  | nil => cases he
  | cons le rest ih =>
    have hlast := rest.le_last
    cases i with
    | zero =>
      cases he
      cases ho
      exact ⟨le, ⟨_, by omega, rfl⟩, hlast⟩
    | succ i =>
      obtain ⟨hstart, hfree, hend⟩ := ih he ho
      exact ⟨by omega, hfree, hend⟩

theorem slot_le_slot (h : Slots t start pool os last) (he : pool[i]? = some e)
    (ho : os[i]? = some o) {j o' : Nat} (hij : i < j) (ho' : os[j]? = some o') :
    o + t.allocSize e.type ≤ o' := by
  induction h generalizing i j with
  | nil => cases he
  | @cons _ _ _ es os le rest ih =>
    cases j with
    | zero => cases hij
    | succ j =>
      cases i with
      | zero =>
        cases he
        cases ho
        have ho' : os[j]? = some o' := ho'
        have hj : j < os.length := (List.getElem?_eq_some_iff.1 ho').1
        rw [rest.length_eq] at hj
        exact (rest.slot (List.getElem?_eq_getElem hj) ho').1
      | succ i => exact ih he ho (Nat.lt_of_succ_lt_succ hij) ho'

theorem end_eq_last (h : Slots t start pool os last) (he : pool[i]? = some e)
    (ho : os[i]? = some o) (hi : i + 1 = pool.length) : o + t.allocSize e.type = last := by
  induction h generalizing i with
  | nil => cases he
  | cons le rest ih =>
    cases i with
    | zero =>
      cases he
      cases ho
      rw [List.length_cons] at hi
      obtain rfl := List.length_eq_zero_iff.1 (Nat.succ.inj hi).symm
      cases rest with
      | nil => rfl
    | succ i => exact ih he ho (Nat.succ.inj hi)

end Slots

theorem planFrom_cons (he : e.value = .constant c)
    (hend : Word.alignTo start e.alignment + t.allocSize e.type ≤ limit) :
    planFrom t limit 0 start (e :: es) =
      ((c.plan t (t.allocSize e.type)).shift (Word.alignTo start e.alignment)).andThen
        (planFrom t limit 0 (Word.alignTo start e.alignment + t.allocSize e.type) es) := by
  rw [planFrom]
  simp only [Nat.zero_add, he, if_pos hend]

theorem getElem?_planFrom_before (h : Slots t start pool os last) (hlast : last ≤ limit)
    (hpool : ∀ e ∈ pool, e.isMachine = false)
    (hfault : (planFrom t limit 0 start pool).fault = none) (hi : i < start) :
    ((planFrom t limit 0 start pool).apply dest)[i]? = dest[i]? := by
  induction h generalizing dest with
  | nil => rfl
  | @cons start last e es os le rest ih =>
    obtain ⟨c, hc⟩ := PoolEntry.exists_constant (hpool e List.mem_cons_self)
    have hend := rest.le_last.trans hlast
    rw [planFrom_cons hc hend] at hfault ⊢
    obtain ⟨hfirst, hrest⟩ := Plan.andThen_fault_eq_none.1 hfault
    have hpool' : ∀ e ∈ es, e.isMachine = false := fun e he => hpool e (List.mem_cons_of_mem _ he)
    rw [Plan.apply_andThen hfirst, ih hlast hpool' hrest (by omega)]
    exact Plan.getElem?_apply_shift_outside (Constant.plan_within t _ c) (.inl (by omega))

theorem getElem?_planFrom_slot (h : Slots t start pool os last) (hlast : last ≤ limit)
    (hpool : ∀ e ∈ pool, e.isMachine = false)
    (hfault : (planFrom t limit 0 start pool).fault = none) (hdest : dest.size = limit)
    (hzero : ∀ k, start ≤ k → k < limit → dest[k]? = some 0) (he : pool[i]? = some e)
    (ho : os[i]? = some o) (hc : e.value = .constant c) :
    (c.plan t (t.allocSize e.type)).fault = none ∧ ∀ k < t.allocSize e.type,
      ((planFrom t limit 0 start pool).apply dest)[o + k]? =
        ((c.plan t (t.allocSize e.type)).apply (Array.replicate (t.allocSize e.type) 0))[k]? := by
  induction h generalizing dest i with
  | nil => cases he
  | @cons start last first es os le rest ih =>
    obtain ⟨c₁, hc₁⟩ := PoolEntry.exists_constant (hpool first List.mem_cons_self)
    have hend := rest.le_last.trans hlast
    rw [planFrom_cons hc₁ hend] at hfault ⊢
    obtain ⟨hfirst, hrest⟩ := Plan.andThen_fault_eq_none.1 hfault
    have hpool' : ∀ e ∈ es, e.isMachine = false := fun e he => hpool e (List.mem_cons_of_mem _ he)
    have hwithin := Constant.plan_within t (t.allocSize first.type) c₁
    rw [Plan.apply_andThen hfirst]
    cases i with
    | zero =>
      cases he
      cases ho
      obtain rfl : c₁ = c := by
        rw [hc₁] at hc
        cases hc
        rfl
      refine ⟨hfirst, ?_⟩
      intro k hk
      rw [getElem?_planFrom_before rest hlast hpool' hrest (by omega)]
      refine Plan.getElem?_apply_shift_inside hwithin (by omega) Array.size_replicate ?_ k hk
      intro j hj
      rw [hzero _ (by omega) (by omega), Array.getElem?_replicate, if_pos hj]
    | succ i =>
      refine ih hlast hpool' hrest (by rw [Plan.size_apply, hdest]) ?_ he ho
      intro k hk hklimit
      rw [Plan.getElem?_apply_shift_outside hwithin (.inr hk)]
      exact hzero k (by omega) hklimit

theorem sizeFrom_align_lt (h : align < Word.modulus) :
    (sizeFrom t size align pool).2 < Word.modulus := by
  induction pool generalizing size align with
  | nil => exact h
  | cons e es ih =>
    have halign : e.align.toNat < Word.modulus := e.align.toNat_lt
    have hone : 1 < Word.modulus := by decide
    exact ih (max_lt h (max_lt halign hone))

/-- In an empty buffer a pool is placed at the start, in as many bytes as its size says. -/
theorem place_in_empty {b : CodeBuffer} (hi : b.Intact) (hb : b.offset = 0)
    (hf : (place t pool b).fault = none)
    (ho : (place t pool b).buffer.overflow = none) :
    (∀ e ∈ pool, e.isMachine = false) ∧
      Slots t 0 pool (place t pool b).offsets (ConstantPool.size t pool).1 ∧
      (planFrom t (ConstantPool.size t pool).1 0 0 pool).fault = none ∧
      (place t pool b).buffer.code = (planFrom t (ConstantPool.size t pool).1 0 0 pool).apply
        (Array.replicate (ConstantPool.size t pool).1 0) := by
  have hempty : b.code = #[] := Array.eq_empty_of_size_eq_zero hb
  cases hm : pool.findIdx? (·.isMachine) with
  | some index => simp [place, reserve, hm] at hf
  | none =>
    have hpool : ∀ e ∈ pool, e.isMachine = false := List.findIdx?_eq_none_iff.1 hm
    cases hp : pool.isEmpty with
    | true =>
      rw [place_of_isEmpty hm hp]
      obtain rfl := List.isEmpty_iff.1 hp
      exact ⟨hpool, .nil 0, rfl, hempty⟩
    | false =>
      have hs := hasSize_of_place hm hp hf
      have hstart : Word.alignTo 0 (ConstantPool.size t pool).2 = 0 :=
        Word.alignTo_of_zero (sizeFrom_align_lt (by decide)).le
      by_cases hlt : Word.alignTo b.offset (ConstantPool.size t pool).2 +
          (ConstantPool.size t pool).1 < b.capacity
      · have hr := CodeBuffer.reserve_of_lt hi hlt
        rw [place_of_reserve_some hm hp hs hr] at hf ⊢
        simp only [hb, hstart, Nat.zero_add, CodeBuffer.offset_extendTo, Nat.zero_max] at hf hlt ⊢
        have hslots : Slots t 0 pool (offsetsFrom t 0 0 pool) (ConstantPool.size t pool).1 :=
          slots_of_size (Nat.zero_le _) (hlt.trans_le b.capacity_le)
        refine ⟨hpool, hslots, hf, ?_⟩
        have hzeros : (b.extendTo (ConstantPool.size t pool).1 hlt.le).code =
            Array.replicate (ConstantPool.size t pool).1 0 := by
          change Bytes.padTo _ b.code = _
          simp [hempty, Bytes.padTo]
        rw [← hzeros]
        exact congrArg (Plan.apply · _) (Plan.shift_zero _)
      · have hr := CodeBuffer.reserve_of_le hi (Nat.le_of_not_lt hlt)
        rw [place_of_reserve_none hm hp hs hr] at ho
        cases ho

end ConstantPool

end CodeEmission
