import CodeEmission.Arena
import CodeEmission.Proofs.Layout.Pools

/-! # Sizes that do not fit into a word

The size of a type is computed in words, and a size that is too large is to be the largest word.
Rounding up and the sizes of arrays stop there, but the sum of a field's place and its size does not:
where one leaves the words there is no size. All other sizes are right.
-/

namespace CodeEmission

namespace Target

open Word

variable {t : Target} {type : ValueType} {field : ValueType} {fields : List ValueType}
  {offset exact i : Nat}

mutual

/-- The size of a type in numbers that never end: fields in order, each padded to its alignment, and
the whole padded to the largest of them. -/
def exactSize (t : Target) : ValueType → Nat
  | .array elem len => roundUp (exactSize t elem) (t.abiAlign elem) * len.toNat
  | .struct fields => roundUp (exactEnd t 0 fields) (t.maxAlign fields)
  | s => t.scalarSize s

def exactEnd (t : Target) (offset : Nat) : List ValueType → Nat
  | [] => offset
  | f :: fs =>
    exactEnd t (roundUp offset (t.abiAlign f) + roundUp (exactSize t f) (t.abiAlign f)) fs

end

def exactAlloc (t : Target) (type : ValueType) : Nat :=
  roundUp (t.exactSize type) (t.abiAlign type)

mutual

def NoOverflow (t : Target) : ValueType → Prop
  | .array elem _ => NoOverflow t elem
  | .struct fields => FieldsNoOverflow t 0 fields
  | _ => True

def FieldsNoOverflow (t : Target) (offset : Nat) : List ValueType → Prop
  | [] => True
  | f :: fs => NoOverflow t f ∧ alignTo offset (t.abiAlign f) + t.allocSize f ≤ largest ∧
      FieldsNoOverflow t (alignTo offset (t.abiAlign f) + t.allocSize f) fs

end

mutual

/-- Every field of every structure in a type ends within the words, or takes no room, or starts where
its structure does. -/
def Placeable (t : Target) : ValueType → Prop
  | .array elem _ => Placeable t elem
  | .struct fields => FieldsPlaceable t 0 fields
  | _ => True

def FieldsPlaceable (t : Target) (offset : Nat) : List ValueType → Prop
  | [] => True
  | f :: fs => Placeable t f ∧ (roundUp offset (t.abiAlign f) + t.exactAlloc f ≤ largest ∨
        t.exactAlloc f = 0 ∨ roundUp offset (t.abiAlign f) = 0) ∧
      FieldsPlaceable t (roundUp offset (t.abiAlign f) + t.exactAlloc f) fs

end

/-- Pointers of a size that a machine can have. -/
def PointersFit (t : Target) : Prop := ∃ k ≤ 3, t.pointerSize = 2 ^ k

theorem max_two_pow {a b : Nat} (ha : ∃ j ≤ 3, a = 2 ^ j) (hb : ∃ j ≤ 3, b = 2 ^ j) :
    ∃ j ≤ 3, max a b = 2 ^ j := by
  rw [Nat.max_def]
  split
  · exact hb
  · exact ha

theorem scalarSize_two_pow (ht : t.PointersFit) (type : ValueType) :
    ∃ j ≤ 3, max (t.scalarSize type) 1 = 2 ^ j := by
  have hone : ∃ j ≤ 3, 1 = 2 ^ j := ⟨0, by decide, rfl⟩
  cases type with
  | ptr => exact max_two_pow ht hone
  | i1 | i8 | array | struct => exact ⟨0, by decide, rfl⟩
  | i16 => exact ⟨1, by decide, rfl⟩
  | i32 | f32 => exact ⟨2, by decide, rfl⟩
  | i64 | f64 => exact ⟨3, by decide, rfl⟩

mutual

theorem abiAlign_two_pow (ht : t.PointersFit) : (type : ValueType) → ∃ j ≤ 3, t.abiAlign type = 2 ^ j
  | .array elem _ => by
    rw [abiAlign]
    exact abiAlign_two_pow ht elem
  | .struct fields => by
    rw [abiAlign]
    exact maxAlign_two_pow ht fields
  | .i1 | .i8 | .i16 | .i32 | .i64 | .f32 | .f64 | .ptr => by
    simp only [abiAlign]
    exact scalarSize_two_pow ht _

theorem maxAlign_two_pow (ht : t.PointersFit) :
    (fields : List ValueType) → ∃ j ≤ 3, t.maxAlign fields = 2 ^ j
  | [] => ⟨0, by decide, by rw [maxAlign]; rfl⟩
  | f :: fs => by
    rw [maxAlign]
    exact max_two_pow (abiAlign_two_pow ht f) (maxAlign_two_pow ht fs)

end

theorem alignTo_abiAlign (ht : t.PointersFit) (type : ValueType) (value : Nat) :
    alignTo (min value largest) (t.abiAlign type) = min (roundUp value (t.abiAlign type)) largest := by
  obtain ⟨j, hj, hpow⟩ := abiAlign_two_pow ht type
  rw [hpow]
  exact alignTo_min value (hj.trans (by decide))

theorem alignTo_maxAlign (ht : t.PointersFit) (fields : List ValueType) (value : Nat) :
    alignTo (min value largest) (t.maxAlign fields) =
      min (roundUp value (t.maxAlign fields)) largest := by
  obtain ⟨j, hj, hpow⟩ := maxAlign_two_pow ht fields
  rw [hpow]
  exact alignTo_min value (hj.trans (by decide))

theorem mulSat_min (a n : Nat) : mulSat (min a largest) n = min (a * n) largest := by
  unfold mulSat
  rcases le_total a largest with hle | hge
  · rw [min_eq_left hle]
  · rw [min_eq_right hge]
    cases n with
    | zero => rfl
    | succ n =>
      have hleft : largest ≤ largest * (n + 1) := Nat.le_mul_of_pos_right _ (Nat.succ_pos n)
      have hright : largest ≤ a * (n + 1) := hge.trans (Nat.le_mul_of_pos_right _ (Nat.succ_pos n))
      rw [min_eq_right hleft, min_eq_right hright]

theorem add_min {a b : Nat} (h : min a largest + min b largest ≤ largest) :
    min a largest + min b largest = min (a + b) largest := by
  omega

theorem scalarSize_le_largest (ht : t.PointersFit) (type : ValueType) :
    t.scalarSize type ≤ largest := by
  obtain ⟨j, hj, hpow⟩ := scalarSize_two_pow ht type
  have hle : 2 ^ j ≤ 2 ^ 3 := Nat.pow_le_pow_right (by decide) hj
  have height : 2 ^ 3 ≤ largest := by decide
  omega

mutual

theorem storeSize?_eq_some_iff : (type : ValueType) → {n : Nat} →
    (t.storeSize? type = some n ↔ t.NoOverflow type ∧ t.storeSize type = n)
  | .array elem len, n => by
    rw [storeSize?, NoOverflow, storeSize]
    simp only [Option.bind_eq_bind, Option.bind_eq_some_iff, storeSize?_eq_some_iff elem,
      Option.pure_def, Option.some.injEq]
    constructor
    · rintro ⟨size, ⟨helem, rfl⟩, rfl⟩
      exact ⟨helem, rfl⟩
    · rintro ⟨helem, rfl⟩
      exact ⟨_, ⟨helem, rfl⟩, rfl⟩
  | .struct fields, n => by
    rw [storeSize?, NoOverflow, storeSize]
    simp only [Option.bind_eq_bind, Option.bind_eq_some_iff, fieldsEnd?_eq_some_iff fields,
      Option.pure_def, Option.some.injEq]
    constructor
    · rintro ⟨last, ⟨hfields, rfl⟩, rfl⟩
      exact ⟨hfields, rfl⟩
    · rintro ⟨hfields, rfl⟩
      exact ⟨_, ⟨hfields, rfl⟩, rfl⟩
  | .i1, _ | .i8, _ | .i16, _ | .i32, _ | .i64, _ | .f32, _ | .f64, _ | .ptr, _ => by
    simp only [storeSize?, NoOverflow, storeSize, Option.some.injEq, true_and]

theorem fieldsEnd?_eq_some_iff : (fields : List ValueType) → {offset n : Nat} →
    (t.fieldsEnd? offset fields = some n ↔
      t.FieldsNoOverflow offset fields ∧ t.fieldsEnd offset fields = n)
  | [], _, _ => by simp only [fieldsEnd?, FieldsNoOverflow, fieldsEnd, Option.some.injEq, true_and]
  | f :: fs, offset, n => by
    rw [fieldsEnd?, FieldsNoOverflow, fieldsEnd, allocSize]
    simp only [Option.bind_eq_bind, Option.bind_eq_some_iff, storeSize?_eq_some_iff f,
      sum?_eq_some_iff, fieldsEnd?_eq_some_iff fs]
    constructor
    · rintro ⟨size, ⟨hf, rfl⟩, next, ⟨hsum, rfl⟩, hrest, rfl⟩
      exact ⟨⟨hf, hsum, hrest⟩, rfl⟩
    · rintro ⟨⟨hf, hsum, hrest⟩, rfl⟩
      exact ⟨_, ⟨hf, rfl⟩, _, ⟨hsum, rfl⟩, hrest, rfl⟩

end

theorem hasSize_iff : t.hasSize type = true ↔ t.NoOverflow type := by
  rw [hasSize, Option.isSome_iff_exists]
  simp only [storeSize?_eq_some_iff, exists_and_left, exists_eq', and_true]

mutual

theorem storeSize_eq_min (ht : t.PointersFit) :
    (type : ValueType) → t.NoOverflow type → t.storeSize type = min (t.exactSize type) largest
  | .array elem len, h => by
    rw [NoOverflow] at h
    rw [storeSize, exactSize, storeSize_eq_min ht elem h, alignTo_abiAlign ht, mulSat_min]
  | .struct fields, h => by
    rw [NoOverflow] at h
    have hend : t.fieldsEnd 0 fields = min (t.exactEnd 0 fields) largest :=
      fieldsEnd_eq_min ht fields 0 rfl h
    rw [storeSize, exactSize, hend, alignTo_maxAlign ht]
  | .i1, _ | .i8, _ | .i16, _ | .i32, _ | .i64, _ | .f32, _ | .f64, _ | .ptr, _ => by
    simp only [storeSize, exactSize]
    exact (min_eq_left (scalarSize_le_largest ht _)).symm

theorem fieldsEnd_eq_min (ht : t.PointersFit) :
    (fields : List ValueType) → (offset : Nat) → {exact : Nat} → offset = min exact largest →
      t.FieldsNoOverflow offset fields →
        t.fieldsEnd offset fields = min (t.exactEnd exact fields) largest
  | [], offset, exact, hoffset, _ => by rwa [fieldsEnd, exactEnd]
  | f :: fs, offset, exact, hoffset, h => by
    rw [FieldsNoOverflow, allocSize] at h
    obtain ⟨hf, hsum, hrest⟩ := h
    have hstart : alignTo offset (t.abiAlign f) = min (roundUp exact (t.abiAlign f)) largest := by
      rw [hoffset, alignTo_abiAlign ht]
    have hsize : alignTo (t.storeSize f) (t.abiAlign f) =
        min (roundUp (t.exactSize f) (t.abiAlign f)) largest := by
      rw [storeSize_eq_min ht f hf, alignTo_abiAlign ht]
    rw [fieldsEnd, exactEnd]
    refine fieldsEnd_eq_min ht fs _ ?_ hrest
    rw [hstart, hsize] at hsum ⊢
    exact add_min hsum

end

theorem allocSize_eq_min (ht : t.PointersFit) (h : t.NoOverflow type) :
    t.allocSize type = min (t.exactAlloc type) largest := by
  rw [allocSize, storeSize_eq_min ht type h, alignTo_abiAlign ht]
  rfl

theorem min_add_min_le_iff {a b : Nat} :
    min a largest + min b largest ≤ largest ↔ a + b ≤ largest ∨ b = 0 ∨ a = 0 := by
  have hpos : 0 < largest := by decide
  omega

mutual

/-- Whether a sum leaves the words can be told from the exact sizes. -/
theorem noOverflow_iff (ht : t.PointersFit) :
    (type : ValueType) → (t.NoOverflow type ↔ t.Placeable type)
  | .array elem _ => by
    rw [NoOverflow, Placeable]
    exact noOverflow_iff ht elem
  | .struct fields => by
    rw [NoOverflow, Placeable]
    exact fieldsNoOverflow_iff ht fields 0 rfl
  | .i1 | .i8 | .i16 | .i32 | .i64 | .f32 | .f64 | .ptr => by simp only [NoOverflow, Placeable]

theorem fieldsNoOverflow_iff (ht : t.PointersFit) :
    (fields : List ValueType) → (offset : Nat) → {exact : Nat} → offset = min exact largest →
      (t.FieldsNoOverflow offset fields ↔ t.FieldsPlaceable exact fields)
  | [], _, _, _ => by rw [FieldsNoOverflow, FieldsPlaceable]
  | f :: fs, offset, exact, hoffset => by
    rw [FieldsNoOverflow, FieldsPlaceable, noOverflow_iff ht f]
    refine and_congr_right fun hf => ?_
    have hstart : alignTo offset (t.abiAlign f) = min (roundUp exact (t.abiAlign f)) largest := by
      rw [hoffset, alignTo_abiAlign ht]
    have hsize := allocSize_eq_min ht ((noOverflow_iff ht f).2 hf)
    rw [hstart, hsize, ← min_add_min_le_iff]
    exact and_congr_right fun hsum => fieldsNoOverflow_iff ht fs _ (add_min hsum)

end

theorem fieldsEnd_cons (offset : Nat) (field : ValueType) (fields : List ValueType) :
    t.fieldsEnd offset (field :: fields) =
      t.fieldsEnd (alignTo offset (t.abiAlign field) + t.allocSize field) fields := rfl

theorem le_fieldsEnd (hoffset : offset ≤ largest) (h : t.FieldsNoOverflow offset fields) :
    offset ≤ t.fieldsEnd offset fields ∧ t.fieldsEnd offset fields ≤ largest := by
  induction fields generalizing offset with
  | nil => exact ⟨le_refl _, hoffset⟩
  | cons f fs ih =>
    obtain ⟨-, hsum, hrest⟩ := h
    have hround := le_alignTo (t.abiAlign f) (hoffset.trans_lt (by decide))
    obtain ⟨hle, hlast⟩ := ih hsum hrest
    rw [fieldsEnd_cons]
    exact ⟨by omega, hlast⟩

theorem fieldOffset_add_le (hoffset : offset ≤ largest) (h : t.FieldsNoOverflow offset fields)
    {start : Nat} (hfield : fields[i]? = some field)
    (hstart : (t.fieldOffsetsFrom offset fields)[i]? = some start) :
    start + t.allocSize field ≤ t.fieldsEnd offset fields := by
  induction fields generalizing offset i with
  | nil => cases hfield
  | cons f fs ih =>
    obtain ⟨-, hsum, hrest⟩ := h
    rw [fieldOffsetsFrom] at hstart
    rw [fieldsEnd_cons]
    cases i with
    | zero =>
      cases hfield
      cases hstart
      exact (le_fieldsEnd hsum hrest).1
    | succ i => exact ih hsum hrest hfield hstart

theorem fieldOffset_add_le_storeSize (h : t.NoOverflow (.struct fields)) {start : Nat}
    (hfield : fields[i]? = some field) (hstart : (t.fieldOffsets fields)[i]? = some start) :
    start + t.allocSize field ≤ t.storeSize (.struct fields) := by
  rw [NoOverflow] at h
  have hle := fieldOffset_add_le (Nat.zero_le _) h hfield hstart
  have hlast := (le_fieldsEnd (Nat.zero_le _) h).2
  rw [storeSize]
  exact hle.trans (le_alignTo _ (hlast.trans_lt (by decide)))

end Target

section Arena

variable {t : Target} {a : Arena} {g : GlobalVariable}

theorem Arena.addressOf_of_lt_allocSize (hslot : a.slot? g.id = none)
    (hlocal : g.isExternal = false) (hsized : Arena.hasSlotSize t g = true)
    (hlarge : ArenaOffset.capacity < t.allocSize g.type) :
    a.addressOf t g = (a, .error (.arenaExhausted g.name)) := by
  have hsize : t.allocSize g.type ≤ slotSize t g := by
    unfold slotSize
    split
    · exact le_max_left _ _
    · exact le_refl _
  unfold addressOf
  simp only [hslot, hlocal, hsized, Bool.not_true, Bool.false_eq_true, ↓reduceIte]
  rw [if_pos (by omega)]

theorem Arena.addressOf_of_not_hasSlotSize (hslot : a.slot? g.id = none)
    (hlocal : g.isExternal = false) (hsized : Arena.hasSlotSize t g = false) :
    a.addressOf t g = (a, .error (.crash .sum)) := by
  unfold addressOf
  simp [hslot, hlocal, hsized]

end Arena

namespace ConstantPool

variable {t : Target} {pool : List PoolEntry} {e : PoolEntry} {b : CodeBuffer}

theorem allocSize_le_sizeFrom (he : e ∈ pool) (size align : Nat) :
    min (t.allocSize e.type) Word.largest ≤ (sizeFrom t size align pool).1 := by
  induction pool generalizing size align with
  | nil => cases he
  | cons first rest ih =>
    rw [sizeFrom]
    rcases List.mem_cons.1 he with rfl | he
    · refine le_trans ?_ (le_sizeFrom (Word.addSat_le _ _))
      simp only [Word.addSat]
      omega
    · exact ih he _ _

theorem place_overflow_of_allocSize (hpool : ∀ e ∈ pool, e.isMachine = false) (he : e ∈ pool)
    (hsized : hasSize t pool = true)
    (hcap : b.capacity ≤ min (t.allocSize e.type) Word.largest) :
    (place t pool b).buffer.overflow ≠ none := by
  have hsize : b.capacity ≤ (size t pool).1 := hcap.trans (allocSize_le_sizeFrom he 0 1)
  have hnonempty := List.isEmpty_eq_false_iff.2 (List.ne_nil_of_mem he)
  have hm : pool.findIdx? (·.isMachine) = none := List.findIdx?_eq_none_iff.2 hpool
  have hreserve : (b.reserve (size t pool).1 (size t pool).2).2 = none ∧
      (b.reserve (size t pool).1 (size t pool).2).1.overflow ≠ none := by
    unfold CodeBuffer.reserve
    split
    · rename_i ho
      exact ⟨rfl, Option.isSome_iff_ne_none.1 ho⟩
    · rw [dif_neg (by omega)]
      exact ⟨rfl, nofun⟩
  rcases hr : b.reserve (size t pool).1 (size t pool).2 with ⟨c, start⟩
  rw [hr] at hreserve
  obtain ⟨rfl, ho⟩ := hreserve
  rw [place_of_reserve_none hm hnonempty hsized hr]
  exact ho

theorem place_fault_of_not_hasSize (hpool : ∀ e ∈ pool, e.isMachine = false) (he : e ∈ pool)
    (hsized : t.hasSize e.type = false) : (place t pool b).fault = some (.crash .sum) := by
  have hm : pool.findIdx? (·.isMachine) = none := List.findIdx?_eq_none_iff.2 hpool
  have hnonempty := List.isEmpty_eq_false_iff.2 (List.ne_nil_of_mem he)
  have hall : hasSize t pool = false := List.all_eq_false.2 ⟨e, he, by simp [hsized]⟩
  simp [place, reserve, hm, hnonempty, hall]

end ConstantPool

namespace Target

open Word

variable {t : Target} {type : ValueType}

/-- The sizes of a type are right where they are words and the largest word otherwise, the fields of a
structure lie within it, and what is too large is found to be too large wherever it is placed. -/
structure Saturates (t : Target) (type : ValueType) : Prop where
  computed : t.storeSize? type = some (t.storeSize type)
  store : t.storeSize type = min (t.exactSize type) largest
  alloc : t.allocSize type = min (t.exactAlloc type) largest
  fields : ∀ (fields : List ValueType) (i start : Nat) (field : ValueType),
    type = .struct fields → fields[i]? = some field →
      (t.fieldOffsets fields)[i]? = some start → start + t.allocSize field ≤ t.storeSize type
  arena : ∀ (a : Arena) (g : GlobalVariable), g.type = type → a.slot? g.id = none →
    g.isExternal = false → (∀ init, g.init = some init → t.Placeable init.type) →
      ArenaOffset.capacity < t.exactAlloc type →
        a.addressOf t g = (a, .error (.arenaExhausted g.name))
  buffer : ∀ (pool : List PoolEntry) (b : CodeBuffer), (∀ e ∈ pool, e.isMachine = false) →
    (∀ e ∈ pool, t.Placeable e.type) → (∃ e ∈ pool, e.type = type) →
      b.capacity ≤ t.exactAlloc type → (ConstantPool.place t pool b).buffer.overflow ≠ none

/-- A type has no size, and everything that has to place a value of it is cut off. -/
structure Overflows (t : Target) (type : ValueType) : Prop where
  computed : t.storeSize? type = none
  arena : ∀ (a : Arena) (g : GlobalVariable), g.type = type → a.slot? g.id = none →
    g.isExternal = false → a.addressOf t g = (a, .error (.crash .sum))
  buffer : ∀ (pool : List PoolEntry) (b : CodeBuffer), (∀ e ∈ pool, e.isMachine = false) →
    (∃ e ∈ pool, e.type = type) → (ConstantPool.place t pool b).fault = some (.crash .sum)

theorem hasSize_iff_placeable (ht : t.PointersFit) :
    t.hasSize type = true ↔ t.Placeable type := hasSize_iff.trans (noOverflow_iff ht type)

theorem hasSlotSize_iff_placeable (ht : t.PointersFit) (g : GlobalVariable) :
    Arena.hasSlotSize t g = true ↔
      t.Placeable g.type ∧ ∀ init, g.init = some init → t.Placeable init.type := by
  rw [Arena.hasSlotSize, Bool.and_eq_true, Option.all_eq_true, hasSize_iff_placeable ht]
  exact and_congr_right fun _ => forall₂_congr fun _ _ => hasSize_iff_placeable ht

theorem Placeable.saturates (ht : t.PointersFit) (h : t.Placeable type) : t.Saturates type := by
  have htype := h
  have h := (noOverflow_iff ht type).2 h
  have halloc := allocSize_eq_min ht h
  refine ⟨(storeSize?_eq_some_iff type).2 ⟨h, rfl⟩, storeSize_eq_min ht type h, halloc, ?_, ?_, ?_⟩
  · rintro fields i start field rfl hfield hstart
    exact fieldOffset_add_le_storeSize h hfield hstart
  · rintro a g rfl hslot hlocal hinit hlarge
    have hall := (hasSlotSize_iff_placeable ht g).2 ⟨htype, hinit⟩
    refine Arena.addressOf_of_lt_allocSize hslot hlocal hall ?_
    rw [halloc]
    exact lt_min hlarge (by decide)
  · rintro pool b hpool hplaceable ⟨e, he, rfl⟩ hlarge
    have hall : ConstantPool.hasSize t pool = true :=
      List.all_eq_true.2 fun e he => (hasSize_iff_placeable ht).2 (hplaceable e he)
    refine ConstantPool.place_overflow_of_allocSize hpool he hall ?_
    have hcap := b.capacity_le
    rw [halloc]
    omega

theorem overflows_of_not_placeable (ht : t.PointersFit) (h : ¬t.Placeable type) :
    t.Overflows type := by
  rw [← hasSize_iff_placeable ht, Bool.not_eq_true] at h
  refine ⟨Option.not_isSome_iff_eq_none.1 (by simpa [hasSize] using h), ?_, ?_⟩
  · rintro a g rfl hslot hlocal
    exact Arena.addressOf_of_not_hasSlotSize hslot hlocal (by rw [Arena.hasSlotSize, h, Bool.false_and])
  · rintro pool b hpool ⟨e, he, rfl⟩
    exact ConstantPool.place_fault_of_not_hasSize hpool he h

/-- The size of a type is right, or the largest word, exactly if in its structures every field ends
within the words, takes no room, or starts where the structure does. The size of any other type is
not computed to its end. -/
theorem sizes_saturate (ht : t.PointersFit) (type : ValueType) :
    (t.Placeable type → t.Saturates type) ∧ (¬t.Placeable type → t.Overflows type) :=
  ⟨Placeable.saturates ht, overflows_of_not_placeable ht⟩

theorem sizes_saturate_array :
    let type := ValueType.array (.struct [.i8, .i64]) 0x8000000000000000
    x86_64.PointersFit ∧ x86_64.Placeable type ∧ x86_64.exactSize type = 2 ^ 67 ∧
      x86_64.storeSize? type = some largest := by
  intro type
  have ht : x86_64.PointersFit := ⟨3, le_refl _, rfl⟩
  have hplaceable : x86_64.Placeable type := by
    refine ⟨trivial, .inl ?_, trivial, .inl ?_, trivial⟩ <;> decide
  have hexact : x86_64.exactSize type = 2 ^ 67 := by decide
  have hsaturates := (sizes_saturate ht type).1 hplaceable
  refine ⟨ht, hplaceable, hexact, ?_⟩
  rw [hsaturates.computed, hsaturates.store, hexact]
  decide

/-- A structure of a largest array and one more byte has no size, and a variable of this type is not
refused as too large. -/
theorem storeSize?_overflows :
    let type := ValueType.struct [.array .i8 0xFFFFFFFFFFFFFFFF, .i8]
    x86_64.PointersFit ∧ x86_64.exactSize type = 2 ^ 64 ∧ x86_64.storeSize? type = none ∧
      (Arena.addressOf {} x86_64 { id := ⟨0⟩, name := "g", type }).2 = .error (.crash .sum) :=
  ⟨⟨3, le_refl _, rfl⟩, by decide, by decide,
    congrArg Prod.snd (Arena.addressOf_of_not_hasSlotSize rfl rfl (by decide))⟩

end Target

end CodeEmission
