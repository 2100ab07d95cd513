import CodeEmission.Proofs.Resolution.Fields
import CodeEmission.Proofs.Types.Leaves

/-! # What is written of a constant

A constant of a type whose sizes are words is written as its leaves and nothing else, into any array
that is large enough for the type. It is refused only if it is not well typed.
-/

namespace CodeEmission

namespace Target

open Word

variable {t : Target} {type : ValueType} {fields : List ValueType} {offset : Nat}

mutual

def Addressable (t : Target) : ValueType → Prop
  | .array elem len => Addressable t elem ∧ t.allocSize elem * len.toNat ≤ largest
  | .struct fields => FieldsAddressable t 0 fields
  | s => t.scalarSize s ≤ largest

def FieldsAddressable (t : Target) (offset : Nat) : List ValueType → Prop
  | [] => True
  | f :: fs => Addressable t f ∧ alignTo offset (t.abiAlign f) + t.allocSize f ≤ largest ∧
      FieldsAddressable t (alignTo offset (t.abiAlign f) + t.allocSize f) fs

end

mutual

theorem Addressable.noOverflow : (type : ValueType) → t.Addressable type → t.NoOverflow type
  | .array elem _, h => by
    rw [Addressable] at h
    rw [NoOverflow]
    exact Addressable.noOverflow elem h.1
  | .struct fields, h => by
    rw [Addressable] at h
    rw [NoOverflow]
    exact FieldsAddressable.noOverflow fields 0 h
  | .i1, _ | .i8, _ | .i16, _ | .i32, _ | .i64, _ | .f32, _ | .f64, _ | .ptr, _ => by
    simp only [NoOverflow]

theorem FieldsAddressable.noOverflow : (fields : List ValueType) → (offset : Nat) →
    t.FieldsAddressable offset fields → t.FieldsNoOverflow offset fields
  | [], _, _ => by simp only [FieldsNoOverflow]
  | f :: fs, _, h => by
    rw [FieldsAddressable] at h
    rw [FieldsNoOverflow]
    exact ⟨Addressable.noOverflow f h.1, h.2.1, FieldsAddressable.noOverflow fs _ h.2.2⟩

end

theorem fieldsEnd_lt_modulus (h : t.Addressable (.struct fields)) :
    t.fieldsEnd 0 fields < modulus := by
  rw [Addressable] at h
  have hend := (le_fieldsEnd (Nat.zero_le _) (FieldsAddressable.noOverflow fields 0 h)).2
  exact hend.trans_lt (by decide)

theorem fieldsEnd_le_storeSize (h : t.Addressable (.struct fields)) :
    t.fieldsEnd 0 fields ≤ t.storeSize (.struct fields) := by
  rw [storeSize]
  exact le_alignTo _ (fieldsEnd_lt_modulus h)

theorem storeSize_lt_modulus (h : t.Addressable type) : t.storeSize type < modulus := by
  have hlast : largest < modulus := by decide
  cases type with
  | array elem len =>
    rw [storeSize]
    exact (mulSat_le _ _).trans_lt hlast
  | struct fields =>
    rw [storeSize]
    exact alignTo_lt _ (fieldsEnd_lt_modulus h)
  | _ =>
    simp only [Addressable] at h
    simp only [storeSize]
    exact h.trans_lt hlast

theorem storeSize_le_allocSize (h : t.Addressable type) : t.storeSize type ≤ t.allocSize type :=
  le_alignTo _ (storeSize_lt_modulus h)

theorem storeSize_array {elem : ValueType} {len : UInt64} (h : t.Addressable (.array elem len)) :
    t.storeSize (.array elem len) = len.toNat * t.allocSize elem := by
  rw [Addressable] at h
  rw [storeSize, Nat.mul_comm]
  exact min_eq_left h.2

end Target

namespace Constant

open Leaf

variable {t : Target} {c : Constant} {n : Nat} {bytes : List UInt8}

theorem toNat_toInt_emod (value : Int64) {k : Nat} (hk : k ≤ 64) :
    (value.toInt % 2 ^ k).toNat = value.toUInt64.toNat % 2 ^ k := by
  have hbits : value.toInt = Int.bmod value.toUInt64.toNat (2 ^ 64) :=
    BitVec.toInt_eq_toNat_bmod value.toBitVec
  have hdvd : (2 : Int) ^ k ∣ ((2 ^ 64 : Nat) : Int) := by
    exact_mod_cast Nat.pow_dvd_pow 2 hk
  rw [hbits, ← Int.emod_emod_of_dvd _ hdvd, Int.bmod_emod, Int.emod_emod_of_dvd _ hdvd]
  exact_mod_cast Int.toNat_natCast _

theorem integerBytes_eq {type : ValueType} (h : type.isInteger = true) (value : Int64) :
    Bytes.littleEndian (min (t.storeSize type) 8)
        (if type = .i1 then value.toUInt64 &&& 1 else value.toUInt64).toNat =
      integerBytes type value := by
  cases type with
  | i1 =>
    rw [integerBytes, integerWidth, toNat_toInt_emod value (by decide)]
    simp only [Target.storeSize, Target.scalarSize, if_true, UInt64.toNat_and]
    exact congrArg _ (Nat.and_two_pow_sub_one_eq_mod _ 1)
  | i8 =>
    rw [integerBytes, integerWidth, toNat_toInt_emod value (by decide)]
    exact (Bytes.littleEndian_mod 1 _).symm
  | i16 =>
    rw [integerBytes, integerWidth, toNat_toInt_emod value (by decide)]
    exact (Bytes.littleEndian_mod 2 _).symm
  | i32 =>
    rw [integerBytes, integerWidth, toNat_toInt_emod value (by decide)]
    exact (Bytes.littleEndian_mod 4 _).symm
  | i64 =>
    rw [integerBytes, integerWidth, toNat_toInt_emod value (by decide)]
    exact (Bytes.littleEndian_mod 8 _).symm
  | _ => cases h

theorem length_integerBytes {type : ValueType} (h : type.isInteger = true) (value : Int64) :
    (integerBytes type value).length = t.storeSize type := by
  rw [integerBytes, Bytes.length_littleEndian]
  cases type with
  | i1 | i8 | i16 | i32 | i64 =>
    simp only [Target.storeSize]
    rfl
  | _ => cases h

theorem single_consecutive {type : ValueType} (ha : t.Addressable type)
    (h : bytes.length ≤ t.storeSize type) :
    Consecutive 0 [⟨[], 0, bytes⟩] (t.allocSize type) := by
  have hle := h.trans (Target.storeSize_le_allocSize ha)
  refine ⟨le_refl 0, ?_⟩
  simpa [Consecutive, ending] using hle

theorem toNat_length {α : Type} {l : List α} (h : l.length < Word.modulus) :
    (UInt64.ofNat l.length).toNat = l.length := Nat.mod_eq_of_lt h

theorem length_bytes_le {raw : List UInt8} (h : raw.length < Word.modulus)
    (ha : t.Addressable (Constant.bytes raw).type) :
    raw.length ≤ t.storeSize (Constant.bytes raw).type := by
  have hsize := Target.storeSize_array ha
  rw [toNat_length h] at hsize
  exact (hsize.trans (Nat.mul_one _)).ge

mutual

/-- The leaves of a constant stand one after another within the bytes of its type. -/
theorem leaves_consecutive (t : Target) : (c : Constant) → c.LengthsFit → c.WellTyped →
    t.Addressable c.type → Consecutive 0 (leaves t c) (t.allocSize c.type)
  | .int type value, _, hw, ha => by
    rw [WellTyped] at hw
    rw [leaves]
    exact single_consecutive ha (length_integerBytes hw value).le
  | .f32 bits, _, _, ha => by
    rw [leaves]
    exact single_consecutive ha (Bytes.length_littleEndian _ _).le
  | .f64 bits, _, _, ha => by
    rw [leaves]
    exact single_consecutive ha (Bytes.length_littleEndian _ _).le
  | .null, _, _, ha => by
    rw [leaves]
    exact single_consecutive ha List.length_replicate.le
  | .zero type, _, _, ha => by
    rw [leaves]
    exact single_consecutive ha List.length_replicate.le
  | .bytes raw, hl, _, ha => by
    rw [LengthsFit] at hl
    rw [leaves]
    exact single_consecutive ha (length_bytes_le hl ha)
  | .array elem elems, hl, hw, ha => by
    rw [LengthsFit] at hl
    rw [WellTyped] at hw
    have hsize := Target.storeSize_array ha
    rw [toNat_length hl.1] at hsize
    have helem : t.Addressable elem := by
      rw [type, Target.Addressable] at ha
      exact ha.1
    have helems := elementLeaves_consecutive t elem helem 0 elems hl.2 hw
    rw [Nat.zero_mul, Nat.zero_add, ← hsize] at helems
    rw [leaves]
    exact helems.mono (le_refl 0) (Target.storeSize_le_allocSize ha)
  | .struct fields, hl, hw, ha => by
    rw [LengthsFit] at hl
    rw [WellTyped] at hw
    have hend := (Target.fieldsEnd_le_storeSize ha).trans (Target.storeSize_le_allocSize ha)
    rw [type, Target.Addressable] at ha
    rw [leaves]
    exact (fieldLeaves_consecutive t 0 0 (Nat.zero_le _) fields hl hw ha).mono (le_refl 0) hend

theorem elementLeaves_consecutive (t : Target) (elem : ValueType) (ha : t.Addressable elem)
    (index : Nat) : (es : List Constant) → AllLengthsFit es → ElementsWellTyped elem es →
      Consecutive (index * t.allocSize elem) (elementLeaves t (t.allocSize elem) index es)
        ((index + es.length) * t.allocSize elem)
  | [], _, _ => by
    rw [elementLeaves]
    exact le_refl _
  | e :: es, hl, hw => by
    rw [AllLengthsFit] at hl
    rw [ElementsWellTyped] at hw
    obtain ⟨htype, hwe, hwes⟩ := hw
    have hfirst := leaves_consecutive t e hl.1 hwe (htype ▸ ha)
    have hrest := elementLeaves_consecutive t elem ha (index + 1) es hl.2 hwes
    rw [htype] at hfirst
    have hshift := hfirst.map_under index (index * t.allocSize elem)
    rw [Nat.add_zero, ← Nat.succ_mul] at hshift
    rw [Nat.add_right_comm, Nat.add_assoc] at hrest
    rw [elementLeaves]
    exact hshift.append hrest

theorem fieldLeaves_consecutive (t : Target) (index offset : Nat) (ho : offset ≤ Word.largest) :
    (fs : List Constant) → AllLengthsFit fs → FieldsWellTyped fs →
      t.FieldsAddressable offset (types fs) →
        Consecutive offset (fieldLeaves t index (t.fieldOffsetsFrom offset (types fs)) fs)
          (t.fieldsEnd offset (types fs))
  | [], _, _, _ => by
    rw [types, Target.fieldsEnd, Target.fieldOffsetsFrom, fieldLeaves]
    · exact le_refl _
    · nofun
  | f :: fs, hl, hw, ha => by
    rw [AllLengthsFit] at hl
    rw [FieldsWellTyped] at hw
    rw [types, Target.FieldsAddressable] at ha
    obtain ⟨haf, hsum, hafs⟩ := ha
    have hstart := Word.le_alignTo (t.abiAlign f.type) (ho.trans_lt (by decide))
    have hfirst := (leaves_consecutive t f hl.1 hw.1 haf).map_under index
      (Word.alignTo offset (t.abiAlign f.type))
    have hrest := fieldLeaves_consecutive t (index + 1) _ hsum fs hl.2 hw.2 hafs
    rw [types, Target.fieldOffsetsFrom, Target.fieldsEnd_cons, fieldLeaves]
    exact (hfirst.append hrest).mono hstart (le_refl _)

end

def planOf (ls : List Leaf) : Plan EmitError := ⟨ls.map (·.store), none⟩

theorem planOf_andThen (ls ls' : List Leaf) :
    (planOf ls).andThen (planOf ls') = planOf (ls ++ ls') := by
  simp [planOf, Plan.andThen]

theorem shift_planOf (ls : List Leaf) (index offset : Nat) :
    (planOf ls).shift offset = planOf (ls.map (under index offset)) := by
  simp [planOf, Plan.shift, under]

theorem within_eq {offset length : Nat} {ls : List Leaf} (h : offset + length ≤ n) (index : Nat) :
    within n offset length (planOf ls) = planOf (ls.map (under index offset)) := by
  rw [within, if_pos h, shift_planOf]

theorem scalar_eq (h : bytes.length ≤ n) : scalar n bytes = planOf [⟨[], 0, bytes⟩] := by
  rw [scalar, within, if_pos (by omega), Plan.shift_zero]
  rfl

theorem zeros_eq {length : Nat} (h : length ≤ n) :
    zeros n length = planOf [⟨[], 0, List.replicate length 0⟩] := by
  rw [zeros, if_pos h]
  rfl

mutual

/-- The plan of a well-typed constant is to store its leaves. -/
theorem plan_eq (t : Target) : (c : Constant) → c.LengthsFit → c.WellTyped →
    t.Addressable c.type → (n : Nat) → t.allocSize c.type ≤ n → c.plan t n = planOf (leaves t c)
  | .int type value, _, hw, ha, n, hn => by
    rw [WellTyped] at hw
    have hlen := length_integerBytes (t := t) hw value
    rw [plan, leaves, if_pos hw]
    dsimp only
    rw [integerBytes_eq hw]
    refine scalar_eq ?_
    rw [hlen]
    exact (Target.storeSize_le_allocSize ha).trans hn
  | .f32 bits, _, _, ha, n, hn => by
    rw [plan, leaves]
    refine scalar_eq ?_
    rw [Bytes.length_littleEndian]
    exact (Target.storeSize_le_allocSize ha).trans hn
  | .f64 bits, _, _, ha, n, hn => by
    rw [plan, leaves]
    refine scalar_eq ?_
    rw [Bytes.length_littleEndian]
    exact (Target.storeSize_le_allocSize ha).trans hn
  | .null, _, _, ha, n, hn => by
    rw [plan, leaves]
    exact zeros_eq ((Target.storeSize_le_allocSize ha).trans hn)
  | .zero type, _, _, ha, n, hn => by
    rw [plan, leaves]
    exact zeros_eq ((Target.storeSize_le_allocSize ha).trans hn)
  | .bytes raw, hl, _, ha, n, hn => by
    rw [LengthsFit] at hl
    rw [plan, leaves]
    exact scalar_eq ((length_bytes_le hl ha).trans ((Target.storeSize_le_allocSize ha).trans hn))
  | .array elem elems, hl, hw, ha, n, hn => by
    rw [LengthsFit] at hl
    rw [WellTyped] at hw
    rw [type] at ha hn
    have hsize := Target.storeSize_array ha
    have hlast := Target.storeSize_lt_modulus ha
    have hroom := (Target.storeSize_le_allocSize ha).trans hn
    rw [toNat_length hl.1] at hsize
    rw [hsize] at hlast hroom
    rw [Target.Addressable] at ha
    rw [plan, leaves]
    refine planElements_eq t elem ha.1 0 elems hl.2 hw n ?_ ?_ <;> rwa [Nat.zero_add]
  | .struct fields, hl, hw, ha, n, hn => by
    rw [LengthsFit] at hl
    rw [WellTyped] at hw
    have hend := (Target.fieldsEnd_le_storeSize ha).trans
      ((Target.storeSize_le_allocSize ha).trans hn)
    rw [type, Target.Addressable] at ha
    rw [plan, leaves]
    exact planFields_eq t 0 0 fields hl hw ha n hend

theorem planElements_eq (t : Target) (elem : ValueType) (ha : t.Addressable elem) (index : Nat) :
    (es : List Constant) → AllLengthsFit es → ElementsWellTyped elem es → (n : Nat) →
      (index + es.length) * t.allocSize elem < Word.modulus →
        (index + es.length) * t.allocSize elem ≤ n →
          planElements t n elem (t.allocSize elem) index es =
            planOf (elementLeaves t (t.allocSize elem) index es)
  | [], _, _, _, _, _ => by
    rw [planElements, elementLeaves]
    rfl
  | e :: es, hl, hw, n, hlast, hroom => by
    rw [AllLengthsFit] at hl
    rw [ElementsWellTyped] at hw
    obtain ⟨htype, hwe, hwes⟩ := hw
    have hfirst := plan_eq t e hl.1 hwe (htype ▸ ha) (t.allocSize elem) (htype ▸ le_refl _)
    rw [List.length_cons, Nat.add_comm es.length, ← Nat.add_assoc] at hlast hroom
    have hrest := planElements_eq t elem ha (index + 1) es hl.2 hwes n hlast hroom
    have hend : index * t.allocSize elem + t.allocSize elem ≤
        (index + 1 + es.length) * t.allocSize elem := by
      rw [← Nat.succ_mul]
      exact Nat.mul_le_mul_right _ (Nat.le_add_right _ _)
    have hplace : Word.mulSat index (t.allocSize elem) = index * t.allocSize elem := by
      refine min_eq_left ?_
      simp only [Word.largest]
      omega
    rw [planElements, if_pos htype, elementLeaves, hplace, hfirst, hrest,
      within_eq (hend.trans hroom) index, planOf_andThen]

theorem planFields_eq (t : Target) (index offset : Nat) : (fs : List Constant) →
    AllLengthsFit fs → FieldsWellTyped fs → t.FieldsAddressable offset (types fs) →
      (n : Nat) → t.fieldsEnd offset (types fs) ≤ n →
        planFields t n (t.fieldOffsetsFrom offset (types fs)) fs =
          planOf (fieldLeaves t index (t.fieldOffsetsFrom offset (types fs)) fs)
  | [], _, _, _, n, _ => by
    rw [types, Target.fieldOffsetsFrom, planFields, fieldLeaves]
    · rfl
    · nofun
    · nofun
  | f :: fs, hl, hw, ha, n, hend => by
    rw [AllLengthsFit] at hl
    rw [FieldsWellTyped] at hw
    rw [types, Target.FieldsAddressable] at ha
    obtain ⟨haf, hsum, hafs⟩ := ha
    rw [types, Target.fieldsEnd_cons] at hend
    have hroom := (Target.le_fieldsEnd hsum (Target.FieldsAddressable.noOverflow _ _ hafs)).1
    have hfirst := plan_eq t f hl.1 hw.1 haf _ (le_refl _)
    have hrest := planFields_eq t (index + 1) _ fs hl.2 hw.2 hafs n hend
    rw [types, Target.fieldOffsetsFrom, planFields, fieldLeaves,
      hfirst, hrest, within_eq (hroom.trans hend) index, planOf_andThen]

end

theorem fault_of_within {offset length : Nat} {part : Plan EmitError}
    (h : (within n offset length part).fault = none) : part.fault = none := by
  unfold within at h
  split at h
  · exact h
  · cases h

mutual

/-- What is written without a fault is well typed. -/
theorem wellTyped_of_plan (t : Target) : (c : Constant) → (n : Nat) →
    (c.plan t n).fault = none → c.WellTyped
  | .int type value, n, h => by
    rw [plan] at h
    rw [WellTyped]
    split at h
    · assumption
    · cases h
  | .array elem elems, n, h => by
    rw [plan] at h
    rw [WellTyped]
    exact wellTyped_of_planElements t n elem _ 0 elems h
  | .struct fields, n, h => by
    rw [plan] at h
    rw [WellTyped]
    exact wellTyped_of_planFields t n 0 fields h
  | .f32 _, _, _ | .f64 _, _, _ | .null, _, _ | .zero _, _, _ | .bytes _, _, _ => by
    simp only [WellTyped]

theorem wellTyped_of_planElements (t : Target) (n : Nat) (elem : ValueType) (stride index : Nat) :
    (es : List Constant) → (planElements t n elem stride index es).fault = none →
      ElementsWellTyped elem es
  | [], _ => by simp only [ElementsWellTyped]
  | e :: es, h => by
    rw [planElements] at h
    rw [ElementsWellTyped]
    split at h
    · rename_i htype
      obtain ⟨hfirst, hrest⟩ := Plan.andThen_fault_eq_none.1 h
      exact ⟨htype, wellTyped_of_plan t e _ (fault_of_within hfirst),
        wellTyped_of_planElements t n elem stride _ es hrest⟩
    · cases h

theorem wellTyped_of_planFields (t : Target) (n offset : Nat) : (fs : List Constant) →
    (planFields t n (t.fieldOffsetsFrom offset (types fs)) fs).fault = none → FieldsWellTyped fs
  | [], _ => by simp only [FieldsWellTyped]
  | f :: fs, h => by
    rw [types, Target.fieldOffsetsFrom, planFields] at h
    rw [FieldsWellTyped]
    obtain ⟨hfirst, hrest⟩ := Plan.andThen_fault_eq_none.1 h
    exact ⟨wellTyped_of_plan t f _ (fault_of_within hfirst),
      wellTyped_of_planFields t n _ fs hrest⟩

end

theorem getElem?_planOf_outside {ls : List Leaf} {i : Nat} (dest : Bytes)
    (h : ∀ l ∈ ls, i < l.store.offset ∨ l.ending ≤ i) :
    ((planOf ls).apply dest)[i]? = dest[i]? := by
  induction ls generalizing dest with
  | nil => rfl
  | cons l ls ih =>
    have hrest := ih (dest.overwrite l.store.offset l.store.bytes)
      fun l' hl' => h l' (List.mem_cons_of_mem _ hl')
    exact hrest.trans (Bytes.getElem?_overwrite_outside dest (h l List.mem_cons_self))

theorem getElem?_planOf_inside {ls : List Leaf} {start last k : Nat} {l : Leaf} {dest : Bytes}
    (h : Consecutive start ls last) (hdest : last ≤ dest.size) (hl : l ∈ ls)
    (hk : k < l.store.bytes.length) :
    ((planOf ls).apply dest)[l.store.offset + k]? = l.store.bytes[k]? := by
  induction ls generalizing start dest with
  | nil => cases hl
  | cons first ls ih =>
    have hsize : last ≤ (dest.overwrite first.store.offset first.store.bytes).size := by
      rwa [Bytes.size_overwrite]
    rcases List.mem_cons.1 hl with rfl | hrest
    · have hend : l.store.offset + l.store.bytes.length ≤ dest.size := h.2.le_last.trans hdest
      -- all later leaves start behind this one
      have hlater : ∀ l' ∈ ls,
          l.store.offset + k < l'.store.offset ∨ l'.ending ≤ l.store.offset + k := by
        intro l' hl'
        have hstart := (h.2.bounds hl').1
        unfold ending at hstart
        exact .inl (by omega)
      exact (getElem?_planOf_outside _ hlater).trans (Bytes.getElem?_overwrite_inside hend hk)
    · exact ih h.2 hsize hrest

/-- An array of bytes into which a constant has been written: it holds every leaf at its place, no two
leaves overlap, and every other byte is as before. -/
structure Written (t : Target) (c : Constant) (dest result : Bytes) : Prop where
  size : result.size = dest.size
  leaf : ∀ path offset bytes, LeafAt t c path offset bytes →
    offset + bytes.length ≤ t.allocSize c.type ∧
      ∀ k < bytes.length, result[offset + k]? = bytes[k]?
  apart : ∀ path offset bytes path' offset' bytes', LeafAt t c path offset bytes →
    LeafAt t c path' offset' bytes' → path ≠ path' →
      offset + bytes.length ≤ offset' ∨ offset' + bytes'.length ≤ offset
  frame : ∀ i, (∀ path offset bytes, LeafAt t c path offset bytes →
    i < offset ∨ offset + bytes.length ≤ i) → result[i]? = dest[i]?

theorem written_planOf {dest : Bytes} (h : Consecutive 0 (leaves t c) (t.allocSize c.type))
    (hdest : t.allocSize c.type ≤ dest.size) :
    c.Written t dest ((planOf (leaves t c)).apply dest) := by
  refine ⟨Plan.size_apply _ _, ?_, ?_, ?_⟩
  · intro path offset bytes hleaf
    have hmem := leafAt_iff.1 hleaf
    exact ⟨(h.bounds hmem).2, fun k hk => getElem?_planOf_inside h hdest hmem hk⟩
  · intro path offset bytes path' offset' bytes' hleaf hleaf' hne
    exact h.apart (leafAt_iff.1 hleaf) (leafAt_iff.1 hleaf') hne
  · intro i hi
    exact getElem?_planOf_outside dest fun l hl => hi _ _ _ (leafAt_iff.2 hl)

theorem write_eq_plan (h : t.Addressable c.type) (n : Nat) : c.write t n = c.plan t n := by
  have hsized := Target.hasSize_iff.2 (Target.Addressable.noOverflow _ h)
  unfold write isSized
  cases c <;> simp [hsized]

/-- In an array that is large enough for its type a constant is written exactly if it is well typed,
and refused as malformed otherwise. What is written of it are its leaves. -/
theorem write_stores_leaves (hlengths : c.LengthsFit) (haddressable : t.Addressable c.type)
    {dest : Bytes} (hdest : t.allocSize c.type ≤ dest.size) :
    ((c.write t dest.size).fault = none ↔ c.WellTyped) ∧
      (¬c.WellTyped → ∃ reason, (c.write t dest.size).fault = some (.malformedConstant reason)) ∧
      (c.WellTyped → c.Written t dest ((c.write t dest.size).apply dest)) := by
  rw [write_eq_plan haddressable]
  have hplan (hw : c.WellTyped) : c.plan t dest.size = planOf (leaves t c) :=
    plan_eq t c hlengths hw haddressable dest.size hdest
  have hiff : (c.plan t dest.size).fault = none ↔ c.WellTyped := by
    refine ⟨wellTyped_of_plan t c _, fun hw => ?_⟩
    rw [hplan hw]
    rfl
  refine ⟨hiff, ?_, ?_⟩
  · intro hw
    obtain ⟨e, he⟩ := Option.ne_none_iff_exists'.1 (mt hiff.1 hw)
    obtain ⟨reason, rfl⟩ := malformed_of_plan he
    exact ⟨reason, he⟩
  · intro hw
    rw [hplan hw]
    exact written_planOf (leaves_consecutive t c hlengths hw haddressable) hdest

theorem write_stores_leaves_nested :
    let c := Constant.struct [.int .i1 3, .array .i16 [.int .i16 (-2), .int .i16 258]]
    let dest : Bytes := Array.replicate 8 0xAA
    c.LengthsFit ∧ Target.x86_64.Addressable c.type ∧ Target.x86_64.allocSize c.type ≤ dest.size ∧
      c.WellTyped ∧ LeafAt .x86_64 c [1, 1] 4 [2, 1] ∧
      ((c.write .x86_64 dest.size).apply dest)[4]? = some 2 := by
  intro c dest
  have hlengths : c.LengthsFit := ⟨trivial, ⟨by decide, trivial, trivial, trivial⟩, trivial⟩
  have haddressable : Target.x86_64.Addressable c.type :=
    ⟨(by decide : 1 ≤ Word.largest), by decide, ⟨(by decide : 2 ≤ Word.largest), by decide⟩,
      by decide, trivial⟩
  have hdest : Target.x86_64.allocSize c.type ≤ dest.size := by decide
  have hwell : c.WellTyped := ⟨rfl, ⟨rfl, rfl, rfl, rfl, trivial⟩, trivial⟩
  have helement : LeafAt .x86_64 (.array .i16 [.int .i16 (-2), .int .i16 258]) [1] 2 [2, 1] :=
    .element rfl (.int .i16 258)
  have hleaf : LeafAt .x86_64 c [1, 1] 4 [2, 1] := .field rfl rfl helement
  have hwritten := (write_stores_leaves hlengths haddressable hdest).2.2 hwell
  exact ⟨hlengths, haddressable, hdest, hwell, hleaf,
    (hwritten.leaf [1, 1] 4 [2, 1] hleaf).2 0 (by decide)⟩

end Constant

end CodeEmission
