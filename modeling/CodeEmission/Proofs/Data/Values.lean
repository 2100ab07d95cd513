import CodeEmission.Data.Constant
import CodeEmission.Proofs.Data.Rearrangement

/-! # Types and constants read back

Types are nested in types and constants in constants, so both are read with a bound on the depth,
which the depth of what was written meets. Floating-point constants are left out: files hold no
number that is not finite.
-/

namespace CodeEmission

open Data

namespace ValueType

@[simp] theorem toDataAll_eq_map (ts : List ValueType) : toDataAll ts = ts.map toData := by
  induction ts with
  | nil => rfl
  | cons t ts ih => rw [toDataAll, ih, List.map_cons]

/-- Each level takes one from the bound, and the body of an alternative is deeper than what is in
it. -/
theorem ofDataWithin?_readBack (d : Dialect) (t : ValueType) (n : Nat) (hn : t.toData.depth ≤ n) :
    ReadBack (ofDataWithin? d n) t.toData t := by
  induction n generalizing t with
  | zero => cases t <;> simp [toData, depth] at hn
  | succ n ih =>
    cases t with
    | array elem len =>
      have helem : elem.toData.depth ≤ n := by
        simp only [toData, depth, depthFields] at hn
        omega
      exact readBack_alternative <| readBack_body d [("elem", some _), ("len", some _)] (by simp)
        fun _ h => pair?_readBack (fieldReadBack_required (ih elem helem))
          (fieldReadBack_required (readBack_word64 len)) h
    | struct fields =>
      have hfields : depthItems (fields.map toData) ≤ n := by
        simp only [toData, toDataAll_eq_map, depth, depthFields] at hn
        omega
      have hread := readBack_list fun t ht =>
        ih t (Nat.le_trans (depth_le_depthItems (List.mem_map_of_mem ht)) hfields)
      rw [← toDataAll_eq_map] at hread
      exact readBack_alternative <| readBack_body d [("fields", some _)] (by simp)
        fun _ h => single?_readBack (fieldReadBack_required hread) h
    | _ => exact readBack_string rfl

theorem ofData?_readBack (d : Dialect) (t : ValueType) : ReadBack (ofData? d) t.toData t :=
  fun _ h => ofDataWithin?_readBack d t _ (Nat.le_of_eq h.depth_eq.symm) h

end ValueType

namespace Constant

mutual

def isFloatFree : Constant → Bool
  | .f32 _ | .f64 _ => false
  | .array _ elems => areFloatFree elems
  | .struct fields => areFloatFree fields
  | .int _ _ | .null | .zero _ | .bytes _ => true

def areFloatFree : List Constant → Bool
  | [] => true
  | c :: cs => isFloatFree c && areFloatFree cs

end

@[simp] theorem areFloatFree_eq_all (cs : List Constant) :
    areFloatFree cs = cs.all isFloatFree := by
  induction cs with
  | nil => rfl
  | cons c cs ih => rw [areFloatFree, ih, List.all_cons]

@[simp] theorem toDataAll_eq_map (cs : List Constant) : toDataAll cs = cs.map toData := by
  induction cs with
  | nil => rfl
  | cons c cs ih => rw [toDataAll, ih, List.map_cons]

theorem not_rearranged_null (c : Constant) : ¬Rearranged c.toData .null := by
  cases c <;> simp [toData]

theorem ofDataWithin?_readBack (d : Dialect) {c : Constant} (hc : c.isFloatFree) (n : Nat)
    (hn : c.toData.depth ≤ n) : ReadBack (ofDataWithin? d n) c.toData c := by
  induction n generalizing c with
  | zero => cases c <;> simp [toData, depth] at hn
  | succ n ih =>
    have hreadAll {cs : List Constant} (hcs : areFloatFree cs)
        (hn : depthItems (toDataAll cs) ≤ n) :
        ReadBack (list? (ofDataWithin? d n)) (.array (toDataAll cs)) cs := by
      rw [areFloatFree_eq_all, List.all_eq_true] at hcs
      rw [toDataAll_eq_map] at hn ⊢
      exact readBack_list fun c hc =>
        ih (hcs c hc) (Nat.le_trans (depth_le_depthItems (List.mem_map_of_mem hc)) hn)
    cases c with
    | int type value =>
      exact readBack_alternative <| readBack_body d [("ty", some _), ("value", some _)] (by simp)
        fun _ h => pair?_readBack (fieldReadBack_required (type.ofData?_readBack d))
          (fieldReadBack_required (readBack_int64 value)) h
    | zero type =>
      exact readBack_alternative fun _ h => by
        simp [ofDataWithin?, level?, alternative?, type.ofData?_readBack d h]
    | bytes raw =>
      exact readBack_alternative fun _ h => by
        simp [ofDataWithin?, level?, alternative?, readBack_list (fun b _ => readBack_byte b) h]
    | array elem elems =>
      have helems : depthItems (toDataAll elems) ≤ n := by
        simp only [toData, depth, depthFields] at hn
        omega
      exact readBack_alternative <| readBack_body d [("elem", some _), ("elems", some _)] (by simp)
        fun _ h => pair?_readBack (fieldReadBack_required (elem.ofData?_readBack d))
          (fieldReadBack_required (hreadAll hc helems)) h
    | struct fields =>
      have hfields : depthItems (toDataAll fields) ≤ n := by
        simp only [toData, depth, depthFields] at hn
        omega
      exact readBack_alternative fun _ h => by
        simp [ofDataWithin?, level?, alternative?, hreadAll hc hfields h]
    | null => exact readBack_string rfl
    | f32 _ => cases hc
    | f64 _ => cases hc

theorem ofData?_readBack (d : Dialect) {c : Constant} (hc : c.isFloatFree) :
    ReadBack (ofData? d) c.toData c :=
  fun _ h => ofDataWithin?_readBack d hc _ (Nat.le_of_eq h.depth_eq.symm) h

end Constant

end CodeEmission
