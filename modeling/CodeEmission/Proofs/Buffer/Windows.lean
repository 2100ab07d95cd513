import CodeEmission.ConstantPlan
import CodeEmission.Proofs.Resolution.Stores

/-! # Windows

A plan whose stores stay within a window changes nothing outside of it, and does inside what it does
to an array of the size of the window. The plan of a constant is of this kind.
-/

namespace CodeEmission

namespace Plan

variable {ε : Type} {p q : Plan ε} {n offset : Nat} {dest win : Bytes}

theorem andThen_fault_eq_none : (p.andThen q).fault = none ↔ p.fault = none ∧ q.fault = none := by
  cases h : p.fault <;> simp [andThen, h]

theorem andThen_stores (h : p.fault = none) : (p.andThen q).stores = p.stores ++ q.stores := by
  simp [andThen, h]

theorem apply_andThen (h : p.fault = none) : (p.andThen q).apply dest = q.apply (p.apply dest) := by
  rw [apply, andThen_stores h, List.foldl_append]
  rfl

theorem shift_zero (p : Plan ε) : p.shift 0 = p := by
  simp [shift]

def Within (n : Nat) (p : Plan ε) : Prop := ∀ s ∈ p.stores, s.offset + s.bytes.length ≤ n

theorem within_done (n : Nat) : Within n (done : Plan ε) := nofun

theorem within_fail (n : Nat) (e : ε) : Within n (fail e) := nofun

theorem within_store {bytes : List UInt8} (h : offset + bytes.length ≤ n) :
    Within n (store offset bytes : Plan ε) := by
  intro s hs
  obtain rfl := List.mem_singleton.1 hs
  exact h

theorem Within.andThen (hp : p.Within n) (hq : q.Within n) : (p.andThen q).Within n := by
  intro s hs
  unfold Plan.andThen at hs
  split at hs
  · exact hp s hs
  · exact (List.mem_append.1 hs).elim (hp s) (hq s)

theorem Within.shift {m : Nat} (hp : p.Within m) (h : offset + m ≤ n) : (p.shift offset).Within n := by
  intro s hs
  obtain ⟨s', hs', rfl⟩ := List.mem_map.1 hs
  have hle := hp s' hs'
  dsimp only
  omega

theorem getElem?_apply_shift_outside (hp : p.Within n) {i : Nat} (hi : i < offset ∨ offset + n ≤ i) :
    ((p.shift offset).apply dest)[i]? = dest[i]? := by
  obtain ⟨stores, fault⟩ := p
  unfold apply shift
  dsimp only
  induction stores generalizing dest with
  | nil => rfl
  | cons s ss ih =>
    have hs := hp s List.mem_cons_self
    have hss : Within n (⟨ss, fault⟩ : Plan ε) := fun t ht => hp t (List.mem_cons_of_mem _ ht)
    have houtside : i < offset + s.offset ∨ offset + s.offset + s.bytes.length ≤ i := by omega
    rw [List.map_cons, List.foldl_cons, ih hss, Bytes.getElem?_overwrite_outside _ houtside]

theorem getElem?_apply_shift_inside (hp : p.Within n) (hdest : offset + n ≤ dest.size)
    (hwin : win.size = n) (h : ∀ k < n, dest[offset + k]? = win[k]?) :
    ∀ k < n, ((p.shift offset).apply dest)[offset + k]? = (p.apply win)[k]? := by
  obtain ⟨stores, fault⟩ := p
  unfold apply shift
  dsimp only
  induction stores generalizing dest win with
  | nil => exact h
  | cons s ss ih =>
    have hs := hp s List.mem_cons_self
    have hss : Within n (⟨ss, fault⟩ : Plan ε) := fun t ht => hp t (List.mem_cons_of_mem _ ht)
    rw [List.map_cons, List.foldl_cons, List.foldl_cons]
    refine ih (by rwa [Bytes.size_overwrite]) (by rwa [Bytes.size_overwrite]) ?_ hss
    intro k hk
    dsimp only
    by_cases hin : s.offset ≤ k ∧ k < s.offset + s.bytes.length
    · obtain ⟨j, rfl⟩ := Nat.exists_eq_add_of_le hin.1
      have hj : j < s.bytes.length := by omega
      have hend : offset + s.offset + s.bytes.length ≤ dest.size := by omega
      rw [← Nat.add_assoc, Bytes.getElem?_overwrite_inside hend hj,
        Bytes.getElem?_overwrite_inside (by omega) hj]
    · have houtside : offset + k < offset + s.offset ∨
          offset + s.offset + s.bytes.length ≤ offset + k := by omega
      rw [Bytes.getElem?_overwrite_outside _ houtside,
        Bytes.getElem?_overwrite_outside _ (by omega), h k hk]

end Plan

namespace Plan

/-- A property of plans for windows of a given size that a whole has if its parts have it. -/
structure Composed (Q : Nat → Plan EmitError → Prop) : Prop where
  done (n : Nat) : Q n .done
  malformed (n : Nat) (reason : ConstantError) : Q n (.fail (.malformedConstant reason))
  store {n offset : Nat} {bytes : List UInt8} (h : offset + bytes.length ≤ n) :
    Q n (.store offset bytes)
  andThen {n : Nat} {p q : Plan EmitError} (hp : Q n p) (hq : Q n q) : Q n (p.andThen q)
  shift {m n offset : Nat} {p : Plan EmitError} (hp : Q m p) (h : offset + m ≤ n) :
    Q n (p.shift offset)

theorem composed_within : Composed fun n p => p.Within n where
  done := within_done
  malformed n _ := within_fail n _
  store := within_store
  andThen := Within.andThen
  shift := Within.shift

end Plan

namespace Constant

section Composed

variable {Q : Nat → Plan EmitError → Prop} (hQ : Plan.Composed Q)
include hQ

theorem composed_part (n offset length : Nat) {part : Plan EmitError} (h : Q length part) :
    Q n (within n offset length part) := by
  unfold within
  split
  · rename_i hle
    exact hQ.shift h hle
  · exact hQ.malformed n _

theorem composed_scalar (n : Nat) (bytes : List UInt8) : Q n (scalar n bytes) :=
  composed_part hQ n 0 _ (hQ.store (Nat.zero_add _).le)

theorem composed_zeros (n length : Nat) : Q n (zeros n length) := by
  unfold zeros
  split
  · rename_i hle
    refine hQ.store ?_
    rwa [List.length_replicate, Nat.zero_add]
  · exact hQ.malformed n _

mutual

theorem composed_plan (t : Target) (n : Nat) : (c : Constant) → Q n (c.plan t n)
  | .int type value => by
    unfold plan
    split
    · exact composed_scalar hQ n _
    · exact hQ.malformed n _
  | .f32 bits => by
    unfold plan
    exact composed_scalar hQ n _
  | .f64 bits => by
    unfold plan
    exact composed_scalar hQ n _
  | .null => by
    unfold plan
    exact composed_zeros hQ n _
  | .zero type => by
    unfold plan
    exact composed_zeros hQ n _
  | .array elem elems => by
    unfold plan
    exact composed_planElements t n elem (t.allocSize elem) 0 elems
  | .struct fields => by
    unfold plan
    exact composed_planFields t n (t.fieldOffsets (types fields)) fields
  | .bytes raw => by
    unfold plan
    exact composed_scalar hQ n _

theorem composed_planElements (t : Target) (n : Nat) (elem : ValueType) (stride index : Nat) :
    (es : List Constant) → Q n (planElements t n elem stride index es)
  | [] => by
    unfold planElements
    exact hQ.done n
  | e :: es => by
    unfold planElements
    split
    · exact hQ.andThen (composed_part hQ n _ _ (composed_plan t stride e))
        (composed_planElements t n elem stride (index + 1) es)
    · exact hQ.malformed n _

theorem composed_planFields (t : Target) (n : Nat) :
    (offsets : List Nat) → (fs : List Constant) → Q n (planFields t n offsets fs)
  | [], _ => by
    unfold planFields
    exact hQ.done n
  | _ :: _, [] => by
    unfold planFields
    exact hQ.done n
  | offset :: offsets, f :: fs => by
    unfold planFields
    exact hQ.andThen (composed_part hQ n _ _ (composed_plan t _ f))
      (composed_planFields t n offsets fs)

end

end Composed

theorem plan_within (t : Target) (n : Nat) (c : Constant) : (c.plan t n).Within n :=
  composed_plan Plan.composed_within t n c

theorem malformed_of_plan {t : Target} {n : Nat} {c : Constant} {e : EmitError}
    (h : (c.plan t n).fault = some e) : ∃ reason, e = .malformedConstant reason := by
  let Malformed (p : Plan EmitError) : Prop :=
    ∀ e, p.fault = some e → ∃ reason, e = .malformedConstant reason
  have hcomposed : Plan.Composed fun _ p => Malformed p := by
    refine ⟨fun _ => nofun, ?_, fun _ => nofun, ?_, fun hp _ => hp⟩
    · rintro _ reason e ⟨⟩
      exact ⟨reason, rfl⟩
    · intro _ p q hp hq e he
      cases hf : p.fault with
      | some e' =>
        simp only [Plan.andThen, hf, Option.some.injEq] at he
        exact hp e (he ▸ hf)
      | none =>
        simp only [Plan.andThen, hf] at he
        exact hq e he
  exact composed_plan hcomposed t n c e h

end Constant

end CodeEmission
