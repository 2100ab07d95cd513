import CodeEmission.Arena
import CodeEmission.Proofs.Buffer.Windows
import CodeEmission.Proofs.Rounding

/-! # Growth of the arena and its reversal

A variable is written into bytes that the arena has grown by. Where writing fails half-way, taking
these bytes away again leaves the arena as it was, because no store goes to the bytes before them.
-/

namespace CodeEmission

theorem ArenaOffset.ofNat?_eq_some {n : Nat} {o : ArenaOffset} :
    ofNat? n = some o ↔ o.offset = n := by
  have ho := o.offset_lt
  unfold ofNat?
  split
  · rw [Option.some.injEq, ArenaOffset.mk.injEq, eq_comm]
  · constructor
    · nofun
    · omega

namespace Arena

variable {a b : Arena} {t : Target} {g : GlobalVariable} {plan : Plan EmitError}
  {start length i : Nat}

@[simp] theorem size_grow (a : Arena) (size : Nat) : (a.grow size).size = max a.size size :=
  Bytes.size_padTo size a.bytes

@[simp] theorem size_write (a : Arena) (start : Nat) (plan : Plan EmitError) :
    (a.write start plan).size = a.size := Plan.size_apply _ a.bytes

theorem getElem?_grow_old (hi : i < a.size) : (a.grow length).bytes[i]? = a.bytes[i]? :=
  Array.getElem?_append_left hi

theorem getElem?_grow_new (hle : a.size ≤ i) (hi : i < length) :
    (a.grow length).bytes[i]? = some 0 := by
  unfold size at hle
  rw [grow, Bytes.padTo, Array.getElem?_append_right hle, Array.getElem?_replicate,
    if_pos (by omega)]

theorem getElem?_write_outside (h : plan.Within length) (hi : i < start ∨ start + length ≤ i) :
    (a.write start plan).bytes[i]? = a.bytes[i]? := Plan.getElem?_apply_shift_outside h hi

theorem truncate_write_grow (h : plan.Within length) (hle : a.size ≤ start) :
    ((a.grow (start + length)).write start plan).truncate a.size = a := by
  have hbytes : ((a.grow (start + length)).write start plan).bytes.take a.size = a.bytes := by
    refine Array.ext_getElem? fun i => ?_
    rw [Array.take_eq_extract, Array.getElem?_extract]
    by_cases hi : i < a.size
    · have hsize : a.size ≤ ((a.grow (start + length)).write start plan).bytes.size := by
        have hs := size_write (a.grow (start + length)) start plan
        rw [size_grow] at hs
        exact (le_max_left _ _).trans hs.ge
      rw [if_pos (by omega), Nat.zero_add,
        getElem?_write_outside h (.inl (hi.trans_le hle)), getElem?_grow_old hi]
    · rw [if_neg (by omega)]
      exact (Array.getElem?_eq_none (Nat.le_of_not_lt hi)).symm
  rw [truncate, hbytes]
  rfl

theorem initialPlan_within (t : Target) (g : GlobalVariable) :
    (initialPlan t g).Within (slotSize t g) := by
  unfold initialPlan
  split
  · split
    · exact Plan.within_done _
    · exact Constant.plan_within t _ _
  · exact Plan.within_done _

theorem le_start {align : Nat} (room : Word.alignTo a.size align ≤ ArenaOffset.capacity) :
    a.size ≤ Word.alignTo a.size align := by
  by_cases hword : a.size < Word.modulus
  · exact Word.le_alignTo _ hword
  · unfold Word.alignTo at room ⊢
    split
    · exact le_refl _
    · rename_i halign
      rw [if_neg halign, if_neg (by omega)] at room
      exact absurd room (by decide)

def placed (a : Arena) (t : Target) (g : GlobalVariable) (start : ArenaOffset) : Arena :=
  let written := (a.grow (start.offset + slotSize t g)).write start.offset (initialPlan t g)
  { written with slots := a.slots.insert g.id start }

/-- What can come of asking for a variable. A request that fails changes nothing. -/
inductive Outcome (a : Arena) (t : Target) (g : GlobalVariable) :
    Arena × Except EmitError Answer → Prop
  | known {o : ArenaOffset} (found : a.slot? g.id = some o) : Outcome a t g (a, .ok { offset := o })
  | failed {e : EmitError} (new : a.slot? g.id = none) : Outcome a t g (a, .error e)
  | placed {o : ArenaOffset} {event : Event} (new : a.slot? g.id = none)
      (internal : g.isExternal = false) (start : o.offset = Word.alignTo a.size (slotAlign t g))
      (le_start : a.size ≤ o.offset) (room : o.offset + slotSize t g ≤ ArenaOffset.capacity)
      (written : (initialPlan t g).fault = none) :
    Outcome a t g (a.placed t g o, .ok { offset := o, event := some event })

theorem addressOf_outcome (a : Arena) (t : Target) (g : GlobalVariable) :
    Outcome a t g (a.addressOf t g) := by
  unfold addressOf
  split
  · rename_i found
    exact .known found
  rename_i new
  split
  · exact .failed new
  rename_i hinternal
  split
  · exact .failed new
  dsimp only
  split
  · exact .failed new
  rename_i hroom
  split
  · exact .failed new
  rename_i o ho
  have hstart := ArenaOffset.ofNat?_eq_some.1 ho
  have hle : a.size ≤ o.offset := by
    rw [hstart]
    exact le_start (by omega)
  rw [← hstart] at hroom ⊢
  split
  · -- the stores before the fault are taken back
    rw [truncate_write_grow (initialPlan_within t g) hle]
    exact .failed new
  · rename_i hwritten
    exact .placed new (by simpa using hinternal) hstart hle (Nat.le_of_not_lt hroom) hwritten

theorem eq_of_addressOf_error {e : EmitError} (h : a.addressOf t g = (b, .error e)) : b = a := by
  have houtcome := addressOf_outcome a t g
  rw [h] at houtcome
  cases houtcome
  rfl

theorem addressOf_of_slot {o : ArenaOffset} (h : a.slot? g.id = some o) :
    a.addressOf t g = (a, .ok { offset := o }) := by
  rw [addressOf, h]

end Arena

end CodeEmission
