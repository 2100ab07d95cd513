import Mathlib.Data.List.Forall2
import CodeEmission.Emitter.Resolution
import CodeEmission.Proofs.Buffer.Windows
import CodeEmission.Proofs.Layout.Regions
import CodeEmission.Proofs.Resolution.Fields

/-! # The stores of a resolved function

A plan that meets no fault consists of one store for each relocation, into its field, followed by
one for each slot of the jump tables. The slots lie before the code, so no field is touched twice.
-/

namespace CodeEmission

namespace Relocation

structure PatchedBy (base : UInt64) (limit : Nat) (r : Relocation) (s : Store) : Prop where
  offset : s.offset = r.offset
  length : s.bytes.length = r.kind.width
  le_limit : r.fieldEnd ≤ limit
  address : ∃ address, r.address? = some address ∧ r.decode base s.bytes = address

variable {base : UInt64} {limit : Nat}

structure WrittenBy (base : UInt64) (limit : Nat) (r : Relocation) (s : Store) : Prop where
  offset : s.offset = r.offset
  le_limit : r.fieldEnd ≤ limit
  bytes : ∃ address, r.address? = some address ∧ r.fieldBytes base address = .ok s.bytes

theorem WrittenBy.patchedBy {r : Relocation} {s : Store} (h : r.WrittenBy base limit s) :
    r.PatchedBy base limit s := by
  obtain ⟨address, haddress, hbytes⟩ := h.bytes
  exact ⟨h.offset, length_fieldBytes hbytes, h.le_limit, address, haddress, decode_fieldBytes hbytes⟩

theorem writtenBy_of_patch {r : Relocation} (h : (r.patch base limit).fault = none) :
    ∃ s, (r.patch base limit).stores = [s] ∧ r.WrittenBy base limit s := by
  unfold patch at h ⊢
  split at h
  · cases h
  · rename_i address haddress
    split at h
    · cases h
    rename_i hword
    split at h
    · cases h
    rename_i hle
    split at h
    · cases h
    rename_i bytes hbytes
    rw [if_neg hword, if_neg hle]
    exact ⟨⟨r.offset, bytes⟩, rfl, rfl, Nat.le_of_not_lt hle, address, haddress, hbytes⟩

theorem patchAll_written {rs : List Relocation} (h : (patchAll base limit rs).fault = none) :
    List.Forall₂ (WrittenBy base limit) rs (patchAll base limit rs).stores := by
  induction rs with
  | nil => exact .nil
  | cons r rs ih =>
    obtain ⟨hr, hrs⟩ := Plan.andThen_fault_eq_none.1 h
    obtain ⟨s, hs, hw⟩ := writtenBy_of_patch hr
    have hstores :
        (patchAll base limit (r :: rs)).stores = s :: (patchAll base limit rs).stores := by
      rw [patchAll, Plan.andThen_stores hr, hs]
      rfl
    rw [hstores]
    exact .cons hw (ih hrs)

theorem patchAll_stores {rs : List Relocation} (h : (patchAll base limit rs).fault = none) :
    List.Forall₂ (PatchedBy base limit) rs (patchAll base limit rs).stores :=
  (patchAll_written h).imp fun _ _ => WrittenBy.patchedBy

theorem exists_of_mem_stores {rs : List Relocation} {ss : List Store}
    (h : List.Forall₂ (PatchedBy base limit) rs ss) {s : Store} (hs : s ∈ ss) :
    ∃ r ∈ rs, r.PatchedBy base limit s := by
  induction h with
  | nil => cases hs
  | @cons r _ rs _ hp _ ih =>
    rcases List.mem_cons.1 hs with rfl | hs
    · exact ⟨r, List.mem_cons_self, hp⟩
    · obtain ⟨r', hr', hp'⟩ := ih hs
      exact ⟨r', List.mem_cons_of_mem _ hr', hp'⟩

end Relocation

namespace JumpTableLayout

variable {o : Owner} {l : JumpTableLayout} {limit width : Nat}

def slotStores (width : Nat) : (offset : Nat) → List (List UInt8) → List Store
  | _, [] => []
  | offset, bytes :: rest => ⟨offset, bytes⟩ :: slotStores width (offset + width) rest

theorem slotStores_append (width offset : Nat) (xs ys : List (List UInt8)) :
    slotStores width offset (xs ++ ys) =
      slotStores width offset xs ++ slotStores width (offset + width * xs.length) ys := by
  induction xs generalizing offset with
  | nil => rfl
  | cons x xs ih =>
    have hnext : offset + width + width * xs.length = offset + width * (xs.length + 1) := by
      rw [Nat.mul_succ]
      omega
    simp only [List.cons_append, slotStores, ih, List.length_cons, hnext]

theorem end_le_of_mem_slotStores {offset : Nat} {xs : List (List UInt8)} {s : Store}
    (hxs : ∀ x ∈ xs, x.length = width) (h : s ∈ slotStores width offset xs) :
    s.offset + s.bytes.length ≤ offset + width * xs.length := by
  induction xs generalizing offset with
  | nil => cases h
  | cons x xs ih =>
    have hmul : width * (xs.length + 1) = width * xs.length + width := Nat.mul_succ _ _
    rw [List.length_cons]
    rcases List.mem_cons.1 h with rfl | h
    · have hx := hxs x List.mem_cons_self
      dsimp only
      omega
    · have hi := ih (fun y hy => hxs y (List.mem_cons_of_mem _ hy)) h
      omega

/-- A plan that fills as many slots as there are `blocks`, from `offset` on and before `limit`. -/
structure Fills (limit width offset : Nat) (blocks : List BlockId) (p : Plan EmitError) : Prop where
  stores : ∃ xs : List (List UInt8), xs.length = blocks.length ∧ (∀ x ∈ xs, x.length = width) ∧
    p.stores = slotStores width offset xs
  le_limit : blocks ≠ [] → offset + width * blocks.length ≤ limit

theorem Fills.nil (limit width offset : Nat) : Fills limit width offset [] .done :=
  ⟨⟨[], rfl, by simp, rfl⟩, fun h => absurd rfl h⟩

theorem Fills.append {offset : Nat} {bs cs : List BlockId} {p q : Plan EmitError}
    (hfault : p.fault = none) (hp : Fills limit width offset bs p)
    (hq : Fills limit width (offset + width * bs.length) cs q) :
    Fills limit width offset (bs ++ cs) (p.andThen q) := by
  obtain ⟨⟨xs, hxl, hxw, hxs⟩, hpl⟩ := hp
  obtain ⟨⟨ys, hyl, hyw, hys⟩, hql⟩ := hq
  refine ⟨⟨xs ++ ys, by simp [hxl, hyl], ?_, ?_⟩, ?_⟩
  · intro x hx
    exact (List.mem_append.1 hx).elim (hxw x) (hyw x)
  · rw [Plan.andThen_stores hfault, slotStores_append, hxl, hxs, hys]
  · intro hne
    by_cases hcs : cs = []
    · subst hcs
      rw [List.append_nil] at hne ⊢
      exact hpl hne
    · have hle := hql hcs
      rw [List.length_append, Nat.mul_add]
      omega

theorem slot_of_fault_eq_none {offset : Nat} {bytes : List UInt8}
    (h : (slot limit offset bytes).fault = none) :
    offset + bytes.length ≤ limit ∧ slot limit offset bytes = .store offset bytes := by
  unfold slot at h ⊢
  split at h
  · cases h
  rename_i hword
  split at h
  · rename_i hle
    exact ⟨hle, (if_neg hword).trans (if_pos hle)⟩
  · cases h

theorem fills_slot {offset : Nat} {bytes : List UInt8} (block : BlockId)
    (hw : bytes.length = width) (h : (slot limit offset bytes).fault = none) :
    Fills limit width offset [block] (slot limit offset bytes) := by
  obtain ⟨hle, hslot⟩ := slot_of_fault_eq_none h
  rw [hslot]
  refine ⟨⟨[bytes], rfl, by simp [hw], rfl⟩, fun _ => ?_⟩
  simpa [hw] using hle

theorem fills_cons {offset : Nat} {bytes : List UInt8} {block : BlockId} {blocks : List BlockId}
    {q : Plan EmitError} (hw : bytes.length = width)
    (h : ((slot limit offset bytes).andThen q).fault = none)
    (hq : q.fault = none → Fills limit width (offset + width) blocks q) :
    Fills limit width offset (block :: blocks) ((slot limit offset bytes).andThen q) := by
  obtain ⟨hs, hqf⟩ := Plan.andThen_fault_eq_none.1 h
  exact (fills_slot block hw hs).append hs (by simpa using hq hqf)

theorem planAbsolute_fills {offset : Nat} {blocks : List BlockId}
    (h : (planAbsolute o limit width offset blocks).fault = none) :
    Fills limit width offset blocks (planAbsolute o limit width offset blocks) := by
  induction blocks generalizing offset with
  | nil => exact .nil _ _ _
  | cons block blocks ih =>
    unfold planAbsolute at h ⊢
    split at h
    · cases h
    rename_i address _
    split at h
    · cases h
    rename_i hw
    have hlen : ((Bytes.littleEndian 8 address.toNat).take width).length = width := by
      rw [List.length_take, Bytes.length_littleEndian]
      exact Nat.min_eq_left (Nat.le_of_not_lt hw)
    rw [if_neg hw]
    exact fills_cons hlen h ih

theorem planRelative_fills {table index : Nat} {address : UInt64} {blocks : List BlockId}
    (h : (planRelative o limit table address index blocks).fault = none) :
    Fills limit 4 (table + index * 4) blocks (planRelative o limit table address index blocks) := by
  induction blocks generalizing index with
  | nil => exact .nil _ _ _
  | cons block blocks ih =>
    unfold planRelative at h ⊢
    split at h
    · cases h
    · refine fills_cons (Bytes.length_littleEndian _ _) h ?_
      intro hq
      have hnext : table + (index + 1) * 4 = table + index * 4 + 4 := by omega
      rw [← hnext]
      exact ih hq

theorem planTable_fills {slots : Nat} {table : List BlockId} (hsize : l.entrySize = 4)
    (h : (planTable o l limit slots table).fault = none) :
    Fills limit 4 (l.base + slots * 4) table (planTable o l limit slots table) := by
  unfold planTable at h ⊢
  split at h
  · cases h
  rename_i offset hoffset
  obtain ⟨-, -, rfl⟩ := slotOffset_eq_ok.1 hoffset
  split at h
  · cases h
  have hfills := planRelative_fills h
  rw [hsize] at hfills ⊢
  rwa [Nat.zero_mul, Nat.add_zero] at hfills

theorem planTables_fills {slots : Nat} {tables : List (List BlockId)} (hsize : l.entrySize = 4)
    (h : (planTables o l limit slots tables).fault = none) :
    Fills limit 4 (l.base + slots * 4) tables.flatten (planTables o l limit slots tables) := by
  induction tables generalizing slots with
  | nil => exact .nil _ _ _
  | cons table tables ih =>
    unfold planTables at h ⊢
    obtain ⟨hp, hq⟩ := Plan.andThen_fault_eq_none.1 h
    have hnext : l.base + (slots + table.length) * 4 = l.base + slots * 4 + 4 * table.length := by
      omega
    have hrest := ih hq
    rw [hnext] at hrest
    exact (planTable_fills hsize hp).append hp hrest

/-- Reserved tables are filled slot by slot with addresses, or table by table with differences. -/
theorem Reserved.plan_cases {codeOffset : Nat} (hl : l.Reserved .x86_64 codeOffset) :
    (l.kind = .blockAddress ∧ l.entrySize = 8 ∧
        ∀ o limit, l.plan .x86_64 o limit = planAbsolute o limit 8 l.base l.tables.flatten) ∨
      (l.kind ≠ .blockAddress ∧ l.entrySize = 4 ∧
        ∀ o limit, l.plan .x86_64 o limit = planTables o l limit 0 l.tables) := by
  have hcustom : Target.x86_64.customJumpTables = false := rfl
  have hpointer : Target.x86_64.pointerSize = 8 := rfl
  have hentry := hl.entrySize
  simp only [plan, hcustom, Bool.false_eq_true, ↓reduceIte]
  cases hk : l.kind with
  | inline => exact absurd hk hl.not_inline
  | gpRel64BlockAddress => exact absurd hk hl.not_gpRel64
  | blockAddress =>
    rw [hk] at hentry
    have height : l.entrySize = 8 := hentry
    exact .inl ⟨rfl, height, fun o limit => by simp only [hpointer, height, ↓reduceIte]⟩
  | gpRel32BlockAddress =>
    rw [hk] at hentry
    exact .inr ⟨by simp, hentry, fun _ _ => rfl⟩
  | labelDifference32 =>
    rw [hk] at hentry
    exact .inr ⟨by simp, hentry, fun _ _ => rfl⟩
  | custom32 =>
    rw [hk] at hentry
    exact .inr ⟨by simp, hentry, fun _ _ => rfl⟩

theorem plan_fills {codeOffset : Nat} (hl : l.Reserved .x86_64 codeOffset)
    (h : (l.plan .x86_64 o limit).fault = none) :
    Fills limit l.entrySize l.base l.tables.flatten (l.plan .x86_64 o limit) := by
  rcases hl.plan_cases with ⟨_, hsize, hplan⟩ | ⟨_, hsize, hplan⟩
  · rw [hplan] at h ⊢
    rw [hsize]
    exact planAbsolute_fills h
  · rw [hplan] at h ⊢
    have hfills := planTables_fills hsize h
    rwa [Nat.zero_mul, Nat.add_zero, ← hsize] at hfills

theorem entrySize_pos {kind : JumpTableKind} (h : kind ≠ .inline) :
    0 < Target.x86_64.jumpTableEntrySize kind := by
  cases kind with
  | inline => exact absurd rfl h
  | _ => decide

/-- Filling the tables touches nothing from the code on. -/
theorem plan_before_code {codeOffset : Nat} (hl : l.Reserved .x86_64 codeOffset)
    (h : (l.plan .x86_64 o limit).fault = none) {s : Store}
    (hs : s ∈ (l.plan .x86_64 o limit).stores) : s.offset + s.bytes.length ≤ codeOffset := by
  obtain ⟨⟨xs, hxl, hxw, hxs⟩, -⟩ := plan_fills hl h
  rw [hxs] at hs
  have hend := end_le_of_mem_slotStores hxw hs
  have hne : xs ≠ [] := by
    rintro rfl
    cases hs
  have hwidth : 0 < l.entrySize := hl.entrySize ▸ entrySize_pos hl.not_inline
  have hpos : 0 < l.entrySize * xs.length := Nat.mul_pos hwidth (List.length_pos_iff.2 hne)
  have hslots := hl.slots_le
  rw [numEntries, ← hxl, Nat.mul_comm] at hslots
  omega

end JumpTableLayout

end CodeEmission
