import CodeEmission.Proofs.Resolution.Records

/-! # Where a patch stores

Also a patch that meets a fault stores only into the fields of references and into slots of jump
tables. So what stands before the tables is never written again.
-/

namespace CodeEmission

theorem Plan.mem_andThen {ε : Type} {p q : Plan ε} {s : Store} (h : s ∈ (p.andThen q).stores) :
    s ∈ p.stores ∨ p.fault = none ∧ s ∈ q.stores := by
  unfold Plan.andThen at h
  split at h
  · exact .inl h
  · rename_i hfault
    exact (List.mem_append.1 h).imp_right fun hq => ⟨hfault, hq⟩

namespace Relocation

variable {base : UInt64} {limit : Nat} {s : Store}

theorem offset_of_mem_patch {r : Relocation} (h : s ∈ (r.patch base limit).stores) :
    s.offset = r.offset := by
  unfold patch at h
  split at h
  · cases h
  split at h
  · cases h
  split at h
  · cases h
  split at h
  · cases h
  · obtain rfl := List.mem_singleton.1 h
    rfl

theorem exists_of_mem_patchAll {rs : List Relocation} (h : s ∈ (patchAll base limit rs).stores) :
    ∃ r ∈ rs, s.offset = r.offset := by
  induction rs with
  | nil => cases h
  | cons r rs ih =>
    rcases Plan.mem_andThen h with h | ⟨_, h⟩
    · exact ⟨r, List.mem_cons_self, offset_of_mem_patch h⟩
    · obtain ⟨r', hr', hs⟩ := ih h
      exact ⟨r', List.mem_cons_of_mem _ hr', hs⟩

end Relocation

namespace JumpTableLayout

variable {o : Owner} {l : JumpTableLayout} {limit width offset : Nat} {s : Store}

theorem slot_eq_of_mem {bytes : List UInt8} (h : s ∈ (slot limit offset bytes).stores) :
    s = ⟨offset, bytes⟩ := by
  unfold slot at h
  split at h
  · cases h
  · split at h
    · exact List.mem_singleton.1 h
    · cases h

theorem le_of_mem_planAbsolute {blocks : List BlockId}
    (h : s ∈ (planAbsolute o limit width offset blocks).stores) : offset ≤ s.offset := by
  induction blocks generalizing offset with
  | nil => cases h
  | cons block blocks ih =>
    unfold planAbsolute at h
    split at h
    · cases h
    split at h
    · cases h
    rcases Plan.mem_andThen h with h | ⟨_, h⟩
    · rw [slot_eq_of_mem h]
    · exact (Nat.le_add_right _ _).trans (ih h)

theorem le_of_mem_planRelative {table index : Nat} {address : UInt64} {blocks : List BlockId}
    (h : s ∈ (planRelative o limit table address index blocks).stores) :
    table + index * 4 ≤ s.offset := by
  induction blocks generalizing index with
  | nil => cases h
  | cons block blocks ih =>
    unfold planRelative at h
    split at h
    · cases h
    rcases Plan.mem_andThen h with h | ⟨_, h⟩
    · rw [slot_eq_of_mem h]
    · have hrest := ih h
      omega

theorem le_of_mem_planTable {slots : Nat} {table : List BlockId}
    (h : s ∈ (planTable o l limit slots table).stores) : l.base ≤ s.offset := by
  unfold planTable at h
  split at h
  · cases h
  rename_i start hstart
  obtain ⟨-, -, rfl⟩ := slotOffset_eq_ok.1 hstart
  split at h
  · cases h
  have hle := le_of_mem_planRelative h
  omega

theorem le_of_mem_planTables {slots : Nat} {tables : List (List BlockId)}
    (h : s ∈ (planTables o l limit slots tables).stores) : l.base ≤ s.offset := by
  induction tables generalizing slots with
  | nil => cases h
  | cons table tables ih =>
    rcases Plan.mem_andThen h with h | ⟨_, h⟩
    · exact le_of_mem_planTable h
    · exact ih h

theorem base_le_of_mem_plan {codeOffset : Nat} (hl : l.Reserved .x86_64 codeOffset)
    (h : s ∈ (l.plan .x86_64 o limit).stores) : l.base ≤ s.offset := by
  rcases hl.plan_cases with ⟨_, _, hplan⟩ | ⟨_, _, hplan⟩
  · rw [hplan] at h
    exact le_of_mem_planAbsolute h
  · rw [hplan] at h
    exact le_of_mem_planTables h

end JumpTableLayout

namespace FunctionRecord

variable {r r' : FunctionRecord} {offset n : Nat}

structure InFront (r : FunctionRecord) (offset n : Nat) : Prop where
  code : offset + n ≤ r.codeOffset
  tables : ∀ l, r.layout.jumpTables = some l → offset + n ≤ l.base

theorem apart_of_mem_patchPlan (hw : r.WellFormed) (hfront : r.InFront offset n) {s : Store}
    (h : s ∈ (r.patchPlan .x86_64).stores) : Block.Apart s offset n := by
  rw [patchPlan_eq] at h
  rcases Plan.mem_andThen h with h | ⟨_, h⟩
  · obtain ⟨e, he, hs⟩ := Relocation.exists_of_mem_patchAll h
    exact .inr (hs ▸ hfront.code.trans (hw.field_le he).1)
  · unfold patchTables at h
    cases hl : r.layout.jumpTables with
    | none =>
      rw [hl] at h
      cases h
    | some l =>
      rw [hl] at h
      have hbase := JumpTableLayout.base_le_of_mem_plan (hw.tables l hl) h
      exact .inr ((hfront.tables l hl).trans hbase)

/-- A patch, whether it succeeds or not, leaves what stands before tables and code as it is. -/
theorem slice_of_patch (hw : r.WellFormed) (hfront : r.InFront offset n) {fault : Option EmitError}
    (h : r.patch .x86_64 = (r', fault)) : r'.block.slice offset n = r.block.slice offset n := by
  rcases patch_cases h with ⟨rfl, _⟩ | ⟨_, rfl, _⟩
  · rfl
  · exact Block.slice_storeAll_apart fun s hs => apart_of_mem_patchPlan hw hfront hs

end FunctionRecord

end CodeEmission
