import CodeEmission.Proofs.Resolution.Distances
import CodeEmission.Proofs.Resolution.Records

/-! # Filled jump tables

Absolute tables are filled by a slot that moves on, relative ones by the offset of each table. Both
put the entry of a block where the offset of its table says, and no later store touches it.
-/

namespace CodeEmission

namespace JumpTableLayout

variable {o : Owner} {l : JumpTableLayout} {limit width : Nat} {block : BlockId}

def decode (kind : JumpTableKind) (table : UInt64) (bytes : List UInt8) : UInt64 :=
  if kind = .blockAddress then UInt64.ofNat (Bytes.ofLittleEndian bytes)
  else table + (UInt32.ofNat (Bytes.ofLittleEndian bytes)).toInt32.toInt64.toUInt64

def entryBytes (kind : JumpTableKind) (table address : UInt64) : List UInt8 :=
  if kind = .blockAddress then Bytes.littleEndian 8 address.toNat
  else Bytes.littleEndian 4 (Target.relativeTableEntry address table).toNat

/-- An entry is read back as the address that it was made for, if that is in the same block. -/
theorem decode_entryBytes (kind : JumpTableKind) (base : UInt64) {m n : Nat} (hm : m < 2 ^ 31)
    (hn : n < 2 ^ 31) :
    decode kind (base + UInt64.ofNat n)
      (entryBytes kind (base + UInt64.ofNat n) (base + UInt64.ofNat m)) = base + UInt64.ofNat m := by
  unfold decode entryBytes
  split
  · have hlt : (base + UInt64.ofNat m).toNat < 256 ^ 8 := UInt64.toNat_lt _
    rw [Bytes.ofLittleEndian_littleEndian, Nat.mod_eq_of_lt hlt, UInt64.ofNat_toNat]
  · have hlt : (Target.relativeTableEntry (base + UInt64.ofNat m)
        (base + UInt64.ofNat n)).toNat < 256 ^ 4 := UInt32.toNat_lt _
    rw [Bytes.ofLittleEndian_littleEndian, Nat.mod_eq_of_lt hlt]
    exact add_low_half_sub base hm hn

theorem flatten_eq_of_getElem? {tables : List (List BlockId)} {t : Nat} {table : List BlockId}
    (h : tables[t]? = some table) :
    tables.flatten = (tables.take t).flatten ++ (table ++ (tables.drop (t + 1)).flatten) := by
  obtain ⟨hlt, rfl⟩ := List.getElem?_eq_some_iff.1 h
  have hsplit := List.take_append_drop t tables
  rw [List.drop_eq_getElem_cons hlt] at hsplit
  have hflat := congrArg List.flatten hsplit
  rw [List.flatten_append, List.flatten_cons] at hflat
  exact hflat.symm

theorem Reserved.length_entryBytes {codeOffset : Nat} (hl : l.Reserved .x86_64 codeOffset)
    (table address : UInt64) : (entryBytes l.kind table address).length = l.entrySize := by
  unfold entryBytes
  rcases hl.plan_cases with ⟨hkind, hsize, _⟩ | ⟨hkind, hsize, _⟩
  · rw [if_pos hkind, Bytes.length_littleEndian, hsize]
  · rw [if_neg hkind, Bytes.length_littleEndian, hsize]

theorem slotsBefore_add_le {t u : Nat} {table : List BlockId} (h : l.tables[t]? = some table)
    (hu : t < u) : l.slotsBefore t + table.length ≤ l.slotsBefore u := by
  have htake : (l.tables.take u)[t]? = some table := by rw [List.getElem?_take_of_lt hu, h]
  have hlen := congrArg List.length (flatten_eq_of_getElem? htake)
  rw [List.take_take, Nat.min_eq_left hu.le, List.length_append, List.length_append] at hlen
  simp only [slotsBefore]
  omega

theorem slotsBefore_add_le_numEntries {t : Nat} {table : List BlockId}
    (h : l.tables[t]? = some table) : l.slotsBefore t + table.length ≤ l.numEntries := by
  have hlen := congrArg List.length (flatten_eq_of_getElem? h)
  rw [List.length_append, List.length_append] at hlen
  simp only [slotsBefore, numEntries]
  omega

theorem slots_apart {t u i j : Nat} {table other : List BlockId} (ht : l.tables[t]? = some table)
    (hi : i < table.length) (hu : l.tables[u]? = some other) (hj : j < other.length)
    (hne : (t, i) ≠ (u, j)) :
    l.slotsBefore t + i + 1 ≤ l.slotsBefore u + j ∨ l.slotsBefore u + j + 1 ≤ l.slotsBefore t + i := by
  rcases Nat.lt_trichotomy t u with hlt | rfl | hlt
  · have hle := slotsBefore_add_le ht hlt
    omega
  · have hij : i ≠ j := by
      rintro rfl
      exact hne rfl
    omega
  · have hle := slotsBefore_add_le hu hlt
    omega

theorem entries_apart {t u i j : Nat} {table other : List BlockId} (ht : l.tables[t]? = some table)
    (hi : i < table.length) (hu : l.tables[u]? = some other) (hj : j < other.length)
    (hne : (t, i) ≠ (u, j)) :
    l.base + l.slotsBefore t * l.entrySize + (i + 1) * l.entrySize ≤
        l.base + l.slotsBefore u * l.entrySize + j * l.entrySize ∨
      l.base + l.slotsBefore u * l.entrySize + (j + 1) * l.entrySize ≤
        l.base + l.slotsBefore t * l.entrySize + i * l.entrySize := by
  have hle {m n : Nat} (hmn : m ≤ n) : m * l.entrySize ≤ n * l.entrySize := Nat.mul_le_mul_right _ hmn
  have hcounts := slots_apart ht hi hu hj hne
  simp only [Nat.add_assoc, ← Nat.add_mul] at hcounts ⊢
  exact hcounts.imp (fun hc => Nat.add_le_add_left (hle hc) _) fun hc =>
    Nat.add_le_add_left (hle hc) _

theorem getElem?_flatten {t i : Nat} {table : List BlockId} (ht : l.tables[t]? = some table)
    (hi : table[i]? = some block) : l.tables.flatten[l.slotsBefore t + i]? = some block := by
  have hlen : i < table.length := (List.getElem?_eq_some_iff.1 hi).1
  rw [flatten_eq_of_getElem? ht, slotsBefore, List.getElem?_append_right (Nat.le_add_right _ _),
    Nat.add_sub_cancel_left, List.getElem?_append_left hlen, hi]

theorem mem_planAbsolute {offset i : Nat} {blocks : List BlockId}
    (h : (planAbsolute o limit width offset blocks).fault = none) (hi : blocks[i]? = some block) :
    ∃ address, o.blockAddress block = .ok address ∧
      ⟨offset + width * i, (Bytes.littleEndian 8 address.toNat).take width⟩ ∈
        (planAbsolute o limit width offset blocks).stores := by
  induction blocks generalizing offset i with
  | nil => cases hi
  | cons first blocks ih =>
    unfold planAbsolute at h ⊢
    split at h
    · cases h
    rename_i address haddress
    dsimp only
    split at h
    · cases h
    rename_i hwidth
    obtain ⟨hs, hq⟩ := Plan.andThen_fault_eq_none.1 h
    rw [if_neg hwidth, Plan.andThen_stores hs]
    cases i with
    | zero =>
      cases hi
      refine ⟨address, haddress, List.mem_append_left _ ?_⟩
      rw [(slot_of_fault_eq_none hs).2]
      exact List.mem_singleton.2 rfl
    | succ i =>
      obtain ⟨a, ha, hmem⟩ := ih hq hi
      have hoffset : offset + width * (i + 1) = offset + width + width * i := by
        rw [Nat.mul_succ]
        omega
      exact ⟨a, ha, List.mem_append_right _ (hoffset ▸ hmem)⟩

theorem mem_planRelative {start index i : Nat} {table : UInt64} {blocks : List BlockId}
    (h : (planRelative o limit start table index blocks).fault = none)
    (hi : blocks[i]? = some block) :
    ∃ address, o.blockAddress block = .ok address ∧
      ⟨start + (index + i) * 4,
        Bytes.littleEndian 4 (Target.relativeTableEntry address table).toNat⟩ ∈
        (planRelative o limit start table index blocks).stores := by
  induction blocks generalizing index i with
  | nil => cases hi
  | cons first blocks ih =>
    unfold planRelative at h ⊢
    split at h
    · cases h
    rename_i address haddress
    obtain ⟨hs, hq⟩ := Plan.andThen_fault_eq_none.1 h
    dsimp only
    rw [Plan.andThen_stores hs]
    cases i with
    | zero =>
      cases hi
      refine ⟨address, haddress, List.mem_append_left _ ?_⟩
      rw [(slot_of_fault_eq_none hs).2]
      exact List.mem_singleton.2 rfl
    | succ i =>
      obtain ⟨a, ha, hmem⟩ := ih hq hi
      have hindex : index + (i + 1) = index + 1 + i := by omega
      exact ⟨a, ha, List.mem_append_right _ (hindex ▸ hmem)⟩

theorem mem_planTable {slots i : Nat} {table : List BlockId} (hsize : l.entrySize = 4)
    (h : (planTable o l limit slots table).fault = none) (hi : table[i]? = some block) :
    ∃ address, o.blockAddress block = .ok address ∧
      ⟨l.base + (slots + i) * 4, Bytes.littleEndian 4 (Target.relativeTableEntry address
        (o.address + UInt64.ofNat (l.base + slots * 4))).toNat⟩ ∈
        (planTable o l limit slots table).stores := by
  unfold planTable at h ⊢
  split at h
  · cases h
  rename_i start hstart
  obtain ⟨-, -, rfl⟩ := slotOffset_eq_ok.1 hstart
  rw [hsize] at h ⊢
  split at h
  · cases h
  rename_i place hplace
  obtain ⟨-, rfl⟩ := Owner.addressAt_eq_ok.1 hplace
  obtain ⟨a, ha, hmem⟩ := mem_planRelative h hi
  have hindex : l.base + (slots + i) * 4 = l.base + slots * 4 + (0 + i) * 4 := by omega
  exact ⟨a, ha, hindex ▸ hmem⟩

theorem mem_planTables {slots t i : Nat} {tables : List (List BlockId)} {table : List BlockId}
    (hsize : l.entrySize = 4) (h : (planTables o l limit slots tables).fault = none)
    (ht : tables[t]? = some table) (hi : table[i]? = some block) :
    ∃ address, o.blockAddress block = .ok address ∧
      ⟨l.base + (slots + (tables.take t).flatten.length + i) * 4,
        Bytes.littleEndian 4 (Target.relativeTableEntry address (o.address +
          UInt64.ofNat (l.base + (slots + (tables.take t).flatten.length) * 4))).toNat⟩ ∈
        (planTables o l limit slots tables).stores := by
  induction tables generalizing slots t with
  | nil => cases ht
  | cons first tables ih =>
    unfold planTables at h ⊢
    obtain ⟨hp, hq⟩ := Plan.andThen_fault_eq_none.1 h
    rw [Plan.andThen_stores hp]
    cases t with
    | zero =>
      cases ht
      obtain ⟨a, ha, hmem⟩ := mem_planTable hsize hp hi
      exact ⟨a, ha, List.mem_append_left _ hmem⟩
    | succ t =>
      obtain ⟨a, ha, hmem⟩ := ih hq ht
      have hslots : slots + ((first :: tables).take (t + 1)).flatten.length =
          slots + first.length + (tables.take t).flatten.length := by
        rw [List.take_succ_cons, List.flatten_cons, List.length_append, Nat.add_assoc]
      rw [hslots]
      exact ⟨a, ha, List.mem_append_right _ hmem⟩

/-- A plan without a fault stores the entry of every block where the offset of its table says. -/
theorem mem_plan {codeOffset t i : Nat} {table : List BlockId} (hl : l.Reserved .x86_64 codeOffset)
    (h : (l.plan .x86_64 o limit).fault = none) (ht : l.tables[t]? = some table)
    (hi : table[i]? = some block) :
    ∃ address, o.blockAddress block = .ok address ∧
      ⟨l.base + (l.slotsBefore t + i) * l.entrySize, entryBytes l.kind
        (o.address + UInt64.ofNat (l.base + l.slotsBefore t * l.entrySize)) address⟩ ∈
        (l.plan .x86_64 o limit).stores := by
  rcases hl.plan_cases with ⟨hkind, hsize, hplan⟩ | ⟨hkind, hsize, hplan⟩
  · rw [hplan] at h ⊢
    rw [hsize]
    obtain ⟨a, ha, hmem⟩ := mem_planAbsolute h (getElem?_flatten ht hi)
    have hwhole : (Bytes.littleEndian 8 a.toNat).take 8 = Bytes.littleEndian 8 a.toNat :=
      List.take_of_length_le (Bytes.length_littleEndian _ _).le
    rw [hwhole, Nat.mul_comm 8] at hmem
    simp only [entryBytes, if_pos hkind]
    exact ⟨a, ha, hmem⟩
  · rw [hplan] at h ⊢
    rw [hsize]
    have hmem := mem_planTables hsize h ht hi
    rw [Nat.zero_add] at hmem
    simp only [entryBytes, if_neg hkind]
    exact hmem

theorem le_offset_of_mem_slotStores {offset : Nat} {xs : List (List UInt8)} {s : Store}
    (h : s ∈ slotStores width offset xs) : offset ≤ s.offset := by
  induction xs generalizing offset with
  | nil => cases h
  | cons x xs ih =>
    rcases List.mem_cons.1 h with rfl | h
    · exact le_refl _
    · have hi := ih h
      omega

theorem slice_slotStores {b : Block} {offset : Nat} {xs : List (List UInt8)} {s : Store}
    (hxs : ∀ x ∈ xs, x.length = width) (hend : offset + width * xs.length ≤ b.size)
    (h : s ∈ slotStores width offset xs) :
    ((b.storeAll (slotStores width offset xs)).slice s.offset s.bytes.length).toList = s.bytes := by
  induction xs generalizing b offset with
  | nil => cases h
  | cons x xs ih =>
    have hx := hxs x List.mem_cons_self
    rw [List.length_cons, Nat.mul_succ] at hend
    rcases List.mem_cons.1 h with rfl | h
    · refine Block.slice_storeAll_cons (by dsimp only; omega) ?_
      intro t ht
      have hle := le_offset_of_mem_slotStores ht
      exact .inr (by dsimp only; omega)
    · have hsize : offset + width + width * xs.length ≤ (b.store ⟨offset, x⟩).size := by
        rw [(Block.store_frame b _).2.1]
        omega
      exact ih (fun y hy => hxs y (List.mem_cons_of_mem _ hy)) hsize h

end JumpTableLayout

namespace FunctionRecord

variable {r r' : FunctionRecord}

/-- Every store that fills the jump tables can be made, and is read back from the buffer. -/
structure TablesFilled (r : FunctionRecord) : Prop where
  planned : (r.patchTables .x86_64).fault = none
  stored : ∀ s ∈ (r.patchTables .x86_64).stores,
    (r.block.slice s.offset s.bytes.length).toList = s.bytes

theorem SameShape.patchTables (h : r.SameShape r') (t : Target) :
    r'.patchTables t = r.patchTables t := by
  have howner : r'.tableOwner = r.tableOwner := by
    simp only [tableOwner, baseAddress, h.name, h.address, h.locations]
  simp only [FunctionRecord.patchTables, h.layout, howner, h.blockSize]

theorem TablesFilled.makeExecutable (h : r.TablesFilled) : r.makeExecutable.TablesFilled := by
  have hplan := (SameShape.makeExecutable r).patchTables .x86_64
  exact ⟨hplan ▸ h.planned, hplan ▸ h.stored⟩

theorem tablesFilled_of_patch (hw : r.WellFormed) (h : r.patch .x86_64 = (r', none)) :
    r'.TablesFilled := by
  rcases patch_cases h with ⟨_, hnone⟩ | ⟨_, rfl, hfault⟩
  · exact absurd rfl hnone
  have hshape := (SameShape.refl r).storeAll (r.patchPlan .x86_64).stores r.resolved
  have hplan := hshape.patchTables .x86_64
  obtain ⟨hrelocs, htables⟩ := Plan.andThen_fault_eq_none.1 hfault.symm
  have hstores : (r.patchPlan .x86_64).stores =
      (Relocation.patchAll r.baseAddress r.codeEnd r.relocations).stores ++
        (r.patchTables .x86_64).stores := Plan.andThen_stores hrelocs
  refine ⟨(congrArg Plan.fault hplan).trans htables, ?_⟩
  intro s hs
  rw [hplan] at hs
  cases hl : r.layout.jumpTables with
  | none =>
    simp only [patchTables, hl] at hs
    cases hs
  | some l =>
    have htables' : r.patchTables .x86_64 = l.plan .x86_64 r.tableOwner r.block.size := by
      simp only [patchTables, hl]
    have htables : (l.plan .x86_64 r.tableOwner r.block.size).fault = none := htables' ▸ htables
    obtain ⟨⟨xs, hxl, hxw, hxs⟩, hle⟩ :=
      JumpTableLayout.plan_fills (hw.tables l hl) htables
    rw [htables', hxs] at hs hstores
    have hne : l.tables.flatten ≠ [] := by
      intro hnil
      rw [hnil, List.length_nil, List.length_eq_zero_iff] at hxl
      rw [hxl] at hs
      cases hs
    -- the tables are filled last, so no store comes after those into their slots
    dsimp only
    rw [hstores, Block.storeAll, List.foldl_append]
    refine JumpTableLayout.slice_slotStores hxw ?_ hs
    change _ ≤ (r.block.storeAll _).size
    rw [(Block.storeAll_frame _ _).2.1, hxl]
    exact hle hne

def tableEntry (r : FunctionRecord) (kind : JumpTableKind) (offset index : Nat) : UInt64 :=
  JumpTableLayout.decode kind (r.block.addressAt offset)
    (r.block.slice (offset + index * Target.x86_64.jumpTableEntrySize kind)
      (Target.x86_64.jumpTableEntrySize kind)).toList

theorem tableOwner_addressAt (r : FunctionRecord) {offset : Nat} (h : offset ≤ r.block.size) :
    r.tableOwner.addressAt offset = .ok (r.block.addressAt offset) :=
  JumpTableLayout.Owner.addressAt_eq_ok.2 ⟨(Nat.add_le_add_left h _).trans r.block.end_le, rfl⟩

theorem WellFormed.tableOwner_blockAddress (hw : r.WellFormed) (block : BlockId) :
    r.tableOwner.blockAddress block = r.blockAddress block := by
  have hlocations : r.tableOwner.locations = r.locations := rfl
  unfold JumpTableLayout.Owner.blockAddress blockAddress blockOffset
  rw [hlocations]
  cases hb : r.locations.block? block with
  | none => rfl
  | some offset => exact r.tableOwner_addressAt ((hw.places block offset hb).trans hw.codeEnd_le)

theorem blockAddress_eq_ok {block : BlockId} {address : UInt64} :
    r.blockAddress block = .ok address ↔
      ∃ offset, r.locations.block? block = some offset ∧ r.block.addressAt offset = address := by
  unfold blockAddress blockOffset
  cases r.locations.block? block with
  | none => simp [Except.map]
  | some offset => simp [Except.map]

/-- The entry of a table at `offset` leads to its block. Its slot lies before the code and before
every field that is patched. -/
structure EntryLeads (r : FunctionRecord) (kind : JumpTableKind) (offset index : Nat)
    (block : BlockId) : Prop where
  address : r.blockAddress block = .ok (r.tableEntry kind offset index)
  before_code : offset + (index + 1) * Target.x86_64.jumpTableEntrySize kind ≤ r.codeOffset
  before_fields : ∀ e ∈ r.relocations,
    offset + (index + 1) * Target.x86_64.jumpTableEntrySize kind ≤ e.offset

section Slots

variable {l : JumpTableLayout} {t i : Nat} {table : List BlockId} {block : BlockId}

/-- The offset of a slot of the tables is a word and lies within the buffer. -/
theorem WellFormed.slotOffset_eq (hw : r.WellFormed) (hl : r.layout.jumpTables = some l) {n : Nat}
    (hn : n ≤ l.numEntries) :
    l.slotOffset n = .ok (l.base + n * l.entrySize) ∧ l.base + n * l.entrySize ≤ r.block.size := by
  have hreserved := hw.tables l hl
  have hle : n * l.entrySize ≤ l.numEntries * l.entrySize := Nat.mul_le_mul_right _ hn
  have hend : l.base + n * l.entrySize ≤ r.block.size := by
    have hbase := hw.bases l hl
    have hcode := hw.codeEnd_le
    simp only [codeEnd] at hcode
    rcases hreserved.slots_le with hzero | hslots <;> omega
  have hword : r.block.size ≤ Word.largest := (Nat.le_add_left _ _).trans r.block.end_le
  exact ⟨JumpTableLayout.slotOffset_eq_ok.2
    ⟨hle.trans hreserved.size_le, hend.trans hword, rfl⟩, hend⟩

theorem WellFormed.jumpTableOffset_eq (hw : r.WellFormed) (hl : r.layout.jumpTables = some l)
    (ht : l.tables[t]? = some table) :
    r.layout.jumpTableOffset t = .ok (l.base + l.slotsBefore t * l.entrySize) := by
  have hlt : t < l.tables.length := (List.getElem?_eq_some_iff.1 ht).1
  have hcount := JumpTableLayout.slotsBefore_add_le_numEntries ht
  simp only [PoolLayout.jumpTableOffset, hl, JumpTableLayout.tableOffset, if_pos hlt]
  exact (hw.slotOffset_eq hl (by omega)).1

theorem WellFormed.jumpTableAddress_eq (hw : r.WellFormed) (hl : r.layout.jumpTables = some l)
    (ht : l.tables[t]? = some table) :
    r.jumpTableAddress t = .ok (r.block.addressAt (l.base + l.slotsBefore t * l.entrySize)) := by
  have hcount := JumpTableLayout.slotsBefore_add_le_numEntries ht
  rw [jumpTableAddress, hw.jumpTableOffset_eq hl ht]
  exact r.tableOwner_addressAt (hw.slotOffset_eq hl (by omega)).2

theorem jumpTableAddress_eq_ok {address : UInt64} (h : r.jumpTableAddress t = .ok address) :
    ∃ offset, r.layout.jumpTableOffset t = .ok offset ∧ r.block.addressAt offset = address := by
  unfold jumpTableAddress at h
  cases ho : r.layout.jumpTableOffset t with
  | error e =>
    rw [ho] at h
    cases h
  | ok offset =>
    rw [ho] at h
    exact ⟨offset, rfl, (JumpTableLayout.Owner.addressAt_eq_ok.1 h).2⟩

theorem WellFormed.slot_le (hw : r.WellFormed) (hl : r.layout.jumpTables = some l)
    (ht : l.tables[t]? = some table) (hi : i < table.length) :
    l.base + l.slotsBefore t * l.entrySize + (i + 1) * l.entrySize ≤ r.codeOffset := by
  have hcount := JumpTableLayout.slotsBefore_add_le_numEntries ht
  have hle : (l.slotsBefore t + (i + 1)) * l.entrySize ≤ l.numEntries * l.entrySize :=
    Nat.mul_le_mul_right _ (by omega)
  have hreserved := hw.tables l hl
  have hpos : 0 < (l.slotsBefore t + (i + 1)) * l.entrySize :=
    Nat.mul_pos (by omega) (hreserved.entrySize ▸ JumpTableLayout.entrySize_pos hreserved.not_inline)
  rw [Nat.add_assoc, ← Nat.add_mul]
  rcases hreserved.slots_le with hzero | hend <;> omega

end Slots

namespace TablesFilled

variable {l : JumpTableLayout} {t i : Nat} {table : List BlockId} {block : BlockId}

theorem plan_fault (h : r.TablesFilled) (hl : r.layout.jumpTables = some l) :
    (l.plan .x86_64 r.tableOwner r.block.size).fault = none := by
  have hplanned := h.planned
  simpa only [patchTables, hl] using hplanned

/-- Every entry of a filled table leads to its block. -/
theorem entryLeads (h : r.TablesFilled) (hw : r.WellFormed) (hl : r.layout.jumpTables = some l)
    (ht : l.tables[t]? = some table) (hi : table[i]? = some block) :
    r.EntryLeads l.kind (l.base + l.slotsBefore t * l.entrySize) i block := by
  have hlen : i < table.length := (List.getElem?_eq_some_iff.1 hi).1
  have hreserved := hw.tables l hl
  have hend := hw.slot_le hl ht hlen
  refine ⟨?_, hreserved.entrySize ▸ hend, ?_⟩
  · obtain ⟨address, haddress, hmem⟩ :=
      JumpTableLayout.mem_plan hreserved (h.plan_fault hl) ht hi
    rw [hw.tableOwner_blockAddress] at haddress
    obtain ⟨o, ho, rfl⟩ := blockAddress_eq_ok.1 haddress
    -- block and table are offsets in one buffer, so their distance has 32 bits
    have hblock := hw.places block o ho
    have hcode := hw.codeEnd_lt
    simp only [codeEnd] at hblock hcode
    have hstored := h.stored
    simp only [patchTables, hl] at hstored
    have hread := hstored _ hmem
    rw [hreserved.length_entryBytes, Nat.add_mul, ← Nat.add_assoc] at hread
    have hdecode := JumpTableLayout.decode_entryBytes l.kind r.block.address (m := o)
      (n := l.base + l.slotsBefore t * l.entrySize) (by omega) (by omega)
    rw [haddress, tableEntry, ← hreserved.entrySize, hread]
    exact congrArg _ hdecode.symm
  · intro e he
    exact hreserved.entrySize ▸ hend.trans (hw.field_le he).1

end TablesFilled

end FunctionRecord

end CodeEmission
