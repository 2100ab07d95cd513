import CodeEmission.Proofs.Resolution.Exact
import CodeEmission.Proofs.Resolution.Faults

/-! # Entries of filled tables

Jump tables are filled in any array of bytes, for any places of their blocks. A table of addresses
always leads to its blocks. An entry of 32 bits is the low half of a distance, which nobody looks at
again: it leads to its block only if the distance has no more than these bits. Where an offset or an
address that is computed on the way is no word, filling is cut off.
-/

namespace CodeEmission

theorem add_low_half_eq_iff (base address : UInt64) :
    base + (UInt32.ofNat (address - base).toUInt32.toNat).toInt32.toInt64.toUInt64 = address ↔
      InReach base address := by
  constructor
  · exact fun h => ⟨_, h⟩
  · rintro ⟨d, rfl⟩
    have hsub (a b : UInt64) : a + b - a = b := by grind
    have hmin : (-2147483648 : Int64).toInt = -2147483648 := rfl
    have hmax : (2147483647 : Int64).toInt = 2147483647 := rfl
    have hle := Int32.le_toInt d
    have hlt := Int32.toInt_lt d
    have hrange : -2147483648 ≤ d.toInt64 ∧ d.toInt64 ≤ 2147483647 := by
      rw [Int64.le_iff_toInt_le, Int64.le_iff_toInt_le, Int32.toInt_toInt64, hmin, hmax]
      omega
    rw [hsub, Relocation.signExtend_low_half hrange]

namespace Plan

variable {p q : Plan EmitError}

/-- A plan that is not cut off: it is carried out to its end or meets an error that is returned. -/
def Returns (p : Plan EmitError) : Prop := ∀ step, p.fault ≠ some (.crash step)

theorem returns_done : (done : Plan EmitError).Returns := nofun

theorem returns_store (offset : Nat) (bytes : List UInt8) :
    (store offset bytes : Plan EmitError).Returns := nofun

theorem returns_fail {e : EmitError} (h : ∀ step, e ≠ .crash step) : (fail e).Returns :=
  fun step heq => h step (Option.some.inj heq)

theorem Returns.andThen (hp : p.Returns) (hq : q.Returns) : (p.andThen q).Returns := by
  unfold Plan.andThen Returns at *
  split
  · rename_i he
    rwa [he] at hp
  · exact hq

end Plan

namespace JumpTableLayout

variable {t : Target} {o : Owner} {l : JumpTableLayout} {limit width : Nat}

theorem decode_entryBytes_iff (kind : JumpTableKind) (table address : UInt64) :
    decode kind table (entryBytes kind table address) = address ↔
      kind = .blockAddress ∨ InReach table address := by
  unfold decode entryBytes
  by_cases hkind : kind = .blockAddress
  · have hlt : address.toNat < 256 ^ 8 := UInt64.toNat_lt _
    rw [if_pos hkind, if_pos hkind, Bytes.ofLittleEndian_littleEndian, Nat.mod_eq_of_lt hlt,
      UInt64.ofNat_toNat]
    exact ⟨fun _ => .inl hkind, fun _ => rfl⟩
  · have hlt : (Target.relativeTableEntry address table).toNat < 256 ^ 4 := UInt32.toNat_lt _
    rw [if_neg hkind, if_neg hkind, Bytes.ofLittleEndian_littleEndian, Nat.mod_eq_of_lt hlt]
    refine (add_low_half_eq_iff table address).trans ⟨.inr, ?_⟩
    exact fun h => h.resolve_left hkind

/-- Slots that follow one another do not overlap. -/
theorem slotStores_apart {offset : Nat} {xs : List (List UInt8)} (hxs : ∀ x ∈ xs, x.length = width) :
    (slotStores width offset xs).Pairwise fun s t => Block.Apart s t.offset t.bytes.length := by
  induction xs generalizing offset with
  | nil => exact .nil
  | cons x xs ih =>
    have hx := hxs x List.mem_cons_self
    refine List.pairwise_cons.2 ⟨?_, ih fun y hy => hxs y (List.mem_cons_of_mem _ hy)⟩
    intro s hs
    have hle := le_offset_of_mem_slotStores hs
    exact .inl (by dsimp only; omega)

/-- All targets with addresses of 64 bits that leave their tables alone fill them alike. -/
theorem plan_of_pointerSize (hpointer : t.pointerSize = 8) (hcustom : t.customJumpTables = false) :
    l.plan t o limit = l.plan .x86_64 o limit := by
  have hpointer' : Target.x86_64.pointerSize = 8 := rfl
  have hcustom' : Target.x86_64.customJumpTables = false := rfl
  simp only [plan, hpointer, hcustom, hpointer', hcustom']

theorem entrySize_of_pointerSize (hpointer : t.pointerSize = 8) (kind : JumpTableKind) :
    t.jumpTableEntrySize kind = Target.x86_64.jumpTableEntrySize kind := by
  cases kind with
  | blockAddress => exact hpointer
  | _ => rfl

structure Owner.Counts (o : Owner) (l : JumpTableLayout) : Prop where
  slots : l.base + l.numEntries * l.entrySize ≤ Word.largest
  tables : o.Reaches l
  blocks : ∀ b ∈ l.tables.flatten, ∀ offset, o.locations.block? b = some offset →
    o.address.toNat + offset ≤ Word.largest

theorem Owner.blockAddress_eq_ok {b : BlockId} {address : UInt64} :
    o.blockAddress b = .ok address ↔ ∃ offset, o.locations.block? b = some offset ∧
      o.address.toNat + offset ≤ Word.largest ∧ o.address + UInt64.ofNat offset = address := by
  unfold Owner.blockAddress
  cases o.locations.block? b with
  | none => simp
  | some offset =>
    dsimp only
    rw [Owner.addressAt_eq_ok]
    simp

theorem Owner.knows_iff {b : BlockId} :
    o.Knows b ↔ ∃ offset, o.locations.block? b = some offset ∧
      o.address.toNat + offset ≤ Word.largest := by
  unfold Owner.Knows
  simp only [Owner.blockAddress_eq_ok]
  constructor
  · rintro ⟨_, offset, hoffset, hword, _⟩
    exact ⟨offset, hoffset, hword⟩
  · rintro ⟨offset, hoffset, hword⟩
    exact ⟨_, offset, hoffset, hword, rfl⟩

theorem plan_fault_eq_none_iff {codeOffset : Nat} (hl : l.Reserved .x86_64 codeOffset)
    (hlimit : limit ≤ Word.largest) :
    (l.plan .x86_64 o limit).fault = none ↔ o.Counts l ∧
      (∀ b ∈ l.tables.flatten, ∃ offset, o.locations.block? b = some offset) ∧
      (l.tables.flatten ≠ [] → l.base + l.numEntries * l.entrySize ≤ limit) := by
  have hiff (hend : l.tables.flatten ≠ [] → l.base + l.numEntries * l.entrySize ≤ limit) :=
    (plan_succeedsIff (P := fun _ _ => True) (C := True) (o := o) hl hlimit
      (fun _ _ h => Owner.mayOccur_of_blockAddress h) (fun _ => trivial) hend).iff
  constructor
  · intro h
    have hend := (plan_fills hl h).le_limit
    rw [Nat.mul_comm] at hend
    obtain ⟨htables, hknows⟩ := (hiff hend).1 h
    refine ⟨⟨?_, htables, ?_⟩, ?_, hend⟩
    · by_cases hne : l.tables.flatten = []
      · rw [numEntries, hne, List.length_nil, Nat.zero_mul]
        exact hl.base_le
      · exact (hend hne).trans hlimit
    · intro b hb offset hoffset
      obtain ⟨offset', hoffset', hword⟩ := Owner.knows_iff.1 (hknows b hb)
      obtain rfl := Option.some.inj (hoffset.symm.trans hoffset')
      exact hword
    · intro b hb
      obtain ⟨offset, hoffset, _⟩ := Owner.knows_iff.1 (hknows b hb)
      exact ⟨offset, hoffset⟩
  · rintro ⟨hcounts, hplaces, hend⟩
    refine (hiff hend).2 ⟨hcounts.tables, ?_⟩
    intro b hb
    obtain ⟨offset, hoffset⟩ := hplaces b hb
    exact Owner.knows_iff.2 ⟨offset, hoffset, hcounts.blocks b hb offset hoffset⟩

section Returns

variable {block : BlockId} {blocks : List BlockId} {table : List BlockId}
  {tables : List (List BlockId)} {index offset slots start : Nat}

theorem slot_returns {bytes : List UInt8} (h : offset + bytes.length ≤ Word.largest) :
    (slot limit offset bytes).Returns := by
  unfold slot
  rw [if_neg (Nat.not_lt.2 h)]
  split
  · exact Plan.returns_store offset bytes
  · exact Plan.returns_fail nofun

theorem entry_returns {bytes : UInt64 → List UInt8} {rest : Plan EmitError}
    (hblock : ∀ offset, o.locations.block? block = some offset →
      o.address.toNat + offset ≤ Word.largest)
    (hslot : ∀ address, offset + (bytes address).length ≤ Word.largest) (hrest : rest.Returns) :
    (match o.blockAddress block with
      | .error e => Plan.fail e
      | .ok address => (slot limit offset (bytes address)).andThen rest).Returns := by
  unfold Owner.blockAddress
  cases hb : o.locations.block? block with
  | none => exact Plan.returns_fail nofun
  | some place =>
    dsimp only
    rw [Owner.addressAt_eq_ok.2 ⟨hblock place hb, rfl⟩]
    exact (slot_returns (hslot _)).andThen hrest

theorem planAbsolute_returns (hw : width ≤ 8)
    (hblocks : ∀ b ∈ blocks, ∀ offset, o.locations.block? b = some offset →
      o.address.toNat + offset ≤ Word.largest)
    (hend : offset + width * blocks.length ≤ Word.largest) :
    (planAbsolute o limit width offset blocks).Returns := by
  induction blocks generalizing offset with
  | nil => exact Plan.returns_done
  | cons block blocks ih =>
    obtain ⟨hblock, hrest⟩ := List.forall_mem_cons.1 hblocks
    rw [List.length_cons, Nat.mul_succ] at hend
    unfold planAbsolute
    simp only [if_neg (Nat.not_lt.2 hw)]
    refine entry_returns hblock ?_ (ih hrest (by omega))
    intro address
    rw [List.length_take, Bytes.length_littleEndian]
    omega

theorem planRelative_returns {address : UInt64}
    (hblocks : ∀ b ∈ blocks, ∀ offset, o.locations.block? b = some offset →
      o.address.toNat + offset ≤ Word.largest)
    (hend : start + (index + blocks.length) * 4 ≤ Word.largest) :
    (planRelative o limit start address index blocks).Returns := by
  induction blocks generalizing index with
  | nil => exact Plan.returns_done
  | cons block blocks ih =>
    obtain ⟨hblock, hrest⟩ := List.forall_mem_cons.1 hblocks
    rw [List.length_cons] at hend
    unfold planRelative
    refine entry_returns hblock ?_ (ih hrest (by omega))
    intro address
    rw [Bytes.length_littleEndian]
    omega

theorem planTable_returns (hsize : l.entrySize = 4)
    (htable : o.address.toNat + (l.base + slots * 4) ≤ Word.largest)
    (hblocks : ∀ b ∈ table, ∀ offset, o.locations.block? b = some offset →
      o.address.toNat + offset ≤ Word.largest)
    (hend : l.base + (slots + table.length) * 4 ≤ Word.largest) :
    (planTable o l limit slots table).Returns := by
  have hoffset : l.slotOffset slots = .ok (l.base + slots * 4) := by
    rw [slotOffset_eq_ok, hsize]
    exact ⟨by omega, by omega, rfl⟩
  unfold planTable
  rw [hoffset]
  dsimp only
  rw [Owner.addressAt_eq_ok.2 ⟨htable, rfl⟩]
  exact planRelative_returns hblocks (by omega)

theorem planTables_returns (hsize : l.entrySize = 4)
    (htables : ∀ t < tables.length, o.address.toNat +
      (l.base + (slots + (tables.take t).flatten.length) * 4) ≤ Word.largest)
    (hblocks : ∀ b ∈ tables.flatten, ∀ offset, o.locations.block? b = some offset →
      o.address.toNat + offset ≤ Word.largest)
    (hend : l.base + (slots + tables.flatten.length) * 4 ≤ Word.largest) :
    (planTables o l limit slots tables).Returns := by
  induction tables generalizing slots with
  | nil => exact Plan.returns_done
  | cons table tables ih =>
    rw [List.length_cons, Nat.forall_lt_succ_left] at htables
    rw [List.flatten_cons, List.forall_mem_append] at hblocks
    simp only [List.take_zero, List.flatten_nil, List.length_nil, Nat.add_zero, List.take_succ_cons,
      List.flatten_cons, List.length_append, ← Nat.add_assoc slots] at htables hend
    unfold planTables
    exact (planTable_returns hsize htables.1 hblocks.1 (by omega)).andThen
      (ih htables.2 hblocks.2 hend)

theorem plan_returns {codeOffset : Nat} (hl : l.Reserved .x86_64 codeOffset) (h : o.Counts l) :
    (l.plan .x86_64 o limit).Returns := by
  have hslots := h.slots
  rcases hl.plan_cases with ⟨_, hsize, hplan⟩ | ⟨hkind, hsize, hplan⟩
  · rw [hplan]
    rw [hsize, numEntries, Nat.mul_comm] at hslots
    exact planAbsolute_returns (le_refl _) h.blocks hslots
  · have htables := h.tables hkind
    rw [hplan]
    rw [hsize, numEntries] at hslots
    simp only [hsize, slotsBefore] at htables
    refine planTables_returns hsize ?_ h.blocks (by rwa [Nat.zero_add])
    simpa only [Nat.zero_add] using htables

end Returns

variable {code : Bytes}

def entryAt (l : JumpTableLayout) (o : Owner) (code : Bytes) (place index : Nat) : UInt64 :=
  decode l.kind (o.address + UInt64.ofNat place)
    (code.field (place + index * l.entrySize) l.entrySize)

/-- An array of bytes in which all tables were filled. Where the offset of a table says, there is the
entry of each of its blocks, and it leads to the block if an address was stored or the distance from
the table has 32 bits. All bytes before and after the slots are as they were. -/
structure FilledIn (l : JumpTableLayout) (o : Owner) (code code' : Bytes) : Prop where
  size : code'.size = code.size
  entry : ∀ table index blocks block, l.tables[table]? = some blocks → blocks[index]? = some block →
    ∃ place offset, l.tableOffset table = .ok place ∧ o.locations.block? block = some offset ∧
      l.base ≤ place ∧
      place + (index + 1) * l.entrySize ≤ l.base + l.numEntries * l.entrySize ∧
      (l.entryAt o code' place index = o.address + UInt64.ofNat offset ↔
        l.kind = .blockAddress ∨
          InReach (o.address + UInt64.ofNat place) (o.address + UInt64.ofNat offset))
  frame : ∀ i, (i < l.base ∨ l.base + l.numEntries * l.entrySize ≤ i) → code'[i]? = code[i]?

theorem filledIn_of_plan {codeOffset : Nat} (hl : l.Reserved .x86_64 codeOffset)
    (hcode : code.size ≤ Word.largest) (h : (l.plan .x86_64 o code.size).fault = none) :
    l.FilledIn o code ((l.plan .x86_64 o code.size).apply code) := by
  obtain ⟨⟨xs, hxl, hxw, hxs⟩, hle⟩ := plan_fills hl h
  have hcount : l.entrySize * xs.length = l.numEntries * l.entrySize := by
    rw [hxl, Nat.mul_comm]
    rfl
  have hfits : xs ≠ [] → l.base + l.entrySize * xs.length ≤ code.size := by
    intro hne
    rw [hxl]
    refine hle ?_
    rintro hnil
    rw [hnil, List.length_nil, List.length_eq_zero_iff] at hxl
    exact hne hxl
  have hends (s : Store) (hs : s ∈ (l.plan .x86_64 o code.size).stores) :
      s.offset + s.bytes.length ≤ l.base + l.entrySize * xs.length := by
    rw [hxs] at hs
    exact end_le_of_mem_slotStores hxw hs
  have hroom (s : Store) (hs : s ∈ (l.plan .x86_64 o code.size).stores) :
      s.offset + s.bytes.length ≤ code.size := by
    refine (hends s hs).trans (hfits ?_)
    rintro rfl
    rw [hxs] at hs
    cases hs
  refine ⟨Plan.size_apply _ _, ?_, ?_⟩
  · intro table index blocks block ht hi
    obtain ⟨address, haddress, hmem⟩ := mem_plan hl h ht hi
    obtain ⟨offset, hoffset, _, rfl⟩ := Owner.blockAddress_eq_ok.1 haddress
    have hindex : index < blocks.length := (List.getElem?_eq_some_iff.1 hi).1
    have hslots := slotsBefore_add_le_numEntries ht
    have htable : table < l.tables.length := (List.getElem?_eq_some_iff.1 ht).1
    have hend := hroom _ hmem
    have hplace : l.slotOffset (l.slotsBefore table) =
        .ok (l.base + l.slotsBefore table * l.entrySize) := by
      rw [Nat.add_mul] at hend
      dsimp only at hend
      exact slotOffset_eq_ok.2 ⟨by omega, by omega, rfl⟩
    have hread := Bytes.field_eq fun k hk =>
      Plan.getElem?_apply_inside (hxs ▸ slotStores_apart hxw) hroom hmem hk
    rw [hl.length_entryBytes, Nat.add_mul, ← Nat.add_assoc] at hread
    refine ⟨l.base + l.slotsBefore table * l.entrySize, offset, ?_, hoffset, Nat.le_add_right _ _,
      ?_, ?_⟩
    · rw [tableOffset, if_pos htable, hplace]
    · rw [Nat.add_assoc, ← Nat.add_mul]
      exact Nat.add_le_add_left (Nat.mul_le_mul_right _ (by omega)) _
    · rw [entryAt, hread]
      exact decode_entryBytes_iff _ _ _
  · intro i hi
    refine Plan.getElem?_apply_outside ?_
    intro s hs
    have hend := hends s hs
    rw [hxs] at hs
    have hstart := le_offset_of_mem_slotStores hs
    omega

/-- Tables are filled exactly if all sums are words, the places of all blocks are known and the array
has room for all slots. Then every entry of 64 bits leads to its block, but one of 32 bits does only if
the block is in reach of its table, and the rest of the array is left alone. If it is not the sums that
are in the way, an error is returned. -/
theorem plan_fills_entries (hpointer : t.pointerSize = 8) (hcustom : t.customJumpTables = false)
    (hsize : l.entrySize = t.jumpTableEntrySize l.kind) (hinline : l.kind ≠ .inline)
    (hrelative : l.kind ≠ .gpRel64BlockAddress)
    (hwords : l.numEntries * l.entrySize ≤ Word.largest ∧ l.base ≤ Word.largest) (o : Owner)
    (hcode : code.size ≤ Word.largest) :
    ((l.plan t o code.size).fault = none ↔ o.Counts l ∧
        (∀ b ∈ l.tables.flatten, ∃ offset, o.locations.block? b = some offset) ∧
        (l.tables.flatten ≠ [] → l.base + l.numEntries * l.entrySize ≤ code.size)) ∧
      ((l.plan t o code.size).fault = none →
        l.FilledIn o code ((l.plan t o code.size).apply code)) ∧
      (o.Counts l → ∀ step, (l.plan t o code.size).fault ≠ some (.crash step)) := by
  have hl : l.Reserved .x86_64 (l.base + l.numEntries * l.entrySize) :=
    { entrySize := hsize.trans (entrySize_of_pointerSize hpointer _)
      not_inline := hinline
      not_gpRel64 := hrelative
      size_le := hwords.1
      base_le := hwords.2
      slots_le := .inr (le_refl _) }
  rw [plan_of_pointerSize hpointer hcustom]
  exact ⟨plan_fault_eq_none_iff hl hcode, filledIn_of_plan hl hcode, plan_returns hl⟩

theorem plan_fills_entries_two :
    let l : JumpTableLayout :=
      { kind := .labelDifference32, entrySize := 4, base := 4, tables := [[⟨0⟩, ⟨1⟩], [⟨1⟩]] }
    let o : Owner :=
      { name := "f", address := 0x1000,
        locations := { blocks := (IdMap.empty.insert ⟨0⟩ 0x20).insert ⟨1⟩ 0x24 } }
    let code : Bytes := Array.replicate 20 0xee
    (l.plan .x86_64 o code.size).fault = none ∧
      l.FilledIn o code ((l.plan .x86_64 o code.size).apply code) := by
  intro l o code
  have hcode : code.size ≤ Word.largest := by decide
  have hfill := plan_fills_entries (t := .x86_64) (l := l) rfl rfl rfl nofun nofun (by decide) o hcode
  have hfault : (l.plan .x86_64 o code.size).fault = none := by decide
  exact ⟨hfault, hfill.2.1 hfault⟩

/-- The distance of a block behind the first 2 GiB loses its upper half without an error. -/
theorem plan_truncates_distance :
    let l : JumpTableLayout :=
      { kind := .labelDifference32, entrySize := 4, base := 0, tables := [[⟨0⟩]] }
    let o : Owner :=
      { name := "f", address := 0x1000,
        locations := { blocks := IdMap.empty.insert ⟨0⟩ 0x80000000 } }
    let code : Bytes := Array.replicate 4 0xee
    o.locations.block? ⟨0⟩ = some 0x80000000 ∧ (l.plan .x86_64 o code.size).fault = none ∧
      l.entryAt o ((l.plan .x86_64 o code.size).apply code) 0 0 ≠
        o.address + UInt64.ofNat 0x80000000 := by
  decide

end JumpTableLayout

end CodeEmission
