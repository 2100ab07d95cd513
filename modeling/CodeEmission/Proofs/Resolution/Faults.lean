import CodeEmission.Proofs.Resolution.Extents
import CodeEmission.Proofs.Resolution.Tables

/-! # How patching can fail

A patch of a record that is laid out properly fails for one of three reasons: the code is executable,
a distance does not fit into its field, or a block of a jump table was never emitted. All errors about
the place that is patched are ruled out.
-/

namespace CodeEmission

/-- Of the errors about a patched field there is only that it cannot reach its target, and then `P`
holds of the offset of the field and of the target. A sum that is no word is met only if `C` holds. -/
def EmitError.MayOccur (P : Nat → UInt64 → Prop) (C : Prop) : EmitError → Prop
  | .relocationOutOfBounds _ | .unhandledRelocation _ | .jumpTableEntrySize _ _
  | .unsupportedJumpTable _ | .crash .product | .crash (.slice ..) => False
  | .crash .sum => C
  | .relocationRange offset address => P offset address
  | _ => True

theorem EmitError.MayOccur.mono {P P' : Nat → UInt64 → Prop} {C C' : Prop} {e : EmitError}
    (h : e.MayOccur P C) (hC : C → C')
    (hP : ∀ offset address, e = .relocationRange offset address → P offset address →
      P' offset address) : e.MayOccur P' C' := by
  cases e with
  | relocationRange offset address => exact hP offset address rfl h
  | crash step =>
    cases step with
    | sum => exact hC h
    | _ => exact h
  | _ => exact h

theorem EmitError.MayOccur.crash {P : Nat → UInt64 → Prop} {C : Prop} {step : Crash}
    (h : (EmitError.crash step).MayOccur P C) : step = .sum ∧ C := by
  cases step with
  | sum => exact ⟨rfl, h⟩
  | product => exact h.elim
  | slice last length => exact h.elim

/-- A step goes well exactly if `P` holds, and all errors that it can end in have the property `Q`. -/
inductive SucceedsIff (P : Prop) (Q : EmitError → Prop) : Option EmitError → Prop
  | success (h : P) : SucceedsIff P Q none
  | failure {e : EmitError} (not : ¬P) (why : Q e) : SucceedsIff P Q (some e)

namespace SucceedsIff

variable {P P' : Prop} {Q Q' : EmitError → Prop} {fault : Option EmitError}

theorem iff (h : SucceedsIff P Q fault) : fault = none ↔ P := by
  cases h with
  | success h => exact ⟨fun _ => h, fun _ => rfl⟩
  | failure not _ => exact ⟨nofun, fun h => absurd h not⟩

theorem congr (h : SucceedsIff P Q fault) (hP : P ↔ P') (hQ : ∀ e, Q e → Q' e) :
    SucceedsIff P' Q' fault := by
  cases h with
  | success h => exact .success (hP.1 h)
  | failure not why => exact .failure (fun h => not (hP.2 h)) (hQ _ why)

theorem andThen {p q : Plan EmitError} (hp : SucceedsIff P Q p.fault)
    (hq : SucceedsIff P' Q q.fault) : SucceedsIff (P ∧ P') Q (p.andThen q).fault := by
  cases hf : p.fault with
  | some e =>
    rw [hf] at hp
    cases hp with
    | failure not why =>
      simp only [Plan.andThen, hf]
      exact .failure (fun h => not h.1) why
  | none =>
    have hfirst : P := hp.iff.1 hf
    simp only [Plan.andThen, hf]
    exact hq.congr ⟨fun h => ⟨hfirst, h⟩, fun h => h.2⟩ fun _ h => h

end SucceedsIff

namespace Relocation

variable {base address : UInt64} {limit : Nat} {r : Relocation} {rs : List Relocation} {C : Prop}

def OutOfReach (r : Relocation) (base address : UInt64) : Prop :=
  r.kind = .pcRel32 ∧ ¬InReach (base + UInt64.ofNat r.fieldEnd) address

theorem patch_succeedsIff (hbase : base.toNat + limit ≤ Word.largest) (ha : r.address? = some address)
    (hend : r.fieldEnd ≤ limit) :
    SucceedsIff (¬r.OutOfReach base address)
      (fun e => e = .relocationRange r.offset address ∧ r.OutOfReach base address)
      (r.patch base limit).fault := by
  unfold patch
  rw [ha]
  dsimp only
  rw [if_neg (by omega), if_neg (Nat.not_lt.2 hend)]
  cases hk : r.kind with
  | abs64 =>
    obtain ⟨bytes, hbytes⟩ := fieldBytes_abs64 hk base address
    rw [hbytes]
    refine .success ?_
    rintro ⟨hrel, _⟩
    rw [hk] at hrel
    cases hrel
  | pcRel32 =>
    have hword : base.toNat + r.fieldEnd ≤ Word.largest := by omega
    rcases fieldBytes_pcRel32 hk hword address with
      ⟨hreach, bytes, hbytes⟩ | ⟨hreach, herror⟩
    · rw [hbytes]
      exact .success fun hout => hout.2 hreach
    · rw [herror]
      have hout : r.OutOfReach base address := ⟨hk, hreach⟩
      exact .failure (fun hnot => hnot hout) ⟨rfl, hout⟩

theorem patchAll_succeedsIff (hbase : base.toNat + limit ≤ Word.largest)
    (h : ∀ r ∈ rs, (∃ address, r.address? = some address) ∧ r.fieldEnd ≤ limit) :
    SucceedsIff (∀ r ∈ rs, ∀ address, r.address? = some address → ¬r.OutOfReach base address)
      (EmitError.MayOccur (fun offset address =>
        ∃ r ∈ rs, r.offset = offset ∧ r.address? = some address ∧ r.OutOfReach base address) C)
      (patchAll base limit rs).fault := by
  induction rs with
  | nil => exact .success (by simp)
  | cons r rs ih =>
    obtain ⟨⟨address, ha⟩, hend⟩ := h r List.mem_cons_self
    have hrest := ih fun r hr => h r (List.mem_cons_of_mem _ hr)
    have hfirst : SucceedsIff (¬r.OutOfReach base address) _ (r.patch base limit).fault :=
      patch_succeedsIff hbase ha hend
    refine ((hfirst.congr ?_ ?_).andThen (hrest.congr Iff.rfl ?_)).congr
      List.forall_mem_cons.symm fun _ h => h
    · simp only [ha, Option.some.injEq, forall_eq']
    · rintro e ⟨rfl, hout⟩
      exact ⟨r, List.mem_cons_self, rfl, ha, hout⟩
    · intro e he
      refine he.mono id ?_
      rintro _ _ _ ⟨r', hr', hr''⟩
      exact ⟨r', List.mem_cons_of_mem _ hr', hr''⟩

end Relocation

namespace JumpTableLayout

variable {o : Owner} {l : JumpTableLayout} {limit width : Nat} {P : Nat → UInt64 → Prop} {C : Prop}

def Owner.Knows (o : Owner) (block : BlockId) : Prop := ∃ address, o.blockAddress block = .ok address

theorem Owner.mayOccur_of_blockAddress {block : BlockId} {e : EmitError}
    (h : o.blockAddress block = .error e) : e.MayOccur P True := by
  unfold Owner.blockAddress Owner.addressAt at h
  split at h
  · split at h
    · cases h
    · cases h
      trivial
  · cases h
    trivial

section Entries

variable (hlimit : limit ≤ Word.largest)
  (hblocks : ∀ b e, o.blockAddress b = .error e → e.MayOccur P C)

include hlimit hblocks

theorem entry_succeedsIff {offset : Nat} {block : BlockId} {blocks : List BlockId}
    {bytes : UInt64 → List UInt8} {rest : Plan EmitError}
    (hslot : ∀ address, offset + (bytes address).length ≤ limit)
    (hrest : SucceedsIff (∀ b ∈ blocks, o.Knows b) (EmitError.MayOccur P C) rest.fault) :
    SucceedsIff (∀ b ∈ block :: blocks, o.Knows b) (EmitError.MayOccur P C)
      (match o.blockAddress block with
        | .error e => Plan.fail e
        | .ok address => (slot limit offset (bytes address)).andThen rest).fault := by
  cases hb : o.blockAddress block with
  | error e =>
    refine .failure ?_ (hblocks block e hb)
    intro hall
    obtain ⟨address, haddress⟩ := hall block List.mem_cons_self
    rw [hb] at haddress
    cases haddress
  | ok address =>
    have hle := hslot address
    dsimp only
    rw [slot, if_neg (by omega), if_pos hle]
    refine hrest.congr ?_ fun _ h => h
    rw [List.forall_mem_cons]
    exact ⟨fun h => ⟨⟨address, hb⟩, h⟩, fun h => h.2⟩

theorem planAbsolute_succeedsIff {offset : Nat} {blocks : List BlockId} (hw : width ≤ 8)
    (hend : blocks ≠ [] → offset + width * blocks.length ≤ limit) :
    SucceedsIff (∀ b ∈ blocks, o.Knows b) (EmitError.MayOccur P C)
      (planAbsolute o limit width offset blocks).fault := by
  induction blocks generalizing offset with
  | nil => exact .success (by simp)
  | cons block blocks ih =>
    have hle := hend (List.cons_ne_nil _ _)
    rw [List.length_cons, Nat.mul_succ] at hle
    unfold planAbsolute
    simp only [if_neg (Nat.not_lt.2 hw)]
    refine entry_succeedsIff hlimit hblocks ?_ (ih fun _ => by omega)
    intro address
    rw [List.length_take, Bytes.length_littleEndian]
    omega

theorem planRelative_succeedsIff {start index : Nat} {table : UInt64} {blocks : List BlockId}
    (hend : blocks ≠ [] → start + index * 4 + 4 * blocks.length ≤ limit) :
    SucceedsIff (∀ b ∈ blocks, o.Knows b) (EmitError.MayOccur P C)
      (planRelative o limit start table index blocks).fault := by
  induction blocks generalizing index with
  | nil => exact .success (by simp)
  | cons block blocks ih =>
    have hle := hend (List.cons_ne_nil _ _)
    rw [List.length_cons, Nat.mul_succ] at hle
    unfold planRelative
    refine entry_succeedsIff hlimit hblocks ?_ (ih fun _ => by omega)
    intro address
    rw [Bytes.length_littleEndian]
    omega

theorem planTable_succeedsIff {slots : Nat} {table : List BlockId} (hsize : l.entrySize = 4)
    (hstart : l.base + slots * 4 ≤ Word.largest)
    (htable : ¬o.address.toNat + (l.base + slots * 4) ≤ Word.largest → C)
    (hend : table ≠ [] → l.base + slots * 4 + 4 * table.length ≤ limit) :
    SucceedsIff (o.address.toNat + (l.base + slots * 4) ≤ Word.largest ∧ ∀ b ∈ table, o.Knows b)
      (EmitError.MayOccur P C) (planTable o l limit slots table).fault := by
  have hoffset : l.slotOffset slots = .ok (l.base + slots * 4) := by
    rw [slotOffset_eq_ok, hsize]
    exact ⟨by omega, hstart, rfl⟩
  unfold planTable
  rw [hoffset]
  dsimp only
  by_cases hword : o.address.toNat + (l.base + slots * 4) ≤ Word.largest
  · rw [Owner.addressAt_eq_ok.2 ⟨hword, rfl⟩]
    refine (planRelative_succeedsIff hlimit hblocks (fun hne => ?_)).congr
      ⟨fun h => ⟨hword, h⟩, fun h => h.2⟩ fun _ h => h
    have hle := hend hne
    omega
  · rw [Owner.addressAt, Word.address?, if_neg hword]
    exact .failure (fun h => hword h.1) (htable hword)

theorem planTables_succeedsIff {slots : Nat} {tables : List (List BlockId)}
    (hsize : l.entrySize = 4)
    (hwords : l.base + (slots + tables.flatten.length) * 4 ≤ Word.largest)
    (htables : (¬∀ t < tables.length, o.address.toNat +
      (l.base + (slots + (tables.take t).flatten.length) * 4) ≤ Word.largest) → C)
    (hend : tables.flatten ≠ [] → l.base + slots * 4 + 4 * tables.flatten.length ≤ limit) :
    SucceedsIff ((∀ t < tables.length, o.address.toNat +
          (l.base + (slots + (tables.take t).flatten.length) * 4) ≤ Word.largest) ∧
        ∀ b ∈ tables.flatten, o.Knows b)
      (EmitError.MayOccur P C) (planTables o l limit slots tables).fault := by
  induction tables generalizing slots with
  | nil => exact .success (by simp)
  | cons table tables ih =>
    rw [List.flatten_cons, List.length_append] at hend hwords
    rw [List.length_cons, Nat.forall_lt_succ_left] at htables ⊢
    simp only [List.take_zero, List.flatten_nil, List.length_nil, Nat.add_zero,
      List.take_succ_cons, List.flatten_cons, List.length_append, ← Nat.add_assoc] at htables ⊢
    unfold planTables
    have hwordsFirst : l.base + slots * 4 ≤ Word.largest := by omega
    have hendFirst (hne : table ≠ []) : l.base + slots * 4 + 4 * table.length ≤ limit := by
      have hle := hend (by simp [hne])
      omega
    have hfirst := planTable_succeedsIff hlimit hblocks hsize hwordsFirst
      (fun h => htables fun hall => h (by simpa only [Nat.add_assoc] using hall.1)) hendFirst
    have hwordsRest : l.base + (slots + table.length + tables.flatten.length) * 4 ≤ Word.largest := by
      omega
    have hrest := ih hwordsRest
      (fun h => htables fun hall => h (by simpa only [Nat.add_assoc] using hall.2)) fun hne => by
        have hle := hend (by simp [hne])
        omega
    refine (hfirst.andThen hrest).congr ?_ fun _ h => h
    rw [List.forall_mem_append]
    simp only [← Nat.add_assoc]
    constructor
    · rintro ⟨⟨h1, h2⟩, h3, h4⟩
      exact ⟨⟨h1, h3⟩, h2, h4⟩
    · rintro ⟨⟨h1, h3⟩, h2, h4⟩
      exact ⟨⟨h1, h2⟩, h3, h4⟩

end Entries

def Owner.Reaches (o : Owner) (l : JumpTableLayout) : Prop :=
  l.kind ≠ .blockAddress → ∀ t < l.tables.length,
    o.address.toNat + (l.base + l.slotsBefore t * l.entrySize) ≤ Word.largest

theorem plan_succeedsIff {codeOffset : Nat} (hl : l.Reserved .x86_64 codeOffset)
    (hlimit : limit ≤ Word.largest)
    (hblocks : ∀ b e, o.blockAddress b = .error e → e.MayOccur P C) (htables : ¬o.Reaches l → C)
    (hend : l.tables.flatten ≠ [] → l.base + l.numEntries * l.entrySize ≤ limit) :
    SucceedsIff (o.Reaches l ∧ ∀ b ∈ l.tables.flatten, o.Knows b) (EmitError.MayOccur P C)
      (l.plan .x86_64 o limit).fault := by
  unfold numEntries at hend
  unfold Owner.Reaches at htables ⊢
  rcases hl.plan_cases with ⟨hkind, hsize, hplan⟩ | ⟨hkind, hsize, hplan⟩
  · rw [hplan]
    rw [hsize, Nat.mul_comm] at hend
    refine (planAbsolute_succeedsIff hlimit hblocks (le_refl _) hend).congr ?_ fun _ h => h
    exact ⟨fun h => ⟨fun hne => absurd hkind hne, h⟩, fun h => h.2⟩
  · rw [hplan]
    rw [hsize] at hend htables ⊢
    simp only [ne_eq, hkind, not_false_eq_true, true_imp_iff, slotsBefore] at htables ⊢
    have hbase := hl.base_le
    have hwords : l.base + (0 + l.tables.flatten.length) * 4 ≤ Word.largest := by
      by_cases hne : l.tables.flatten = []
      · rw [hne, List.length_nil]
        omega
      · have hle := hend hne
        omega
    have hall := planTables_succeedsIff hlimit hblocks hsize hwords
      (by simpa only [Nat.zero_add] using htables) fun hne => by
        have hle := hend hne
        omega
    simpa only [Nat.zero_add] using hall

end JumpTableLayout

namespace FunctionRecord

variable {r : FunctionRecord}

def EntriesEmitted (r : FunctionRecord) : Prop :=
  ∀ l, r.layout.jumpTables = some l → ∀ table ∈ l.tables, ∀ b ∈ table,
    ∃ offset, r.locations.block? b = some offset

theorem WellFormed.knows_iff (hw : r.WellFormed) (b : BlockId) :
    r.tableOwner.Knows b ↔ ∃ offset, r.locations.block? b = some offset := by
  unfold JumpTableLayout.Owner.Knows
  rw [hw.tableOwner_blockAddress]
  simp only [blockAddress_eq_ok]
  constructor
  · rintro ⟨_, offset, hoffset, _⟩
    exact ⟨offset, hoffset⟩
  · rintro ⟨offset, hoffset⟩
    exact ⟨_, offset, hoffset, rfl⟩

theorem WellFormed.reaches (hw : r.WellFormed) {l : JumpTableLayout}
    (hl : r.layout.jumpTables = some l) : r.tableOwner.Reaches l := by
  intro _ t ht
  have hcount := JumpTableLayout.slotsBefore_add_le_numEntries (List.getElem?_eq_getElem ht)
  have hend := (hw.slotOffset_eq hl (n := l.slotsBefore t) (by omega)).2
  exact (Nat.add_le_add_left hend _).trans r.block.end_le

theorem WellFormed.mayOccur_of_blockAddress {P : Nat → UInt64 → Prop} {C : Prop}
    (hw : r.WellFormed) (b : BlockId) (e : EmitError) (h : r.tableOwner.blockAddress b = .error e) :
    e.MayOccur P C := by
  rw [hw.tableOwner_blockAddress, blockAddress, blockOffset] at h
  split at h
  · cases h
  · cases h
    trivial

theorem patchTables_succeedsIff {P : Nat → UInt64 → Prop} {C : Prop} (hw : r.WellFormed) :
    SucceedsIff r.EntriesEmitted (EmitError.MayOccur P C) (r.patchTables .x86_64).fault := by
  unfold patchTables EntriesEmitted
  cases hl : r.layout.jumpTables with
  | none => exact .success nofun
  | some l =>
    have hword : r.block.size ≤ Word.largest := (Nat.le_add_left _ _).trans r.block.end_le
    have hend := (hw.slotOffset_eq hl (le_refl _)).2
    refine (JumpTableLayout.plan_succeedsIff (hw.tables l hl) hword hw.mayOccur_of_blockAddress
      (fun h => absurd (hw.reaches hl) h) fun _ => hend).congr ?_ fun _ h => h
    simp only [hw.reaches hl, true_and, hw.knows_iff, Option.some.injEq, forall_eq',
      List.mem_flatten, forall_exists_index, and_imp]
    exact ⟨fun h table ht b hb => h b table ht hb, fun h b table ht hb => h table ht b hb⟩

/-- A record whose references have addresses is patched if it is not executable, all distances fit
into their fields and the blocks of all tables were emitted. -/
theorem patch_succeedsIff {C : Prop} (hw : r.WellFormed)
    (ha : ∀ e ∈ r.relocations, ∃ address, e.address? = some address) :
    SucceedsIff
      (r.isExecutable = false ∧
        (∀ e ∈ r.relocations, ∀ address, e.address? = some address →
          ¬e.OutOfReach r.baseAddress address) ∧ r.EntriesEmitted)
      (EmitError.MayOccur (fun offset address => ∃ e ∈ r.relocations, e.offset = offset ∧
        e.address? = some address ∧ e.OutOfReach r.baseAddress address) C)
      (r.patch .x86_64).2 := by
  have hfind : r.relocations.find? (fun e => r.codeEnd ≤ e.offset) = none := by
    rw [List.find?_eq_none]
    intro e he
    have hend := (hw.field_le he).2
    have hwidth := e.kind.width_pos
    simp only [Relocation.fieldEnd] at hend
    simp only [decide_eq_true_eq]
    omega
  unfold patch
  rw [hfind]
  dsimp only
  split
  · rename_i hx
    refine .failure ?_ trivial
    rintro ⟨hwritable, _⟩
    rw [hx] at hwritable
    cases hwritable
  · rename_i hx
    have hbase : r.baseAddress.toNat + r.codeEnd ≤ Word.largest :=
      (Nat.add_le_add_left hw.codeEnd_le _).trans r.block.end_le
    have hrelocs : SucceedsIff (∀ e ∈ r.relocations, ∀ address, e.address? = some address →
        ¬e.OutOfReach r.baseAddress address) (EmitError.MayOccur _ C) _ :=
      Relocation.patchAll_succeedsIff hbase fun e he => ⟨ha e he, (hw.field_le he).2⟩
    refine (hrelocs.andThen (patchTables_succeedsIff hw)).congr ?_ fun _ h => h
    exact ⟨fun h => ⟨by simpa using hx, h⟩, fun h => h.2⟩

end FunctionRecord

end CodeEmission
