import Mathlib.Data.List.Nodup
import CodeEmission.Proofs.Emitter.Transparency
import CodeEmission.Proofs.Resolution.Patching

/-! # Well-formed records

Every record that is ever committed has its references within its code, one after another, and its
jump tables before it. Patching such a record leaves the address of every reference in its field.
-/

namespace CodeEmission

open X86.Instruction

def Relocation.bare (e : Relocation) : Relocation := { e with result := none }

theorem Relocation.address?_of_plain {e : Relocation} (h : e.bare.Plain) :
    e.address? = e.result := by
  have hadd : e.addend = 0 := h.addend
  have hleft : e.leftToTarget = false := h.leftToTarget
  have hzero : Int64.toUInt64 0 = 0 := rfl
  simp [address?, hadd, hleft, hzero]

namespace FunctionRecord

variable {r r' : FunctionRecord}

/-- What holds of the record of a function from its commitment on. -/
structure WellFormed (r : FunctionRecord) : Prop where
  codeEnd_le : r.codeEnd ≤ r.block.size
  size_le : r.block.size ≤ Host.maxBlockSize
  ordered : (r.relocations.map Relocation.bare).Pairwise fun e e' => e.fieldEnd ≤ e'.offset
  within : ∀ e ∈ r.relocations.map Relocation.bare, r.codeOffset ≤ e.offset ∧ e.fieldEnd ≤ r.codeEnd
  plain : ∀ e ∈ r.relocations.map Relocation.bare, e.Plain
  tables : ∀ l, r.layout.jumpTables = some l → l.Reserved .x86_64 r.codeOffset
  bases : ∀ l, r.layout.jumpTables = some l → l.base ≤ r.block.size
  places : ∀ b offset, r.locations.block? b = some offset → offset ≤ r.codeEnd

/-- Records that differ at most in their bytes, in their log and in whether they are resolved and
executable. -/
structure SameForm (r r' : FunctionRecord) : Prop where
  id : r'.id = r.id
  name : r'.name = r.name
  address : r'.block.address = r.block.address
  blockSize : r'.block.size = r.block.size
  codeOffset : r'.codeOffset = r.codeOffset
  size : r'.size = r.size
  locations : r'.locations = r.locations
  layout : r'.layout = r.layout
  debugLocs : r'.debugLocs = r.debugLocs

structure SameShape (r r' : FunctionRecord) : Prop extends SameForm r r' where
  relocations : r'.relocations.map Relocation.bare = r.relocations.map Relocation.bare

theorem SameForm.refl (r : FunctionRecord) : r.SameForm r :=
  ⟨rfl, rfl, rfl, rfl, rfl, rfl, rfl, rfl, rfl⟩

theorem SameForm.trans {r'' : FunctionRecord} (h : r.SameForm r') (h' : r'.SameForm r'') :
    r.SameForm r'' where
  id := h'.id.trans h.id
  name := h'.name.trans h.name
  address := h'.address.trans h.address
  blockSize := h'.blockSize.trans h.blockSize
  codeOffset := h'.codeOffset.trans h.codeOffset
  size := h'.size.trans h.size
  locations := h'.locations.trans h.locations
  layout := h'.layout.trans h.layout
  debugLocs := h'.debugLocs.trans h.debugLocs

theorem SameShape.refl (r : FunctionRecord) : r.SameShape r := ⟨.refl r, rfl⟩

theorem SameShape.trans {r'' : FunctionRecord} (h : r.SameShape r') (h' : r'.SameShape r'') :
    r.SameShape r'' where
  toSameForm := h.toSameForm.trans h'.toSameForm
  relocations := h'.relocations.trans h.relocations

theorem SameShape.addressed {relocations : List Relocation}
    (h : relocations.map Relocation.bare = r.relocations.map Relocation.bare) :
    r.SameShape { r with relocations } :=
  { SameShape.refl r with relocations := h }

theorem SameShape.unpatched (r : FunctionRecord) : r.SameShape r.unpatched :=
  { SameShape.refl r with .. }

theorem SameShape.makeExecutable (r : FunctionRecord) : r.SameShape r.makeExecutable :=
  { SameShape.refl r with .. }

theorem SameShape.storeAll (h : r.SameShape r') (stores : List Store) (resolved : Bool) :
    r.SameShape { r' with block := r'.block.storeAll stores, resolved } where
  id := h.id
  name := h.name
  address := (Block.storeAll_frame r'.block stores).1.trans h.address
  blockSize := (Block.storeAll_frame r'.block stores).2.1.trans h.blockSize
  codeOffset := h.codeOffset
  size := h.size
  relocations := h.relocations
  locations := h.locations
  layout := h.layout
  debugLocs := h.debugLocs

theorem SameForm.codeEnd (h : r.SameForm r') : r'.codeEnd = r.codeEnd := by
  rw [FunctionRecord.codeEnd, FunctionRecord.codeEnd, h.codeOffset, h.size]

theorem SameForm.codeAddress (h : r.SameForm r') : r'.codeAddress = r.codeAddress := by
  simp only [FunctionRecord.codeAddress, Block.addressAt, h.address, h.codeOffset]

theorem WellFormed.of_shape (hw : r.WellFormed) (h : r.SameShape r') : r'.WellFormed where
  codeEnd_le := by rw [h.codeEnd, h.blockSize]; exact hw.codeEnd_le
  size_le := by rw [h.blockSize]; exact hw.size_le
  ordered := by rw [h.relocations]; exact hw.ordered
  within := by rw [h.relocations, h.codeEnd, h.codeOffset]; exact hw.within
  plain := by rw [h.relocations]; exact hw.plain
  tables := by rw [h.layout, h.codeOffset]; exact hw.tables
  bases := by rw [h.layout, h.blockSize]; exact hw.bases
  places := by rw [h.locations, h.codeEnd]; exact hw.places

theorem WellFormed.withoutLog (hw : r.WellFormed) : r.withoutLog.WellFormed :=
  { hw with ordered := .nil, within := nofun, plain := nofun }

theorem WellFormed.field_le (hw : r.WellFormed) {e : Relocation} (he : e ∈ r.relocations) :
    r.codeOffset ≤ e.offset ∧ e.fieldEnd ≤ r.codeEnd :=
  hw.within e.bare (List.mem_map_of_mem he)

theorem WellFormed.eq_of_offset (hw : r.WellFormed) {e e' : Relocation} (he : e ∈ r.relocations)
    (he' : e' ∈ r.relocations) (h : e.offset = e'.offset) : e = e' := by
  have hordered : r.relocations.Pairwise fun e e' => e.fieldEnd ≤ e'.offset :=
    List.pairwise_map.1 hw.ordered
  have hnodup : (r.relocations.map (·.offset)).Nodup := by
    refine List.pairwise_map.2 (hordered.imp ?_)
    intro e e' hle
    have hwidth := e.kind.width_pos
    simp only [Relocation.fieldEnd] at hle
    omega
  exact List.inj_on_of_nodup_map hnodup he he' h

theorem WellFormed.leftToTarget (hw : r.WellFormed) :
    ∀ e ∈ r.relocations, e.leftToTarget = false :=
  fun e he => (hw.plain e.bare (List.mem_map_of_mem he)).leftToTarget

theorem WellFormed.codeEnd_lt (hw : r.WellFormed) : r.codeEnd < 2 ^ 31 :=
  (hw.codeEnd_le.trans hw.size_le).trans_lt (by decide)

/-- The address that the patched field of a reference stands for. -/
def fieldAddress (r : FunctionRecord) (e : Relocation) : UInt64 :=
  e.decode r.baseAddress (r.block.slice e.offset e.kind.width).toList

end FunctionRecord

theorem Draft.commit_wellFormed {f : MachineFunction} {block : Block} {c d : Draft}
    (hb : block.Fresh) (hc : c.Bare .x86_64 f { block })
    (h : c.Extends f.instructions (MachineBlock.startsFrom c.offset f.blocks) d) (id : FuncId) :
    (d.commit id).WellFormed := by
  have hstart : d.codeOffset = c.offset := h.codeOffset.trans hc.codeOffset
  have hle : c.offset ≤ d.offset := h.grows.offset_le
  have hend : (d.commit id).codeEnd = d.offset := by
    change d.codeOffset + (d.offset - d.codeOffset) = d.offset
    omega
  have hsize : d.buffer.block.size = block.size := (hc.grows.trans h.grows).size
  have hrelocs : (d.commit id).relocations = relocationsFrom c.offset f.instructions := by
    change d.relocations.toList = _
    rw [h.relocations, hc.relocations]
    rfl
  have hfields {e : Relocation} (he : e ∈ relocationsFrom c.offset f.instructions) :
      d.codeOffset ≤ e.offset ∧ e.fieldEnd ≤ (d.commit id).codeEnd := by
    have hm := field_of_mem_relocationsFrom he
    rw [hstart, hend, h.offset]
    exact hm
  refine ⟨?_, ?_, ?_, ?_, ?_, ?_, ?_, ?_⟩
  · rw [hend]
    exact d.buffer.offset_le_capacity
  · exact hsize ▸ hb.size_le
  · rw [hrelocs]
    exact List.pairwise_map.2 (pairwise_relocationsFrom c.offset f.instructions)
  · rw [hrelocs]
    intro e he
    obtain ⟨e', he', rfl⟩ := List.mem_map.1 he
    have hin := hfields he'
    exact hin
  · rw [hrelocs]
    intro e he
    obtain ⟨e', he', rfl⟩ := List.mem_map.1 he
    have hp := plain_of_mem_relocationsFrom he'
    exact ⟨hp.addend, hp.leftToTarget⟩
  · intro l hl
    change d.layout.jumpTables = some l at hl
    rw [h.layout] at hl
    have ht := hc.tables l hl
    rwa [hc.codeOffset, ← hstart] at ht
  · -- a block consists of whole pages, so rounding up within it does not lead out of it
    intro l hl
    change d.layout.jumpTables = some l at hl
    rw [h.layout] at hl
    obtain ⟨offset, hoffset, hbase⟩ := hc.base l hl
    obtain ⟨j, hj, halign⟩ := JumpTableLayout.entryAlign_eq_pow (hc.tables l hl).not_inline
    have hpage : 2 ^ 3 ∣ Host.pageSize := by decide
    have hdvd : 2 ^ j ∣ block.size :=
      Nat.dvd_trans (Nat.dvd_trans (Nat.pow_dvd_pow 2 hj) hpage) hb.pages
    change l.base ≤ d.buffer.block.size
    rw [hbase, halign, hsize]
    exact Word.alignTo_le_of_dvd (hoffset.trans_lt hb.lt_modulus) (by omega) hoffset hdvd
  · intro b offset hoffset
    have hstarts := (h.block? b offset).1 hoffset
    rw [hc.locations] at hstarts
    rw [hend, h.offset]
    exact MachineBlock.le_of_mem_startsFrom (hstarts.resolve_left nofun)

namespace FunctionRecord

variable {r : FunctionRecord}

/-- Of stores into fields that follow one another, and others that touch none of these fields, every
field keeps the address stored into it. -/
theorem decode_storeAll {base : UInt64} {limit : Nat} {es : List Relocation}
    {ss tables : List Store} {b : Block} (h : List.Forall₂ (Relocation.PatchedBy base limit) es ss)
    (hordered : es.Pairwise fun e e' => e.fieldEnd ≤ e'.offset) (hlimit : limit ≤ b.size)
    (htables : ∀ t ∈ tables, ∀ e ∈ es, Block.Apart t e.offset e.kind.width) {e : Relocation}
    (he : e ∈ es) : ∃ address, e.address? = some address ∧
      e.decode base ((b.storeAll (ss ++ tables)).slice e.offset e.kind.width).toList = address := by
  induction h generalizing b with
  | nil => cases he
  | @cons e₁ s es ss hs hrest ih =>
    obtain ⟨hfirst, hordered⟩ := List.pairwise_cons.1 hordered
    rcases List.mem_cons.1 he with rfl | he
    · have hle := hs.le_limit
      have hsb : s.offset + s.bytes.length ≤ b.size := by
        rw [hs.offset, hs.length]
        exact hle.trans hlimit
      have hafter : ∀ t ∈ ss ++ tables, Block.Apart t s.offset s.bytes.length := by
        intro t ht
        rw [hs.offset, hs.length]
        rcases List.mem_append.1 ht with ht | ht
        · obtain ⟨e', he', hp⟩ := Relocation.exists_of_mem_stores hrest ht
          exact .inr (by rw [hp.offset]; exact hfirst e' he')
        · exact htables t ht e List.mem_cons_self
      have hread := Block.slice_storeAll_cons hsb hafter
      rw [hs.offset, hs.length] at hread
      obtain ⟨address, haddress, hdecode⟩ := hs.address
      refine ⟨address, haddress, ?_⟩
      rw [← hdecode]
      exact congrArg (e.decode base) hread
    · have hsize : limit ≤ (b.store s).size := by rwa [(Block.store_frame b s).2.1]
      exact ih hordered hsize (fun t ht e' he' => htables t ht e' (List.mem_cons_of_mem _ he')) he

def patchTables (r : FunctionRecord) (t : Target) : Plan EmitError :=
  match r.layout.jumpTables with
  | some l => l.plan t r.tableOwner r.block.size
  | none => .done

theorem patchPlan_eq (r : FunctionRecord) (t : Target) :
    r.patchPlan t =
      (Relocation.patchAll r.baseAddress r.codeEnd r.relocations).andThen (r.patchTables t) := rfl

theorem patchTables_before_code (hw : r.WellFormed)
    (h : (r.patchTables .x86_64).fault = none) {s : Store}
    (hs : s ∈ (r.patchTables .x86_64).stores) : s.offset + s.bytes.length ≤ r.codeOffset := by
  unfold patchTables at h hs
  cases hl : r.layout.jumpTables with
  | none =>
    rw [hl] at hs
    cases hs
  | some l =>
    rw [hl] at h hs
    exact JumpTableLayout.plan_before_code (hw.tables l hl) h hs

theorem patch_cases {r' : FunctionRecord} {t : Target} {fault : Option EmitError} (h : r.patch t = (r', fault)) :
    (r' = r ∧ fault ≠ none) ∨
      (r.isExecutable = false ∧ r' = { r with block := r.block.storeAll (r.patchPlan t).stores } ∧
        fault = (r.patchPlan t).fault) := by
  unfold patch at h
  split at h
  · cases h
    exact .inl ⟨rfl, by simp⟩
  · split at h
    · cases h
      exact .inl ⟨rfl, by simp⟩
    · rename_i hx
      cases h
      exact .inr ⟨by simpa using hx, rfl, rfl⟩

/-- Patching a record changes nothing but its bytes, and without a fault leaves the address of every
reference in its field. -/
theorem patch_spec (hw : r.WellFormed) {r' : FunctionRecord} {fault : Option EmitError}
    (h : r.patch .x86_64 = (r', fault)) :
    (∃ stores, r' = { r with block := r.block.storeAll stores }) ∧
      (fault = none → ∀ e ∈ r.relocations, ∃ address, e.result = some address ∧
        r'.fieldAddress e = address) := by
  unfold patch at h
  split at h
  · cases h
    exact ⟨⟨[], rfl⟩, fun hn => by cases hn⟩
  · split at h
    · cases h
      exact ⟨⟨[], rfl⟩, fun hn => by cases hn⟩
    · cases h
      refine ⟨⟨_, rfl⟩, ?_⟩
      intro hfault e he
      rw [patchPlan_eq] at hfault
      obtain ⟨hrelocs, htables⟩ := Plan.andThen_fault_eq_none.1 hfault
      have hstores := Relocation.patchAll_stores hrelocs
      have hordered : r.relocations.Pairwise fun e e' => e.fieldEnd ≤ e'.offset :=
        List.pairwise_map.1 hw.ordered
      have hplain : e.address? = e.result :=
        Relocation.address?_of_plain (hw.plain e.bare (List.mem_map_of_mem he))
      -- the slots of the tables lie before the code, and with it before every field
      have hapart : ∀ t ∈ (r.patchTables .x86_64).stores, ∀ e' ∈ r.relocations,
          Block.Apart t e'.offset e'.kind.width := by
        intro t ht e' he'
        exact .inl ((patchTables_before_code hw htables ht).trans (hw.field_le he').1)
      obtain ⟨address, haddress, hdecode⟩ :=
        decode_storeAll hstores hordered hw.codeEnd_le hapart he
      refine ⟨address, hplain ▸ haddress, ?_⟩
      rw [patchPlan_eq, Plan.andThen_stores hrelocs, ← hdecode]
      simp only [fieldAddress, baseAddress, (Block.storeAll_frame _ _).1]

end FunctionRecord

end CodeEmission
