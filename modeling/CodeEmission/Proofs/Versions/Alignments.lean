import CodeEmission.Proofs.Layout.Alignments
import CodeEmission.Proofs.Versions.Pages
import CodeEmission.Proofs.Versions.Pools

/-! # Alignments of addresses

A layout gives every part of a function an offset that is a multiple of what is asked for the part,
but the block is at a page and at nothing more. So the addresses are multiples exactly if the block
happens to be at one, which is certain only up to the size of a page.
-/

namespace CodeEmission

/-- The alignments that are asked for the parts of a function, none counting as one. -/
def MachineFunction.requestedAlignments (f : MachineFunction) (config : Config) : List Nat :=
  max f.alignment.toNat 1 :: max config.minFunctionAlignment.toNat 1 ::
    f.constantPool.map PoolEntry.alignment

namespace FunctionRecord

variable {r : FunctionRecord}

/-- The address of every part of a function is a multiple of what is asked for the part. -/
structure HonoursAlignments (r : FunctionRecord) (config : Config) (f : MachineFunction) : Prop where
  function : max f.alignment.toNat 1 ∣ r.codeAddress.toNat
  leastFunction : max config.minFunctionAlignment.toNat 1 ∣ r.codeAddress.toNat
  constants : ∀ (i : Nat) e, f.constantPool[i]? = some e →
    ∃ a, r.constantAddress i = .ok a ∧ e.alignment ∣ a.toNat

theorem constantAddress_eq_ok {i : Nat} {a : UInt64} :
    r.constantAddress i = .ok a ↔
      ∃ o, r.layout.constants[i]? = some o ∧ r.block.addressAt o = a := by
  unfold constantAddress PoolLayout.constantOffset
  cases r.layout.constants[i]? with
  | none => simp [Except.map]
  | some o => simp [Except.map]

theorem slotOffset_of_jumpTableOffset {l : JumpTableLayout} {i offset : Nat}
    (hl : r.layout.jumpTables = some l) (h : r.layout.jumpTableOffset i = .ok offset) :
    l.slotOffset (l.slotsBefore i) = .ok offset := by
  unfold PoolLayout.jumpTableOffset at h
  rw [hl] at h
  dsimp only [JumpTableLayout.tableOffset] at h
  split at h
  · exact h
  · cases h

end FunctionRecord

namespace Emitter

open Word

variable {em : Emitter} {f : MachineFunction} {r : FunctionRecord} {config : Config} {n : Nat}

theorem Carries.aligned (h : em.Carries f) (hr : em.function? f.id = some r) :
    ∃ d : Draft, d.Aligned em.config f ∧ r.layout = d.layout ∧ r.codeOffset = d.codeOffset := by
  obtain ⟨block, d, hfresh, hlay, hfits, hshape, _⟩ := h.committed hr
  exact ⟨d, Draft.layOut_aligned hfresh.intact hfresh.size_le hlay hfits, hshape.layout,
    hshape.codeOffset⟩

namespace AskedAlignments

theorem of_mem (h : AskedAlignments config f) (hn : n ∈ f.requestedAlignments config) :
    IsAlignment n ∧ 0 < n ∧ n < modulus := by
  have hword (a : UInt64) (ha : IsAlignment a.toNat) :
      IsAlignment (max a.toNat 1) ∧ 0 < max a.toNat 1 ∧ max a.toNat 1 < modulus := by
    have hlt := a.toNat_lt
    refine ⟨isAlignment_max_one ha, by omega, ?_⟩
    simp only [modulus]
    omega
  simp only [MachineFunction.requestedAlignments, List.mem_cons, List.mem_map] at hn
  rcases hn with rfl | rfl | ⟨e, he, rfl⟩
  · exact hword _ h.function
  · exact hword _ h.leastFunction
  · exact hword _ (h.entries e he)

theorem dvd_modulus (h : AskedAlignments config f) (hn : n ∈ f.requestedAlignments config) :
    n ∣ modulus := by
  obtain ⟨halign, hpos, hlt⟩ := h.of_mem hn
  exact halign.dvd_modulus hpos hlt

theorem dvd_pageSize (h : AskedAlignments config f) (hn : n ∈ f.requestedAlignments config)
    (hle : n ≤ Host.pageSize) : n ∣ Host.pageSize := by
  obtain ⟨halign, hpos, _⟩ := h.of_mem hn
  exact halign.dvd_of_le (.inr ⟨12, rfl⟩) hpos hle

end AskedAlignments

theorem Carries.dvd_codeOffset (h : em.Carries f) (hr : em.function? f.id = some r)
    (ha : AskedAlignments em.config f) (hn : IsAlignment n) (hpos : 0 < n)
    (hle : n ≤ max (max f.alignment.toNat em.config.minFunctionAlignment.toNat) 8) :
    n ∣ r.codeOffset := by
  obtain ⟨d, hd, _, hcode⟩ := h.aligned hr
  have hwhole : IsAlignment (max (max f.alignment.toNat em.config.minFunctionAlignment.toNat) 8) :=
    (ha.function.max ha.leastFunction).max (.inr ⟨3, rfl⟩)
  rw [hcode]
  exact Nat.dvd_trans (hn.dvd_of_le hwhole hpos hle) (hd.code ha.function ha.leastFunction)

/-- A version honours what was asked for exactly if its block is at a multiple of all of it. -/
theorem Carries.honoursAlignments_iff (h : em.Carries f) (hr : em.function? f.id = some r)
    (ha : AskedAlignments em.config f) :
    r.HonoursAlignments em.config f ↔
      ∀ n ∈ f.requestedAlignments em.config, n ∣ r.baseAddress.toNat := by
  have hfunction : max f.alignment.toNat 1 ∈ f.requestedAlignments em.config := List.mem_cons_self
  have hleast : max em.config.minFunctionAlignment.toNat 1 ∈ f.requestedAlignments em.config :=
    List.mem_cons_of_mem _ List.mem_cons_self
  have hentry {e : PoolEntry} (he : e ∈ f.constantPool) :
      e.alignment ∈ f.requestedAlignments em.config :=
    List.mem_cons_of_mem _ (List.mem_cons_of_mem _ (List.mem_map_of_mem he))
  obtain ⟨s, hs, hpool⟩ := constantPool_holds h ha
  obtain rfl : r = s := Option.some.inj (hr.symm.trans hs)
  have hcode {n : Nat} (hn : n ∈ f.requestedAlignments em.config)
      (hle : n ≤ max (max f.alignment.toNat em.config.minFunctionAlignment.toNat) 8) :
      n ∣ r.codeAddress.toNat ↔ n ∣ r.baseAddress.toNat := by
    obtain ⟨halign, hpos, _⟩ := ha.of_mem hn
    exact r.block.dvd_addressAt (ha.dvd_modulus hn) (h.dvd_codeOffset hr ha halign hpos hle)
  have hconstant {i o : Nat} {e : PoolEntry} (he : f.constantPool[i]? = some e)
      (ho : r.layout.constants[i]? = some o) :
      e.alignment ∣ (r.block.addressAt o).toNat ↔ e.alignment ∣ r.baseAddress.toNat :=
    r.block.dvd_addressAt (ha.dvd_modulus (hentry (List.mem_of_getElem? he)))
      (hpool.constant i e o he ho).aligned
  constructor
  · intro hhonours n hn
    simp only [MachineFunction.requestedAlignments, List.mem_cons, List.mem_map] at hn
    rcases hn with rfl | rfl | ⟨e, he, rfl⟩
    · exact (hcode hfunction (by omega)).1 hhonours.function
    · exact (hcode hleast (by omega)).1 hhonours.leastFunction
    · obtain ⟨i, hi⟩ := List.getElem?_of_mem he
      obtain ⟨a, haddress, hdvd⟩ := hhonours.constants i e hi
      obtain ⟨o, ho, rfl⟩ := FunctionRecord.constantAddress_eq_ok.1 haddress
      exact (hconstant hi ho).1 hdvd
  · intro hblock
    refine ⟨?_, ?_, ?_⟩
    · exact (hcode hfunction (by omega)).2 (hblock _ hfunction)
    · exact (hcode hleast (by omega)).2 (hblock _ hleast)
    · intro i e he
      have hlt : i < r.layout.constants.length :=
        hpool.count ▸ (List.getElem?_eq_some_iff.1 he).1
      have ho := List.getElem?_eq_getElem hlt
      exact ⟨_, FunctionRecord.constantAddress_eq_ok.2 ⟨_, ho, rfl⟩,
        (hconstant he ho).2 (hblock _ (hentry (List.mem_of_getElem? he)))⟩

theorem Carries.jumpTable_aligned (h : em.Carries f) (hr : em.function? f.id = some r)
    (hpage : Host.pageSize ∣ r.baseAddress.toNat) {l : JumpTableLayout}
    (hl : r.layout.jumpTables = some l) {i : Nat} {a : UInt64} (hi : r.jumpTableAddress i = .ok a) :
    Target.x86_64.jumpTableEntryAlign l.kind ∣ a.toNat := by
  obtain ⟨offset, ho, rfl⟩ := FunctionRecord.jumpTableAddress_eq_ok hi
  have hslot := FunctionRecord.slotOffset_of_jumpTableOffset hl ho
  obtain ⟨d, hd, hlayout, _⟩ := h.aligned hr
  have hsmall : Target.x86_64.jumpTableEntryAlign l.kind ∣ Host.pageSize := by
    cases l.kind <;> decide
  have hword : Target.x86_64.jumpTableEntryAlign l.kind ∣ modulus :=
    Nat.dvd_trans hsmall (by decide)
  exact (r.block.dvd_addressAt hword (hd.tables l (hlayout ▸ hl) _ _ hslot)).2
    (Nat.dvd_trans hsmall hpage)

/-- On a host whose blocks start at pages the code of a version is at a multiple of 8 and its jump
tables are at multiples of their entries, whatever was done before and is done later. Alignments that
are asked for are honoured up to the size of a page; a larger one only if the block is at a multiple
of it by chance. -/
theorem version_alignments {module : Module} {host : Host} {sink : Sink} {ops later : List Operation}
    {address : UInt64} (hhost : Host.pageSize ∣ host.nextBlock.toNat)
    (hem : em = (new .x86_64 module config host sink).run ops) (ha : AskedAlignments config f)
    (hok : (em.emitFunction f).2 = .ok address)
    (hret : (em.perform (.emit f)).RetainsAll f.id later) :
    ∃ r, ((em.perform (.emit f)).run later).function? f.id = some r ∧ r.codeAddress = address ∧
      Host.pageSize ∣ r.baseAddress.toNat ∧ 8 ∣ address.toNat ∧
      (∀ l i a, r.layout.jumpTables = some l → r.jumpTableAddress i = .ok a →
        Target.x86_64.jumpTableEntryAlign l.kind ∣ a.toNat) ∧
      (r.HonoursAlignments config f ↔
        ∀ n ∈ f.requestedAlignments config, n ∣ r.baseAddress.toNat) ∧
      ((∀ n ∈ f.requestedAlignments config, n ≤ Host.pageSize) → r.HonoursAlignments config f) := by
  have hreach : em.Reachable := ⟨module, config, host, sink, ops, hem⟩
  have hemit := hreach.perform (.emit f)
  have hcarries : ((em.perform (.emit f)).run later).Carries f :=
    ⟨em, later, address, hreach, hok, hret, rfl⟩
  have hconfig : ((em.perform (.emit f)).run later).config = config := by
    rw [(run_later _ later).config, (perform_later em _).config, hem, (run_later _ ops).config]
    rfl
  obtain ⟨block, d, _, _, _, hfound, haddress⟩ := committed_of_emitFunction hok
  obtain ⟨r, hr, hcode⟩ := hret.induction (P := fun r => r.codeAddress = address)
    (fun r r' _ hr hstep => hstep.form.codeAddress.trans hr) hemit hfound haddress.symm
  have hpages : em.OnPages := by
    rw [hem]
    exact (onPages_new hhost module config sink).run ⟨module, config, host, sink, [], rfl⟩ ops
  have hpage : Host.pageSize ∣ r.baseAddress.toNat :=
    ((hpages.perform hreach _).run hemit later).versions f.id r hr
  rw [← hconfig] at ha
  have hiff := hcarries.honoursAlignments_iff hr ha
  have height : 8 ∣ r.codeAddress.toNat := by
    have hoffset : 8 ∣ r.codeOffset :=
      hcarries.dvd_codeOffset hr ha (.inr ⟨3, rfl⟩) (by decide) (le_max_right _ _)
    exact (r.block.dvd_addressAt (by decide) hoffset).2 (Nat.dvd_trans (by decide) hpage)
  rw [hconfig] at hiff ha
  refine ⟨r, hr, hcode, hpage, hcode ▸ height, ?_, hiff, ?_⟩
  · intro l i a hl hi
    exact hcarries.jumpTable_aligned hr hpage hl hi
  · intro hsmall
    exact hiff.2 fun n hn => Nat.dvd_trans (ha.dvd_pageSize hn (hsmall n hn)) hpage

theorem version_alignments_pooled :
    let em := new .x86_64 {} {} {}
    Host.pageSize ∣ em.host.nextBlock.toNat ∧ AskedAlignments em.config pooled ∧
      (em.emitFunction pooled).2 = .ok 0x1000000020 ∧
      (em.perform (.emit pooled)).RetainsAll pooled.id [.resolve] ∧
      ∃ r, ((em.perform (.emit pooled)).run [.resolve]).function? pooled.id = some r ∧
        r.HonoursAlignments em.config pooled := by
  intro em
  have hhost : Host.pageSize ∣ em.host.nextBlock.toNat := by decide
  have hasked : AskedAlignments em.config pooled := by
    refine ⟨?_, .inr ⟨4, rfl⟩, .inr ⟨3, rfl⟩⟩
    intro e he
    simp only [pooled, List.mem_cons, List.not_mem_nil, or_false] at he
    rcases he with rfl | rfl | rfl
    · exact .inl rfl
    · exact .inr ⟨2, rfl⟩
    · exact .inr ⟨3, rfl⟩
  have hok : (em.emitFunction pooled).2 = .ok 0x1000000020 := by decide +kernel
  have hret : (em.perform (.emit pooled)).RetainsAll pooled.id [.resolve] :=
    ⟨⟨by decide +kernel, fun _ hemit => by cases hemit⟩, trivial⟩
  have hem : em = (new .x86_64 {} {} {}).run [] := rfl
  obtain ⟨r, hr, _, _, _, _, _, hsmall⟩ := version_alignments hhost hem hasked hok hret
  exact ⟨hhost, hasked, hok, hret, r, hr, hsmall (by decide)⟩

/-- A second function stands one page after the first, also if it was asked to be at a multiple of two
pages. -/
theorem version_alignments_beyond_page :
    let em := (new .x86_64 {} {} {}).run [.emit .nopRet]
    let f := { MachineFunction.nopRet with id := ⟨1⟩, alignment := 8192 }
    AskedAlignments em.config f ∧ (em.emitFunction f).2 = .ok 0x1000001000 ∧
      ¬f.alignment.toNat ∣ UInt64.toNat 0x1000001000 := by
  intro em f
  have hconfig : em.config = {} := (run_later (new .x86_64 {} {} {}) _).config
  refine ⟨?_, by decide +kernel, by decide⟩
  rw [hconfig]
  exact ⟨nofun, .inr ⟨13, rfl⟩, .inr ⟨3, rfl⟩⟩

end Emitter

end CodeEmission
