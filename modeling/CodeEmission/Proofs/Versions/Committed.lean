import CodeEmission.Proofs.Layout.Places
import CodeEmission.Proofs.Resolution.Extents
import CodeEmission.Proofs.Versions.Retained

/-! # What a version keeps of its layout

As long as a version of a function is in the table its record has the shape that the layout gave it:
the places of pool, tables, blocks and references.
-/

namespace CodeEmission

namespace FunctionRecord

variable {r r' : FunctionRecord} {offset n : Nat}

theorem InFront.of_form (h : r.InFront offset n) (hs : r.SameForm r') : r'.InFront offset n where
  code := hs.codeOffset ▸ h.code
  tables := hs.layout ▸ h.tables

theorem Step.slice_eq (hw : r.WellFormed) (h : r.Step r') (hfront : r.InFront offset n) :
    r'.block.slice offset n = r.block.slice offset n := by
  cases h with
  | kept => rfl
  | withdrawn _ => rfl
  | executable => rfl
  | addressed _ _ => rfl
  | lost _ => rfl
  | @patched _ relocations _ _ same patch =>
    have hshape := SameShape.addressed same
    have hpatched := slice_of_patch (hw.of_shape hshape) (hfront.of_form hshape.toSameForm) patch
    exact hpatched

/-- A record is that of a draft, but for the addresses in its log, or for all of the log. -/
structure HoldsDraft (r : FunctionRecord) (d : Draft) (id : FuncId) : Prop where
  form : (d.commit id).SameForm r
  relocations : r.relocations.map Relocation.bare =
    (d.commit id).relocations.map Relocation.bare ∨ r.relocations = []
  bytes : ∀ offset n, r.InFront offset n → r.block.slice offset n = d.buffer.block.slice offset n

theorem HoldsDraft.commit (d : Draft) (id : FuncId) : (d.commit id).HoldsDraft d id :=
  ⟨.refl _, .inl rfl, fun _ _ _ => rfl⟩

theorem HoldsDraft.step {d : Draft} {id : FuncId} (h : r.HoldsDraft d id) (hw : r.WellFormed)
    (hs : r.Step r') : r'.HoldsDraft d id := by
  refine ⟨h.form.trans hs.form, ?_, ?_⟩
  · rcases h.relocations with hlog | hnil
    · exact hs.relocations.imp_left fun hsame => hsame.trans hlog
    · have hempty := hs.relocations
      rw [hnil, List.map_nil, List.map_eq_nil_iff, or_self] at hempty
      exact .inr hempty
  · intro offset n hfront
    have hfront' : r.InFront offset n :=
      ⟨hs.form.codeOffset ▸ hfront.code, hs.form.layout ▸ hfront.tables⟩
    rw [hs.slice_eq hw hfront', h.bytes offset n hfront']

end FunctionRecord

namespace Emitter

variable {em : Emitter} {f : MachineFunction} {r : FunctionRecord}

/-- The record of a version has the form and the log of the layout that was committed, unless the log
was lost, and before tables and code also its bytes. -/
theorem Carries.committed (h : em.Carries f) (hr : em.function? f.id = some r) :
    ∃ block d, block.Fresh ∧ Draft.layOut .x86_64 em.config f { block } = .ok d ∧
      d.buffer.overflow = none ∧ r.HoldsDraft d f.id := by
  let Committed (r : FunctionRecord) : Prop := ∃ block d, block.Fresh ∧
    Draft.layOut .x86_64 em.config f { block } = .ok d ∧ d.buffer.overflow = none ∧
      r.HoldsDraft d f.id
  have hnew : ∀ block d, block.Fresh → Draft.layOut .x86_64 em.config f { block } = .ok d →
      d.buffer.overflow = none → Committed (d.commit f.id) :=
    fun block d hfresh hlay hfits => ⟨block, d, hfresh, hlay, hfits, .commit d f.id⟩
  have hkeep : ∀ s s' : FunctionRecord, s.WellFormed → Committed s → s.Step s' → Committed s' := by
    rintro s s' hw ⟨block, d, hfresh, hlay, hfits, hholds⟩ hstep
    exact ⟨block, d, hfresh, hlay, hfits, hholds.step hw hstep⟩
  obtain ⟨r', hr', hcommitted⟩ := h.induction hnew hkeep
  obtain rfl := Option.some.inj (hr.symm.trans hr')
  exact hcommitted

theorem Carries.places (h : em.Carries f) (hr : em.function? f.id = some r) :
    ∃ d : Draft, d.Places em.config f ∧ r.layout = d.layout ∧ r.codeOffset = d.codeOffset ∧
      ∀ offset n, r.InFront offset n →
        r.block.slice offset n = d.buffer.block.slice offset n := by
  obtain ⟨block, d, hfresh, hlay, hfits, hholds⟩ := h.committed hr
  have hempty : CodeBuffer.offset { block } = 0 := congrArg Array.size hfresh.contents
  exact ⟨d, Draft.layOut_places hfresh.intact hempty hfresh.size_le hlay hfits, hholds.form.layout,
    hholds.form.codeOffset, hholds.bytes⟩

theorem Carries.near (h : em.Carries f) (hr : em.function? f.id = some r) {e : Relocation}
    (he : e ∈ r.relocations) (hk : e.kind = .pcRel32) : e.target.Near := by
  obtain ⟨block, d, hfresh, hlay, hfits, hholds⟩ := h.committed hr
  obtain ⟨c, hc, hx⟩ := Draft.layOut_extends hfresh.intact hlay hfits
  have hmem := List.mem_map_of_mem (f := Relocation.bare) he
  rcases hholds.relocations with hlog | hnil
  swap
  · rw [hnil] at he
    cases he
  rw [hlog] at hmem
  obtain ⟨e', he', hbare⟩ := List.mem_map.1 hmem
  have hlog : e' ∈ d.relocations.toList := he'
  rw [hx.relocations, hc.relocations] at hlog
  have hnear : e'.kind = .pcRel32 → e'.target.Near :=
    X86.Instruction.near_of_pcRel32 (by simpa using hlog)
  have hbare' : e.bare.kind = .pcRel32 → e.bare.target.Near := hbare ▸ hnear
  exact hbare' hk

end Emitter

end CodeEmission
