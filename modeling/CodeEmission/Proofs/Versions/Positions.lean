import CodeEmission.Proofs.Emitter.Code
import CodeEmission.Proofs.Layout.Positions
import CodeEmission.Proofs.Versions.Committed

/-! # Source positions of versions

However many attempts it takes to emit a function, and whatever is done with the emitter afterwards,
the table of source positions is that of the layout that was committed. It tells for all code of the
version which position was marked last before it.
-/

namespace CodeEmission.Emitter

variable {em : Emitter} {f : MachineFunction} {r : FunctionRecord} {ops : List Operation}
  {address : UInt64}

theorem Carries.positions (h : em.Carries f) (hr : em.function? f.id = some r) :
    PositionsOf r.codeOffset f.instructions r.debugLocs := by
  obtain ⟨block, d, hfresh, hlay, hfits, hshape, _⟩ := h.committed hr
  rw [hshape.codeOffset, hshape.debugLocs]
  exact Draft.layOut_positions hfresh.intact hlay hfits

theorem Carries.size_eq (h : em.Carries f) (hr : em.function? f.id = some r) :
    r.size = f.encode.length := by
  obtain ⟨block, d, hfresh, hlay, hfits, hshape, _⟩ := h.committed hr
  obtain ⟨c, hc, he⟩ := Draft.layOut_extends hfresh.intact hlay hfits
  exact hshape.size.trans (Draft.commit_holds hc he f.id).size

/-- From the commitment of a function on, its record tells of every instruction that has code which
source position was marked last before it, if any was. No entry lies outside of the code. -/
theorem emitFunction_positions (h : em.Reachable) (hok : (em.emitFunction f).2 = .ok address)
    (hret : (em.emitFunction f).1.RetainsAll f.id ops) :
    ∃ r, ((em.emitFunction f).1.run ops).function? f.id = some r ∧
      PositionsOf r.codeOffset f.instructions r.debugLocs ∧
      ∀ p ∈ r.debugLocs, r.codeOffset ≤ p.1 ∧ p.1 ≤ r.codeOffset + r.size := by
  have hcarries : ((em.emitFunction f).1.run ops).Carries f := ⟨em, ops, address, h, hok, hret, rfl⟩
  obtain ⟨r, hr⟩ := hcarries.exists_record
  have hpositions := hcarries.positions hr
  refine ⟨r, hr, hpositions, ?_⟩
  intro p hp
  rw [hcarries.size_eq hr]
  exact hpositions.within hp

/-- A function with markers before and after a label, at the end of a block, and behind all code. -/
def marked : MachineFunction where
  id := ⟨4⟩
  name := "m"
  constantPool := [{ value := .constant (.int .i8 7), align := 1 }]
  blocks :=
    [{ number := ⟨0⟩, insts :=
        [.nop, .debugLoc 1 1, .debugLoc 2 1, .label ⟨0⟩, .jmp ⟨1⟩, .debugLoc 2 1] },
      { number := ⟨1⟩, insts := [.ret, .debugLoc 3 1] }]

theorem emitFunction_positions_marked :
    let em := ((new .x86_64 {} {} {}).emitFunction marked).1.run [.resolve, .makeExecutable ⟨4⟩]
    ∃ r, em.function? ⟨4⟩ = some r ∧ PositionsOf r.codeOffset marked.instructions r.debugLocs ∧
      r.debugLocs = [(9, ⟨1, 1⟩), (9, ⟨2, 1⟩), (15, ⟨3, 1⟩)] ∧ r.codeOffset = 8 ∧ r.size = 7 := by
  intro em
  have hnew : (new .x86_64 {} {} {}).Reachable := ⟨{}, {}, {}, .log, [], rfl⟩
  have hok : ((new .x86_64 {} {} {}).emitFunction marked).2 = .ok 0x1000000008 := by decide +kernel
  have hret : ((new .x86_64 {} {} {}).emitFunction marked).1.RetainsAll ⟨4⟩
      [.resolve, .makeExecutable ⟨4⟩] :=
    ⟨⟨by decide +kernel, nofun⟩, ⟨by decide +kernel, nofun⟩, trivial⟩
  obtain ⟨r, hr, hpositions, _⟩ := emitFunction_positions hnew hok hret
  have hfound : (em.function? ⟨4⟩).map (fun r => (r.debugLocs, r.codeOffset, r.size)) =
      some ([(9, ⟨1, 1⟩), (9, ⟨2, 1⟩), (15, ⟨3, 1⟩)], 8, 7) := by decide +kernel
  have hr' : em.function? ⟨4⟩ = some r := hr
  rw [hr'] at hfound
  simp only [Option.map_some, Option.some.injEq, Prod.mk.injEq] at hfound
  exact ⟨r, hr, hpositions, hfound⟩

end CodeEmission.Emitter
