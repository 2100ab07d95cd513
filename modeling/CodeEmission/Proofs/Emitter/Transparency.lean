import CodeEmission.Proofs.Emitter.Doubling

/-! # Retries leave no trace

What is committed depends on the function and on two alignments of the settings, and on nothing
else: neither on what the emitter was used for before nor on the sizes of the buffers that were tried.
-/

namespace CodeEmission

namespace FunctionRecord

/-- Two records of the same code, which may stand in different blocks. -/
structure Agrees (r s : FunctionRecord) : Prop where
  name : r.name = s.name
  codeOffset : r.codeOffset = s.codeOffset
  size : r.size = s.size
  relocations : r.relocations = s.relocations
  locations : r.locations = s.locations
  layout : r.layout = s.layout
  debugLocs : r.debugLocs = s.debugLocs
  buffer : r.buffer = s.buffer

theorem Agrees.symm {r s : FunctionRecord} (h : r.Agrees s) : s.Agrees r :=
  ⟨h.name.symm, h.codeOffset.symm, h.size.symm, h.relocations.symm, h.locations.symm,
    h.layout.symm, h.debugLocs.symm, h.buffer.symm⟩

end FunctionRecord

theorem Draft.Agrees.commit {d u : Draft} (h : d.Agrees u) (id : FuncId) :
    (d.commit id).Agrees (u.commit id) := by
  have hoffset : d.offset = u.offset := congrArg Array.size h.code
  have hsize : (d.commit id).size = (u.commit id).size := by
    simp only [Draft.commit, hoffset, h.codeOffset]
  refine ⟨h.function, h.codeOffset, hsize, ?_, h.locations, h.layout, ?_, ?_⟩
  · simp only [Draft.commit, h.relocations]
  · simp only [Draft.commit, h.debugLocs]
  · have hcontents : d.buffer.block.contents = u.buffer.block.contents := h.code
    simp only [FunctionRecord.buffer, FunctionRecord.codeEnd, Block.slice, Draft.commit, hoffset,
      h.codeOffset, hcontents]

namespace CodeBuffer

theorem overflow_of_exhausted {b : CodeBuffer} (h : b.exhausted = false) : b.overflow = none := by
  simp only [exhausted, overflowed, Bool.or_eq_false_iff] at h
  simpa using h.1

end CodeBuffer

namespace Emitter

variable {em₁ em₂ : Emitter} {f : MachineFunction} {address : UInt64}

theorem committed_of_emitFunction {em : Emitter} (h : (em.emitFunction f).2 = .ok address) :
    ∃ block d, block.Fresh ∧ Draft.layOut em.target em.config f { block } = .ok d ∧
      d.buffer.exhausted = false ∧ (em.emitFunction f).1.function? f.id = some (d.commit f.id) ∧
      address = (d.commit f.id).codeAddress := by
  cases hd : em.patchedDependents f.id with
  | error e =>
    rw [emitFunction_of_error hd] at h
    have hresult : em.check (.error e) = .ok address := h
    cases check_eq_ok.1 hresult
  | ok ids =>
    obtain ⟨result, he, hresult⟩ := emitFunction_emission hd
    rw [hresult, check_eq_ok] at h
    subst h
    have ho := he.outcome
    cases ho with
    | committed fresh laidOut fits found _ => exact ⟨_, _, fresh, laidOut, fits, found, rfl⟩

/-- A function that one emitter can emit is emitted alike by every other that has the same
alignments, unless memory is short or an executable function depends on it. -/
theorem emitFunction_transparent (h₁ : em₁.Reachable) (h₂ : em₂.Reachable)
    (hpool : em₂.config.poolAlignment = em₁.config.poolAlignment)
    (hmin : em₂.config.minFunctionAlignment = em₁.config.minFunctionAlignment)
    (habort : em₂.config.abortOnInvariantViolation = false)
    (hok : (em₁.emitFunction f).2 = .ok address) :
    (∃ address' r₁ r₂, (em₂.emitFunction f).2 = .ok address' ∧
        (em₁.emitFunction f).1.function? f.id = some r₁ ∧
        (em₂.emitFunction f).1.function? f.id = some r₂ ∧ r₁.Agrees r₂) ∨
      (∃ e, (em₂.emitFunction f).2 = .error (.error (.memory e))) ∨
      ∃ dependent, (em₂.emitFunction f).2 =
        .error (.error (.dependentExecutable f.id dependent)) := by
  obtain ⟨b₁, d₁, hfresh₁, hlay₁, hfits₁, hfound₁, _⟩ := committed_of_emitFunction hok
  have ho₁ := CodeBuffer.overflow_of_exhausted hfits₁
  have htarget : em₂.target = em₁.target := h₂.target.trans h₁.target.symm
  -- every attempt of the second emitter follows the layout that the first has committed
  have hfollows {block : Block} (hfresh : block.Fresh) :
      ∃ d, Draft.layOut em₂.target em₂.config f { block } = .ok d ∧ d.Follows d₁ := by
    rw [htarget]
    exact Draft.layOut_follows hpool hmin (hfresh.follows hfresh₁.contents) hfresh₁.intact hlay₁ ho₁
  cases hd : em₂.patchedDependents f.id with
  | error e =>
    obtain ⟨dependent, rfl⟩ := patchedDependents_error hd
    refine .inr (.inr ⟨dependent, ?_⟩)
    rw [emitFunction_of_error hd]
    exact check_error habort nofun
  | ok ids =>
    obtain ⟨result, he, hresult⟩ := emitFunction_emission hd
    have ho := he.outcome
    cases ho with
    | @committed block d fresh laidOut fits found _ =>
      obtain ⟨d', hlay, hdf⟩ := hfollows fresh
      obtain rfl : d = d' := Except.ok.inj (laidOut.symm.trans hlay)
      have hagrees := hdf.agrees (CodeBuffer.overflow_of_exhausted fits)
      have hrecords : (d₁.commit f.id).Agrees (d.commit f.id) := (hagrees.commit f.id).symm
      exact .inl ⟨_, _, _, hresult.trans (check_eq_ok.2 rfl), hfound₁, found, hrecords⟩
    | refused _ => exact .inr (.inl ⟨_, hresult.trans (check_memory _ _)⟩)
    | failed fresh laidOut =>
      obtain ⟨d', hlay, _⟩ := hfollows fresh
      rw [laidOut] at hlay
      cases hlay
    | cutOff fresh raises =>
      obtain ⟨d', hlay, _⟩ := hfollows fresh
      exact absurd raises (Draft.layOut_not_crash hlay)

/-- A new emitter retries a function that another one, used before, emits at the first attempt. -/
theorem emitFunction_transparent_longPool :
    let em₁ := new .x86_64 {} {} {}
    let em₂ := (new .x86_64 {} { initialBufferSize := 8192 } {}).run [.emit .nopRet, .deallocate ⟨1⟩]
    let f := MachineFunction.longPool
    (em₁.emitFunction f).1.stats.retries = 1 ∧ (em₂.emitFunction f).1.stats.retries = 0 ∧
      ∃ address r₁ r₂, (em₂.emitFunction f).2 = .ok address ∧
        (em₁.emitFunction f).1.function? f.id = some r₁ ∧
        (em₂.emitFunction f).1.function? f.id = some r₂ ∧ r₁.Agrees r₂ := by
  intro em₁ em₂ f
  have hr₁ : em₁.Reachable := ⟨{}, {}, {}, .log, [], rfl⟩
  have hr₂ : em₂.Reachable :=
    ⟨{}, { initialBufferSize := 8192 }, {}, .log, [.emit .nopRet, .deallocate ⟨1⟩], rfl⟩
  have hdependents₁ : em₁.patchedDependents ⟨0⟩ = .ok [] := rfl
  have hdependents₂ : em₂.patchedDependents ⟨0⟩ = .ok [] := by decide +kernel
  have hconfig : em₂.config = { initialBufferSize := 8192 } := by decide +kernel
  have hsize : em₂.firstSize = 8192 := by
    rw [firstSize, hconfig]
    decide
  obtain ⟨⟨address₁, hok₁⟩, _, _, _, hretries₁⟩ := emitFunction_fits (k := 1) hr₁ hdependents₁
    (MachineFunction.longPool_endsAt 4096) (by decide) (by decide) (by decide) (by decide)
  obtain ⟨⟨address₂, hok₂⟩, _, _, _, hretries₂⟩ := emitFunction_fits (k := 0) hr₂ hdependents₂
    (hconfig ▸ MachineFunction.longPool_endsAt 8192) (by rw [hconfig]; decide)
    (by rw [hsize]; decide) (by rw [hsize]; decide) (by omega)
  refine ⟨hretries₁, hretries₂.trans (by decide +kernel), ?_⟩
  have hpool : em₂.config.poolAlignment = em₁.config.poolAlignment := by rw [hconfig]; rfl
  have hmin : em₂.config.minFunctionAlignment = em₁.config.minFunctionAlignment := by
    rw [hconfig]
    rfl
  rcases emitFunction_transparent hr₁ hr₂ hpool hmin (by rw [hconfig]) hok₁ with
    hagree | ⟨e, hmemory⟩ | ⟨dependent, hexecutable⟩
  · exact hagree
  · rw [hok₂] at hmemory
    cases hmemory
  · rw [hok₂] at hexecutable
    cases hexecutable

end Emitter

end CodeEmission
