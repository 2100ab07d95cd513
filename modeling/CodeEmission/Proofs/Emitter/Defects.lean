import CodeEmission.Proofs.Emitter.Retries
import CodeEmission.Proofs.Layout.Defects
import CodeEmission.Proofs.Versions.Resolvable

/-! # The size of the first buffer

Whether a function can be emitted does not depend on the size of the buffer that is tried first, and
neither does the error, except for functions with two defects of which a small buffer finds only one.
Their first layout is also the last, so the first buffer decides which of the two is reported.
-/

namespace CodeEmission

/-- An operation has failed because the host has refused a block. -/
def Failure.OutOfMemory (failure : Failure) : Prop := ∃ e, failure.cause = .memory e

namespace MachineFunction

/-- A function with a malformed constant, in a pool of 4100 bytes, and tables of a form that is
refused. -/
def mixedDefects : MachineFunction where
  id := ⟨0⟩
  name := "f"
  constantPool := [⟨.constant (.int .i8 1), 1⟩, ⟨.constant (.int .f32 1), 4096⟩]
  jumpTables := some { kind := .gpRel64BlockAddress, tables := [⟨[⟨0⟩]⟩] }
  blocks := [{ number := ⟨0⟩, insts := [.ret] }]

namespace TwiceDefective

variable {f : MachineFunction} {e tables : EmitError} {capacity : Nat}

theorem reported_ne_memory (h : f.TwiceDefective e tables) (reason : MemoryError) :
    f.reported e tables capacity ≠ .memory reason := by
  obtain ⟨_, rfl⟩ := ConstantPool.malformed_of_planFrom h.malformed
  unfold reported
  rcases tablesDefect?_cases h.tables with rfl | rfl <;> split <;> nofun

end TwiceDefective

end MachineFunction

namespace Host

variable {size : Nat}

theorem map_of_roundToPages_le (host : Host) (h0 : 0 < size)
    (hle : roundToPages size ≤ maxBlockSize) :
    ∃ block host', host.map size = .ok (block, host') ∧ block.size = roundToPages size := by
  have hround : size + (pageSize - 1) ≤ Word.largest := by
    have hsize := Emitter.le_roundToPages size
    simp only [maxBlockSize, pageSize, Word.largest, Word.modulus] at *
    omega
  have hmap := host.map_of_le h0 hround
  rwa [if_neg (Nat.not_lt_of_le hle)] at hmap

theorem map_of_lt_roundToPages (host : Host) (hlt : maxBlockSize < roundToPages size) :
    ∃ e, host.map size = .error e := by
  unfold map
  split
  · exact ⟨_, rfl⟩
  · exact ⟨_, dif_pos hlt⟩

end Host

namespace Emitter

variable {em em' em₁ em₂ : Emitter} {f : MachineFunction} {e : EmitError} {ids : List FuncId}
  {tables : EmitError} {failure failure' : Failure}

theorem exists_check_error (em : Emitter) (e : EmitError) :
    ∃ failure, (em.check (.error e) : Except Failure UInt64) = .error failure := by
  unfold check
  dsimp only
  split <;> exact ⟨_, rfl⟩

theorem attempt_of_raises {size : Nat} {block : Block} {host : Host}
    (h : em.host.map size = .ok (block, host))
    (hlay : Draft.Raises (Draft.layOut em.target em.config f { block }) e) :
    ∃ em' : Emitter, em.SameSetting em' ∧ em.attempt f size = (em', .error e) := by
  obtain ⟨failure, hlay, rfl⟩ := hlay
  refine ⟨({ em with host }).reportAll failure.log, ⟨rfl, rfl, rfl, rfl⟩, ?_⟩
  rw [attempt_of_map h, hlay]

theorem roundToPages_nextSize (h : em.Reachable) :
    Host.roundToPages em.nextSize = em.firstSize := by
  rw [h.nextSize]
  rfl

/-- If the host has no block of the first size, memory is short whatever is emitted. -/
theorem emitFunction_of_lt_firstSize (h : em.Reachable) (hids : em.patchedDependents f.id = .ok ids)
    (hlt : Host.maxBlockSize < em.firstSize) :
    ∃ reason, (em.emitFunction f).2 = .error (.error (.memory reason)) := by
  rw [← roundToPages_nextSize h] at hlt
  obtain ⟨reason, hmap⟩ := em.host.map_of_lt_roundToPages hlt
  refine ⟨reason, ?_⟩
  rw [emitFunction_of_attempt hids (attempt_of_map_error hmap)]
  exact check_memory _ _

theorem firstSize_le_of_failure (h : em.Reachable) (hids : em.patchedDependents f.id = .ok ids)
    (hfail : (em.emitFunction f).2 = .error failure) (hmemory : ¬failure.OutOfMemory) :
    em.firstSize ≤ Host.maxBlockSize := by
  by_contra hlt
  obtain ⟨reason, hrefused⟩ := emitFunction_of_lt_firstSize h hids (Nat.lt_of_not_le hlt)
  rw [hfail] at hrefused
  cases hrefused
  exact hmemory ⟨reason, rfl⟩

/-- Of a function with two defects the one is reported that the first block finds. -/
theorem emitFunction_of_twiceDefective (hf : f.TwiceDefective e tables) (h : em.Reachable)
    (hids : em.patchedDependents f.id = .ok ids) (hle : em.firstSize ≤ Host.maxBlockSize) :
    (em.emitFunction f).2 = em.check (.error (f.reported e tables em.firstSize)) := by
  have hpos : 0 < em.nextSize := by
    rw [h.nextSize]
    omega
  rw [← roundToPages_nextSize h] at hle
  obtain ⟨block, host, hmap, hsize⟩ := em.host.map_of_roundToPages_le hpos hle
  have hfresh := Host.fresh_of_map hmap
  have hcapacity : CodeBuffer.capacity { block } = em.firstSize :=
    hsize.trans (roundToPages_nextSize h)
  have hraises : Draft.Raises (Draft.layOut em.target em.config f { block })
      (f.reported e tables em.firstSize) := by
    rw [h.target, ← hcapacity]
    exact Draft.layOut_raises_of_twiceDefective hf hfresh.intact
      (congrArg Array.size hfresh.contents)
  have hmap' : (em.report (.emitting f.name f.id)).host.map em.nextSize = .ok (block, host) := hmap
  obtain ⟨em', hset, hattempt⟩ := attempt_of_raises hmap' hraises
  rw [emitFunction_of_attempt hids hattempt]
  dsimp only
  refine check_congr ?_ _
  rw [(settle_setting em' ids _).config, hset.config]
  rfl

theorem exists_raises_of_emitFunction (hids : em.patchedDependents f.id = .ok ids)
    (h : (em.emitFunction f).2 = .error failure) (hmemory : ¬failure.OutOfMemory) :
    ∃ block e, block.Fresh ∧ Draft.Raises (Draft.layOut em.target em.config f { block }) e ∧
      em.check (.error e : Except EmitError UInt64) = .error failure := by
  obtain ⟨result, he, hresult⟩ := emitFunction_emission hids
  rw [h] at hresult
  have ho := he.outcome
  cases ho with
  | committed => cases hresult
  | refused _ =>
    rw [check_memory] at hresult
    cases hresult
    exact absurd ⟨_, rfl⟩ hmemory
  | failed fresh laidOut _ => exact ⟨_, _, fresh, ⟨_, laidOut, rfl⟩, hresult.symm⟩
  | cutOff fresh raises _ _ => exact ⟨_, _, fresh, raises, hresult.symm⟩

/-- A function that an emitter has refused is never emitted by one with the same alignments. -/
theorem not_emitted_of_raises {address : UInt64} {block : Block} (htarget : em₁.target = em₂.target)
    (hpool : em₁.config.poolAlignment = em₂.config.poolAlignment)
    (hmin : em₁.config.minFunctionAlignment = em₂.config.minFunctionAlignment)
    (hfresh : block.Fresh)
    (h : Draft.Raises (Draft.layOut em₁.target em₁.config f { block }) e) :
    (em₂.emitFunction f).2 ≠ .ok address := by
  intro hok
  obtain ⟨block', d, hfresh', hlay, hfits, -⟩ := committed_of_emitFunction hok
  obtain ⟨c, hc, -⟩ := Draft.layOut_follows hpool hmin (hfresh.follows hfresh'.contents)
    hfresh'.intact hlay (CodeBuffer.overflow_of_exhausted hfits)
  rw [htarget, hc] at h
  exact Draft.not_raises_ok _ _ h

/-- Two emitters with the same policy report the same error of a function with no two such defects,
wherever both fail and not for want of memory. -/
theorem failure_eq_of_not_twiceDefective (h₁ : em₁.Reachable) (h₂ : em₂.Reachable)
    (hids₁ : em₁.patchedDependents f.id = .ok ids) (hids₂ : em₂.patchedDependents f.id = .ok ids)
    (hpolicy : em₂.config.abortOnInvariantViolation = em₁.config.abortOnInvariantViolation)
    (hf : ∀ e tables, ¬f.TwiceDefective e tables) (hfail₁ : (em₁.emitFunction f).2 = .error failure)
    (hfail₂ : (em₂.emitFunction f).2 = .error failure') (hmemory₁ : ¬failure.OutOfMemory)
    (hmemory₂ : ¬failure'.OutOfMemory) : failure' = failure := by
  obtain ⟨block₁, e₁, hfresh₁, hraises₁, hcheck₁⟩ :=
    exists_raises_of_emitFunction hids₁ hfail₁ hmemory₁
  obtain ⟨block₂, e₂, hfresh₂, hraises₂, hcheck₂⟩ :=
    exists_raises_of_emitFunction hids₂ hfail₂ hmemory₂
  rw [h₁.target] at hraises₁
  rw [h₂.target] at hraises₂
  obtain rfl : e₁ = e₂ := Draft.layOut_raised_eq hf hfresh₁.intact
    (congrArg Array.size hfresh₁.contents) hfresh₁.size_le hfresh₂.intact
    (congrArg Array.size hfresh₂.contents) hfresh₂.size_le hraises₁ hraises₂
  rw [check_congr hpolicy, hcheck₁] at hcheck₂
  exact (Except.error.inj hcheck₂).symm

theorem exists_failure_of_not_twiceDefective {size : UInt64} (h₁ : em₁.Reachable)
    (h₂ : em₂.Reachable) (hids₁ : em₁.patchedDependents f.id = .ok ids)
    (hids₂ : em₂.patchedDependents f.id = .ok ids)
    (hconfig : em₂.config = { em₁.config with initialBufferSize := size })
    (hf : ∀ e tables, ¬f.TwiceDefective e tables) (hfail : (em₁.emitFunction f).2 = .error failure)
    (hmemory : ¬failure.OutOfMemory) :
    ∃ failure', (em₂.emitFunction f).2 = .error failure' ∧
      (failure' = failure ∨ failure'.OutOfMemory) := by
  obtain ⟨block, e, hfresh, hraises, _⟩ := exists_raises_of_emitFunction hids₁ hfail hmemory
  cases hreply : (em₂.emitFunction f).2 with
  | ok address =>
    refine absurd hreply (not_emitted_of_raises (h₁.target.trans h₂.target.symm) ?_ ?_ hfresh
      hraises) <;> rw [hconfig]
  | error failure' =>
    refine ⟨failure', rfl, ?_⟩
    by_cases hmemory' : failure'.OutOfMemory
    · exact .inr hmemory'
    · have hpolicy : em₂.config.abortOnInvariantViolation =
          em₁.config.abortOnInvariantViolation := by rw [hconfig]
      exact .inl (failure_eq_of_not_twiceDefective h₁ h₂ hids₁ hids₂ hpolicy hf hfail hreply
        hmemory hmemory')

/-- Two emitters with the same policy report the same error of a function with two defects if and
only if their first blocks find the same one. -/
theorem failure_eq_iff_of_twiceDefective (hf : f.TwiceDefective e tables)
    (hpolicy : em₂.config.abortOnInvariantViolation = em₁.config.abortOnInvariantViolation)
    (hfail₁ : em₁.check (.error (f.reported e tables em₁.firstSize) : Except EmitError UInt64) =
      .error failure)
    (hfail₂ : em₂.check (.error (f.reported e tables em₂.firstSize) : Except EmitError UInt64) =
      .error failure') :
    failure' = failure ↔ (f.poolSize < em₁.firstSize ↔ f.poolSize < em₂.firstSize) := by
  rw [← hf.reported_eq_iff]
  constructor
  · rintro rfl
    rw [← cause_of_check hfail₁, ← cause_of_check hfail₂]
  · intro heq
    rw [check_congr hpolicy, heq, hfail₁] at hfail₂
    exact (Except.error.inj hfail₂).symm

/-- Of two emitters that have done nothing yet and differ only in the size of the first buffer, the
second fails wherever the first does. It reports the same error or that memory is short, unless the
function has two defects, of which the first block of one emitter finds the one and that of the
other emitter the other. -/
theorem emitFunction_failure {module₁ module₂ : Module} {config : Config} {size : UInt64}
    {host₁ host₂ : Host} {sink₁ sink₂ : Sink} (h₁ : em₁ = new .x86_64 module₁ config host₁ sink₁)
    (h₂ : em₂ = new .x86_64 module₂ { config with initialBufferSize := size } host₂ sink₂)
    (hfail : (em₁.emitFunction f).2 = .error failure) (hmemory : ¬failure.OutOfMemory) :
    ∃ failure', (em₂.emitFunction f).2 = .error failure' ∧
      (failure' = failure ∨ failure'.OutOfMemory ↔ ¬((∃ e tables, f.TwiceDefective e tables) ∧
        em₂.firstSize ≤ Host.maxBlockSize ∧
          ¬(f.poolSize < em₁.firstSize ↔ f.poolSize < em₂.firstSize))) ∧
      ∀ e tables, f.TwiceDefective e tables → failure.cause = f.reported e tables em₁.firstSize ∧
        (failure'.cause = f.reported e tables em₂.firstSize ∨ failure'.OutOfMemory) := by
  have hr₁ : em₁.Reachable := ⟨_, _, _, _, [], h₁⟩
  have hr₂ : em₂.Reachable := ⟨_, _, _, _, [], h₂⟩
  have hids₁ : em₁.patchedDependents f.id = .ok [] := by
    rw [h₁]
    rfl
  have hids₂ : em₂.patchedDependents f.id = .ok [] := by
    rw [h₂]
    rfl
  have hconfig : em₂.config = { em₁.config with initialBufferSize := size } := by
    rw [h₁, h₂]
    rfl
  by_cases htwice : ∃ e tables, f.TwiceDefective e tables
  · obtain ⟨e, tables, hf⟩ := htwice
    have hle₁ := firstSize_le_of_failure hr₁ hids₁ hfail hmemory
    have hreply₁ := emitFunction_of_twiceDefective hf hr₁ hids₁ hle₁
    have hcause := cause_of_check (hreply₁.symm.trans hfail)
    by_cases hle₂ : em₂.firstSize ≤ Host.maxBlockSize
    · have hreply₂ := emitFunction_of_twiceDefective hf hr₂ hids₂ hle₂
      obtain ⟨failure', hfail'⟩ := exists_check_error em₂ (f.reported e tables em₂.firstSize)
      have hcause' := cause_of_check hfail'
      have hpolicy : em₂.config.abortOnInvariantViolation =
          em₁.config.abortOnInvariantViolation := by rw [hconfig]
      have hiff := failure_eq_iff_of_twiceDefective hf hpolicy (hreply₁.symm.trans hfail) hfail'
      have hmemory' : ¬failure'.OutOfMemory := by
        rintro ⟨reason, hreason⟩
        exact hf.reported_ne_memory reason (hcause'.symm.trans hreason)
      refine ⟨failure', hreply₂.trans hfail', ?_, ?_⟩
      · rw [hiff]
        have hexists : ∃ e tables, f.TwiceDefective e tables := ⟨e, tables, hf⟩
        simp only [hmemory', hexists, hle₂, or_false, true_and, not_not]
      · intro e' tables' hf'
        obtain ⟨rfl, rfl⟩ := hf'.unique hf
        exact ⟨hcause, .inl hcause'⟩
    · obtain ⟨reason, hrefused⟩ := emitFunction_of_lt_firstSize hr₂ hids₂ (Nat.lt_of_not_le hle₂)
      have hmemory' : Failure.OutOfMemory (.error (.memory reason)) := ⟨reason, rfl⟩
      refine ⟨_, hrefused, ?_, ?_⟩
      · simp only [hmemory', hle₂, or_true, false_and, and_false, not_false_eq_true]
      · intro e' tables' hf'
        obtain ⟨rfl, rfl⟩ := hf'.unique hf
        exact ⟨hcause, .inr hmemory'⟩
  · have hf : ∀ e tables, ¬f.TwiceDefective e tables := by simpa using htwice
    obtain ⟨failure', hreply₂, hsame⟩ := exists_failure_of_not_twiceDefective hr₁ hr₂ hids₁ hids₂
      hconfig hf hfail hmemory
    refine ⟨failure', hreply₂, ?_, fun e tables hf' => absurd hf' (hf e tables)⟩
    simp only [htwice, false_and, not_false_eq_true, iff_true]
    exact hsame

theorem emitFunction_failure_larger :
    let em₁ := new .x86_64 {} {} {}
    let em₂ := new .x86_64 {} { initialBufferSize := 8192 } {}
    let f := MachineFunction.mixedDefects
    let failure : Failure := .error (.unsupportedJumpTable .gpRel64BlockAddress)
    ∃ failure', (em₂.emitFunction f).2 = .error failure' ∧
      (failure' = failure ∨ failure'.OutOfMemory ↔ ¬((∃ e tables, f.TwiceDefective e tables) ∧
        em₂.firstSize ≤ Host.maxBlockSize ∧
          ¬(f.poolSize < em₁.firstSize ↔ f.poolSize < em₂.firstSize))) ∧
      ∀ e tables, f.TwiceDefective e tables → failure.cause = f.reported e tables em₁.firstSize ∧
        (failure'.cause = f.reported e tables em₂.firstSize ∨ failure'.OutOfMemory) := by
  intro em₁ em₂ f failure
  have hfail : (em₁.emitFunction f).2 = .error failure := by decide +kernel
  have h₂ : em₂ = new .x86_64 {} { ({} : Config) with initialBufferSize := 8192 } {} .log := rfl
  have hmemory : ¬failure.OutOfMemory := by
    rintro ⟨_, hcause⟩
    cases hcause
  exact emitFunction_failure (rfl : em₁ = new .x86_64 {} {} {} .log) h₂ hfail hmemory

/-- The default buffer has no room for the pool and reports the tables, while a larger one reports
the constant. -/
theorem emitFunction_failure_differs :
    let em₁ := new .x86_64 {} {} {}
    let em₂ := new .x86_64 {} { initialBufferSize := 8192 } {}
    let f := MachineFunction.mixedDefects
    let failure : Failure := .error (.unsupportedJumpTable .gpRel64BlockAddress)
    let failure' : Failure := .error (.malformedConstant (.notAnInteger .f32))
    (em₁.emitFunction f).2 = .error failure ∧ (em₂.emitFunction f).2 = .error failure' ∧
      failure' ≠ failure ∧ ¬failure.OutOfMemory ∧ ¬failure'.OutOfMemory ∧
      failure.cause.isInvariantViolation = false ∧ failure'.cause.isInvariantViolation = true := by
  intro em₁ em₂ f failure failure'
  have hf : f.TwiceDefective (.malformedConstant (.notAnInteger .f32))
      (.unsupportedJumpTable .gpRel64BlockAddress) := ⟨rfl, rfl, rfl, rfl⟩
  have hr₁ : em₁.Reachable := ⟨{}, {}, {}, .log, [], rfl⟩
  have hr₂ : em₂.Reachable := ⟨{}, { initialBufferSize := 8192 }, {}, .log, [], rfl⟩
  have hreply₁ := emitFunction_of_twiceDefective hf hr₁ rfl (by decide)
  have hreply₂ := emitFunction_of_twiceDefective hf hr₂ rfl (by decide)
  -- the pool takes 4100 bytes
  rw [MachineFunction.reported, if_neg (by decide)] at hreply₁
  rw [MachineFunction.reported, if_pos (by decide)] at hreply₂
  have hne : failure' ≠ failure := by simp [failure, failure']
  have hmemory : ¬failure.OutOfMemory := by
    rintro ⟨_, hcause⟩
    cases hcause
  have hmemory' : ¬failure'.OutOfMemory := by
    rintro ⟨_, hcause⟩
    cases hcause
  exact ⟨hreply₁, hreply₂, hne, hmemory, hmemory', rfl, rfl⟩

end Emitter

end CodeEmission
