import Mathlib.Algebra.Order.Ring.Nat
import Mathlib.Data.Nat.Find
import CodeEmission.Proofs.Emitter.Doubling

/-! # The number of retries

A function is emitted in the first block larger than it that comes from doubling, and it is refused
exactly if that block is larger than the host has.
-/

namespace CodeEmission.Emitter

variable {em : Emitter} {f : MachineFunction} {ending : Nat}

/-- Emitting a function whose layout ends at `ending` takes as many retries as it takes to double
the first block until it is larger than that, and fails only if the host has no block of that size. -/
theorem emitFunction_retries {dependents : List FuncId} (hr : em.Reachable)
    (hdependents : em.patchedDependents f.id = .ok dependents)
    (hending : Draft.EndsAt .x86_64 em.config f ending)
    (hround : max em.config.initialBufferSize.toNat 1 + (Host.pageSize - 1) ≤ Word.largest) :
    ((∃ address, (em.emitFunction f).2 = .ok address) ↔
        ∃ k, ending < em.firstSize * 2 ^ k ∧ em.firstSize * 2 ^ k ≤ Host.maxBlockSize) ∧
      (∀ k, ending < em.firstSize * 2 ^ k → em.firstSize * 2 ^ k ≤ Host.maxBlockSize →
        (∀ j < k, em.firstSize * 2 ^ j ≤ ending) →
          ∃ r, (em.emitFunction f).1.function? f.id = some r ∧
            r.block.size = em.firstSize * 2 ^ k ∧
            (em.emitFunction f).1.stats.retries = em.stats.retries + k) ∧
      ((¬∃ k, ending < em.firstSize * 2 ^ k ∧ em.firstSize * 2 ^ k ≤ Host.maxBlockSize) →
        (em.emitFunction f).2 = .error (.error (.memory .allocationFailed))) ∧
      (em.emitFunction f).1.sizeEstimate = 0 := by
  refine ⟨⟨?_, ?_⟩, ?_, emitFunction_refused hr hdependents hending hround,
    emitFunction_sizeEstimate f hr.sizeEstimate⟩
  · rintro ⟨address, hok⟩
    by_contra hnone
    rw [emitFunction_refused hr hdependents hending hround hnone] at hok
    cases hok
  · intro hex
    obtain ⟨hlt, hmax⟩ := Nat.find_spec hex
    refine (emitFunction_fits hr hdependents hending hround hlt hmax ?_).1
    intro j hj
    by_contra hlt'
    have hmono : em.firstSize * 2 ^ j ≤ em.firstSize * 2 ^ Nat.find hex :=
      Nat.mul_le_mul_left _ (Nat.pow_le_pow_right Nat.two_pos hj.le)
    exact Nat.find_min hex hj ⟨Nat.lt_of_not_le hlt', hmono.trans hmax⟩
  · intro k hlt hmax hleast
    exact (emitFunction_fits hr hdependents hending hround hlt hmax hleast).2

/-- The page of the first attempt is too small for the pool and the code, and two pages are not. -/
theorem emitFunction_retries_longPool :
    let em := new .x86_64 {} {} {}
    let f := MachineFunction.longPool
    (∃ address, (em.emitFunction f).2 = .ok address) ∧
      (∃ r, (em.emitFunction f).1.function? f.id = some r ∧ r.block.size = 8192 ∧
        (em.emitFunction f).1.stats.retries = 1) ∧
      (em.emitFunction f).1.sizeEstimate = 0 := by
  have hr : (new .x86_64 {} {} {}).Reachable := ⟨{}, {}, {}, .log, [], rfl⟩
  have hdependents : (new .x86_64 {} {} {}).patchedDependents ⟨0⟩ = .ok [] := rfl
  obtain ⟨hiff, hleast, -, hestimate⟩ := emitFunction_retries hr hdependents
    (MachineFunction.longPool_endsAt 4096) (by decide)
  refine ⟨hiff.2 ⟨1, by decide, by decide⟩, ?_, hestimate⟩
  exact hleast 1 (by decide) (by decide) (by decide)

end CodeEmission.Emitter
