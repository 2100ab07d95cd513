import CodeEmission.Proofs.Emitter.Runs
import CodeEmission.Proofs.Layout.Endings

/-! # Doubling the block

A function is tried in blocks of twice the size each time. All tests for an overflow made on the way
amount to one comparison of the block with the place where the function ends in a buffer that has
room for all of it.
-/

namespace CodeEmission

/-- Where the layout of a function ends in a buffer that has room for all of it. -/
def Draft.EndsAt (t : Target) (config : Config) (f : MachineFunction) (ending : Nat) : Prop :=
  ∃ capacity d, Draft.layOut t config f (.ofCapacity capacity) = .ok d ∧ d.buffer.overflow = none ∧
    d.offset = ending

variable {t : Target} {config : Config} {f : MachineFunction} {ending : Nat}

/-- In any block the function is laid out without an error, and the block counts as too small
exactly if the function reaches its end. -/
theorem Draft.EndsAt.layOut (h : Draft.EndsAt t config f ending) {block : Block}
    (hb : block.Fresh) :
    ∃ d, Draft.layOut t config f { block } = .ok d ∧
      (d.buffer.exhausted = true ↔ block.size ≤ ending) ∧ d.buffer.block.size = block.size := by
  obtain ⟨capacity, u, hu, ho, rfl⟩ := h
  have hfollows : CodeBuffer.Follows { block } (.ofCapacity capacity) := hb.follows rfl
  obtain ⟨d, hd, hdu⟩ :=
    Draft.layOut_follows rfl rfl hfollows (CodeBuffer.ofCapacity_intact capacity) hu ho
  have hsize : d.buffer.capacity = block.size := (Draft.layOut_grows hd).capacity
  refine ⟨d, hd, ?_, hsize⟩
  rw [hdu.buffer.exhausted_iff, hsize]
  exact Iff.rfl

theorem MachineFunction.Faultless.endsAt (hf : f.Faultless)
    (hsmall : f.codeStart config + f.encode.length < Word.largest) :
    Draft.EndsAt .x86_64 config f (f.codeStart config + f.encode.length) := by
  have hcap : (CodeBuffer.ofCapacity Word.largest).capacity = Word.largest := Nat.min_self _
  obtain ⟨d, hd, ho, hend⟩ := Draft.exists_layOut hf (CodeBuffer.ofCapacity_intact Word.largest) rfl
    (hsmall.trans_eq hcap.symm)
  exact ⟨Word.largest, d, hd, ho, hend⟩

/-- Two instructions behind a pool that leaves no room for them in a page. -/
def MachineFunction.longPool : MachineFunction where
  id := ⟨0⟩
  name := "f"
  constantPool := [⟨.constant (.zero (.array .i8 5000)), 8⟩]
  blocks := [{ number := ⟨0⟩, insts := [.nop, .ret] }]

theorem MachineFunction.longPool_faultless : longPool.Faultless where
  constants := rfl
  sized := by decide
  planned := by decide
  tables := rfl
  blocks := by decide
  labels := by decide

theorem MachineFunction.longPool_endsAt (size : UInt64) :
    Draft.EndsAt .x86_64 { initialBufferSize := size } longPool 5002 := by
  have hstart : longPool.codeStart { initialBufferSize := size } = longPool.codeStart {} := rfl
  have hend : longPool.codeStart {} + longPool.encode.length = 5002 := by decide
  rw [← hend, ← hstart]
  refine longPool_faultless.endsAt ?_
  rw [hstart, hend]
  decide

namespace Emitter

variable {em : Emitter} {size : Nat}

/-- One attempt: it is refused, or commits, or leads to an attempt in a block of twice the size. -/
theorem attempt_step (hf : Draft.EndsAt em.target em.config f ending) (hpos : 0 < size)
    (hround : size + (Host.pageSize - 1) ≤ Word.largest) :
    if Host.maxBlockSize < Host.roundToPages size then
      em.attempt f size = (em, .error (.memory .allocationFailed))
    else if ending < Host.roundToPages size then
      ∃ (em' : Emitter) (address : UInt64) (r : FunctionRecord),
        em.attempt f size = (em', .ok address) ∧ em'.function? f.id = some r ∧
          r.block.size = Host.roundToPages size ∧ em'.stats.retries = em.stats.retries
    else
      ∃ em' : Emitter, em.attempt f size = em'.attempt f (Host.roundToPages size * 2) ∧
        em'.target = em.target ∧ em'.config = em.config ∧
        em'.stats.retries = em.stats.retries + 1 := by
  have hmap := Host.map_of_le em.host hpos hround
  split
  · rename_i hlarge
    rw [if_pos hlarge] at hmap
    exact attempt_of_map_error hmap
  · rename_i hle
    rw [if_neg hle] at hmap
    obtain ⟨block, host, hblock, hsize⟩ := hmap
    obtain ⟨d, hd, hex, hdsize⟩ := hf.layOut (Host.fresh_of_map hblock)
    rw [hsize] at hex
    obtain ⟨em₁, hset, hstats, hattempt⟩ := attempt_of_layOut hblock hd
    rw [hattempt, hsize]
    split
    · rename_i hlt
      rw [if_neg (by rw [hex]; exact Nat.not_le_of_lt hlt)]
      refine ⟨_, _, d.commit f.id, rfl, ?_, hdsize.trans hsize, ?_⟩
      · exact (commit_function? em₁ f d f.id).trans (if_pos rfl)
      · rw [commit_retries, hstats]
    · rename_i hge
      rw [if_pos (hex.2 (Nat.le_of_not_lt hge))]
      refine ⟨em₁.discard f (Host.roundToPages size), rfl, hset.target, hset.config, ?_⟩
      rw [← hstats]
      rfl

theorem next_request {n : Nat} (h : ¬Host.maxBlockSize < n) (hn : 0 < n) :
    0 < n * 2 ∧ n * 2 + (Host.pageSize - 1) ≤ Word.largest := by
  simp only [Host.maxBlockSize] at h
  simp only [Host.pageSize, Word.largest, Word.modulus]
  omega

theorem doubled_request (size k : Nat) :
    Host.roundToPages (Host.roundToPages size * 2) * 2 ^ k =
      Host.roundToPages size * 2 ^ (k + 1) := by
  rw [Host.roundToPages_mul size 2, pow_succ, Nat.mul_assoc, Nat.mul_comm 2]

/-- The attempts end with the first block that is larger than the function. -/
theorem attempt_fits {k : Nat} (hf : Draft.EndsAt em.target em.config f ending) (hpos : 0 < size)
    (hround : size + (Host.pageSize - 1) ≤ Word.largest)
    (hlt : ending < Host.roundToPages size * 2 ^ k)
    (hmax : Host.roundToPages size * 2 ^ k ≤ Host.maxBlockSize)
    (hleast : ∀ j < k, Host.roundToPages size * 2 ^ j ≤ ending) :
    ∃ (em' : Emitter) (address : UInt64) (r : FunctionRecord),
      em.attempt f size = (em', .ok address) ∧ em'.function? f.id = some r ∧
        r.block.size = Host.roundToPages size * 2 ^ k ∧
        em'.stats.retries = em.stats.retries + k := by
  have hP := Host.roundToPages_pos hpos
  induction k generalizing em size with
  | zero =>
    rw [pow_zero, Nat.mul_one] at hlt hmax ⊢
    have hstep := attempt_step hf hpos hround
    rwa [if_neg (Nat.not_lt_of_le hmax), if_pos hlt] at hstep
  | succ k ih =>
    have hle : ¬Host.maxBlockSize < Host.roundToPages size := by
      have hone : Host.roundToPages size ≤ Host.roundToPages size * 2 ^ (k + 1) :=
        Nat.le_mul_of_pos_right _ (Nat.two_pow_pos _)
      exact Nat.not_lt_of_le (hone.trans hmax)
    have hge : ¬ending < Host.roundToPages size := by
      have h0 := hleast 0 (Nat.succ_pos k)
      rw [pow_zero, Nat.mul_one] at h0
      exact Nat.not_lt_of_le h0
    have hstep := attempt_step hf hpos hround
    rw [if_neg hle, if_neg hge] at hstep
    obtain ⟨em₁, hattempt, htarget, hconfig, hretries⟩ := hstep
    obtain ⟨hpos', hround'⟩ := next_request hle hP
    rw [← htarget, ← hconfig] at hf
    obtain ⟨em', address, r, he, hr, hsize, hcount⟩ := ih hf hpos' hround'
      (by rwa [doubled_request]) (by rwa [doubled_request])
      (fun j hj => by rw [doubled_request]; exact hleast (j + 1) (Nat.succ_lt_succ hj))
      (Host.roundToPages_pos hpos')
    refine ⟨em', address, r, hattempt.trans he, hr, hsize.trans (doubled_request size k), ?_⟩
    rw [hcount, hretries, Nat.add_assoc, Nat.add_comm 1]

/-- If no block is larger than the function, the attempts end when the host refuses one. -/
theorem attempt_refused {n : Nat} (hf : Draft.EndsAt em.target em.config f ending) (hpos : 0 < size)
    (hround : size + (Host.pageSize - 1) ≤ Word.largest)
    (hlarge : Host.maxBlockSize < Host.roundToPages size * 2 ^ n)
    (hnone : ∀ k, ending < Host.roundToPages size * 2 ^ k →
      Host.maxBlockSize < Host.roundToPages size * 2 ^ k) :
    ∃ em' : Emitter, em.attempt f size = (em', .error (.memory .allocationFailed)) := by
  have hP := Host.roundToPages_pos hpos
  induction n generalizing em size with
  | zero =>
    rw [pow_zero, Nat.mul_one] at hlarge
    have hstep := attempt_step hf hpos hround
    rw [if_pos hlarge] at hstep
    exact ⟨em, hstep⟩
  | succ n ih =>
    have hstep := attempt_step hf hpos hround
    by_cases hle : Host.maxBlockSize < Host.roundToPages size
    · rw [if_pos hle] at hstep
      exact ⟨em, hstep⟩
    · have hge : ¬ending < Host.roundToPages size := by
        intro hlt
        have h0 := hnone 0
        rw [pow_zero, Nat.mul_one] at h0
        exact hle (h0 hlt)
      rw [if_neg hle, if_neg hge] at hstep
      obtain ⟨em₁, hattempt, htarget, hconfig, _⟩ := hstep
      obtain ⟨hpos', hround'⟩ := next_request hle hP
      rw [← htarget, ← hconfig] at hf
      obtain ⟨em', he⟩ := ih hf hpos' hround' (by rwa [doubled_request])
        (fun k hk => by rw [doubled_request] at hk ⊢; exact hnone (k + 1) hk)
        (Host.roundToPages_pos hpos')
      exact ⟨em', hattempt.trans he⟩

def firstSize (em : Emitter) : Nat := Host.roundToPages (max em.config.initialBufferSize.toNat 1)

section

variable {dependents : List FuncId}

theorem emitFunction_fits {k : Nat} (hr : em.Reachable)
    (hdependents : em.patchedDependents f.id = .ok dependents)
    (hending : Draft.EndsAt .x86_64 em.config f ending)
    (hround : max em.config.initialBufferSize.toNat 1 + (Host.pageSize - 1) ≤ Word.largest)
    (hlt : ending < em.firstSize * 2 ^ k) (hmax : em.firstSize * 2 ^ k ≤ Host.maxBlockSize)
    (hleast : ∀ j < k, em.firstSize * 2 ^ j ≤ ending) :
    (∃ address, (em.emitFunction f).2 = .ok address) ∧
      ∃ r, (em.emitFunction f).1.function? f.id = some r ∧
        r.block.size = em.firstSize * 2 ^ k ∧
        (em.emitFunction f).1.stats.retries = em.stats.retries + k := by
  rw [← hr.target] at hending
  have hstart : Draft.EndsAt (em.report (.emitting f.name f.id)).target
      (em.report (.emitting f.name f.id)).config f ending := hending
  have hpos : 0 < max em.config.initialBufferSize.toNat 1 :=
    Nat.one_pos.trans_le (le_max_right _ _)
  obtain ⟨em', address, r, he, hfound, hsize, hretries⟩ :=
    attempt_fits hstart hpos hround hlt hmax hleast
  rw [← hr.nextSize] at he
  rw [emitFunction_of_attempt hdependents he]
  refine ⟨⟨address, rfl⟩, r, ?_, hsize, ?_⟩
  · rw [settle_function?, if_neg (not_mem_outdated hdependents _), hfound]
  · rw [settle_stats, hretries]
    rfl

theorem emitFunction_refused (hr : em.Reachable)
    (hdependents : em.patchedDependents f.id = .ok dependents)
    (hending : Draft.EndsAt .x86_64 em.config f ending)
    (hround : max em.config.initialBufferSize.toNat 1 + (Host.pageSize - 1) ≤ Word.largest)
    (hnone : ¬∃ k, ending < em.firstSize * 2 ^ k ∧ em.firstSize * 2 ^ k ≤ Host.maxBlockSize) :
    (em.emitFunction f).2 = .error (.error (.memory .allocationFailed)) := by
  rw [← hr.target] at hending
  have hstart : Draft.EndsAt (em.report (.emitting f.name f.id)).target
      (em.report (.emitting f.name f.id)).config f ending := hending
  have hpos : 0 < max em.config.initialBufferSize.toNat 1 :=
    Nat.one_pos.trans_le (le_max_right _ _)
  have hlarge : Host.maxBlockSize < em.firstSize * 2 ^ Host.maxBlockSize :=
    Nat.lt_two_pow_self.trans_le (Nat.le_mul_of_pos_left _ (Host.roundToPages_pos hpos))
  obtain ⟨em', he⟩ := attempt_refused hstart hpos hround hlarge fun k hk =>
    Nat.lt_of_not_le fun hle => hnone ⟨k, hk, hle⟩
  rw [← hr.nextSize] at he
  rw [emitFunction_of_attempt hdependents he]
  exact check_memory _ _

end

end Emitter

end CodeEmission
