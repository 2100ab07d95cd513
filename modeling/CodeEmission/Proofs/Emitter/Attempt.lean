import CodeEmission.Emitter.Emission
import CodeEmission.Proofs.Emitter.Dependents
import CodeEmission.Proofs.Layout.Errors

/-! # Attempts

What comes of the attempts to emit a function, however many there are: a draft that fits into a new
block is committed, the host refuses a block, a draft raises an error, or the first draft is cut off.
Nothing but the entry of the function in the table and some counts changes on the way.
-/

namespace CodeEmission

/-- A writable block of whole pages that nothing has been written to. -/
structure Block.Fresh (b : Block) : Prop where
  contents : b.contents = #[]
  writable : b.executable = false
  size_le : b.size ≤ Host.maxBlockSize
  pages : Host.pageSize ∣ b.size

namespace Block.Fresh

variable {b c : Block}

theorem intact (h : b.Fresh) : CodeBuffer.Intact { block := b } :=
  CodeBuffer.intact_of_block h.writable

theorem follows (h : b.Fresh) (hc : c.contents = #[]) :
    CodeBuffer.Follows { block := b } { block := c } :=
  .same h.intact (h.contents.trans hc.symm)

theorem lt_modulus (h : b.Fresh) : b.size < Word.modulus := h.size_le.trans_lt (by decide)

end Block.Fresh

namespace Host

variable {host host' : Host} {size : Nat} {block : Block}

theorem fresh_of_map (h : host.map size = .ok (block, host')) : block.Fresh := by
  have hle := (Emitter.size_of_map h).2.2
  unfold map at h
  split at h
  · cases h
  · dsimp only at h
    split at h
    · cases h
    · cases h
      exact ⟨rfl, rfl, hle, Nat.dvd_mul_left _ _⟩

theorem map_of_le (host : Host) (h0 : 0 < size) (h1 : size + (pageSize - 1) ≤ Word.largest) :
    if maxBlockSize < roundToPages size then host.map size = .error .allocationFailed
    else ∃ block host', host.map size = .ok (block, host') ∧ block.size = roundToPages size := by
  have hvalid : ¬(size = 0 ∨ Word.largest < size + (pageSize - 1)) := by omega
  unfold map
  rw [if_neg hvalid]
  dsimp only
  split
  · rfl
  · exact ⟨_, _, rfl, rfl⟩

theorem roundToPages_pos (h : 0 < size) : 0 < roundToPages size :=
  h.trans_le (Emitter.le_roundToPages size)

theorem roundToPages_mul (size n : Nat) :
    roundToPages (roundToPages size * n) = roundToPages size * n := by
  have hpages (m : Nat) : (m * pageSize + (pageSize - 1)) / pageSize * pageSize = m * pageSize := by
    simp only [pageSize]
    omega
  have heq : roundToPages size * n = (size + (pageSize - 1)) / pageSize * n * pageSize := by
    rw [roundToPages, Nat.mul_right_comm]
  rw [heq]
  exact hpages _

end Host

namespace Emitter

variable {em em' em'' : Emitter} {f : MachineFunction}

/-- How the attempts to emit a function can end. After a failure the function has its old version,
or none if a draft was thrown away. -/
inductive Outcome (em : Emitter) (f : MachineFunction) (em' : Emitter) :
    Except EmitError UInt64 → Prop
  | committed {block : Block} {d : Draft} (fresh : block.Fresh)
      (laidOut : Draft.layOut em.target em.config f { block } = .ok d)
      (fits : d.buffer.exhausted = false) (found : em'.function? f.id = some (d.commit f.id))
      (estimate : em'.sizeEstimate = 0) : Outcome em f em' (.ok (d.commit f.id).codeAddress)
  | refused {e : MemoryError}
      (dropped : em'.function? f.id = none ∨ em'.function? f.id = em.function? f.id) :
      Outcome em f em' (.error (.memory e))
  | failed {block : Block} {failure : DraftFailure} (fresh : block.Fresh)
      (laidOut : Draft.layOut em.target em.config f { block } = .error failure)
      (returned : ∀ step, failure.error ≠ .crash step)
      (dropped : em'.function? f.id = none ∨ em'.function? f.id = em.function? f.id) :
      Outcome em f em' (.error failure.error)
  | cutOff {block : Block} {step : Crash} (fresh : block.Fresh)
      (raises : Draft.Raises (Draft.layOut em.target em.config f { block }) (.crash step))
      (functions : em'.functions = em.functions) (estimate : em'.sizeEstimate = em.sizeEstimate) :
      Outcome em f em' (.error (.crash step))

structure Attempted (em : Emitter) (f : MachineFunction) (em' : Emitter)
    (result : Except EmitError UInt64) : Prop where
  setting : em.SameSetting em'
  others : ∀ id, id ≠ f.id → em'.function? id = em.function? id
  outcome : em.Outcome f em' result

theorem discard_function? (em : Emitter) (f : MachineFunction) (capacity : Nat) (id : FuncId) :
    (em.discard f capacity).function? id = if f.id = id then none else em.function? id :=
  IdMap.get?_erase em.functions f.id id

theorem commit_functions (em : Emitter) (f : MachineFunction) (d : Draft) :
    (em.commit f d).1.functions = em.functions.insert f.id (d.commit f.id) := by
  unfold commit
  dsimp only
  split <;> rfl

theorem commit_function? (em : Emitter) (f : MachineFunction) (d : Draft) (id : FuncId) :
    (em.commit f d).1.function? id =
      if f.id = id then some (d.commit f.id) else em.function? id := by
  rw [function?, commit_functions, IdMap.get?_insert]
  rfl

theorem commit_setting (em : Emitter) (f : MachineFunction) (d : Draft) :
    em.SameSetting (em.commit f d).1 := by
  unfold commit
  dsimp only
  split <;> exact ⟨rfl, rfl, rfl, rfl⟩

theorem commit_retries (em : Emitter) (f : MachineFunction) (d : Draft) :
    (em.commit f d).1.stats.retries = em.stats.retries := by
  unfold commit
  dsimp only
  split <;> rfl

theorem attempt_of_map_error {size : Nat} {e : MemoryError} (h : em.host.map size = .error e) :
    em.attempt f size = (em, .error (.memory e)) := by
  rw [attempt]
  split
  · rename_i he
    rw [h] at he
    cases he
    rfl
  · rename_i hok
    rw [h] at hok
    cases hok

/-- What becomes of the block that is mapped first. -/
theorem attempt_of_map {size : Nat} {block : Block} {host : Host}
    (h : em.host.map size = .ok (block, host)) :
    em.attempt f size =
      match Draft.layOut em.target em.config f { block } with
      | .error failure => (({ em with host }).reportAll failure.log, .error failure.error)
      | .ok d =>
        if d.buffer.exhausted then
          ((({ em with host }).reportAll d.events).discard f block.size).attempt f
            (Word.mulSat block.size 2)
        else
          (((({ em with host }).reportAll d.events).commit f d).1,
            .ok ((({ em with host }).reportAll d.events).commit f d).2) := by
  rw [attempt]
  split
  · rename_i he
    rw [h] at he
    cases he
  · rename_i hok
    rw [h] at hok
    cases hok
    rfl

/-- A draft without an error is thrown away if it does not fit, and committed otherwise. -/
theorem attempt_of_layOut {size : Nat} {block : Block} {host : Host} {d : Draft}
    (h : em.host.map size = .ok (block, host))
    (hd : Draft.layOut em.target em.config f { block } = .ok d) :
    ∃ em' : Emitter, em.SameSetting em' ∧ em'.stats = em.stats ∧ em.attempt f size =
      if d.buffer.exhausted then (em'.discard f block.size).attempt f (block.size * 2)
      else ((em'.commit f d).1, .ok (em'.commit f d).2) := by
  refine ⟨({ em with host }).reportAll d.events, ⟨rfl, rfl, rfl, rfl⟩, rfl, ?_⟩
  rw [attempt_of_map h, hd, mulSat_of_map h]

theorem Outcome.not_crash {result : Except EmitError UInt64} {b : CodeBuffer} {d : Draft}
    (h : em.Outcome f em' result) (hd : Draft.layOut em.target em.config f b = .ok d)
    (step : Crash) : result ≠ .error (.crash step) := by
  intro hr
  cases h with
  | committed => cases hr
  | refused => cases hr
  | failed _ _ returned => exact returned step (Except.error.inj hr)
  | cutOff _ raises => exact Draft.layOut_not_crash hd raises

/-- What was done before the attempts may have dropped the function, but only if none of them is cut
off. -/
theorem Attempted.of_setting {result : Except EmitError UInt64} (hs : em.SameSetting em'')
    (hothers : ∀ id, id ≠ f.id → em''.function? id = em.function? id)
    (hold : em''.function? f.id = none ∨ em''.function? f.id = em.function? f.id)
    (hcrash : ∀ step, result = .error (.crash step) →
      em''.functions = em.functions ∧ em''.sizeEstimate = em.sizeEstimate)
    (h : em''.Attempted f em' result) : em.Attempted f em' result := by
  have hdropped (hd : em'.function? f.id = none ∨ em'.function? f.id = em''.function? f.id) :
      em'.function? f.id = none ∨ em'.function? f.id = em.function? f.id := by
    rcases hd with hd | hd
    · exact .inl hd
    · rwa [hd]
  refine ⟨hs.trans h.setting, fun id hid => (h.others id hid).trans (hothers id hid), ?_⟩
  have ho := h.outcome
  cases ho with
  | committed fresh laidOut fits found estimate =>
    rw [hs.target, hs.config] at laidOut
    exact .committed fresh laidOut fits found estimate
  | refused dropped => exact .refused (hdropped dropped)
  | failed fresh laidOut returned dropped =>
    rw [hs.target, hs.config] at laidOut
    exact .failed fresh laidOut returned (hdropped dropped)
  | cutOff fresh raises functions estimate =>
    rw [hs.target, hs.config] at raises
    obtain ⟨hfunctions, hestimate⟩ := hcrash _ rfl
    exact .cutOff fresh raises (functions.trans hfunctions) (estimate.trans hestimate)

theorem attempt_attempted (em : Emitter) (f : MachineFunction) (size : Nat) :
    em.Attempted f (em.attempt f size).1 (em.attempt f size).2 := by
  fun_induction attempt em f size with
  | case1 em size e hmap =>
    exact ⟨.refl em, fun _ _ => rfl, .refused (.inr rfl)⟩
  | case2 em size block host hmap em1 failure hlay =>
    refine ⟨⟨rfl, rfl, rfl, rfl⟩, fun _ _ => rfl, ?_⟩
    have hfresh := Host.fresh_of_map hmap
    by_cases hreturned : ∀ step, failure.error ≠ .crash step
    · exact .failed hfresh hlay hreturned (.inr rfl)
    · obtain ⟨step, hstep⟩ := not_forall_not.1 hreturned
      dsimp only
      rw [hstep]
      exact .cutOff hfresh ⟨failure, hlay, hstep⟩ rfl rfl
  | case3 em size block host hmap em1 d hlay em2 hex ih =>
    have hs : em.SameSetting (em2.discard f block.size) := ⟨rfl, rfl, rfl, rfl⟩
    refine ih.of_setting hs ?_ (.inl ?_) ?_
    · intro id hid
      rw [discard_function?, if_neg (Ne.symm hid)]
      rfl
    · rw [discard_function?, if_pos rfl]
    · intro step hstep
      exact absurd hstep (ih.outcome.not_crash hlay step)
  | case4 em size block host hmap em1 d hlay em2 hex em3 address hcommit =>
    have hset := commit_setting em2 f d
    have hfound := commit_function? em2 f d
    rw [hcommit] at hset hfound
    have haddress : (em2.commit f d).2 = (d.commit f.id).codeAddress := rfl
    rw [hcommit] at haddress
    have hestimate : (em2.commit f d).1.sizeEstimate = 0 := rfl
    rw [hcommit] at hestimate
    refine ⟨⟨hset.target, hset.module, hset.config, hset.arena⟩, ?_, ?_⟩
    · intro id hid
      rw [hfound id, if_neg (Ne.symm hid)]
      rfl
    · dsimp only at haddress ⊢
      rw [haddress]
      exact .committed (Host.fresh_of_map hmap) hlay (by simpa using hex)
        ((hfound f.id).trans (if_pos rfl)) hestimate

theorem attempt_ascending (h : em.functions.Ascending) (size : Nat) :
    (em.attempt f size).1.functions.Ascending := by
  fun_induction attempt em f size with
  | case1 => exact h
  | case2 => exact h
  | case3 em size block host hmap em1 d hlay em2 hex ih => exact ih (h.erase f.id)
  | case4 em size block host hmap em1 d hlay em2 hex em3 address hcommit =>
    have hfunctions := commit_functions em2 f d
    rw [hcommit] at hfunctions
    dsimp only at hfunctions ⊢
    rw [hfunctions]
    exact IdMap.Ascending.insert h f.id _

end Emitter

end CodeEmission
