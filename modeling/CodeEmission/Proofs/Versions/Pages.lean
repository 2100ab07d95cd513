import CodeEmission.Proofs.Resolution.Progress
import CodeEmission.Proofs.Versions.Retained

/-! # Blocks start at pages

A host whose next block is at a page hands out nothing else, because the size of every block is a
number of whole pages. So every committed function stands in a block that starts at a page.
-/

namespace CodeEmission

namespace Host

variable {host host' : Host} {size : Nat} {block : Block}

theorem pageSize_dvd_roundToPages (size : Nat) : pageSize ∣ roundToPages size :=
  Nat.dvd_mul_left _ _

theorem next_of_map (h : host.map size = .ok (block, host')) :
    block.address = host.place block.size ∧
      host'.nextBlock = block.address + UInt64.ofNat block.size ∧ pageSize ∣ block.size := by
  unfold map at h
  split at h
  · cases h
  · dsimp only at h
    split at h
    · cases h
    · cases h
      exact ⟨rfl, rfl, pageSize_dvd_roundToPages size⟩

theorem pageSize_dvd_place (hnext : pageSize ∣ host.nextBlock.toNat) (size : Nat) :
    pageSize ∣ (host.place size).toNat := by
  unfold place
  split
  · exact hnext
  · decide

theorem pageSize_dvd_of_map (h : host.map size = .ok (block, host'))
    (hnext : pageSize ∣ host.nextBlock.toNat) :
    pageSize ∣ block.address.toNat ∧ pageSize ∣ host'.nextBlock.toNat := by
  obtain ⟨haddress, hbehind, hpages⟩ := next_of_map h
  have hstart : pageSize ∣ block.address.toNat := by
    rw [haddress]
    exact pageSize_dvd_place hnext block.size
  have hword : pageSize ∣ 2 ^ 64 := by decide
  rw [hbehind, UInt64.toNat_add, UInt64.toNat_ofNat', Nat.dvd_mod_iff hword]
  exact ⟨hstart, Nat.dvd_add hstart ((Nat.dvd_mod_iff hword).2 hpages)⟩

end Host

namespace Emitter

variable {em em' : Emitter} {f : MachineFunction}

/-- The host goes on at a page, and the blocks of all functions start at pages. -/
structure OnPages (em : Emitter) : Prop where
  next : Host.pageSize ∣ em.host.nextBlock.toNat
  versions : ∀ id r, em.function? id = some r → Host.pageSize ∣ r.baseAddress.toNat

theorem OnPages.of_steps (h : em.OnPages) (hnext : Host.pageSize ∣ em'.host.nextBlock.toNat)
    (hsteps : ∀ id, em.Steps em' id ∨ em'.function? id = none) : em'.OnPages where
  next := hnext
  versions := by
    intro id r' hr'
    rcases hsteps id with hstep | hnone
    · unfold Steps at hstep
      rw [hr'] at hstep
      cases hr : em.function? id with
      | none =>
        rw [hr] at hstep
        cases hstep
      | some r =>
        rw [hr] at hstep
        cases hstep with
        | some hstep =>
          have haddress : r'.baseAddress = r.baseAddress := hstep.form.address
          rw [haddress]
          exact h.versions id r hr
    · rw [hr'] at hnone
      cases hnone

theorem commit_host (em : Emitter) (f : MachineFunction) (d : Draft) :
    (em.commit f d).1.host = em.host := by
  unfold commit
  dsimp only
  split <;> rfl

theorem settle_host (em : Emitter) (ids : List FuncId) (result : Except EmitError UInt64) :
    (em.settle ids result).host = em.host := by
  obtain ⟨functions, log, h⟩ := unresolveAll_eq em ids
  rcases em.settle_cases ids result with ⟨_, _, _, hs⟩ | ⟨_, _, _, hs⟩
  · rw [hs]
  · rw [hs, h]

theorem OnPages.attempt (h : em.OnPages) (f : MachineFunction) (size : Nat) :
    (em.attempt f size).1.OnPages := by
  fun_induction Emitter.attempt em f size with
  | case1 => exact h
  | case2 em size block host hmap em1 failure hlay =>
    exact ⟨(Host.pageSize_dvd_of_map hmap h.next).2, h.versions⟩
  | case3 em size block host hmap em1 d hlay em2 hex ih =>
    refine ih ⟨(Host.pageSize_dvd_of_map hmap h.next).2, ?_⟩
    intro id r hr
    rw [discard_function?] at hr
    split at hr
    · cases hr
    · exact h.versions id r hr
  | case4 em size block host hmap em1 d hlay em2 hex em3 address hcommit =>
    obtain ⟨hblock, hnext⟩ := Host.pageSize_dvd_of_map hmap h.next
    have hhost := commit_host em2 f d
    have hfound := commit_function? em2 f d
    rw [hcommit] at hhost hfound
    constructor
    · rw [hhost]
      exact hnext
    · intro id r hr
      rw [hfound] at hr
      split at hr
      · cases hr
        have haddress : (d.commit f.id).baseAddress = block.address :=
          (Draft.layOut_grows hlay).address
        rwa [haddress]
      · exact h.versions id r hr

theorem OnPages.emitFunction (h : em.OnPages) (f : MachineFunction) :
    (em.emitFunction f).1.OnPages := by
  cases hd : em.patchedDependents f.id with
  | error e =>
    rw [emitFunction_of_error hd]
    exact ⟨h.next, h.versions⟩
  | ok ids =>
    rw [emitFunction_of_attempt hd rfl]
    have hreport : (em.report (.emitting f.name f.id)).OnPages := ⟨h.next, h.versions⟩
    have hattempt := hreport.attempt f em.nextSize
    constructor
    · rw [settle_host]
      exact hattempt.next
    · intro id r hr
      rw [settle_function?] at hr
      split at hr
      · obtain ⟨s, hs, rfl⟩ := Option.map_eq_some_iff.1 hr
        exact hattempt.versions id s hs
      · exact hattempt.versions id r hr

theorem resolveRelocations_host (h : em.Reachable) : em.resolveRelocations.1.host = em.host := by
  rw [resolveRelocations_fst]
  cases hpass : em.resolveEach em.pending with
  | mk em' fault =>
    cases h.sound.pass hpass with
    | through passed => exact passed.host
    | @ended _ _ id _ em₂ _ e _ _ _ _ _ passed =>
      exact (afterFault_sameNames em₂ id (some e)).host.trans passed.host

theorem deallocate_host (em : Emitter) (id : FuncId) : (em.deallocate id).1.host = em.host := by
  cases hd : em.patchedDependents id with
  | error e =>
    rw [deallocate_of_error hd]
    rfl
  | ok ids =>
    obtain ⟨functions, log, heq⟩ := unresolveAll_eq (em.removed id) ids
    rw [deallocate_of_dependents hd, heq]
    rfl

theorem OnPages.perform (h : em.OnPages) (hreach : em.Reachable) (op : Operation) :
    (em.perform op).OnPages := by
  -- only an emission commits records
  have hkeeps (hop : ∀ f, op ≠ .emit f)
      (hnext : Host.pageSize ∣ (em.perform op).host.nextBlock.toNat) : (em.perform op).OnPages := by
    refine h.of_steps hnext ?_
    intro id
    rcases hreach.sound.perform_cases op id with hsteps | hnone | ⟨f, _, heq, _⟩
    · exact .inl hsteps
    · exact .inr hnone
    · exact absurd heq (hop f)
  cases op with
  | emit f => exact h.emitFunction f
  | deallocate id => exact hkeeps nofun ((deallocate_host em id).symm ▸ h.next)
  | resolve => exact hkeeps nofun ((resolveRelocations_host hreach).symm ▸ h.next)
  | globalAddress g => exact hkeeps nofun ((globalAddress_sameNames em g).host.symm ▸ h.next)
  | addGlobal g => exact hkeeps nofun h.next
  | addAlias a => exact hkeeps nofun h.next
  | defineSymbol name address => exact hkeeps nofun h.next
  | allocateSpace size alignment =>
    refine hkeeps nofun ?_
    unfold Emitter.perform allocateSpace
    dsimp only
    split
    · exact h.next
    split
    · exact h.next
    · rename_i hmap
      exact (Host.pageSize_dvd_of_map hmap h.next).2
  | makeExecutable id => exact hkeeps nofun h.next
  | setSink sink => exact hkeeps nofun h.next

theorem OnPages.run (h : em.OnPages) (hreach : em.Reachable) (ops : List Operation) :
    (em.run ops).OnPages := by
  induction ops generalizing em with
  | nil => exact h
  | cons op ops ih => exact ih (h.perform hreach op) (hreach.perform op)

theorem onPages_new {host : Host} (h : Host.pageSize ∣ host.nextBlock.toNat) (module : Module)
    (config : Config) (sink : Sink) : (new .x86_64 module config host sink).OnPages :=
  ⟨h, nofun⟩

end Emitter

end CodeEmission
