import CodeEmission.Proofs.Versions.Resolvable

/-! # What replacing or removing a function changes

Other functions notice that a function is replaced or removed only if they hold its address: then they
have to be patched again, and nothing else about them changes. An emission that fails leaves the old
version in place unless a draft was thrown away.
-/

namespace CodeEmission

theorem Module.reaches_of_leadsTo {m : Module} {id : FuncId} {steps : Nat} {g : GlobalRef}
    (h : m.leadsTo id steps g = true) : m.Reaches g (.function id) := by
  fun_induction leadsTo m id steps g with
  | case1 =>
    simp only [decide_eq_true_eq] at h
    subst h
    exact ⟨[], .arrived fun _ => by simp⟩
  | case2 => cases h
  | case3 => cases h
  | case4 steps a found hfound ih =>
    obtain ⟨as, has⟩ := ih h
    exact ⟨a :: as, .pass hfound has⟩
  | case5 => cases h

namespace Emitter

variable {em em' em'' : Emitter} {id j : FuncId} {ids : List FuncId} {r : FunctionRecord}
  {f : MachineFunction} {result : Except EmitError UInt64}

/-- Two states that differ at most in their functions, in counts of emissions, in what the host hands
out next and in what has been reported. -/
structure SameSurroundings (em em' : Emitter) : Prop extends SameSetting em em' where
  symbols : em'.symbols = em.symbols
  processSymbols : em'.host.processSymbols = em.host.processSymbols
  sink : em'.sink = em.sink
  shown : em'.shown = em.shown
  detached : em'.detached = em.detached
  resolved : em'.stats.resolved = em.stats.resolved

theorem SameSurroundings.refl (em : Emitter) : em.SameSurroundings em :=
  ⟨.refl em, rfl, rfl, rfl, rfl, rfl, rfl⟩

theorem SameSurroundings.trans (h : em.SameSurroundings em') (h' : em'.SameSurroundings em'') :
    em.SameSurroundings em'' where
  toSameSetting := h.toSameSetting.trans h'.toSameSetting
  symbols := h'.symbols.trans h.symbols
  processSymbols := h'.processSymbols.trans h.processSymbols
  sink := h'.sink.trans h.sink
  shown := h'.shown.trans h.shown
  detached := h'.detached.trans h.detached
  resolved := h'.resolved.trans h.resolved

theorem map_processSymbols {host host' : Host} {size : Nat} {block : Block}
    (h : host.map size = .ok (block, host')) : host'.processSymbols = host.processSymbols := by
  unfold Host.map at h
  split at h
  · cases h
  · dsimp only at h
    split at h
    · cases h
    · cases h
      rfl

theorem commit_surroundings (em : Emitter) (f : MachineFunction) (d : Draft) :
    em.SameSurroundings (em.commit f d).1 := by
  unfold commit
  dsimp only
  split
  · exact ⟨⟨rfl, rfl, rfl, rfl⟩, rfl, rfl, rfl, rfl, rfl, rfl⟩
  · exact ⟨⟨rfl, rfl, rfl, rfl⟩, rfl, rfl, rfl, rfl, rfl, rfl⟩

theorem attempt_surroundings (em : Emitter) (f : MachineFunction) (size : Nat) :
    em.SameSurroundings (em.attempt f size).1 := by
  fun_induction attempt em f size with
  | case1 => exact ⟨⟨rfl, rfl, rfl, rfl⟩, rfl, rfl, rfl, rfl, rfl, rfl⟩
  | case2 em size block host hmap em₁ failure hlay =>
    exact ⟨⟨rfl, rfl, rfl, rfl⟩, rfl, map_processSymbols hmap, rfl, rfl, rfl, rfl⟩
  | case3 em size block host hmap em₁ d hlay em₂ hex ih =>
    have hdiscard : em.SameSurroundings (em₂.discard f block.size) :=
      ⟨⟨rfl, rfl, rfl, rfl⟩, rfl, map_processSymbols hmap, rfl, rfl, rfl, rfl⟩
    exact hdiscard.trans ih
  | case4 em size block host hmap em₁ d hlay em₂ hex em₃ address hcommit =>
    have hlaid : em.SameSurroundings em₂ :=
      ⟨⟨rfl, rfl, rfl, rfl⟩, rfl, map_processSymbols hmap, rfl, rfl, rfl, rfl⟩
    have h := hlaid.trans (commit_surroundings em₂ f d)
    rwa [hcommit] at h

theorem unresolveAll_surroundings (em : Emitter) (ids : List FuncId) :
    em.SameSurroundings (em.unresolveAll ids) := by
  obtain ⟨_, _, h⟩ := unresolveAll_eq em ids
  rw [h]
  exact ⟨⟨rfl, rfl, rfl, rfl⟩, rfl, rfl, rfl, rfl, rfl, rfl⟩

theorem settle_surroundings (em : Emitter) (ids : List FuncId) (result : Except EmitError UInt64) :
    em.SameSurroundings (em.settle ids result) := by
  have h := unresolveAll_surroundings em ids
  rcases em.settle_cases ids result with ⟨_, _, _, hs⟩ | ⟨_, _, _, hs⟩
  · rw [hs]
    exact ⟨⟨rfl, rfl, rfl, rfl⟩, rfl, rfl, rfl, rfl, rfl, rfl⟩
  · rw [hs]
    exact ⟨⟨h.target, h.module, h.config, h.arena⟩, h.symbols, h.processSymbols, h.sink, h.shown,
      h.detached, h.resolved⟩

theorem emitFunction_surroundings (em : Emitter) (f : MachineFunction) :
    em.SameSurroundings (em.emitFunction f).1 := by
  cases hd : em.patchedDependents f.id with
  | error e =>
    rw [emitFunction_of_error hd]
    exact ⟨⟨rfl, rfl, rfl, rfl⟩, rfl, rfl, rfl, rfl, rfl, rfl⟩
  | ok ids =>
    rw [emitFunction_of_attempt hd rfl]
    have hreport : em.SameSurroundings (em.report (.emitting f.name f.id)) :=
      ⟨⟨rfl, rfl, rfl, rfl⟩, rfl, rfl, rfl, rfl, rfl, rfl⟩
    have hattempt := attempt_surroundings (em.report (.emitting f.name f.id)) f em.nextSize
    exact (hreport.trans hattempt).trans (settle_surroundings _ ids _)

end Emitter

end CodeEmission
