import CodeEmission.Proofs.Versions.Retained

/-! # Executable code is frozen

A resolved version that has been made executable is beyond all changes while it stays in the table,
and the functions whose addresses it holds can be neither replaced nor removed.
-/

namespace CodeEmission.Emitter

variable {em em' : Emitter} {id j : FuncId} {r : FunctionRecord} {e : Relocation} {g : GlobalRef}
  {ops : List Operation} {f : MachineFunction}

/-- States that differ at most in their reports and in how the last emission ended. -/
def Unchanged (em em' : Emitter) : Prop :=
  em' = { em with state := em'.state, sizeEstimate := em'.sizeEstimate, log := em'.log }

theorem Leads.reaches_iff {a : UInt64} (h : em.Leads g a) (hl : em.Later em') :
    em'.module.Reaches g (.function j) ↔ em.module.Reaches g (.function j) := by
  have hends : ∃ target, em.module.destination (em.module.aliases.length + 1) g = .ok target := by
    cases h with
    | function ends _ => exact ⟨_, ends⟩
    | «variable» ends _ => exact ⟨_, ends⟩
  obtain ⟨target, hends⟩ := hends
  have hlater := hl.destination hends
  rw [← Module.destination_eq_function, ← Module.destination_eq_function, hends, hlater]

/-- A function that executable code of another one refers to is not given up. -/
theorem patchedDependents_of_executable (hr : em.function? id = some r) (hid : r.id = id)
    (hx : r.isExecutable = true) (hne : id ≠ j) (href : em.refersTo r j = true)
    (hc : (em.function? j).isSome = true) :
    ∃ dependent, em.patchedDependents j = .error (.dependentExecutable j dependent) := by
  cases hd : em.patchedDependents j with
  | error e =>
    obtain ⟨dependent, rfl⟩ := patchedDependents_error hd
    exact ⟨dependent, rfl⟩
  | ok ids =>
    have hc : em.functions.contains j = true := hc
    rw [patchedDependents, if_pos hc] at hd
    have hmem := IdMap.mem_values_of_get? hr
    have hnx := not_executable_of_dependentsAmong hd hmem (hid ▸ hne) href
    rw [hx] at hnx
    cases hnx

theorem refused_of_patchedDependents {dependent : FuncId}
    (h : em.patchedDependents j = .error (.dependentExecutable j dependent)) :
    (em.Unchanged (em.deallocate j).1 ∧
        (em.deallocate j).2 = .error (.dependentExecutable j dependent)) ∧
      ∀ f, f.id = j → em.Unchanged (em.emitFunction f).1 ∧
        (em.emitFunction f).2 = em.check (.error (.dependentExecutable j dependent)) := by
  refine ⟨?_, ?_⟩
  · rw [deallocate_of_error h]
    exact ⟨rfl, rfl⟩
  · rintro f rfl
    rw [emitFunction_of_error h]
    exact ⟨rfl, rfl⟩

theorem Reachable.frozen (h : em.Reachable) (hr : em.function? id = some r)
    (hres : r.resolved = true) (hx : r.isExecutable = true) (hret : em.RetainsAll id ops) :
    (em.run ops).function? id = some r := by
  have hkeep : ∀ s s' : FunctionRecord, s.WellFormed → s = r → s.Step s' → s' = r := by
    rintro s s' _ rfl hstep
    exact hstep.eq_of_frozen hres hx
  obtain ⟨r', hr', rfl⟩ := hret.induction hkeep h hr rfl
  exact hr'

/-- Whatever is done after a resolved function has been made executable, as long as it stays in the
table it stays as it is, and so do the addresses of the functions that it refers to, which are
neither replaced nor removed. -/
theorem executable_frozen (h : em.Reachable) (hr : em.function? id = some r)
    (hres : r.resolved = true) (hx : r.isExecutable = true) (hret : em.RetainsAll id ops) :
    (em.run ops).function? id = some r ∧
      ∀ e ∈ r.relocations, ∀ g, e.global? = some g → ∀ j,
        ((em.run ops).module.Reaches g (.function j) ↔ em.module.Reaches g (.function j)) ∧
        (em.module.Reaches g (.function j) →
          (∃ s, (em.run ops).function? j = some s ∧ e.result = some s.codeAddress ∧
            r.fieldAddress e = s.codeAddress) ∧
          (j ≠ id → ∃ dependent,
            ((em.run ops).Unchanged ((em.run ops).deallocate j).1 ∧
              ((em.run ops).deallocate j).2 = .error (.dependentExecutable j dependent)) ∧
            ∀ f, f.id = j →
              (em.run ops).Unchanged ((em.run ops).emitFunction f).1 ∧
                ((em.run ops).emitFunction f).2 =
                  (em.run ops).check (.error (.dependentExecutable j dependent)))) := by
  have hr' := h.frozen hr hres hx hret
  refine ⟨hr', ?_⟩
  intro e he g hg j
  have hsound := (h.run ops).sound
  obtain ⟨a, hleads, _⟩ := (h.sound.current id r hr hres).leads he hg
  have hiff := hleads.reaches_iff (j := j) (run_later em ops)
  refine ⟨hiff, ?_⟩
  intro hreach
  obtain ⟨a', hleads', hresult, hfield⟩ := (hsound.current id r hr' hres).leads he hg
  obtain ⟨s, hs, rfl⟩ := hleads'.function_of_reaches (hiff.2 hreach)
  refine ⟨⟨s, hs, hresult, hfield⟩, ?_⟩
  intro hne
  have href : (em.run ops).refersTo r j = true := by
    refine List.any_eq_true.2 ⟨e, he, ?_⟩
    rw [hg]
    exact (hiff.2 hreach).leadsTo
  have hc : ((em.run ops).function? j).isSome = true := Option.isSome_iff_exists.2 ⟨s, hs⟩
  obtain ⟨dependent, hd⟩ :=
    patchedDependents_of_executable hr' (hsound.ids id r hr') hx (Ne.symm hne) href hc
  exact ⟨dependent, refused_of_patchedDependents hd⟩

theorem executable_frozen_callLoop :
    let em := (new .x86_64 {} {} {}).run
      [.emit .nopRet, .emit callLoop, .resolve, .makeExecutable ⟨1⟩]
    let ops : List Operation := [.addAlias { id := ⟨0⟩, name := "a", aliasee := .function ⟨0⟩ },
      .deallocate ⟨0⟩, .emit .nopRet, .resolve]
    em.RetainsAll ⟨1⟩ ops ∧ ∃ r, em.function? ⟨1⟩ = some r ∧ r.resolved = true ∧
      r.isExecutable = true ∧ r.relocations.map (·.global?) = [some (.function ⟨0⟩), none] ∧
      (em.run ops).function? ⟨1⟩ = some r := by
  intro em ops
  have hem : em.Reachable := ⟨{}, {}, {}, .log, _, rfl⟩
  have hret : em.RetainsAll ⟨1⟩ ops := by
    refine ⟨⟨by decide +kernel, nofun⟩, ⟨by decide +kernel, nofun⟩, ⟨by decide +kernel, ?_⟩,
      ⟨by decide +kernel, nofun⟩, trivial⟩
    rintro f hf hid
    cases hf
    cases hid
  have hfound : (em.function? ⟨1⟩).map (fun r => (r.resolved, r.isExecutable,
      r.relocations.map (·.global?))) = some (true, true, [some (.function ⟨0⟩), none]) := by
    decide +kernel
  obtain ⟨r, hr, hfields⟩ := Option.map_eq_some_iff.1 hfound
  simp only [Prod.mk.injEq] at hfields
  obtain ⟨hres, hx, hglobals⟩ := hfields
  exact ⟨hret, r, hr, hres, hx, hglobals, (executable_frozen hem hr hres hx hret).1⟩

end CodeEmission.Emitter
