import CodeEmission.Proofs.Resolution.Soundness
import CodeEmission.Proofs.Resolution.Success

/-! # What an operation does to a record

An operation commits a new version of a function, takes its version away, or changes the record of
the version in one of a few ways. Invariants of records are proved once for each of these ways.
-/

namespace CodeEmission

namespace FunctionRecord

/-- What a single operation does to the record of a version that stays in the table. -/
inductive Step : FunctionRecord → FunctionRecord → Prop
  | kept (r : FunctionRecord) : Step r r
  | withdrawn {r : FunctionRecord} (h : r.isExecutable = false) : Step r r.unpatched
  | executable (r : FunctionRecord) : Step r r.makeExecutable
  | addressed {r : FunctionRecord} {relocations : List Relocation} (pending : r.resolved = false)
      (same : relocations.map Relocation.bare = r.relocations.map Relocation.bare) :
      Step r { r with relocations }
  | patched {r r' : FunctionRecord} {relocations : List Relocation} {fault : Option EmitError}
      (pending : r.resolved = false)
      (same : relocations.map Relocation.bare = r.relocations.map Relocation.bare)
      (patch : { r with relocations }.patch .x86_64 = (r', fault)) :
      Step r { r' with resolved := fault.isNone }
  /-- A pass is cut off at the function. -/
  | lost {r : FunctionRecord} (pending : r.resolved = false) : Step r r.withoutLog

variable {r r' : FunctionRecord}

theorem Step.shape (h : r.Step r') : r.SameShape r' ∨ r' = r.withoutLog := by
  cases h with
  | kept => exact .inl (.refl r)
  | withdrawn _ => exact .inl (.unpatched r)
  | executable => exact .inl (.makeExecutable r)
  | addressed _ same => exact .inl (.addressed same)
  | @patched r₁ relocations fault _ same patch =>
    have hshape := SameShape.addressed same
    rcases patch_cases patch with ⟨rfl, _⟩ | ⟨_, rfl, _⟩
    · exact .inl { hshape with .. }
    · exact .inl (hshape.storeAll _ _)
  | lost _ => exact .inr rfl

theorem Step.form (h : r.Step r') : r.SameForm r' := by
  rcases h.shape with hshape | rfl
  · exact hshape.toSameForm
  · exact { SameForm.refl r with .. }

theorem Step.relocations (h : r.Step r') :
    r'.relocations.map Relocation.bare = r.relocations.map Relocation.bare ∨
      r'.relocations = [] := by
  rcases h.shape with hshape | rfl
  · exact .inl hshape.relocations
  · exact .inr rfl

/-- What is resolved and executable is beyond all changes. -/
theorem Step.eq_of_frozen (h : r.Step r') (hres : r.resolved = true) (hx : r.isExecutable = true) :
    r' = r := by
  cases h with
  | kept => rfl
  | withdrawn hnx =>
    rw [hx] at hnx
    cases hnx
  | executable =>
    have hblock : r.block.makeExecutable = r.block := by
      have hflag : r.block.executable = true := hx
      simp only [Block.makeExecutable, ← hflag]
    simp only [makeExecutable, hblock]
  | addressed pending _ =>
    rw [hres] at pending
    cases pending
  | patched pending _ _ =>
    rw [hres] at pending
    cases pending
  | lost pending =>
    rw [hres] at pending
    cases pending

end FunctionRecord

namespace Emitter

open FunctionRecord

variable {em em' : Emitter} {r r' : FunctionRecord} {id : FuncId} {ids : List FuncId}

def Steps (em em' : Emitter) (id : FuncId) : Prop :=
  Option.Rel FunctionRecord.Step (em.function? id) (em'.function? id)

theorem steps_of_eq (h : em'.function? id = em.function? id) : em.Steps em' id := by
  unfold Steps
  rw [h]
  cases em.function? id with
  | none => exact .none
  | some r => exact .some (.kept r)

theorem Untouched.steps (h : em.Untouched em') (id : FuncId) : em.Steps em' id :=
  steps_of_eq (congrFun h.function? id)

theorem putRecord_steps {em₁ : Emitter} (hu : em.Untouched em₁) (hr : em.function? r.id = some r)
    (hid : r'.id = r.id) (hs : r.Step r') (id : FuncId) : em.Steps (em₁.putRecord r') id := by
  unfold Steps
  rw [putRecord_function?, hid, hu.function?]
  split
  · rename_i heq
    subst heq
    rw [hr]
    exact .some hs
  · exact steps_of_eq rfl

theorem tryResolve_steps (ht : em.target = .x86_64) (hr : em.function? r.id = some r)
    (hres : r.resolved = false) (id : FuncId) : em.Steps (em.tryResolve r).1 id := by
  have hu := resolveTargets_untouched em r r.relocations
  unfold tryResolve
  split
  · rename_i em₁ relocations err htargets
    rw [htargets] at hu
    have hstep := Step.addressed hres (resolveTargets_spec htargets).1
    exact putRecord_steps hu hr hstep.form.id hstep id
  · rename_i em₁ relocations htargets
    rw [htargets] at hu
    have hsame := (resolveTargets_spec htargets).1
    rw [hu.target.trans ht]
    split
    · rename_i r₁ err hpatch
      have hstep : r.Step { r₁ with resolved := false } := Step.patched hres hsame hpatch
      have hpending : r₁.resolved = false := by
        rcases patch_cases hpatch with ⟨rfl, _⟩ | ⟨_, rfl, _⟩ <;> exact hres
      have heq : { r₁ with resolved := false } = r₁ := by rw [← hpending]
      rw [heq] at hstep
      exact putRecord_steps hu hr hstep.form.id hstep id
    · rename_i r₁ hpatch
      have hstep : r.Step { r₁ with resolved := true } := Step.patched hres hsame hpatch
      exact putRecord_steps hu hr hstep.form.id hstep id

theorem resolveFunction_steps (ht : em.target = .x86_64) (hw : r.WellFormed)
    (hr : em.function? r.id = some r) (hres : r.resolved = false) (id : FuncId) :
    em.Steps (em.resolveFunction r).1 id := by
  have hsteps := tryResolve_steps ht hr hres id
  rcases htry : em.tryResolve r with ⟨em₂, fault⟩
  rw [htry] at hsteps
  rw [resolveFunction_fst, htry]
  by_cases hcrash : ∃ step, fault = some (.crash step)
  · obtain ⟨step, rfl⟩ := hcrash
    obtain ⟨em₁, es, htargets, rfl⟩ := tryResolve_of_crash ht hw htry
    have hu := resolveTargets_untouched em r r.relocations
    rw [htargets] at hu
    have hlost : (em₁.putRecord { r with relocations := es }).afterFault r.id
        (some (.crash step)) = em₁.putRecord r.withoutLog := by
      have hmodify := em₁.functions.modify_modify r.id (fun _ => { r with relocations := es })
        FunctionRecord.withoutLog
      exact congrArg (fun functions => { em₁ with functions }) hmodify
    have hstep : r.Step r.withoutLog := .lost hres
    dsimp only
    rw [hlost]
    exact putRecord_steps hu hr hstep.form.id hstep id
  · rw [not_exists] at hcrash
    dsimp only
    rw [afterFault_of_ne hcrash]
    exact hsteps

theorem resolveEach_steps (h : em.Sound) (hn : ids.Nodup)
    (hids : ∀ j ∈ ids, ∀ s, em.function? j = some s → s.resolved = false) (id : FuncId) :
    em.Steps (em.resolveEach ids).1 id ∧
      (id ∉ ids → (em.resolveEach ids).1.function? id = em.function? id) := by
  induction ids generalizing em with
  | nil => exact ⟨steps_of_eq rfl, fun _ => rfl⟩
  | cons j ids ih =>
    obtain ⟨hj, hrestn⟩ := List.nodup_cons.1 hn
    unfold resolveEach
    split
    · exact ⟨steps_of_eq rfl, fun _ => rfl⟩
    · rename_i s hs
      obtain rfl := h.ids j s hs
      have hres := hids s.id List.mem_cons_self s hs
      have hsteps := resolveFunction_steps h.target (h.wellFormed _ s hs) hs hres
      have hothers {k : FuncId} (hk : k ≠ s.id) :
          (em.resolveFunction s).1.function? k = em.function? k := by
        rcases htry : em.tryResolve s with ⟨em₁, fault⟩
        obtain ⟨s', hs'⟩ := tryResolve_resolved h.target (h.wellFormed _ s hs) hs htry
        rw [resolveFunction_fst, htry, afterFault_function?_of_ne (Ne.symm hk), hs'.found k,
          if_neg (Ne.symm hk)]
      rcases hf : em.resolveFunction s with ⟨em₁, fault⟩
      rw [hf] at hsteps hothers
      cases fault with
      | some e =>
        exact ⟨hsteps id, fun hnot => hothers fun heq => hnot (heq ▸ List.mem_cons_self)⟩
      | none =>
        have hrest : ∀ k ∈ ids, ∀ u, em₁.function? k = some u → u.resolved = false := by
          intro k hk u hu
          have hne : k ≠ s.id := by
            rintro rfl
            exact hj hk
          rw [hothers hne] at hu
          exact hids k (List.mem_cons_of_mem _ hk) u hu
        have hsound := h.tryResolve hs hres
        rw [tryResolve_of_resolveFunction hf] at hsound
        obtain ⟨hlast, hkept⟩ := ih hsound hrestn hrest
        dsimp only
        constructor
        · -- the rest of the pass leaves the function just resolved alone
          by_cases heq : id = s.id
          · subst heq
            unfold Steps
            rw [hkept hj]
            exact hsteps s.id
          · unfold Steps at hlast ⊢
            rwa [hothers heq] at hlast
        · intro hnot
          have hne : id ≠ s.id := fun heq => hnot (heq ▸ List.mem_cons_self)
          rw [hkept fun hmem => hnot (List.mem_cons_of_mem _ hmem), hothers hne]

theorem Sound.not_executable (h : em.Sound) {j : FuncId} (hd : em.patchedDependents j = .ok ids)
    (hid : id ∈ ids) (hr : em.function? id = some r) : r.isExecutable = false := by
  unfold patchedDependents at hd
  split at hd
  · obtain ⟨s, hs, rfl, hne, href, _⟩ := (mem_dependentsAmong hd).1 hid
    obtain rfl := Option.some.inj (hr.symm.trans (h.function?_of_mem hs))
    exact not_executable_of_dependentsAmong hd hs hne href
  · cases hd
    cases hid

theorem Sound.dependents_steps (h : em.Sound) {j : FuncId} (hd : em.patchedDependents j = .ok ids)
    (hfound : em'.function? id =
      if id ∈ ids then (em.function? id).map unpatched else em.function? id) :
    em.Steps em' id := by
  by_cases hid : id ∈ ids
  · rw [if_pos hid] at hfound
    unfold Steps
    rw [hfound]
    cases hr : em.function? id with
    | none => exact .none
    | some r => exact .some (.withdrawn (h.not_executable hd hid hr))
  · rw [if_neg hid] at hfound
    exact steps_of_eq hfound

/-- What an operation can do to the entry of a function in the table. -/
theorem Sound.perform_cases (h : em.Sound) (op : Operation) (id : FuncId) :
    em.Steps (em.perform op) id ∨ (em.perform op).function? id = none ∨
      ∃ f address, op = .emit f ∧ f.id = id ∧ (em.emitFunction f).2 = .ok address := by
  cases op with
  | emit f =>
    change em.Steps (em.emitFunction f).1 id ∨ (em.emitFunction f).1.function? id = none ∨ _
    cases hd : em.patchedDependents f.id with
    | error e =>
      rw [emitFunction_of_error hd]
      exact .inl (steps_of_eq rfl)
    | ok ids =>
      obtain ⟨result, he, hresult⟩ := emitFunction_emission hd
      rcases he.cut_or_outdated with ⟨_, _, hfunctions⟩ | houtdated
      · exact .inl (steps_of_eq (congrArg (·.get? id) hfunctions))
      have hothers := he.others
      rw [houtdated] at hothers
      by_cases hid : id = f.id
      · subst hid
        have ho := he.outcome
        have hdropped (hold : (em.emitFunction f).1.function? f.id = none ∨
            (em.emitFunction f).1.function? f.id = em.function? f.id) :
            em.Steps (em.emitFunction f).1 f.id ∨ (em.emitFunction f).1.function? f.id = none :=
          hold.symm.imp_left steps_of_eq
        cases ho with
        | committed fresh laidOut fits found _ =>
          exact .inr (.inr ⟨f, _, rfl, rfl, hresult.trans (check_eq_ok.2 rfl)⟩)
        | refused dropped => exact or_assoc.1 (.inl (hdropped dropped))
        | failed _ _ _ dropped => exact or_assoc.1 (.inl (hdropped dropped))
        | cutOff _ _ functions =>
          exact or_assoc.1 (.inl (hdropped (.inr (congrArg (·.get? f.id) functions))))
      · exact .inl (h.dependents_steps hd (hothers id hid))
  | deallocate j =>
    change em.Steps (em.deallocate j).1 id ∨ (em.deallocate j).1.function? id = none ∨ _
    cases hd : em.patchedDependents j with
    | error e =>
      rw [deallocate_of_error hd]
      exact .inl (steps_of_eq rfl)
    | ok ids =>
      rw [deallocate_of_dependents hd]
      by_cases hid : id = j
      · subst hid
        refine .inr (.inl ?_)
        rw [unresolveAll_function?, removed_function?, if_pos rfl]
        split <;> rfl
      · refine .inl (h.dependents_steps hd ?_)
        rw [unresolveAll_function?, removed_function?, if_neg (Ne.symm hid)]
  | resolve =>
    have hpass := (resolveEach_steps h h.nodup_pending (fun j hj s hs => ?_) id).1
    · rw [← resolveRelocations_fst] at hpass
      exact .inl hpass
    · obtain ⟨s', hs', hres⟩ := h.mem_pending.1 hj
      obtain rfl := Option.some.inj (hs.symm.trans hs')
      exact hres
  | globalAddress g => exact .inl ((globalAddress_untouched em g).steps id)
  | addGlobal g => exact .inl (steps_of_eq rfl)
  | addAlias a => exact .inl (steps_of_eq rfl)
  | defineSymbol name address => exact .inl (steps_of_eq rfl)
  | allocateSpace size alignment =>
    exact .inl ((allocateSpace_untouched em size alignment).steps id)
  | makeExecutable j =>
    have hfound : (em.makeExecutable j).1.function? id =
        if j = id then (em.function? id).map FunctionRecord.makeExecutable else em.function? id :=
      IdMap.get?_modify em.functions j id FunctionRecord.makeExecutable
    refine .inl ?_
    change Option.Rel FunctionRecord.Step (em.function? id) ((em.makeExecutable j).1.function? id)
    rw [hfound]
    split
    · cases em.function? id with
      | none => exact .none
      | some r => exact .some (.executable r)
    · exact steps_of_eq rfl
  | setSink sink => exact .inl (steps_of_eq rfl)

end Emitter

end CodeEmission
