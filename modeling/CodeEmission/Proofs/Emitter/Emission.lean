import CodeEmission.Proofs.Emitter.Attempt

/-! # Emission

What emitting a function does to an emitter: only the entry of the function changes in the table,
and the functions that depend on it have to be patched again.
-/

namespace CodeEmission.Emitter

variable {em em' : Emitter} {f : MachineFunction} {ids : List FuncId}

theorem check_eq_ok {α : Type} {result : Except EmitError α} {a : α} :
    em.check result = .ok a ↔ result = .ok a := by
  cases result with
  | ok b => simp [check]
  | error e =>
    unfold check
    dsimp only
    split <;> simp

/-- The policy is all that the check depends on. -/
theorem check_congr {α : Type}
    (h : em'.config.abortOnInvariantViolation = em.config.abortOnInvariantViolation)
    (result : Except EmitError α) : em'.check result = em.check result := by
  have hstops (e : EmitError) : em'.stopsAt e = em.stopsAt e := by rw [stopsAt, stopsAt, h]
  cases result with
  | ok _ => rfl
  | error e =>
    unfold check
    dsimp only
    rw [hstops]

theorem check_error {α : Type} (h : em.config.abortOnInvariantViolation = false) {e : EmitError}
    (he : ∀ step, e ≠ .crash step) :
    em.check (.error e : Except EmitError α) = .error (.error e) := by
  simp [check, stopsAt, h, EmitError.isCrash_eq_false.2 he]

theorem check_memory {α : Type} (em : Emitter) (e : MemoryError) :
    em.check (.error (.memory e) : Except EmitError α) = .error (.error (.memory e)) := by
  simp [check, stopsAt, EmitError.isCrash, EmitError.isInvariantViolation, EmitError.kind]

def outdated (dependents : List FuncId) : Except EmitError UInt64 → List FuncId
  | .error (.crash _) => []
  | _ => dependents

/-- What emitting a function does to an emitter. -/
structure Emission (em : Emitter) (f : MachineFunction) (dependents : List FuncId) (em' : Emitter)
    (result : Except EmitError UInt64) : Prop where
  setting : em.SameSetting em'
  others : ∀ id, id ≠ f.id → em'.function? id =
    if id ∈ outdated dependents result then (em.function? id).map FunctionRecord.unpatched
    else em.function? id
  outcome : em.Outcome f em' result
  sizeEstimate : em'.sizeEstimate = 0 ∨ em'.sizeEstimate = em.sizeEstimate

theorem emitFunction_of_error {e : EmitError} (h : em.patchedDependents f.id = .error e) :
    em.emitFunction f = ({ em with state := .idle, sizeEstimate := 0 }, em.check (.error e)) := by
  obtain ⟨dependent, rfl⟩ := patchedDependents_error h
  simp only [emitFunction, replace, h]
  rfl

def settle (em : Emitter) (dependents : List FuncId) : Except EmitError UInt64 → Emitter
  | .ok _ => em.unresolveAll dependents
  | .error (.crash _) => { em with state := .emitting }
  | .error _ => { em.unresolveAll dependents with state := .idle, sizeEstimate := 0 }

theorem settle_cases (em : Emitter) (ids : List FuncId) (result : Except EmitError UInt64) :
    (∃ step, result = .error (.crash step) ∧ outdated ids result = [] ∧
        em.settle ids result = { em with state := .emitting }) ∨
      outdated ids result = ids ∧ ∃ state sizeEstimate,
        em.settle ids result = { em.unresolveAll ids with state, sizeEstimate } := by
  cases result with
  | ok _ => exact .inr ⟨rfl, _, _, rfl⟩
  | error e =>
    cases e
    case crash step => exact .inl ⟨step, rfl, rfl, rfl⟩
    all_goals exact .inr ⟨rfl, _, _, rfl⟩

theorem settle_setting (em : Emitter) (ids : List FuncId) (result : Except EmitError UInt64) :
    em.SameSetting (em.settle ids result) := by
  have h := unresolveAll_setting em ids
  rcases em.settle_cases ids result with ⟨_, _, _, hs⟩ | ⟨_, _, _, hs⟩
  · rw [hs]
    exact ⟨rfl, rfl, rfl, rfl⟩
  · rw [hs]
    exact ⟨h.target, h.module, h.config, h.arena⟩

theorem settle_function? (em : Emitter) (ids : List FuncId) (result : Except EmitError UInt64)
    (id : FuncId) : (em.settle ids result).function? id =
      if id ∈ outdated ids result then (em.function? id).map FunctionRecord.unpatched
      else em.function? id := by
  rcases em.settle_cases ids result with ⟨_, _, ho, hs⟩ | ⟨ho, _, _, hs⟩
  · rw [hs, ho, if_neg List.not_mem_nil]
    rfl
  · rw [hs, ho]
    exact unresolveAll_function? em ids id

theorem settle_ascending (h : em.functions.Ascending) (ids : List FuncId)
    (result : Except EmitError UInt64) : (em.settle ids result).functions.Ascending := by
  rcases em.settle_cases ids result with ⟨_, _, _, hs⟩ | ⟨_, _, _, hs⟩
  · rw [hs]
    exact h
  · rw [hs]
    exact unresolveAll_ascending h ids

theorem settle_stats (em : Emitter) (ids : List FuncId) (result : Except EmitError UInt64) :
    (em.settle ids result).stats = em.stats := by
  rcases em.settle_cases ids result with ⟨_, _, _, hs⟩ | ⟨_, _, _, hs⟩
  · rw [hs]
  · rw [hs]
    exact unresolveAll_stats em ids

/-- An emission that fails leaves nothing for the next one to go on with. -/
theorem settle_sizeEstimate (em : Emitter) (ids : List FuncId) {e : EmitError}
    (h : ∀ step, e ≠ .crash step) : (em.settle ids (.error e)).sizeEstimate = 0 := by
  cases e
  case crash step => exact absurd rfl (h step)
  all_goals rfl

theorem not_mem_outdated (h : em.patchedDependents f.id = .ok ids)
    (result : Except EmitError UInt64) : f.id ∉ outdated ids result := by
  unfold outdated
  split
  · exact List.not_mem_nil
  · exact not_mem_patchedDependents h

theorem emitFunction_of_attempt {result : Except EmitError UInt64}
    (h : em.patchedDependents f.id = .ok ids)
    (ha : (em.report (.emitting f.name f.id)).attempt f em.nextSize = (em', result)) :
    em.emitFunction f = (em'.settle ids result, (em'.settle ids result).check result) := by
  have hsize : (em.report (.emitting f.name f.id)).nextSize = em.nextSize := rfl
  simp only [emitFunction, replace, h, hsize, ha]
  cases result with
  | ok _ => rfl
  | error e => cases e <;> rfl

theorem emitFunction_ascending (h : em.functions.Ascending) (f : MachineFunction) :
    (em.emitFunction f).1.functions.Ascending := by
  cases hd : em.patchedDependents f.id with
  | error e =>
    rw [emitFunction_of_error hd]
    exact h
  | ok ids =>
    rw [emitFunction_of_attempt hd rfl]
    have hreport : (em.report (.emitting f.name f.id)).functions.Ascending := h
    exact settle_ascending (attempt_ascending hreport em.nextSize) ids _

theorem emitFunction_emission (h : em.patchedDependents f.id = .ok ids) :
    ∃ result, em.Emission f ids (em.emitFunction f).1 result ∧
      (em.emitFunction f).2 = em.check result := by
  rcases ha : (em.report (.emitting f.name f.id)).attempt f em.nextSize with ⟨em', result⟩
  have hattempt := attempt_attempted (em.report (.emitting f.name f.id)) f em.nextSize
  rw [ha] at hattempt
  have hreport : em.SameSetting (em.report (.emitting f.name f.id)) := ⟨rfl, rfl, rfl, rfl⟩
  have hattempted : em.Attempted f em' result :=
    hattempt.of_setting hreport (fun _ _ => rfl) (.inr rfl) fun _ _ => ⟨rfl, rfl⟩
  have hset := hattempted.setting.trans (settle_setting em' ids result)
  have hown : (em'.settle ids result).function? f.id = em'.function? f.id := by
    rw [settle_function?, if_neg (not_mem_outdated h result)]
  rw [emitFunction_of_attempt h ha]
  refine ⟨result, ⟨hset, ?_, ?_, ?_⟩, ?_⟩
  · intro id hid
    rw [settle_function?, hattempted.others id hid]
  · have ho := hattempted.outcome
    cases ho with
    | committed fresh laidOut fits found estimate =>
      exact .committed fresh laidOut fits (hown.trans found)
        ((unresolveAll_sizeEstimate em' ids).trans estimate)
    | refused dropped => exact .refused (by rwa [hown])
    | failed fresh laidOut returned dropped => exact .failed fresh laidOut returned (by rwa [hown])
    | cutOff fresh raises functions estimate => exact .cutOff fresh raises functions estimate
  · have ho := hattempted.outcome
    cases ho with
    | committed fresh laidOut fits found estimate =>
      exact .inl ((unresolveAll_sizeEstimate em' ids).trans estimate)
    | refused dropped => exact .inl rfl
    | failed fresh laidOut returned dropped =>
      exact .inl (settle_sizeEstimate em' ids returned)
    | cutOff fresh raises functions estimate => exact .inr estimate
  · exact check_congr (by rw [hset.config]) result

/-- An emission that is cut off leaves the table as it was, and any other one takes away what the code
of its dependents was patched with. -/
theorem Emission.cut_or_outdated {result : Except EmitError UInt64}
    (h : em.Emission f ids em' result) :
    (∃ step, result = .error (.crash step) ∧ em'.functions = em.functions) ∨
      outdated ids result = ids := by
  have ho := h.outcome
  cases ho with
  | committed => exact .inr rfl
  | refused => exact .inr rfl
  | @failed _ failure _ _ returned =>
    refine .inr ?_
    unfold outdated
    split
    · exact absurd (Except.error.inj ‹_›) (returned _)
    · rfl
  | cutOff _ _ functions => exact .inl ⟨_, rfl, functions⟩

end CodeEmission.Emitter
