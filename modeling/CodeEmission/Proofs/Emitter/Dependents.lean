import Mathlib.Data.List.Basic
import CodeEmission.Emitter.References
import CodeEmission.Proofs.Maps

/-! # Dependents

Which functions have to be patched again when another one goes, and what asking for that does to the
table of functions.
-/

namespace CodeEmission

def FunctionRecord.unpatched (r : FunctionRecord) : FunctionRecord := { r with resolved := false }

namespace Emitter

variable {em em' em'' : Emitter} {id : FuncId} {rs : List FunctionRecord} {ids : List FuncId}

/-- What functions are laid out for and what their references lead to is the same. -/
structure SameSetting (em em' : Emitter) : Prop where
  target : em'.target = em.target
  module : em'.module = em.module
  config : em'.config = em.config
  arena : em'.arena = em.arena

theorem SameSetting.refl (em : Emitter) : em.SameSetting em := ⟨rfl, rfl, rfl, rfl⟩

theorem SameSetting.trans (h : em.SameSetting em') (h' : em'.SameSetting em'') :
    em.SameSetting em'' :=
  ⟨h'.target.trans h.target, h'.module.trans h.module, h'.config.trans h.config,
    h'.arena.trans h.arena⟩

theorem dependentsAmong_error {e : EmitError} (h : em.dependentsAmong id rs = .error e) :
    ∃ r ∈ rs, r.isExecutable = true ∧ e = .dependentExecutable id r.id := by
  induction rs with
  | nil => cases h
  | cons r rs ih =>
    have hrest (hr : em.dependentsAmong id rs = .error e) :
        ∃ s ∈ r :: rs, s.isExecutable = true ∧ e = .dependentExecutable id s.id := by
      obtain ⟨s, hs, hse⟩ := ih hr
      exact ⟨s, List.mem_cons_of_mem _ hs, hse⟩
    unfold dependentsAmong at h
    split at h
    · exact hrest h
    · split at h
      · rename_i hx
        cases h
        exact ⟨r, List.mem_cons_self, hx, rfl⟩
      · cases hd : em.dependentsAmong id rs with
        | error e' =>
          rw [hd] at h
          cases h
          exact hrest hd
        | ok ids =>
          rw [hd] at h
          cases h

theorem mem_dependentsAmong (h : em.dependentsAmong id rs = .ok ids) {j : FuncId} :
    j ∈ ids ↔ ∃ r ∈ rs, r.id = j ∧ r.id ≠ id ∧ em.refersTo r id = true ∧ r.resolved = true := by
  induction rs generalizing ids with
  | nil =>
    cases h
    simp
  | cons r rs ih =>
    unfold dependentsAmong at h
    split at h
    · rename_i hskip
      rw [ih h]
      have hskip : r.id ≠ id → ¬em.refersTo r id = true := by
        intro hne
        simpa [hne] using hskip
      constructor
      · rintro ⟨s, hs, hsp⟩
        exact ⟨s, List.mem_cons_of_mem _ hs, hsp⟩
      · rintro ⟨s, hs, hsj, hne, href, hres⟩
        rcases List.mem_cons.1 hs with rfl | hs
        · exact absurd href (hskip hne)
        · exact ⟨s, hs, hsj, hne, href, hres⟩
    · rename_i hkeep
      have hkeep : r.id ≠ id ∧ em.refersTo r id = true := by simpa using hkeep
      split at h
      · cases h
      · cases hd : em.dependentsAmong id rs with
        | error e =>
          rw [hd] at h
          cases h
        | ok rest =>
          rw [hd] at h
          cases h
          by_cases hres : r.resolved = true
          · rw [if_pos hres, List.mem_cons, ih hd, List.exists_mem_cons_iff]
            exact or_congr_left ⟨fun hj => ⟨hj.symm, hkeep.1, hkeep.2, hres⟩, fun hs => hs.1.symm⟩
          · rw [if_neg hres, ih hd, List.exists_mem_cons_iff]
            exact (or_iff_right fun hs => hres hs.2.2.2).symm

/-- No function that would have to be patched again is executable. -/
theorem not_executable_of_dependentsAmong (h : em.dependentsAmong id rs = .ok ids)
    {r : FunctionRecord} (hr : r ∈ rs) (hne : r.id ≠ id) (href : em.refersTo r id = true) :
    r.isExecutable = false := by
  induction rs generalizing ids with
  | nil => cases hr
  | cons s rs ih =>
    unfold dependentsAmong at h
    rcases List.mem_cons.1 hr with rfl | hr
    · have hkeep : ¬(r.id = id || !em.refersTo r id) = true := by simp [hne, href]
      rw [if_neg hkeep] at h
      split at h
      · cases h
      · rename_i hx
        simpa using hx
    · split at h
      · exact ih h hr
      · split at h
        · cases h
        · cases hd : em.dependentsAmong id rs with
          | error e =>
            rw [hd] at h
            cases h
          | ok rest => exact ih hd hr

theorem dependentsAmong_congr (h : em'.module = em.module) (id : FuncId)
    (rs : List FunctionRecord) : em'.dependentsAmong id rs = em.dependentsAmong id rs := by
  induction rs with
  | nil => rfl
  | cons r rs ih =>
    have href : em'.refersTo r id = em.refersTo r id := by
      simp only [refersTo, refersToFunction, h]
    simp only [dependentsAmong, href, ih]

theorem patchedDependents_congr (hm : em'.module = em.module) (hf : em'.functions = em.functions)
    (id : FuncId) : em'.patchedDependents id = em.patchedDependents id := by
  rw [patchedDependents, patchedDependents, hf, dependentsAmong_congr hm]

theorem patchedDependents_error {e : EmitError} (h : em.patchedDependents id = .error e) :
    ∃ dependent, e = .dependentExecutable id dependent := by
  unfold patchedDependents at h
  split at h
  · obtain ⟨r, _, _, he⟩ := dependentsAmong_error h
    exact ⟨r.id, he⟩
  · cases h

/-- Every resolved function that refers to a committed one is among the dependents of it. -/
theorem mem_patchedDependents (h : em.patchedDependents id = .ok ids)
    (hc : (em.function? id).isSome = true) {j : FuncId} {r : FunctionRecord}
    (hr : em.function? j = some r) (hj : r.id = j) (hne : j ≠ id)
    (href : em.refersTo r id = true) (hres : r.resolved = true) : j ∈ ids := by
  have hc : em.functions.contains id = true := hc
  rw [patchedDependents, if_pos hc] at h
  subst hj
  exact (mem_dependentsAmong h).2 ⟨r, IdMap.mem_values_of_get? hr, rfl, hne, href, hres⟩

theorem not_mem_patchedDependents (h : em.patchedDependents id = .ok ids) : id ∉ ids := by
  unfold patchedDependents at h
  split at h
  · rw [mem_dependentsAmong h]
    rintro ⟨r, _, hr, hne, _⟩
    exact hne hr
  · cases h
    simp

theorem unresolve_function? (em : Emitter) (id key : FuncId) :
    (em.unresolve id).function? key =
      if id = key then (em.function? key).map FunctionRecord.unpatched else em.function? key := by
  by_cases hc : em.functions.contains id = true
  · rw [unresolve, if_pos hc]
    exact IdMap.get?_modify em.functions id key FunctionRecord.unpatched
  · rw [unresolve, if_neg hc]
    split
    · rename_i heq
      subst heq
      have hnone : em.function? id = none := by simpa [IdMap.contains, function?] using hc
      rw [hnone]
      rfl
    · rfl

theorem unresolve_eq (em : Emitter) (id : FuncId) :
    ∃ functions log, em.unresolve id = { em with functions, log } := by
  unfold unresolve
  split
  · exact ⟨_, _, rfl⟩
  · exact ⟨em.functions, em.log, rfl⟩

theorem unresolve_ascending (h : em.functions.Ascending) (id : FuncId) :
    (em.unresolve id).functions.Ascending := by
  unfold unresolve
  split
  · exact h.modify id FunctionRecord.unpatched
  · exact h

theorem unresolveAll_function? (em : Emitter) (ids : List FuncId) (key : FuncId) :
    (em.unresolveAll ids).function? key =
      if key ∈ ids then (em.function? key).map FunctionRecord.unpatched else em.function? key := by
  unfold unresolveAll
  induction ids generalizing em with
  | nil => simp
  | cons id ids ih =>
    rw [List.foldl_cons, ih, unresolve_function?]
    by_cases hk : id = key
    · subst hk
      cases em.function? id <;> simp [FunctionRecord.unpatched]
    · simp [hk, Ne.symm hk]

theorem unresolveAll_eq (em : Emitter) (ids : List FuncId) :
    ∃ functions log, em.unresolveAll ids = { em with functions, log } := by
  unfold unresolveAll
  induction ids generalizing em with
  | nil => exact ⟨em.functions, em.log, rfl⟩
  | cons id ids ih =>
    obtain ⟨_, _, hfirst⟩ := unresolve_eq em id
    obtain ⟨functions, log, hrest⟩ := ih (em.unresolve id)
    exact ⟨functions, log, by rw [List.foldl_cons, hrest, hfirst]⟩

theorem unresolveAll_setting (em : Emitter) (ids : List FuncId) :
    em.SameSetting (em.unresolveAll ids) := by
  obtain ⟨_, _, h⟩ := unresolveAll_eq em ids
  rw [h]
  exact ⟨rfl, rfl, rfl, rfl⟩

theorem unresolveAll_ascending (h : em.functions.Ascending) (ids : List FuncId) :
    (em.unresolveAll ids).functions.Ascending := by
  unfold unresolveAll
  induction ids generalizing em with
  | nil => exact h
  | cons id ids ih => exact ih (unresolve_ascending h id)

theorem unresolveAll_sizeEstimate (em : Emitter) (ids : List FuncId) :
    (em.unresolveAll ids).sizeEstimate = em.sizeEstimate := by
  obtain ⟨_, _, h⟩ := unresolveAll_eq em ids
  rw [h]

theorem unresolveAll_stats (em : Emitter) (ids : List FuncId) :
    (em.unresolveAll ids).stats = em.stats := by
  obtain ⟨_, _, h⟩ := unresolveAll_eq em ids
  rw [h]

/-- The state after the removal of a function, before its dependents are to be patched again. -/
def removed (em : Emitter) (id : FuncId) : Emitter :=
  { em.report (.deallocating id) with functions := em.functions.erase id }

theorem removed_function? (em : Emitter) (id key : FuncId) :
    (em.removed id).function? key = if id = key then none else em.function? key :=
  IdMap.get?_erase em.functions id key

theorem patchedDependents_deallocating (em : Emitter) (id : FuncId) :
    (em.report (.deallocating id)).patchedDependents id = em.patchedDependents id := by
  have hmodule : (em.report (.deallocating id)).module = em.module := rfl
  have hfunctions : (em.report (.deallocating id)).functions = em.functions := rfl
  exact patchedDependents_congr hmodule hfunctions id

theorem deallocate_of_error {e : EmitError} (h : em.patchedDependents id = .error e) :
    em.deallocate id = (em.report (.deallocating id), .error e) := by
  simp only [deallocate, patchedDependents_deallocating, h]

theorem deallocate_of_dependents (h : em.patchedDependents id = .ok ids) :
    em.deallocate id = ((em.removed id).unresolveAll ids, .ok (em.functions.contains id)) := by
  simp only [deallocate, patchedDependents_deallocating, h]
  rfl

end Emitter

end CodeEmission
