import CodeEmission.Proofs.Emitter.Runs

/-! # The table of functions between passes

Only a pass over the references writes into the code of a function. All other operations leave code
and log of a function as they are, or take the function away, or commit another version of it.
-/

namespace CodeEmission

namespace FunctionRecord

/-- Two records of one buffer with one log. They may differ in whether the references count as patched
and whether the buffer is executable. -/
structure SameCode (r r' : FunctionRecord) : Prop where
  address : r'.block.address = r.block.address
  blockSize : r'.block.size = r.block.size
  contents : r'.block.contents = r.block.contents
  codeOffset : r'.codeOffset = r.codeOffset
  size : r'.size = r.size
  relocations : r'.relocations = r.relocations

variable {r r' r'' : FunctionRecord}

theorem SameCode.refl (r : FunctionRecord) : r.SameCode r := ⟨rfl, rfl, rfl, rfl, rfl, rfl⟩

theorem SameCode.trans (h : r.SameCode r') (h' : r'.SameCode r'') : r.SameCode r'' where
  address := h'.address.trans h.address
  blockSize := h'.blockSize.trans h.blockSize
  contents := h'.contents.trans h.contents
  codeOffset := h'.codeOffset.trans h.codeOffset
  size := h'.size.trans h.size
  relocations := h'.relocations.trans h.relocations

theorem SameCode.unpatched (r : FunctionRecord) : r.SameCode r.unpatched :=
  ⟨rfl, rfl, rfl, rfl, rfl, rfl⟩

theorem SameCode.makeExecutable (r : FunctionRecord) : r.SameCode r.makeExecutable :=
  ⟨rfl, rfl, rfl, rfl, rfl, rfl⟩

theorem SameCode.slice (h : r.SameCode r') (offset length : Nat) :
    r'.block.slice offset length = r.block.slice offset length := by
  rw [Block.slice, Block.slice, h.contents]

end FunctionRecord

namespace Emitter

variable {em em' : Emitter} {id : FuncId} {ids : List FuncId} {op : Operation} {r r' : FunctionRecord}

def Found (em em' : Emitter) (id : FuncId) : Prop :=
  ∀ r', em'.function? id = some r' → ∃ r, em.function? id = some r ∧ r.SameCode r'

theorem found_of_eq (h : em'.function? id = em.function? id) : em.Found em' id :=
  fun r' hr' => ⟨r', h ▸ hr', .refl r'⟩

theorem found_of_none (h : em'.function? id = none) : em.Found em' id := by
  intro r' hr'
  rw [h] at hr'
  cases hr'

theorem found_of_map {g : FunctionRecord → FunctionRecord}
    (hg : ∀ r, FunctionRecord.SameCode r (g r))
    (h : em'.function? id = (em.function? id).map g) : em.Found em' id := by
  intro r' hr'
  rw [h] at hr'
  obtain ⟨r, hr, rfl⟩ := Option.map_eq_some_iff.1 hr'
  exact ⟨r, hr, hg r⟩

theorem found_of_dependents (h : em'.function? id =
    if id ∈ ids then (em.function? id).map FunctionRecord.unpatched else em.function? id) :
    em.Found em' id := by
  split at h
  · exact found_of_map .unpatched h
  · exact found_of_eq h

theorem emitFunction_found (em : Emitter) (f : MachineFunction) (id : FuncId) :
    em.Found (em.emitFunction f).1 id ∨
      f.id = id ∧ ∃ address, (em.emitFunction f).2 = .ok address := by
  cases hd : em.patchedDependents f.id with
  | error e =>
    rw [emitFunction_of_error hd]
    exact .inl (found_of_eq rfl)
  | ok ids =>
    obtain ⟨result, he, hresult⟩ := emitFunction_emission hd
    by_cases hid : id = f.id
    · subst hid
      have ho := he.outcome
      cases ho with
      | committed => exact .inr ⟨rfl, _, hresult.trans (check_eq_ok.2 rfl)⟩
      | refused dropped => exact .inl (dropped.elim found_of_none found_of_eq)
      | failed _ _ _ dropped => exact .inl (dropped.elim found_of_none found_of_eq)
      | cutOff _ _ functions => exact .inl (found_of_eq (congrArg (·.get? f.id) functions))
    · exact .inl (found_of_dependents (he.others id hid))

theorem deallocate_found (em : Emitter) (j id : FuncId) : em.Found (em.deallocate j).1 id := by
  cases hd : em.patchedDependents j with
  | error e =>
    rw [deallocate_of_error hd]
    exact found_of_eq rfl
  | ok ids =>
    rw [deallocate_of_dependents hd]
    by_cases hid : j = id
    · refine found_of_none ?_
      rw [unresolveAll_function?, removed_function?, if_pos hid]
      split <;> rfl
    · have hfound := unresolveAll_function? (em.removed j) ids id
      rw [removed_function?, if_neg hid] at hfound
      exact found_of_dependents hfound

theorem makeExecutable_found (em : Emitter) (j id : FuncId) :
    em.Found (em.makeExecutable j).1 id := by
  have hfound : (em.makeExecutable j).1.function? id =
      if j = id then (em.function? id).map FunctionRecord.makeExecutable else em.function? id :=
    IdMap.get?_modify em.functions j id FunctionRecord.makeExecutable
  split at hfound
  · exact found_of_map .makeExecutable hfound
  · exact found_of_eq hfound

/-- Between two passes the code of a function is as it was committed. -/
theorem perform_found (em : Emitter) (hop : op ≠ .resolve) (id : FuncId) :
    em.Found (em.perform op) id ∨
      ∃ f address, op = .emit f ∧ f.id = id ∧ (em.emitFunction f).2 = .ok address := by
  cases op with
  | emit f =>
    refine (em.emitFunction_found f id).imp_right ?_
    rintro ⟨hid, address, hok⟩
    exact ⟨f, address, rfl, hid, hok⟩
  | resolve => exact absurd rfl hop
  | deallocate j => exact .inl (em.deallocate_found j id)
  | globalAddress g =>
    exact .inl (found_of_eq (congrArg (·.get? id) (em.globalAddress_untouched g).functions))
  | allocateSpace size alignment =>
    exact .inl (found_of_eq (congrArg (·.get? id) (em.allocateSpace_untouched size alignment).functions))
  | makeExecutable j => exact .inl (em.makeExecutable_found j id)
  | addGlobal g => exact .inl (found_of_eq rfl)
  | addAlias a => exact .inl (found_of_eq rfl)
  | defineSymbol name address => exact .inl (found_of_eq rfl)
  | setSink sink => exact .inl (found_of_eq rfl)

end Emitter

end CodeEmission
