import CodeEmission.Proofs.Emitter.Later

/-! # Runs

An emitter is used by carrying out one operation after another, and every operation may succeed or
fail. What holds of all states that are reached this way is proved for a single operation first.
-/

namespace CodeEmission

inductive Operation where
  | emit (f : MachineFunction)
  | deallocate (id : FuncId)
  | resolve
  | globalAddress (g : GlobalRef)
  | addGlobal (g : GlobalVariable)
  | addAlias (a : GlobalAlias)
  | defineSymbol (name : String) (address : UInt64)
  | allocateSpace (size alignment : Nat)
  | makeExecutable (id : FuncId)
  | setSink (sink : Sink)

def MachineFunction.nopRet : MachineFunction where
  id := ⟨0⟩
  name := "f"
  blocks := [{ number := ⟨0⟩, insts := [.nop, .ret] }]

namespace Emitter

variable {em em' : Emitter}

/-- The state after an operation, whether it succeeds or not. -/
def perform (em : Emitter) : Operation → Emitter
  | .emit f => (em.emitFunction f).1
  | .deallocate id => (em.deallocate id).1
  | .resolve => em.resolveRelocations.1
  | .globalAddress g => (em.globalAddress g).1
  | .addGlobal g => em.addGlobal g
  | .addAlias a => em.addAlias a
  | .defineSymbol name address => em.defineSymbol name address
  | .allocateSpace size alignment => (em.allocateSpace size alignment).1
  | .makeExecutable id => (em.makeExecutable id).1
  | .setSink sink => { em with sink }

def run (em : Emitter) (ops : List Operation) : Emitter := ops.foldl perform em

/-- The states of an emitter for x86-64, whatever it was made from and asked for. -/
def Reachable (em : Emitter) : Prop :=
  ∃ module config host sink ops, em = (new .x86_64 module config host sink).run ops

theorem Reachable.induction {P : Emitter → Prop}
    (hnew : ∀ module config host sink, P (new .x86_64 module config host sink))
    (hstep : ∀ em op, P em → P (em.perform op)) (h : em.Reachable) : P em := by
  obtain ⟨module, config, host, sink, ops, rfl⟩ := h
  have hrun (em : Emitter) (hem : P em) : P (em.run ops) := by
    induction ops generalizing em with
    | nil => exact hem
    | cons op ops ih => exact ih _ (hstep em op hem)
  exact hrun _ (hnew module config host sink)

theorem Reachable.perform (h : em.Reachable) (op : Operation) : (em.perform op).Reachable := by
  obtain ⟨module, config, host, sink, ops, rfl⟩ := h
  exact ⟨module, config, host, sink, ops ++ [op], (List.foldl_concat _ _ _ _).symm⟩

theorem perform_later (em : Emitter) (op : Operation) : em.Later (em.perform op) := by
  cases op with
  | emit f => exact emitFunction_later em f
  | deallocate id => exact deallocate_later em id
  | resolve =>
    have h := resolveEach_later em em.pending
    rwa [← resolveRelocations_fst] at h
  | globalAddress g => exact (globalAddress_untouched em g).toLater
  | addGlobal g =>
    exact ⟨rfl, rfl, List.prefix_append _ _, List.prefix_refl _, fun _ _ h => h, id, id⟩
  | addAlias a =>
    exact ⟨rfl, rfl, List.prefix_refl _, List.prefix_append _ _, fun _ _ h => h, id, id⟩
  | defineSymbol name address => exact SameSetting.later ⟨rfl, rfl, rfl, rfl⟩ id id
  | allocateSpace size alignment => exact (allocateSpace_untouched em size alignment).toLater
  | makeExecutable id => exact modifyFunction_later em id _
  | setSink sink => exact SameSetting.later ⟨rfl, rfl, rfl, rfl⟩ id id

theorem Reachable.target (h : em.Reachable) : em.target = .x86_64 := by
  refine h.induction (P := fun em => em.target = .x86_64) (fun _ _ _ _ => rfl) ?_
  intro em op hem
  rw [(perform_later em op).target, hem]

theorem Reachable.sizeEstimate (h : em.Reachable) : em.sizeEstimate = 0 := by
  refine h.induction (P := fun em => em.sizeEstimate = 0) (fun _ _ _ _ => rfl) ?_
  intro em op hem
  exact (perform_later em op).idle hem

theorem Reachable.ascending (h : em.Reachable) : em.functions.Ascending := by
  refine h.induction (P := fun em => em.functions.Ascending) (fun _ _ _ _ => .nil) ?_
  intro em op hem
  exact (perform_later em op).ascending hem

theorem Reachable.nextSize (h : em.Reachable) :
    em.nextSize = max em.config.initialBufferSize.toNat 1 := by
  rw [Emitter.nextSize, if_pos h.sizeEstimate]

end Emitter

end CodeEmission
