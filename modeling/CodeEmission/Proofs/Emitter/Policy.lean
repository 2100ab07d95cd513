import CodeEmission.Proofs.Resolution.Soundness

/-! # The policy for violated invariants

An emitter may be told to stop the program at a violated invariant instead of returning an error. It
goes through the same states either way, since an outcome is looked at only when the operation is
over; what differs is how a violation is reported. A deallocation is not looked at.
-/

namespace CodeEmission

inductive Answer where
  | done
  | address (a : UInt64)
  | count (n : Nat)
  | found (b : Bool)
  deriving DecidableEq, Repr

namespace Operation

/-- Operations that return their errors whatever the policy is. -/
def isUnchecked : Operation → Bool
  | .deallocate _ | .globalAddress _ => true
  | _ => false

end Operation

def Failure.unchecked (e : EmitError) : Failure := if e.isCrash then .abort e else .error e

/-- Outcomes under the two policies: the program is stopped by exactly the violations that are
returned otherwise and by what stops it in any case, which is only a crash. Where it is not stopped
both outcomes are the same. -/
structure DifferByPolicy (lenient strict : Except Failure Answer) : Prop where
  stops : ∀ e, strict = .error (.abort e) ↔
    lenient = .error (.error e) ∧ e.isInvariantViolation = true ∨ lenient = .error (.abort e)
  crash : ∀ e, lenient = .error (.abort e) → e.isCrash = true
  same : (∀ e, strict ≠ .error (.abort e)) → strict = lenient

namespace DifferByPolicy

variable {lenient strict : Except Failure Answer}

theorem not_violation (h : DifferByPolicy lenient strict) {e : EmitError}
    (he : strict = .error (.error e)) : e.isInvariantViolation = false := by
  have hsame : strict = lenient := h.same fun e' habort => by
    rw [he] at habort
    cases habort
  cases hv : e.isInvariantViolation with
  | false => rfl
  | true =>
    have hstop := (h.stops e).2 (.inl ⟨hsame ▸ he, hv⟩)
    rw [he] at hstop
    cases hstop

theorem of_not_violation (hlenient : ∀ e, lenient = .error (.error e) →
    e.isInvariantViolation = false) (hcrash : ∀ e, lenient = .error (.abort e) → e.isCrash = true) :
    DifferByPolicy lenient lenient := by
  refine ⟨fun e => ⟨.inr, ?_⟩, hcrash, fun _ => rfl⟩
  rintro (⟨he, hv⟩ | he)
  · rw [hlenient e he] at hv
    cases hv
  · exact he

theorem of_unchecked {α : Type} {e : EmitError} {f : α → Answer}
    (h : e.isInvariantViolation = false) :
    DifferByPolicy (Except.map f (.error (Failure.unchecked e)))
      (Except.map f (.error (Failure.unchecked e))) := by
  unfold Failure.unchecked
  split
  · rename_i hc
    refine of_not_violation nofun ?_
    intro e' he
    cases he
    exact hc
  · refine of_not_violation ?_ nofun
    intro e' he
    cases he
    exact h

end DifferByPolicy

namespace Emitter

def withPolicy (em : Emitter) (stop : Bool) : Emitter :=
  { em with config := { em.config with abortOnInvariantViolation := stop } }

def reply (em : Emitter) : Operation → Except Failure Answer
  | .emit f => (em.emitFunction f).2.map .address
  | .deallocate id => ((em.deallocate id).2.mapError Failure.unchecked).map .found
  | .resolve => em.resolveRelocations.2.map .count
  | .globalAddress g => ((em.globalAddress g).2.mapError Failure.unchecked).map .address
  | .allocateSpace size alignment =>
    ((em.allocateSpace size alignment).2.mapError Failure.unchecked).map .address
  | .makeExecutable id => .ok (.found (em.makeExecutable id).2)
  | .addGlobal _ | .addAlias _ | .defineSymbol .. | .setSink _ => .ok .done

variable (em : Emitter) (stop : Bool)

section Dependents

theorem patchedDependents_withPolicy (id : FuncId) :
    (em.withPolicy stop).patchedDependents id = em.patchedDependents id := by
  have hmodule : (em.withPolicy stop).module = em.module := rfl
  have hfunctions : (em.withPolicy stop).functions = em.functions := rfl
  exact patchedDependents_congr hmodule hfunctions id

theorem unresolve_withPolicy (id : FuncId) :
    (em.withPolicy stop).unresolve id = (em.unresolve id).withPolicy stop := by
  have hcontains : (em.withPolicy stop).functions.contains id = em.functions.contains id := rfl
  unfold unresolve
  rw [hcontains]
  split <;> rfl

theorem unresolveAll_withPolicy (ids : List FuncId) :
    (em.withPolicy stop).unresolveAll ids = (em.unresolveAll ids).withPolicy stop := by
  unfold unresolveAll
  induction ids generalizing em with
  | nil => rfl
  | cons id ids ih => rw [List.foldl_cons, List.foldl_cons, unresolve_withPolicy, ih]

theorem deallocate_withPolicy (id : FuncId) :
    (em.withPolicy stop).deallocate id =
      ((em.deallocate id).1.withPolicy stop, (em.deallocate id).2) := by
  cases hd : em.patchedDependents id with
  | error e =>
    rw [deallocate_of_error hd, deallocate_of_error ((patchedDependents_withPolicy ..).trans hd)]
    rfl
  | ok ids =>
    rw [deallocate_of_dependents hd,
      deallocate_of_dependents ((patchedDependents_withPolicy ..).trans hd),
      ← unresolveAll_withPolicy]
    rfl

end Dependents

section Emission

theorem commit_withPolicy (f : MachineFunction) (d : Draft) :
    (em.withPolicy stop).commit f d = ((em.commit f d).1.withPolicy stop, (em.commit f d).2) := by
  unfold commit
  dsimp only
  have hcontains (e : Event) : ((em.withPolicy stop).report e).functions.contains f.id =
      (em.report e).functions.contains f.id := rfl
  rw [hcontains]
  split <;> rfl

theorem attempt_withPolicy (f : MachineFunction) (size : Nat) :
    (em.withPolicy stop).attempt f size =
      ((em.attempt f size).1.withPolicy stop, (em.attempt f size).2) := by
  have hlayOut (em : Emitter) (block : Block) :
      Draft.layOut (em.withPolicy stop).target (em.withPolicy stop).config f { block } =
        Draft.layOut em.target em.config f { block } := rfl
  fun_induction attempt em f size with
  | case1 em size e hmap =>
    have hmap' : (em.withPolicy stop).host.map size = .error e := hmap
    rw [attempt_of_map_error hmap']
  | case2 em size block host hmap em1 failure hlay =>
    have hmap' : (em.withPolicy stop).host.map size = .ok (block, host) := hmap
    rw [attempt_of_map hmap', hlayOut, hlay]
    rfl
  | case3 em size block host hmap em1 d hlay em2 hex ih =>
    have hmap' : (em.withPolicy stop).host.map size = .ok (block, host) := hmap
    rw [attempt_of_map hmap', hlayOut, hlay]
    dsimp only
    rw [if_pos hex]
    exact ih
  | case4 em size block host hmap em1 d hlay em2 hex em3 address hcommit =>
    have hmap' : (em.withPolicy stop).host.map size = .ok (block, host) := hmap
    have hpolicy := commit_withPolicy em2 stop f d
    rw [hcommit] at hpolicy
    rw [attempt_of_map hmap', hlayOut, hlay]
    dsimp only
    rw [if_neg hex]
    exact congrArg (fun c : Emitter × UInt64 => (c.1, Except.ok c.2)) hpolicy

theorem settle_withPolicy (em : Emitter) (ids : List FuncId) (result : Except EmitError UInt64) :
    (em.withPolicy stop).settle ids result = (em.settle ids result).withPolicy stop := by
  have hall := unresolveAll_withPolicy em stop ids
  cases result with
  | ok _ => exact hall
  | error e =>
    cases e
    case crash => rfl
    all_goals
      unfold settle
      dsimp only
      rw [hall]
      rfl

/-- An emission is looked at when all of it is over. -/
theorem emitFunction_withPolicy (em : Emitter) (f : MachineFunction) :
    ∃ result, ∀ stop, (em.withPolicy stop).emitFunction f =
      ((em.emitFunction f).1.withPolicy stop,
        ((em.emitFunction f).1.withPolicy stop).check result) := by
  cases hd : em.patchedDependents f.id with
  | error e =>
    refine ⟨.error e, fun stop => ?_⟩
    rw [emitFunction_of_error hd,
      emitFunction_of_error ((patchedDependents_withPolicy ..).trans hd)]
    rfl
  | ok ids =>
    rcases ha : (em.report (.emitting f.name f.id)).attempt f em.nextSize with ⟨em', result⟩
    refine ⟨result, fun stop => ?_⟩
    have hattempt := attempt_withPolicy (em.report (.emitting f.name f.id)) stop f em.nextSize
    rw [ha] at hattempt
    rw [emitFunction_of_attempt hd ha,
      emitFunction_of_attempt ((patchedDependents_withPolicy ..).trans hd) hattempt,
      settle_withPolicy]

end Emission

section Resolution

theorem variableAddress_withPolicy (g : GlobalVariable) :
    (em.withPolicy stop).variableAddress g =
      ((em.variableAddress g).1.withPolicy stop, (em.variableAddress g).2) := by
  have haddress : (em.withPolicy stop).arena.addressOf (em.withPolicy stop).target g =
      em.arena.addressOf em.target g := rfl
  unfold variableAddress
  rw [haddress]
  split <;> rfl

theorem globalAddress_withPolicy (g : GlobalRef) :
    (em.withPolicy stop).globalAddress g =
      ((em.globalAddress g).1.withPolicy stop, (em.globalAddress g).2) := by
  have hmodule : (em.withPolicy stop).module = em.module := rfl
  unfold globalAddress
  rw [hmodule]
  split
  · rfl
  · rfl
  · exact variableAddress_withPolicy em stop _

theorem symbolAddress_withPolicy (name : String) :
    (em.withPolicy stop).symbolAddress name =
      ((em.symbolAddress name).1.withPolicy stop, (em.symbolAddress name).2) := by
  have hlookup : (em.withPolicy stop).symbols.lookup (em.withPolicy stop).host name =
      em.symbols.lookup em.host name := rfl
  unfold symbolAddress
  rw [hlookup]
  dsimp only
  split <;> rfl

theorem targetAddress_withPolicy (r : FunctionRecord) (target : RelocTarget) :
    (em.withPolicy stop).targetAddress r target =
      ((em.targetAddress r target).1.withPolicy stop, (em.targetAddress r target).2) := by
  cases target with
  | externalSymbol name => exact symbolAddress_withPolicy em stop name
  | globalValue g => exact globalAddress_withPolicy em stop g
  | indirectSymbol g => exact globalAddress_withPolicy em stop g
  | _ => rfl

theorem resolveTargets_withPolicy (r : FunctionRecord) (relocs : List Relocation) :
    (em.withPolicy stop).resolveTargets r relocs =
      ((em.resolveTargets r relocs).1.withPolicy stop, (em.resolveTargets r relocs).2) := by
  induction relocs generalizing em with
  | nil => rfl
  | cons reloc relocs ih =>
    unfold resolveTargets
    rw [targetAddress_withPolicy]
    split
    · rw [ih]
    · rcases em.targetAddress r reloc.target with ⟨em', e | address⟩
      · rfl
      · have hreport (e : Event) : (em'.withPolicy stop).report e =
          (em'.report e).withPolicy stop := rfl
        dsimp only
        rw [hreport, ih]

theorem tryResolve_withPolicy (r : FunctionRecord) :
    (em.withPolicy stop).tryResolve r =
      ((em.tryResolve r).1.withPolicy stop, (em.tryResolve r).2) := by
  unfold tryResolve
  rw [resolveTargets_withPolicy]
  rcases em.resolveTargets r r.relocations with ⟨em', relocations, fault | e⟩
  · dsimp only
    have htarget : (em'.withPolicy stop).target = em'.target := rfl
    rw [htarget]
    split <;> rfl
  · rfl

theorem afterFault_withPolicy (id : FuncId) (fault : Option EmitError) :
    (em.withPolicy stop).afterFault id fault = (em.afterFault id fault).withPolicy stop := by
  unfold afterFault
  split <;> rfl

theorem resolveFunction_withPolicy (r : FunctionRecord) :
    (em.withPolicy stop).resolveFunction r =
      ((em.resolveFunction r).1.withPolicy stop, (em.resolveFunction r).2) := by
  unfold resolveFunction
  rw [tryResolve_withPolicy]
  dsimp only
  rw [afterFault_withPolicy]

theorem resolveEach_withPolicy (ids : List FuncId) :
    (em.withPolicy stop).resolveEach ids =
      ((em.resolveEach ids).1.withPolicy stop, (em.resolveEach ids).2) := by
  induction ids generalizing em with
  | nil => rfl
  | cons id ids ih =>
    have hfunction : (em.withPolicy stop).function? id = em.function? id := rfl
    unfold resolveEach
    rw [hfunction]
    split
    · rfl
    · rename_i r _
      rw [resolveFunction_withPolicy]
      rcases em.resolveFunction r with ⟨em', fault | e⟩
      · exact ih em'
      · rfl

/-- A pass is looked at when all of it is over. -/
theorem resolveRelocations_withPolicy :
    ∃ result, ∀ stop, (em.withPolicy stop).resolveRelocations =
      (em.resolveRelocations.1.withPolicy stop,
        (em.resolveRelocations.1.withPolicy stop).check result) := by
  have hpending (stop : Bool) : (em.withPolicy stop).pending = em.pending := rfl
  rcases he : em.resolveEach em.pending with ⟨em', fault | e⟩
  · refine ⟨.ok em.pending.length, fun stop => ?_⟩
    simp only [resolveRelocations, hpending, resolveEach_withPolicy, he]
    rfl
  · refine ⟨.error e, fun stop => ?_⟩
    simp only [resolveRelocations, hpending, resolveEach_withPolicy, he]

end Resolution

section Runs

theorem allocateSpace_withPolicy (size alignment : Nat) :
    (em.withPolicy stop).allocateSpace size alignment =
      ((em.allocateSpace size alignment).1.withPolicy stop,
        (em.allocateSpace size alignment).2) := by
  have hhost : (em.withPolicy stop).host = em.host := rfl
  unfold allocateSpace
  rw [hhost]
  dsimp only
  split
  · rfl
  · split <;> rfl

/-- No operation leads to another state because of the policy. -/
theorem perform_withPolicy (op : Operation) :
    (em.withPolicy stop).perform op = (em.perform op).withPolicy stop := by
  cases op with
  | emit f =>
    obtain ⟨_, h⟩ := emitFunction_withPolicy em f
    exact congrArg Prod.fst (h stop)
  | deallocate id => exact congrArg Prod.fst (deallocate_withPolicy em stop id)
  | resolve =>
    obtain ⟨_, h⟩ := resolveRelocations_withPolicy em
    exact congrArg Prod.fst (h stop)
  | globalAddress g => exact congrArg Prod.fst (globalAddress_withPolicy em stop g)
  | allocateSpace size alignment =>
    exact congrArg Prod.fst (allocateSpace_withPolicy em stop size alignment)
  | _ => rfl

theorem run_withPolicy (ops : List Operation) :
    (em.withPolicy stop).run ops = (em.run ops).withPolicy stop := by
  unfold run
  induction ops generalizing em with
  | nil => rfl
  | cons op ops ih => rw [List.foldl_cons, List.foldl_cons, perform_withPolicy, ih]

/-- Where an outcome is looked at, the policies differ in what they do with a violation. -/
theorem check_differByPolicy {α : Type} (result : Except EmitError α) (f : α → Answer) :
    DifferByPolicy (((em.withPolicy false).check result).map f)
      (((em.withPolicy true).check result).map f) := by
  cases result with
  | ok a => refine .of_not_violation ?_ ?_ <;> intro e he <;> cases he
  | error e =>
    have hlenient : (em.withPolicy false).check (.error e : Except EmitError α) =
        .error (Failure.unchecked e) := by
      cases hc : e.isCrash <;> simp [check, stopsAt, withPolicy, Failure.unchecked, hc]
    rw [hlenient]
    cases hv : e.isInvariantViolation with
    | false =>
      have hstrict : (em.withPolicy true).check (.error e : Except EmitError α) =
          .error (Failure.unchecked e) := by
        cases hc : e.isCrash <;> simp [check, stopsAt, Failure.unchecked, hv, hc]
      rw [hstrict]
      exact .of_unchecked hv
    | true =>
      have hc : e.isCrash = false := by
        rw [EmitError.isCrash_eq_false]
        rintro step rfl
        cases hv
      have hstrict : (em.withPolicy true).check (.error e : Except EmitError α) =
          .error (.abort e) := by simp [check, stopsAt, withPolicy, hv]
      rw [hstrict, Failure.unchecked, hc]
      refine ⟨fun e' => ⟨?_, ?_⟩, fun e' h => ?_, fun hnot => absurd rfl (hnot e)⟩
      · intro h
        cases h
        exact .inl ⟨rfl, hv⟩
      · rintro (⟨h, _⟩ | h) <;> cases h
        rfl
      · cases h

/-- All operations but two have their outcome looked at, or cannot violate an invariant. -/
theorem reply_differByPolicy {op : Operation} (h : op.isUnchecked = false) :
    DifferByPolicy ((em.withPolicy false).reply op) ((em.withPolicy true).reply op) := by
  cases op with
  | emit f =>
    obtain ⟨result, hresult⟩ := emitFunction_withPolicy em f
    simp only [reply, hresult]
    exact check_differByPolicy _ result .address
  | resolve =>
    obtain ⟨result, hresult⟩ := resolveRelocations_withPolicy em
    simp only [reply, hresult]
    exact check_differByPolicy _ result .count
  | allocateSpace size alignment =>
    simp only [reply, allocateSpace_withPolicy]
    unfold allocateSpace
    dsimp only
    split
    · exact .of_unchecked rfl
    · split
      · exact .of_unchecked rfl
      · exact .of_not_violation nofun nofun
  | deallocate id => cases h
  | globalAddress g => cases h
  | _ => exact .of_not_violation nofun nofun

theorem reply_eq_of_isUnchecked {op : Operation} (h : op.isUnchecked = true) :
    (em.withPolicy stop).reply op = em.reply op := by
  cases op with
  | deallocate id => simp only [reply, deallocate_withPolicy]
  | globalAddress g => simp only [reply, globalAddress_withPolicy]
  | _ => cases h

/-- A deallocation is reported as the policies ask for exactly if it is not refused. -/
theorem deallocate_differByPolicy_iff (id : FuncId) :
    DifferByPolicy ((em.withPolicy false).reply (.deallocate id))
        ((em.withPolicy true).reply (.deallocate id)) ↔
      ∃ removed, (em.deallocate id).2 = .ok removed := by
  rw [reply_eq_of_isUnchecked em true rfl, reply_eq_of_isUnchecked em false rfl]
  simp only [reply]
  cases hd : em.patchedDependents id with
  | error e =>
    obtain ⟨dependent, rfl⟩ := patchedDependents_error hd
    rw [deallocate_of_error hd]
    constructor
    · intro h
      have hstop := (h.stops (.dependentExecutable id dependent)).2 (.inl ⟨rfl, rfl⟩)
      cases hstop
    · rintro ⟨removed, hremoved⟩
      cases hremoved
  | ok ids =>
    rw [deallocate_of_dependents hd]
    exact ⟨fun _ => ⟨_, rfl⟩, fun _ => .of_not_violation nofun nofun⟩

/-- Two emitters that differ only in the policy are in the same state, the policy apart, after any
operations. The next operation stops the program under the one policy exactly if it returns a
violation under the other or stops the program under both, and does the same otherwise, with the
exception of a deallocation that is refused, which returns the violation under both. -/
theorem run_lockstep (em : Emitter) (ops : List Operation) (op : Operation) :
    let lenient := (em.withPolicy false).run ops
    let strict := (em.withPolicy true).run ops
    strict = lenient.withPolicy true ∧ strict.perform op = (lenient.perform op).withPolicy true ∧
      (op.isUnchecked = false →
        DifferByPolicy (lenient.reply op) (strict.reply op) ∧
          ∀ e, strict.reply op = .error (.error e) → e.isInvariantViolation = false) ∧
      (op.isUnchecked = true → strict.reply op = lenient.reply op) ∧
      ∀ id, DifferByPolicy (lenient.reply (.deallocate id)) (strict.reply (.deallocate id)) ↔
        ∃ removed, (lenient.deallocate id).2 = .ok removed := by
  intro lenient strict
  have hlenient : lenient = (em.run ops).withPolicy false := run_withPolicy em false ops
  have hstrict : strict = (em.run ops).withPolicy true := run_withPolicy em true ops
  rw [hlenient, hstrict]
  refine ⟨rfl, ?_, ?_, ?_, ?_⟩
  · rw [perform_withPolicy, perform_withPolicy]
    rfl
  · intro hop
    have hdiffer := reply_differByPolicy (em.run ops) hop
    exact ⟨hdiffer, fun e he => hdiffer.not_violation he⟩
  · intro hop
    rw [reply_eq_of_isUnchecked _ true hop, reply_eq_of_isUnchecked _ false hop]
  · intro id
    rw [deallocate_withPolicy]
    exact deallocate_differByPolicy_iff (em.run ops) id

/-- A function with a block twice stops the program under the one policy. -/
theorem run_lockstep_duplicate :
    let f := { MachineFunction.nopRet with blocks := [⟨⟨0⟩, []⟩, ⟨⟨0⟩, [.ret]⟩] }
    (Operation.emit f).isUnchecked = false ∧
      ((new .x86_64 {} {} {}).withPolicy true).reply (.emit f) =
        .error (.abort (.duplicateBlock ⟨0⟩)) := by
  intro f
  obtain ⟨-, -, hchecked, -⟩ := run_lockstep (new .x86_64 {} {} {}) [] (.emit f)
  refine ⟨rfl, ((hchecked rfl).1.stops _).2 (.inl ⟨?_, rfl⟩)⟩
  decide +kernel

/-- A function that executable code refers to is not deallocated, and the violation is returned also
by the emitter that is to stop the program. -/
theorem run_lockstep_refused :
    let ops : List Operation := [.emit .nopRet, .emit callLoop, .resolve, .makeExecutable ⟨1⟩]
    let e : EmitError := .dependentExecutable ⟨0⟩ ⟨1⟩
    e.isInvariantViolation = true ∧
      (((new .x86_64 {} {} {}).withPolicy false).run ops).reply (.deallocate ⟨0⟩) =
        .error (.error e) ∧
      (((new .x86_64 {} {} {}).withPolicy true).run ops).reply (.deallocate ⟨0⟩) =
        .error (.error e) := by
  refine ⟨rfl, ?_, ?_⟩ <;> decide +kernel

end Runs

end Emitter

end CodeEmission
