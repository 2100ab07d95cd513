import CodeEmission.Emitter.Resolution
import CodeEmission.Proofs.Arena.Rollback
import CodeEmission.Proofs.Emitter.Destinations
import CodeEmission.Proofs.Emitter.Emission

/-! # Later states

Whatever is done with an emitter, its target and settings stay, declarations and places in the arena
are only added, and no emission is left half done. What a reference to a global leads to therefore
stays too, as long as the function it leads to does.
-/

namespace CodeEmission

namespace Arena

variable {a b : Arena} {t : Target} {g : GlobalVariable}

@[simp] theorem slot?_placed (a : Arena) (t : Target) (g : GlobalVariable) (start : ArenaOffset)
    (id : GlobalId) :
    (a.placed t g start).slot? id = if g.id = id then some start else a.slot? id :=
  IdMap.get?_insert a.slots g.id id start

theorem addressOf_keeps (a : Arena) (t : Target) (g : GlobalVariable) {id : GlobalId}
    {o : ArenaOffset} (ho : a.slot? id = some o) : (a.addressOf t g).1.slot? id = some o := by
  have houtcome := addressOf_outcome a t g
  generalize a.addressOf t g = result at houtcome ⊢
  cases houtcome with
  | known _ => exact ho
  | failed _ => exact ho
  | placed new =>
    have hne : g.id ≠ id := by
      rintro rfl
      rw [new] at ho
      cases ho
    rw [slot?_placed, if_neg hne, ho]

theorem addressOf_slot {answer : Answer} (h : a.addressOf t g = (b, .ok answer)) :
    b.slot? g.id = some answer.offset := by
  have houtcome := addressOf_outcome a t g
  rw [h] at houtcome
  cases houtcome with
  | known found => exact found
  | placed => rw [slot?_placed, if_pos rfl]

end Arena

namespace Emitter

variable {em em' em'' : Emitter} {g : GlobalRef} {a : UInt64}

/-- What a later state has kept of an earlier one. -/
structure Later (em em' : Emitter) : Prop where
  target : em'.target = em.target
  config : em'.config = em.config
  globals : em.module.globals <+: em'.module.globals
  aliases : em.module.aliases <+: em'.module.aliases
  slots : ∀ id o, em.arena.slot? id = some o → em'.arena.slot? id = some o
  idle : em.sizeEstimate = 0 → em'.sizeEstimate = 0
  ascending : em.functions.Ascending → em'.functions.Ascending

theorem Later.trans (h : em.Later em') (h' : em'.Later em'') : em.Later em'' where
  target := h'.target.trans h.target
  config := h'.config.trans h.config
  globals := h.globals.trans h'.globals
  aliases := h.aliases.trans h'.aliases
  slots id o ho := h'.slots id o (h.slots id o ho)
  idle hi := h'.idle (h.idle hi)
  ascending ha := h'.ascending (h.ascending ha)

theorem SameSetting.later (h : em.SameSetting em')
    (hi : em.sizeEstimate = 0 → em'.sizeEstimate = 0)
    (ha : em.functions.Ascending → em'.functions.Ascending) : em.Later em' where
  target := h.target
  config := h.config
  globals := h.module ▸ List.prefix_refl _
  aliases := h.module ▸ List.prefix_refl _
  slots id o ho := by rwa [h.arena]
  idle := hi
  ascending := ha

theorem Later.refl (em : Emitter) : em.Later em := (SameSetting.refl em).later id id

structure Untouched (em em' : Emitter) : Prop extends Later em em' where
  functions : em'.functions = em.functions

theorem SameSetting.untouched (h : em.SameSetting em') (hs : em'.sizeEstimate = em.sizeEstimate)
    (hf : em'.functions = em.functions) : em.Untouched em' where
  toLater := h.later (fun hi => hs.trans hi) fun ha => hf ▸ ha
  functions := hf

theorem Untouched.refl (em : Emitter) : em.Untouched em := ⟨.refl em, rfl⟩

theorem Untouched.trans (h : em.Untouched em') (h' : em'.Untouched em'') : em.Untouched em'' :=
  ⟨h.toLater.trans h'.toLater, h'.functions.trans h.functions⟩

/-- What a reference to a global leads to at present, if no variable has to get its place first. -/
inductive Leads (em : Emitter) (g : GlobalRef) : UInt64 → Prop
  | function {id : FuncId} {r : FunctionRecord}
      (ends : em.module.destination (em.module.aliases.length + 1) g = .ok (.function id))
      (committed : em.function? id = some r) : Leads em g r.codeAddress
  | variable {v : GlobalVariable} {o : ArenaOffset}
      (ends : em.module.destination (em.module.aliases.length + 1) g = .ok (.variable v))
      (placed : em.arena.slot? v.id = some o) : Leads em g o.tagged

theorem Leads.globalAddress (h : em.Leads g a) : em.globalAddress g = (em, .ok a) := by
  cases h with
  | function ends committed => simp only [Emitter.globalAddress, ends, functionAddress, committed]
  | «variable» ends placed =>
    simp only [Emitter.globalAddress, ends, variableAddress, Arena.addressOf_of_slot placed]
    rfl

theorem Later.destination (h : em.Later em') {target : Module.Destination}
    (hd : em.module.destination (em.module.aliases.length + 1) g = .ok target) :
    em'.module.destination (em'.module.aliases.length + 1) g = .ok target :=
  Module.destination_of_prefix h.globals h.aliases (Nat.succ_le_succ h.aliases.length_le) hd

/-- A reference leads to the same address later if the function it leads to is where it was. -/
theorem Leads.later (h : em.Leads g a) (hl : em.Later em')
    (hf : ∀ id r, em.module.destination (em.module.aliases.length + 1) g = .ok (.function id) →
      em.function? id = some r →
        ∃ r', em'.function? id = some r' ∧ r'.codeAddress = r.codeAddress) : em'.Leads g a := by
  cases h with
  | function ends committed =>
    obtain ⟨r', hr', ha⟩ := hf _ _ ends committed
    rw [← ha]
    exact .function (hl.destination ends) hr'
  | «variable» ends placed => exact .variable (hl.destination ends) (hl.slots _ _ placed)

theorem globalAddress_untouched (em : Emitter) (g : GlobalRef) :
    em.Untouched (em.globalAddress g).1 := by
  unfold globalAddress
  split
  · exact .refl em
  · exact .refl em
  · rename_i v _
    have hslots (id : GlobalId) (o : ArenaOffset) (ho : em.arena.slot? id = some o) :=
      em.arena.addressOf_keeps em.target v ho
    unfold variableAddress
    split
    · rename_i ha
      rw [ha] at hslots
      exact ⟨⟨rfl, rfl, List.prefix_refl _, List.prefix_refl _, hslots, id, id⟩, rfl⟩
    · rename_i ha
      rw [ha] at hslots
      exact ⟨⟨rfl, rfl, List.prefix_refl _, List.prefix_refl _, hslots, id, id⟩, rfl⟩

theorem leads_of_globalAddress (h : em.globalAddress g = (em', .ok a)) : em'.Leads g a := by
  unfold globalAddress at h
  split at h
  · cases h
  · rename_i id hd
    unfold functionAddress at h
    split at h
    · rename_i r hr
      cases h
      exact .function hd hr
    · cases h
  · rename_i v hd
    unfold variableAddress at h
    split at h
    · cases h
    · rename_i answer ha
      cases h
      exact .variable hd (Arena.addressOf_slot ha)

theorem Leads.function_of_reaches {j : FuncId} (h : em.Leads g a)
    (hreach : em.module.Reaches g (.function j)) :
    ∃ s, em.function? j = some s ∧ a = s.codeAddress := by
  have hdest := Module.destination_eq_function.2 hreach
  cases h with
  | function ends committed =>
    rw [hdest] at ends
    cases ends
    exact ⟨_, committed, rfl⟩
  | «variable» ends _ =>
    rw [hdest] at ends
    cases ends

theorem symbolAddress_untouched (em : Emitter) (name : String) :
    em.Untouched (em.symbolAddress name).1 := by
  unfold symbolAddress
  dsimp only
  split <;> exact SameSetting.untouched ⟨rfl, rfl, rfl, rfl⟩ rfl rfl

theorem targetAddress_untouched (em : Emitter) (r : FunctionRecord) (t : RelocTarget) :
    em.Untouched (em.targetAddress r t).1 := by
  cases t with
  | externalSymbol name => exact symbolAddress_untouched em name
  | globalValue g => exact globalAddress_untouched em g
  | indirectSymbol g => exact globalAddress_untouched em g
  | basicBlock b => exact .refl em
  | constantPool i => exact .refl em
  | jumpTable i => exact .refl em

theorem resolveTargets_untouched (em : Emitter) (r : FunctionRecord) (relocs : List Relocation) :
    em.Untouched (em.resolveTargets r relocs).1 := by
  fun_induction resolveTargets em r relocs with
  | case1 em => exact .refl em
  | case2 em reloc relocs _ em' relocs' fault hrest ih =>
    rw [hrest] at ih
    exact ih
  | case3 em reloc relocs _ em' e ha =>
    have hu := targetAddress_untouched em r reloc.target
    rw [ha] at hu
    exact hu
  | case4 em reloc relocs _ em' address ha em1 em2 relocs' fault hrest ih =>
    have hu := targetAddress_untouched em r reloc.target
    rw [ha] at hu
    rw [hrest] at ih
    have hreport : em'.Untouched em1 := SameSetting.untouched ⟨rfl, rfl, rfl, rfl⟩ rfl rfl
    exact (hu.trans hreport).trans ih

theorem modifyFunction_later (em : Emitter) (id : FuncId) (f : FunctionRecord → FunctionRecord) :
    em.Later (em.modifyFunction id f) :=
  SameSetting.later ⟨rfl, rfl, rfl, rfl⟩ (fun h => h) fun h => h.modify id _

theorem putRecord_later (em : Emitter) (r : FunctionRecord) : em.Later (em.putRecord r) :=
  modifyFunction_later em r.id _

theorem tryResolve_later (em : Emitter) (r : FunctionRecord) : em.Later (em.tryResolve r).1 := by
  have hu := (resolveTargets_untouched em r r.relocations).toLater
  unfold tryResolve
  split
  · rename_i hres
    rw [hres] at hu
    exact hu.trans (putRecord_later _ _)
  · rename_i hres
    rw [hres] at hu
    split
    · exact hu.trans (putRecord_later _ _)
    · exact (hu.trans (putRecord_later _ _)).trans
        (SameSetting.later ⟨rfl, rfl, rfl, rfl⟩ id id)

theorem afterFault_later (em : Emitter) (id : FuncId) (fault : Option EmitError) :
    em.Later (em.afterFault id fault) := by
  unfold afterFault
  split
  · exact modifyFunction_later em id _
  · exact .refl em

theorem resolveFunction_later (em : Emitter) (r : FunctionRecord) :
    em.Later (em.resolveFunction r).1 :=
  (tryResolve_later em r).trans (afterFault_later _ r.id _)

theorem resolveEach_later (em : Emitter) (ids : List FuncId) : em.Later (em.resolveEach ids).1 := by
  induction ids generalizing em with
  | nil => exact .refl em
  | cons id ids ih =>
    unfold resolveEach
    split
    · exact .refl em
    · rename_i r _
      have hl := resolveFunction_later em r
      split
      · rename_i hres
        rw [hres] at hl
        exact hl
      · rename_i hres
        rw [hres] at hl
        exact hl.trans (ih _)

theorem resolveRelocations_fst (em : Emitter) :
    em.resolveRelocations.1 = (em.resolveEach em.pending).1 := by
  unfold resolveRelocations
  dsimp only
  split
  · rename_i hres
    rw [hres]
  · rename_i hres
    rw [hres]

theorem deallocate_later (em : Emitter) (id : FuncId) : em.Later (em.deallocate id).1 := by
  cases hd : em.patchedDependents id with
  | error e =>
    rw [deallocate_of_error hd]
    exact SameSetting.later ⟨rfl, rfl, rfl, rfl⟩ (fun h => h) fun h => h
  | ok ids =>
    rw [deallocate_of_dependents hd]
    have hremoved : em.SameSetting (em.removed id) := ⟨rfl, rfl, rfl, rfl⟩
    refine (hremoved.trans (unresolveAll_setting _ ids)).later ?_ ?_
    · intro hi
      exact (unresolveAll_sizeEstimate _ ids).trans hi
    · intro ha
      have herase : (em.removed id).functions.Ascending := ha.erase id
      exact unresolveAll_ascending herase ids

theorem emitFunction_sizeEstimate (f : MachineFunction) (hidle : em.sizeEstimate = 0) :
    (em.emitFunction f).1.sizeEstimate = 0 := by
  cases h : em.patchedDependents f.id with
  | error e => rw [emitFunction_of_error h]
  | ok ids =>
    obtain ⟨_, he, _⟩ := emitFunction_emission h
    rcases he.sizeEstimate with hzero | hkept
    · exact hzero
    · exact hkept.trans hidle

theorem emitFunction_later (em : Emitter) (f : MachineFunction) :
    em.Later (em.emitFunction f).1 := by
  have hidle := em.emitFunction_sizeEstimate f
  cases h : em.patchedDependents f.id with
  | error e =>
    rw [emitFunction_of_error h]
    exact SameSetting.later ⟨rfl, rfl, rfl, rfl⟩ (fun _ => rfl) fun h => h
  | ok ids =>
    obtain ⟨_, he, _⟩ := emitFunction_emission h
    exact he.setting.later hidle fun ha => emitFunction_ascending ha f

theorem allocateSpace_untouched (em : Emitter) (size alignment : Nat) :
    em.Untouched (em.allocateSpace size alignment).1 := by
  unfold allocateSpace
  dsimp only
  split
  · exact .refl em
  · split
    · exact .refl em
    · exact SameSetting.untouched ⟨rfl, rfl, rfl, rfl⟩ rfl rfl

end Emitter

end CodeEmission
