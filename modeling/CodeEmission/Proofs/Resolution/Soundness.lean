import CodeEmission.Proofs.Emitter.Code
import CodeEmission.Proofs.Emitter.Runs
import CodeEmission.Proofs.Resolution.Pass

/-! # No stale addresses

Whatever is done with an emitter, a record that counts as resolved has the current address of every
target in its log and in its code: what takes a function away also has its dependents resolved
again.
-/

namespace CodeEmission.Emitter

variable {em em' : Emitter} {r r' : FunctionRecord} {id : FuncId} {ids : List FuncId}

/-- What holds of every reachable emitter. -/
structure Sound (em : Emitter) : Prop where
  target : em.target = .x86_64
  ascending : em.functions.Ascending
  ids : ∀ id r, em.function? id = some r → r.id = id
  wellFormed : ∀ id r, em.function? id = some r → r.WellFormed
  current : ∀ id r, em.function? id = some r → r.resolved = true → em.Current r

theorem Sound.untouched (h : em.Sound) (hu : em.Untouched em') : em'.Sound where
  target := hu.target.trans h.target
  ascending := hu.toLater.ascending h.ascending
  ids id r hr := h.ids id r (by rwa [← hu.function?])
  wellFormed id r hr := h.wellFormed id r (by rwa [← hu.function?])
  current id r hr hres :=
    (h.current id r (by rwa [← hu.function?]) hres).later hu.toLater fun e _ => hu.keeps e

theorem Sound.resolved (h : em.Sound) (hr : em.function? r.id = some r) (hres : r.resolved = false)
    (hl : em.Later em') {fault : Option EmitError} (hr' : em.Resolved r em' fault r') :
    em'.Sound := by
  have hkeeps := keeps_of_replaced hr hr'.shape hr'.found
  refine ⟨hl.target.trans h.target, hl.ascending h.ascending, ?_, ?_, ?_⟩
  · intro id s hs
    rw [hr'.found id] at hs
    split at hs
    · rename_i heq
      cases hs
      exact hr'.shape.id.trans heq
    · exact h.ids id s hs
  · intro id s hs
    rw [hr'.found id] at hs
    split at hs
    · cases hs
      exact (h.wellFormed r.id r hr).of_shape hr'.shape
    · exact h.wellFormed id s hs
  · intro id s hs hsres
    rw [hr'.found id] at hs
    split at hs
    · cases hs
      cases hf : fault with
      | none => exact (hr'.current hf).2
      | some e =>
        rw [hr'.faulty (by simp [hf]), hres] at hsres
        cases hsres
    · exact (h.current id s hs hsres).later hl fun e _ => hkeeps e

theorem Sound.modifyFunction (h : em.Sound) (id : FuncId) {g : FunctionRecord → FunctionRecord}
    (hid : ∀ r, (g r).id = r.id) (hw : ∀ r, r.WellFormed → (g r).WellFormed)
    (haddress : ∀ r, (g r).codeAddress = r.codeAddress)
    (hres : ∀ r, (g r).resolved = r.resolved)
    (hcurrent : ∀ (em : Emitter) r, em.Current r → em.Current (g r)) :
    (em.modifyFunction id g).Sound := by
  have hl := modifyFunction_later em id g
  have hfound (j : FuncId) : (em.modifyFunction id g).function? j =
      if id = j then (em.function? j).map g else em.function? j :=
    IdMap.get?_modify em.functions id j g
  have hold {j : FuncId} {s : FunctionRecord} (hs : (em.modifyFunction id g).function? j = some s) :
      ∃ t, em.function? j = some t ∧ (s = t ∨ s = g t) := by
    rw [hfound] at hs
    split at hs
    · obtain ⟨t, ht, rfl⟩ := Option.map_eq_some_iff.1 hs
      exact ⟨t, ht, .inr rfl⟩
    · exact ⟨s, hs, .inl rfl⟩
  have hkeeps (e : Relocation) : em.Keeps (em.modifyFunction id g) e := by
    refine keeps_of_functions ?_ e
    intro j t ht
    rw [hfound, ht]
    split
    · exact ⟨g t, rfl, haddress t⟩
    · exact ⟨t, rfl, rfl⟩
  refine ⟨hl.target.trans h.target, hl.ascending h.ascending, ?_, ?_, ?_⟩
  · intro j s hs
    obtain ⟨t, ht, rfl | rfl⟩ := hold hs
    · exact h.ids j s ht
    · exact (hid t).trans (h.ids j t ht)
  · intro j s hs
    obtain ⟨t, ht, rfl | rfl⟩ := hold hs
    · exact h.wellFormed j s ht
    · exact hw t (h.wellFormed j t ht)
  · intro j s hs hsres
    obtain ⟨t, ht, rfl | rfl⟩ := hold hs
    · exact (h.current j s ht hsres).later hl fun e _ => hkeeps e
    · rw [hres] at hsres
      exact hcurrent _ t ((h.current j t ht hsres).later hl fun e _ => hkeeps e)

theorem Sound.afterFault (h : em.Sound) (id : FuncId) (fault : Option EmitError) :
    (em.afterFault id fault).Sound := by
  unfold Emitter.afterFault
  split
  · exact h.modifyFunction id (fun _ => rfl) (fun _ hw => hw.withoutLog) (fun _ => rfl)
      (fun _ => rfl) fun _ _ _ => nofun
  · exact h

theorem Sound.tryResolve (h : em.Sound) (hr : em.function? r.id = some r)
    (hres : r.resolved = false) : (em.tryResolve r).1.Sound := by
  obtain ⟨r', hr'⟩ := tryResolve_resolved h.target (h.wellFormed _ r hr) hr rfl
  exact h.resolved hr hres (tryResolve_later em r) hr'

/-- What a pass leaves is sound, and without a fault all its functions are resolved. -/
theorem resolveEach_sound (h : em.Sound) (hn : ids.Nodup)
    (hids : ∀ id ∈ ids, ∀ r, em.function? id = some r → r.resolved = false)
    {fault : Option EmitError} (he : em.resolveEach ids = (em', fault)) :
    em'.Sound ∧ (fault = none → ∀ id r, em'.function? id = some r →
      r.resolved = true ∨ id ∉ ids ∧ em.function? id = some r) := by
  induction ids generalizing em with
  | nil =>
    cases he
    exact ⟨h, fun _ id r hr => .inr ⟨List.not_mem_nil, hr⟩⟩
  | cons id ids ih =>
    obtain ⟨hid, hrestn⟩ := List.nodup_cons.1 hn
    unfold resolveEach at he
    split at he
    · cases he
      exact ⟨h, fun hnone => by cases hnone⟩
    · rename_i r hr
      have hrid := h.ids id r hr
      subst hrid
      have hres := hids r.id List.mem_cons_self r hr
      split at he
      · rename_i em₁ e hstep
        cases he
        have hsound := (h.tryResolve hr hres).afterFault r.id (em.tryResolve r).2
        rw [← resolveFunction_fst, hstep] at hsound
        exact ⟨hsound, fun hnone => by cases hnone⟩
      · rename_i em₁ hstep
        have htry := tryResolve_of_resolveFunction hstep
        have hsound := h.tryResolve hr hres
        obtain ⟨r', hr'⟩ := tryResolve_resolved h.target (h.wellFormed _ r hr) hr htry
        rw [htry] at hsound
        have hrest : ∀ j ∈ ids, ∀ s, em₁.function? j = some s → s.resolved = false := by
          intro j hj s hs
          have hne : r.id ≠ j := fun heq => hid (heq ▸ hj)
          rw [hr'.found j, if_neg hne] at hs
          exact hids j (List.mem_cons_of_mem _ hj) s hs
        obtain ⟨hsound', hall⟩ := ih hsound hrestn hrest he
        refine ⟨hsound', ?_⟩
        intro hnone j s hs
        rcases hall hnone j s hs with hsr | ⟨hj, hs₁⟩
        · exact .inl hsr
        · rw [hr'.found j] at hs₁
          split at hs₁
          · cases hs₁
            exact .inl (hr'.current rfl).1
          · rename_i hne
            refine .inr ⟨?_, hs₁⟩
            intro hmem
            rcases List.mem_cons.1 hmem with heq | hmem
            · exact hne heq.symm
            · exact hj hmem

theorem Sound.function?_of_mem (h : em.Sound) (hr : r ∈ em.functions.values) :
    em.function? r.id = some r := by
  obtain ⟨⟨k, _⟩, hm, rfl⟩ := List.mem_map.1 hr
  have hget : em.function? k = some _ := h.ascending.get?_of_mem hm
  rw [h.ids k _ hget]
  exact hget

theorem Sound.map_id_values (h : em.Sound) : em.functions.values.map (·.id) = em.functions.keys := by
  rw [IdMap.values, IdMap.keys, List.map_map]
  refine List.map_congr_left ?_
  intro e he
  exact h.ids e.1 e.2 (h.ascending.get?_of_mem he)

theorem Sound.pairwise_pending (h : em.Sound) :
    em.pending.Pairwise fun id id' => id.number < id'.number := by
  have hsub : em.pending.Sublist (em.functions.values.map (·.id)) :=
    List.filter_sublist.map _
  rw [h.map_id_values] at hsub
  have hkeys : em.functions.keys.Pairwise fun id id' => id.number < id'.number :=
    List.pairwise_map.2 h.ascending
  exact hkeys.sublist hsub

theorem Sound.nodup_pending (h : em.Sound) : em.pending.Nodup := by
  refine h.pairwise_pending.imp ?_
  intro id id' hlt heq
  rw [heq] at hlt
  exact UInt32.lt_irrefl _ hlt

theorem Sound.mem_pending (h : em.Sound) :
    id ∈ em.pending ↔ ∃ r, em.function? id = some r ∧ r.resolved = false := by
  unfold pending
  simp only [List.mem_map, List.mem_filter, Bool.not_eq_true']
  constructor
  · rintro ⟨r, ⟨hr, hres⟩, rfl⟩
    exact ⟨r, h.function?_of_mem hr, hres⟩
  · rintro ⟨r, hr, hres⟩
    exact ⟨r, ⟨IdMap.mem_values_of_get? hr, hres⟩, h.ids id r hr⟩

theorem Sound.resolvePending (h : em.Sound) {fault : Option EmitError}
    (he : em.resolveEach em.pending = (em', fault)) :
    em'.Sound ∧ (fault = none → ∀ id r, em'.function? id = some r → r.resolved = true) := by
  have hids : ∀ id ∈ em.pending, ∀ r, em.function? id = some r → r.resolved = false := by
    intro id hid r hr
    obtain ⟨s, hs, hres⟩ := h.mem_pending.1 hid
    obtain rfl : r = s := Option.some.inj (hr.symm.trans hs)
    exact hres
  obtain ⟨hsound, hall⟩ := resolveEach_sound h h.nodup_pending hids he
  refine ⟨hsound, ?_⟩
  intro hnone id r hr
  rcases hall hnone id r hr with hres | ⟨hid, hr₀⟩
  · exact hres
  · cases hres : r.resolved with
    | true => rfl
    | false => exact absurd (h.mem_pending.2 ⟨r, hr₀, hres⟩) hid

/-- A function can be taken away, and another version put in its place, if its dependents have to be
resolved again. -/
theorem Sound.withdrawn (h : em.Sound) (hl : em.Later em')
    (hd : em.patchedDependents id = .ok ids)
    (hothers : ∀ j, j ≠ id → em'.function? j =
      if j ∈ ids then (em.function? j).map FunctionRecord.unpatched else em.function? j)
    (hown : ∀ s, em'.function? id = some s →
      em.function? id = some s ∨ s.id = id ∧ s.WellFormed ∧ s.resolved = false) : em'.Sound := by
  have hother {j : FuncId} {s : FunctionRecord} (hj : j ≠ id) (hs : em'.function? j = some s) :
      ∃ t, em.function? j = some t ∧ (s = t ∨ s = t.unpatched) ∧ (j ∈ ids → s = t.unpatched) := by
    rw [hothers j hj] at hs
    split at hs
    · obtain ⟨t, ht, rfl⟩ := Option.map_eq_some_iff.1 hs
      exact ⟨t, ht, .inr rfl, fun _ => rfl⟩
    · rename_i hn
      exact ⟨s, hs, .inl rfl, fun hm => absurd hm hn⟩
  have hstays {j : FuncId} {t : FunctionRecord} (hj : j ≠ id) (ht : em.function? j = some t) :
      ∃ s, em'.function? j = some s ∧ s.codeAddress = t.codeAddress := by
    rw [hothers j hj, ht]
    split
    · exact ⟨t.unpatched, rfl, (FunctionRecord.SameShape.unpatched t).codeAddress⟩
    · exact ⟨t, rfl, rfl⟩
  refine ⟨hl.target.trans h.target, hl.ascending h.ascending, ?_, ?_, ?_⟩
  · intro j s hs
    by_cases hj : j = id
    · subst hj
      rcases hown s hs with ht | ⟨hid, _⟩
      · exact h.ids j s ht
      · exact hid
    · obtain ⟨t, ht, rfl | rfl, _⟩ := hother hj hs
      · exact h.ids j s ht
      · exact h.ids j t ht
  · intro j s hs
    by_cases hj : j = id
    · subst hj
      rcases hown s hs with ht | ⟨_, hw, _⟩
      · exact h.wellFormed j s ht
      · exact hw
    · obtain ⟨t, ht, rfl | rfl, _⟩ := hother hj hs
      · exact h.wellFormed j s ht
      · exact (h.wellFormed j t ht).of_shape (.unpatched t)
  · intro j s hs hres
    have ht : em.function? j = some s ∧ (j ≠ id → j ∉ ids) := by
      by_cases hj : j = id
      · subst hj
        rcases hown s hs with ht | ⟨_, _, hfalse⟩
        · exact ⟨ht, fun hne => absurd rfl hne⟩
        · rw [hfalse] at hres
          cases hres
      · obtain ⟨t, ht, hst, hmem⟩ := hother hj hs
        have hne : s ≠ t.unpatched := by
          rintro rfl
          cases hres
        rcases hst with rfl | rfl
        · exact ⟨ht, fun _ hm => hne (hmem hm)⟩
        · exact absurd rfl hne
    obtain ⟨ht, hnot⟩ := ht
    refine (h.current j s ht hres).later hl ?_
    intro e he g hg k t hdest hk
    by_cases hkid : k = id
    · subst hkid
      -- a resolved function that refers to the one taken away is among its dependents
      by_cases hj : j = k
      · subst hj
        obtain rfl : s = t := Option.some.inj (ht.symm.trans hk)
        exact ⟨s, hs, rfl⟩
      · have href : em.refersTo s k = true := by
          refine List.any_eq_true.2 ⟨e, he, ?_⟩
          rw [hg]
          exact Module.leadsTo_of_destination hdest
        have hmem := mem_patchedDependents hd (Option.isSome_iff_exists.2 ⟨t, hk⟩) ht
          (h.ids j s ht) hj href hres
        exact absurd hmem (hnot hj)
    · exact hstays hkid hk

theorem Sound.emitFunction (h : em.Sound) (f : MachineFunction) : (em.emitFunction f).1.Sound := by
  have hl := emitFunction_later em f
  cases hd : em.patchedDependents f.id with
  | error e =>
    rw [emitFunction_of_error hd] at hl ⊢
    exact h.untouched ⟨hl, rfl⟩
  | ok ids =>
    obtain ⟨result, he, _⟩ := emitFunction_emission hd
    rcases he.cut_or_outdated with ⟨_, _, hfunctions⟩ | houtdated
    · exact h.untouched ⟨hl, hfunctions⟩
    have hothers := he.others
    rw [houtdated] at hothers
    refine h.withdrawn hl hd hothers ?_
    intro s hs
    have ho := he.outcome
    have hkept (hdropped : (em.emitFunction f).1.function? f.id = none ∨
        (em.emitFunction f).1.function? f.id = em.function? f.id) : em.function? f.id = some s := by
      rcases hdropped with hnone | hsame
      · rw [hnone] at hs
        cases hs
      · rwa [← hsame]
    cases ho with
    | committed fresh laidOut fits found _ =>
      obtain rfl := Option.some.inj (found.symm.trans hs)
      rw [h.target] at laidOut
      obtain ⟨c, hc, hx⟩ :=
        Draft.layOut_extends fresh.intact laidOut (CodeBuffer.overflow_of_exhausted fits)
      exact .inr ⟨rfl, Draft.commit_wellFormed fresh hc hx f.id, rfl⟩
    | refused dropped => exact .inl (hkept dropped)
    | failed _ _ _ dropped => exact .inl (hkept dropped)
    | cutOff _ _ functions => exact .inl (hkept (.inr (congrArg (·.get? f.id) functions)))

theorem Sound.deallocate (h : em.Sound) (id : FuncId) : (em.deallocate id).1.Sound := by
  have hl := deallocate_later em id
  cases hd : em.patchedDependents id with
  | error e =>
    rw [deallocate_of_error hd] at hl ⊢
    exact h.untouched ⟨hl, rfl⟩
  | ok ids =>
    rw [deallocate_of_dependents hd] at hl ⊢
    refine h.withdrawn hl hd ?_ ?_
    · intro j hj
      rw [unresolveAll_function?, removed_function?, if_neg (Ne.symm hj)]
    · intro s hs
      rw [unresolveAll_function?, removed_function?, if_pos rfl] at hs
      split at hs <;> cases hs

theorem Sound.makeExecutable (h : em.Sound) (id : FuncId) : (em.makeExecutable id).1.Sound :=
  h.modifyFunction id (fun _ => rfl) (fun r hw => hw.of_shape (.makeExecutable r)) (fun _ => rfl)
    (fun _ => rfl) fun _ _ hcurrent => hcurrent

theorem Sound.perform (h : em.Sound) (op : Operation) : (em.perform op).Sound := by
  have hl := perform_later em op
  cases op with
  | emit f => exact h.emitFunction f
  | deallocate id => exact h.deallocate id
  | resolve =>
    rcases he : em.resolveEach em.pending with ⟨em', fault⟩
    have hfst := resolveRelocations_fst em
    rw [he] at hfst
    change em.resolveRelocations.1.Sound
    rw [hfst]
    exact (h.resolvePending he).1
  | globalAddress g => exact h.untouched (globalAddress_untouched em g)
  | addGlobal g => exact h.untouched ⟨hl, rfl⟩
  | addAlias a => exact h.untouched ⟨hl, rfl⟩
  | defineSymbol name address => exact h.untouched ⟨hl, rfl⟩
  | allocateSpace size alignment => exact h.untouched (allocateSpace_untouched em size alignment)
  | makeExecutable id => exact h.makeExecutable id
  | setSink sink => exact h.untouched ⟨hl, rfl⟩

theorem Reachable.sound (h : em.Reachable) : em.Sound := by
  refine h.induction ?_ fun em op hem => hem.perform op
  intro module config host sink
  refine ⟨rfl, .nil, ?_, ?_, ?_⟩
  all_goals
    intro id r hr
    cases hr

/-- In every reachable state each reference of a resolved function has the current address of its
target in the log and in the code, and a pass that succeeds resolves every function. -/
theorem resolved_references_current (h : em.Reachable) :
    (∀ id r, em.function? id = some r → r.resolved = true →
        ∀ e ∈ r.relocations, e.isExternal = false →
          ∃ a, em.targetAddress r e.target = (em, .ok a) ∧ e.result = some a ∧
            r.fieldAddress e = a) ∧
      (∀ n, em.resolveRelocations.2 = .ok n →
        ∀ id r, em.resolveRelocations.1.function? id = some r → r.resolved = true) := by
  refine ⟨?_, ?_⟩
  · intro id r hr hres e he hext
    obtain ⟨a, ht, hresult, hfield⟩ := h.sound.current id r hr hres e he
    exact ⟨a, ht.targetAddress hext, hresult, hfield⟩
  · intro n hn id r hr
    rcases he : em.resolveEach em.pending with ⟨em', fault⟩
    rw [resolveRelocations_fst, he] at hr
    cases fault with
    | none => exact (h.sound.resolvePending he).2 rfl id r hr
    | some e =>
      simp only [resolveRelocations, he] at hn
      have hcheck : em'.check (.error e) = .ok n := hn
      cases check_eq_ok.1 hcheck

/-- The fields of a resolved function lead to the code of the functions that its references reach,
and to its own blocks. -/
theorem resolved_fields_lead {e : Relocation} (h : em.Reachable) (hr : em.function? id = some r)
    (hres : r.resolved = true) (he : e ∈ r.relocations) :
    (∀ g j, e.global? = some g → em.module.Reaches g (.function j) →
        ∃ s, em.function? j = some s ∧ r.fieldAddress e = s.block.addressAt s.codeOffset) ∧
      ∀ b, e.target = .basicBlock b →
        ∃ offset, r.locations.block? b = some offset ∧
          r.fieldAddress e = r.block.addressAt offset := by
  have hcurrent := h.sound.current id r hr hres
  refine ⟨?_, ?_⟩
  · intro g j hg hreach
    obtain ⟨a, hleads, -, rfl⟩ := hcurrent.leads he hg
    exact hleads.function_of_reaches hreach
  · intro b hb
    obtain ⟨a, ht, -, rfl⟩ := hcurrent e he
    rw [TargetsAt, hb] at ht
    cases hoffset : r.locations.block? b with
    | none => simp [FunctionRecord.blockAddress, FunctionRecord.blockOffset, hoffset, Except.map] at ht
    | some offset =>
      refine ⟨offset, rfl, ?_⟩
      simp only [FunctionRecord.blockAddress, FunctionRecord.blockOffset, hoffset, Except.map,
        Except.ok.injEq] at ht
      exact ht.symm

def callLoop : MachineFunction where
  id := ⟨1⟩
  name := "g"
  blocks := [{ number := ⟨0⟩, insts := [.call ⟨0⟩, .jmp ⟨0⟩] }]

theorem resolved_references_current_callLoop :
    let em := (new .x86_64 {} {} {}).run [.emit .nopRet, .emit callLoop, .resolve]
    ∃ r, em.function? ⟨1⟩ = some r ∧ r.resolved = true ∧ r.relocations.length = 2 ∧
      ∀ e ∈ r.relocations, e.isExternal = false →
        ∃ a, em.targetAddress r e.target = (em, .ok a) ∧ e.result = some a ∧
          r.fieldAddress e = a := by
  have hfound : (((new .x86_64 {} {} {}).run [.emit .nopRet, .emit callLoop, .resolve]).function?
      ⟨1⟩).map (fun r => (r.resolved, r.relocations.length)) = some (true, 2) := by decide +kernel
  obtain ⟨r, hr, hpair⟩ := Option.map_eq_some_iff.1 hfound
  have hres : r.resolved = true := congrArg Prod.fst hpair
  exact ⟨r, hr, hres, congrArg Prod.snd hpair, (resolved_references_current
    ⟨{}, {}, {}, .log, [.emit .nopRet, .emit callLoop, .resolve], rfl⟩).1 ⟨1⟩ r hr hres⟩

end CodeEmission.Emitter
