import CodeEmission.Proofs.Resolution.Pass
import CodeEmission.Proofs.Resolution.Targets

/-! # When functions can be resolved

A function is resolved if it is not executable, everything it names is there and every function it
calls is near enough. What a pass over several functions needs can be told before it starts, because
resolving a function moves nothing.
-/

namespace CodeEmission

structure Relocation.Calls (e : Relocation) (id : FuncId) : Prop where
  kind : e.kind = .pcRel32
  target : e.target = .globalValue (.function id)

theorem Relocation.Calls.of_bare {e e' : Relocation} {id : FuncId} (h : e.Calls id)
    (hbare : e'.bare = e.bare) : e'.Calls id :=
  ⟨(congrArg Relocation.kind hbare).trans h.kind, (congrArg Relocation.target hbare).trans h.target⟩

theorem Relocation.fieldEnd_of_bare {e e' : Relocation} (hbare : e'.bare = e.bare) :
    e'.fieldEnd = e.fieldEnd := by
  have hfield : e'.bare.fieldEnd = e.bare.fieldEnd := congrArg Relocation.fieldEnd hbare
  exact hfield

namespace FunctionRecord

/-- By distance the code refers only to what it calls and to parts of the function, and all these parts
have offsets of 31 bits. -/
structure Compact (r : FunctionRecord) : Prop where
  near : ∀ e ∈ r.relocations.map Relocation.bare, e.kind = .pcRel32 → e.target.Near
  block_lt : ∀ b offset, r.blockOffset b = .ok offset → offset < 2 ^ 31
  constant_lt : ∀ i offset, r.layout.constantOffset i = .ok offset → offset < 2 ^ 31
  table_lt : ∀ i offset, r.layout.jumpTableOffset i = .ok offset → offset < 2 ^ 31

theorem WellFormed.inReach {r : FunctionRecord} {e : Relocation} {place : Except EmitError Nat}
    {address : UInt64} (hw : r.WellFormed) (he : e.bare ∈ r.relocations.map Relocation.bare)
    (hplace : ∀ offset, place = .ok offset → offset < 2 ^ 31)
    (ha : place.map r.block.addressAt = .ok address) :
    InReach (r.block.addressAt e.fieldEnd) address := by
  cases place with
  | error err => cases ha
  | ok offset =>
    cases ha
    have hend : e.fieldEnd ≤ r.codeEnd := (hw.within e.bare he).2
    exact inReach_offsets _ (hplace offset rfl) (hend.trans_lt hw.codeEnd_lt)

end FunctionRecord

namespace Emitter

variable {em em' : Emitter} {r : FunctionRecord} {e : Relocation} {address : UInt64}

/-- Everything that resolving a function takes is there. -/
structure Resolvable (em : Emitter) (r : FunctionRecord) : Prop where
  writable : r.isExecutable = false
  located : ∀ e ∈ r.relocations, em.Locatable r e.target
  entries : r.EntriesEmitted
  calls : ∀ e ∈ r.relocations, ∀ id address, e.Calls id → em.functionAddress id = .ok address →
    InReach (r.block.addressAt e.fieldEnd) address

def CallsBeyond (em : Emitter) (r : FunctionRecord) (offset : Nat) (address : UInt64) : Prop :=
  ∃ e ∈ r.relocations, e.offset = offset ∧ (∀ e' ∈ r.relocations, e'.offset = offset → e' = e) ∧
    ∃ id, e.Calls id ∧ em.functionAddress id = .ok address ∧
      ¬InReach (r.block.addressAt e.fieldEnd) address

theorem SameNames.callsBeyond (h : em.SameNames em') (r : FunctionRecord) :
    em'.CallsBeyond r = em.CallsBeyond r := by
  unfold CallsBeyond
  rw [h.functionAddress]

def variablesOf (em : Emitter) (r : FunctionRecord) : List GlobalVariable :=
  r.relocations.flatMap (·.target.variables em.module)

theorem Leads.functionAddress {id : FuncId} (h : em.Leads (.function id) address) :
    em.functionAddress id = .ok address := by
  have hd : em.module.destination (em.module.aliases.length + 1) (.function id) =
      .ok (.function id) := rfl
  cases h with
  | function ends committed =>
    rw [hd] at ends
    cases ends
    simp only [Emitter.functionAddress, committed]
  | «variable» ends _ =>
    rw [hd] at ends
    cases ends

/-- Only a called function can be out of reach. -/
theorem calls_of_outOfReach (hw : r.WellFormed) (hc : r.Compact)
    (he : e.bare ∈ r.relocations.map Relocation.bare) (ht : em.TargetsAt r e address)
    (hout : e.OutOfReach r.baseAddress address) :
    ∃ id, e.Calls id ∧ em.functionAddress id = .ok address := by
  have hnear : e.target.Near := hc.near e.bare he hout.1
  unfold TargetsAt at ht
  cases htarget : e.target with
  | externalSymbol name =>
    rw [htarget] at hnear
    cases hnear
  | globalValue g =>
    rw [htarget] at hnear ht
    cases hnear with
    | call id => exact ⟨id, ⟨hout.1, htarget⟩, Leads.functionAddress ht⟩
  | indirectSymbol g =>
    rw [htarget] at hnear
    cases hnear
  | basicBlock b =>
    rw [htarget] at ht
    exact absurd (hw.inReach he (hc.block_lt b) ht) hout.2
  | constantPool i =>
    rw [htarget] at ht
    exact absurd (hw.inReach he (hc.constant_lt i) ht) hout.2
  | jumpTable i =>
    rw [htarget] at ht
    obtain ⟨offset, ho, rfl⟩ := FunctionRecord.jumpTableAddress_eq_ok ht
    exact absurd (hw.inReach he (hc.table_lt i) (congrArg (·.map r.block.addressAt) ho)) hout.2

theorem TargetsAt.address_of_calls {id : FuncId} {a : UInt64} (ht : em.TargetsAt r e a)
    (hcalls : e.Calls id) (ha : em.functionAddress id = .ok address) : a = address := by
  unfold TargetsAt at ht
  rw [hcalls.target] at ht
  exact Except.ok.inj ((Leads.functionAddress ht).symm.trans ha)

theorem patch_succeedsIff_of_addresses {C : Prop} (hw : r.WellFormed) (hc : r.Compact)
    {es : List Relocation}
    (hbare : es.map Relocation.bare = r.relocations.map Relocation.bare)
    (haddresses : ∀ e ∈ es, ∃ a, em.TargetsAt r e a ∧ e.result = some a) :
    SucceedsIff
      (r.isExecutable = false ∧
        (∀ e ∈ r.relocations, ∀ id address, e.Calls id → em.functionAddress id = .ok address →
          InReach (r.block.addressAt e.fieldEnd) address) ∧ r.EntriesEmitted)
      (EmitError.MayOccur (em.CallsBeyond r) C) ({ r with relocations := es }.patch .x86_64).2 := by
  have hshape := FunctionRecord.SameShape.addressed hbare
  have hmem {e : Relocation} (he : e ∈ es) : e.bare ∈ r.relocations.map Relocation.bare :=
    hbare ▸ List.mem_map_of_mem he
  have hresult {e : Relocation} (he : e ∈ es) : e.address? = e.result :=
    Relocation.address?_of_plain (hw.plain _ (hmem he))
  have hknown : ∀ e ∈ es, ∃ address, e.address? = some address := by
    intro e he
    obtain ⟨a, _, ha⟩ := haddresses e he
    exact ⟨a, (hresult he).trans ha⟩
  have hbeyond {e : Relocation} (he : e ∈ es) {a : UInt64} (ha : e.address? = some a)
      (hout : e.OutOfReach r.baseAddress a) : em.CallsBeyond r e.offset a := by
    obtain ⟨a', hta, ha'⟩ := haddresses e he
    obtain rfl : a = a' := Option.some.inj (ha.symm.trans ((hresult he).trans ha'))
    obtain ⟨id, hcalls, hid⟩ := calls_of_outOfReach hw hc (hmem he) hta hout
    obtain ⟨e', he', heq⟩ := List.mem_map.1 (hmem he)
    have hoffset : e'.offset = e.offset := (congrArg Relocation.offset heq :)
    refine ⟨e', he', hoffset, ?_, id, hcalls.of_bare heq, hid, ?_⟩
    · intro e'' he'' hoffset'
      exact hw.eq_of_offset he'' he' (hoffset'.trans hoffset.symm)
    · rw [Relocation.fieldEnd_of_bare heq]
      exact hout.2
  refine (FunctionRecord.patch_succeedsIff (C := C) (hw.of_shape hshape) hknown).congr
    (and_congr_right fun _ => and_congr_left' ⟨?_, ?_⟩) ?_
  · intro hnear e he id address hcalls hid
    have hin : e.bare ∈ es.map Relocation.bare := hbare ▸ List.mem_map_of_mem he
    obtain ⟨e', he', heq⟩ := List.mem_map.1 hin
    obtain ⟨a, hta, ha⟩ := haddresses e' he'
    obtain rfl := hta.address_of_calls (hcalls.of_bare heq) hid
    by_contra hout
    refine hnear e' he' a ((hresult he').trans ha) ⟨(hcalls.of_bare heq).kind, ?_⟩
    rw [Relocation.fieldEnd_of_bare heq]
    exact hout
  · intro hcalls e he a ha hout
    obtain ⟨e', he', _, _, id, hcall, hid, hfar⟩ := hbeyond he ha hout
    exact hfar (hcalls e' he' id a hcall hid)
  · intro err herr
    refine herr.mono id ?_
    rintro offset a _ ⟨e, he, rfl, ha, hout⟩
    exact hbeyond he ha hout

theorem tryResolve_succeedsIff (ht : em.target = .x86_64) (hw : r.WellFormed) (hc : r.Compact)
    {fault : Option EmitError} (h : em.tryResolve r = (em', fault)) :
    SucceedsIff (em.Resolvable r ∧ em.CanPlace (em.variablesOf r))
        (EmitError.MayOccur (em.CallsBeyond r) (em.Outgrown (em.variablesOf r))) fault ∧
      (fault = none → em.arena.placeAll em.target (em.variablesOf r) = .ok em'.arena) := by
  rcases hres : em.resolveTargets r r.relocations with ⟨em₁, es, fault₁⟩
  obtain ⟨htargets, hnames, harena⟩ :=
    resolveTargets_succeedsIff (P := em.CallsBeyond r) hw hw.leftToTarget hres
  obtain ⟨hbare, haddresses⟩ := resolveTargets_spec hres
  unfold tryResolve at h
  rw [hres] at h
  cases fault₁ with
  | some err =>
    cases h
    refine ⟨?_, nofun⟩
    cases htargets with
    | failure not why => exact .failure (fun hall => not ⟨hall.1.located, hall.2⟩) why
  | none =>
    obtain ⟨hlocated, hplaces⟩ := htargets.iff.1 rfl
    have hpatch := patch_succeedsIff_of_addresses (C := em.Outgrown (em.variablesOf r)) hw hc hbare
      (haddresses rfl hw.leftToTarget)
    rw [hnames.functionAddress, hnames.callsBeyond] at hpatch
    have hall : SucceedsIff (em.Resolvable r ∧ em.CanPlace (em.variablesOf r))
        (EmitError.MayOccur (em.CallsBeyond r) (em.Outgrown (em.variablesOf r)))
        ({ r with relocations := es }.patch .x86_64).2 := by
      refine hpatch.congr ⟨?_, ?_⟩ fun _ h => h
      · rintro ⟨hwritable, hcalls, hentries⟩
        exact ⟨⟨hwritable, hlocated, hentries, hcalls⟩, hplaces⟩
      · rintro ⟨hr, _⟩
        exact ⟨hr.writable, hr.calls, hr.entries⟩
    dsimp only at h
    rw [hnames.target, ht] at h
    rcases hp : { r with relocations := es }.patch .x86_64 with ⟨r', fault₂⟩
    rw [hp] at h hall
    cases fault₂ with
    | some err =>
      cases h
      exact ⟨hall, nofun⟩
    | none =>
      cases h
      exact ⟨hall, harena⟩

theorem patch_ne_crash (hw : r.WellFormed) {es : List Relocation} {r' : FunctionRecord}
    (h : em.resolveTargets r r.relocations = (em', es, none)) (step : Crash) :
    { r with relocations := es }.patch .x86_64 ≠ (r', some (.crash step)) := by
  obtain ⟨hbare, haddresses⟩ := resolveTargets_spec h
  have hknown : ∀ e ∈ es, ∃ address, e.address? = some address := by
    intro e he
    obtain ⟨a, _, ha⟩ := haddresses rfl hw.leftToTarget e he
    have hin : e.bare ∈ r.relocations.map Relocation.bare := hbare ▸ List.mem_map_of_mem he
    exact ⟨a, (Relocation.address?_of_plain (hw.plain _ hin)).trans ha⟩
  have hpatch := FunctionRecord.patch_succeedsIff (C := False) (hw.of_shape (.addressed hbare)) hknown
  intro hp
  rw [hp] at hpatch
  cases hpatch with
  | failure _ why => exact (EmitError.MayOccur.crash why).2

theorem tryResolve_of_crash (ht : em.target = .x86_64) (hw : r.WellFormed) {step : Crash}
    (h : em.tryResolve r = (em', some (.crash step))) :
    ∃ em₁ es, em.resolveTargets r r.relocations = (em₁, es, some (.crash step)) ∧
      em' = em₁.putRecord { r with relocations := es } := by
  rcases hres : em.resolveTargets r r.relocations with ⟨em₁, es, fault₁⟩
  have hu := resolveTargets_untouched em r r.relocations
  unfold tryResolve at h
  rw [hres] at h hu
  cases fault₁ with
  | some err =>
    cases h
    exact ⟨em₁, es, rfl, rfl⟩
  | none =>
    dsimp only at h
    rw [hu.target.trans ht] at h
    rcases hp : { r with relocations := es }.patch .x86_64 with ⟨r', fault₂⟩
    rw [hp] at h
    cases fault₂ with
    | none => cases h
    | some err =>
      cases h
      exact absurd hp (patch_ne_crash hw hres step)

/-- Nothing but a variable without a size cuts the attempt to resolve a function off. -/
theorem tryResolve_crash (ht : em.target = .x86_64) (hw : r.WellFormed) {step : Crash}
    (h : em.tryResolve r = (em', some (.crash step))) :
    step = .sum ∧ em.Outgrown (em.variablesOf r) := by
  obtain ⟨em₁, es, hres, _⟩ := tryResolve_of_crash ht hw h
  cases (resolveTargets_succeedsIff (P := fun _ _ => True) hw hw.leftToTarget hres).1 with
  | failure _ why => exact EmitError.MayOccur.crash why

theorem resolveFunction_succeedsIff (ht : em.target = .x86_64) (hw : r.WellFormed) (hc : r.Compact)
    {fault : Option EmitError} (h : em.resolveFunction r = (em', fault)) :
    SucceedsIff (em.Resolvable r ∧ em.CanPlace (em.variablesOf r))
        (EmitError.MayOccur (em.CallsBeyond r) (em.Outgrown (em.variablesOf r))) fault ∧
      (fault = none → em.arena.placeAll em.target (em.variablesOf r) = .ok em'.arena) := by
  have htry : em.tryResolve r = ((em.tryResolve r).1, (em.tryResolve r).2) := rfl
  obtain ⟨hall, _⟩ := tryResolve_succeedsIff ht hw hc htry
  obtain rfl : (em.tryResolve r).2 = fault := congrArg Prod.snd h
  refine ⟨hall, fun hnone => ?_⟩
  rw [hnone] at h
  exact (tryResolve_succeedsIff ht hw hc (tryResolve_of_resolveFunction h)).2 rfl

theorem tryResolve_sameNames (ht : em.target = .x86_64) (hw : r.WellFormed)
    (hr : em.function? r.id = some r) {fault : Option EmitError}
    (h : em.tryResolve r = (em', fault)) : em.SameNames em' := by
  obtain ⟨r', hr'⟩ := tryResolve_resolved ht hw hr h
  have hfunctions : em'.functionAddress = em.functionAddress := by
    funext id
    unfold functionAddress
    by_cases heq : r.id = id
    · subst heq
      rw [hr'.found, if_pos rfl, hr]
      simp only [hr'.shape.codeAddress]
    · rw [hr'.found, if_neg heq]
  rcases hres : em.resolveTargets r r.relocations with ⟨em₁, es, fault₁⟩
  have hnames := (resolveTargets_succeedsIff (P := em.CallsBeyond r) hw hw.leftToTarget hres).2.1
  unfold tryResolve at h
  rw [hres] at h
  split at h
  · rename_i hfirst
    cases hfirst
    cases h
    exact ⟨hnames.target, hnames.module, hnames.symbols, hnames.host, hfunctions⟩
  · rename_i hfirst
    cases hfirst
    split at h
    · cases h
      exact ⟨hnames.target, hnames.module, hnames.symbols, hnames.host, hfunctions⟩
    · cases h
      exact ⟨hnames.target, hnames.module, hnames.symbols, hnames.host, hfunctions⟩

theorem afterFault_sameNames (em : Emitter) (id : FuncId) (fault : Option EmitError) :
    em.SameNames (em.afterFault id fault) := by
  refine ⟨?_, ?_, ?_, ?_, em.afterFault_functionAddress id fault⟩ <;>
    (unfold afterFault; split <;> rfl)

theorem resolveFunction_sameNames (ht : em.target = .x86_64) (hw : r.WellFormed)
    (hr : em.function? r.id = some r) {fault : Option EmitError}
    (h : em.resolveFunction r = (em', fault)) : em.SameNames em' := by
  obtain rfl : (em.resolveFunction r).1 = em' := congrArg Prod.fst h
  exact (tryResolve_sameNames ht hw hr rfl).trans (afterFault_sameNames _ _ _)

theorem SameNames.resolvable (h : em.SameNames em') (r : FunctionRecord) :
    em'.Resolvable r ↔ em.Resolvable r := by
  constructor
  · intro hr
    refine ⟨hr.writable, fun e he => (h.locatable r _).1 (hr.located e he), hr.entries, ?_⟩
    rw [← h.functionAddress]
    exact hr.calls
  · intro hr
    refine ⟨hr.writable, fun e he => (h.locatable r _).2 (hr.located e he), hr.entries, ?_⟩
    rw [h.functionAddress]
    exact hr.calls

def PassEndsBeyond (em : Emitter) (rs : List FunctionRecord) (offset : Nat) (address : UInt64) :
    Prop :=
  ∃ earlier r later em', rs = earlier ++ r :: later ∧
    em.resolveEach (earlier.map (·.id)) = (em', none) ∧
    (em'.resolveFunction r).2 = some (.relocationRange offset address) ∧
    em.CallsBeyond r offset address

/-- A pass resolves all functions if they are resolvable and there is room for their variables. -/
theorem resolveEach_succeedsIff {rs : List FunctionRecord} (ht : em.target = .x86_64)
    (hn : (rs.map (·.id)).Nodup)
    (hrs : ∀ r ∈ rs, em.function? r.id = some r ∧ r.WellFormed ∧ r.Compact)
    {fault : Option EmitError} (h : em.resolveEach (rs.map (·.id)) = (em', fault)) :
    SucceedsIff ((∀ r ∈ rs, em.Resolvable r) ∧ em.CanPlace (rs.flatMap em.variablesOf))
      (EmitError.MayOccur (em.PassEndsBeyond rs) (em.Outgrown (rs.flatMap em.variablesOf))) fault := by
  induction rs generalizing em with
  | nil =>
    cases h
    exact .success ⟨by simp, _, rfl⟩
  | cons r rs ih =>
    obtain ⟨hr, hw, hc⟩ := hrs r List.mem_cons_self
    rw [List.map_cons, List.nodup_cons] at hn
    rw [List.map_cons, resolveEach] at h
    simp only [hr] at h
    rcases hstep : em.resolveFunction r with ⟨em₁, fault₁⟩
    obtain ⟨hfirst, harena⟩ := resolveFunction_succeedsIff ht hw hc hstep
    have hnames := resolveFunction_sameNames ht hw hr hstep
    rw [hstep] at h
    cases fault₁ with
    | some err =>
      cases h
      cases hfirst with
      | failure not why =>
        have hplaces (hall : em.CanPlace ((r :: rs).flatMap em.variablesOf)) :
            em.CanPlace (em.variablesOf r) := by
          obtain ⟨a, hplace⟩ := hall
          exact Arena.exists_of_placeAll_append hplace
        refine .failure (fun hall => not ⟨hall.1 r List.mem_cons_self, hplaces hall.2⟩) ?_
        refine why.mono (fun hout => hout.append _) ?_
        rintro offset address rfl hbeyond
        exact ⟨[], r, rs, em, rfl, rfl, congrArg Prod.snd hstep, hbeyond⟩
    | none =>
      obtain ⟨hresolvable, _⟩ := hfirst.iff.1 rfl
      obtain ⟨r', hr'⟩ := tryResolve_resolved ht hw hr (tryResolve_of_resolveFunction hstep)
      have hrest : ∀ s ∈ rs, em₁.function? s.id = some s ∧ s.WellFormed ∧ s.Compact := by
        intro s hs
        obtain ⟨hsid, hsw, hsc⟩ := hrs s (List.mem_cons_of_mem _ hs)
        have hne : r.id ≠ s.id := fun heq => hn.1 (heq ▸ List.mem_map_of_mem (f := (·.id)) hs)
        exact ⟨by rw [hr'.found, if_neg hne, hsid], hsw, hsc⟩
      have hvariables : em₁.variablesOf = em.variablesOf := by
        unfold variablesOf
        rw [hnames.module]
      have hplace : em.CanPlace ((r :: rs).flatMap em.variablesOf) ↔
          em₁.CanPlace (rs.flatMap em₁.variablesOf) := by
        unfold CanPlace
        rw [hnames.target, hvariables, List.flatMap_cons, Arena.placeAll_append (harena rfl)]
      rw [hplace]
      refine (ih (hnames.target.trans ht) hn.2 hrest h).congr ?_ ?_
      · rw [List.forall_mem_cons]
        simp only [hnames.resolvable]
        exact and_congr_left' ⟨fun hall => ⟨hresolvable, hall⟩, fun hall => hall.2⟩
      · intro err herr
        refine herr.mono (fun hout => ?_) ?_
        · rw [hvariables] at hout
          exact hout.after (harena rfl) hnames.target
        rintro offset address _ ⟨earlier, s, later, em₂, rfl, hearlier, hfault, hbeyond⟩
        refine ⟨r :: earlier, s, later, em₂, rfl, ?_, hfault, ?_⟩
        · rw [List.map_cons, resolveEach]
          simp only [hr, hstep]
          exact hearlier
        · rwa [hnames.callsBeyond] at hbeyond

end Emitter

end CodeEmission
