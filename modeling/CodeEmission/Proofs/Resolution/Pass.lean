import CodeEmission.Proofs.Emitter.Later
import CodeEmission.Proofs.Maps
import CodeEmission.Proofs.Resolution.Records

/-! # A pass of resolution

A function that is resolved has the current address of every target in its log and in its code. A
pass resolves one function after another without disturbing those that are resolved already.
-/

namespace CodeEmission.Emitter

variable {em em' : Emitter} {r r' : FunctionRecord} {e : Relocation} {a : UInt64}

/-- Where the target of a reference is at present, if no variable has to get its place first. Of
external symbols nothing is said. -/
def TargetsAt (em : Emitter) (r : FunctionRecord) (e : Relocation) (a : UInt64) : Prop :=
  match e.target with
  | .externalSymbol _ => True
  | .globalValue g | .indirectSymbol g => em.Leads g a
  | .basicBlock b => r.blockAddress b = .ok a
  | .constantPool i => r.constantAddress i = .ok a
  | .jumpTable i => r.jumpTableAddress i = .ok a

def Current (em : Emitter) (r : FunctionRecord) : Prop :=
  ∀ e ∈ r.relocations, ∃ a, em.TargetsAt r e a ∧ e.result = some a ∧ r.fieldAddress e = a

theorem Current.leads {g : GlobalRef} (h : em.Current r) (he : e ∈ r.relocations)
    (hg : e.global? = some g) :
    ∃ a, em.Leads g a ∧ e.result = some a ∧ r.fieldAddress e = a := by
  obtain ⟨a, ht, hresult, hfield⟩ := h e he
  refine ⟨a, ?_, hresult, hfield⟩
  unfold TargetsAt at ht
  unfold Relocation.global? at hg
  cases htarget : e.target with
  | globalValue g' =>
    rw [htarget] at ht hg
    cases hg
    exact ht
  | indirectSymbol g' =>
    rw [htarget] at ht hg
    cases hg
    exact ht
  | _ =>
    rw [htarget] at hg
    cases hg

/-- The functions that a reference leads to are later where they were before. -/
def Keeps (em em' : Emitter) (e : Relocation) : Prop :=
  ∀ g, e.global? = some g → ∀ id s,
    em.module.destination (em.module.aliases.length + 1) g = .ok (.function id) →
      em.function? id = some s → ∃ s', em'.function? id = some s' ∧ s'.codeAddress = s.codeAddress

theorem TargetsAt.targetAddress (h : em.TargetsAt r e a) (hext : e.isExternal = false) :
    em.targetAddress r e.target = (em, .ok a) := by
  unfold TargetsAt at h
  unfold Relocation.isExternal at hext
  cases ht : e.target with
  | externalSymbol name => simp [ht] at hext
  | globalValue g => rw [ht] at h; exact Leads.globalAddress h
  | indirectSymbol g => rw [ht] at h; exact Leads.globalAddress h
  | basicBlock b => rw [ht] at h; exact congrArg (Prod.mk em) h
  | constantPool i => rw [ht] at h; exact congrArg (Prod.mk em) h
  | jumpTable i => rw [ht] at h; exact congrArg (Prod.mk em) h

theorem TargetsAt.of_targetAddress (h : em.targetAddress r e.target = (em', .ok a)) :
    em'.TargetsAt r e a := by
  unfold TargetsAt
  cases ht : e.target with
  | externalSymbol name => trivial
  | globalValue g => rw [ht] at h; exact leads_of_globalAddress h
  | indirectSymbol g => rw [ht] at h; exact leads_of_globalAddress h
  | basicBlock b => rw [ht] at h; exact congrArg Prod.snd h
  | constantPool i => rw [ht] at h; exact congrArg Prod.snd h
  | jumpTable i => rw [ht] at h; exact congrArg Prod.snd h

theorem TargetsAt.later (h : em.TargetsAt r e a) (hl : em.Later em') (hk : em.Keeps em' e)
    (hs : r.SameShape r') : em'.TargetsAt r' e a := by
  have haddress : r'.block.addressAt = r.block.addressAt := by
    funext offset
    rw [Block.addressAt, Block.addressAt, hs.address]
  unfold TargetsAt at h ⊢
  unfold Keeps Relocation.global? at hk
  cases ht : e.target with
  | externalSymbol name => trivial
  | globalValue g => rw [ht] at h hk; exact Leads.later h hl (hk g rfl)
  | indirectSymbol g => rw [ht] at h hk; exact Leads.later h hl (hk g rfl)
  | basicBlock b =>
    rw [ht] at h
    simp only [FunctionRecord.blockAddress, FunctionRecord.blockOffset, hs.locations, hs.name,
      haddress] at h ⊢
    exact h
  | constantPool i =>
    rw [ht] at h
    simp only [FunctionRecord.constantAddress, hs.layout, haddress] at h ⊢
    exact h
  | jumpTable i =>
    rw [ht] at h
    have howner : r'.tableOwner.addressAt = r.tableOwner.addressAt := by
      funext offset
      simp only [JumpTableLayout.Owner.addressAt, FunctionRecord.tableOwner,
        FunctionRecord.baseAddress, hs.address]
    simp only [FunctionRecord.jumpTableAddress, hs.layout, howner] at h ⊢
    exact h

theorem keeps_of_functions (h : ∀ id s, em.function? id = some s →
    ∃ s', em'.function? id = some s' ∧ s'.codeAddress = s.codeAddress) (e : Relocation) :
    em.Keeps em' e := fun _ _ id s _ hs => h id s hs

theorem Untouched.keeps (h : em.Untouched em') (e : Relocation) : em.Keeps em' e := by
  refine keeps_of_functions ?_ e
  intro id s hs
  exact ⟨s, by rwa [function?, h.functions], rfl⟩

theorem Untouched.function? (h : em.Untouched em') : em'.function? = em.function? := by
  funext id
  rw [Emitter.function?, h.functions]
  rfl

/-- A record that is put in the place of one of the same shape stands where that one did. -/
theorem keeps_of_replaced (hr : em.function? r.id = some r) (hs : r.SameShape r')
    (hfound : ∀ id, em'.function? id = if r.id = id then some r' else em.function? id)
    (e : Relocation) : em.Keeps em' e := by
  refine keeps_of_functions ?_ e
  intro id s hs'
  rw [hfound id]
  split
  · rename_i heq
    subst heq
    obtain rfl : r = s := Option.some.inj (hr.symm.trans hs')
    exact ⟨r', rfl, hs.codeAddress⟩
  · exact ⟨s, hs', rfl⟩

theorem Current.later (h : em.Current r) (hl : em.Later em')
    (hk : ∀ e ∈ r.relocations, em.Keeps em' e) : em'.Current r := by
  intro e he
  obtain ⟨a, ht, hresult, hfield⟩ := h e he
  exact ⟨a, ht.later hl (hk e he) (.refl r), hresult, hfield⟩

theorem resolveTargets_spec {es es' : List Relocation} {fault : Option EmitError}
    (h : em.resolveTargets r es = (em', es', fault)) :
    es'.map Relocation.bare = es.map Relocation.bare ∧
      (fault = none → (∀ e ∈ es, e.leftToTarget = false) →
        ∀ e ∈ es', ∃ a, em'.TargetsAt r e a ∧ e.result = some a) := by
  fun_induction resolveTargets em r es generalizing em' es' fault with
  | case1 em =>
    cases h
    exact ⟨rfl, fun _ _ e he => by cases he⟩
  | case2 em reloc relocs hleft em₁ relocs₁ fault₁ hrest ih =>
    cases h
    obtain ⟨hbare, _⟩ := ih hrest
    refine ⟨by rw [List.map_cons, List.map_cons, hbare], ?_⟩
    intro _ hplain
    rw [hplain reloc List.mem_cons_self] at hleft
    cases hleft
  | case3 em reloc relocs hleft em₁ err ha =>
    cases h
    exact ⟨rfl, fun hnone => by cases hnone⟩
  | case4 em reloc relocs hleft em₁ address ha em₂ =>
    rename_i em₃ relocs₃ fault₃ hrest ih
    cases h
    obtain ⟨hbare, haddresses⟩ := ih hrest
    refine ⟨by rw [List.map_cons, List.map_cons, hbare]; rfl, ?_⟩
    intro hnone hplain e he
    rcases List.mem_cons.1 he with rfl | he
    · have hu := resolveTargets_untouched em₂ r relocs
      rw [hrest] at hu
      have hfirst : em₂.TargetsAt r { reloc with result := some address } address := by
        have ht := TargetsAt.of_targetAddress ha
        have hreport : em₁.Untouched em₂ := SameSetting.untouched ⟨rfl, rfl, rfl, rfl⟩ rfl rfl
        exact ht.later hreport.toLater (hreport.keeps _) (.refl r)
      exact ⟨address, hfirst.later hu.toLater (hu.keeps _) (.refl r), rfl⟩
    · exact haddresses hnone (fun e he => hplain e (List.mem_cons_of_mem _ he)) e he

theorem putRecord_function? (em : Emitter) (r : FunctionRecord) (id : FuncId) :
    (em.putRecord r).function? id =
      if r.id = id then (em.function? id).map fun _ => r else em.function? id :=
  IdMap.get?_modify em.functions r.id id fun _ => r

theorem putRecord_found (hr : em.function? r.id = some r) (hs : r'.id = r.id) (id : FuncId) :
    (em.putRecord r').function? id = if r.id = id then some r' else em.function? id := by
  rw [putRecord_function?, hs]
  split
  · rename_i heq
    rw [← heq, hr]
    rfl
  · rfl

theorem afterFault_of_ne {fault : Option EmitError} (h : ∀ step, fault ≠ some (.crash step))
    (em : Emitter) (id : FuncId) : em.afterFault id fault = em := by
  unfold afterFault
  split
  · exact absurd rfl (h _)
  · rfl

theorem resolveFunction_fst (em : Emitter) (r : FunctionRecord) :
    (em.resolveFunction r).1 = (em.tryResolve r).1.afterFault r.id (em.tryResolve r).2 := rfl

theorem tryResolve_of_resolveFunction (h : em.resolveFunction r = (em', none)) :
    em.tryResolve r = (em', none) := by
  rcases htry : em.tryResolve r with ⟨em₁, fault⟩
  unfold resolveFunction at h
  rw [htry] at h
  cases h
  rfl

theorem afterFault_function? (em : Emitter) (id : FuncId) (fault : Option EmitError) (j : FuncId) :
    (em.afterFault id fault).function? j = em.function? j ∨
      id = j ∧ (em.afterFault id fault).function? j =
        (em.function? j).map FunctionRecord.withoutLog := by
  unfold afterFault
  split
  · have hfound : (em.modifyFunction id FunctionRecord.withoutLog).function? j =
        if id = j then (em.function? j).map FunctionRecord.withoutLog else em.function? j :=
      IdMap.get?_modify em.functions id j FunctionRecord.withoutLog
    split at hfound
    · exact .inr ⟨‹_›, hfound⟩
    · exact .inl hfound
  · exact .inl rfl

theorem afterFault_function?_of_ne {id j : FuncId} (hne : id ≠ j) (fault : Option EmitError) :
    (em.afterFault id fault).function? j = em.function? j := by
  rcases em.afterFault_function? id fault j with heq | ⟨heq, _⟩
  · exact heq
  · exact absurd heq hne

theorem afterFault_functionAddress (em : Emitter) (id : FuncId) (fault : Option EmitError) :
    (em.afterFault id fault).functionAddress = em.functionAddress := by
  funext j
  unfold functionAddress
  rcases em.afterFault_function? id fault j with heq | ⟨_, heq⟩
  · rw [heq]
  · rw [heq]
    cases em.function? j <;> rfl

/-- What the attempt to resolve a function does to the table: its record keeps its shape, and has
current addresses unless there was a fault. -/
structure Resolved (em : Emitter) (r : FunctionRecord) (em' : Emitter) (fault : Option EmitError)
    (r' : FunctionRecord) : Prop where
  shape : r.SameShape r'
  found : ∀ id, em'.function? id = if r.id = id then some r' else em.function? id
  current : fault = none → r'.resolved = true ∧ em'.Current r'
  faulty : fault ≠ none → r'.resolved = r.resolved

theorem tryResolve_resolved (ht : em.target = .x86_64) (hw : r.WellFormed)
    (hr : em.function? r.id = some r) {fault : Option EmitError}
    (h : em.tryResolve r = (em', fault)) : ∃ r', em.Resolved r em' fault r' := by
  have hput {em₁ : Emitter} (hu : em.Untouched em₁) (s : FunctionRecord) (hs : s.id = r.id)
      (id : FuncId) :
      (em₁.putRecord s).function? id = if r.id = id then some s else em.function? id := by
    rw [← hu.function?] at hr ⊢
    exact putRecord_found hr hs id
  have hu := resolveTargets_untouched em r r.relocations
  unfold tryResolve at h
  split at h
  · rename_i em₁ relocations err hres
    rw [hres] at hu
    cases h
    have hshape := FunctionRecord.SameShape.addressed (resolveTargets_spec hres).1
    exact ⟨_, hshape, hput hu _ rfl, fun hnone => (by cases hnone), fun _ => rfl⟩
  · rename_i em₁ relocations hres
    rw [hres] at hu
    obtain ⟨hbare, haddresses⟩ := resolveTargets_spec hres
    have hshape := FunctionRecord.SameShape.addressed hbare
    rw [hu.target.trans ht] at h
    split at h
    · rename_i hpatch
      cases h
      obtain ⟨⟨stores, rfl⟩, _⟩ := FunctionRecord.patch_spec (hw.of_shape hshape) hpatch
      exact ⟨_, hshape.storeAll stores r.resolved, hput hu _ rfl, fun hnone => (by cases hnone),
        fun _ => rfl⟩
    · rename_i hpatch
      cases h
      obtain ⟨⟨stores, rfl⟩, hfields⟩ := FunctionRecord.patch_spec (hw.of_shape hshape) hpatch
      have hshape' := hshape.storeAll stores true
      have hfound := hput hu
        { r with relocations, block := r.block.storeAll stores, resolved := true } rfl
      refine ⟨_, hshape', hfound, fun _ => ⟨rfl, ?_⟩, fun hne => absurd rfl hne⟩
      intro e he
      obtain ⟨a, hta, hresult⟩ := haddresses rfl hw.leftToTarget e he
      obtain ⟨address, haddress, hfield⟩ := hfields rfl e he
      obtain rfl : a = address := Option.some.inj (hresult.symm.trans haddress)
      rw [← hu.function?] at hr hfound
      refine ⟨a, hta.later ?_ (keeps_of_replaced hr hshape' hfound e) hshape', hresult, hfield⟩
      exact SameSetting.later ⟨rfl, rfl, rfl, rfl⟩ id fun h => IdMap.Ascending.modify h r.id _

end CodeEmission.Emitter
