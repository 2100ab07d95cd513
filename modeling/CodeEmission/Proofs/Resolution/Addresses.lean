import CodeEmission.Batch
import CodeEmission.Proofs.Resolution.Success

/-! # Addresses of references

Where the targets of references are is a matter of the state alone, so two passes that know the same
addresses patch a function alike. More symbols and more places in the arena change no address that was
known before.
-/

namespace CodeEmission

namespace Arena

variable {a b : Arena} {t : Target} {vs ws : List GlobalVariable}

theorem slots_of_placeAll (h : a.placeAll t vs = .ok b) :
    (∀ id o, a.slot? id = some o → b.slot? id = some o) ∧
      ∀ v ∈ vs, ∃ o, b.slot? v.id = some o := by
  induction vs generalizing a with
  | nil =>
    cases h
    exact ⟨fun _ _ ho => ho, by simp⟩
  | cons v vs ih =>
    unfold placeAll at h
    rw [List.foldlM_cons] at h
    rcases ha : a.addressOf t v with ⟨c, e | answer⟩
    · rw [place_of_error ha] at h
      cases h
    · rw [place_of_ok ha] at h
      have hkept (id : GlobalId) (o : ArenaOffset) (ho : a.slot? id = some o) :
          c.slot? id = some o := by
        have hkeeps := a.addressOf_keeps t v ho
        rwa [ha] at hkeeps
      obtain ⟨hlater, hplaced⟩ := ih h
      refine ⟨fun id o ho => hlater id o (hkept id o ho), ?_⟩
      intro w hw
      rcases List.mem_cons.1 hw with rfl | hw
      · exact ⟨_, hlater _ _ (addressOf_slot ha)⟩
      · exact hplaced w hw

theorem placeAll_of_slots (h : ∀ v ∈ vs, ∃ o, a.slot? v.id = some o) : a.placeAll t vs = .ok a := by
  induction vs with
  | nil => rfl
  | cons v vs ih =>
    obtain ⟨o, ho⟩ := h v List.mem_cons_self
    have hsame := place_of_ok (addressOf_of_slot (t := t) ho)
    have hrest := ih fun w hw => h w (List.mem_cons_of_mem _ hw)
    unfold placeAll at hrest ⊢
    rw [List.foldlM_cons, hsame]
    exact hrest

theorem placeAll_again (h : a.placeAll t vs = .ok b) (hsub : ∀ w ∈ ws, w ∈ vs)
    (us : List GlobalVariable) : b.placeAll t (ws ++ us) = b.placeAll t us := by
  have hplaced := (slots_of_placeAll h).2
  exact placeAll_append (placeAll_of_slots fun w hw => hplaced w (hsub w hw))

end Arena

namespace SymbolTable

theorem find?_define (s : SymbolTable) (host : Host) (name name' : String) (address : UInt64) :
    (s.define name address).find? host name' =
      if name' = name then some address else s.find? host name' := by
  unfold find? lookup define
  rw [List.lookup_cons]
  by_cases h : name' = name
  · subst h
    simp
  · simp only [beq_false_of_ne h, if_neg h]

def defineAll (s : SymbolTable) (defs : List (String × UInt64)) : SymbolTable :=
  defs.foldl (fun s d => s.define d.1 d.2) s

theorem find?_defineAll (s : SymbolTable) (defs : List (String × UInt64)) (host : Host)
    (name : String) :
    (s.defineAll defs).find? host name = (defs.reverse.lookup name).or (s.find? host name) := by
  induction defs generalizing s with
  | nil => rfl
  | cons d defs ih =>
    obtain ⟨k, a⟩ := d
    have hrest : (s.defineAll ((k, a) :: defs)).find? host name =
        (defs.reverse.lookup name).or ((s.define k a).find? host name) := ih _
    rw [hrest, find?_define, List.reverse_cons, List.lookup_append, Option.or_assoc]
    by_cases h : name = k
    · simp [h]
    · simp [List.lookup_cons, beq_false_of_ne h, h]

end SymbolTable

namespace Emitter

variable {em em' em'' : Emitter} {r r' : FunctionRecord} {e e' : Relocation} {a b : UInt64}
  {es es' es'' : List Relocation} {defs : List (String × UInt64)}

/-- The target of a reference is at an address, and no variable has to get its place first. -/
def Locates (em : Emitter) (r : FunctionRecord) (e : Relocation) (a : UInt64) : Prop :=
  em.TargetsAt r e a ∧
    ∀ name, e.target = .externalSymbol name → em.symbols.find? em.host name = some a

structure KeepsAddresses (em em' : Emitter) : Prop where
  module : em'.module = em.module
  slots : ∀ id o, em.arena.slot? id = some o → em'.arena.slot? id = some o
  symbols : ∀ name a, em.symbols.find? em.host name = some a →
    em'.symbols.find? em'.host name = some a
  functions : em'.functionAddress = em.functionAddress

theorem KeepsAddresses.refl (em : Emitter) : em.KeepsAddresses em :=
  ⟨rfl, fun _ _ h => h, fun _ _ h => h, rfl⟩

theorem KeepsAddresses.trans (h : em.KeepsAddresses em') (h' : em'.KeepsAddresses em'') :
    em.KeepsAddresses em'' where
  module := h'.module.trans h.module
  slots id o ho := h'.slots id o (h.slots id o ho)
  symbols name a ha := h'.symbols name a (h.symbols name a ha)
  functions := h'.functions.trans h.functions

theorem SameNames.keepsAddresses (h : em.SameNames em')
    (hs : ∀ id o, em.arena.slot? id = some o → em'.arena.slot? id = some o) :
    em.KeepsAddresses em' where
  module := h.module
  slots := hs
  symbols name a ha := by rwa [h.symbols, h.host]
  functions := h.functionAddress

theorem defineSymbols_eq (em : Emitter) (defs : List (String × UInt64)) :
    em.defineSymbols defs = { em with symbols := em.symbols.defineAll defs } := by
  induction defs generalizing em with
  | nil => rfl
  | cons d defs ih => exact ih (em.defineSymbol d.1 d.2)

/-- Symbols that were not there before change no address that was known. -/
theorem keepsAddresses_defineSymbols (h : ∀ d ∈ defs, em.symbols.find? em.host d.1 = none) :
    em.KeepsAddresses (em.defineSymbols defs) := by
  rw [defineSymbols_eq]
  refine ⟨rfl, fun _ _ ho => ho, ?_, rfl⟩
  intro name a ha
  have hnew : defs.reverse.lookup name = none := by
    rw [List.lookup_eq_none_iff]
    intro d hd
    have hne : name ≠ d.1 := by
      rintro rfl
      rw [h d (List.mem_reverse.1 hd)] at ha
      cases ha
    exact bne_iff_ne.2 hne
  refine (SymbolTable.find?_defineAll em.symbols defs em.host name).trans ?_
  rw [hnew, Option.none_or, ha]

theorem functionAddress_eq_ok {id : FuncId} :
    em.functionAddress id = .ok a ↔ ∃ s, em.function? id = some s ∧ s.codeAddress = a := by
  unfold functionAddress
  cases em.function? id with
  | none => simp
  | some s => simp

theorem Leads.keeps {g : GlobalRef} (h : em.Leads g a) (hk : em.KeepsAddresses em') :
    em'.Leads g a := by
  cases h with
  | function ends committed =>
    have hfound := functionAddress_eq_ok.2 ⟨_, committed, rfl⟩
    rw [← hk.functions] at hfound
    obtain ⟨s, hs, hsa⟩ := functionAddress_eq_ok.1 hfound
    rw [← hk.module] at ends
    rw [← hsa]
    exact .function ends hs
  | «variable» ends placed =>
    rw [← hk.module] at ends
    exact .variable ends (hk.slots _ _ placed)

theorem Locates.keeps (h : em.Locates r e a) (hk : em.KeepsAddresses em') : em'.Locates r e a := by
  obtain ⟨ht, hsymbol⟩ := h
  refine ⟨?_, fun name hname => hk.symbols name a (hsymbol name hname)⟩
  unfold TargetsAt at ht ⊢
  cases htarget : e.target with
  | externalSymbol name => trivial
  | globalValue g => rw [htarget] at ht; exact Leads.keeps ht hk
  | indirectSymbol g => rw [htarget] at ht; exact Leads.keeps ht hk
  | basicBlock b => rw [htarget] at ht; exact ht
  | constantPool i => rw [htarget] at ht; exact ht
  | jumpTable i => rw [htarget] at ht; exact ht

theorem Locates.unique (h : em.Locates r e a) (h' : em.Locates r e b) : a = b := by
  cases hext : e.isExternal with
  | true =>
    unfold Relocation.isExternal at hext
    split at hext
    · rename_i name hname
      exact Option.some.inj ((h.2 name hname).symm.trans (h'.2 name hname))
    · cases hext
  | false =>
    have ha := h.1.targetAddress hext
    have hb := h'.1.targetAddress hext
    rw [ha] at hb
    exact Except.ok.inj (congrArg Prod.snd hb)

theorem Locates.of_shape (h : em.Locates r e a) (hs : r.SameShape r') : em.Locates r' e a :=
  ⟨h.1.later (.refl em) (keeps_of_functions (fun _ s hs => ⟨s, hs, rfl⟩) e) hs, h.2⟩

/-- What has an address in the state is there. -/
theorem Locates.locatable (hw : r.WellFormed) (h : em.Locates r e a) : em.Locatable r e.target := by
  obtain ⟨ht, hsymbol⟩ := h
  cases htarget : e.target with
  | externalSymbol name => exact ⟨a, hsymbol name htarget⟩
  | _ =>
    have hext : e.isExternal = false := by simp [Relocation.isExternal, htarget]
    have hanswer : em.Answers (em.Locatable r e.target) (e.target.variables em.module)
        (fun _ _ => True) em.arena (.ok a) := targetAddress_answers hw (ht.targetAddress hext)
    rw [htarget] at hanswer
    cases hanswer with
    | address found _ => exact found

def Addressed (em : Emitter) (r : FunctionRecord) : List Relocation → List Relocation → Prop :=
  List.Forall₂ fun e e' => ∃ a, em.Locates r e a ∧ e' = { e with result := some a }

namespace Addressed

theorem keeps (h : em.Addressed r es es') (hk : em.KeepsAddresses em') :
    em'.Addressed r es es' := by
  refine List.Forall₂.imp ?_ h
  rintro e _ ⟨a, ha, rfl⟩
  exact ⟨a, ha.keeps hk, rfl⟩

theorem of_shape (h : em.Addressed r es es') (hs : r.SameShape r') : em.Addressed r' es es' := by
  refine List.Forall₂.imp ?_ h
  rintro e _ ⟨a, ha, rfl⟩
  exact ⟨a, ha.of_shape hs, rfl⟩

theorem bare (h : em.Addressed r es es') :
    es'.map Relocation.bare = es.map Relocation.bare := by
  induction h with
  | nil => rfl
  | cons hfirst _ ih =>
    obtain ⟨a, _, rfl⟩ := hfirst
    rw [List.map_cons, List.map_cons, ih]
    rfl

theorem located (h : em.Addressed r es es') : ∀ e ∈ es, ∃ a, em.Locates r e a := by
  induction h with
  | nil => simp
  | cons hfirst _ ih =>
    obtain ⟨a, ha, _⟩ := hfirst
    exact List.forall_mem_cons.2 ⟨⟨a, ha⟩, ih⟩

/-- Addresses that are in the log already make no difference. -/
theorem of_bare (h : em.Addressed r es es')
    (hbare : es''.map Relocation.bare = es.map Relocation.bare) : em.Addressed r es'' es' := by
  induction h generalizing es'' with
  | nil =>
    obtain rfl := List.map_eq_nil_iff.1 hbare
    exact .nil
  | @cons e _ _ _ hfirst _ ih =>
    cases es'' with
    | nil => cases hbare
    | cons f fs =>
      obtain ⟨hhead, htail⟩ := List.cons.inj hbare
      obtain ⟨a, ha, rfl⟩ := hfirst
      have hlocates : em.Locates r e.bare a := ha
      rw [← hhead] at hlocates
      have hsame : { e with result := some a } = { f with result := some a } :=
        congrArg (fun e : Relocation => { e with result := some a }) hhead.symm
      exact .cons ⟨a, hlocates, hsame⟩ (ih htail)

theorem unique (h : em.Addressed r es es') (h' : em.Addressed r es es'') : es'' = es' := by
  refine List.right_unique_forall₂' ?_ h' h
  rintro e _ _ ⟨a, ha, rfl⟩ ⟨b, hb, rfl⟩
  rw [ha.unique hb]

end Addressed

theorem targetAddress_eq (em : Emitter) (r : FunctionRecord) (t : RelocTarget) :
    ∃ arena log, (em.targetAddress r t).1 = { em with arena, log } := by
  have hglobal (g : GlobalRef) : ∃ arena log, (em.globalAddress g).1 = { em with arena, log } := by
    unfold globalAddress variableAddress
    split
    · exact ⟨em.arena, em.log, rfl⟩
    · exact ⟨em.arena, em.log, rfl⟩
    · split <;> exact ⟨_, _, rfl⟩
  cases t with
  | externalSymbol name =>
    simp only [targetAddress, symbolAddress]
    split
    · exact ⟨em.arena, _, rfl⟩
    · exact ⟨em.arena, _, rfl⟩
  | globalValue g => exact hglobal g
  | indirectSymbol g => exact hglobal g
  | basicBlock b => exact ⟨em.arena, em.log, rfl⟩
  | constantPool i => exact ⟨em.arena, em.log, rfl⟩
  | jumpTable i => exact ⟨em.arena, em.log, rfl⟩

theorem resolveTargets_eq (em : Emitter) (r : FunctionRecord) (es : List Relocation) :
    ∃ arena log, (em.resolveTargets r es).1 = { em with arena, log } := by
  fun_induction resolveTargets em r es with
  | case1 em => exact ⟨em.arena, em.log, rfl⟩
  | case2 em reloc relocs _ em₁ relocs₁ fault hrest ih =>
    rw [hrest] at ih
    exact ih
  | case3 em reloc relocs _ em₁ e ha =>
    have heq := targetAddress_eq em r reloc.target
    rw [ha] at heq
    exact heq
  | case4 em reloc relocs _ em₁ address ha em₂ em₃ relocs₃ fault hrest ih =>
    obtain ⟨arena₁, log₁, h₁⟩ := targetAddress_eq em r reloc.target
    rw [ha] at h₁
    rw [hrest] at ih
    obtain ⟨arena, log, h⟩ := ih
    refine ⟨arena, log, h.trans ?_⟩
    simp only [em₂, report, show em₁ = _ from h₁]

theorem arena_of_targetAddress_error {t : RelocTarget} {err : EmitError}
    (h : em.targetAddress r t = (em', .error err)) : em'.arena = em.arena := by
  have hglobal (g : GlobalRef) (h : em.globalAddress g = (em', .error err)) :
      em'.arena = em.arena := by
    unfold globalAddress variableAddress at h
    split at h
    · cases h
      rfl
    · exact (congrArg (fun p => p.1.arena) h).symm
    · split at h
      · rename_i ha
        cases h
        exact Arena.eq_of_addressOf_error ha
      · cases h
  cases t with
  | externalSymbol name =>
    simp only [targetAddress, symbolAddress] at h
    split at h
    · cases h
    · cases h
      rfl
  | globalValue g => exact hglobal g h
  | indirectSymbol g => exact hglobal g h
  | basicBlock b => exact (congrArg (fun p => p.1.arena) h).symm
  | constantPool i => exact (congrArg (fun p => p.1.arena) h).symm
  | jumpTable i => exact (congrArg (fun p => p.1.arena) h).symm

theorem Locates.of_targetAddress (h : em.targetAddress r e.target = (em', .ok a)) :
    em'.Locates r e a := by
  refine ⟨.of_targetAddress h, ?_⟩
  intro name hname
  have hnames := targetAddress_sameNames em r e.target
  rw [h] at hnames
  rw [hname] at h
  simp only [targetAddress, symbolAddress] at h
  split at h
  · rename_i ha
    cases h
    exact ha
  · cases h

theorem resolveTargets_keepsAddresses (hw : r.WellFormed) {fault : Option EmitError}
    (hplain : ∀ e ∈ es, e.leftToTarget = false) (h : em.resolveTargets r es = (em', es', fault)) :
    em.KeepsAddresses em' := by
  have hnames := (resolveTargets_succeedsIff (P := fun _ _ => True) hw hplain h).2.1
  have hu := resolveTargets_untouched em r es
  rw [h] at hu
  exact hnames.keepsAddresses hu.slots

theorem resolveTargets_addressed (hw : r.WellFormed) {fault : Option EmitError}
    (hplain : ∀ e ∈ es, e.leftToTarget = false) (h : em.resolveTargets r es = (em', es', fault)) :
    em.KeepsAddresses em' ∧ (fault = none → em'.Addressed r es es') ∧
      ∃ placed waiting, es.flatMap (·.target.variables em.module) = placed ++ waiting ∧
        em.arena.placeAll em.target placed = .ok em'.arena ∧ (fault = none → waiting = []) := by
  refine ⟨resolveTargets_keepsAddresses hw hplain h, ?_⟩
  fun_induction resolveTargets em r es generalizing em' es' fault with
  | case1 em =>
    cases h
    exact ⟨fun _ => .nil, [], [], rfl, rfl, fun _ => rfl⟩
  | case2 em reloc relocs hleft =>
    rw [hplain reloc List.mem_cons_self] at hleft
    cases hleft
  | case3 em reloc relocs hleft em₁ err ha =>
    cases h
    have hfault : some err ≠ none := Option.some_ne_none err
    refine ⟨fun h => absurd h hfault, [], _, (List.nil_append _).symm, ?_, fun h => absurd h hfault⟩
    rw [arena_of_targetAddress_error ha]
    rfl
  | case4 em reloc relocs hleft em₁ address ha em₂ =>
    rename_i em₃ relocs₃ fault₃ hrest ih
    cases h
    have hplain' : ∀ e ∈ relocs, e.leftToTarget = false :=
      fun e he => hplain e (List.mem_cons_of_mem _ he)
    obtain ⟨haddressed, placed, waiting, hsplit, hplaced, hall⟩ := ih hplain' hrest
    have hnames := targetAddress_sameNames em r reloc.target
    rw [ha] at hnames
    have hfirst : em.arena.placeAll em.target (reloc.target.variables em.module) = .ok em₁.arena := by
      cases targetAddress_answers (P := fun _ _ => True) hw ha with
      | address _ hplace => exact hplace
    refine ⟨?_, reloc.target.variables em.module ++ placed, waiting, ?_, ?_, hall⟩
    · intro hnone
      have hlocates : em₁.Locates r reloc address := .of_targetAddress ha
      have hreport : em₁.KeepsAddresses em₂ := ⟨rfl, fun _ _ h => h, fun _ _ h => h, rfl⟩
      have hkeeps := resolveTargets_keepsAddresses hw hplain' hrest
      exact .cons ⟨address, hlocates.keeps (hreport.trans hkeeps), rfl⟩
        (haddressed hnone)
    · have hmodule : em₂.module = em.module := hnames.module
      rw [hmodule] at hsplit
      rw [List.flatMap_cons, hsplit, List.append_assoc]
    · have htarget : em₂.target = em.target := hnames.target
      rw [htarget] at hplaced
      rw [Arena.placeAll_append hfirst]
      exact hplaced

end Emitter

end CodeEmission
