import CodeEmission.Proofs.Emitter.Later
import CodeEmission.Proofs.Resolution.Faults

/-! # Which references have addresses

A reference has an address if what it names is there. Besides, the variables among the targets need
places in the arena, which they get in the order in which they are asked for.
-/

namespace CodeEmission

def Arena.place (a : Arena) (t : Target) (v : GlobalVariable) : Except EmitError Arena :=
  match a.addressOf t v with
  | (b, .ok _) => .ok b
  | (_, .error e) => .error e

def Arena.placeAll (a : Arena) (t : Target) (vs : List GlobalVariable) : Except EmitError Arena :=
  vs.foldlM (fun a v => a.place t v) a

def Module.variableOf? (m : Module) (g : GlobalRef) : Option GlobalVariable :=
  match m.destination (m.aliases.length + 1) g with
  | .ok (.variable v) => some v
  | _ => none

def RelocTarget.variables (m : Module) : RelocTarget → List GlobalVariable
  | .globalValue g | .indirectSymbol g => (m.variableOf? g).toList
  | _ => []

namespace Arena

variable {a b : Arena} {t : Target} {v : GlobalVariable} {vs ws : List GlobalVariable}

theorem placeAll_append (h : a.placeAll t vs = .ok b) :
    a.placeAll t (vs ++ ws) = b.placeAll t ws := by
  unfold placeAll at h ⊢
  rw [List.foldlM_append, h]
  rfl

theorem exists_of_placeAll_append (h : a.placeAll t (vs ++ ws) = .ok b) :
    ∃ c, a.placeAll t vs = .ok c := by
  unfold placeAll at h ⊢
  rw [List.foldlM_append] at h
  cases hvs : vs.foldlM (fun a v => a.place t v) a with
  | error e =>
    rw [hvs] at h
    cases h
  | ok c => exact ⟨c, rfl⟩

theorem placeAll_singleton (a : Arena) (t : Target) (v : GlobalVariable) :
    a.placeAll t [v] = a.place t v := by
  unfold placeAll
  rw [List.foldlM_cons]
  cases a.place t v <;> rfl

theorem place_of_ok {answer : Answer} (h : a.addressOf t v = (b, .ok answer)) :
    a.place t v = .ok b := by
  rw [place, h]

theorem place_of_error {e : EmitError} (h : a.addressOf t v = (b, .error e)) :
    a.place t v = .error e := by
  rw [place, h]

theorem mayOccur_of_addressOf {P : Nat → UInt64 → Prop} {e : EmitError}
    (h : (a.addressOf t v).2 = .error e) :
    e.MayOccur P (v.isExternal = false ∧ hasSlotSize t v = false) := by
  unfold addressOf at h
  split at h
  · cases h
  split at h
  · cases h
    trivial
  rename_i internal
  split at h
  · rename_i sized
    cases h
    exact ⟨Bool.eq_false_iff.2 internal, by simpa using sized⟩
  dsimp only at h
  split at h
  · cases h
    trivial
  split at h
  · cases h
    trivial
  split at h
  · rename_i e' hfault
    cases h
    unfold initialPlan at hfault
    split at hfault
    · split at hfault
      · cases hfault
      · obtain ⟨reason, rfl⟩ := Constant.malformed_of_plan hfault
        trivial
    · cases hfault
  · cases h

end Arena

theorem Module.mayOccur_of_destination {P : Nat → UInt64 → Prop} {C : Prop} {m : Module}
    {steps : Nat} {g : GlobalRef} {e : EmitError} (h : m.destination steps g = .error e) :
    e.MayOccur P C := by
  fun_induction destination m steps g with
  | case1 => cases h
  | case2 => cases h
  | case3 =>
    cases h
    trivial
  | case4 =>
    cases h
    trivial
  | case5 _ _ _ _ ih => exact ih h
  | case6 =>
    cases h
    trivial

namespace Emitter

variable {em em' em'' : Emitter} {r : FunctionRecord} {g : GlobalRef} {t : RelocTarget}
  {P : Nat → UInt64 → Prop}

/-- A reference to a global leads to a committed function or to a declared variable. -/
def Bound (em : Emitter) (g : GlobalRef) : Prop :=
  (∃ id address, em.module.Reaches g (.function id) ∧ em.functionAddress id = .ok address) ∨
    ∃ id v, em.module.Reaches g (.variable id) ∧ em.module.global? id = some v

def Locatable (em : Emitter) (r : FunctionRecord) : RelocTarget → Prop
  | .externalSymbol name => ∃ address, em.symbols.find? em.host name = some address
  | .globalValue g | .indirectSymbol g => em.Bound g
  | .basicBlock b => ∃ offset, r.locations.block? b = some offset
  | .constantPool index => index < r.layout.constants.length
  | .jumpTable index => ∃ l, r.layout.jumpTables = some l ∧ index < l.tables.length

def CanPlace (em : Emitter) (vs : List GlobalVariable) : Prop :=
  ∃ a, em.arena.placeAll em.target vs = .ok a

/-- The arena has no room for some variables, and one of them is so large that it has no size. -/
def Outgrown (em : Emitter) (vs : List GlobalVariable) : Prop :=
  ¬em.CanPlace vs ∧ ∃ v ∈ vs, v.isExternal = false ∧ Arena.hasSlotSize em.target v = false

theorem Outgrown.append {vs : List GlobalVariable} (h : em.Outgrown vs)
    (ws : List GlobalVariable) : em.Outgrown (vs ++ ws) := by
  obtain ⟨hnot, v, hv, hsize⟩ := h
  refine ⟨?_, v, List.mem_append_left _ hv, hsize⟩
  rintro ⟨a, hplace⟩
  exact hnot (Arena.exists_of_placeAll_append hplace)

theorem Outgrown.after {vs ws : List GlobalVariable} (h : em'.Outgrown ws)
    (hplace : em.arena.placeAll em.target vs = .ok em'.arena) (ht : em'.target = em.target) :
    em.Outgrown (vs ++ ws) := by
  obtain ⟨hnot, v, hv, hsize⟩ := h
  rw [ht] at hsize
  refine ⟨?_, v, List.mem_append_right _ hv, hsize⟩
  rintro ⟨a, hall⟩
  rw [Arena.placeAll_append hplace, ← ht] at hall
  exact hnot ⟨a, hall⟩

/-- What can come of asking for an address: an address, and `a` is the arena with some variables placed
in it, or an error, because something is not `known` or the variables cannot be placed. -/
inductive Answers (em : Emitter) (known : Prop) (vs : List GlobalVariable) (P : Nat → UInt64 → Prop)
    (a : Arena) : Except EmitError UInt64 → Prop
  | address {address : UInt64} (found : known) (placed : em.arena.placeAll em.target vs = .ok a) :
    Answers em known vs P a (.ok address)
  | error {e : EmitError} (not : ¬(known ∧ em.CanPlace vs)) (why : e.MayOccur P (em.Outgrown vs)) :
    Answers em known vs P a (.error e)

structure SameNames (em em' : Emitter) : Prop where
  target : em'.target = em.target
  module : em'.module = em.module
  symbols : em'.symbols = em.symbols
  host : em'.host = em.host
  functionAddress : em'.functionAddress = em.functionAddress

theorem SameNames.refl (em : Emitter) : em.SameNames em := ⟨rfl, rfl, rfl, rfl, rfl⟩

theorem SameNames.trans (h : em.SameNames em') (h' : em'.SameNames em'') : em.SameNames em'' where
  target := h'.target.trans h.target
  module := h'.module.trans h.module
  symbols := h'.symbols.trans h.symbols
  host := h'.host.trans h.host
  functionAddress := h'.functionAddress.trans h.functionAddress

theorem SameNames.symm (h : em.SameNames em') : em'.SameNames em where
  target := h.target.symm
  module := h.module.symm
  symbols := h.symbols.symm
  host := h.host.symm
  functionAddress := h.functionAddress.symm

theorem SameNames.locatable (h : em.SameNames em') (r : FunctionRecord) (t : RelocTarget) :
    em'.Locatable r t ↔ em.Locatable r t := by
  unfold Locatable Bound
  rw [h.module, h.symbols, h.host, h.functionAddress]

theorem globalAddress_sameNames (em : Emitter) (g : GlobalRef) :
    em.SameNames (em.globalAddress g).1 := by
  unfold globalAddress variableAddress
  split
  · exact .refl em
  · exact .refl em
  · split <;> exact ⟨rfl, rfl, rfl, rfl, rfl⟩

theorem targetAddress_sameNames (em : Emitter) (r : FunctionRecord) (t : RelocTarget) :
    em.SameNames (em.targetAddress r t).1 := by
  cases t with
  | externalSymbol name =>
    simp only [targetAddress, symbolAddress]
    split <;> exact ⟨rfl, rfl, rfl, rfl, rfl⟩
  | globalValue g => exact globalAddress_sameNames em g
  | indirectSymbol g => exact globalAddress_sameNames em g
  | basicBlock b => exact .refl em
  | constantPool i => exact .refl em
  | jumpTable i => exact .refl em

theorem bound_of_function {id : FuncId}
    (hd : em.module.destination (em.module.aliases.length + 1) g = .ok (.function id)) :
    em.Bound g ↔ ∃ address, em.functionAddress id = .ok address := by
  constructor
  · rintro (⟨id', address, hr, ha⟩ | ⟨id', v, hr, hv⟩)
    · rw [Module.destination_eq_function.2 hr] at hd
      cases hd
      exact ⟨address, ha⟩
    · rw [Module.destination_eq_variable.2 ⟨id', hr, hv⟩] at hd
      cases hd
  · rintro ⟨address, ha⟩
    exact .inl ⟨id, address, Module.destination_eq_function.1 hd, ha⟩

theorem bound_of_variable {v : GlobalVariable}
    (hd : em.module.destination (em.module.aliases.length + 1) g = .ok (.variable v)) :
    em.Bound g := by
  obtain ⟨id, hr, hv⟩ := Module.destination_eq_variable.1 hd
  exact .inr ⟨id, v, hr, hv⟩

theorem not_bound_of_error {e : EmitError}
    (hd : em.module.destination (em.module.aliases.length + 1) g = .error e) : ¬em.Bound g := by
  rintro (⟨id, _, hr, _⟩ | ⟨id, v, hr, hv⟩)
  · rw [Module.destination_eq_function.2 hr] at hd
    cases hd
  · rw [Module.destination_eq_variable.2 ⟨id, hr, hv⟩] at hd
    cases hd

theorem globalAddress_answers {result : Except EmitError UInt64}
    (h : em.globalAddress g = (em', result)) :
    em.Answers (em.Bound g) (em.module.variableOf? g).toList P em'.arena result := by
  unfold globalAddress at h
  unfold Module.variableOf?
  cases hd : em.module.destination (em.module.aliases.length + 1) g with
  | error e =>
    rw [hd] at h
    cases h
    exact .error (fun hb => not_bound_of_error hd hb.1) (Module.mayOccur_of_destination hd)
  | ok target =>
    rw [hd] at h
    cases target with
    | function id =>
      cases h
      rw [bound_of_function hd]
      cases ha : em.functionAddress id with
      | ok address => exact .address ⟨address, rfl⟩ rfl
      | error e =>
        refine .error (by simp) ?_
        unfold functionAddress at ha
        split at ha
        · cases ha
        · cases ha
          trivial
    | «variable» v =>
      dsimp only [Option.toList_some] at h ⊢
      unfold variableAddress at h
      rcases ha : em.arena.addressOf em.target v with ⟨arena, e | answer⟩
      · rw [ha] at h
        cases h
        have hplace : ¬em.CanPlace [v] := by
          rintro ⟨a, hp⟩
          rw [Arena.placeAll_singleton, Arena.place_of_error ha] at hp
          cases hp
        have hmay := Arena.mayOccur_of_addressOf (P := P) (congrArg Prod.snd ha)
        refine .error (fun h => hplace h.2) (hmay.mono (fun hsize => ?_) fun _ _ _ h => h)
        exact ⟨hplace, v, List.mem_singleton_self v, hsize⟩
      · rw [ha] at h
        cases h
        refine .address (bound_of_variable hd) ?_
        rw [Arena.placeAll_singleton, Arena.place_of_ok ha]

theorem symbolAddress_answers {name : String} {result : Except EmitError UInt64}
    (h : em.symbolAddress name = (em', result)) :
    em.Answers (em.Locatable r (.externalSymbol name)) [] P em'.arena result := by
  unfold symbolAddress at h
  dsimp only at h
  split at h
  · rename_i address ha
    cases h
    exact .address ⟨address, ha⟩ rfl
  · rename_i ha
    cases h
    refine .error ?_ trivial
    rintro ⟨⟨address, ha'⟩, _⟩
    unfold SymbolTable.find? at ha'
    rw [ha] at ha'
    cases ha'

theorem blockAddress_answers (b : BlockId) :
    em.Answers (em.Locatable r (.basicBlock b)) [] P em.arena (r.blockAddress b) := by
  unfold FunctionRecord.blockAddress FunctionRecord.blockOffset
  cases hb : r.locations.block? b with
  | none => exact .error (by simp [Locatable, hb]) trivial
  | some offset => exact .address (by simp [Locatable, hb]) rfl

theorem constantAddress_answers (i : Nat) :
    em.Answers (em.Locatable r (.constantPool i)) [] P em.arena (r.constantAddress i) := by
  unfold FunctionRecord.constantAddress PoolLayout.constantOffset
  cases hi : r.layout.constants[i]? with
  | none =>
    have hle := List.getElem?_eq_none_iff.1 hi
    exact .error (by simp [Locatable, hle]) trivial
  | some offset =>
    have hlt := (List.getElem?_eq_some_iff.1 hi).1
    exact .address (by simp [Locatable, hlt]) rfl

theorem jumpTableAddress_answers (hw : r.WellFormed) (i : Nat) :
    em.Answers (em.Locatable r (.jumpTable i)) [] P em.arena (r.jumpTableAddress i) := by
  cases hl : r.layout.jumpTables with
  | none =>
    have ha : r.jumpTableAddress i = .error (.jumpTableIndex i 0) := by
      rw [FunctionRecord.jumpTableAddress, PoolLayout.jumpTableOffset, hl]
      rfl
    rw [ha]
    exact .error (by simp [Locatable, hl]) trivial
  | some l =>
    by_cases hlt : i < l.tables.length
    · rw [hw.jumpTableAddress_eq hl (List.getElem?_eq_getElem hlt)]
      exact .address (by simp [Locatable, hl, hlt]) rfl
    · have ha : r.jumpTableAddress i = .error (.jumpTableIndex i l.tables.length) := by
        simp only [FunctionRecord.jumpTableAddress, PoolLayout.jumpTableOffset, hl,
          JumpTableLayout.tableOffset, if_neg hlt]
        rfl
      rw [ha]
      exact .error (by simp [Locatable, hl, hlt]) trivial

theorem targetAddress_answers (hw : r.WellFormed) {result : Except EmitError UInt64}
    (h : em.targetAddress r t = (em', result)) :
    em.Answers (em.Locatable r t) (t.variables em.module) P em'.arena result := by
  cases t with
  | externalSymbol name => exact symbolAddress_answers h
  | globalValue g => exact globalAddress_answers h
  | indirectSymbol g => exact globalAddress_answers h
  | basicBlock b =>
    cases h
    exact blockAddress_answers b
  | constantPool i =>
    cases h
    exact constantAddress_answers i
  | jumpTable i =>
    cases h
    exact jumpTableAddress_answers hw i

theorem resolveTargets_succeedsIff (hw : r.WellFormed) {es es' : List Relocation}
    {fault : Option EmitError} (hplain : ∀ e ∈ es, e.leftToTarget = false)
    (h : em.resolveTargets r es = (em', es', fault)) :
    SucceedsIff ((∀ e ∈ es, em.Locatable r e.target) ∧
        em.CanPlace (es.flatMap (·.target.variables em.module)))
      (EmitError.MayOccur P (em.Outgrown (es.flatMap (·.target.variables em.module)))) fault ∧
      em.SameNames em' ∧
      (fault = none → em.arena.placeAll em.target (es.flatMap (·.target.variables em.module)) =
        .ok em'.arena) := by
  fun_induction resolveTargets em r es generalizing em' es' fault with
  | case1 em =>
    cases h
    exact ⟨.success ⟨by simp, _, rfl⟩, .refl em, fun _ => rfl⟩
  | case2 em reloc relocs hleft =>
    rw [hplain reloc List.mem_cons_self] at hleft
    cases hleft
  | case3 em reloc relocs hleft em₁ err ha =>
    cases h
    have hnames := targetAddress_sameNames em r reloc.target
    rw [ha] at hnames
    refine ⟨?_, hnames, ?_⟩
    · cases targetAddress_answers (P := P) hw ha with
      | error not why =>
        have hfirst (hall : em.CanPlace ((reloc :: relocs).flatMap (·.target.variables em.module))) :
            em.CanPlace (reloc.target.variables em.module) := by
          obtain ⟨a, hplace⟩ := hall
          exact Arena.exists_of_placeAll_append hplace
        refine .failure (fun hall => not ⟨hall.1 reloc List.mem_cons_self, hfirst hall.2⟩) ?_
        exact why.mono (fun hout => hout.append _) fun _ _ _ h => h
    · intro hnone
      cases hnone
  | case4 em reloc relocs hleft em₁ address ha em₂ =>
    rename_i em₃ relocs₃ fault₃ hrest ih
    cases h
    have hnames := targetAddress_sameNames em r reloc.target
    rw [ha] at hnames
    have hnames₂ : em.SameNames em₂ := ⟨hnames.target, hnames.module, hnames.symbols, hnames.host,
      hnames.functionAddress⟩
    cases targetAddress_answers (P := P) hw ha with
    | address hfirst hplace =>
      obtain ⟨hsucceeds, hnames₃, harena⟩ :=
        ih (fun e he => hplain e (List.mem_cons_of_mem _ he)) hrest
      have hsplit : em.arena.placeAll em.target
          ((reloc :: relocs).flatMap (·.target.variables em.module)) =
            em₂.arena.placeAll em₂.target (relocs.flatMap (·.target.variables em₂.module)) := by
        rw [hnames₂.target, hnames₂.module]
        exact Arena.placeAll_append hplace
      have hcan : em.CanPlace ((reloc :: relocs).flatMap (·.target.variables em.module)) ↔
          em₂.CanPlace (relocs.flatMap (·.target.variables em₂.module)) := by
        unfold CanPlace
        rw [hsplit]
      rw [hcan]
      refine ⟨hsucceeds.congr ?_ fun _ h => h.mono ?_ fun _ _ _ h => h, hnames₂.trans hnames₃, ?_⟩
      · rw [List.forall_mem_cons]
        simp only [hnames₂.locatable]
        exact and_congr_left' ⟨fun hall => ⟨hfirst, hall⟩, fun hall => hall.2⟩
      · rw [hnames₂.module]
        exact fun hout => hout.after hplace hnames₂.target
      · intro hnone
        rw [hsplit]
        exact harena hnone

end Emitter

end CodeEmission
