import CodeEmission.Proofs.Resolution.Addresses
import CodeEmission.Proofs.Resolution.Soundness

/-! # How far a pass gets

A pass patches one function after another and ends at the first one that it cannot patch. What it has
patched until then is final. Unless the pass is cut off, the function at which it ends keeps its log, so
nothing stands in the way of a later pass.
-/

namespace CodeEmission

theorem FunctionRecord.patch_shape {r r' : FunctionRecord} {t : Target} {fault : Option EmitError}
    (h : r.patch t = (r', fault)) : r.SameShape r' ∧ r'.resolved = r.resolved := by
  rcases patch_cases h with ⟨rfl, _⟩ | ⟨_, rfl, _⟩
  · exact ⟨.refl r', rfl⟩
  · exact ⟨(SameShape.refl r).storeAll _ r.resolved, rfl⟩

namespace Emitter

variable {em em' em'' : Emitter} {r r' r'' : FunctionRecord} {id : FuncId}
  {ids done done' rest rest' : List FuncId}

def ResolvesTo (em : Emitter) (r r' : FunctionRecord) : Prop :=
  ∃ es s, em.Addressed r r.relocations es ∧
    { r with relocations := es }.patch .x86_64 = (s, none) ∧ r' = { s with resolved := true }

namespace ResolvesTo

theorem keeps (h : em.ResolvesTo r r') (hk : em.KeepsAddresses em') : em'.ResolvesTo r r' := by
  obtain ⟨es, s, hes, hrest⟩ := h
  exact ⟨es, s, hes.keeps hk, hrest⟩

theorem unique (h : em.ResolvesTo r r') (h' : em.ResolvesTo r r'') : r'' = r' := by
  obtain ⟨es, s, hes, hs, rfl⟩ := h
  obtain ⟨es', s', hes', hs', rfl⟩ := h'
  obtain rfl := hes.unique hes'
  rw [hs] at hs'
  cases hs'
  rfl

theorem shape (h : em.ResolvesTo r r') : r.SameShape r' := by
  obtain ⟨es, s, hes, hs, rfl⟩ := h
  have hs' := (FunctionRecord.SameShape.addressed hes.bare).trans (FunctionRecord.patch_shape hs).1
  exact hs'.trans (.storeAll (.refl s) [] true)

theorem resolved (h : em.ResolvesTo r r') : r'.resolved = true := by
  obtain ⟨_, _, _, _, rfl⟩ := h
  rfl

theorem readdressed (h : em.ResolvesTo r r') {es : List Relocation}
    (hbare : es.map Relocation.bare = r.relocations.map Relocation.bare) :
    em.ResolvesTo { r with relocations := es } r' := by
  obtain ⟨es', s, hes', hrest⟩ := h
  exact ⟨es', s, (hes'.of_shape (.addressed hbare)).of_bare hbare, hrest⟩

end ResolvesTo

/-- What a pass that ends at a function leaves of it: some addresses in the log and, if all of them are
there, some of the bytes of a patch. -/
inductive Stopped (em : Emitter) (r : FunctionRecord) : FunctionRecord → Prop
  | unlocated {es : List Relocation}
    (bare : es.map Relocation.bare = r.relocations.map Relocation.bare) :
    Stopped em r { r with relocations := es }
  | unpatched {es : List Relocation} {r' : FunctionRecord} {e : EmitError}
    (located : em.Addressed r r.relocations es)
    (fault : { r with relocations := es }.patch .x86_64 = (r', some e)) : Stopped em r r'

namespace Stopped

theorem keeps (h : em.Stopped r r') (hk : em.KeepsAddresses em') : em'.Stopped r r' := by
  cases h with
  | unlocated bare => exact .unlocated bare
  | unpatched located fault => exact .unpatched (located.keeps hk) fault

theorem shape (h : em.Stopped r r') : r.SameShape r' := by
  cases h with
  | unlocated bare => exact .addressed bare
  | unpatched located fault =>
    exact (FunctionRecord.SameShape.addressed located.bare).trans (FunctionRecord.patch_shape fault).1

theorem resolved (h : em.Stopped r r') : r'.resolved = r.resolved := by
  cases h with
  | unlocated _ => rfl
  | unpatched _ fault => exact (FunctionRecord.patch_shape fault).2

/-- A function that a pass ended at is resolved later as if that pass had never been. -/
theorem resolvesTo (h : em.Stopped r r') (hk : em.KeepsAddresses em')
    (hr : em'.ResolvesTo r r'') : em'.ResolvesTo r' r'' := by
  cases h with
  | unlocated bare => exact hr.readdressed bare
  | unpatched located fault =>
    obtain ⟨es, s, hes, hs, _⟩ := hr
    obtain rfl := hes.unique (located.keeps hk)
    rw [hs] at fault
    cases fault

end Stopped

/-- The same names and settings, and nothing was asked of the host. -/
structure SameEnvironment (em em' : Emitter) : Prop extends SameNames em em' where
  config : em'.config = em.config
  detached : em'.detached = em.detached
  sizeEstimate : em'.sizeEstimate = em.sizeEstimate
  state : em'.state = em.state

theorem SameEnvironment.trans (h : em.SameEnvironment em') (h' : em'.SameEnvironment em'') :
    em.SameEnvironment em'' where
  toSameNames := h.toSameNames.trans h'.toSameNames
  config := h'.config.trans h.config
  detached := h'.detached.trans h.detached
  sizeEstimate := h'.sizeEstimate.trans h.sizeEstimate
  state := h'.state.trans h.state

theorem SameEnvironment.symm (h : em.SameEnvironment em') : em'.SameEnvironment em where
  toSameNames := h.toSameNames.symm
  config := h.config.symm
  detached := h.detached.symm
  sizeEstimate := h.sizeEstimate.symm
  state := h.state.symm

def variablesAt (em : Emitter) (id : FuncId) : List GlobalVariable :=
  (em.function? id).toList.flatMap em.variablesOf

theorem variablesAt_congr {R : FunctionRecord → FunctionRecord → Prop} (hm : em'.module = em.module)
    (hR : ∀ r r', R r r' →
      r'.relocations.map Relocation.bare = r.relocations.map Relocation.bare)
    (hr : Option.Rel R (em.function? id) (em'.function? id)) :
    em'.variablesAt id = em.variablesAt id := by
  have hbare (em : Emitter) (r : FunctionRecord) : em.variablesOf r =
      (r.relocations.map Relocation.bare).flatMap (·.target.variables em.module) := by
    rw [List.flatMap_map]
    rfl
  unfold variablesAt
  generalize em.function? id = found, em'.function? id = found' at hr
  cases hr with
  | none => rfl
  | some h => simp only [Option.toList_some, List.flatMap_singleton, hbare, hR _ _ h, hm]

def recordsAt (em : Emitter) (ids : List FuncId) : List FunctionRecord := ids.filterMap em.function?

def codesAt (em : Emitter) (ids : List FuncId) : List EmittedCode :=
  (em.recordsAt ids).map (·.emittedCode)

theorem recordsAt_congr (h : ∀ id ∈ ids, em'.function? id = em.function? id) :
    em'.recordsAt ids = em.recordsAt ids := List.filterMap_congr h

theorem codesAt_congr (h : ∀ id ∈ ids, em'.function? id = em.function? id) :
    em'.codesAt ids = em.codesAt ids := congrArg _ (recordsAt_congr h)

theorem codesAt_append (em : Emitter) (ids ids' : List FuncId) :
    em.codesAt (ids ++ ids') = em.codesAt ids ++ em.codesAt ids' := by
  simp only [codesAt, recordsAt, List.filterMap_append, List.map_append]

/-- What a pass does that resolves the functions of `done` and ends at the first of `rest`. -/
structure Passed (em : Emitter) (done rest : List FuncId) (em' : Emitter) : Prop
    extends SameEnvironment em em' where
  resolved : ∀ id ∈ done,
    ∃ r r', em.function? id = some r ∧ em'.function? id = some r' ∧ em'.ResolvesTo r r'
  stopped : ∀ id later, rest = id :: later →
    ∃ r r', em.function? id = some r ∧ em'.function? id = some r' ∧ em'.Stopped r r'
  others : ∀ id, id ∉ done → rest.head? ≠ some id → em'.function? id = em.function? id
  places : ∃ placed waiting, rest.flatMap em.variablesAt = placed ++ waiting ∧
    em.arena.placeAll em.target (done.flatMap em.variablesAt ++ placed) = .ok em'.arena
  stats : em'.stats = { em.stats with resolved := em.stats.resolved + done.length }
  shown : em'.shown = em.shown ++ (em'.codesAt done).toArray
  sink : em'.sink = (em'.codesAt done).foldl (fun sink c => (sink.receive c).1) em.sink

namespace Passed

theorem refl (em : Emitter) : em.Passed [] [] em where
  toSameNames := .refl em
  config := rfl
  detached := rfl
  sizeEstimate := rfl
  state := rfl
  resolved := by simp
  stopped := by simp
  others _ _ _ := rfl
  places := ⟨[], [], rfl, rfl⟩
  stats := rfl
  shown := by simp [codesAt, recordsAt]
  sink := rfl

/-- A pass through all functions leaves those alone that were not among them. -/
theorem function?_of_not_mem (h : em.Passed done [] em') (hid : id ∉ done) :
    em'.function? id = em.function? id :=
  h.others id hid (Option.some_ne_none id).symm

theorem keepsAddresses (h : em.Passed done rest em') : em.KeepsAddresses em' := by
  obtain ⟨placed, waiting, _, hplaced⟩ := h.places
  exact h.toSameNames.keepsAddresses (Arena.slots_of_placeAll hplaced).1

theorem placeAll (h : em.Passed ids [] em') :
    em.arena.placeAll em.target (ids.flatMap em.variablesAt) = .ok em'.arena := by
  obtain ⟨placed, waiting, hnil, hplaced⟩ := h.places
  obtain ⟨rfl, _⟩ := List.append_eq_nil_iff.1 hnil.symm
  rw [List.append_nil] at hplaced
  exact hplaced

theorem shape (h : em.Passed done rest em') (id : FuncId) :
    Option.Rel FunctionRecord.SameShape (em.function? id) (em'.function? id) := by
  have hfound {r r' : FunctionRecord} (hr : em.function? id = some r)
      (hr' : em'.function? id = some r') (hs : r.SameShape r') :
      Option.Rel FunctionRecord.SameShape (em.function? id) (em'.function? id) := by
    rw [hr, hr']
    exact .some hs
  by_cases hdone : id ∈ done
  · obtain ⟨r, r', hr, hr', hres⟩ := h.resolved id hdone
    exact hfound hr hr' hres.shape
  · by_cases hhead : rest.head? = some id
    · obtain ⟨later, hlater⟩ := List.head?_eq_some_iff.1 hhead
      obtain ⟨r, r', hr, hr', hstop⟩ := h.stopped id later hlater
      exact hfound hr hr' hstop.shape
    · rw [h.others id hdone hhead]
      cases em.function? id with
      | none => exact .none
      | some r => exact .some (.refl r)

theorem variablesAt (h : em.Passed done rest em') : em'.variablesAt = em.variablesAt := by
  funext id
  exact variablesAt_congr h.module (fun _ _ hs => hs.relocations) (h.shape id)

theorem append (h : em.Passed done [] em') (h' : em'.Passed done' rest em'')
    (hn : (done ++ (done' ++ rest)).Nodup) : em.Passed (done ++ done') rest em'' := by
  obtain ⟨_, hn', hdisjoint⟩ := List.nodup_append'.1 hn
  have hapart {id : FuncId} (hid : id ∈ done) : id ∉ done' ∧ rest.head? ≠ some id := by
    have hnot := List.disjoint_left.1 hdisjoint hid
    rw [List.mem_append, not_or] at hnot
    exact ⟨hnot.1, fun hhead => hnot.2 (List.mem_of_head? hhead)⟩
  have hstart {id : FuncId} (hid : id ∈ done' ++ rest) : em'.function? id = em.function? id :=
    h.function?_of_not_mem (List.disjoint_right.1 hdisjoint hid)
  have hstays : ∀ id ∈ done, em''.function? id = em'.function? id := by
    intro id hid
    exact h'.others id (hapart hid).1 (hapart hid).2
  have hcodes : em''.codesAt (done ++ done') = em'.codesAt done ++ em''.codesAt done' := by
    rw [codesAt_append, codesAt_congr hstays]
  refine ⟨h.toSameEnvironment.trans h'.toSameEnvironment, ?_, ?_, ?_, ?_, ?_, ?_, ?_⟩
  · intro id hid
    rcases List.mem_append.1 hid with hid | hid
    · obtain ⟨r, r', hr, hr', hres⟩ := h.resolved id hid
      exact ⟨r, r', hr, (hstays id hid).trans hr', hres.keeps h'.keepsAddresses⟩
    · obtain ⟨r, r', hr, hrest⟩ := h'.resolved id hid
      exact ⟨r, r', (hstart (List.mem_append_left _ hid)).symm.trans hr, hrest⟩
  · intro id later hlater
    obtain ⟨r, r', hr, hrest⟩ := h'.stopped id later hlater
    have hid : id ∈ done' ++ rest := by simp [hlater]
    exact ⟨r, r', (hstart hid).symm.trans hr, hrest⟩
  · intro id hid hhead
    rw [List.mem_append, not_or] at hid
    exact (h'.others id hid.2 hhead).trans (h.function?_of_not_mem hid.1)
  · obtain ⟨_, _, hnil, hplaced⟩ := h.places
    obtain ⟨placed, waiting, hsplit, hplaced'⟩ := h'.places
    obtain ⟨rfl, _⟩ := List.append_eq_nil_iff.1 hnil.symm
    rw [h.variablesAt] at hsplit hplaced'
    rw [h.target] at hplaced'
    rw [List.append_nil] at hplaced
    refine ⟨placed, waiting, hsplit, ?_⟩
    rw [List.flatMap_append, List.append_assoc, Arena.placeAll_append hplaced]
    exact hplaced'
  · rw [h'.stats, h.stats, List.length_append]
    simp only [Nat.add_assoc]
  · rw [h'.shown, h.shown, hcodes, ← List.append_toArray, Array.append_assoc]
  · rw [h'.sink, h.sink, hcodes, List.foldl_append]

end Passed

theorem variablesAt_of_found (hr : em.function? id = some r) :
    em.variablesAt id = em.variablesOf r := by
  simp [variablesAt, hr]

section One

variable (hr : em.function? r.id = some r)
  (hfound : ∀ id, em'.function? id = if r.id = id then some r' else em.function? id)
  (hsame : em.SameEnvironment em')

include hr hfound hsame

theorem Passed.of_stopped (hs : em'.Stopped r r') {placed waiting : List GlobalVariable}
    (hsplit : em.variablesOf r = placed ++ waiting)
    (hplaced : em.arena.placeAll em.target placed = .ok em'.arena) (hstats : em'.stats = em.stats)
    (hshown : em'.shown = em.shown) (hsink : em'.sink = em.sink) (later : List FuncId) :
    em.Passed [] (r.id :: later) em' where
  toSameEnvironment := hsame
  resolved := by simp
  stopped := by
    intro id rest heq
    cases heq
    exact ⟨r, r', hr, by rw [hfound, if_pos rfl], hs⟩
  others := by
    intro id _ hhead
    rw [hfound, if_neg]
    rintro rfl
    exact hhead rfl
  places := by
    refine ⟨placed, waiting ++ later.flatMap em.variablesAt, ?_, hplaced⟩
    rw [List.flatMap_cons, variablesAt_of_found hr, hsplit, List.append_assoc]
  stats := hstats
  shown := by simp [hshown, codesAt, recordsAt]
  sink := hsink

theorem Passed.of_resolved (hs : em'.ResolvesTo r r')
    (hplaced : em.arena.placeAll em.target (em.variablesOf r) = .ok em'.arena)
    (hstats : em'.stats = { em.stats with resolved := em.stats.resolved + 1 })
    (hshown : em'.shown = em.shown.push r'.emittedCode)
    (hsink : em'.sink = (em.sink.receive r'.emittedCode).1) : em.Passed [r.id] [] em' := by
  have hown : em'.function? r.id = some r' := by rw [hfound, if_pos rfl]
  have hcodes : em'.codesAt [r.id] = [r'.emittedCode] := by
    simp [codesAt, recordsAt, hown]
  refine ⟨hsame, ?_, nofun, ?_, ?_, hstats, ?_, ?_⟩
  · intro id hid
    obtain rfl := List.mem_singleton.1 hid
    exact ⟨r, r', hr, hown, hs⟩
  · intro id hid _
    rw [hfound, if_neg]
    rintro rfl
    exact hid (List.mem_singleton.2 rfl)
  · refine ⟨[], [], rfl, ?_⟩
    rw [List.append_nil, List.flatMap_singleton, variablesAt_of_found hr]
    exact hplaced
  · rw [hshown, hcodes]
    simp
  · rw [hsink, hcodes]
    rfl

end One

theorem tryResolve_passed (ht : em.target = .x86_64) (hw : r.WellFormed)
    (hr : em.function? r.id = some r) {fault : Option EmitError}
    (h : em.tryResolve r = (em', fault)) :
    (fault = none → em.Passed [r.id] [] em') ∧
      (fault ≠ none → ∀ later, em.Passed [] (r.id :: later) em') := by
  have hnames := tryResolve_sameNames ht hw hr h
  obtain ⟨arena, log, hem₁⟩ := resolveTargets_eq em r r.relocations
  rcases hres : em.resolveTargets r r.relocations with ⟨em₁, es, fault₁⟩
  rw [hres] at hem₁
  obtain rfl : em₁ = { em with arena, log } := hem₁
  obtain ⟨_, haddressed, placed, waiting, hsplit, hplaced, hall⟩ :=
    resolveTargets_addressed hw hw.leftToTarget hres
  have hfound {s : FunctionRecord} (hs : s.id = r.id) (id : FuncId) :
      (putRecord { em with arena, log } s).function? id =
        if r.id = id then some s else em.function? id := putRecord_found hr hs id
  have hkeeps {em'' : Emitter} (hn : em.SameNames em'') (ha : em''.arena = arena) :
      KeepsAddresses { em with arena, log } em'' := by
    refine SameNames.keepsAddresses ⟨hn.target, hn.module, hn.symbols, hn.host, hn.functionAddress⟩ ?_
    intro id o ho
    rwa [ha]
  unfold tryResolve at h
  rw [hres] at h
  cases fault₁ with
  | some err =>
    cases h
    refine ⟨fun hnone => absurd hnone (Option.some_ne_none err), fun _ later => ?_⟩
    exact .of_stopped hr (hfound (s := { r with relocations := es }) rfl) ⟨hnames, rfl, rfl, rfl, rfl⟩
      (.unlocated (resolveTargets_spec hres).1) hsplit hplaced rfl rfl rfl later
  | none =>
    dsimp only at h
    rcases hp : { r with relocations := es }.patch em.target with ⟨s, fault₂⟩
    rw [hp] at h
    rw [ht] at hp
    have hid : s.id = r.id := (FunctionRecord.patch_shape hp).1.id
    cases fault₂ with
    | some err =>
      cases h
      refine ⟨fun hnone => absurd hnone (Option.some_ne_none err), fun _ later => ?_⟩
      have hlocated := (haddressed rfl).keeps (hkeeps hnames rfl)
      exact .of_stopped hr (hfound hid) ⟨hnames, rfl, rfl, rfl, rfl⟩
        (.unpatched hlocated hp) hsplit hplaced rfl rfl rfl later
    | none =>
      cases h
      refine ⟨fun _ => ?_, fun hne => absurd rfl hne⟩
      have hlocated := (haddressed rfl).keeps (hkeeps hnames rfl)
      have hvariables : em.variablesOf r = placed := by
        rw [hall rfl, List.append_nil] at hsplit
        exact hsplit
      rw [← hvariables] at hplaced
      exact .of_resolved hr (hfound (s := { s with resolved := true }) hid)
        ⟨hnames, rfl, rfl, rfl, rfl⟩ ⟨es, s, hlocated, hp, rfl⟩ hplaced rfl rfl rfl

/-- How a pass over some functions can end: after the last one, or at one that cannot be resolved in
the state after those before it. -/
inductive PassEnds (em : Emitter) (ids : List FuncId) : Emitter → Option EmitError → Prop
  | through {em' : Emitter} (passed : em.Passed ids [] em') : PassEnds em ids em' none
  | ended {done later : List FuncId} {id : FuncId} {em₁ em₂ : Emitter} {r : FunctionRecord}
    {e : EmitError} (split : ids = done ++ id :: later) (before : em.resolveEach done = (em₁, none))
    (sound₁ : em₁.Sound) (found : em₁.function? id = some r)
    (fault : em₁.tryResolve r = (em₂, some e)) (passed : em.Passed done (id :: later) em₂)
    (sound₂ : em₂.Sound) : PassEnds em ids (em₂.afterFault id (some e)) (some e)

theorem resolveEach_passEnds (hs : em.Sound) (hn : ids.Nodup)
    (hids : ∀ id ∈ ids, ∃ r, em.function? id = some r ∧ r.resolved = false)
    {fault : Option EmitError} (h : em.resolveEach ids = (em', fault)) :
    em.PassEnds ids em' fault := by
  induction ids generalizing em with
  | nil =>
    cases h
    exact .through (.refl _)
  | cons id ids ih =>
    obtain ⟨r, hr, hres⟩ := hids id List.mem_cons_self
    obtain rfl : r.id = id := hs.ids id r hr
    have hsound := hs.tryResolve hr hres
    rcases hstep : em.tryResolve r with ⟨em₁, fault₁⟩
    obtain ⟨hgood, hbad⟩ := tryResolve_passed hs.target (hs.wellFormed _ r hr) hr hstep
    rw [hstep] at hsound
    rw [resolveEach] at h
    simp only [hr, resolveFunction, hstep] at h
    cases fault₁ with
    | some e =>
      cases h
      exact .ended rfl rfl hs hr hstep (hbad (Option.some_ne_none e) ids) hsound
    | none =>
      have hfirst := hgood rfl
      have hrest : ∀ id ∈ ids, ∃ s, em₁.function? id = some s ∧ s.resolved = false := by
        intro id hid
        have hne : id ∉ [r.id] := by
          rw [List.mem_singleton]
          rintro rfl
          exact (List.nodup_cons.1 hn).1 hid
        rw [hfirst.function?_of_not_mem hne]
        exact hids id (List.mem_cons_of_mem _ hid)
      cases ih hsound (List.nodup_cons.1 hn).2 hrest h with
      | through passed => exact .through (hfirst.append passed (by simpa using hn))
      | @ended done later id em₂ em₃ s e split before sound₁ found fault passed sound₂ =>
        subst split
        refine .ended rfl ?_ sound₁ found fault (hfirst.append passed hn) sound₂
        rw [List.singleton_append, resolveEach]
        simp only [hr, resolveFunction, hstep]
        exact before

theorem Reachable.defineSymbols (h : em.Reachable) (defs : List (String × UInt64)) :
    (em.defineSymbols defs).Reachable := by
  induction defs generalizing em with
  | nil => exact h
  | cons d defs ih => exact ih (h.perform (.defineSymbol d.1 d.2))

theorem Sound.pass (h : em.Sound) {fault : Option EmitError}
    (he : em.resolveEach em.pending = (em', fault)) : em.PassEnds em.pending em' fault :=
  resolveEach_passEnds h h.nodup_pending (fun _ => h.mem_pending.1) he

theorem Passed.pending (h : em.Passed done rest em') (hs : em.Sound) (hs' : em'.Sound)
    (hp : em.pending = done ++ rest) : em'.pending = rest := by
  have hn := hs.nodup_pending
  have horder := hs.pairwise_pending
  rw [hp] at hn horder
  obtain ⟨_, _, hdisjoint⟩ := List.nodup_append'.1 hn
  have hwaits {id : FuncId} (hid : id ∈ rest) : ∃ r, em.function? id = some r ∧ r.resolved = false :=
    hs.mem_pending.1 (hp ▸ List.mem_append_right _ hid)
  refine IdMap.eq_of_ascending Id.number hs'.pairwise_pending (List.pairwise_append.1 horder).2.1 ?_
  intro id
  rw [hs'.mem_pending]
  by_cases hdone : id ∈ done
  · obtain ⟨_, r', _, hr', hres⟩ := h.resolved id hdone
    refine iff_of_false ?_ (List.disjoint_left.1 hdisjoint hdone)
    rintro ⟨s, hs, hsres⟩
    obtain rfl := Option.some.inj (hr'.symm.trans hs)
    rw [hres.resolved] at hsres
    cases hsres
  · by_cases hhead : rest.head? = some id
    · obtain ⟨later, rfl⟩ := List.head?_eq_some_iff.1 hhead
      obtain ⟨r, r', hr, hr', hstop⟩ := h.stopped id later rfl
      obtain ⟨s, hs, hsres⟩ := hwaits List.mem_cons_self
      obtain rfl := Option.some.inj (hr.symm.trans hs)
      exact iff_of_true ⟨r', hr', hstop.resolved.trans hsres⟩ List.mem_cons_self
    · rw [h.others id hdone hhead, ← hs.mem_pending, hp, List.mem_append, or_iff_right hdone]

end Emitter

end CodeEmission
