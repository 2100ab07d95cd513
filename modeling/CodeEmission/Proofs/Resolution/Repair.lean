import CodeEmission.Proofs.Resolution.Incremental
import CodeEmission.Proofs.Versions.Resolvable

/-! # Repairing failed passes

A pass that failed because symbols were missing leaves no trace once they are defined: the passes after
it end in the state that a single pass ends in with all symbols there. Two facts carry this. A pass can
be taken up where another one ended, and what a pass through all functions leaves is determined by the
state before it.
-/

namespace CodeEmission

namespace Emitter

variable {em em' em'' final : Emitter} {r r' : FunctionRecord} {id : FuncId}
  {ids done rest : List FuncId} {defs : List (String × UInt64)} {ops : List Operation}

namespace Passed

theorem define (h : em.Passed done rest em')
    (hnew : ∀ d ∈ defs, em.symbols.find? em.host d.1 = none) :
    (em.defineSymbols defs).Passed done rest (em'.defineSymbols defs) := by
  have hkeeps : em'.KeepsAddresses (em'.defineSymbols defs) := by
    refine keepsAddresses_defineSymbols ?_
    rw [h.symbols, h.host]
    exact hnew
  have hsymbols : em'.symbols.defineAll defs = em.symbols.defineAll defs := by rw [h.symbols]
  rw [defineSymbols_eq] at hkeeps ⊢
  rw [defineSymbols_eq]
  refine ⟨⟨⟨h.target, h.module, hsymbols, h.host, h.functionAddress⟩, h.config, h.detached,
    h.sizeEstimate, h.state⟩, ?_, ?_, h.others, h.places, h.stats, h.shown, h.sink⟩
  · intro id hid
    obtain ⟨r, r', hr, hr', hres⟩ := h.resolved id hid
    exact ⟨r, r', hr, hr', hres.keeps hkeeps⟩
  · intro id later hlater
    obtain ⟨r, r', hr, hr', hstop⟩ := h.stopped id later hlater
    exact ⟨r, r', hr, hr', hstop.keeps hkeeps⟩

/-- A pass can also be thought to end before the functions that it was not to resolve. -/
theorem before (h : em.Passed done [] em') (hn : (done ++ rest).Nodup)
    (hrest : ∀ id ∈ rest, ∃ r, em.function? id = some r) : em.Passed done rest em' where
  toSameEnvironment := h.toSameEnvironment
  resolved := h.resolved
  stopped := by
    rintro id later rfl
    obtain ⟨r, hr⟩ := hrest id List.mem_cons_self
    have hdone : id ∉ done :=
      List.disjoint_right.1 (List.nodup_append'.1 hn).2.2 List.mem_cons_self
    exact ⟨r, r, hr, (h.function?_of_not_mem hdone).trans hr, .unlocated rfl⟩
  others := fun _ hid _ => h.function?_of_not_mem hid
  places := by
    obtain ⟨placed, waiting, hnil, hplaced⟩ := h.places
    obtain ⟨rfl, _⟩ := List.append_eq_nil_iff.1 hnil.symm
    exact ⟨[], _, rfl, hplaced⟩
  stats := h.stats
  shown := h.shown
  sink := h.sink

/-- The variables that an ended pass has not placed bring the arena to where a pass through all functions
leaves it. -/
theorem placeAll_rest (h : em.Passed (done ++ rest) [] final) (h' : em.Passed done rest em') :
    em'.arena.placeAll em'.target (rest.flatMap em'.variablesAt) = .ok final.arena := by
  obtain ⟨placed, waiting, hsplit, hplaced⟩ := h'.places
  have hall := h.placeAll
  rw [List.flatMap_append, hsplit, ← List.append_assoc, Arena.placeAll_append hplaced] at hall
  rw [h'.variablesAt, h'.target, hsplit, Arena.placeAll_again hplaced]
  · exact hall
  · intro v hv
    exact List.mem_append_right _ hv

theorem keepsAddresses_final (h : em.Passed (done ++ rest) [] final)
    (h' : em.Passed done rest em') : em'.KeepsAddresses final := by
  have hsame := h'.toSameEnvironment.symm.trans h.toSameEnvironment
  exact hsame.toSameNames.keepsAddresses (Arena.slots_of_placeAll (h.placeAll_rest h')).1

/-- Where a pass ended, another one can be taken up to where a pass through all functions leads. -/
theorem resume (h : em.Passed (done ++ rest) [] final) (h' : em.Passed done rest em')
    (hn : (done ++ rest).Nodup) : em'.Passed rest [] final := by
  have hkeeps := h.keepsAddresses_final h'
  obtain ⟨_, hnrest, hdisjoint⟩ := List.nodup_append'.1 hn
  -- what the first pass resolved stays as it is
  have hdone : ∀ id ∈ done, final.function? id = em'.function? id := by
    intro id hid
    obtain ⟨r, r', hr, hr', hres⟩ := h.resolved id (List.mem_append_left _ hid)
    obtain ⟨s, s', hs, hs', hres'⟩ := h'.resolved id hid
    obtain rfl := Option.some.inj (hr.symm.trans hs)
    rw [hr', hs', (hres'.keeps hkeeps).unique hres]
  have hcodes : final.codesAt (done ++ rest) = em'.codesAt done ++ final.codesAt rest := by
    rw [codesAt_append, codesAt_congr hdone]
  refine ⟨h'.toSameEnvironment.symm.trans h.toSameEnvironment, ?_, nofun, ?_, ?_, ?_, ?_, ?_⟩
  · intro id hid
    obtain ⟨r, r', hr, hr', hres⟩ := h.resolved id (List.mem_append_right _ hid)
    by_cases hhead : rest.head? = some id
    · obtain ⟨later, hlater⟩ := List.head?_eq_some_iff.1 hhead
      obtain ⟨s, s', hs, hs', hstop⟩ := h'.stopped id later hlater
      obtain rfl := Option.some.inj (hr.symm.trans hs)
      exact ⟨s', r', hs', hr', hstop.resolvesTo hkeeps hres⟩
    · rw [h'.others id (List.disjoint_right.1 hdisjoint hid) hhead]
      exact ⟨r, r', hr, hr', hres⟩
  · intro id hid _
    by_cases hmem : id ∈ done
    · exact hdone id hmem
    · have hall : id ∉ done ++ rest := by simp [hmem, hid]
      rw [h.function?_of_not_mem hall,
        h'.others id hmem fun hhead => hid (List.mem_of_head? hhead)]
  · refine ⟨[], [], rfl, ?_⟩
    rw [List.append_nil]
    exact h.placeAll_rest h'
  · rw [h.stats, h'.stats, List.length_append]
    simp only [Nat.add_assoc]
  · rw [h.shown, h'.shown, hcodes, ← List.append_toArray, Array.append_assoc]
  · rw [h.sink, h'.sink, hcodes, List.foldl_append]

end Passed

/-- A function can be resolved if there is a state with the same names that has the addresses for it and
the places of its variables. -/
theorem tryResolve_of_resolvesTo (ht : em.target = .x86_64) (hw : r.WellFormed)
    (hsame : em.SameNames final) {vs : List GlobalVariable}
    (hplaced : em.arena.placeAll em.target (em.variablesOf r ++ vs) = .ok final.arena)
    (h : final.ResolvesTo r r') : (em.tryResolve r).2 = none := by
  obtain ⟨es', s, hes', hs, _⟩ := h
  rcases hres : em.resolveTargets r r.relocations with ⟨em₁, es, fault⟩
  obtain ⟨hsucceeds, hnames, harena⟩ :=
    resolveTargets_succeedsIff (P := fun _ _ => True) hw hw.leftToTarget hres
  have hlocated : ∀ e ∈ r.relocations, em.Locatable r e.target := by
    intro e he
    obtain ⟨a, ha⟩ := hes'.located e he
    exact (hsame.locatable r e.target).1 (ha.locatable hw)
  obtain rfl := hsucceeds.iff.2 ⟨hlocated, Arena.exists_of_placeAll_append hplaced⟩
  have hkeeps : em₁.KeepsAddresses final := by
    have hrest := (Arena.placeAll_append (harena rfl)).symm.trans hplaced
    exact (hnames.symm.trans hsame).keepsAddresses (Arena.slots_of_placeAll hrest).1
  obtain ⟨_, haddressed, _⟩ := resolveTargets_addressed hw hw.leftToTarget hres
  obtain rfl := hes'.unique ((haddressed rfl).keeps hkeeps)
  unfold tryResolve
  rw [hres]
  dsimp only
  rw [hnames.target, ht, hs]

theorem Passed.succeeds (h : em.Passed ids [] final) (hs : em.Sound) (hn : ids.Nodup)
    (hids : ∀ id ∈ ids, ∃ r, em.function? id = some r ∧ r.resolved = false) :
    ∃ em', em.resolveEach ids = (em', none) ∧ em.Passed ids [] em' := by
  rcases he : em.resolveEach ids with ⟨em', fault⟩
  cases resolveEach_passEnds hs hn hids he with
  | through passed => exact ⟨em', rfl, passed⟩
  | @ended done later id em₁ em₂ s e split hbefore sound₁ found hfault =>
    subst split
    cases resolveEach_passEnds hs (List.nodup_append'.1 hn).1
      (fun id hid => hids id (List.mem_append_left _ hid)) hbefore with
    | through passed =>
      have hrest : em₁.Passed (id :: later) [] final := by
        refine h.resume (passed.before hn ?_) hn
        intro id hid
        obtain ⟨r, hr, _⟩ := hids id (List.mem_append_right _ hid)
        exact ⟨r, hr⟩
      obtain ⟨r, r', hr, hr', hres⟩ := hrest.resolved id List.mem_cons_self
      obtain rfl := Option.some.inj (hr.symm.trans found)
      have hplaced := hrest.placeAll
      rw [List.flatMap_cons, variablesAt_of_found hr] at hplaced
      have hnone := tryResolve_of_resolvesTo sound₁.target (sound₁.wellFormed id r hr)
        hrest.toSameNames hplaced hres
      rw [hfault] at hnone
      cases hnone

/-- What a pass through all functions leaves is determined by the state before it, up to what is
reported. -/
theorem Passed.unique (h : em.Passed ids [] em') (h' : em.Passed ids [] final)
    (ha : em'.functions.Ascending) (ha' : final.functions.Ascending) :
    em' = { final with log := em'.log } := by
  have hsame := h.toSameEnvironment.symm.trans h'.toSameEnvironment
  have harena : em'.arena = final.arena := Except.ok.inj (h.placeAll.symm.trans h'.placeAll)
  have hkeeps : em'.KeepsAddresses final := hsame.toSameNames.keepsAddresses fun id o ho => by
    rwa [← harena]
  have hfound (id : FuncId) : em'.function? id = final.function? id := by
    by_cases hid : id ∈ ids
    · obtain ⟨r, s, hr, hs, hres⟩ := h.resolved id hid
      obtain ⟨r', s', hr', hs', hres'⟩ := h'.resolved id hid
      obtain rfl := Option.some.inj (hr.symm.trans hr')
      rw [hs, hs', (hres.keeps hkeeps).unique hres']
    · rw [h.function?_of_not_mem hid, h'.function?_of_not_mem hid]
  have hfunctions : em'.functions = final.functions := ha.ext ha' hfound
  have hcodes : em'.codesAt ids = final.codesAt ids := codesAt_congr fun id _ => hfound id
  have hstats := h.stats.trans h'.stats.symm
  have hshown : em'.shown = final.shown := by rw [h.shown, h'.shown, hcodes]
  have hsink : em'.sink = final.sink := by rw [h.sink, h'.sink, hcodes]
  have htarget := hsame.target
  have hmodule := hsame.module
  have hconfig := hsame.config
  have hsymbols := hsame.symbols
  have hdetached := hsame.detached
  have hestimate := hsame.sizeEstimate
  have hstate := hsame.state
  have hhost := hsame.host
  cases em'
  cases final
  simp_all

/-- Definitions in their order, with passes anywhere before, between and after them. -/
inductive Interleaves : List (String × UInt64) → List Operation → Prop
  | done : Interleaves [] []
  | define {name : String} {address : UInt64} {defs : List (String × UInt64)}
    {ops : List Operation} (rest : Interleaves defs ops) :
    Interleaves ((name, address) :: defs) (.defineSymbol name address :: ops)
  | resolve {defs : List (String × UInt64)} {ops : List Operation} (rest : Interleaves defs ops) :
    Interleaves defs (.resolve :: ops)

/-- Where a pass with all symbols gets through, one without some of them is not cut off: all variables
can be placed. -/
theorem Sound.progress (h : em.Sound) (hnew : ∀ d ∈ defs, em.symbols.find? em.host d.1 = none)
    (hp : (em.defineSymbols defs).Passed em.pending [] final) :
    ∃ done rest, em.pending = done ++ rest ∧ em.Passed done rest em.resolveRelocations.1 := by
  rcases he : em.resolveEach em.pending with ⟨em', fault⟩
  rw [resolveRelocations_fst, he]
  cases h.pass he with
  | through passed => exact ⟨em.pending, [], (List.append_nil _).symm, passed⟩
  | @ended done later id em₁ em₂ r e split hbefore sound₁ found hfault passed =>
    have hn := h.nodup_pending
    have hids : ∀ j ∈ done ++ id :: later, ∃ r, em.function? j = some r ∧ r.resolved = false :=
      fun _ hid => h.mem_pending.1 (split ▸ hid)
    rw [split] at hn hp
    have hreturned : ∀ step, some e ≠ some (.crash step) := by
      rintro step ⟨⟩
      cases resolveEach_passEnds h (List.nodup_append'.1 hn).1
        (fun id hid => hids id (List.mem_append_left _ hid)) hbefore with
      | through hfirst =>
        have hearlier : em.Passed done (id :: later) em₁ := by
          refine hfirst.before hn ?_
          intro j hj
          obtain ⟨r, hr, _⟩ := hids j (List.mem_append_right _ hj)
          exact ⟨r, hr⟩
        have hplaced := (hp.resume (hearlier.define hnew) hn).placeAll
        rw [defineSymbols_eq, List.flatMap_cons] at hplaced
        have hvariables : em₁.variablesAt id = em₁.variablesOf r := variablesAt_of_found found
        obtain rfl := sound₁.ids id r found
        have hcrash := tryResolve_crash sound₁.target (sound₁.wellFormed r.id r found) hfault
        refine hcrash.2.1 ?_
        rw [← hvariables]
        exact Arena.exists_of_placeAll_append hplaced
    rw [afterFault_of_ne hreturned]
    exact ⟨done, id :: later, split, passed⟩

/-- Passes between definitions do not change where a pass after all of them leads. -/
theorem Interleaves.passed (hi : Interleaves defs ops) (h : em.Reachable)
    (hn : (defs.map (·.1)).Nodup) (hnew : ∀ d ∈ defs, em.symbols.find? em.host d.1 = none)
    (hp : (em.defineSymbols defs).Passed em.pending [] final) :
    (em.run ops).Reachable ∧ (em.run ops).Passed (em.run ops).pending [] final := by
  induction hi generalizing em with
  | done => exact ⟨h, hp⟩
  | @define name address defs ops _ ih =>
    obtain ⟨hname, hrest⟩ := List.nodup_cons.1 hn
    refine ih (h.perform (.defineSymbol name address)) hrest ?_ hp
    intro d hd
    have hne : d.1 ≠ name := by
      rintro rfl
      exact hname (List.mem_map_of_mem (f := (·.1)) hd)
    refine (SymbolTable.find?_define em.symbols em.host name d.1 address).trans ?_
    rw [if_neg hne]
    exact hnew d (List.mem_cons_of_mem _ hd)
  | @resolve defs ops _ ih =>
    obtain ⟨done, rest, hsplit, hpass⟩ := h.sound.progress hnew hp
    have hnodup := h.sound.nodup_pending
    have hreach := h.perform .resolve
    have hpending : em.resolveRelocations.1.pending = rest :=
      hpass.pending h.sound hreach.sound hsplit
    rw [hsplit] at hp hnodup
    refine ih hreach hn ?_ ?_
    · intro d hd
      have hsymbols : em.resolveRelocations.1.symbols = em.symbols := hpass.symbols
      have hhost : em.resolveRelocations.1.host = em.host := hpass.host
      change em.resolveRelocations.1.symbols.find? em.resolveRelocations.1.host d.1 = none
      rw [hsymbols, hhost]
      exact hnew d hd
    · change (em.resolveRelocations.1.defineSymbols defs).Passed em.resolveRelocations.1.pending [] final
      rw [hpending]
      exact hp.resume (hpass.define hnew) hnodup

/-- If a pass succeeds once some symbols are defined that were not there before, then passes between
the definitions leave no trace: a pass after them succeeds too and ends in the same state, up to what is
reported. -/
theorem resolveRelocations_repaired (h : em.Reachable) (hn : (defs.map (·.1)).Nodup)
    (hnew : ∀ d ∈ defs, em.symbols.find? em.host d.1 = none) {n : Nat}
    (hok : (em.defineSymbols defs).resolveRelocations.2 = .ok n) (hi : Interleaves defs ops) :
    (∃ m, (em.run ops).resolveRelocations.2 = .ok m) ∧
      (em.run ops).resolveRelocations.1 = { (em.defineSymbols defs).resolveRelocations.1 with
        log := (em.run ops).resolveRelocations.1.log } := by
  have hdefined := h.defineSymbols defs
  have hpending : (em.defineSymbols defs).pending = em.pending := by
    rw [defineSymbols_eq]
    rfl
  have passed := hdefined.sound.passed_of_ok hok
  rw [hpending] at passed
  obtain ⟨hreach, hpassed⟩ := hi.passed h hn hnew passed
  obtain ⟨em', hem', hpassed'⟩ :=
    hpassed.succeeds hreach.sound hreach.sound.nodup_pending fun _ => hreach.sound.mem_pending.1
  have hascending := (hreach.perform .resolve).ascending
  simp only [perform, resolveRelocations_of_success hem'] at hascending
  rw [resolveRelocations_of_success hem']
  exact ⟨⟨_, rfl⟩, hpassed'.unique hpassed hascending (hdefined.perform .resolve).ascending⟩

theorem resolveRelocations_repaired_loads :
    let em := (new .x86_64 {} {} {}).run
      [.addGlobal { id := ⟨0⟩, name := "v", type := .i64 },
        .addAlias { id := ⟨1⟩, name := "w", aliasee := .variable ⟨0⟩ }, .emit .nopRet,
        .emit callLoop, .emit loads]
    let defs : List (String × UInt64) := [("s", 4096)]
    let ops : List Operation := [.resolve, .defineSymbol "s" 4096]
    em.resolveRelocations.2 = .error (.error (.unresolvedSymbol "s")) ∧
      (defs.map (·.1)).Nodup ∧ (∀ d ∈ defs, em.symbols.find? em.host d.1 = none) ∧
      (em.defineSymbols defs).resolveRelocations.2 = .ok 3 ∧ Interleaves defs ops ∧
      (∃ m, (em.run ops).resolveRelocations.2 = .ok m) ∧
      (em.run ops).resolveRelocations.1 = { (em.defineSymbols defs).resolveRelocations.1 with
        log := (em.run ops).resolveRelocations.1.log } := by
  intro em defs ops
  have hreach : em.Reachable := ⟨{}, {}, {}, .log, _, rfl⟩
  have hfault : em.resolveRelocations.2 = .error (.error (.unresolvedSymbol "s")) := by
    decide +kernel
  have hnew : ∀ d ∈ defs, em.symbols.find? em.host d.1 = none := by decide +kernel
  have hok : (em.defineSymbols defs).resolveRelocations.2 = .ok 3 := by decide +kernel
  have hi : Interleaves defs ops := .resolve (.define .done)
  exact ⟨hfault, by decide, hnew, hok, hi, resolveRelocations_repaired hreach (by decide) hnew hok hi⟩

end Emitter

end CodeEmission
