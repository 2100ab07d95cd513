import CodeEmission.Proofs.Resolution.Progress
import CodeEmission.Proofs.Types.Saturation

/-! # Passes are incremental

Whether a pass gets through or ends at a function that cannot be resolved, what is resolved stays as it
is, what waits keeps its references, and the sink is shown what became resolved. Only a pass that is cut
off loses something: the references of the function at which that happens.
-/

namespace CodeEmission

/-- What an observer is to be shown of a function. -/
structure FunctionRecord.Shows (r : FunctionRecord) (c : EmittedCode) : Prop where
  name : c.name = r.name
  address : c.address = r.codeAddress
  code : c.code = r.code
  debugLocs : c.debugLocs = r.debugLocs

namespace Emitter

variable {em em' : Emitter} {r r' : FunctionRecord} {id : FuncId} {ids done rest : List FuncId}

theorem recordsAt_ids (h : ∀ id ∈ ids, ∃ r, em.function? id = some r ∧ r.id = id) :
    (em.recordsAt ids).map (·.id) = ids := by
  induction ids with
  | nil => rfl
  | cons id ids ih =>
    obtain ⟨r, hr, hid⟩ := h id List.mem_cons_self
    have hrest := ih fun id hid => h id (List.mem_cons_of_mem _ hid)
    unfold recordsAt at hrest ⊢
    rw [List.filterMap_cons_some hr, List.map_cons, hrest, hid]

/-- How far a pass got: it resolved the functions of `done`, as they are in the end, and the others
wait, all but the first of them as they were. -/
structure Advances (em : Emitter) (done : List FunctionRecord) (waiting : List FuncId)
    (em' : Emitter) : Prop where
  resolved : ∀ r ∈ done, em'.function? r.id = some r ∧ r.resolved = true
  unresolved : ∀ id ∈ waiting, ∃ r, em'.function? id = some r ∧ r.resolved = false
  later : ∀ id ∈ waiting.tail, em'.function? id = em.function? id
  before : ∀ id r, em.function? id = some r → r.resolved = true → em'.function? id = some r
  shape : ∀ id, waiting.head? ≠ some id →
    Option.Rel FunctionRecord.SameShape (em.function? id) (em'.function? id)
  stats : em'.stats = { em.stats with resolved := em.stats.resolved + done.length }
  shown : ∃ codes, List.Forall₂ FunctionRecord.Shows done codes ∧
    em'.shown = em.shown ++ codes.toArray ∧
      em'.sink = codes.foldl (fun sink c => (sink.receive c).1) em.sink

/-- A variable of this kind is stored here and takes more room than there are words. -/
def Unplaceable (em : Emitter) (v : GlobalVariable) : Prop :=
  v.isExternal = false ∧
    ¬(em.target.Placeable v.type ∧ ∀ init, v.init = some init → em.target.Placeable init.type)

/-- What a pass leaves of the function at which it ends, and what it returns. -/
inductive EndsAt (em : Emitter) (r : FunctionRecord) :
    EmitError → FunctionRecord → Except Failure Nat → Prop
  | failed {e : EmitError} {r' : FunctionRecord} {result : Except Failure Nat}
    (returned : ∀ step, e ≠ .crash step) (kept : r.SameShape r')
    (answer : result = .error (.error e) ∨ result = .error (.abort e)) : EndsAt em r e r' result
  | cutOff {s : FunctionRecord} (unplaceable : ∃ v ∈ em.variablesOf r, em.Unplaceable v)
    (lost : r.SameShape s) :
    EndsAt em r (.crash .sum) { s with relocations := [] } (.error (.abort (.crash .sum)))

theorem Passed.advances (h : em.Passed done rest em') (hs : em.Sound) (hs' : em'.Sound)
    (hp : em.pending = done ++ rest) :
    (em'.recordsAt done).map (·.id) = done ∧ em.Advances (em'.recordsAt done) rest em' := by
  have hids : (em'.recordsAt done).map (·.id) = done := by
    refine recordsAt_ids ?_
    intro id hid
    obtain ⟨_, r', _, hr', _⟩ := h.resolved id hid
    exact ⟨r', hr', hs'.ids id r' hr'⟩
  have hn := hs.nodup_pending
  rw [hp] at hn
  obtain ⟨_, hnrest, hdisjoint⟩ := List.nodup_append'.1 hn
  refine ⟨hids, ?_, ?_, ?_, ?_, fun id _ => h.shape id, ?_, em'.codesAt done, ?_, h.shown, h.sink⟩
  · intro s hs
    obtain ⟨id, hid, hfound⟩ := List.mem_filterMap.1 hs
    obtain ⟨_, r', _, hr', hres⟩ := h.resolved id hid
    obtain rfl := Option.some.inj (hr'.symm.trans hfound)
    rw [hs'.ids id r' hr']
    exact ⟨hr', hres.resolved⟩
  · intro id hid
    rw [← hs'.mem_pending, h.pending hs hs' hp]
    exact hid
  · intro id hid
    refine h.others id (fun hdone => List.disjoint_left.1 hdisjoint hdone (List.mem_of_mem_tail hid)) ?_
    intro hhead
    obtain ⟨later, rfl⟩ := List.head?_eq_some_iff.1 hhead
    exact (List.nodup_cons.1 hnrest).1 hid
  · intro id r hr hres
    have hnot : id ∉ done ++ rest := by
      rw [← hp, hs.mem_pending]
      rintro ⟨s, hs, hsres⟩
      obtain rfl := Option.some.inj (hr.symm.trans hs)
      rw [hres] at hsres
      cases hsres
    rw [List.mem_append, not_or] at hnot
    rw [h.others id hnot.1 fun hhead => hnot.2 (List.mem_of_head? hhead), hr]
  · have hlength := congrArg List.length hids
    rw [List.length_map] at hlength
    rw [h.stats, hlength]
  · refine List.forall₂_map_right_iff.2 (List.forall₂_same.2 fun r _ => ?_)
    exact ⟨rfl, rfl, rfl, rfl⟩

theorem Advances.afterFault {done : List FunctionRecord} {later : List FuncId}
    (h : em.Advances done (id :: later) em') (hn : (done.map (·.id) ++ id :: later).Nodup)
    (fault : Option EmitError) : em.Advances done (id :: later) (em'.afterFault id fault) := by
  obtain ⟨_, hnrest, hdisjoint⟩ := List.nodup_append'.1 hn
  have hkeeps {j : FuncId} (hne : id ≠ j) := em'.afterFault_function?_of_ne hne fault
  have hframe : (em'.afterFault id fault).stats = em'.stats ∧
      (em'.afterFault id fault).shown = em'.shown ∧ (em'.afterFault id fault).sink = em'.sink := by
    unfold Emitter.afterFault
    split <;> exact ⟨rfl, rfl, rfl⟩
  refine ⟨?_, ?_, ?_, ?_, ?_, hframe.1.trans h.stats, ?_⟩
  · intro r hr
    have hne : id ≠ r.id := by
      rintro rfl
      exact List.disjoint_left.1 hdisjoint (List.mem_map_of_mem (f := (·.id)) hr) List.mem_cons_self
    rw [hkeeps hne]
    exact h.resolved r hr
  · intro j hj
    obtain ⟨r, hr, hres⟩ := h.unresolved j hj
    rcases em'.afterFault_function? id fault j with heq | ⟨_, heq⟩
    · exact ⟨r, heq.trans hr, hres⟩
    · exact ⟨r.withoutLog, by rw [heq, hr]; rfl, hres⟩
  · intro j hj
    have hne : id ≠ j := by
      rintro rfl
      exact (List.nodup_cons.1 hnrest).1 hj
    rw [hkeeps hne]
    exact h.later j hj
  · intro j r hr hres
    have hfound := h.before j r hr hres
    have hne : id ≠ j := by
      rintro rfl
      obtain ⟨s, hs, hsres⟩ := h.unresolved id List.mem_cons_self
      obtain rfl := Option.some.inj (hs.symm.trans hfound)
      rw [hres] at hsres
      cases hsres
    rw [hkeeps hne, hfound]
  · intro j hj
    have hne : id ≠ j := by
      rintro rfl
      exact hj rfl
    rw [hkeeps hne]
    exact h.shape j hj
  · rw [hframe.2.1, hframe.2.2]
    exact h.shown

theorem resolveRelocations_of_success (h : em.resolveEach em.pending = (em', none)) :
    em.resolveRelocations = (em', .ok em.pending.length) := by
  simp only [resolveRelocations, h]

theorem resolveRelocations_of_fault {e : EmitError}
    (h : em.resolveEach em.pending = (em', some e)) :
    em.resolveRelocations = (em', em'.check (.error e)) := by
  simp only [resolveRelocations, h]

theorem Sound.passed_of_ok (h : em.Sound) {n : Nat} (hok : em.resolveRelocations.2 = .ok n) :
    em.Passed em.pending [] em.resolveRelocations.1 := by
  rcases he : em.resolveEach em.pending with ⟨em', fault⟩
  cases h.pass he with
  | through passed =>
    rw [resolveRelocations_of_success he]
    exact passed
  | ended =>
    simp only [resolveRelocations_of_fault he] at hok
    cases check_eq_ok.1 hok

theorem Outgrown.unplaceable {vs : List GlobalVariable} (h : em.Outgrown vs)
    (ht : em.target = .x86_64) : ∃ v ∈ vs, em.Unplaceable v := by
  obtain ⟨_, v, hv, internal, hsize⟩ := h
  have hfit : em.target.PointersFit := ht ▸ ⟨3, le_refl _, rfl⟩
  exact ⟨v, hv, internal, (Target.hasSlotSize_iff_placeable hfit v).not.1 (Bool.eq_false_iff.1 hsize)⟩

theorem endsAt_of_tryResolve {em₁ : Emitter} {e : EmitError} (hs : em.Sound)
    (found : em.function? id = some r) (fault : em.tryResolve r = (em₁, some e)) :
    ∃ r', (em₁.afterFault id (some e)).function? id = some r' ∧
      em.EndsAt r e r' (em₁.check (.error e)) := by
  obtain rfl := hs.ids id r found
  have hw := hs.wellFormed r.id r found
  obtain ⟨s, hr'⟩ := tryResolve_resolved hs.target hw found fault
  have hown : em₁.function? r.id = some s := by rw [hr'.found, if_pos rfl]
  by_cases hcrash : ∃ step, e = .crash step
  · obtain ⟨step, rfl⟩ := hcrash
    obtain ⟨rfl, hout⟩ := tryResolve_crash hs.target hw fault
    refine ⟨s.withoutLog, ?_, .cutOff (hout.unplaceable hs.target) hr'.shape⟩
    have hfound := IdMap.get?_modify em₁.functions r.id r.id FunctionRecord.withoutLog
    rw [if_pos rfl] at hfound
    exact hfound.trans (congrArg _ hown)
  · rw [not_exists] at hcrash
    have hkept : em₁.afterFault r.id (some e) = em₁ :=
      afterFault_of_ne (fun step heq => hcrash step (Option.some.inj heq)) em₁ r.id
    rw [hkept]
    refine ⟨s, hown, .failed hcrash hr'.shape ?_⟩
    unfold check
    dsimp only
    split
    · exact .inr rfl
    · exact .inl rfl

/-- A pass takes the waiting functions in ascending order, and either resolves all of them, so that
another one does nothing, or ends at one that cannot be resolved after those before it. -/
theorem resolveRelocations_incremental (h : em.Reachable) :
    em.pending.Pairwise (fun id id' => id.number < id'.number) ∧
      (∀ id, id ∈ em.pending ↔ ∃ r, em.function? id = some r ∧ r.resolved = false) ∧
      ∃ (done : List FunctionRecord) (waiting : List FuncId),
        em.pending = done.map (·.id) ++ waiting ∧
        em.Advances done waiting em.resolveRelocations.1 ∧
        (waiting = [] ∧ em.resolveRelocations.2 = .ok em.pending.length ∧
            em.resolveRelocations.1.resolveRelocations = (em.resolveRelocations.1, .ok 0) ∨
          ∃ id later em₁ r e r', waiting = id :: later ∧
            em.resolveEach (done.map (·.id)) = (em₁, none) ∧ em₁.function? id = some r ∧
            (em₁.resolveFunction r).2 = some e ∧
            em.resolveRelocations.1.function? id = some r' ∧
            em₁.EndsAt r e r' em.resolveRelocations.2) := by
  refine ⟨h.sound.pairwise_pending, fun _ => h.sound.mem_pending, ?_⟩
  rcases he : em.resolveEach em.pending with ⟨em', fault⟩
  cases h.sound.pass he with
  | through passed =>
    have hs' : em'.Sound := (h.sound.resolvePending he).1
    rw [resolveRelocations_of_success he]
    have hall : em.pending = em.pending ++ [] := (List.append_nil _).symm
    obtain ⟨hids, hadvances⟩ := passed.advances h.sound hs' hall
    refine ⟨_, [], ?_, hadvances, .inl ⟨rfl, rfl, ?_⟩⟩
    · rw [hids, List.append_nil]
    · have hnone : em'.pending = [] := passed.pending h.sound hs' hall
      have hpass : em'.resolveEach em'.pending = (em', none) := by
        rw [hnone]
        rfl
      rw [resolveRelocations_of_success hpass, hnone]
      rfl
  | @ended done later id em₁ em₂ r e split before sound₁ found fault passed sound₂ =>
    rw [resolveRelocations_of_fault he]
    obtain ⟨hids, hadvances⟩ := passed.advances h.sound sound₂ split
    have hsplit : em.pending = (em₂.recordsAt done).map (·.id) ++ id :: later := by rw [hids, split]
    have hn := h.sound.nodup_pending
    rw [hsplit] at hn
    obtain ⟨r', hr', hends⟩ := endsAt_of_tryResolve sound₁ found fault
    refine ⟨_, id :: later, hsplit, hadvances.afterFault hn (some e),
      .inr ⟨id, later, em₁, r, e, r', rfl, ?_, found, congrArg Prod.snd fault, hr', ?_⟩⟩
    · rw [hids, before]
    · have hconfig : (em₂.afterFault id (some e)).config = em₂.config := by
        unfold afterFault
        split <;> rfl
      simp only [check, stopsAt, hconfig] at hends ⊢
      exact hends

def astray : MachineFunction where
  id := ⟨2⟩
  name := "a"
  blocks := [{ number := ⟨0⟩, insts := [.jmp ⟨0⟩, .call ⟨9⟩] }]

theorem resolveRelocations_incremental_astray :
    let em := (new .x86_64 {} {} {}).run
      [.emit { MachineFunction.nopRet with id := ⟨3⟩ }, .emit astray, .emit callLoop, .emit .nopRet]
    em.Reachable ∧ em.pending = [⟨0⟩, ⟨1⟩, ⟨2⟩, ⟨3⟩] ∧
      em.resolveRelocations.2 = .error (.error (.functionNotEmitted ⟨9⟩)) ∧
      ∃ done : List FunctionRecord, done.map (·.id) = [⟨0⟩, ⟨1⟩] ∧
        em.Advances done [⟨2⟩, ⟨3⟩] em.resolveRelocations.1 := by
  intro em
  have hreach : em.Reachable := ⟨{}, {}, {}, .log, _, rfl⟩
  have hpending : em.pending = [⟨0⟩, ⟨1⟩, ⟨2⟩, ⟨3⟩] := by decide +kernel
  have hfault : em.resolveRelocations.2 = .error (.error (.functionNotEmitted ⟨9⟩)) := by
    decide +kernel
  have hstats : em.resolveRelocations.1.stats.resolved = em.stats.resolved + 2 := by decide +kernel
  obtain ⟨_, _, done, waiting, hsplit, hadvances, _⟩ := resolveRelocations_incremental hreach
  have hlength : (done.map (·.id)).length = 2 := by
    rw [hadvances.stats] at hstats
    rw [List.length_map]
    exact Nat.add_left_cancel hstats
  rw [hpending] at hsplit
  obtain ⟨hdone, hwaiting⟩ : done.map (·.id) = [⟨0⟩, ⟨1⟩] ∧ waiting = [⟨2⟩, ⟨3⟩] :=
    List.append_inj hsplit.symm hlength
  exact ⟨hreach, hpending, hfault, done, hdone, hwaiting ▸ hadvances⟩

def loadsFirst : MachineFunction where
  id := ⟨0⟩
  name := "f"
  blocks := [{ number := ⟨0⟩, insts := [.loadGlobal .rax (.variable ⟨0⟩)] }]

/-- A pass that is cut off at a variable without a size loses the log of the function. -/
theorem resolveRelocations_loses_log :
    let em := (new .x86_64 {} {} {}).run
      [.addGlobal { id := ⟨0⟩, name := "g", type := .struct [.array .i8 0xFFFFFFFFFFFFFFFF, .i8] },
        .emit loadsFirst]
    em.Reachable ∧ em.resolveRelocations.2 = .error (.abort (.crash .sum)) ∧
      (em.function? ⟨0⟩).map (·.relocations.length) = some 1 ∧
      (em.resolveRelocations.1.function? ⟨0⟩).map (·.relocations.length) = some 0 :=
  ⟨⟨{}, {}, {}, .log, _, rfl⟩, by decide +kernel, by decide +kernel, by decide +kernel⟩

end Emitter

end CodeEmission
