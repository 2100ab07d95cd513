import Mathlib.Data.List.Dedup
import CodeEmission.Proofs.Batch.Copies
import CodeEmission.Proofs.Resolution.Incremental
import CodeEmission.Proofs.Versions.Resolvable

/-! # Reports on batches

What is reported on a batch depends on the last version of each function, and on nothing that was
emitted before. The functions wait to be resolved in the order of their numbers, so the variables get
their places in the same order however the functions were emitted.
-/

namespace CodeEmission

open List (Forall₂)

theorem SymbolTable.find?_congr {host host' : Host} (s : SymbolTable)
    (h : host'.processSymbols = host.processSymbols) (name : String) :
    s.find? host' name = s.find? host name := by
  simp only [find?, lookup, Host.processSymbol?, h]

/-- What is reported on a record and what is reported on another copy of the function differ at most in
the address and in the fields that depend on where functions stand. -/
structure FunctionRecord.ReportedAlike (m : Module) (r : FunctionRecord) (f : FunctionReport) :
    Prop where
  id : f.id = r.report.id
  name : f.name = r.report.name
  size : f.size = r.report.size
  relocations : f.relocations = r.report.relocations
  blocks : f.blocks = r.report.blocks
  code : ∀ i, (∀ e ∈ r.relocations, e.Placed m →
    ¬(e.offset ≤ r.codeOffset + i ∧ r.codeOffset + i < e.fieldEnd)) → f.code[i]? = r.report.code[i]?

namespace Emitter

variable {em em' : Emitter} {r r' : FunctionRecord} {config : Config} {f : MachineFunction}

def HoldsVersion (em : Emitter) (config : Config) (f : MachineFunction) (r : FunctionRecord) : Prop :=
  em.function? r.id = some r ∧
    ∃ s : FunctionRecord, s.DraftOf config f ∧ s.WellFormed ∧ em.ResolvesTo s r

theorem SameData.reportedAlike (h : em.SameData em') (hr : em.HoldsVersion config f r)
    (hr' : em'.HoldsVersion config f r') : r.ReportedAlike em.module r'.report := by
  obtain ⟨_, s, hs, hw, hr⟩ := hr
  obtain ⟨_, s', hs', hw', hr'⟩ := hr'
  have hagrees := hs.agrees hs'
  have hcodeOffset : r'.codeOffset = r.codeOffset := by
    rw [hr'.shape.codeOffset, ← hagrees.codeOffset, hr.shape.codeOffset]
  have hsize : r'.size = r.size := by
    rw [hr'.shape.size, ← hagrees.size, hr.shape.size]
  have hlocations : r'.locations = r.locations := by
    rw [hr'.shape.locations, ← hagrees.locations, hr.shape.locations]
  have hrelocations : r'.relocations.map Relocation.bare = r.relocations.map Relocation.bare := by
    rw [hr'.shape.relocations, ← hagrees.relocations, hr.shape.relocations]
  refine ⟨?_, ?_, hsize, ?_, ?_, ?_⟩
  · exact hr'.shape.id.trans (hs'.id.trans (hs.id.symm.trans hr.shape.id.symm))
  · exact hr'.shape.name.trans (hagrees.name.symm.trans hr.shape.name.symm)
  · have hlength := congrArg List.length hrelocations
    rwa [List.length_map, List.length_map] at hlength
  · simp only [FunctionRecord.report, hlocations, hcodeOffset]
  · intro i hnot
    simp only [FunctionRecord.report, FunctionRecord.code, Block.getElem?_slice, hsize, hcodeOffset]
    split
    · rename_i hi
      have hend : r.codeOffset + i < s.codeEnd := by
        rw [← hr.shape.codeEnd]
        exact Nat.add_lt_add_left hi _
      have hstart : s.codeOffset ≤ r.codeOffset + i := by
        rw [hr.shape.codeOffset]
        exact Nat.le_add_right _ _
      rw [h.byteAt hagrees hw hw' hs.referable hr hr' hstart hend hnot]
    · rfl

end Emitter

namespace Batch

def address? (b : Batch) (name : String) : Option UInt64 := b.symbols.reverse.lookup name

/-- Batches that differ at most in what does not count. -/
structure SameContent (b b' : Batch) : Prop where
  module : b'.module = b.module
  addresses : ∀ name, b'.address? name = b.address? name
  versions : ∀ id, b'.lastVersion? id = b.lastVersion? id

/-- An emitter that has emitted a batch, and the same one after a pass through all functions. -/
structure Completes (b : Batch) (config : Config) (host : Host) (em final : Emitter) : Prop where
  emits : (b.emitter config host).Emits b.functions em
  passed : em.Passed em.pending [] final
  reachable : final.Reachable

variable {b b' : Batch} {config : Config} {host host' : Host} {report report' : BatchReport}
  {em em' final final' : Emitter}

theorem emitter_eq (b : Batch) (config : Config) (host : Host) : b.emitter config host =
    { Emitter.new .x86_64 b.module config host with
      symbols := SymbolTable.defineAll { searchProcess := config.searchProcessSymbols } b.symbols } :=
  Emitter.defineSymbols_eq _ b.symbols

theorem emitter_reachable (b : Batch) (config : Config) (host : Host) :
    (b.emitter config host).Reachable :=
  Emitter.Reachable.defineSymbols ⟨b.module, config, host, .log, [], rfl⟩ b.symbols

theorem emitter_function? (b : Batch) (config : Config) (host : Host) (id : FuncId) :
    (b.emitter config host).function? id = none := by
  rw [emitter_eq]
  rfl

/-- A report is only made when all functions are emitted and resolved. -/
theorem exists_completes (hok : (b.emit config host).2 = .ok report) :
    report = (b.emit config host).1.batchReport ∧
      ∃ em, b.Completes config host em (b.emit config host).1 := by
  unfold emit at hok ⊢
  rcases he : (b.emitter config host).emitAll b.functions with ⟨em, result⟩
  simp only [he] at hok ⊢
  cases result with
  | error e => cases hok
  | ok _ =>
    have hnew : ∀ id r, (b.emitter config host).function? id = some r → r.resolved = false := by
      intro id r hr
      rw [emitter_function?] at hr
      cases hr
    have hemits := Emitter.emits_emitAll (b.emitter_reachable config host) hnew he
    have hpassed (n : Nat) (hn : em.resolveRelocations.2 = .ok n) :=
      hemits.reachable.sound.passed_of_ok hn
    have hreach := hemits.reachable.perform .resolve
    simp only [Emitter.perform] at hreach
    rcases hp : em.resolveRelocations with ⟨final, result⟩
    simp only [hp] at hok hpassed hreach ⊢
    rcases result with (e | e) | n
    · cases hok
    · cases hok
    · cases hok
      exact ⟨rfl, em, hemits, hpassed n rfl, hreach⟩

namespace Completes

theorem version (h : b.Completes config host em final) (id : FuncId) :
    Option.Rel (fun f r => r.DraftOf config f) (b.lastVersion? id) (em.function? id) := by
  cases hlast : b.lastVersion? id with
  | none =>
    rw [h.emits.absent id hlast, emitter_function?]
    exact .none
  | some f =>
    obtain ⟨r, hr, hdraft⟩ := h.emits.version id f hlast
    rw [emitter_eq] at hdraft
    rw [hr]
    exact .some hdraft

theorem mem_pending (h : b.Completes config host em final) {id : FuncId} :
    id ∈ em.pending ↔ (b.lastVersion? id).isSome = true := by
  have hversion := h.version id
  rw [h.emits.reachable.sound.mem_pending]
  generalize b.lastVersion? id = last, em.function? id = found at hversion
  cases hversion with
  | none => simp
  | some hdraft => exact iff_of_true ⟨_, rfl, hdraft.unresolved⟩ rfl

theorem resolved (h : b.Completes config host em final) (id : FuncId) :
    Option.Rel (final.HoldsVersion config) (b.lastVersion? id) (final.function? id) := by
  have hversion := h.version id
  by_cases hid : id ∈ em.pending
  · obtain ⟨s, r, hs, hr, hres⟩ := h.passed.resolved id hid
    have hw := h.emits.reachable.sound.wellFormed id s hs
    have hfound : final.function? r.id = some r := by rw [h.reachable.sound.ids id r hr, hr]
    rw [hs] at hversion
    rw [hr]
    generalize b.lastVersion? id = last at hversion
    cases hversion with
    | some hdraft => exact .some ⟨hfound, s, hdraft, hw, hres⟩
  · rw [h.passed.function?_of_not_mem hid]
    rw [h.mem_pending] at hid
    generalize b.lastVersion? id = last, em.function? id = found at hversion hid
    cases hversion with
    | none => exact .none
    | some _ => exact absurd rfl hid

theorem resolved_eq (h : b.Completes config host em final) :
    final.stats.resolved = em.pending.length := by
  have hnone : em.stats.resolved = 0 := by
    rw [h.emits.surroundings.resolved, emitter_eq]
    rfl
  rw [h.passed.stats, hnone, Nat.zero_add]

/-- Every function waits once, however many versions of it there were. -/
theorem length_pending (h : b.Completes config host em final) :
    em.pending.length = (b.functions.map (·.id)).dedup.length := by
  refine List.Perm.length_eq ?_
  refine (List.perm_ext_iff_of_nodup h.emits.reachable.sound.nodup_pending (List.nodup_dedup _)).2 ?_
  intro id
  rw [h.mem_pending, List.mem_dedup]
  exact MachineFunction.isSome_lastOf

theorem module_eq (h : b.Completes config host em final) : em.module = b.module := by
  rw [h.emits.surroundings.module, emitter_eq]
  rfl

theorem placeAll (h : b.Completes config host em final) :
    Arena.placeAll {} .x86_64 (em.pending.flatMap em.variablesAt) = .ok final.arena := by
  have harena : em.arena = {} := by
    rw [h.emits.surroundings.arena, emitter_eq]
    rfl
  have hplaced := h.passed.placeAll
  rwa [harena, h.emits.reachable.target] at hplaced

theorem find?_symbols (h : b.Completes config host em final) (name : String) :
    final.symbols.find? final.host name = (b.address? name).or
      (SymbolTable.find? { searchProcess := config.searchProcessSymbols } host name) := by
  have hprocess : em.host.processSymbols = host.processSymbols := by
    rw [h.emits.surroundings.processSymbols, emitter_eq]
    rfl
  rw [h.passed.symbols, h.passed.host, SymbolTable.find?_congr _ hprocess,
    h.emits.surroundings.symbols, emitter_eq]
  exact SymbolTable.find?_defineAll _ b.symbols host name

section Two

variable (h : b.Completes config host em final) (h' : b'.Completes config host' em' final')
  (hsame : b.SameContent b')

include h h' hsame

theorem pending_eq : em'.pending = em.pending := by
  refine IdMap.eq_of_ascending Id.number h'.emits.reachable.sound.pairwise_pending
    h.emits.reachable.sound.pairwise_pending ?_
  intro id
  rw [h.mem_pending, h'.mem_pending, hsame.versions]

theorem variablesAt_eq : em'.variablesAt = em.variablesAt := by
  funext id
  have hversion' := h'.version id
  rw [hsame.versions] at hversion'
  have hmodule : em'.module = em.module := by rw [h.module_eq, h'.module_eq, hsame.module]
  refine Emitter.variablesAt_congr hmodule ?_ (rel_join (h.version id) hversion')
  rintro r r' ⟨f, hdraft, hdraft'⟩
  rw [(hdraft.agrees hdraft').relocations]

theorem arena_eq : final'.arena = final.arena := by
  have hplaced' := h'.placeAll
  rw [pending_eq h h' hsame, variablesAt_eq h h' hsame, h.placeAll] at hplaced'
  exact (Except.ok.inj hplaced').symm

theorem sameData (hprocess : host'.processSymbols = host.processSymbols) :
    final.SameData final' where
  module := by rw [h.passed.module, h.module_eq, h'.passed.module, h'.module_eq, hsame.module]
  slots := by rw [arena_eq h h' hsame]
  symbols name := by
    rw [h.find?_symbols, h'.find?_symbols, hsame.addresses, SymbolTable.find?_congr _ hprocess]

theorem reportedAlike (hprocess : host'.processSymbols = host.processSymbols) (id : FuncId) :
    Option.Rel (fun r r' => final.function? r.id = some r ∧ r.ReportedAlike b.module r'.report)
      (final.function? id) (final'.function? id) := by
  have hmodule : final.module = b.module := h.passed.module.trans h.module_eq
  have hresolved' := h'.resolved id
  rw [hsame.versions] at hresolved'
  have hcopies := rel_join (h.resolved id) hresolved'
  generalize final.function? id = found, final'.function? id = found' at hcopies
  cases hcopies with
  | none => exact .none
  | some hcopy =>
    obtain ⟨f, hr, hr'⟩ := hcopy
    rw [← hmodule]
    exact .some ⟨hr.1, (sameData h h' hsame hprocess).reportedAlike hr hr'⟩

end Two

end Completes

/-- If two batches differ at most in what does not count, then all that their reports may differ in are
addresses of functions, what depends on them, and how many versions were emitted. -/
theorem emit_lastVersions (hsame : b.SameContent b')
    (hprocess : host'.processSymbols = host.processSymbols)
    (hok : (b.emit config host).2 = .ok report) (hok' : (b'.emit config host').2 = .ok report') :
    (report.functions.map (·.id)).Pairwise (fun id id' => id.number < id'.number) ∧
      Forall₂ (fun f f' => ∃ r, (b.emit config host).1.function? f.id = some r ∧ f = r.report ∧
        r.ReportedAlike b.module f') report.functions report'.functions ∧
      report'.arenaBytes = report.arenaBytes ∧
      (b'.emit config host').1.arena = (b.emit config host).1.arena ∧
      report'.stats.resolved = report.stats.resolved ∧
      report.stats.resolved = (b.functions.map (·.id)).dedup.length := by
  obtain ⟨rfl, em, h⟩ := exists_completes hok
  obtain ⟨rfl, em', h'⟩ := exists_completes hok'
  have harena := h.arena_eq h' hsame
  have hsound := h.reachable.sound
  refine ⟨?_, ?_, congrArg Arena.size harena, harena, ?_, h.resolved_eq.trans h.length_pending⟩
  · have hids : (Emitter.batchReport (b.emit config host).1).functions.map (·.id) =
        (b.emit config host).1.functions.keys := by
      rw [← hsound.map_id_values]
      exact List.map_map
    rw [hids]
    exact List.pairwise_map.2 hsound.ascending
  · refine List.forall₂_map_left_iff.2 (List.forall₂_map_right_iff.2 ?_)
    refine (hsound.ascending.forall₂_values h'.reachable.sound.ascending
      (h.reportedAlike h' hsame hprocess)).imp ?_
    rintro r r' ⟨hr, halike⟩
    exact ⟨r, hr, rfl, halike⟩
  · have hlength := congrArg List.length (h.pending_eq h' hsame)
    exact h'.resolved_eq.trans (hlength.trans h.resolved_eq.symm)

def loading : Batch where
  module :=
    { globals := [{ id := ⟨0⟩, name := "v", type := .i64 }]
      aliases := [{ id := ⟨1⟩, name := "w", aliasee := .variable ⟨0⟩ }] }
  symbols := [("s", 4096)]
  functions := [.nopRet, Emitter.callLoop, Emitter.loads]

def reloading : Batch := { loading with
  functions :=
    [{ MachineFunction.nopRet with id := ⟨4⟩ }, Emitter.callLoop, Emitter.loads, .nopRet] }

theorem emit_lastVersions_loading :
    let host : Host := {}
    let host' : Host := { nextBlock := 0x2000000000 }
    ∃ report report', loading.SameContent reloading ∧ host'.processSymbols = host.processSymbols ∧
      (loading.emit {} host).2 = .ok report ∧ (reloading.emit {} host').2 = .ok report' ∧
      (report.functions.map (·.id)).Pairwise (fun id id' => id.number < id'.number) ∧
      Forall₂ (fun f f' => ∃ r, (loading.emit {} host).1.function? f.id = some r ∧ f = r.report ∧
        r.ReportedAlike loading.module f') report.functions report'.functions ∧
      report'.arenaBytes = report.arenaBytes ∧
      (reloading.emit {} host').1.arena = (loading.emit {} host).1.arena ∧
      report'.stats.resolved = report.stats.resolved ∧
      report.stats.resolved = (loading.functions.map (·.id)).dedup.length := by
  intro host host'
  have hlast : MachineFunction.lastOf reloading.functions =
      MachineFunction.lastOf loading.functions := by
    have hsuperseded : MachineFunction.lastOf reloading.functions =
        MachineFunction.lastOf [Emitter.callLoop, Emitter.loads, .nopRet] :=
      @MachineFunction.lastOf_superseded [] _ _ (by decide)
    have hperm : ([Emitter.callLoop, Emitter.loads] ++ [MachineFunction.nopRet]).Perm
        ([MachineFunction.nopRet] ++ [Emitter.callLoop, Emitter.loads]) := List.perm_append_comm
    exact hsuperseded.trans (MachineFunction.lastOf_perm hperm (by decide))
  have hsame : loading.SameContent reloading := ⟨rfl, fun _ => rfl, congrFun hlast⟩
  have hok : (loading.emit {} host).2.isOk = true := by decide +kernel
  have hok' : (reloading.emit {} host').2.isOk = true := by decide +kernel
  generalize hreport : (loading.emit {} host).2 = result at hok
  generalize hreport' : (reloading.emit {} host').2 = result' at hok'
  cases result with
  | error _ => cases hok
  | ok report =>
    cases result' with
    | error _ => cases hok'
    | ok report' =>
      exact ⟨report, report', hsame, rfl, rfl, rfl, emit_lastVersions hsame rfl hreport hreport'⟩

end Batch

end CodeEmission
