import CodeEmission.Proofs.Resolution.Tables
import CodeEmission.Proofs.Versions.Committed

/-! # Jump tables of resolved versions

Whatever has been done with an emitter, the tables of a resolved version hold what its function
describes: every entry leads to its block, and nothing else is stored into its slot.
-/

namespace CodeEmission.Emitter

variable {em : Emitter} {f : MachineFunction} {r : FunctionRecord} {id : FuncId}

theorem Carries.tablesFilled (h : em.Carries f) (hr : em.function? f.id = some r)
    (hres : r.resolved = true) : r.TablesFilled := by
  have hkeep : ∀ s s' : FunctionRecord, s.WellFormed → (s.resolved = true → s.TablesFilled) →
      s.Step s' → s'.resolved = true → s'.TablesFilled := by
    intro s s' hw hs hstep hres'
    cases hstep with
    | kept => exact hs hres'
    | withdrawn _ => cases hres'
    | executable => exact (hs hres').makeExecutable
    | addressed pending _ =>
      rw [pending] at hres'
      cases hres'
    | lost pending =>
      change s.resolved = true at hres'
      rw [pending] at hres'
      cases hres'
    | @patched s₁ relocations fault pending same patch =>
      have hshape := FunctionRecord.SameShape.addressed same
      have hnone : fault = none := Option.isNone_iff_eq_none.1 hres'
      subst hnone
      have hfilled := FunctionRecord.tablesFilled_of_patch (hw.of_shape hshape) patch
      exact ⟨hfilled.planned, hfilled.stored⟩
  obtain ⟨r', hr', hfilled⟩ := h.induction
    (P := fun r => r.resolved = true → r.TablesFilled) (fun _ _ _ _ _ => nofun) hkeep
  obtain rfl := Option.some.inj (hr.symm.trans hr')
  exact hfilled hres

theorem Carries.tables (h : em.Carries f) (hr : em.function? f.id = some r) {info : JumpTableInfo}
    (hinfo : f.jumpTables = some info) (htables : info.tables ≠ []) (hkind : info.kind ≠ .inline) :
    ∃ l, r.layout.jumpTables = some l ∧ l.kind = info.kind ∧
      l.tables = info.tables.map (·.targets) := by
  obtain ⟨d, hplaces, hlayout, _, _⟩ := h.places hr
  rw [hlayout]
  exact hplaces.described info hinfo htables hkind

/-- Every record in the table is a version of some function, and if it is resolved, its tables hold
the entries of that function, each in a slot of its own. -/
theorem jumpTables_filled (h : em.Reachable) (hr : em.function? id = some r)
    (hres : r.resolved = true) :
    (∃ f, f.id = id ∧ em.Carries f) ∧
      ∀ f, f.id = id → em.Carries f → ∀ info, f.jumpTables = some info → info.kind ≠ .inline →
        ∀ t table, info.tables[t]? = some table →
          ∃ offset, r.layout.jumpTableOffset t = .ok offset ∧
            r.jumpTableAddress t = .ok (r.block.addressAt offset) ∧
            ∀ i block, table.targets[i]? = some block →
              r.EntryLeads info.kind offset i block ∧
              ∀ u other, info.tables[u]? = some other →
                ∀ offset', r.layout.jumpTableOffset u = .ok offset' →
                  ∀ j < other.targets.length, (t, i) ≠ (u, j) →
                    offset + (i + 1) * Target.x86_64.jumpTableEntrySize info.kind ≤
                        offset' + j * Target.x86_64.jumpTableEntrySize info.kind ∨
                      offset' + (j + 1) * Target.x86_64.jumpTableEntrySize info.kind ≤
                        offset + i * Target.x86_64.jumpTableEntrySize info.kind := by
  refine ⟨h.carries hr, ?_⟩
  rintro f rfl hf info hinfo hkind t table ht
  have hw := h.sound.wellFormed f.id r hr
  have hfilled := hf.tablesFilled hr hres
  have hne : info.tables ≠ [] := List.ne_nil_of_mem (List.mem_of_getElem? ht)
  obtain ⟨l, hl, hlkind, hltables⟩ := hf.tables hr hinfo hne hkind
  have htable {u : Nat} {other : JumpTable} (hu : info.tables[u]? = some other) :
      l.tables[u]? = some other.targets := by
    rw [hltables, List.getElem?_map, hu]
    rfl
  have hget := htable ht
  refine ⟨_, hw.jumpTableOffset_eq hl hget, hw.jumpTableAddress_eq hl hget, ?_⟩
  intro i block hi
  rw [← hlkind]
  refine ⟨hfilled.entryLeads hw hl hget hi, ?_⟩
  intro u other hu offset' hoffset' j hj hapart
  have hget' := htable hu
  rw [hw.jumpTableOffset_eq hl hget'] at hoffset'
  obtain rfl := Except.ok.inj hoffset'
  have hlen : i < table.targets.length := (List.getElem?_eq_some_iff.1 hi).1
  rw [← (hw.tables l hl).entrySize]
  exact JumpTableLayout.entries_apart hget hlen hget' hj hapart

def dispatch : MachineFunction where
  id := ⟨2⟩
  name := "d"
  jumpTables := some
    { kind := .labelDifference32
      tables := [{ targets := [⟨1⟩, ⟨0⟩, ⟨1⟩] }, { targets := [] }, { targets := [⟨1⟩] }] }
  blocks := [{ number := ⟨0⟩, insts := [.leaJumpTable .rax 2] }, { number := ⟨1⟩, insts := [.ret] }]

theorem jumpTables_filled_dispatch :
    let em := (new .x86_64 {} {} {}).run [.emit dispatch, .resolve]
    ∃ r, em.function? ⟨2⟩ = some r ∧ r.resolved = true ∧ em.Carries dispatch ∧
      ∃ offset, r.layout.jumpTableOffset 2 = .ok offset ∧
        r.EntryLeads .labelDifference32 offset 0 ⟨1⟩ := by
  intro em
  have hnew : (new .x86_64 {} {} {}).Reachable := ⟨{}, {}, {}, .log, [], rfl⟩
  have hok : ((new .x86_64 {} {} {}).emitFunction dispatch).2 = .ok 0x1000000010 := by decide +kernel
  have hcarries : em.Carries dispatch :=
    ⟨new .x86_64 {} {} {}, [.resolve], _, hnew, hok, ⟨⟨by decide +kernel, nofun⟩, trivial⟩, rfl⟩
  have hfound : (em.function? ⟨2⟩).map (·.resolved) = some true := by decide +kernel
  obtain ⟨r, hr, hres⟩ := Option.map_eq_some_iff.1 hfound
  obtain ⟨offset, hoffset, _, hentries⟩ := (jumpTables_filled hcarries.reachable hr hres).2 dispatch
    rfl hcarries _ rfl (by decide) 2 { targets := [⟨1⟩] } rfl
  exact ⟨r, hr, hres, hcarries, offset, hoffset, (hentries 0 ⟨1⟩ rfl).1⟩

end CodeEmission.Emitter
