import CodeEmission.Proofs.Resolution.Success
import CodeEmission.Proofs.Versions.Tables

/-! # When a pass succeeds

The parts of every version are close to its code, so of all distances only those of calls can be too
large. Whether a pass succeeds is therefore known from what is in the tables before it.
-/

namespace CodeEmission

def Failure.cause : Failure → EmitError
  | .error e | .abort e => e

namespace Emitter

variable {em : Emitter} {f : MachineFunction} {r : FunctionRecord}

theorem cause_of_check {α : Type} {e : EmitError} {failure : Failure}
    (h : em.check (.error e : Except EmitError α) = .error failure) : failure.cause = e := by
  unfold check at h
  dsimp only at h
  split at h <;> cases h <;> rfl

theorem Carries.constantOffset_le (h : em.Carries f) (hr : em.function? f.id = some r)
    {i offset : Nat} (hi : r.layout.constantOffset i = .ok offset) : offset ≤ r.codeOffset := by
  obtain ⟨d, hplaces, hlayout, hcode, _⟩ := h.places hr
  unfold PoolLayout.constantOffset at hi
  split at hi
  · rename_i ho
    cases hi
    rw [hlayout] at ho
    have hlt : i < f.constantPool.length :=
      hplaces.slots.length_eq ▸ (List.getElem?_eq_some_iff.1 ho).1
    have hend := (hplaces.slots.slot (List.getElem?_eq_getElem hlt) ho).2.2
    have hpool := hplaces.pool_le
    omega
  · cases hi

theorem jumpTableOffset_le (hw : r.WellFormed) {i offset : Nat}
    (hi : r.layout.jumpTableOffset i = .ok offset) : offset ≤ r.block.size := by
  cases hl : r.layout.jumpTables with
  | none =>
    rw [PoolLayout.jumpTableOffset, hl] at hi
    cases hi
  | some l =>
    by_cases hlt : i < l.tables.length
    · have hget := List.getElem?_eq_getElem hlt
      have hcount := JumpTableLayout.slotsBefore_add_le_numEntries hget
      rw [hw.jumpTableOffset_eq hl hget] at hi
      cases hi
      exact (hw.slotOffset_eq hl (by omega)).2
    · simp only [PoolLayout.jumpTableOffset, hl, JumpTableLayout.tableOffset, if_neg hlt] at hi
      cases hi

theorem Carries.compact (h : em.Carries f) (hr : em.function? f.id = some r) : r.Compact := by
  have hw := h.reachable.sound.wellFormed f.id r hr
  have hcode := hw.codeEnd_lt
  have hsize := hw.size_le
  refine ⟨?_, ?_, ?_, ?_⟩
  · rintro e he hk
    obtain ⟨e', he', rfl⟩ := List.mem_map.1 he
    have hnear := h.near hr he' hk
    exact hnear
  · intro b offset hb
    have hle := hw.places b offset (FunctionRecord.blockOffset_eq_ok.1 hb)
    omega
  · intro i offset hi
    have hle := h.constantOffset_le hr hi
    simp only [FunctionRecord.codeEnd] at hcode
    omega
  · intro i offset hi
    have hle := jumpTableOffset_le hw hi
    simp only [Host.maxBlockSize] at hsize
    omega

def pendingRecords (em : Emitter) : List FunctionRecord :=
  em.functions.values.filter fun r => !r.resolved

/-- A pass succeeds exactly if every waiting function is resolvable and the arena has room for the
variables that they lead to, in the order in which a pass meets them. Of the errors about patched
fields it meets only that of a call that does not reach its function. -/
theorem resolveRelocations_succeeds_iff (h : em.Reachable) :
    ((∃ n, em.resolveRelocations.2 = .ok n) ↔
        (∀ id r, em.function? id = some r → r.resolved = false → em.Resolvable r) ∧
          em.CanPlace (em.pendingRecords.flatMap em.variablesOf)) ∧
      ∀ failure, em.resolveRelocations.2 = .error failure →
        failure.cause.MayOccur (em.PassEndsBeyond em.pendingRecords)
          (em.Outgrown (em.pendingRecords.flatMap em.variablesOf)) := by
  have hpending {r : FunctionRecord} (hr : r ∈ em.pendingRecords) :
      em.function? r.id = some r ∧ r.resolved = false := by
    obtain ⟨hmem, hres⟩ := List.mem_filter.1 hr
    exact ⟨h.sound.function?_of_mem hmem, by simpa using hres⟩
  have hmem {id : FuncId} {r : FunctionRecord} (hr : em.function? id = some r)
      (hres : r.resolved = false) : r ∈ em.pendingRecords :=
    List.mem_filter.2 ⟨IdMap.mem_values_of_get? hr, by simp [hres]⟩
  have hrs : ∀ r ∈ em.pendingRecords, em.function? r.id = some r ∧ r.WellFormed ∧ r.Compact := by
    intro r hr
    have hfound := (hpending hr).1
    obtain ⟨f, hid, hf⟩ := h.carries hfound
    rw [← hid] at hfound
    exact ⟨hid ▸ hfound, h.sound.wellFormed f.id r hfound, hf.compact hfound⟩
  rcases hpass : em.resolveEach em.pending with ⟨em', fault⟩
  have hsucceeds := resolveEach_succeedsIff h.target h.sound.nodup_pending hrs hpass
  unfold resolveRelocations
  simp only [hpass]
  cases hsucceeds with
  | success hall =>
    refine ⟨⟨fun _ => ⟨fun id r hr hres => hall.1 r (hmem hr hres), hall.2⟩, fun _ => ⟨_, rfl⟩⟩, nofun⟩
  | @failure e not why =>
    refine ⟨⟨?_, ?_⟩, ?_⟩
    · rintro ⟨n, hn⟩
      have hcheck : em'.check (.error e) = .ok n := hn
      cases check_eq_ok.1 hcheck
    · rintro ⟨hall, hplace⟩
      refine absurd ⟨?_, hplace⟩ not
      intro r hr
      obtain ⟨hfound, hres⟩ := hpending hr
      exact hall r.id r hfound hres
    · intro failure hfailure
      rw [cause_of_check hfailure]
      exact why

def loads : MachineFunction where
  id := ⟨4⟩
  name := "l"
  blocks := [{ number := ⟨0⟩, insts := [.loadIndirect .rax (.alias ⟨1⟩), .callSymbol "s", .ret] }]

theorem resolveRelocations_succeeds_iff_loads :
    let em := (new .x86_64 {} {} {}).run
      [.addGlobal { id := ⟨0⟩, name := "v", type := .i64 },
        .addAlias { id := ⟨1⟩, name := "w", aliasee := .variable ⟨0⟩ }, .defineSymbol "s" 4096,
        .emit .nopRet, .emit callLoop, .emit dispatch, .emit loads]
    em.Reachable ∧ em.resolveRelocations.2 = .ok 4 ∧
      (∃ r, em.function? ⟨4⟩ = some r ∧ r.resolved = false) ∧
      (∀ id r, em.function? id = some r → r.resolved = false → em.Resolvable r) ∧
      em.CanPlace (em.pendingRecords.flatMap em.variablesOf) := by
  intro em
  have hreach : em.Reachable := ⟨{}, {}, {}, .log, _, rfl⟩
  have hok : em.resolveRelocations.2 = .ok 4 := by decide +kernel
  have hwaiting : (em.function? ⟨4⟩).map (·.resolved) = some false := by decide +kernel
  obtain ⟨hresolvable, hplace⟩ := (resolveRelocations_succeeds_iff hreach).1.1 ⟨4, hok⟩
  exact ⟨hreach, hok, Option.map_eq_some_iff.1 hwaiting, hresolvable, hplace⟩

end Emitter

end CodeEmission
