import CodeEmission.Proofs.Versions.Committed

/-! # Constant pools of versions

The pool of a version stands at the start of its buffer, entry after entry, and holds the constants
of its function from the commitment on, whatever else is patched later.
-/

namespace CodeEmission

namespace FunctionRecord

structure HoldsConstant (r : FunctionRecord) (e : PoolEntry) (offset : Nat) : Prop where
  aligned : e.alignment ∣ offset
  in_front : r.InFront offset (Target.x86_64.allocSize e.type)
  written : ∃ c, e.value = .constant c ∧
    (c.plan .x86_64 (Target.x86_64.allocSize e.type)).fault = none ∧
      r.block.slice offset (Target.x86_64.allocSize e.type) =
        (c.plan .x86_64 (Target.x86_64.allocSize e.type)).apply
          (Array.replicate (Target.x86_64.allocSize e.type) 0)

/-- A constant pool at the start of the buffer, before the slots of the jump tables. -/
structure HoldsPool (r : FunctionRecord) (pool : List PoolEntry) : Prop where
  count : r.layout.constants.length = pool.length
  constant : ∀ (i : Nat) e o, pool[i]? = some e → r.layout.constants[i]? = some o → r.HoldsConstant e o
  first : ∀ o, r.layout.constants[0]? = some o → o = 0
  ordered : ∀ (i : Nat) e o, pool[i]? = some e → r.layout.constants[i]? = some o →
    ∀ (j : Nat) o', i < j → r.layout.constants[j]? = some o' → o + Target.x86_64.allocSize e.type ≤ o'
  last : ∀ (i : Nat) e o, pool[i]? = some e → r.layout.constants[i]? = some o → i + 1 = pool.length →
    o + Target.x86_64.allocSize e.type = (ConstantPool.size .x86_64 pool).1
  tables_le : ∀ l, r.layout.jumpTables = some l →
    l.base + l.numEntries * l.entrySize ≤ r.codeOffset

end FunctionRecord

namespace Emitter

variable {em : Emitter} {f : MachineFunction} {r : FunctionRecord}

/-- The alignments that decide where the parts of a function are, each of them zero or a power of
two. -/
structure AskedAlignments (config : Config) (f : MachineFunction) : Prop where
  entries : ∀ e ∈ f.constantPool, Word.IsAlignment e.align.toNat
  function : Word.IsAlignment f.alignment.toNat
  leastFunction : Word.IsAlignment config.minFunctionAlignment.toNat

theorem alignment_dvd_alignTo {e : PoolEntry} (h : Word.IsAlignment e.align.toNat) {free : Nat}
    (hfree : free ≤ Host.maxBlockSize) : e.alignment ∣ Word.alignTo free e.alignment := by
  have hlt := e.align.toNat_lt
  obtain ⟨k, hk⟩ := (h.max (b := 1) (.inr ⟨0, rfl⟩)).exists_pow (by omega)
  have hk' : e.alignment = 2 ^ k := hk
  have hlt' : 2 ^ k < 2 ^ 64 := by omega
  have hexp : k < 64 := (Nat.pow_lt_pow_iff_right (by decide : 1 < 2)).1 hlt'
  have hle : 2 ^ k ≤ 2 ^ 63 := Nat.pow_le_pow_right (by decide) (by omega)
  simp only [Host.maxBlockSize] at hfree
  rw [hk']
  refine Word.dvd_alignTo ?_
  simp only [Word.modulus]
  omega

theorem first_eq_zero {pool : List PoolEntry} {os : List Nat} {last o : Nat}
    (h : ConstantPool.Slots .x86_64 0 pool os last) (ho : os[0]? = some o) : o = 0 := by
  cases h with
  | nil => cases ho
  | @cons _ _ e _ _ _ _ =>
    cases ho
    have halign := e.align.toNat_lt
    refine Word.alignTo_of_zero ?_
    rw [PoolEntry.alignment]
    exact max_le halign.le (by decide)

theorem holdsConstant_of_places {d : Draft} {config : Config} (hw : r.WellFormed)
    (hd : d.Places config f) (hlayout : r.layout = d.layout) (hcode : r.codeOffset = d.codeOffset)
    (hbytes : ∀ offset n, r.InFront offset n →
      r.block.slice offset n = d.buffer.block.slice offset n)
    (ha : AskedAlignments config f) {i o : Nat} {e : PoolEntry} (he : f.constantPool[i]? = some e)
    (ho : d.layout.constants[i]? = some o) : r.HoldsConstant e o := by
  obtain ⟨_, ⟨free, hfree, hround⟩, hend⟩ := hd.slots.slot he ho
  have hmem : e ∈ f.constantPool := List.mem_of_getElem? he
  have hsize : f.poolSize ≤ Host.maxBlockSize := by
    have hle := hd.pool_le
    have hcodeEnd := hw.codeEnd_le
    have hblock := hw.size_le
    simp only [FunctionRecord.codeEnd] at hcodeEnd
    omega
  have hfront : r.InFront o (Target.x86_64.allocSize e.type) := by
    refine ⟨hcode ▸ hend.trans hd.pool_le, ?_⟩
    rw [hlayout]
    exact fun l hl => hend.trans (hd.tables l hl).1
  refine ⟨?_, hfront, ?_⟩
  · rw [hround]
    exact alignment_dvd_alignTo (ha.entries e hmem) (hfree.trans hsize)
  · obtain ⟨c, hc⟩ := PoolEntry.exists_constant (hd.constants e hmem)
    have hzero : ∀ k, 0 ≤ k → k < f.poolSize →
        (Array.replicate f.poolSize (0 : UInt8))[k]? = some 0 := by
      intro k _ hk
      rw [Array.getElem?_replicate, if_pos hk]
    obtain ⟨hfault, hslot⟩ := ConstantPool.getElem?_planFrom_slot hd.slots (le_refl _)
      hd.constants hd.planned Array.size_replicate hzero he ho hc
    refine ⟨c, hc, hfault, ?_⟩
    rw [hbytes _ _ hfront]
    let written := (c.plan .x86_64 (Target.x86_64.allocSize e.type)).apply
      (Array.replicate (Target.x86_64.allocSize e.type) 0)
    have hlen : written.size = Target.x86_64.allocSize e.type := by
      rw [Plan.size_apply, Array.size_replicate]
    have hread : ∀ k < written.size, d.buffer.block.contents[o + k]? = written[k]? := by
      intro k hk
      rw [hlen] at hk
      exact (hd.written _ (by omega)).trans (hslot k hk)
    have hslice := Block.slice_eq_of_getElem? hread
    rwa [hlen] at hslice

/-- The constant pool of a version is laid out in full and is never written to again: from its
commitment on every slot holds its constant over zeros. -/
theorem constantPool_holds (h : em.Carries f) (ha : AskedAlignments em.config f) :
    ∃ r, em.function? f.id = some r ∧ r.HoldsPool f.constantPool := by
  obtain ⟨r, hr⟩ := h.exists_record
  obtain ⟨d, hd, hlayout, hcode, hbytes⟩ := h.places hr
  have hw := h.reachable.sound.wellFormed f.id r hr
  refine ⟨r, hr, ?_, ?_, ?_, ?_, ?_, ?_⟩
  · rw [hlayout]
    exact hd.slots.length_eq
  · intro i e o he ho
    rw [hlayout] at ho
    exact holdsConstant_of_places hw hd hlayout hcode hbytes ha he ho
  · intro o ho
    rw [hlayout] at ho
    exact first_eq_zero hd.slots ho
  · intro i e o he ho j o' hij ho'
    rw [hlayout] at ho ho'
    exact hd.slots.slot_le_slot he ho hij ho'
  · intro i e o he ho hi
    rw [hlayout] at ho
    exact hd.slots.end_eq_last he ho hi
  · intro l hl
    rw [hlayout] at hl
    rw [hcode]
    exact hd.tables_le ha.function ha.leastFunction l hl

def pooled : MachineFunction where
  id := ⟨3⟩
  name := "p"
  alignment := 16
  constantPool :=
    [{ value := .constant (.bytes [1, 2, 3]), align := 0 },
      { value := .constant (.int .i32 (-1)), align := 4 },
      { value := .constant (.struct [.int .i8 7, .f64 0x3ff0000000000000]), align := 8 }]
  jumpTables := some { kind := .blockAddress, tables := [{ targets := [⟨0⟩] }] }
  blocks := [{ number := ⟨0⟩, insts := [.loadConst .rax 1, .ret] }]

theorem constantPool_holds_pooled :
    let em := (new .x86_64 {} {} {}).run [.emit pooled, .resolve]
    em.Carries pooled ∧ AskedAlignments em.config pooled ∧
      ∃ r, em.function? ⟨3⟩ = some r ∧ r.HoldsPool pooled.constantPool ∧ r.resolved = true ∧
        r.layout.constants = [0, 4, 8] := by
  intro em
  have hnew : (new .x86_64 {} {} {}).Reachable := ⟨{}, {}, {}, .log, [], rfl⟩
  have hok : ((new .x86_64 {} {} {}).emitFunction pooled).2 = .ok 0x1000000020 := by decide +kernel
  have hcarries : em.Carries pooled :=
    ⟨new .x86_64 {} {} {}, [.resolve], _, hnew, hok, ⟨⟨by decide +kernel, nofun⟩, trivial⟩, rfl⟩
  have hasked : AskedAlignments em.config pooled := by
    have hconfig : em.config = {} := (run_later (new .x86_64 {} {} {}) _).config
    rw [hconfig]
    refine ⟨?_, .inr ⟨4, rfl⟩, .inr ⟨3, rfl⟩⟩
    intro e he
    simp only [pooled, List.mem_cons, List.not_mem_nil, or_false] at he
    rcases he with rfl | rfl | rfl
    · exact .inl rfl
    · exact .inr ⟨2, rfl⟩
    · exact .inr ⟨3, rfl⟩
  obtain ⟨r, hr, hholds⟩ := constantPool_holds hcarries hasked
  have hfound : (em.function? ⟨3⟩).map (fun r => (r.resolved, r.layout.constants)) =
      some (true, [0, 4, 8]) := by decide +kernel
  have hr' : em.function? ⟨3⟩ = some r := hr
  rw [hr'] at hfound
  simp only [Option.map_some, Option.some.injEq, Prod.mk.injEq] at hfound
  exact ⟨hcarries, hasked, r, hr, hholds, hfound.1, hfound.2⟩

end Emitter

end CodeEmission
