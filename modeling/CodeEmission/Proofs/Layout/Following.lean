import CodeEmission.Proofs.Buffer.Following
import CodeEmission.Proofs.Layout.Regions

/-! # Layouts in buffers of different sizes

If a function can be laid out in a roomy buffer, then in every other buffer its layout raises no
error either: it comes out the same, or the buffer overflows. An abandoned layout has noted at most
the blocks and labels that the roomy one has noted, so it finds no duplicate that is not there.
-/

namespace CodeEmission

namespace ConstantPool

variable {t : Target} {pool : List PoolEntry} {b c u : CodeBuffer}

theorem place_of_isEmpty (hm : pool.findIdx? (·.isMachine) = none) (hp : pool.isEmpty = true)
    (b : CodeBuffer) : place t pool b = { buffer := b } := by
  simp [place, reserve, hm, hp]

theorem hasSize_of_place (hm : pool.findIdx? (·.isMachine) = none) (hp : pool.isEmpty = false)
    (hf : (place t pool b).fault = none) : hasSize t pool = true := by
  cases hs : hasSize t pool with
  | true => rfl
  | false => simp [place, reserve, hm, hp, hs] at hf

theorem place_of_reserve_none (hm : pool.findIdx? (·.isMachine) = none) (hp : pool.isEmpty = false)
    (hs : hasSize t pool = true) (hr : b.reserve (size t pool).1 (size t pool).2 = (c, none)) :
    place t pool b = { buffer := c } := by
  simp [place, reserve, hm, hp, hs, hr]

theorem place_of_reserve_some (hm : pool.findIdx? (·.isMachine) = none) (hp : pool.isEmpty = false)
    (hs : hasSize t pool = true) {start : Nat} (hr : b.reserve (size t pool).1 (size t pool).2 = (c, some start)) :
    place t pool b =
      { buffer := c.fill 0 (planFrom t c.offset start 0 pool), start := some start
        offsets := offsetsFrom t start 0 pool
        fault := (planFrom t c.offset start 0 pool).fault } := by
  simp [place, reserve, hm, hp, hs, hr]

theorem place_follows (h : b.Follows u) (hu : u.Intact) (hf : (place t pool u).fault = none)
    (ho : (place t pool u).buffer.overflow = none) :
    (place t pool b).fault = none ∧ (place t pool b).buffer.Follows (place t pool u).buffer ∧
      ((place t pool b).buffer.overflow = none →
        (place t pool b).offsets = (place t pool u).offsets) := by
  cases hm : pool.findIdx? (·.isMachine) with
  | some index => simp [place, reserve, hm] at hf
  | none =>
    cases hp : pool.isEmpty with
    | true =>
      rw [place_of_isEmpty hm hp, place_of_isEmpty hm hp]
      exact ⟨rfl, h, fun _ => rfl⟩
    | false =>
      have hs := hasSize_of_place hm hp hf
      have hfollows := h.reserve hu (size t pool).1 (size t pool).2
      rcases hru : u.reserve (size t pool).1 (size t pool).2 with ⟨cu, su⟩
      rcases hrb : b.reserve (size t pool).1 (size t pool).2 with ⟨cb, sb⟩
      rw [hru, hrb] at hfollows
      cases su with
      | none =>
        rw [place_of_reserve_none hm hp hs hru] at hf ho ⊢
        obtain ⟨hc, hsame, hnone⟩ := hfollows ho
        have hsb : sb = none := by
          by_cases hcb : cb.overflow = none
          · exact hsame hcb
          · exact hnone hcb
        subst hsb
        rw [place_of_reserve_none hm hp hs hrb]
        exact ⟨rfl, hc, fun _ => rfl⟩
      | some start =>
        rw [place_of_reserve_some hm hp hs hru] at hf ho ⊢
        obtain ⟨hc, hsame, hnone⟩ := hfollows ho
        by_cases hcb : cb.overflow = none
        · obtain rfl : sb = some start := hsame hcb
          rw [place_of_reserve_some hm hp hs hrb, hc.offset hcb]
          exact ⟨hf, hc.fill _ _, fun _ => rfl⟩
        · obtain rfl : sb = none := hnone hcb
          rw [place_of_reserve_none hm hp hs hrb]
          exact ⟨rfl, hc.behind_of_grows hcb (CodeBuffer.fill_grows _ _ _), fun hn => absurd hn hcb⟩

end ConstantPool

theorem JumpTableLayout.reserve_follows {t : Target} {info : Option JumpTableInfo}
    {b u v : CodeBuffer} {l : Option JumpTableLayout} (h : b.Follows u) (hu : u.Intact)
    (hr : JumpTableLayout.reserve t info u = .ok (v, l)) (hv : v.overflow = none) :
    ∃ c k, JumpTableLayout.reserve t info b = .ok (c, k) ∧ c.Follows v ∧
      (c.overflow = none → k = l) := by
  unfold JumpTableLayout.reserve at hr ⊢
  split at hr
  · cases hr
    exact ⟨b, none, rfl, h, fun _ => rfl⟩
  rename_i info
  split at hr
  · rename_i hinfo
    cases hr
    exact ⟨b, none, by simp [hinfo], h, fun _ => rfl⟩
  rename_i hinfo
  split at hr
  · cases hr
  rename_i hrel
  dsimp only at hr ⊢
  rw [if_neg hinfo, if_neg hrel]
  split at hr
  · cases hr
  rename_i size hproduct
  split at hr
  · rename_i hsize
    cases hr
    rw [if_pos hsize]
    exact ⟨b, _, rfl, h, fun hb => by rw [h.offset hb]⟩
  · rename_i hsize
    cases hr
    rw [if_neg hsize]
    obtain ⟨hc, hsame, _⟩ := h.reserve hu _ _ hv
    exact ⟨_, _, rfl, hc, fun hb => by rw [hsame hb]⟩

namespace Draft

variable {t : Target} {c d u v : Draft}

structure Agrees (d u : Draft) : Prop where
  function : d.function = u.function
  code : d.buffer.code = u.buffer.code
  relocations : d.relocations = u.relocations
  locations : d.locations = u.locations
  layout : d.layout = u.layout
  debugLocs : d.debugLocs = u.debugLocs
  codeOffset : d.codeOffset = u.codeOffset

/-- How a draft stands to one in a roomier buffer that has taken the same steps. -/
structure Follows (d u : Draft) : Prop where
  buffer : d.buffer.Follows u.buffer
  blocks : ∀ b, d.locations.blocks.contains b = true → u.locations.blocks.contains b = true
  labels : ∀ l, d.locations.labels.contains l = true → u.locations.labels.contains l = true
  agrees : d.buffer.overflow = none → d.Agrees u

theorem Follows.align (h : d.Follows u) (hu : u.buffer.Intact) {alignment : Nat}
    (ha : (u.align alignment).buffer.overflow = none) :
    (d.align alignment).Follows (u.align alignment) := by
  have hb := h.buffer.align hu ha
  refine ⟨hb, h.blocks, h.labels, ?_⟩
  intro ho
  have hg := h.agrees ((CodeBuffer.align_grows _ _).overflow ho)
  exact { hg with code := hb.code ho }

theorem Follows.placePool (h : d.Follows u) (hu : u.buffer.Intact) {pool : List PoolEntry}
    (hp : u.placePool t pool = .ok v) (hv : v.buffer.overflow = none) :
    ∃ c, d.placePool t pool = .ok c ∧ c.Follows v := by
  obtain ⟨hf, log, rfl⟩ := placePool_eq_ok hp
  obtain ⟨hfd, hb, hoffsets⟩ := ConstantPool.place_follows h.buffer hu hf hv
  obtain ⟨log', hd⟩ := placePool_of_fault_eq_none hfd
  refine ⟨_, hd, hb, h.blocks, h.labels, ?_⟩
  intro ho
  have hg := h.agrees ((ConstantPool.place_grows _ _ _).overflow ho)
  exact { hg with
    code := hb.code ho
    layout := by simp only [hg.layout, hoffsets ho] }

theorem Follows.placeTables (h : d.Follows u) (hu : u.buffer.Intact) {info : Option JumpTableInfo}
    (hp : u.placeTables t info = .ok v) (hv : v.buffer.overflow = none) :
    ∃ c, d.placeTables t info = .ok c ∧ c.Follows v := by
  obtain ⟨buffer, jumpTables, log, hr, rfl⟩ := placeTables_eq_ok hp
  obtain ⟨buffer', jumpTables', hr', hb, htables⟩ :=
    JumpTableLayout.reserve_follows h.buffer hu hr hv
  obtain ⟨log', hd⟩ := placeTables_of_reserve hr'
  refine ⟨_, hd, hb, h.blocks, h.labels, ?_⟩
  intro ho
  have hg := h.agrees ((JumpTableLayout.reserve_grows hr').overflow ho)
  exact { hg with
    code := hb.code ho
    layout := by simp only [hg.layout, htables ho] }

theorem Follows.startBlock (h : d.Follows u) {block : BlockId} (hs : u.startBlock block = .ok v) :
    ∃ c, d.startBlock block = .ok c ∧ c.Follows v := by
  obtain ⟨hc, rfl⟩ := startBlock_eq_ok.1 hs
  have hd : d.locations.blocks.contains block = false := by
    cases hb : d.locations.blocks.contains block with
    | false => rfl
    | true => rw [h.blocks block hb] at hc; cases hc
  refine ⟨_, startBlock_eq_ok.2 ⟨hd, rfl⟩, h.buffer, ?_, h.labels, ?_⟩
  · intro b hb
    simp only [IdMap.contains_insert, Bool.or_eq_true] at hb ⊢
    exact hb.imp_right (h.blocks b)
  · intro ho
    have hg := h.agrees ho
    exact { hg with locations := by simp only [hg.locations, offset, h.buffer.offset ho] }

theorem Follows.startLabel (h : d.Follows u) {label : LabelId} (hs : u.startLabel label = .ok v) :
    ∃ c, d.startLabel label = .ok c ∧ c.Follows v := by
  obtain ⟨hc, rfl⟩ := startLabel_eq_ok.1 hs
  have hd : d.locations.labels.contains label = false := by
    cases hl : d.locations.labels.contains label with
    | false => rfl
    | true => rw [h.labels label hl] at hc; cases hc
  refine ⟨_, startLabel_eq_ok.2 ⟨hd, rfl⟩, h.buffer, h.blocks, ?_, ?_⟩
  · intro l hl
    simp only [IdMap.contains_insert, Bool.or_eq_true] at hl ⊢
    exact hl.imp_right (h.labels l)
  · intro ho
    have hg := h.agrees ho
    exact { hg with locations := by simp only [hg.locations, offset, h.buffer.offset ho] }

theorem Follows.startLoc (h : d.Follows u) (loc : SourceLoc) :
    (d.startLoc loc).Follows (u.startLoc loc) := by
  obtain ⟨ds, hds⟩ := startLoc_eq d loc
  obtain ⟨us, hus⟩ := startLoc_eq u loc
  have hb : (d.startLoc loc).buffer.Follows (u.startLoc loc).buffer := by
    rw [hds, hus]
    exact h.buffer
  refine ⟨hb, ?_, ?_, ?_⟩
  · rw [hds, hus]
    exact h.blocks
  · rw [hds, hus]
    exact h.labels
  · intro ho
    rw [hds] at ho
    have hg := h.agrees ho
    have hlocs : (d.startLoc loc).debugLocs = (u.startLoc loc).debugLocs := by
      simp only [Draft.startLoc, hg.debugLocs, offset, h.buffer.offset ho]
      split <;> simp [hg.debugLocs]
    rw [hds, hus] at hlocs ⊢
    exact { hg with debugLocs := hlocs }

theorem Follows.writeCode (h : d.Follows u) (hu : u.buffer.Intact) {i : X86.Instruction}
    (hw : (u.writeCode i).buffer.overflow = none) : (d.writeCode i).Follows (u.writeCode i) := by
  have hb := h.buffer.writeAll hu hw
  refine ⟨hb, h.blocks, h.labels, ?_⟩
  intro ho
  have ho' := (CodeBuffer.writeAll_grows _ _).overflow ho
  have hg := h.agrees ho'
  exact { hg with
    code := hb.code ho
    relocations := by simp only [Draft.writeCode, hg.relocations, offset, h.buffer.offset ho'] }

theorem Follows.emit (h : d.Follows u) (hu : u.buffer.Intact) {i : X86.Instruction}
    (he : u.emit i = .ok v) (hv : v.buffer.overflow = none) :
    ∃ c, d.emit i = .ok c ∧ c.Follows v := by
  rcases emit_cases i with ⟨l, rfl⟩ | ⟨line, col, rfl⟩ | ⟨_, hi⟩
  · exact h.startLabel he
  · rw [emit_debugLoc] at he
    cases he
    exact ⟨_, rfl, h.startLoc _⟩
  · rw [hi] at he
    cases he
    exact ⟨_, hi d, h.writeCode hu hv⟩

theorem Follows.foldlM_emit {is : List X86.Instruction} (h : d.Follows u) (hu : u.buffer.Intact)
    (he : is.foldlM Draft.emit u = .ok v) (hv : v.buffer.overflow = none) :
    ∃ c, is.foldlM Draft.emit d = .ok c ∧ c.Follows v := by
  induction is generalizing d u with
  | nil =>
    cases he
    exact ⟨d, rfl, h⟩
  | cons i is ih =>
    obtain ⟨u', hu', hr⟩ := foldlM_emit_cons.1 he
    have ho := (foldlM_emit_grows hr).overflow hv
    obtain ⟨d', hd', hf⟩ := h.emit hu hu' ho
    obtain ⟨c, hc, hcf⟩ := ih hf ((emit_grows hu').intact_right hu.writable ho) hr
    exact ⟨c, foldlM_emit_cons.2 ⟨d', hd', hc⟩, hcf⟩

theorem Follows.emitBlock (h : d.Follows u) (hu : u.buffer.Intact) {b : MachineBlock}
    (he : u.emitBlock b = .ok v) (hv : v.buffer.overflow = none) :
    ∃ c, d.emitBlock b = .ok c ∧ c.Follows v := by
  obtain ⟨u', hu', hr⟩ := emitBlock_eq_ok.1 he
  obtain ⟨d', hd', hf⟩ := h.startBlock hu'
  have hi : u'.buffer.Intact :=
    (startBlock_extends hu').grows.intact_right hu.writable ((foldlM_emit_grows hr).overflow hv)
  obtain ⟨c, hc, hcf⟩ := hf.foldlM_emit hi hr hv
  exact ⟨c, emitBlock_eq_ok.2 ⟨d', hd', hc⟩, hcf⟩

/-- A draft that has overflowed stops while the roomier one goes on. -/
theorem Follows.emitBlocks_behind (h : d.Follows u) (hd : d.buffer.overflow ≠ none)
    (hu : u.buffer.Intact) {bs : List MachineBlock} (he : u.emitBlocks bs = .ok v)
    (hv : v.buffer.overflow = none) : d.Follows v := by
  have hx := emitBlocks_extends hu he hv
  refine ⟨h.buffer.behind_of_grows hd hx.grows, ?_, ?_, fun ho => absurd ho hd⟩
  · intro b hb
    obtain ⟨o, ho⟩ := Option.isSome_iff_exists.1 (h.blocks b hb)
    exact Option.isSome_iff_exists.2 ⟨o, (hx.block? b o).2 (.inl ho)⟩
  · intro l hl
    obtain ⟨o, ho⟩ := Option.isSome_iff_exists.1 (h.labels l hl)
    exact Option.isSome_iff_exists.2 ⟨o, (hx.label? l o).2 (.inl ho)⟩

theorem Follows.emitBlocks (h : d.Follows u) (hu : u.buffer.Intact) {bs : List MachineBlock}
    (he : u.emitBlocks bs = .ok v) (hv : v.buffer.overflow = none) :
    ∃ c, d.emitBlocks bs = .ok c ∧ c.Follows v := by
  induction bs generalizing d u with
  | nil =>
    cases he
    exact ⟨d, rfl, h⟩
  | cons b bs ih =>
    by_cases hd : d.buffer.overflow = none
    · obtain ⟨u', hu', hr⟩ := (emitBlocks_cons hu.overflow).1 he
      have ho := (emitBlocks_grows hr).overflow hv
      obtain ⟨d', hd', hf⟩ := h.emitBlock hu hu' ho
      obtain ⟨c, hc, hcf⟩ := ih hf ((emitBlock_grows hu').intact_right hu.writable ho) hr
      exact ⟨c, (emitBlocks_cons hd).2 ⟨d', hd', hc⟩, hcf⟩
    · exact ⟨d, emitBlocks_of_overflowed hd _, h.emitBlocks_behind hd hu he hv⟩

theorem front_follows {config config' : Config} {f : MachineFunction} {b r : CodeBuffer}
    (hpool : config'.poolAlignment = config.poolAlignment)
    (hmin : config'.minFunctionAlignment = config.minFunctionAlignment)
    (hb : b.Follows r) (hr : r.Intact) (hf : front t config f r = .ok v)
    (hv : v.buffer.overflow = none) :
    ∃ c, front t config' f b = .ok c ∧ c.Follows v := by
  obtain ⟨p, q, hp, hq, rfl⟩ := front_eq_ok.1 hf
  obtain ⟨_, log, hpe⟩ := placePool_eq_ok hp
  obtain ⟨buffer, jumpTables, log', hres, hqe⟩ := placeTables_eq_ok hq
  have hqo : q.buffer.overflow = none := (CodeBuffer.align_grows _ _).overflow hv
  have hgq : p.buffer.Grows q.buffer := by
    rw [hqe]
    exact JumpTableLayout.reserve_grows hres
  have hpo := hgq.overflow hqo
  have hgp : (r.align (max config.poolAlignment.toNat 16)).Grows p.buffer := by
    rw [hpe]
    exact ConstantPool.place_grows _ _ _
  have hga := CodeBuffer.align_grows r (max config.poolAlignment.toNat 16)
  have hstart : Follows { function := f.name, buffer := b } { function := f.name, buffer := r } :=
    ⟨hb, fun _ h => h, fun _ h => h, fun ho => ⟨rfl, hb.code ho, rfl, rfl, rfl, rfl, rfl⟩⟩
  have hai := hga.intact_right hr.writable (hgp.overflow hpo)
  obtain ⟨p', hp', hpf⟩ := (hstart.align hr hai.overflow).placePool hai hp hpo
  have hpi := hgp.intact_right hai.writable hpo
  obtain ⟨q', hq', hqf⟩ := hpf.placeTables hpi hq hqo
  have hqi := hgq.intact_right hpi.writable hqo
  rw [← hpool] at hp'
  refine ⟨_, front_eq_ok.2 ⟨p', q', hp', hq', rfl⟩, ?_⟩
  have hlast := hqf.align hqi hv
  rw [hmin]
  refine ⟨hlast.buffer, hlast.blocks, hlast.labels, ?_⟩
  intro ho
  exact { hlast.agrees ho with codeOffset := hlast.buffer.offset ho }

/-- A function that can be laid out in a roomy buffer raises no error in any other, and its layout
there follows the roomy one. -/
theorem layOut_follows {config config' : Config} {f : MachineFunction} {b r : CodeBuffer}
    (hpool : config'.poolAlignment = config.poolAlignment)
    (hmin : config'.minFunctionAlignment = config.minFunctionAlignment)
    (hb : b.Follows r) (hr : r.Intact) (h : layOut t config f r = .ok v)
    (hv : v.buffer.overflow = none) :
    ∃ d, layOut t config' f b = .ok d ∧ d.Follows v := by
  obtain ⟨u, hu, he⟩ := layOut_eq_ok.1 h
  have ho := (emitBlocks_grows he).overflow hv
  obtain ⟨c, hc, hcf⟩ := front_follows hpool hmin hb hr hu ho
  have hi := (front_bare hu).grows.intact_right hr.writable ho
  obtain ⟨d, hd, hdf⟩ := hcf.emitBlocks hi he hv
  exact ⟨d, layOut_eq_ok.2 ⟨c, hc, hd⟩, hdf⟩

end Draft

end CodeEmission
