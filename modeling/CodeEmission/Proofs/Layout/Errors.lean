import CodeEmission.Proofs.Buffer.Windows
import CodeEmission.Proofs.Layout.Following

/-! # Errors of a layout

Where a layout stops and with which error. A layout is cut off only by the pool or by the tables, and
then it is cut off in every buffer, so a function that was laid out once is never cut off.
-/

namespace CodeEmission

theorem Plan.andThen_fault {ε : Type} (p q : Plan ε) :
    (p.andThen q).fault = p.fault.or q.fault := by
  cases hp : p.fault <;> simp [andThen, hp]

namespace ConstantPool

variable {t : Target} {pool : List PoolEntry} {b : CodeBuffer} {e : EmitError} {step : Crash}

theorem malformed_of_planFrom {limit start offset : Nat}
    (h : (planFrom t limit start offset pool).fault = some e) :
    ∃ reason, e = .malformedConstant reason := by
  induction pool generalizing offset with
  | nil => cases h
  | cons entry entries ih =>
    rw [planFrom, Plan.andThen_fault, Option.or_eq_some_iff] at h
    rcases h with hentry | ⟨_, hrest⟩
    · split at hentry
      · split at hentry
        · exact Constant.malformed_of_plan hentry
        · cases hentry
      · cases hentry
    · exact ih hrest

/-- Whether space is refused for a pool is no matter of the buffer. -/
theorem reserve_error (h : reserve t pool b = .error e) (b' : CodeBuffer) :
    reserve t pool b' = .error e := by
  unfold reserve at h ⊢
  split at h
  · exact h
  · split at h
    · cases h
    · rename_i hp
      rw [if_neg hp]
      split at h
      · rename_i hs
        rw [if_pos hs]
        exact h
      · cases h

theorem place_crash (h : (place t pool b).fault = some (.crash step)) (b' : CodeBuffer) :
    (place t pool b').fault = some (.crash step) := by
  unfold place at h
  split at h
  · rename_i hr
    cases h
    unfold place
    rw [reserve_error hr b']
  · cases h
  · obtain ⟨_, hreason⟩ := malformed_of_planFrom h
    cases hreason

end ConstantPool

theorem JumpTableLayout.reserve_error {t : Target} {info : Option JumpTableInfo} {b : CodeBuffer}
    {e : EmitError} (h : reserve t info b = .error e) (b' : CodeBuffer) :
    reserve t info b' = .error e := by
  unfold reserve at h ⊢
  split at h
  · cases h
  split at h
  · cases h
  rename_i hsome
  rw [if_neg hsome]
  split at h
  · rename_i hkind
    rw [if_pos hkind]
    exact h
  rename_i hkind
  rw [if_neg hkind]
  dsimp only at h ⊢
  split at h
  · exact h
  · split at h <;> cases h

namespace Draft

variable {t : Target} {config config' : Config} {f : MachineFunction} {b b' : CodeBuffer}
  {d : Draft} {e : EmitError} {step : Crash}

def Raises (result : Except DraftFailure Draft) (e : EmitError) : Prop :=
  ∃ failure, result = .error failure ∧ failure.error = e

theorem not_raises_ok (d : Draft) (e : EmitError) : ¬Raises (.ok d) e := nofun

theorem raises_error_iff {failure : DraftFailure} :
    Raises (.error failure) e ↔ failure.error = e := by
  simp [Raises]

theorem raises_bind_iff {x : Except DraftFailure Draft} {next : Draft → Except DraftFailure Draft} :
    Raises (x >>= next) e ↔ Raises x e ∨ ∃ d, x = .ok d ∧ Raises (next d) e := by
  cases x with
  | error failure => simp [bind, Except.bind, raises_error_iff]
  | ok d => simp [bind, Except.bind, not_raises_ok]

theorem placePool_raises_iff {pool : List PoolEntry} :
    Raises (d.placePool t pool) e ↔ (ConstantPool.place t pool d.buffer).fault = some e := by
  unfold placePool
  dsimp only
  split
  · rename_i hfault
    rw [raises_error_iff, hfault, Option.some.injEq]
    rfl
  · rename_i hfault
    simp [not_raises_ok, hfault]

theorem placeTables_raises_iff {info : Option JumpTableInfo} :
    Raises (d.placeTables t info) e ↔ JumpTableLayout.reserve t info d.buffer = .error e := by
  unfold placeTables
  split
  · rename_i hr
    rw [raises_error_iff, hr, Except.error.injEq]
    rfl
  · rename_i hr
    simp [not_raises_ok, hr]

theorem layOut_raises_iff :
    Raises (layOut t config f b) e ↔ Raises (front t config f b) e ∨
      ∃ c, front t config f b = .ok c ∧ Raises (c.emitBlocks f.blocks) e := by
  have heq : layOut t config f b = front t config f b >>= fun c => c.emitBlocks f.blocks := by
    simp [layOut, front]
  rw [heq, raises_bind_iff]

theorem front_not_crash (h : front t config f b = .ok d) :
    ¬Raises (front t config' f b') (.crash step) := by
  obtain ⟨p, q, hp, hq, -⟩ := front_eq_ok.1 h
  unfold front
  dsimp only
  rw [raises_bind_iff, placePool_raises_iff]
  rintro (hpool | ⟨p', -, hraises⟩)
  · have hfault := (placePool_eq_ok hp).1
    rw [ConstantPool.place_crash hpool _] at hfault
    cases hfault
  · rcases raises_bind_iff.1 hraises with htables | ⟨_, _, hok⟩
    · have herror := JumpTableLayout.reserve_error (placeTables_raises_iff.1 htables) p.buffer
      rw [← placeTables_raises_iff, hq] at herror
      exact not_raises_ok _ _ herror
    · exact not_raises_ok _ _ hok

theorem emit_not_crash (d : Draft) (i : X86.Instruction) : ¬Raises (d.emit i) (.crash step) := by
  rcases emit_cases i with ⟨l, rfl⟩ | ⟨line, col, rfl⟩ | ⟨_, hi⟩
  · rw [emit_label, startLabel, Locations.recordLabel]
    split
    · exact not_raises_ok _ _
    · rename_i herror
      split at herror
      · cases herror
        rw [raises_error_iff]
        nofun
      · cases herror
  · exact not_raises_ok _ _
  · rw [hi]
    exact not_raises_ok _ _

theorem foldlM_emit_not_crash (is : List X86.Instruction) (d : Draft) :
    ¬Raises (is.foldlM emit d) (.crash step) := by
  induction is generalizing d with
  | nil => exact not_raises_ok _ _
  | cons i is ih =>
    rw [List.foldlM_cons, raises_bind_iff]
    rintro (hfirst | ⟨c, -, hrest⟩)
    · exact emit_not_crash d i hfirst
    · exact ih c hrest

theorem startBlock_not_crash (d : Draft) (block : BlockId) :
    ¬Raises (d.startBlock block) (.crash step) := by
  unfold startBlock Locations.recordBlock
  dsimp only
  split
  · exact not_raises_ok _ _
  · rename_i herror
    split at herror
    · cases herror
      rw [raises_error_iff]
      nofun
    · cases herror

theorem emitBlocks_not_crash (bs : List MachineBlock) (d : Draft) :
    ¬Raises (d.emitBlocks bs) (.crash step) := by
  induction bs generalizing d with
  | nil => exact not_raises_ok _ _
  | cons b bs ih =>
    unfold emitBlocks
    split
    · exact not_raises_ok _ _
    · rw [raises_bind_iff, emitBlock, raises_bind_iff]
      rintro ((hstart | ⟨c, -, hinsts⟩) | ⟨c, -, hrest⟩)
      · exact startBlock_not_crash d b.number hstart
      · exact foldlM_emit_not_crash b.insts c hinsts
      · exact ih c hrest

/-- What was laid out once is never cut off. -/
theorem layOut_not_crash (h : layOut t config f b = .ok d) :
    ¬Raises (layOut t config' f b') (.crash step) := by
  obtain ⟨c, hc, -⟩ := layOut_eq_ok.1 h
  rw [layOut_raises_iff]
  rintro (hfront | ⟨c', -, hblocks⟩)
  · exact front_not_crash hc hfront
  · exact emitBlocks_not_crash f.blocks c' hblocks

end Draft

end CodeEmission
