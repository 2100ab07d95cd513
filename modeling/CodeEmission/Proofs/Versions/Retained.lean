import CodeEmission.Proofs.Versions.Changes

/-! # Versions that stay

An operation leaves the version of a function in the table unless it takes the version away or
commits another one. From its commitment on, the record of a version makes one step after another,
and every record that is ever found in the table belongs to such a version.
-/

namespace CodeEmission.Emitter

variable {em em' : Emitter} {id : FuncId} {op : Operation} {ops : List Operation} {r : FunctionRecord}
  {f : MachineFunction}

structure Retains (em : Emitter) (id : FuncId) (op : Operation) : Prop where
  present : (em.perform op).functions.contains id = true
  not_replaced : ∀ f, op = .emit f → f.id = id → ∀ address, (em.emitFunction f).2 ≠ .ok address

/-- The version of a function stays in the table during all of some operations. -/
def RetainsAll : Emitter → FuncId → List Operation → Prop
  | _, _, [] => True
  | em, id, op :: ops => em.Retains id op ∧ (em.perform op).RetainsAll id ops

theorem retainsAll_concat (em : Emitter) (id : FuncId) (ops : List Operation) (op : Operation) :
    em.RetainsAll id (ops ++ [op]) ↔ em.RetainsAll id ops ∧ (em.run ops).Retains id op := by
  induction ops generalizing em with
  | nil => simp [RetainsAll, run]
  | cons first ops ih =>
    rw [List.cons_append, RetainsAll, RetainsAll, ih, and_assoc]
    rfl

theorem run_concat (em : Emitter) (ops : List Operation) (op : Operation) :
    em.run (ops ++ [op]) = (em.run ops).perform op := List.foldl_concat _ _ _ _

theorem Reachable.run (h : em.Reachable) (ops : List Operation) : (em.run ops).Reachable := by
  induction ops generalizing em with
  | nil => exact h
  | cons op ops ih => exact ih (h.perform op)

theorem run_later (em : Emitter) (ops : List Operation) : em.Later (em.run ops) := by
  induction ops generalizing em with
  | nil => exact .refl em
  | cons op ops ih => exact (perform_later em op).trans (ih (em.perform op))

/-- The record of a version that stays makes a step. -/
theorem Retains.step (h : em.Reachable) (hret : em.Retains id op) (hr : em.function? id = some r) :
    ∃ r', (em.perform op).function? id = some r' ∧ r.Step r' := by
  obtain ⟨r', hr'⟩ := Option.isSome_iff_exists.1 hret.present
  refine ⟨r', hr', ?_⟩
  have hr' : (em.perform op).function? id = some r' := hr'
  rcases h.sound.perform_cases op id with hsteps | hnone | ⟨f, address, hop, hid, hok⟩
  · unfold Steps at hsteps
    rw [hr, hr'] at hsteps
    cases hsteps with
    | some hstep => exact hstep
  · rw [hr'] at hnone
    cases hnone
  · exact absurd hok (hret.not_replaced f hop hid address)

/-- What holds of a record and is kept by every step holds of it as long as its version stays. -/
theorem RetainsAll.induction {P : FunctionRecord → Prop}
    (hstep : ∀ r r', r.WellFormed → P r → r.Step r' → P r') (h : em.Reachable)
    (hret : em.RetainsAll id ops) (hr : em.function? id = some r) (hP : P r) :
    ∃ r', (em.run ops).function? id = some r' ∧ P r' := by
  induction ops generalizing em r with
  | nil => exact ⟨r, hr, hP⟩
  | cons op ops ih =>
    obtain ⟨hfirst, hrest⟩ := hret
    obtain ⟨r', hr', hs⟩ := hfirst.step h hr
    exact ih (h.perform op) hrest hr' (hstep r r' (h.sound.wellFormed id r hr) hP hs)

/-- The version of a function in the table is the one that was emitted for `f`. -/
def Carries (em : Emitter) (f : MachineFunction) : Prop :=
  ∃ (em₀ : Emitter) (ops : List Operation) (address : UInt64),
    em₀.Reachable ∧ (em₀.emitFunction f).2 = .ok address ∧
      (em₀.perform (.emit f)).RetainsAll f.id ops ∧ em = (em₀.perform (.emit f)).run ops

theorem Carries.reachable (h : em.Carries f) : em.Reachable := by
  obtain ⟨em₀, ops, _, h₀, _, _, rfl⟩ := h
  exact (h₀.perform _).run ops

theorem Carries.induction {P : FunctionRecord → Prop} (h : em.Carries f)
    (hcommit : ∀ block d, block.Fresh → Draft.layOut .x86_64 em.config f { block } = .ok d →
      d.buffer.overflow = none → P (d.commit f.id))
    (hstep : ∀ r r', r.WellFormed → P r → r.Step r' → P r') :
    ∃ r, em.function? f.id = some r ∧ P r := by
  obtain ⟨em₀, ops, address, h₀, hok, hret, rfl⟩ := h
  obtain ⟨block, d, hfresh, hlay, hfits, hfound, _⟩ := committed_of_emitFunction hok
  have hconfig : ((em₀.perform (.emit f)).run ops).config = em₀.config :=
    (run_later _ ops).config.trans (perform_later em₀ (.emit f)).config
  rw [hconfig] at hcommit
  rw [h₀.target] at hlay
  exact hret.induction hstep (h₀.perform (.emit f)) hfound
    (hcommit block d hfresh hlay (CodeBuffer.overflow_of_exhausted hfits))

theorem Carries.exists_record (h : em.Carries f) : ∃ r, em.function? f.id = some r := by
  obtain ⟨r, hr, _⟩ := h.induction (P := fun _ => True) (fun _ _ _ _ _ => trivial)
    fun _ _ _ _ _ => trivial
  exact ⟨r, hr⟩

theorem Carries.perform (h : em.Carries f) (hret : em.Retains f.id op) :
    (em.perform op).Carries f := by
  obtain ⟨em₀, ops, address, h₀, hok, hall, rfl⟩ := h
  refine ⟨em₀, ops ++ [op], address, h₀, hok, (retainsAll_concat _ _ _ _).2 ⟨hall, hret⟩, ?_⟩
  rw [run_concat]

theorem Reachable.carries (h : em.Reachable) (hr : em.function? id = some r) :
    ∃ f, f.id = id ∧ em.Carries f := by
  have hall : em.Reachable ∧ ∀ id r, em.function? id = some r → ∃ f, f.id = id ∧ em.Carries f := by
    refine h.induction (P := fun em => em.Reachable ∧
      ∀ id r, em.function? id = some r → ∃ f, f.id = id ∧ em.Carries f) ?_ ?_
    · intro module config host sink
      refine ⟨⟨module, config, host, sink, [], rfl⟩, ?_⟩
      intro id r hr
      cases hr
    · rintro em op ⟨hem, hcarries⟩
      refine ⟨hem.perform op, ?_⟩
      intro id r hr
      by_cases hnew : ∃ f address, op = .emit f ∧ f.id = id ∧ (em.emitFunction f).2 = .ok address
      · obtain ⟨f, address, rfl, hid, hok⟩ := hnew
        exact ⟨f, hid, em, [], address, hem, hok, trivial, rfl⟩
      · rcases hem.sound.perform_cases op id with hsteps | hnone | hcommitted
        · unfold Steps at hsteps
          rw [hr] at hsteps
          obtain ⟨s, hs⟩ : ∃ s, em.function? id = some s := by
            cases hs : em.function? id with
            | none =>
              rw [hs] at hsteps
              cases hsteps
            | some s => exact ⟨s, rfl⟩
          obtain ⟨f, rfl, hf⟩ := hcarries id s hs
          refine ⟨f, rfl, hf.perform ⟨Option.isSome_iff_exists.2 ⟨r, hr⟩, ?_⟩⟩
          intro f' hop hid address hok
          exact hnew ⟨f', address, hop, hid, hok⟩
        · rw [hr] at hnone
          cases hnone
        · exact absurd hcommitted hnew
  exact hall.2 id r hr

end CodeEmission.Emitter
