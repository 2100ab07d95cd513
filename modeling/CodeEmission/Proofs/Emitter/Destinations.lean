import Mathlib.Data.List.Perm.Subperm
import Mathlib.Order.Nat
import CodeEmission.Emitter.References

/-! # Walks along aliases

A walk that ends passes every alias at most once, so counting steps never cuts one short: what a
reference is resolved to is where its walk ends. Declarations added later change no walk that has
ended.
-/

namespace CodeEmission.Module

variable {m m' : Module} {id : FuncId} {g last last' : GlobalRef}

/-- The aliases on the way from a reference to the function or variable it ends at. -/
inductive Walk (m : Module) (last : GlobalRef) : GlobalRef → List GlobalId → Prop
  | arrived (h : ∀ a, last ≠ .alias a) : Walk m last last []
  | pass {a : GlobalId} {found : GlobalAlias} {passed : List GlobalId} (h : m.alias? a = some found)
      (rest : Walk m last found.aliasee passed) : Walk m last (.alias a) (a :: passed)

/-- A reference is to a function or variable, directly or through aliases. -/
def Reaches (m : Module) (g last : GlobalRef) : Prop := ∃ passed, m.Walk last g passed

namespace Walk

variable {as bs : List GlobalId}

theorem unique (h : m.Walk last g as) (h' : m.Walk last' g bs) : last = last' ∧ as = bs := by
  induction h generalizing bs with
  | arrived hlast =>
    cases h' with
    | arrived _ => exact ⟨rfl, rfl⟩
    | pass _ _ => exact absurd rfl (hlast _)
  | pass hfound _ ih =>
    cases h' with
    | arrived hlast => exact absurd rfl (hlast _)
    | pass hfound' rest' =>
      obtain rfl := Option.some.inj (hfound.symm.trans hfound')
      obtain ⟨hlast, hpassed⟩ := ih rest'
      exact ⟨hlast, congrArg _ hpassed⟩

/-- The rest of a walk from one of its aliases on. -/
theorem suffix (h : m.Walk last g as) {a : GlobalId} (ha : a ∈ as) :
    ∃ bs, m.Walk last (.alias a) bs ∧ bs.length ≤ as.length := by
  induction h with
  | arrived => cases ha
  | pass hfound rest ih =>
    rcases List.mem_cons.1 ha with rfl | ha
    · exact ⟨_, .pass hfound rest, le_refl _⟩
    · obtain ⟨bs, hbs, hle⟩ := ih ha
      exact ⟨bs, hbs, hle.trans (Nat.le_succ _)⟩

/-- No alias is passed twice: the rest of the walk from there on would be the walk itself. -/
theorem nodup (h : m.Walk last g as) : as.Nodup := by
  induction h with
  | arrived => exact List.nodup_nil
  | pass hfound rest ih =>
    refine List.nodup_cons.2 ⟨?_, ih⟩
    intro ha
    obtain ⟨bs, hbs, hle⟩ := rest.suffix ha
    have heq := congrArg List.length (hbs.unique (.pass hfound rest)).2
    rw [List.length_cons] at heq
    omega

theorem subset (h : m.Walk last g as) : as ⊆ m.aliases.map (·.id) := by
  induction h with
  | arrived => exact List.nil_subset _
  | pass hfound _ ih =>
    have hid := List.find?_some hfound
    have hmem := List.mem_map_of_mem (f := (·.id)) (List.mem_of_find?_eq_some hfound)
    simp only [decide_eq_true_eq] at hid
    rw [hid] at hmem
    exact List.cons_subset.2 ⟨hmem, ih⟩

theorem length_le (h : m.Walk last g as) : as.length ≤ m.aliases.length := by
  have hle := (List.subperm_of_subset h.nodup h.subset).length_le
  rwa [List.length_map] at hle

theorem leadsTo (h : m.Walk (.function id) g as) {steps : Nat} (hs : as.length ≤ steps) :
    m.leadsTo id steps g = true := by
  generalize hlast : GlobalRef.function id = last at h
  induction h generalizing steps with
  | arrived =>
    subst hlast
    simp [Module.leadsTo]
  | pass hfound _ ih =>
    cases steps with
    | zero => cases hs
    | succ steps => simp only [Module.leadsTo, hfound, ih (Nat.le_of_succ_le_succ hs)]

/-- A walk is followed to its end if enough steps are counted. -/
theorem destination (h : m.Walk last g as) {steps : Nat} (hs : as.length ≤ steps) :
    m.destination steps g = m.destination 0 last := by
  induction h generalizing steps with
  | arrived hlast => cases last <;> cases steps <;> first | rfl | exact absurd rfl (hlast _)
  | pass hfound _ ih =>
    cases steps with
    | zero => cases hs
    | succ steps => simp only [Module.destination, hfound, ih (Nat.le_of_succ_le_succ hs)]

end Walk

theorem reaches_of_destination {steps : Nat} {target : Destination}
    (h : m.destination steps g = .ok target) :
    (∃ id, target = .function id ∧ m.Reaches g (.function id)) ∨
      ∃ v id, target = .variable v ∧ m.global? id = some v ∧ m.Reaches g (.variable id) := by
  have hpass {a : GlobalId} {found : GlobalAlias} {last : GlobalRef} (hfound : m.alias? a = some found)
      (hr : m.Reaches found.aliasee last) : m.Reaches (.alias a) last := by
    obtain ⟨as, has⟩ := hr
    exact ⟨a :: as, .pass hfound has⟩
  fun_induction destination m steps g with
  | case1 steps id =>
    cases h
    exact .inl ⟨id, rfl, [], .arrived fun _ => by simp⟩
  | case2 steps id v hv =>
    cases h
    exact .inr ⟨v, id, rfl, hv, [], .arrived fun _ => by simp⟩
  | case3 => cases h
  | case4 => cases h
  | case5 steps a found hfound ih =>
    rcases ih h with ⟨id, ht, hr⟩ | ⟨v, id, ht, hv, hr⟩
    · exact .inl ⟨id, ht, hpass hfound hr⟩
    · exact .inr ⟨v, id, ht, hv, hpass hfound hr⟩
  | case6 => cases h

theorem Reaches.destination (h : m.Reaches g last) :
    m.destination (m.aliases.length + 1) g = m.destination 0 last := by
  obtain ⟨as, has⟩ := h
  exact has.destination (has.length_le.trans (Nat.le_succ _))

/-- A reference is resolved to a function exactly if it reaches the function. -/
theorem destination_eq_function :
    m.destination (m.aliases.length + 1) g = .ok (.function id) ↔ m.Reaches g (.function id) := by
  constructor
  · intro h
    rcases reaches_of_destination h with ⟨_, ht, hr⟩ | ⟨_, _, ht, _⟩
    · cases ht
      exact hr
    · cases ht
  · intro h
    exact h.destination

theorem destination_eq_variable {v : GlobalVariable} :
    m.destination (m.aliases.length + 1) g = .ok (.variable v) ↔
      ∃ id, m.Reaches g (.variable id) ∧ m.global? id = some v := by
  constructor
  · intro h
    rcases reaches_of_destination h with ⟨_, ht, _⟩ | ⟨_, id, ht, hv, hr⟩
    · cases ht
    · cases ht
      exact ⟨id, hr, hv⟩
  · rintro ⟨id, hr, hv⟩
    rw [hr.destination]
    simp only [Module.destination, hv]

theorem Reaches.leadsTo (h : m.Reaches g (.function id)) :
    m.leadsTo id m.aliases.length g = true := by
  obtain ⟨as, has⟩ := h
  exact has.leadsTo has.length_le

/-- The test for references to a function finds all that are resolved to it. -/
theorem leadsTo_of_destination (h : m.destination (m.aliases.length + 1) g = .ok (.function id)) :
    m.leadsTo id m.aliases.length g = true := (destination_eq_function.1 h).leadsTo

theorem destination_of_prefix (hglobals : m.globals <+: m'.globals)
    (haliases : m.aliases <+: m'.aliases) {steps steps' : Nat} (hs : steps ≤ steps')
    {target : Destination} (h : m.destination steps g = .ok target) :
    m'.destination steps' g = .ok target := by
  fun_induction destination m steps g generalizing steps' with
  | case1 =>
    rw [← h]
    cases steps' <;> rfl
  | case2 steps id found hfound =>
    have hfound' : m'.global? id = some found := hglobals.find?_eq_some hfound
    rw [← h]
    cases steps' <;> simp only [destination, hfound']
  | case3 => cases h
  | case4 => cases h
  | case5 steps a found hfound ih =>
    have hfound' : m'.alias? a = some found := haliases.find?_eq_some hfound
    cases steps' with
    | zero => cases hs
    | succ steps' =>
      simp only [destination, hfound']
      exact ih (Nat.le_of_succ_le_succ hs) h
  | case6 => cases h

end CodeEmission.Module
