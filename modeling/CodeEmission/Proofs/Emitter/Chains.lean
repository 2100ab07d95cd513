import Mathlib.Combinatorics.Pigeonhole
import CodeEmission.Proofs.Versions.Replacement

/-! # Chains of aliases

A reference is followed through the first alias of each name. More steps than there are aliases pass
some alias twice, and from there on the same aliases come again and again. So the bounded search for
an address reports a cycle exactly if there is one, and otherwise both searches arrive where the chain
ends.
-/

namespace CodeEmission

namespace Module

variable {m : Module} {g last last' : GlobalRef} {i j n steps : Nat} {id : GlobalId}

/-- What the first alias of a name stands for. Functions, variables and names without an alias stand
for nothing else. -/
def next? (m : Module) : GlobalRef → Option GlobalRef
  | .alias id => (m.alias? id).map (·.aliasee)
  | .function _ | .variable _ => none

/-- What a reference stands for after some steps, if its chain does not end before. -/
def chain (m : Module) (g : GlobalRef) : Nat → Option GlobalRef
  | 0 => some g
  | n + 1 => (m.chain g n).bind m.next?

def EndsAt (m : Module) (g last : GlobalRef) : Prop :=
  ∃ n, m.chain g n = some last ∧ m.next? last = none

def Endless (m : Module) (g : GlobalRef) : Prop := ∀ n, (m.chain g n).isSome = true

/-- The chain of a reference comes to an alias and returns to it. -/
def CyclesThrough (m : Module) (g : GlobalRef) (id : GlobalId) : Prop :=
  (∃ n, m.chain g n = some (.alias id)) ∧ ∃ n > 0, m.chain (.alias id) n = some (.alias id)

theorem chain_add (m : Module) (g : GlobalRef) (i j : Nat) :
    m.chain g (i + j) = (m.chain g i).bind (m.chain · j) := by
  induction j with
  | zero => cases m.chain g i <;> rfl
  | succ j ih =>
    rw [← Nat.add_assoc, chain, ih, Option.bind_assoc]
    rfl

theorem chain_of_next (h : m.next? g = some last) (n : Nat) :
    m.chain g (n + 1) = m.chain last n := by
  rw [Nat.add_comm, chain_add]
  simp [chain, h]

theorem isSome_chain_of_le (hij : i ≤ j) (h : (m.chain g j).isSome = true) :
    (m.chain g i).isSome = true := by
  obtain ⟨k, rfl⟩ := Nat.exists_eq_add_of_le hij
  rw [chain_add] at h
  exact Option.isSome_of_isSome_bind h

theorem endsAt_of_chain_eq_none (h : m.chain g n = none) :
    ∃ i < n, ∃ last, m.chain g i = some last ∧ m.next? last = none := by
  induction n with
  | zero => cases h
  | succ n ih =>
    cases hn : m.chain g n with
    | none =>
      obtain ⟨i, hi, hlast⟩ := ih hn
      exact ⟨i, Nat.lt_succ_of_lt hi, hlast⟩
    | some last =>
      rw [chain, hn] at h
      exact ⟨n, Nat.lt_succ_self n, last, hn, h⟩

/-- Two equal places of a chain make it periodic from the first of them on. -/
theorem chain_periodic (hij : i ≤ j) (h : m.chain g i = m.chain g j) (hn : i ≤ n) :
    m.chain g (n + (j - i)) = m.chain g n := by
  obtain ⟨k, rfl⟩ := Nat.exists_eq_add_of_le hn
  have hsum : i + k + (j - i) = j + k := by omega
  rw [hsum, chain_add, ← h, ← chain_add]

theorem exists_alias_of_next (h : (m.next? g).isSome = true) :
    ∃ id ∈ m.aliases.map (·.id), g = .alias id := by
  cases g with
  | function id => cases h
  | «variable» id => cases h
  | «alias» id =>
    rw [next?, Option.isSome_map] at h
    obtain ⟨found, hfound⟩ := Option.isSome_iff_exists.1 h
    have hid : found.id = id := by simpa using List.find?_some hfound
    exact ⟨id, hid ▸ List.mem_map_of_mem (List.mem_of_find?_eq_some hfound), rfl⟩

theorem exists_of_chain_succ (h : m.chain g (n + 1) = some last) :
    ∃ id found, g = .alias id ∧ m.alias? id = some found ∧ m.chain found.aliasee n = some last := by
  have hfirst := isSome_chain_of_le (Nat.le_add_left 1 n) (by rw [h]; rfl)
  have hnext : (m.next? g).isSome = true := hfirst
  obtain ⟨id, _, rfl⟩ := exists_alias_of_next hnext
  obtain ⟨r, hr⟩ := Option.isSome_iff_exists.1 hnext
  rw [chain_of_next hr] at h
  obtain ⟨found, hfound, rfl⟩ := Option.map_eq_some_iff.1 hr
  exact ⟨id, found, rfl, hfound, h⟩

/-- A chain that is longer than the list of aliases comes to the same place twice. -/
theorem exists_repetition (h : (m.chain g (m.aliases.length + 1)).isSome = true) :
    ∃ i j, i < j ∧ j ≤ m.aliases.length ∧ m.chain g i = m.chain g j := by
  let names := (m.aliases.map fun a => some (GlobalRef.alias a.id)).toFinset
  have hcard : names.card < (Finset.range (m.aliases.length + 1)).card := by
    have hle := List.toFinset_card_le (m.aliases.map fun a => some (GlobalRef.alias a.id))
    rw [List.length_map] at hle
    rw [Finset.card_range]
    exact Nat.lt_succ_of_le hle
  -- wherever the chain goes on it stands at a declared alias
  have hmaps : ∀ k ∈ Finset.range (m.aliases.length + 1), m.chain g k ∈ names := by
    intro k hk
    have hnext := isSome_chain_of_le (Finset.mem_range.1 hk) h
    obtain ⟨r, hr⟩ := Option.isSome_iff_exists.1 (isSome_chain_of_le (Nat.le_succ k) hnext)
    rw [chain, hr] at hnext
    obtain ⟨id, hid, rfl⟩ := exists_alias_of_next hnext
    obtain ⟨a, ha, rfl⟩ := List.mem_map.1 hid
    rw [hr]
    exact List.mem_toFinset.2 (List.mem_map_of_mem ha)
  obtain ⟨i, hi, j, hj, hne, heq⟩ := Finset.exists_ne_map_eq_of_card_lt_of_maps_to hcard hmaps
  have hi := Nat.le_of_lt_succ (Finset.mem_range.1 hi)
  have hj := Nat.le_of_lt_succ (Finset.mem_range.1 hj)
  rcases Nat.lt_or_gt_of_ne hne with hlt | hgt
  · exact ⟨i, j, hlt, hj, heq⟩
  · exact ⟨j, i, hgt, hi, heq.symm⟩

/-- A chain never ends exactly if it does not end within as many steps as there are aliases. -/
theorem endless_iff : m.Endless g ↔ (m.chain g (m.aliases.length + 1)).isSome = true := by
  refine ⟨fun h => h _, ?_⟩
  intro h n
  obtain ⟨i, j, hij, hj, heq⟩ := exists_repetition h
  -- after any number of rounds the chain is where it was, and `n` rounds take at least `n` steps
  have hrounds (k : Nat) : m.chain g (i + k * (j - i)) = m.chain g i := by
    induction k with
    | zero => rw [Nat.zero_mul, Nat.add_zero]
    | succ k ih =>
      rw [Nat.succ_mul, ← Nat.add_assoc, chain_periodic hij.le heq (Nat.le_add_right _ _), ih]
  refine isSome_chain_of_le (j := i + n * (j - i)) ?_ ?_
  · have hn : n ≤ n * (j - i) := Nat.le_mul_of_pos_right n (Nat.sub_pos_of_lt hij)
    omega
  · rw [hrounds]
    exact isSome_chain_of_le (by omega) h

theorem not_endless (h : m.EndsAt g last) : ¬m.Endless g := by
  intro hendless
  obtain ⟨n, hn, hlast⟩ := h
  have hnext := hendless (n + 1)
  rw [chain, hn, Option.bind_some, hlast] at hnext
  cases hnext

theorem endless_or_endsAt (m : Module) (g : GlobalRef) : m.Endless g ∨
    ∃ last, (∃ n ≤ m.aliases.length, m.chain g n = some last) ∧ m.next? last = none := by
  cases h : m.chain g (m.aliases.length + 1) with
  | some r => exact .inl (endless_iff.2 (by rw [h]; rfl))
  | none =>
    obtain ⟨n, hn, last, hchain, hlast⟩ := endsAt_of_chain_eq_none h
    exact .inr ⟨last, ⟨n, Nat.le_of_lt_succ hn, hchain⟩, hlast⟩

theorem EndsAt.unique (h : m.EndsAt g last) (h' : m.EndsAt g last') : last = last' := by
  obtain ⟨i, hi, hlast⟩ := h
  obtain ⟨j, hj, hlast'⟩ := h'
  have hstop {a b : Nat} {r s : GlobalRef} (ha : m.chain g a = some r) (hr : m.next? r = none)
      (hb : m.chain g b = some s) : b ≤ a := by
    by_contra hab
    have hsome := isSome_chain_of_le (Nat.lt_of_not_le hab) (by rw [hb]; rfl)
    rw [chain, ha, Option.bind_some, hr] at hsome
    cases hsome
  obtain rfl := Nat.le_antisymm (hstop hj hlast' hi) (hstop hi hlast hj)
  exact Option.some.inj (hi.symm.trans hj)

theorem EndsAt.step (h : m.next? g = some last) (hends : m.EndsAt last last') :
    m.EndsAt g last' := by
  obtain ⟨n, hn, hlast⟩ := hends
  exact ⟨n + 1, (chain_of_next h n).trans hn, hlast⟩

/-- What the end of a chain is resolved to. -/
def terminus (m : Module) : GlobalRef → Except EmitError Destination
  | .function id => .ok (.function id)
  | .variable id =>
    match m.global? id with
    | some v => .ok (.variable v)
    | none => .error (.unknownGlobal id)
  | .alias id => .error (.unknownGlobal id)

theorem destination_of_chain (h : m.chain g n = some last) (hlast : m.next? last = none)
    (hn : n < steps) : m.destination steps g = m.terminus last := by
  induction n generalizing g steps with
  | zero =>
    obtain ⟨steps, rfl⟩ := Nat.exists_eq_succ_of_ne_zero (Nat.ne_of_gt hn)
    obtain rfl := Option.some.inj h
    cases g with
    | function id => rfl
    | «variable» id => rfl
    | «alias» id =>
      rw [next?, Option.map_eq_none_iff] at hlast
      simp only [destination, hlast, terminus]
  | succ n ih =>
    obtain ⟨steps, rfl⟩ := Nat.exists_eq_succ_of_ne_zero (Nat.ne_of_gt (Nat.zero_lt_of_lt hn))
    obtain ⟨id, found, rfl, hfound, hrest⟩ := exists_of_chain_succ h
    simp only [destination, hfound]
    exact ih hrest (Nat.lt_of_succ_lt_succ hn)

theorem destination_of_next (h : m.chain g (steps + 1) = some last) :
    ∃ id, m.chain g steps = some (.alias id) ∧ m.destination steps g = .error (.aliasCycle id) := by
  induction steps generalizing g with
  | zero =>
    obtain ⟨id, _, rfl, _, _⟩ := exists_of_chain_succ h
    exact ⟨id, rfl, rfl⟩
  | succ steps ih =>
    obtain ⟨first, found, rfl, hfound, hrest⟩ := exists_of_chain_succ h
    obtain ⟨id, hid, hcycle⟩ := ih hrest
    have hnext : m.next? (.alias first) = some found.aliasee := by
      simp only [next?, hfound, Option.map_some]
    refine ⟨id, (chain_of_next hnext steps).trans hid, ?_⟩
    simp only [destination, hfound]
    exact hcycle

/-- Where the search gives up it stands on the cycle. -/
theorem cyclesThrough_of_endless (h : m.Endless g)
    (hid : m.chain g (m.aliases.length + 1) = some (.alias id)) : m.CyclesThrough g id := by
  obtain ⟨i, j, hij, hj, heq⟩ := exists_repetition (h _)
  refine ⟨⟨_, hid⟩, j - i, Nat.sub_pos_of_lt hij, ?_⟩
  have hround := chain_periodic hij.le heq (n := m.aliases.length + 1) (by omega)
  rwa [chain_add, hid] at hround

/-- A chain ends at a function or a variable exactly if the reference reaches it. -/
theorem endsAt_iff_reaches (hlast : ∀ id, last ≠ .alias id) :
    m.EndsAt g last ↔ m.Reaches g last := by
  constructor
  · rintro ⟨n, hn, _⟩
    induction n generalizing g with
    | zero =>
      obtain rfl := Option.some.inj hn
      exact ⟨[], .arrived hlast⟩
    | succ n ih =>
      obtain ⟨id, found, rfl, hfound, hrest⟩ := exists_of_chain_succ hn
      obtain ⟨passed, hwalk⟩ := ih hrest
      exact ⟨id :: passed, .pass hfound hwalk⟩
  · rintro ⟨passed, hwalk⟩
    induction hwalk with
    | arrived =>
      refine ⟨0, rfl, ?_⟩
      cases last with
      | function id => rfl
      | «variable» id => rfl
      | «alias» id => exact absurd rfl (hlast id)
    | pass hfound _ ih => exact .step (by simp only [next?, hfound, Option.map_some]) ih

end Module

namespace Arena

variable {a : Arena} {t : Target} {v : GlobalVariable} {e : EmitError}

theorem error_of_addressOf (h : (a.addressOf t v).2 = .error e) :
    (∃ name, e = .externalGlobal name) ∨ (∃ step, e = .crash step) ∨
      (∃ name, e = .arenaExhausted name) ∨ ∃ reason, e = .malformedConstant reason := by
  unfold addressOf at h
  split at h
  · cases h
  split at h
  · cases h
    exact .inl ⟨_, rfl⟩
  split at h
  · cases h
    exact .inr (.inl ⟨_, rfl⟩)
  dsimp only at h
  split at h
  · cases h
    exact .inr (.inr (.inl ⟨_, rfl⟩))
  split at h
  · cases h
    exact .inr (.inr (.inl ⟨_, rfl⟩))
  split at h
  · rename_i hfault
    cases h
    unfold initialPlan at hfault
    split at hfault
    · split at hfault
      · cases hfault
      · exact .inr (.inr (.inr (Constant.malformed_of_plan hfault)))
    · cases hfault
  · cases h

end Arena

namespace Emitter

variable {em : Emitter} {g last : GlobalRef}

def answerAt (em : Emitter) (last : GlobalRef) : Emitter × Except EmitError UInt64 :=
  match em.module.terminus last with
  | .error e => (em, .error e)
  | .ok (.function id) => (em, em.functionAddress id)
  | .ok (.variable v) => em.variableAddress v

theorem globalAddress_of_endsAt (h : em.module.EndsAt g last) :
    em.globalAddress g = em.answerAt last := by
  rcases em.module.endless_or_endsAt g with hendless | ⟨last', ⟨n, hn, hchain⟩, hlast⟩
  · exact absurd hendless (Module.not_endless h)
  · obtain rfl := h.unique ⟨n, hchain, hlast⟩
    have hdestination := Module.destination_of_chain hchain hlast (Nat.lt_succ_of_le hn)
    rw [globalAddress, hdestination]
    rfl

theorem globalAddress_of_endless (h : em.module.Endless g) :
    ∃ name, (em.globalAddress g).2 = .error (.aliasCycle name) ∧
      em.module.CyclesThrough g name := by
  obtain ⟨last, hlast⟩ := Option.isSome_iff_exists.1 (h (em.module.aliases.length + 2))
  obtain ⟨name, hname, hcycle⟩ := Module.destination_of_next hlast
  refine ⟨name, ?_, Module.cyclesThrough_of_endless h hname⟩
  unfold globalAddress
  rw [hcycle]

theorem variableAddress_answer (em : Emitter) (v : GlobalVariable) :
    (em.variableAddress v).2 = (em.arena.addressOf em.target v).2.map (·.offset.tagged) := by
  unfold variableAddress
  split <;> rename_i hanswer <;> rw [hanswer] <;> rfl

/-- Why a reference has no address. -/
inductive Unanswered (em : Emitter) (g : GlobalRef) : EmitError → Prop
  | cyclic {name : GlobalId} (endless : em.module.Endless g)
      (through : em.module.CyclesThrough g name) : Unanswered em g (.aliasCycle name)
  | dangling {name : GlobalId} (ends : em.module.EndsAt g (.alias name)) :
      Unanswered em g (.unknownGlobal name)
  | undeclared {name : GlobalId} (ends : em.module.EndsAt g (.variable name))
      (none : em.module.global? name = none) : Unanswered em g (.unknownGlobal name)
  | uncommitted {id : FuncId} (ends : em.module.EndsAt g (.function id))
      (none : em.function? id = none) : Unanswered em g (.functionNotEmitted id)
  | elsewhere {name : String} : Unanswered em g (.externalGlobal name)
  | noRoom {name : String} : Unanswered em g (.arenaExhausted name)
  | malformed {reason : ConstantError} : Unanswered em g (.malformedConstant reason)
  | cutOff {step : Crash} : Unanswered em g (.crash step)

theorem unanswered_of_addressOf {v : GlobalVariable} {e : EmitError}
    (h : (em.arena.addressOf em.target v).2 = .error e) : em.Unanswered g e := by
  rcases Arena.error_of_addressOf h with ⟨_, rfl⟩ | ⟨_, rfl⟩ | ⟨_, rfl⟩ | ⟨_, rfl⟩
  · exact .elsewhere
  · exact .cutOff
  · exact .noRoom
  · exact .malformed

theorem unanswered_of_answerAt {e : EmitError} (hends : em.module.EndsAt g last)
    (h : (em.answerAt last).2 = .error e) : em.Unanswered g e := by
  cases last with
  | function id =>
    have hid : em.functionAddress id = .error e := h
    unfold functionAddress at hid
    split at hid
    · cases hid
    · rename_i hnone
      cases hid
      exact .uncommitted hends hnone
  | «variable» name =>
    unfold answerAt at h
    cases hv : em.module.global? name with
    | none =>
      simp only [Module.terminus, hv] at h
      cases h
      exact .undeclared hends hv
    | some v =>
      simp only [Module.terminus, hv, variableAddress_answer] at h
      cases ha : (em.arena.addressOf em.target v).2 with
      | error e' =>
        rw [ha] at h
        cases h
        exact unanswered_of_addressOf ha
      | ok answer =>
        rw [ha] at h
        cases h
  | «alias» name =>
    cases h
    exact .dangling hends

theorem unanswered_of_error {e : EmitError} (h : (em.globalAddress g).2 = .error e) :
    em.Unanswered g e := by
  rcases em.module.endless_or_endsAt g with hendless | ⟨last, ⟨n, _, hn⟩, hlast⟩
  · obtain ⟨name, hname, hcycle⟩ := globalAddress_of_endless hendless
    rw [hname] at h
    cases h
    exact .cyclic hendless hcycle
  · have hends : em.module.EndsAt g last := ⟨n, hn, hlast⟩
    rw [globalAddress_of_endsAt hends] at h
    exact unanswered_of_answerAt hends h

theorem globalAddress_cyclic_iff :
    (∃ name, (em.globalAddress g).2 = .error (.aliasCycle name)) ↔ em.module.Endless g := by
  constructor
  · rintro ⟨name, h⟩
    cases unanswered_of_error h with
    | cyclic endless _ => exact endless
  · intro h
    obtain ⟨name, hname, _⟩ := globalAddress_of_endless h
    exact ⟨name, hname⟩

theorem cyclesThrough_of_globalAddress {name : GlobalId}
    (h : (em.globalAddress g).2 = .error (.aliasCycle name)) :
    em.module.CyclesThrough g name := by
  cases unanswered_of_error h with
  | cyclic _ through => exact through

theorem globalAddress_unknown_iff {name : GlobalId} :
    (em.globalAddress g).2 = .error (.unknownGlobal name) ↔ em.module.EndsAt g (.alias name) ∨
      em.module.EndsAt g (.variable name) ∧ em.module.global? name = none := by
  constructor
  · intro h
    cases unanswered_of_error h with
    | dangling ends => exact .inl ends
    | undeclared ends none => exact .inr ⟨ends, none⟩
  · rintro (hends | ⟨hends, hnone⟩)
    · rw [globalAddress_of_endsAt hends]
      rfl
    · rw [globalAddress_of_endsAt hends]
      simp only [answerAt, Module.terminus, hnone]

theorem globalAddress_of_function {id : FuncId} (hends : em.module.EndsAt g (.function id)) :
    (em.globalAddress g).2 = em.functionAddress id := by
  rw [globalAddress_of_endsAt hends]
  rfl

theorem globalAddress_notEmitted_iff {id : FuncId} :
    (em.globalAddress g).2 = .error (.functionNotEmitted id) ↔
      em.module.EndsAt g (.function id) ∧ em.function? id = none := by
  constructor
  · intro h
    cases unanswered_of_error h with
    | uncommitted ends none => exact ⟨ends, none⟩
  · rintro ⟨hends, hnone⟩
    rw [globalAddress_of_function hends]
    simp only [functionAddress, hnone]

theorem globalAddress_of_variable {name : GlobalId} {v : GlobalVariable}
    (hends : em.module.EndsAt g (.variable name)) (hv : em.module.global? name = some v) :
    (em.globalAddress g).2 = (em.arena.addressOf em.target v).2.map (·.offset.tagged) := by
  rw [globalAddress_of_endsAt hends, ← variableAddress_answer]
  simp only [answerAt, Module.terminus, hv]

theorem refersToFunction_iff {id : FuncId} :
    em.refersToFunction g id = true ↔ em.module.EndsAt g (.function id) := by
  rw [Module.endsAt_iff_reaches fun _ => by simp]
  exact ⟨Module.reaches_of_leadsTo, Module.Reaches.leadsTo⟩

theorem refersTo_of_endsAt {id : FuncId} {r : FunctionRecord}
    (hr : ∃ entry ∈ r.relocations, entry.global? = some g)
    (hends : em.module.EndsAt g (.function id)) : em.refersTo r id = true := by
  obtain ⟨entry, hentry, hg⟩ := hr
  unfold refersTo
  rw [List.any_eq_true]
  refine ⟨entry, hentry, ?_⟩
  rw [hg]
  exact refersToFunction_iff.2 hends

/-- A reference whose chain ends has the address of what it ends at, or the error tells that nothing
is there; one whose chain never ends gets an error that names an alias on the cycle. The search for
references to a function finds exactly the chains that end at it. -/
theorem globalAddress_follows_chain (em : Emitter) (g : GlobalRef) :
    ((∃ name, (em.globalAddress g).2 = .error (.aliasCycle name)) ↔ em.module.Endless g) ∧
      (∀ name, (em.globalAddress g).2 = .error (.aliasCycle name) →
        em.module.CyclesThrough g name) ∧
      (∀ name, (em.globalAddress g).2 = .error (.unknownGlobal name) ↔
        em.module.EndsAt g (.alias name) ∨
          em.module.EndsAt g (.variable name) ∧ em.module.global? name = none) ∧
      (∀ id, (em.globalAddress g).2 = .error (.functionNotEmitted id) ↔
        em.module.EndsAt g (.function id) ∧ em.function? id = none) ∧
      (∀ id r, em.module.EndsAt g (.function id) → em.function? id = some r →
        (em.globalAddress g).2 = .ok r.codeAddress) ∧
      (∀ name v, em.module.EndsAt g (.variable name) → em.module.global? name = some v →
        (em.globalAddress g).2 = (em.arena.addressOf em.target v).2.map (·.offset.tagged)) ∧
      (∀ id, em.refersToFunction g id = true ↔ em.module.EndsAt g (.function id)) ∧
      ∀ id (r : FunctionRecord), (∃ entry ∈ r.relocations, entry.global? = some g) →
        em.module.EndsAt g (.function id) → em.refersTo r id = true := by
  refine ⟨globalAddress_cyclic_iff, fun _ => cyclesThrough_of_globalAddress,
    fun _ => globalAddress_unknown_iff, fun _ => globalAddress_notEmitted_iff, ?_,
    fun _ _ => globalAddress_of_variable, fun _ => refersToFunction_iff,
    fun _ _ => refersTo_of_endsAt⟩
  intro id r hends hr
  rw [globalAddress_of_function hends]
  simp only [functionAddress, hr]

/-- The second alias of the first name does not count; the cycle is entered at its second alias. -/
example : ((new .x86_64
      { aliases := [⟨⟨0⟩, "a", .alias ⟨2⟩⟩, ⟨⟨0⟩, "a", .function ⟨7⟩⟩, ⟨⟨1⟩, "b", .alias ⟨2⟩⟩,
          ⟨⟨2⟩, "c", .alias ⟨1⟩⟩] } {} {}).globalAddress (.alias ⟨0⟩)).2 =
    .error (.aliasCycle ⟨2⟩) := by rfl

end Emitter

end CodeEmission
