import CodeEmission.Batch
import CodeEmission.Proofs.Versions.Replacement

/-! # What the functions of a batch leave

Emitting the functions of a batch one after another leaves the last version of each of them. No function
is resolved on the way, so nothing else remains of the versions before it.
-/

namespace CodeEmission

def MachineFunction.lastOf (fs : List MachineFunction) (id : FuncId) : Option MachineFunction :=
  fs.reverse.find? fun f => f.id = id

/-- The version of a function that counts. -/
def Batch.lastVersion? (b : Batch) (id : FuncId) : Option MachineFunction :=
  MachineFunction.lastOf b.functions id

namespace MachineFunction

variable {fs : List MachineFunction} {id : FuncId}

theorem lastOf_append (fs gs : List MachineFunction) (id : FuncId) :
    lastOf (fs ++ gs) id = (lastOf gs id).or (lastOf fs id) := by
  unfold lastOf
  rw [List.reverse_append, List.find?_append]

theorem lastOf_singleton (f : MachineFunction) (id : FuncId) :
    lastOf [f] id = if f.id = id then some f else none := by
  by_cases h : f.id = id <;> simp [lastOf, h]

theorem lastOf_cons (f : MachineFunction) (fs : List MachineFunction) (id : FuncId) :
    lastOf (f :: fs) id = (lastOf fs id).or (if f.id = id then some f else none) := by
  rw [← lastOf_singleton]
  exact lastOf_append [f] fs id

theorem isSome_lastOf : (lastOf fs id).isSome = true ↔ id ∈ fs.map (·.id) := by
  simp [lastOf]

theorem lastOf_superseded {f : MachineFunction} {gs : List MachineFunction}
    (h : f.id ∈ gs.map (·.id)) : lastOf (fs ++ f :: gs) = lastOf (fs ++ gs) := by
  funext id
  rw [lastOf_append, lastOf_append, lastOf_cons]
  by_cases hid : f.id = id
  · rw [hid, ← isSome_lastOf] at h
    obtain ⟨g, hg⟩ := Option.isSome_iff_exists.1 h
    simp only [hg, Option.some_or]
  · rw [if_neg hid, Option.or_none]

theorem lastOf_perm {gs : List MachineFunction} (h : gs.Perm fs) (hn : (fs.map (·.id)).Nodup) :
    lastOf gs = lastOf fs := by
  have hmem {fs : List MachineFunction} (hn : (fs.map (·.id)).Nodup) (id : FuncId)
      (f : MachineFunction) : lastOf fs id = some f ↔ f ∈ fs ∧ f.id = id := by
    constructor
    · intro hlast
      have hid : f.id = id := by simpa using List.find?_some hlast
      exact ⟨List.mem_reverse.1 (List.mem_of_find?_eq_some hlast), hid⟩
    · rintro ⟨hf, rfl⟩
      obtain ⟨g, hg⟩ := Option.isSome_iff_exists.1 (isSome_lastOf.2 (List.mem_map_of_mem hf))
      have hgf : g.id = f.id := by simpa using List.find?_some hg
      have hgs := List.mem_reverse.1 (List.mem_of_find?_eq_some hg)
      rw [hg, List.inj_on_of_nodup_map hn hgs hf hgf]
  funext id
  refine Option.ext fun f => ?_
  rw [hmem hn, hmem ((h.map _).nodup_iff.2 hn), h.mem_iff]

end MachineFunction

/-- A record as the emission of a function under some settings commits it. -/
def FunctionRecord.DraftOf (r : FunctionRecord) (config : Config) (f : MachineFunction) : Prop :=
  ∃ block d, block.Fresh ∧ Draft.layOut .x86_64 config f { block } = .ok d ∧
    d.buffer.overflow = none ∧ r = d.commit f.id

namespace FunctionRecord.DraftOf

variable {r s : FunctionRecord} {config : Config} {f : MachineFunction}

theorem unresolved (h : r.DraftOf config f) : r.resolved = false := by
  obtain ⟨_, _, _, _, _, rfl⟩ := h
  rfl

theorem id (h : r.DraftOf config f) : r.id = f.id := by
  obtain ⟨_, _, _, _, _, rfl⟩ := h
  rfl

/-- The same version comes out the same, apart from the block in which it stands. -/
theorem agrees (h : r.DraftOf config f) (h' : s.DraftOf config f) : r.Agrees s := by
  obtain ⟨b, d, hfresh, hlay, hfits, rfl⟩ := h
  obtain ⟨b', d', hfresh', hlay', hfits', rfl⟩ := h'
  have hb : CodeBuffer.Follows { block := b } { block := b' } := hfresh.follows hfresh'.contents
  obtain ⟨d'', hlay'', hd⟩ := Draft.layOut_follows rfl rfl hb hfresh'.intact hlay' hfits'
  obtain rfl : d = d'' := Except.ok.inj (hlay.symm.trans hlay'')
  exact (hd.agrees hfits).commit f.id

end FunctionRecord.DraftOf

namespace Emitter

variable {em em' em'' : Emitter} {f : MachineFunction} {fs : List MachineFunction}

structure Emits (em : Emitter) (fs : List MachineFunction) (em' : Emitter) : Prop where
  reachable : em'.Reachable
  surroundings : em.SameSurroundings em'
  unresolved : ∀ id r, em'.function? id = some r → r.resolved = false
  version : ∀ id f, MachineFunction.lastOf fs id = some f →
    ∃ r, em'.function? id = some r ∧ r.DraftOf em.config f
  absent : ∀ id, MachineFunction.lastOf fs id = none → em'.function? id = em.function? id

/-- As long as nothing is resolved, an emission leaves all other functions alone. -/
theorem emitFunction_others (hnew : ∀ id r, em.function? id = some r → r.resolved = false)
    {id : FuncId} (hid : id ≠ f.id) :
    (em.emitFunction f).1.function? id = em.function? id := by
  cases hd : em.patchedDependents f.id with
  | error e =>
    rw [emitFunction_of_error hd]
    rfl
  | ok ids =>
    obtain ⟨_, he, _⟩ := emitFunction_emission hd
    rw [he.others id hid]
    split
    · cases hr : em.function? id with
      | none => rfl
      | some r =>
        have hres := hnew id r hr
        have hsame : r.unpatched = r := by
          unfold FunctionRecord.unpatched
          rw [← hres]
        rw [Option.map_some, hsame]
    · rfl

theorem emits_emitFunction (h : em.Reachable)
    (hnew : ∀ id r, em.function? id = some r → r.resolved = false) {address : UInt64}
    (hok : (em.emitFunction f).2 = .ok address) : em.Emits [f] (em.emitFunction f).1 := by
  obtain ⟨block, d, hfresh, hlay, hfits, hfound, _⟩ := committed_of_emitFunction hok
  rw [h.target] at hlay
  have hdraft : (d.commit f.id).DraftOf em.config f :=
    ⟨block, d, hfresh, hlay, CodeBuffer.overflow_of_exhausted hfits, rfl⟩
  refine ⟨h.perform (.emit f), emitFunction_surroundings em f, ?_, ?_, ?_⟩
  · intro id r hr
    by_cases hid : id = f.id
    · subst hid
      rw [hfound] at hr
      cases hr
      rfl
    · rw [emitFunction_others hnew hid] at hr
      exact hnew id r hr
  · intro id g hg
    rw [MachineFunction.lastOf_singleton] at hg
    split at hg
    · rename_i hid
      cases hg
      subst hid
      exact ⟨_, hfound, hdraft⟩
    · cases hg
  · intro id hnone
    rw [MachineFunction.lastOf_singleton] at hnone
    split at hnone
    · cases hnone
    · rename_i hid
      exact emitFunction_others hnew (Ne.symm hid)

theorem Emits.trans (h : em.Emits [f] em') (h' : em'.Emits fs em'') : em.Emits (f :: fs) em'' := by
  refine ⟨h'.reachable, h.surroundings.trans h'.surroundings, h'.unresolved, ?_, ?_⟩
  · intro id g hg
    rw [MachineFunction.lastOf_cons] at hg
    cases hlast : MachineFunction.lastOf fs id with
    | some g' =>
      rw [hlast] at hg
      cases hg
      have hversion := h'.version id g hlast
      rwa [h.surroundings.config] at hversion
    | none =>
      rw [hlast, Option.none_or] at hg
      rw [h'.absent id hlast]
      refine h.version id g ?_
      rw [MachineFunction.lastOf_cons]
      exact hg
  · intro id hnone
    rw [MachineFunction.lastOf_cons, Option.or_eq_none_iff] at hnone
    rw [h'.absent id hnone.1]
    refine h.absent id ?_
    rw [MachineFunction.lastOf_cons]
    exact hnone.2

theorem emits_emitAll (h : em.Reachable)
    (hnew : ∀ id r, em.function? id = some r → r.resolved = false)
    (he : em.emitAll fs = (em', .ok ())) : em.Emits fs em' := by
  induction fs generalizing em with
  | nil =>
    cases he
    refine ⟨h, .refl _, hnew, ?_, fun _ _ => rfl⟩
    intro id g hg
    cases hg
  | cons f fs ih =>
    unfold emitAll at he
    split at he
    · rename_i em₁ address hstep
      have hok : (em.emitFunction f).2 = .ok address := congrArg Prod.snd hstep
      have hfirst := emits_emitFunction h hnew hok
      rw [hstep] at hfirst
      exact hfirst.trans (ih hfirst.reachable hfirst.unresolved he)
    · cases he
    · cases he

end Emitter

end CodeEmission
