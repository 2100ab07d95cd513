import CodeEmission.Emitter.References

/-! # Emission

Laying out a function and committing it. The size of the buffer is a guess; as long as the function
does not fit, the attempt is thrown away and repeated with twice the space, until the host has no
block of that size.
-/

namespace CodeEmission.Emitter

def nextSize (em : Emitter) : Nat :=
  if em.sizeEstimate = 0 then max em.config.initialBufferSize.toNat 1 else em.sizeEstimate

def commit (em : Emitter) (f : MachineFunction) (d : Draft) : Emitter × UInt64 :=
  let record := d.commit f.id
  let address := record.codeAddress
  let em := em.report (.committed record.name record.size address record.relocations.length)
  let em := if em.functions.contains f.id then em.report (.replaced f.id) else em
  ({ em with
      stats :=
        { em.stats with
          functions := em.stats.functions + 1
          relocations := em.stats.relocations + record.relocations.length
          codeBytes := em.stats.codeBytes + record.size }
      functions := em.functions.insert f.id record
      sizeEstimate := 0
      state := .committed },
    address)

/-- The state after a draft of a function did not fit into a buffer. An earlier version of the
function is dropped. -/
def discard (em : Emitter) (f : MachineFunction) (capacity : Nat) : Emitter :=
  let em := em.report (.retrying f.name capacity (Word.mulSat capacity 2))
  { em with
    functions := em.functions.erase f.id
    sizeEstimate := Word.mulSat capacity 2
    stats := { em.stats with retries := em.stats.retries + 1 } }

/-- The requests that a host can still meet after one of a given size. -/
def headroom (size : Nat) : Nat := 2 * Host.maxBlockSize + 1 - size

theorem le_roundToPages (size : Nat) : size ≤ Host.roundToPages size := by
  simp only [Host.roundToPages, Host.pageSize]
  omega

theorem size_of_map {host host' : Host} {size : Nat} {block : Block}
    (h : host.map size = .ok (block, host')) :
    0 < size ∧ size ≤ block.size ∧ block.size ≤ Host.maxBlockSize := by
  unfold Host.map at h
  split at h
  · cases h
  · rename_i h0
    dsimp only at h
    split at h
    · cases h
    · rename_i h1
      cases h
      exact ⟨Nat.pos_of_ne_zero fun h2 => h0 (Or.inl h2), le_roundToPages size, Nat.not_lt.1 h1⟩

theorem mulSat_of_map {host host' : Host} {size : Nat} {block : Block}
    (h : host.map size = .ok (block, host')) : Word.mulSat block.size 2 = block.size * 2 := by
  have hle := (size_of_map h).2.2
  refine Nat.min_eq_left ?_
  simp only [Host.maxBlockSize] at hle
  simp only [Word.largest, Word.modulus]
  omega

/-- After a failed attempt less headroom is left. -/
theorem headroom_lt {host host' : Host} {size : Nat} {block : Block}
    (h : host.map size = .ok (block, host')) :
    headroom (Word.mulSat block.size 2) < headroom size := by
  obtain ⟨h0, h1, h2⟩ := size_of_map h
  rw [mulSat_of_map h]
  simp only [headroom, Host.maxBlockSize] at *
  omega

/-- Tries buffers from the given size on until the function fits. -/
def attempt (em : Emitter) (f : MachineFunction) (size : Nat) : Emitter × Except EmitError UInt64 :=
  match h : em.host.map size with
  | .error e => (em, .error (.memory e))
  | .ok (block, host) =>
    let em := { em with host }
    match Draft.layOut em.target em.config f { block } with
    | .error failure => (em.reportAll failure.log, .error failure.error)
    | .ok d =>
      let em := em.reportAll d.events
      if d.buffer.exhausted then
        (em.discard f block.size).attempt f (Word.mulSat block.size 2)
      else
        let (em, address) := em.commit f d
        (em, .ok address)
termination_by headroom size
decreasing_by exact headroom_lt h

/-- Emits a function, with what comes before and after the attempts. Nothing comes after one that is
cut off. -/
def replace (em : Emitter) (f : MachineFunction) : Emitter × Except EmitError UInt64 :=
  match em.patchedDependents f.id with
  | .error e => (em, .error e)
  | .ok dependents =>
    let em := em.report (.emitting f.name f.id)
    match em.attempt f em.nextSize with
    | (em, .error (.crash step)) => (em, .error (.crash step))
    | (em, result) => (em.unresolveAll dependents, result)

/-- Emits a function and commits it in place of an earlier version; returns the address of its first
instruction. Functions patched with the address of the earlier version have to be patched again. -/
def emitFunction (em : Emitter) (f : MachineFunction) : Emitter × Except Failure UInt64 :=
  let (em, result) := em.replace f
  let em :=
    match result with
    | .ok _ => em
    | .error (.crash _) => { em with state := .emitting }
    | .error _ => { em with state := .idle, sizeEstimate := 0 }
  (em, em.check result)

end CodeEmission.Emitter
