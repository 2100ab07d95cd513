import CodeEmission.Proofs.Emitter.Table
import CodeEmission.Proofs.Versions.Pages
import CodeEmission.Proofs.Versions.Replacement

/-! # Addresses in use

The buffers of functions and the detached blocks take up ranges of addresses. The host hands out blocks
one behind the other, so that as long as it does not start over all of them lie before its next block.
An operation takes so little that where the host starts over it comes back to a smaller address.
-/

namespace CodeEmission

structure AddressRange where
  start : Nat
  length : Nat
  deriving DecidableEq, Repr

namespace AddressRange

variable {s t u : AddressRange}

def ending (s : AddressRange) : Nat := s.start + s.length

def Apart (s t : AddressRange) : Prop := s.ending ≤ t.start ∨ t.ending ≤ s.start

def Within (s t : AddressRange) : Prop := t.start ≤ s.start ∧ s.ending ≤ t.ending

theorem Within.apart (h : s.Within t) (ht : u.ending ≤ t.start) : s.Apart u :=
  .inr (ht.trans h.1)

end AddressRange

def Block.range (b : Block) : AddressRange := ⟨b.address.toNat, b.size⟩

namespace Host

variable {host : Host} {n : Nat}

theorem place_of_le (h : host.nextBlock.toNat + n ≤ Word.largest) : host.place n = host.nextBlock :=
  if_pos h

theorem place_of_lt (h : Word.largest < host.nextBlock.toNat + n) : host.place n = firstBlock :=
  if_neg (Nat.not_le_of_lt h)

end Host

namespace Block

theorem toNat_end (b : Block) :
    (b.address + UInt64.ofNat b.size).toNat = b.address.toNat + b.size := by
  have hend : b.address.toNat + b.size < 2 ^ 64 := Nat.lt_of_le_pred (by decide) b.end_le
  have hsize : (UInt64.ofNat b.size).toNat = b.size :=
    UInt64.toNat_ofNat_of_lt' ((Nat.le_add_left _ _).trans_lt hend)
  rw [UInt64.toNat_add, hsize]
  exact Nat.mod_eq_of_lt hend

end Block

namespace Emitter

variable {em em' em'' : Emitter} {m n : Nat} {r : FunctionRecord} {ops : List Operation}

/-- A range of addresses that is taken up by the buffer of a function or by a detached block. -/
inductive Occupies (em : Emitter) : AddressRange → Prop
  | function {id : FuncId} {r : FunctionRecord} (h : em.function? id = some r) :
    Occupies em r.block.range
  | detached {b : Block} (h : b ∈ em.detached) : Occupies em b.range

def Below (em : Emitter) : Prop :=
  ∀ s, em.Occupies s → s.ending ≤ em.host.nextBlock.toNat

/-- Nothing is taken from the host, and functions keep to buffers that are in use. -/
structure TakesNone (em em' : Emitter) : Prop where
  host : em'.host = em.host
  detached : em'.detached = em.detached
  functions : ∀ id r, em'.function? id = some r → em.Occupies r.block.range

namespace TakesNone

theorem occupied (h : em.TakesNone em') {s : AddressRange} (hs : em'.Occupies s) :
    em.Occupies s := by
  cases hs with
  | function hr => exact h.functions _ _ hr
  | detached hb => exact .detached (h.detached ▸ hb)

theorem of_functions (hhost : em'.host = em.host) (hdetached : em'.detached = em.detached)
    (hfunctions : em'.functions = em.functions) : em.TakesNone em' :=
  ⟨hhost, hdetached, fun id _ hr => .function ((congrArg (·.get? id) hfunctions).symm.trans hr)⟩

theorem of_found (hhost : em'.host = em.host) (hdetached : em'.detached = em.detached)
    (hfound : ∀ id, em.Found em' id) : em.TakesNone em' := by
  refine ⟨hhost, hdetached, ?_⟩
  intro id r' hr'
  obtain ⟨r, hr, hsame⟩ := hfound id r' hr'
  have hrange : r'.block.range = r.block.range := by
    rw [Block.range, Block.range, hsame.address, hsame.blockSize]
  exact hrange ▸ .function hr

theorem refl (em : Emitter) : em.TakesNone em := of_functions rfl rfl rfl

theorem trans (h : em.TakesNone em') (h' : em'.TakesNone em'') : em.TakesNone em'' where
  host := h'.host.trans h.host
  detached := h'.detached.trans h.detached
  functions id r hr := h.occupied (h'.functions id r hr)

end TakesNone

theorem globalAddress_takesNone (em : Emitter) (g : GlobalRef) :
    em.TakesNone (em.globalAddress g).1 := by
  unfold globalAddress
  split
  · exact .refl em
  · exact .refl em
  · unfold variableAddress
    split <;> exact .of_functions rfl rfl rfl

theorem targetAddress_takesNone (em : Emitter) (r : FunctionRecord) (t : RelocTarget) :
    em.TakesNone (em.targetAddress r t).1 := by
  cases t with
  | externalSymbol name =>
    simp only [targetAddress, symbolAddress]
    split <;> exact .of_functions rfl rfl rfl
  | globalValue g => exact globalAddress_takesNone em g
  | indirectSymbol g => exact globalAddress_takesNone em g
  | basicBlock b => exact .refl em
  | constantPool i => exact .refl em
  | jumpTable i => exact .refl em

theorem resolveTargets_takesNone (em : Emitter) (r : FunctionRecord) (relocs : List Relocation) :
    em.TakesNone (em.resolveTargets r relocs).1 := by
  fun_induction resolveTargets em r relocs with
  | case1 em => exact .refl em
  | case2 em reloc relocs _ em' relocs' fault hrest ih =>
    rw [hrest] at ih
    exact ih
  | case3 em reloc relocs _ em' e ha =>
    have hu := targetAddress_takesNone em r reloc.target
    rw [ha] at hu
    exact hu
  | case4 em reloc relocs _ em' address ha em1 em2 relocs' fault hrest ih =>
    have hu := targetAddress_takesNone em r reloc.target
    rw [ha] at hu
    rw [hrest] at ih
    have hreport : em'.TakesNone em1 := .of_functions rfl rfl rfl
    exact (hu.trans hreport).trans ih

theorem TakesNone.putRecord (h : em.TakesNone em') (hr : em.Occupies r.block.range) :
    em.TakesNone (em'.putRecord r) := by
  refine ⟨h.host, h.detached, ?_⟩
  intro id s hs
  rw [putRecord_function?] at hs
  split at hs
  · obtain ⟨_, _, rfl⟩ := Option.map_eq_some_iff.1 hs
    exact hr
  · exact h.functions id s hs

theorem tryResolve_takesNone (hr : em.Occupies r.block.range) :
    em.TakesNone (em.tryResolve r).1 := by
  have hu := resolveTargets_takesNone em r r.relocations
  unfold tryResolve
  split
  · rename_i hres
    rw [hres] at hu
    exact hu.putRecord hr
  · rename_i em₁ relocations hres
    rw [hres] at hu
    -- patching leaves the buffer where it is
    have hrange {r' : FunctionRecord} {fault : Option EmitError}
        (h : { r with relocations }.patch em₁.target = (r', fault)) :
        em.Occupies r'.block.range := by
      have hshape := (FunctionRecord.patch_shape h).1
      rw [Block.range, hshape.address, hshape.blockSize]
      exact hr
    split
    · rename_i hpatch
      exact hu.putRecord (hrange hpatch)
    · rename_i r' hpatch
      have hin := hrange hpatch
      have hput := hu.putRecord (r := { r' with resolved := true }) hin
      exact hput.trans (.of_functions rfl rfl rfl)

theorem afterFault_takesNone (em : Emitter) (id : FuncId) (fault : Option EmitError) :
    em.TakesNone (em.afterFault id fault) := by
  have hdetached : (em.afterFault id fault).detached = em.detached := by
    unfold afterFault
    split <;> rfl
  refine ⟨(em.afterFault_sameNames id fault).host, hdetached, ?_⟩
  intro j s hs
  rcases em.afterFault_function? id fault j with heq | ⟨_, heq⟩
  · exact .function (heq ▸ hs)
  · rw [heq] at hs
    obtain ⟨r, hr, rfl⟩ := Option.map_eq_some_iff.1 hs
    exact (Occupies.function hr : em.Occupies r.block.range)

theorem resolveFunction_takesNone (hr : em.Occupies r.block.range) :
    em.TakesNone (em.resolveFunction r).1 :=
  (tryResolve_takesNone hr).trans (afterFault_takesNone _ r.id _)

theorem resolveEach_takesNone (em : Emitter) (ids : List FuncId) :
    em.TakesNone (em.resolveEach ids).1 := by
  induction ids generalizing em with
  | nil => exact .refl em
  | cons id ids ih =>
    unfold resolveEach
    split
    · exact .refl em
    · rename_i r hr
      have hl := resolveFunction_takesNone (.function hr)
      split
      · rename_i hres
        rw [hres] at hl
        exact hl
      · rename_i hres
        rw [hres] at hl
        exact hl.trans (ih _)

theorem settle_takesNone (em : Emitter) (ids : List FuncId) (result : Except EmitError UInt64) :
    em.TakesNone (em.settle ids result) := by
  have hfound (id : FuncId) : em.Found (em.settle ids result) id :=
    found_of_dependents (settle_function? em ids result id)
  obtain ⟨functions, log, h⟩ := unresolveAll_eq em ids
  refine .of_found (settle_host em ids result) ?_ hfound
  rcases em.settle_cases ids result with ⟨_, _, _, hs⟩ | ⟨_, _, _, hs⟩
  · rw [hs]
  · rw [hs, h]

theorem deallocate_takesNone (em : Emitter) (id : FuncId) : em.TakesNone (em.deallocate id).1 := by
  have hsame : (em.deallocate id).1.host = em.host ∧
      (em.deallocate id).1.detached = em.detached := by
    cases hd : em.patchedDependents id with
    | error e =>
      rw [deallocate_of_error hd]
      exact ⟨rfl, rfl⟩
    | ok ids =>
      obtain ⟨functions, log, h⟩ := unresolveAll_eq (em.removed id) ids
      rw [deallocate_of_dependents hd, h]
      exact ⟨rfl, rfl⟩
  exact .of_found hsame.1 hsame.2 (em.deallocate_found id)

/-- The host hands out `n` bytes, in whole pages. They stand behind one another where it was, and all that
is new in use is among them, unless it has to start over. No detached block is given back. -/
structure Takes (n : Nat) (em em' : Emitter) : Prop where
  pages : Host.pageSize ∣ n
  next : em.host.nextBlock.toNat + n ≤ Word.largest →
    em'.host.nextBlock.toNat = em.host.nextBlock.toNat + n
  below : em.host.nextBlock.toNat + n ≤ Word.largest → em.Below → em'.Below
  wraps : Word.largest < em.host.nextBlock.toNat + n →
    em'.host.nextBlock.toNat ≤ Host.firstBlock.toNat + n
  kept : em.detached ⊆ em'.detached

theorem TakesNone.takes (h : em.TakesNone em') : Takes 0 em em' where
  pages := Nat.dvd_zero _
  next _ := congrArg (·.nextBlock.toNat) h.host
  below _ hb s hs := by
    rw [h.host]
    exact hb s (h.occupied hs)
  wraps hover := absurd hover (Nat.not_lt_of_le (Nat.le_pred_of_lt em.host.nextBlock.toNat_lt))
  kept := h.detached.symm ▸ List.Subset.refl _

theorem Takes.trans (h : Takes n em em') (h' : Takes m em' em'') :
    Takes (n + m) em em'' where
  pages := Nat.dvd_add h.pages h'.pages
  next hle := by
    have hfirst := h.next (by omega)
    rw [h'.next (by omega), hfirst, Nat.add_assoc]
  below hle hb := by
    have hfirst := h.next (by omega)
    exact h'.below (by omega) (h.below (by omega) hb)
  wraps hover := by
    rcases Nat.lt_or_ge Word.largest (em'.host.nextBlock.toNat + m) with hlast | hlast
    · have hend := h'.wraps hlast
      omega
    · -- the host has started over before
      have hend := h'.next hlast
      have hfirst : Word.largest < em.host.nextBlock.toNat + n := by
        by_contra hle
        have hstraight := h.next (Nat.le_of_not_lt hle)
        omega
      have hstart := h.wraps hfirst
      omega
  kept := List.Subset.trans h.kept h'.kept

/-- What little is taken leads to a smaller address if the host starts over. -/
theorem Takes.le_largest (h : Takes n em em') (hn : n ≤ 2 * Host.maxBlockSize)
    (hle : em.host.nextBlock ≤ em'.host.nextBlock) :
    em.host.nextBlock.toNat + n ≤ Word.largest := by
  by_contra hover
  have hend := h.wraps (Nat.lt_of_not_le hover)
  have hle : em.host.nextBlock.toNat ≤ em'.host.nextBlock.toNat := hle
  have hroom : Host.firstBlock.toNat + 4 * Host.maxBlockSize < Word.largest := by decide
  omega

theorem takes_of_map {size : Nat} {block : Block} {host : Host}
    (hmap : em.host.map size = .ok (block, host)) (hhost : em'.host = host)
    (hkept : em.detached ⊆ em'.detached)
    (hnew : ∀ s, em'.Occupies s → em.Occupies s ∨ s = block.range) :
    Takes block.size em em' := by
  obtain ⟨hplace, hbehind, hpages⟩ := Host.next_of_map hmap
  have hend : em'.host.nextBlock.toNat = block.address.toNat + block.size := by
    rw [hhost, hbehind, block.toNat_end]
  have hnext (hle : em.host.nextBlock.toNat + block.size ≤ Word.largest) :
      em'.host.nextBlock.toNat = em.host.nextBlock.toNat + block.size := by
    rw [hend, hplace, Host.place_of_le hle]
  refine ⟨hpages, hnext, ?_, ?_, hkept⟩
  · intro hle hb s hs
    rcases hnew s hs with hold | rfl
    · rw [hnext hle]
      exact (hb s hold).trans (Nat.le_add_right _ _)
    · exact hend.ge
  · intro hover
    rw [hend, hplace, Host.place_of_lt hover]

theorem Occupies.old_or_new {s t : AddressRange} (hs : em'.Occupies s)
    (hdetached : em'.detached = em.detached)
    (hfunctions : ∀ id r, em'.function? id = some r →
      em.function? id = some r ∨ r.block.range = t) : em.Occupies s ∨ s = t := by
  cases hs with
  | function hr => exact (hfunctions _ _ hr).imp_left .function
  | detached hb => exact .inl (.detached (hdetached ▸ hb))

/-- All attempts together take less than twice the largest block. -/
theorem attempt_takes (em : Emitter) (f : MachineFunction) (size : Nat) :
    ∃ n, (n = 0 ∨ n + size ≤ 2 * Host.maxBlockSize) ∧ Takes n em (em.attempt f size).1 := by
  fun_induction attempt em f size with
  | case1 em size e hmap => exact ⟨0, .inl rfl, (TakesNone.refl em).takes⟩
  | case2 em size block host hmap em1 failure hlay =>
    obtain ⟨_, hle, hmax⟩ := size_of_map hmap
    exact ⟨block.size, .inr (by omega),
      takes_of_map hmap rfl (List.Subset.refl _) fun s hs => hs.old_or_new rfl fun _ _ => .inl⟩
  | case3 em size block host hmap em1 d hlay em2 hex ih =>
    obtain ⟨_, hle, hmax⟩ := size_of_map hmap
    obtain ⟨n, hn, hrest⟩ := ih
    rw [mulSat_of_map hmap] at hn
    have hfirst : Takes block.size em (em2.discard f block.size) := by
      refine takes_of_map hmap rfl (List.Subset.refl _) fun s hs => hs.old_or_new rfl ?_
      intro id r hr
      rw [discard_function?] at hr
      split at hr
      · cases hr
      · exact .inl hr
    exact ⟨block.size + n, .inr (by omega), hfirst.trans hrest⟩
  | case4 em size block host hmap em1 d hlay em2 hex em3 address hcommit =>
    obtain ⟨_, hle, hmax⟩ := size_of_map hmap
    have hhost := commit_host em2 f d
    have hdetached := (commit_surroundings em2 f d).detached
    have hfound := commit_function? em2 f d
    rw [hcommit] at hhost hdetached hfound
    have hgrows := Draft.layOut_grows hlay
    have hrange : (d.commit f.id).block.range = block.range := by
      have haddress : d.buffer.block.address = block.address := hgrows.address
      have hcapacity : d.buffer.block.size = block.size := hgrows.capacity
      rw [Block.range, Block.range, ← haddress, ← hcapacity]
      rfl
    have hkept : em.detached ⊆ em3.detached := hdetached ▸ List.Subset.refl _
    refine ⟨block.size, .inr (by omega), takes_of_map hmap hhost hkept fun s hs => ?_⟩
    refine hs.old_or_new hdetached ?_
    intro id r hr
    rw [hfound] at hr
    split at hr
    · cases hr
      exact .inr hrange
    · exact .inl hr

theorem emitFunction_takes (em : Emitter) (f : MachineFunction) :
    ∃ n, n ≤ 2 * Host.maxBlockSize ∧ Takes n em (em.emitFunction f).1 := by
  cases hd : em.patchedDependents f.id with
  | error e =>
    rw [emitFunction_of_error hd]
    have hidle : em.TakesNone { em with state := .idle, sizeEstimate := 0 } :=
      .of_functions rfl rfl rfl
    exact ⟨0, Nat.zero_le _, hidle.takes⟩
  | ok ids =>
    have hreport : em.TakesNone (em.report (.emitting f.name f.id)) := .of_functions rfl rfl rfl
    obtain ⟨n, hn, hattempt⟩ :=
      attempt_takes (em.report (.emitting f.name f.id)) f em.nextSize
    rcases ha : (em.report (.emitting f.name f.id)).attempt f em.nextSize with ⟨em', result⟩
    rw [ha] at hattempt
    have hsettle := (em'.settle_takesNone ids result).takes
    have hall := (hreport.takes.trans hattempt).trans hsettle
    rw [Nat.zero_add, Nat.add_zero] at hall
    rw [emitFunction_of_attempt hd ha]
    exact ⟨n, by omega, hall⟩

/-- What the block for some space has to hold: at least one byte, and room to move up to an alignment
above the page size. -/
def paddedSize (size alignment : Nat) : Nat :=
  max size 1 + if Host.pageSize < alignment then alignment else 0

/-- A request for space asks for a block of the padded size, and puts it in front of the detached blocks.
It is cut off if the padded size is no word. -/
theorem allocateSpace_cases (em : Emitter) (size alignment : Nat) :
    (Word.largest < paddedSize size alignment ∧
      em.allocateSpace size alignment = (em, .error (.crash .sum))) ∨
    (∃ e, paddedSize size alignment ≤ Word.largest ∧
      em.host.map (paddedSize size alignment) = .error e ∧
      em.allocateSpace size alignment = (em, .error (.memory e))) ∨
    ∃ block host, em.host.map (paddedSize size alignment) = .ok (block, host) ∧
      (em.allocateSpace size alignment).1.host = host ∧
      (em.allocateSpace size alignment).1.detached = block :: em.detached ∧
      (em.allocateSpace size alignment).1.functions = em.functions ∧
      (em.allocateSpace size alignment).2 =
        .ok (UInt64.ofNat (Word.alignTo block.address.toNat (max alignment 1))) := by
  have hpadded : max size 1 + (if Host.pageSize < max alignment 1 then max alignment 1 else 0) =
      paddedSize size alignment := by
    have hlarge : Host.pageSize < max alignment 1 ↔ Host.pageSize < alignment := by
      simp only [Host.pageSize]
      omega
    have hmax : Host.pageSize < alignment → max alignment 1 = alignment := by omega
    rw [paddedSize]
    split
    · rw [if_pos (hlarge.1 ‹_›), hmax (hlarge.1 ‹_›)]
    · rw [if_neg fun h => absurd (hlarge.2 h) ‹_›]
  by_cases hword : paddedSize size alignment ≤ Word.largest
  · simp only [allocateSpace, Word.sum?, hpadded, if_pos hword]
    cases hmap : em.host.map (paddedSize size alignment) with
    | error e => exact .inr (.inl ⟨e, hword, rfl, rfl⟩)
    | ok p => exact .inr (.inr ⟨p.1, p.2, rfl, rfl, rfl, rfl, rfl⟩)
  · simp only [allocateSpace, Word.sum?, hpadded, if_neg hword]
    exact .inl ⟨Nat.lt_of_not_le hword, trivial⟩

theorem allocateSpace_takes (em : Emitter) (size alignment : Nat) :
    ∃ n, n ≤ 2 * Host.maxBlockSize ∧ Takes n em (em.allocateSpace size alignment).1 := by
  rcases em.allocateSpace_cases size alignment with
    ⟨_, heq⟩ | ⟨e, _, _, heq⟩ | ⟨block, host, hmap, hhost, hdetached, hfunctions, _⟩
  · rw [heq]
    exact ⟨0, Nat.zero_le _, (TakesNone.refl em).takes⟩
  · rw [heq]
    exact ⟨0, Nat.zero_le _, (TakesNone.refl em).takes⟩
  · obtain ⟨_, _, hmax⟩ := size_of_map hmap
    refine ⟨block.size, by omega, takes_of_map hmap hhost ?_ fun s hs => ?_⟩
    · rw [hdetached]
      exact List.subset_cons_self block em.detached
    cases hs with
    | function hr =>
      rw [function?, hfunctions] at hr
      exact .inl (.function hr)
    | detached hb =>
      rw [hdetached] at hb
      rcases List.mem_cons.1 hb with rfl | hb
      · exact .inr rfl
      · exact .inl (.detached hb)

/-- Every operation takes at most twice the largest block from the host. -/
theorem perform_takes (em : Emitter) (op : Operation) :
    ∃ n, n ≤ 2 * Host.maxBlockSize ∧ Takes n em (em.perform op) := by
  have hnone {em' : Emitter} (h : em.TakesNone em') :
      ∃ n, n ≤ 2 * Host.maxBlockSize ∧ Takes n em em' := ⟨0, Nat.zero_le _, h.takes⟩
  cases op with
  | emit f => exact em.emitFunction_takes f
  | deallocate id => exact hnone (em.deallocate_takesNone id)
  | resolve =>
    have hpass := em.resolveEach_takesNone em.pending
    rw [← resolveRelocations_fst] at hpass
    exact hnone hpass
  | globalAddress g => exact hnone (em.globalAddress_takesNone g)
  | allocateSpace size alignment => exact em.allocateSpace_takes size alignment
  | makeExecutable id => exact hnone (.of_found rfl rfl (em.makeExecutable_found id))
  | addGlobal g => exact hnone (.of_functions rfl rfl rfl)
  | addAlias a => exact hnone (.of_functions rfl rfl rfl)
  | defineSymbol name address => exact hnone (.of_functions rfl rfl rfl)
  | setSink sink => exact hnone (.of_functions rfl rfl rfl)

/-- The host has addresses left for some operations: its next address never starts over. -/
def AddressesLast : Emitter → List Operation → Prop
  | _, [] => True
  | em, op :: ops =>
    em.host.nextBlock ≤ (em.perform op).host.nextBlock ∧ (em.perform op).AddressesLast ops

theorem addressesLast_append (em : Emitter) (ops ops' : List Operation) :
    em.AddressesLast (ops ++ ops') ↔ em.AddressesLast ops ∧ (em.run ops).AddressesLast ops' := by
  induction ops generalizing em with
  | nil => simp [AddressesLast, run]
  | cons op ops ih =>
    rw [List.cons_append, AddressesLast, AddressesLast, ih, and_assoc]
    rfl

structure Compact (em : Emitter) : Prop where
  page : Host.pageSize ∣ em.host.nextBlock.toNat
  below : em.Below

theorem Compact.perform (h : em.Compact) (op : Operation)
    (hle : em.host.nextBlock ≤ (em.perform op).host.nextBlock) : (em.perform op).Compact := by
  obtain ⟨n, hn, htakes⟩ := em.perform_takes op
  have hlast := htakes.le_largest hn hle
  refine ⟨?_, htakes.below hlast h.below⟩
  rw [htakes.next hlast]
  exact Nat.dvd_add h.page htakes.pages

theorem Compact.run (h : em.Compact) (hlast : em.AddressesLast ops) : (em.run ops).Compact := by
  induction ops generalizing em with
  | nil => exact h
  | cons op ops ih => exact ih (h.perform op hlast.1) hlast.2

theorem compact_new {host : Host} (h : Host.pageSize ∣ host.nextBlock.toNat) (target : Target)
    (module : Module) (config : Config) (sink : Sink) :
    (new target module config host sink).Compact := by
  refine ⟨h, ?_⟩
  intro s hs
  cases hs with
  | function hr => cases hr
  | detached hb => cases hb

theorem run_detached (em : Emitter) (ops : List Operation) :
    em.detached ⊆ (em.run ops).detached := by
  induction ops generalizing em with
  | nil => exact List.Subset.refl _
  | cons op ops ih =>
    obtain ⟨_, _, htakes⟩ := em.perform_takes op
    exact List.Subset.trans htakes.kept (ih (em.perform op))

/-- Addresses last for any operations whose blocks, all of the largest size, would fit behind the
host. -/
theorem addressesLast_of_le
    (h : em.host.nextBlock.toNat + ops.length * (2 * Host.maxBlockSize) ≤ Word.largest) :
    em.AddressesLast ops := by
  induction ops generalizing em with
  | nil => trivial
  | cons op ops ih =>
    obtain ⟨n, hn, htakes⟩ := em.perform_takes op
    rw [List.length_cons, Nat.succ_mul] at h
    have hnext := htakes.next (by omega)
    refine ⟨?_, ih (by omega)⟩
    rw [UInt64.le_iff_toNat_le]
    omega

end Emitter

end CodeEmission
