import CodeEmission.Proofs.Decoding.References
import CodeEmission.Proofs.Emitter.Table
import CodeEmission.Proofs.Layout.References
import CodeEmission.Proofs.Versions.Retained

/-! # The log of a committed function

Until references are patched, the log of a function lists the instructions that refer to something, in
the order of the code. Each entry says what its instruction refers to and where the number for it
belongs, which is zero so far.
-/

namespace CodeEmission

open X86.Instruction

namespace Block

variable {b : Block} {offset : Nat}

theorem slice_of_append {xs ys zs : List UInt8} {length : Nat}
    (h : (b.slice offset length).toList = xs ++ ys ++ zs) :
    (b.slice (offset + xs.length) ys.length).toList = ys := by
  refine slice_eq_of_byteAt ?_
  intro i hi
  have hlen : (xs ++ ys ++ zs).length = length := by
    rw [← h, slice_eq_ofFn]
    simp
  rw [List.length_append, List.length_append] at hlen
  have hget : (xs ++ ys ++ zs)[xs.length + i]? = some (b.byteAt (offset + (xs.length + i))) := by
    rw [← h, Array.getElem?_toList, getElem?_slice, if_pos (by omega)]
  rw [List.append_assoc, List.getElem?_append_right (Nat.le_add_right _ _), Nat.add_sub_cancel_left,
    List.getElem?_append_left hi, List.getElem?_eq_getElem hi] at hget
  rw [Nat.add_assoc, Option.some.inj hget]

end Block

namespace FunctionRecord

variable {r r' : FunctionRecord} {f : MachineFunction}

/-- An entry of the log that belongs to the instruction `i` at `start`. The code has the bytes of the
instruction there, and the entry names its reference and the field for it, which is last if it is a
displacement. -/
structure Logs (r : FunctionRecord) (start : Nat) (i : X86.Instruction) (e : Relocation) : Prop where
  reference : i.reference? = some e.target
  pending : e.result = none
  code : (r.block.slice start i.encode.length).toList = i.encode
  zero : (r.block.slice e.offset e.kind.width).toList = List.replicate e.kind.width 0
  field : ∃ front back, e.offset = start + front.length ∧ i.FieldBetween e.kind.width front back
  inside : start ≤ e.offset ∧ e.fieldEnd ≤ start + i.encode.length
  last : e.kind = .pcRel32 → e.fieldEnd = start + i.encode.length

structure LogsAll (r : FunctionRecord) (f : MachineFunction) : Prop where
  entries : List.Forall₂ (fun p e => r.Logs p.1 p.2 e) (referencesFrom r.codeOffset f.instructions)
    r.relocations
  ascending : r.relocations.Pairwise fun e e' => e.offset < e'.offset
  apart : r.relocations.Pairwise fun e e' => e.fieldEnd ≤ e'.offset
  within : ∀ e ∈ r.relocations, r.codeOffset ≤ e.offset ∧ e.fieldEnd ≤ r.codeOffset + r.size

theorem SameCode.logsAll (h : r.SameCode r') (hr : r.LogsAll f) : r'.LogsAll f := by
  refine ⟨?_, ?_, ?_, ?_⟩
  · rw [h.relocations, h.codeOffset]
    refine hr.entries.imp ?_
    intro p e he
    exact { he with code := (h.slice _ _).symm ▸ he.code, zero := (h.slice _ _).symm ▸ he.zero }
  · rw [h.relocations]
    exact hr.ascending
  · rw [h.relocations]
    exact hr.apart
  · rw [h.relocations, h.codeOffset, h.size]
    exact hr.within

theorem logsAll_of_holds (h : r.Holds f)
    (hlog : r.relocations = relocationsFrom r.codeOffset f.instructions) : r.LogsAll f := by
  have hordered : r.relocations.Pairwise fun e e' => e.fieldEnd ≤ e'.offset :=
    hlog ▸ pairwise_relocationsFrom _ _
  refine ⟨?_, ?_, hordered, ?_⟩
  · rw [hlog]
    refine (relocationsFrom_loggedAt _ _).imp ?_
    rintro ⟨start, i⟩ e ⟨before, after, f', hsplit, hstart, hf, rfl⟩
    dsimp only at hsplit hstart hf ⊢
    obtain ⟨front, back, hoffset, hlast, hfield⟩ := exists_fieldBetween hf
    have hbytes : (r.block.slice r.codeOffset r.size).toList =
        encodeAll before ++ i.encode ++ encodeAll after := by
      have hcode : r.code.toList = encodeAll f.instructions := h.code
      rw [hsplit, encodeAll_append, encodeAll_cons, ← List.append_assoc] at hcode
      exact hcode
    have hcode : (r.block.slice start i.encode.length).toList = i.encode :=
      hstart ▸ Block.slice_of_append hbytes
    have hzero := Block.slice_of_append (hcode.trans hfield.zero)
    rw [List.length_replicate, ← hoffset] at hzero
    have hlen := congrArg List.length hfield.zero
    rw [List.length_append, List.length_append, List.length_replicate] at hlen
    have hend : (f'.relocationAt start).fieldEnd = start + (f'.offset + f'.kind.width) :=
      Nat.add_assoc _ _ _
    refine ⟨?_, rfl, hcode, hzero, ⟨front, back, congrArg (start + ·) hoffset, hfield⟩, ?_, ?_⟩
    · rw [reference?_eq_fixup?, hf]
      rfl
    · exact ⟨Nat.le_add_right _ _, by omega⟩
    · intro hk
      have hback : back.length = 0 := congrArg List.length (hlast hk)
      omega
  · refine hordered.imp ?_
    intro e e' hle
    have hwidth := e.kind.width_pos
    unfold Relocation.fieldEnd at hle
    omega
  · intro e he
    rw [hlog] at he
    have hin := field_of_mem_relocationsFrom he
    rw [h.size]
    exact hin

end FunctionRecord

namespace Emitter

variable {em : Emitter} {id : FuncId} {ops : List Operation} {r : FunctionRecord}

/-- As long as no pass is made, a version that stays has the code that it was committed with. -/
theorem RetainsAll.sameCode (hret : em.RetainsAll id ops) (hops : ∀ op ∈ ops, op ≠ .resolve)
    (hr : em.function? id = some r) : ∃ r', (em.run ops).function? id = some r' ∧ r.SameCode r' := by
  induction ops generalizing em r with
  | nil => exact ⟨r, hr, .refl r⟩
  | cons op ops ih =>
    obtain ⟨hfirst, hrest⟩ := hret
    obtain ⟨hop, hops⟩ := List.forall_mem_cons.1 hops
    obtain ⟨r₁, hr₁⟩ := Option.isSome_iff_exists.1 hfirst.present
    have hr₁ : (em.perform op).function? id = some r₁ := hr₁
    rcases em.perform_found hop id with hfound | ⟨f, address, hemit, hid, hok⟩
    · obtain ⟨r₀, hr₀, hsame⟩ := hfound r₁ hr₁
      cases hr.symm.trans hr₀
      obtain ⟨r', hr', hsame'⟩ := ih hrest hops hr₁
      exact ⟨r', hr', hsame.trans hsame'⟩
    · exact absurd hok (hfirst.not_replaced f hemit hid address)

/-- From the commitment of a function to the next pass its log lists the instructions that refer to
something, each with its reference and with the field for it. -/
theorem emitFunction_log {f : MachineFunction} {address : UInt64}
    (hok : (em.emitFunction f).2 = .ok address)
    (hret : (em.emitFunction f).1.RetainsAll f.id ops) (hops : ∀ op ∈ ops, op ≠ .resolve) :
    ∃ r, ((em.emitFunction f).1.run ops).function? f.id = some r ∧ r.LogsAll f := by
  obtain ⟨block, d, hfresh, hlay, hfits, hfound, _⟩ := committed_of_emitFunction hok
  obtain ⟨c, hc, he⟩ :=
    Draft.layOut_extends hfresh.intact hlay (CodeBuffer.overflow_of_exhausted hfits)
  have hlog : (d.commit f.id).relocations =
      relocationsFrom (d.commit f.id).codeOffset f.instructions := by
    have hstart : d.codeOffset = c.offset := he.codeOffset.trans hc.codeOffset
    have hentries := he.relocations
    rw [hc.relocations] at hentries
    change d.relocations.toList = relocationsFrom d.codeOffset f.instructions
    rw [hstart]
    exact hentries
  obtain ⟨r, hr, hsame⟩ := hret.sameCode hops hfound
  exact ⟨r, hr, hsame.logsAll (FunctionRecord.logsAll_of_holds (Draft.commit_holds hc he f.id) hlog)⟩

/-- A function that calls a symbol, jumps and loads a constant, after its buffer was made executable. -/
theorem emitFunction_log_jumping :
    let f : MachineFunction :=
      { id := ⟨0⟩, name := "f", blocks := [{ number := ⟨0⟩, insts :=
          [.callSymbol "g", .movRR .rax .r8, .jcc .e ⟨0⟩, .loadConst .r9 0, .ret] }] }
    ∃ r, (((new .x86_64 {} {} {}).emitFunction f).1.run [.makeExecutable ⟨0⟩]).function? ⟨0⟩ = some r ∧
      r.LogsAll f := by
  intro f
  have hok : ((new .x86_64 {} {} {}).emitFunction f).2 = .ok 0x1000000000 := by decide +kernel
  have hpresent : (((new .x86_64 {} {} {}).emitFunction f).1.perform
      (.makeExecutable ⟨0⟩)).functions.contains ⟨0⟩ = true := by decide +kernel
  exact emitFunction_log hok ⟨⟨hpresent, nofun⟩, trivial⟩ (by simp)

end Emitter

end CodeEmission
