import CodeEmission.Proofs.Batch.LastVersions
import CodeEmission.Proofs.Resolution.Distances
import CodeEmission.Proofs.Resolution.Progress

/-! # Two copies of a version

The same version of a function can be resolved in two emitters that differ in where functions stand. If
both know the same symbols and have the variables at the same places, the code comes out the same up to
the fields that depend on where functions stand: addresses of blocks, and whatever leads to a function.
-/

namespace CodeEmission

open List (Forall₂)

theorem forall₂_join {α β γ : Type} {R : α → β → Prop} {S : α → γ → Prop} {l : List α} {a : List β}
    {b : List γ} (h : Forall₂ R l a) (h' : Forall₂ S l b) :
    Forall₂ (fun x y => ∃ z ∈ l, R z x ∧ S z y) a b := by
  induction h generalizing b with
  | nil =>
    cases h'
    exact .nil
  | @cons z x l a hfirst _ ih =>
    cases h' with
    | @cons _ y _ b hfirst' hrest' =>
      refine .cons ⟨z, List.mem_cons_self, hfirst, hfirst'⟩ ((ih hrest').imp ?_)
      rintro x y ⟨w, hw, hxy⟩
      exact ⟨w, List.mem_cons_of_mem _ hw, hxy⟩

theorem ok_of_map {ε α β : Type} {x : Except ε α} {f : α → β} {b : β} (h : x.map f = .ok b) :
    ∃ a, x = .ok a ∧ f a = b := by
  cases x with
  | error e => cases h
  | ok a => exact ⟨a, rfl, Except.ok.inj h⟩

theorem rel_join {α β γ : Type} {R : α → β → Prop} {S : α → γ → Prop} {o : Option α} {a : Option β}
    {b : Option γ} (h : Option.Rel R o a) (h' : Option.Rel S o b) :
    Option.Rel (fun x y => ∃ z, R z x ∧ S z y) a b := by
  cases h with
  | none =>
    cases h'
    exact .none
  | some hfirst =>
    cases h' with
    | some hfirst' => exact .some ⟨_, hfirst, hfirst'⟩

inductive Relocation.Placed (m : Module) (e : Relocation) : Prop
  | block {b : BlockId} (kind : e.kind = .abs64) (target : e.target = .basicBlock b)
  | function {g : GlobalRef} {id : FuncId} (global : e.global? = some g)
    (reaches : m.Reaches g (.function id))

/-- What a reference of the log can be: an address that is written out, or a distance to something
near. -/
structure Relocation.Referable (e : Relocation) : Prop where
  absolute : e.kind = .abs64 → e.target.Addressable
  relative : e.kind = .pcRel32 → e.target.Near

theorem FunctionRecord.DraftOf.referable {r : FunctionRecord} {config : Config} {f : MachineFunction}
    (h : r.DraftOf config f) : ∀ e ∈ r.relocations, e.Referable := by
  intro e he
  obtain ⟨block, d, hfresh, hlay, hfits, rfl⟩ := h
  obtain ⟨c, hc, hx⟩ := Draft.layOut_extends hfresh.intact hlay hfits
  have hlog : e ∈ d.relocations.toList := he
  rw [hx.relocations, hc.relocations] at hlog
  have hmem : e ∈ X86.Instruction.relocationsFrom c.offset f.instructions := by simpa using hlog
  exact ⟨X86.Instruction.addressable_of_abs64 hmem, X86.Instruction.near_of_pcRel32 hmem⟩

namespace Relocation

variable {e : Relocation} {base base' address address' : UInt64} {bytes bytes' : List UInt8}

theorem fieldBytes_of_abs64 (hk : e.kind = .abs64) (h : e.fieldBytes base address = .ok bytes) :
    bytes = Bytes.littleEndian 8 address.toNat := by
  simp only [fieldBytes, hk] at h
  exact (Except.ok.inj h).symm

theorem fieldBytes_of_pcRel32 (hk : e.kind = .pcRel32) (h : e.fieldBytes base address = .ok bytes) :
    bytes = Bytes.littleEndian 4
      (address - (base + UInt64.ofNat e.fieldEnd)).toInt64.toUInt64.toUInt32.toNat := by
  simp only [fieldBytes, hk] at h
  split at h
  · cases h
  · rename_i distance hdistance
    split at h
    · rw [(distance_eq_ok.1 hdistance).2]
      exact (Except.ok.inj h).symm
    · cases h

/-- The distance to a part of the same function does not depend on where the function stands. -/
theorem distance_of_part (base base' : UInt64) (offset fieldEnd : Nat) :
    base' + UInt64.ofNat offset - (base' + UInt64.ofNat fieldEnd) =
      base + UInt64.ofNat offset - (base + UInt64.ofNat fieldEnd) := by
  have hsub (a b c : UInt64) : a + b - (a + c) = b - c := by grind
  rw [hsub, hsub]

end Relocation

namespace Emitter

variable {em em' : Emitter} {s s' r r' : FunctionRecord} {e : Relocation} {a a' : UInt64}
  {bytes bytes' : List UInt8}

/-- The same declarations and symbols, and the variables at the same places. -/
structure SameData (em em' : Emitter) : Prop where
  module : em'.module = em.module
  slots : em'.arena.slot? = em.arena.slot?
  symbols : ∀ name, em'.symbols.find? em'.host name = em.symbols.find? em.host name

theorem SameData.leads (h : em.SameData em') {g : GlobalRef} (ha : em.Leads g a)
    (ha' : em'.Leads g a') (hnot : ∀ id, ¬em.module.Reaches g (.function id)) : a' = a := by
  cases ha with
  | @function id _ ends _ => exact absurd (Module.destination_eq_function.1 ends) (hnot id)
  | «variable» ends placed =>
    cases ha' with
    | function ends' _ =>
      rw [h.module, ends] at ends'
      cases ends'
    | «variable» ends' placed' =>
      rw [h.module, ends] at ends'
      cases ends'
      rw [h.slots, placed] at placed'
      cases placed'
      rfl

theorem SameData.locates (h : em.SameData em') (hk : e.kind = .abs64)
    (htarget : e.target.Addressable) (ha : em.Locates s e a) (ha' : em'.Locates s' e a')
    (hnot : ¬e.Placed em.module) : a' = a := by
  have hglobal (g : GlobalRef) (hg : e.global? = some g) (id : FuncId) :
      ¬em.module.Reaches g (.function id) := fun hreach => hnot (.function hg hreach)
  obtain ⟨ht, hsymbol⟩ := ha
  obtain ⟨ht', hsymbol'⟩ := ha'
  unfold TargetsAt at ht ht'
  unfold Relocation.global? at hglobal
  generalize hname : e.target = target at *
  cases htarget with
  | symbol name =>
    have hfound := hsymbol' name rfl
    rw [h.symbols, hsymbol name rfl] at hfound
    exact (Option.some.inj hfound).symm
  | global g => exact h.leads ht ht' (hglobal g rfl)
  | indirect g => exact h.leads ht ht' (hglobal g rfl)
  | block b => exact absurd (.block hk hname) hnot

theorem exists_offset_of_near (hs : s.Agrees s') (htarget : e.target.Near) (ha : em.Locates s e a)
    (ha' : em'.Locates s' e a') (hnot : ¬e.Placed em.module) :
    ∃ offset, a = s.block.addressAt offset ∧ a' = s'.block.addressAt offset := by
  have hpart {place : Except EmitError Nat}
      (h : ∃ offset, place = .ok offset ∧ s.block.addressAt offset = a)
      (h' : ∃ offset, place = .ok offset ∧ s'.block.addressAt offset = a') :
      ∃ offset, a = s.block.addressAt offset ∧ a' = s'.block.addressAt offset := by
    obtain ⟨offset, hplace, rfl⟩ := h
    obtain ⟨_, hplace', rfl⟩ := h'
    obtain rfl := Except.ok.inj (hplace.symm.trans hplace')
    exact ⟨offset, rfl, rfl⟩
  obtain ⟨ht, _⟩ := ha
  obtain ⟨ht', _⟩ := ha'
  unfold TargetsAt at ht ht'
  have hglobal : ∀ g id, e.global? = some g → ¬em.module.Reaches g (.function id) :=
    fun g id hg hreach => hnot (.function hg hreach)
  unfold Relocation.global? at hglobal
  generalize e.target = target at *
  cases htarget with
  | call id => exact absurd (Module.destination_eq_function.1 rfl) (hglobal (.function id) id rfl)
  | block b =>
    have hoffset : s'.blockOffset b = s.blockOffset b := by
      simp only [FunctionRecord.blockOffset, hs.locations, hs.name]
    exact hpart (ok_of_map ht) (hoffset ▸ ok_of_map ht')
  | constant i => exact hpart (ok_of_map ht) (hs.layout ▸ ok_of_map ht')
  | table i =>
    exact hpart (FunctionRecord.jumpTableAddress_eq_ok ht)
      (hs.layout ▸ FunctionRecord.jumpTableAddress_eq_ok ht')

theorem SameData.fieldBytes (h : em.SameData em') (hs : s.Agrees s') (he : e.Referable)
    (ha : em.Locates s e a) (ha' : em'.Locates s' e a') (hnot : ¬e.Placed em.module)
    (hbytes : e.fieldBytes s.baseAddress a = .ok bytes)
    (hbytes' : e.fieldBytes s'.baseAddress a' = .ok bytes') : bytes' = bytes := by
  cases hk : e.kind with
  | abs64 =>
    obtain rfl := h.locates hk (he.absolute hk) ha ha' hnot
    rw [Relocation.fieldBytes_of_abs64 hk hbytes, Relocation.fieldBytes_of_abs64 hk hbytes']
  | pcRel32 =>
    obtain ⟨offset, rfl, rfl⟩ := exists_offset_of_near hs (he.relative hk) ha ha' hnot
    have hdistance :=
      Relocation.distance_of_part s.baseAddress s'.baseAddress offset e.fieldEnd
    rw [Relocation.fieldBytes_of_pcRel32 hk hbytes, Relocation.fieldBytes_of_pcRel32 hk hbytes']
    exact congrArg (fun d : UInt64 => Bytes.littleEndian 4 d.toInt64.toUInt64.toUInt32.toNat)
      hdistance

/-- The bytes of a resolved record from its code on are those of the stores into its fields. -/
theorem ResolvesTo.byteAt (hr : em.ResolvesTo s r) (hw : s.WellFormed) :
    ∃ stores, Forall₂ (Relocation.WrittenBy s.baseAddress s.codeEnd) r.relocations stores ∧
      em.Addressed s s.relocations r.relocations ∧
      ∀ i, s.codeOffset ≤ i → r.block.byteAt i = (s.block.storeAll stores).byteAt i := by
  obtain ⟨es, t, hes, hpatch, rfl⟩ := hr
  have hw' := hw.of_shape (.addressed hes.bare)
  rcases FunctionRecord.patch_cases hpatch with ⟨_, hne⟩ | ⟨_, rfl, hfault⟩
  · exact absurd rfl hne
  · rw [FunctionRecord.patchPlan_eq] at hfault ⊢
    obtain ⟨hrelocs, htables⟩ := Plan.andThen_fault_eq_none.1 hfault.symm
    refine ⟨_, Relocation.patchAll_written hrelocs, hes, ?_⟩
    intro i hi
    -- the slots of the tables lie before the code
    have hbefore : ∀ t ∈ (FunctionRecord.patchTables { s with relocations := es } .x86_64).stores,
        i < t.offset ∨ t.offset + t.bytes.length ≤ i :=
      fun t ht => .inr ((FunctionRecord.patchTables_before_code hw' htables ht).trans hi)
    rw [Plan.andThen_stores hrelocs]
    simp only [Block.storeAll, List.foldl_append]
    exact Block.byteAt_storeAll_outside hbefore

theorem exists_addresses (hw : s.WellFormed) {stores : List Store}
    (hes : em.Addressed s s.relocations r.relocations)
    (hstores : Forall₂ (Relocation.WrittenBy s.baseAddress s.codeEnd) r.relocations stores) :
    Forall₂ (fun e store => store.offset = e.offset ∧ e.fieldEnd ≤ s.codeEnd ∧ ∃ a,
      em.Locates s e a ∧ { e with result := some a } ∈ r.relocations ∧
        e.fieldBytes s.baseAddress a = .ok store.bytes) s.relocations stores := by
  refine (forall₂_join (Forall₂.flip hes) hstores).imp ?_
  rintro e store ⟨_, hmem, ⟨a, ha, rfl⟩, hwritten⟩
  have hplain : e.bare.Plain := by
    have hlogged := List.mem_map_of_mem (f := Relocation.bare) hmem
    rw [hes.bare] at hlogged
    exact hw.plain e.bare hlogged
  obtain ⟨address, haddress, hbytes⟩ := hwritten.bytes
  have hresult : { e with result := some a }.address? = some a :=
    Relocation.address?_of_plain (e := { e with result := some a }) hplain
  obtain rfl := Option.some.inj (hresult.symm.trans haddress)
  exact ⟨hwritten.offset, hwritten.le_limit, a, ha, hmem, hbytes⟩

/-- The stores into the fields of two copies differ only in what depends on where functions stand. -/
theorem SameData.stores_alike (h : em.SameData em') (hs : s.Agrees s') (hw : s.WellFormed)
    (hw' : s'.WellFormed) (href : ∀ e ∈ s.relocations, e.Referable) {ss ts : List Store}
    (hes : em.Addressed s s.relocations r.relocations)
    (hes' : em'.Addressed s' s'.relocations r'.relocations)
    (hss : Forall₂ (Relocation.WrittenBy s.baseAddress s.codeEnd) r.relocations ss)
    (hts : Forall₂ (Relocation.WrittenBy s'.baseAddress s'.codeEnd) r'.relocations ts) {i : Nat}
    (hnot : ∀ e ∈ r.relocations, e.Placed em.module → ¬(e.offset ≤ i ∧ i < e.fieldEnd)) :
    Forall₂ (Block.Alike s.codeEnd i) ss ts := by
  have haddresses := exists_addresses hw hes hss
  have haddresses' := exists_addresses hw' hes' hts
  rw [← hs.relocations] at haddresses'
  refine (forall₂_join haddresses haddresses').imp ?_
  rintro st st' ⟨e, he, ⟨hoffset, hle, a, ha, hmem, hok⟩, ⟨hoffset', _, a', ha', _, hok'⟩⟩
  have hlength := Relocation.length_fieldBytes hok
  have hlength' := Relocation.length_fieldBytes hok'
  refine ⟨hoffset'.trans hoffset.symm, hlength'.trans hlength.symm, ?_, ?_⟩
  · rw [hoffset, hlength]
    exact hle
  · intro hfrom hto
    rw [hoffset] at hfrom hto
    rw [hlength] at hto
    refine h.fieldBytes hs (href e he) ha ha' ?_ hok hok'
    intro hplaced
    have hplaced' : Relocation.Placed em.module { e with result := some a } := by
      cases hplaced with
      | block kind target => exact .block kind target
      | function global reaches => exact .function global reaches
    exact hnot _ hmem hplaced' ⟨hfrom, hto⟩

/-- In the code of two copies of a version there are the same bytes outside of the fields that depend on
where functions stand. -/
theorem SameData.byteAt (h : em.SameData em') (hs : s.Agrees s') (hw : s.WellFormed)
    (hw' : s'.WellFormed) (href : ∀ e ∈ s.relocations, e.Referable) (hr : em.ResolvesTo s r)
    (hr' : em'.ResolvesTo s' r') {i : Nat} (hstart : s.codeOffset ≤ i) (hend : i < s.codeEnd)
    (hnot : ∀ e ∈ r.relocations, e.Placed em.module → ¬(e.offset ≤ i ∧ i < e.fieldEnd)) :
    r'.block.byteAt i = r.block.byteAt i := by
  obtain ⟨ss, hss, hes, hbytes⟩ := hr.byteAt hw
  obtain ⟨ts, hts, hes', hbytes'⟩ := hr'.byteAt hw'
  have hcodeEnd : s'.codeEnd = s.codeEnd := by
    rw [FunctionRecord.codeEnd, FunctionRecord.codeEnd, hs.codeOffset, hs.size]
  have hbuffer : s'.block.slice 0 s.codeEnd = s.block.slice 0 s.codeEnd := by
    have hbuffer := hs.buffer
    unfold FunctionRecord.buffer at hbuffer
    rw [hcodeEnd] at hbuffer
    exact hbuffer.symm
  have hbefore := Block.byteAt_of_slice hbuffer hend
  rw [Nat.zero_add] at hbefore
  have halike := h.stores_alike hs hw hw' href hes hes' hss hts hnot
  rw [hbytes i hstart, hbytes' i (hs.codeOffset ▸ hstart)]
  exact Block.byteAt_storeAll_alike halike hw.codeEnd_le (hcodeEnd ▸ hw'.codeEnd_le) hbefore

end Emitter

end CodeEmission
