import Mathlib.Data.List.Nodup
import CodeEmission.Proofs.Layout.Steps

/-! # The stream of instructions

What a stream of instructions leaves behind in a draft whose buffer takes all of it: the encodings
one after another, the relocations and labels at the offsets where the instructions start, and every
block at the place of its first instruction.
-/

namespace CodeEmission

namespace X86.Instruction

def encodeAll (is : List Instruction) : List UInt8 := is.flatMap encode

/-- The log entries of a stream that starts at `start`. -/
def relocationsFrom (start : Nat) : List Instruction → List Relocation
  | [] => []
  | i :: is =>
    (i.fixup?.map (·.relocationAt start)).toList ++ relocationsFrom (start + i.encode.length) is

def labelsFrom (start : Nat) : List Instruction → List (LabelId × Nat)
  | [] => []
  | i :: is => (i.label?.map (·, start)).toList ++ labelsFrom (start + i.encode.length) is

@[simp] theorem encodeAll_nil : encodeAll [] = [] := rfl

@[simp] theorem encodeAll_cons (i : Instruction) (is : List Instruction) :
    encodeAll (i :: is) = i.encode ++ encodeAll is := rfl

@[simp] theorem encodeAll_append (is js : List Instruction) :
    encodeAll (is ++ js) = encodeAll is ++ encodeAll js := List.flatMap_append

theorem relocationsFrom_append (start : Nat) (is js : List Instruction) :
    relocationsFrom start (is ++ js) =
      relocationsFrom start is ++ relocationsFrom (start + (encodeAll is).length) js := by
  induction is generalizing start with
  | nil => rfl
  | cons i is ih => simp [relocationsFrom, ih, Nat.add_assoc]

theorem labelsFrom_append (start : Nat) (is js : List Instruction) :
    labelsFrom start (is ++ js) =
      labelsFrom start is ++ labelsFrom (start + (encodeAll is).length) js := by
  induction is generalizing start with
  | nil => rfl
  | cons i is ih => simp [labelsFrom, ih, Nat.add_assoc]

theorem map_fst_labelsFrom (start : Nat) (is : List Instruction) :
    (labelsFrom start is).map (·.1) = is.filterMap label? := by
  induction is generalizing start with
  | nil => rfl
  | cons i is ih => cases hl : i.label? <;> simp [labelsFrom, hl, ih]

theorem mem_labelsFrom (start : Nat) (is js : List Instruction) (l : LabelId) :
    (l, start + (encodeAll is).length) ∈ labelsFrom start (is ++ .label l :: js) := by
  rw [labelsFrom_append]
  exact List.mem_append_right _ (by simp [labelsFrom, label?])

end X86.Instruction

namespace MachineBlock

def startsFrom (start : Nat) : List MachineBlock → List (BlockId × Nat)
  | [] => []
  | b :: bs =>
    (b.number, start) :: startsFrom (start + (X86.Instruction.encodeAll b.insts).length) bs

theorem startsFrom_append (start : Nat) (bs cs : List MachineBlock) :
    startsFrom start (bs ++ cs) = startsFrom start bs ++
      startsFrom (start + (X86.Instruction.encodeAll (bs.flatMap (·.insts))).length) cs := by
  induction bs generalizing start with
  | nil => rfl
  | cons b bs ih => simp [startsFrom, ih, Nat.add_assoc]

theorem map_fst_startsFrom (start : Nat) (bs : List MachineBlock) :
    (startsFrom start bs).map (·.1) = bs.map (·.number) := by
  induction bs generalizing start with
  | nil => rfl
  | cons b bs ih => simp [startsFrom, ih]

theorem le_of_mem_startsFrom {start : Nat} {bs : List MachineBlock} {b : BlockId} {o : Nat}
    (h : (b, o) ∈ startsFrom start bs) :
    o ≤ start + (X86.Instruction.encodeAll (bs.flatMap (·.insts))).length := by
  induction bs generalizing start with
  | nil => cases h
  | cons first bs ih =>
    rw [List.flatMap_cons, X86.Instruction.encodeAll_append, List.length_append]
    rcases List.mem_cons.1 h with heq | h
    · cases heq
      exact Nat.le_add_right _ _
    · have hi := ih h
      omega

end MachineBlock

namespace MachineFunction

def instructions (f : MachineFunction) : List X86.Instruction := f.blocks.flatMap (·.insts)

def encode (f : MachineFunction) : List UInt8 := X86.Instruction.encodeAll f.instructions

end MachineFunction

namespace Draft

open X86.Instruction

variable {c d e : Draft}

/-- `e` is `d` with a stream of instructions and some block starts added, nothing of it dropped. -/
structure Extends (d : Draft) (is : List X86.Instruction) (starts : List (BlockId × Nat))
    (e : Draft) : Prop where
  grows : d.buffer.Grows e.buffer
  function : e.function = d.function
  codeOffset : e.codeOffset = d.codeOffset
  layout : e.layout = d.layout
  code : e.buffer.code = d.buffer.code ++ (encodeAll is).toArray
  relocations : e.relocations.toList = d.relocations.toList ++ relocationsFrom d.offset is
  block? : ∀ b o, e.locations.block? b = some o ↔ d.locations.block? b = some o ∨ (b, o) ∈ starts
  label? : ∀ l o, e.locations.label? l = some o ↔
    d.locations.label? l = some o ∨ (l, o) ∈ labelsFrom d.offset is
  blocks_nodup : (starts.map (·.1)).Nodup
  blocks_new : ∀ s ∈ starts, d.locations.block? s.1 = none
  labels_nodup : ((labelsFrom d.offset is).map (·.1)).Nodup
  labels_new : ∀ s ∈ labelsFrom d.offset is, d.locations.label? s.1 = none

namespace Extends

variable {is js : List X86.Instruction} {s t : List (BlockId × Nat)}

theorem offset (h : d.Extends is s e) : e.offset = d.offset + (encodeAll is).length := by
  have hs := congrArg Array.size h.code
  rwa [Array.size_append, List.size_toArray] at hs

theorem refl (d : Draft) : d.Extends [] [] d where
  grows := .refl _
  function := rfl
  codeOffset := rfl
  layout := rfl
  code := by simp
  relocations := by simp [relocationsFrom]
  block? := by simp
  label? := by simp [labelsFrom]
  blocks_nodup := List.nodup_nil
  blocks_new := by simp
  labels_nodup := List.nodup_nil
  labels_new := by simp [labelsFrom]

private theorem nodup_append {α : Type} {find : α → Option Nat} {xs ys : List (α × Nat)}
    (hx : (xs.map (·.1)).Nodup) (hy : (ys.map (·.1)).Nodup)
    (hfind : ∀ x ∈ xs, find x.1 = some x.2) (hnew : ∀ y ∈ ys, find y.1 = none) :
    ((xs ++ ys).map (·.1)).Nodup := by
  rw [List.map_append, List.nodup_append']
  refine ⟨hx, hy, ?_⟩
  intro a ha hb
  obtain ⟨x, hxm, rfl⟩ := List.mem_map.1 ha
  obtain ⟨y, hym, hyx⟩ := List.mem_map.1 hb
  have hn := hnew y hym
  rw [hyx, hfind x hxm] at hn
  cases hn

private theorem eq_none_of_iff {α : Type} {f g : α → Option Nat} {xs : List (α × Nat)}
    (h : ∀ a o, g a = some o ↔ f a = some o ∨ (a, o) ∈ xs) {a : α} (ha : g a = none) :
    f a = none := by
  cases hf : f a with
  | none => rfl
  | some o =>
    have hg := (h a o).2 (.inl hf)
    rw [ha] at hg
    cases hg

theorem trans (h : c.Extends is s d) (h' : d.Extends js t e) : c.Extends (is ++ js) (s ++ t) e where
  grows := h.grows.trans h'.grows
  function := h'.function.trans h.function
  codeOffset := h'.codeOffset.trans h.codeOffset
  layout := h'.layout.trans h.layout
  code := by rw [h'.code, h.code]; simp
  relocations := by
    rw [h'.relocations, h.relocations, relocationsFrom_append, h.offset, List.append_assoc]
  block? b o := by rw [h'.block?, h.block?, List.mem_append, or_assoc]
  label? l o := by rw [h'.label?, h.label?, labelsFrom_append, List.mem_append, h.offset, or_assoc]
  blocks_nodup :=
    nodup_append h.blocks_nodup h'.blocks_nodup (fun x hx => (h.block? x.1 x.2).2 (.inr hx))
      h'.blocks_new
  blocks_new := by
    intro x hx
    rcases List.mem_append.1 hx with hx | hx
    · exact h.blocks_new x hx
    · exact eq_none_of_iff h.block? (h'.blocks_new x hx)
  labels_nodup := by
    rw [labelsFrom_append, ← h.offset]
    exact nodup_append h.labels_nodup h'.labels_nodup (fun x hx => (h.label? x.1 x.2).2 (.inr hx))
      h'.labels_new
  labels_new := by
    intro x hx
    rw [labelsFrom_append, ← h.offset] at hx
    rcases List.mem_append.1 hx with hx | hx
    · exact h.labels_new x hx
    · exact eq_none_of_iff h.label? (h'.labels_new x hx)

theorem label?_eq_none (h : d.Extends is s e) {l : LabelId} (hold : d.locations.label? l = none)
    (hl : l ∉ is.filterMap X86.Instruction.label?) : e.locations.label? l = none := by
  cases hfound : e.locations.label? l with
  | none => rfl
  | some o =>
    rcases (h.label? l o).1 hfound with hd | hadded
    · rw [hold] at hd
      cases hd
    · have hmem := List.mem_map_of_mem (f := (·.1)) hadded
      rw [map_fst_labelsFrom] at hmem
      exact absurd hmem hl

theorem block?_eq_none (h : d.Extends is s e) {b : BlockId} (hold : d.locations.block? b = none)
    (hb : b ∉ s.map (·.1)) : e.locations.block? b = none := by
  cases hfound : e.locations.block? b with
  | none => rfl
  | some o =>
    rcases (h.block? b o).1 hfound with hd | hadded
    · rw [hold] at hd
      cases hd
    · exact absurd (List.mem_map_of_mem (f := (·.1)) hadded) hb

end Extends

theorem startBlock_extends {block : BlockId} (h : d.startBlock block = .ok e) :
    d.Extends [] [(block, d.offset)] e := by
  obtain ⟨hc, rfl⟩ := startBlock_eq_ok.1 h
  have hnone : d.locations.blocks.get? block = none := by simpa [IdMap.contains] using hc
  refine { Extends.refl d with block? := ?_, blocks_nodup := ?_, blocks_new := ?_ }
  · intro b o
    simp only [Locations.block?, IdMap.get?_insert, List.mem_singleton, Prod.mk.injEq]
    by_cases hb : block = b
    · subst hb
      simp [hnone, eq_comm]
    · simp [hb, Ne.symm hb]
  · simp
  · simpa [Locations.block?] using hnone

theorem emit_extends {i : X86.Instruction} (hd : d.buffer.Intact) (h : d.emit i = .ok e)
    (he : e.buffer.overflow = none) : d.Extends [i] [] e := by
  rcases emit_cases i with ⟨l, rfl⟩ | ⟨line, col, rfl⟩ | ⟨hl, hi⟩
  · rw [emit_label, startLabel_eq_ok] at h
    obtain ⟨hc, rfl⟩ := h
    have hnone : d.locations.labels.get? l = none := by simpa [IdMap.contains] using hc
    refine { Extends.refl d with label? := ?_, labels_nodup := ?_, labels_new := ?_, .. }
    · intro b o
      simp only [Locations.label?, IdMap.get?_insert]
      by_cases hb : l = b
      · subst hb
        simp [hnone, labelsFrom, X86.Instruction.label?, eq_comm]
      · simp [hb, Ne.symm hb, labelsFrom, X86.Instruction.label?]
    · simp [labelsFrom, X86.Instruction.label?]
    · simpa [Locations.label?, labelsFrom, X86.Instruction.label?] using hnone
  · obtain ⟨debugLocs, hloc⟩ := startLoc_eq d { line, col }
    rw [emit_debugLoc, hloc] at h
    cases h
    exact { Extends.refl d with .. }
  · rw [hi] at h
    cases h
    have hcode := CodeBuffer.code_writeAll hd he
    refine { Extends.refl d with
      grows := CodeBuffer.writeAll_grows _ _
      code := ?_, relocations := ?_, label? := ?_, labels_nodup := ?_, labels_new := ?_ }
    · rw [encodeAll_cons, encodeAll_nil, List.append_nil, encode_eq_flatten]
      exact hcode
    · cases hf : i.fixup? <;> simp [writeCode, relocationsFrom, hf]
    · simp [labelsFrom, hl, writeCode]
    · simp [labelsFrom, hl]
    · simp [labelsFrom, hl]

theorem foldlM_emit_extends {is : List X86.Instruction} (hd : d.buffer.Intact)
    (h : is.foldlM emit d = .ok e) (he : e.buffer.overflow = none) : d.Extends is [] e := by
  induction is generalizing d with
  | nil =>
    cases h
    exact .refl _
  | cons i is ih =>
    obtain ⟨c, hc, hr⟩ := foldlM_emit_cons.1 h
    have hg := foldlM_emit_grows hr
    have hs := emit_extends hd hc (hg.overflow he)
    exact hs.trans (ih ((emit_grows hc).intact_right hd.writable (hg.overflow he)) hr)

theorem emitBlock_extends {b : MachineBlock} (hd : d.buffer.Intact) (h : d.emitBlock b = .ok e)
    (he : e.buffer.overflow = none) : d.Extends b.insts [(b.number, d.offset)] e := by
  obtain ⟨c, hc, hr⟩ := emitBlock_eq_ok.1 h
  have hs := startBlock_extends hc
  have hi : c.buffer.Intact :=
    hs.grows.intact_right hd.writable ((foldlM_emit_grows hr).overflow he)
  exact hs.trans (foldlM_emit_extends hi hr he)

/-- Blocks that fit as a whole leave the stream of their instructions. -/
theorem emitBlocks_extends {bs : List MachineBlock} (hd : d.buffer.Intact)
    (h : d.emitBlocks bs = .ok e) (he : e.buffer.overflow = none) :
    d.Extends (bs.flatMap (·.insts)) (MachineBlock.startsFrom d.offset bs) e := by
  induction bs generalizing d with
  | nil =>
    cases h
    exact .refl _
  | cons b bs ih =>
    obtain ⟨c, hc, hr⟩ := (emitBlocks_cons hd.overflow).1 h
    have hg := emitBlocks_grows hr
    have hs := emitBlock_extends hd hc (hg.overflow he)
    have ht := ih ((emitBlock_grows hc).intact_right hd.writable (hg.overflow he)) hr
    rw [hs.offset] at ht
    exact hs.trans ht

theorem overflow_of_emit {i : X86.Instruction} (hd : d.buffer.Intact)
    (hroom : d.offset + i.encode.length ≤ d.buffer.capacity) (h : d.emit i = .ok e) :
    e.buffer.overflow = none := by
  rcases emit_cases i with ⟨l, rfl⟩ | ⟨line, col, rfl⟩ | ⟨_, hi⟩
  · rw [emit_label, startLabel_eq_ok] at h
    rw [h.2]
    exact hd.overflow
  · obtain ⟨debugLocs, hloc⟩ := startLoc_eq d { line, col }
    rw [emit_debugLoc, hloc] at h
    cases h
    exact hd.overflow
  · rw [hi] at h
    cases h
    rw [encode_eq_flatten] at hroom
    exact CodeBuffer.writeAll_of_le hd hroom

theorem emit_step {i : X86.Instruction} (hd : d.buffer.Intact)
    (hroom : d.offset + (encodeAll (i :: is)).length ≤ d.buffer.capacity) (h : d.emit i = .ok e) :
    d.Extends [i] [] e ∧ e.buffer.Intact ∧
      e.offset + (encodeAll is).length ≤ e.buffer.capacity := by
  rw [encodeAll_cons, List.length_append] at hroom
  have ho := overflow_of_emit hd (by omega) h
  have hx := emit_extends hd h ho
  have hoffset := hx.offset
  rw [encodeAll_cons, encodeAll_nil, List.append_nil] at hoffset
  refine ⟨hx, hx.grows.intact_right hd.writable ho, ?_⟩
  rw [hx.grows.capacity]
  omega

theorem extends_of_room (hd : d.buffer.Intact)
    (hroom : d.offset + (encodeAll is).length ≤ d.buffer.capacity) (h : is.foldlM emit d = .ok e) :
    e.buffer.overflow = none ∧ d.Extends is [] e := by
  suffices ho : e.buffer.overflow = none from ⟨ho, foldlM_emit_extends hd h ho⟩
  induction is generalizing d with
  | nil =>
    cases h
    exact hd.overflow
  | cons i is ih =>
    obtain ⟨c, hc, hr⟩ := foldlM_emit_cons.1 h
    obtain ⟨_, hi, hrest⟩ := emit_step hd hroom hc
    exact ih hi hrest hr

theorem exists_foldlM_emit (hd : d.buffer.Intact)
    (hroom : d.offset + (encodeAll is).length ≤ d.buffer.capacity)
    (hnodup : (is.filterMap label?).Nodup)
    (hnew : ∀ l ∈ is.filterMap label?, d.locations.label? l = none) :
    ∃ e, is.foldlM emit d = .ok e := by
  induction is generalizing d with
  | nil => exact ⟨d, rfl⟩
  | cons i is ih =>
    have hfirst : ∃ c, d.emit i = .ok c := by
      rcases emit_cases i with ⟨l, rfl⟩ | ⟨line, col, rfl⟩ | ⟨_, hi⟩
      · have hl : d.locations.labels.get? l = none := hnew l List.mem_cons_self
        exact ⟨_, (emit_label d l).trans (startLabel_eq_ok.2 ⟨by simp [IdMap.contains, hl], rfl⟩)⟩
      · exact ⟨_, emit_debugLoc d line col⟩
      · exact ⟨_, hi d⟩
    obtain ⟨c, hc⟩ := hfirst
    obtain ⟨hx, hi, hrest⟩ := emit_step hd hroom hc
    have hlabels : (i :: is).filterMap label? = i.label?.toList ++ is.filterMap label? := by
      cases hl : i.label? <;> simp [hl]
    rw [hlabels, List.nodup_append'] at hnodup
    rw [hlabels] at hnew
    obtain ⟨hfirst, hlater, hdisjoint⟩ := hnodup
    have hsingle : [i].filterMap label? = i.label?.toList := by cases hl : i.label? <;> simp [hl]
    obtain ⟨e, he⟩ := ih hi hrest hlater fun l hl =>
      hx.label?_eq_none (hnew l (List.mem_append_right _ hl)) fun hmem =>
        hdisjoint (hsingle ▸ hmem) hl
    exact ⟨e, foldlM_emit_cons.2 ⟨c, hc, he⟩⟩

theorem exists_emitBlock {b : MachineBlock} (hd : d.buffer.Intact)
    (hroom : d.offset + (encodeAll b.insts).length ≤ d.buffer.capacity)
    (hnew : d.locations.block? b.number = none) (hlabels : (b.insts.filterMap label?).Nodup)
    (hnewLabels : ∀ l ∈ b.insts.filterMap label?, d.locations.label? l = none) :
    ∃ e, d.emitBlock b = .ok e ∧ e.buffer.Intact ∧ d.Extends b.insts [(b.number, d.offset)] e := by
  have hcontains : d.locations.blocks.contains b.number = false := by
    have hnone : d.locations.blocks.get? b.number = none := hnew
    simp [IdMap.contains, hnone]
  obtain ⟨c, hc⟩ : ∃ c, d.startBlock b.number = .ok c := ⟨_, startBlock_eq_ok.2 ⟨hcontains, rfl⟩⟩
  have hcx := startBlock_extends hc
  have hco : c.buffer.overflow = none := by
    rw [(startBlock_eq_ok.1 hc).2]
    exact hd.overflow
  have hci := hcx.grows.intact_right hd.writable hco
  have hroom' : c.offset + (encodeAll b.insts).length ≤ c.buffer.capacity := by
    rw [hcx.offset, hcx.grows.capacity, encodeAll_nil, List.length_nil]
    omega
  obtain ⟨e, he⟩ := exists_foldlM_emit hci hroom' hlabels fun l hl =>
    hcx.label?_eq_none (hnewLabels l hl) (by simp)
  obtain ⟨ho, hx⟩ := extends_of_room hci hroom' he
  exact ⟨e, emitBlock_eq_ok.2 ⟨c, hc, he⟩, hx.grows.intact_right hci.writable ho, hcx.trans hx⟩

/-- Blocks with room for them are emitted if their numbers and labels are new and distinct. -/
theorem exists_emitBlocks {bs : List MachineBlock} (hd : d.buffer.Intact)
    (hroom : d.offset + (encodeAll (bs.flatMap (·.insts))).length ≤ d.buffer.capacity)
    (hblocks : (bs.map (·.number)).Nodup)
    (hnewBlocks : ∀ b ∈ bs.map (·.number), d.locations.block? b = none)
    (hlabels : ((bs.flatMap (·.insts)).filterMap label?).Nodup)
    (hnewLabels : ∀ l ∈ (bs.flatMap (·.insts)).filterMap label?, d.locations.label? l = none) :
    ∃ e, d.emitBlocks bs = .ok e ∧ e.buffer.overflow = none := by
  induction bs generalizing d with
  | nil => exact ⟨d, rfl, hd.overflow⟩
  | cons b bs ih =>
    rw [List.flatMap_cons, encodeAll_append, List.length_append] at hroom
    rw [List.map_cons, List.nodup_cons] at hblocks
    rw [List.map_cons, List.forall_mem_cons] at hnewBlocks
    rw [List.flatMap_cons, List.filterMap_append, List.nodup_append'] at hlabels
    rw [List.flatMap_cons, List.filterMap_append] at hnewLabels
    obtain ⟨hfirst, hlater, hdisjoint⟩ := hlabels
    obtain ⟨e, he, hi, hx⟩ := exists_emitBlock hd (by omega) hnewBlocks.1 hfirst fun l hl =>
      hnewLabels l (List.mem_append_left _ hl)
    have hroomRest : e.offset + (encodeAll (bs.flatMap (·.insts))).length ≤ e.buffer.capacity := by
      rw [hx.offset, hx.grows.capacity]
      omega
    have hnewBlocks' (n : BlockId) (hn : n ∈ bs.map (·.number)) : e.locations.block? n = none := by
      refine hx.block?_eq_none (hnewBlocks.2 n hn) fun hmem => ?_
      obtain rfl := List.mem_singleton.1 hmem
      exact hblocks.1 hn
    have hnewLabels' (l : LabelId) (hl : l ∈ (bs.flatMap (·.insts)).filterMap label?) :
        e.locations.label? l = none :=
      hx.label?_eq_none (hnewLabels l (List.mem_append_right _ hl)) fun hmem => hdisjoint hmem hl
    obtain ⟨u, hu, huo⟩ := ih hi hroomRest hblocks.2 hnewBlocks' hlater hnewLabels'
    exact ⟨u, (emitBlocks_cons hd.overflow).2 ⟨e, he, hu⟩, huo⟩

end Draft

end CodeEmission
