import Mathlib.Data.List.Chain
import CodeEmission.Proofs.Layout.Regions

/-! # Source positions

Markers among the instructions say which source position the code after them has. The table that is
kept of them leaves out a marker that repeats the position before it. Still the last entry up to an
instruction always has the position that was marked last before this instruction.
-/

namespace CodeEmission

open X86.Instruction

theorem split_concat {α : Type} {xs before after : List α} {x y : α}
    (h : xs ++ [x] = before ++ y :: after) :
    (before = xs ∧ y = x) ∨ ∃ rest, xs = before ++ y :: rest := by
  rcases List.eq_nil_or_concat' after with rfl | ⟨rest, z, rfl⟩
  · obtain ⟨hxs, hx⟩ := List.append_singleton_inj.1 h
    exact .inl ⟨hxs.symm, hx.symm⟩
  · rw [← List.cons_append, ← List.append_assoc] at h
    exact .inr ⟨rest, (List.append_singleton_inj.1 h).1⟩

namespace X86.Instruction

def position? : Instruction → Option SourceLoc
  | .debugLoc line col => some { line, col }
  | _ => none

def lastPosition? (is : List Instruction) : Option SourceLoc := (is.filterMap position?).getLast?

theorem lastPosition?_concat (is : List Instruction) (i : Instruction) :
    lastPosition? (is ++ [i]) = i.position?.or (lastPosition? is) := by
  cases h : i.position? <;> simp [lastPosition?, h]

end X86.Instruction

namespace SourceLoc

variable {table : List (Nat × SourceLoc)} {offset : Nat}

/-- The position in force at an offset: that of the last entry up to it, if there is one. -/
def inForce? (table : List (Nat × SourceLoc)) (offset : Nat) : Option SourceLoc :=
  (table.filter (·.1 ≤ offset)).getLast?.map (·.2)

theorem inForce?_of_le (h : ∀ p ∈ table, p.1 ≤ offset) :
    inForce? table offset = table.getLast?.map (·.2) := by
  rw [inForce?, List.filter_eq_self.2 fun p hp => decide_eq_true (h p hp)]

theorem inForce?_concat_of_lt {p : Nat × SourceLoc} (h : offset < p.1) :
    inForce? (table ++ [p]) offset = inForce? table offset := by
  have hbehind : decide (p.1 ≤ offset) = false := decide_eq_false (Nat.not_le.2 h)
  rw [inForce?, List.filter_append, List.filter_singleton, hbehind]
  simp [inForce?]

end SourceLoc

open SourceLoc

/-- A table has the source positions of a stream of instructions from `start` on. Every entry comes
from a marker and differs from the one before it, and at every instruction that has code the position
marked last is in force. -/
structure PositionsOf (start : Nat) (is : List X86.Instruction) (table : List (Nat × SourceLoc)) :
    Prop where
  ascending : table.Pairwise fun p q => p.1 ≤ q.1
  changing : table.IsChain fun p q => p.2 ≠ q.2
  marked : ∀ p ∈ table, ∃ before after, is = before ++ .debugLoc p.2.line p.2.col :: after ∧
    p.1 = start + (encodeAll before).length
  inForce : ∀ before i after, is = before ++ i :: after → i.encode ≠ [] →
    inForce? table (start + (encodeAll before).length) = lastPosition? before
  last : table.getLast?.map (·.2) = lastPosition? is

namespace PositionsOf

variable {start : Nat} {is : List X86.Instruction} {table : List (Nat × SourceLoc)}

theorem nil (start : Nat) : PositionsOf start [] [] where
  ascending := .nil
  changing := .nil
  marked := nofun
  inForce := by simp
  last := rfl

theorem within (h : PositionsOf start is table) {p : Nat × SourceLoc} (hp : p ∈ table) :
    start ≤ p.1 ∧ p.1 ≤ start + (encodeAll is).length := by
  obtain ⟨before, after, rfl, heq⟩ := h.marked p hp
  rw [encodeAll_append, List.length_append]
  omega

theorem marked_concat (h : PositionsOf start is table) (i : X86.Instruction) {p : Nat × SourceLoc}
    (hp : p ∈ table) : ∃ before after,
      is ++ [i] = before ++ .debugLoc p.2.line p.2.col :: after ∧
        p.1 = start + (encodeAll before).length := by
  obtain ⟨before, after, rfl, heq⟩ := h.marked p hp
  exact ⟨before, after ++ [i], by simp, heq⟩

theorem concat_of_same (h : PositionsOf start is table) {i : X86.Instruction}
    (hi : lastPosition? (is ++ [i]) = lastPosition? is) : PositionsOf start (is ++ [i]) table where
  ascending := h.ascending
  changing := h.changing
  marked p hp := h.marked_concat i hp
  inForce := by
    intro before j after hsplit hj
    rcases split_concat hsplit with ⟨rfl, rfl⟩ | ⟨rest, hrest⟩
    · rw [inForce?_of_le fun p hp => (h.within hp).2, h.last]
    · exact h.inForce before j rest hrest hj
  last := h.last.trans hi.symm

theorem concat_of_new (h : PositionsOf start is table) {loc : SourceLoc}
    (hloc : lastPosition? is ≠ some loc) :
    PositionsOf start (is ++ [.debugLoc loc.line loc.col])
      (table ++ [(start + (encodeAll is).length, loc)]) where
  ascending := by
    refine List.pairwise_append.2 ⟨h.ascending, List.pairwise_singleton _ _, ?_⟩
    intro p hp q hq
    rw [List.mem_singleton.1 hq]
    exact (h.within hp).2
  changing := by
    refine List.isChain_append.2 ⟨h.changing, .singleton _, ?_⟩
    rintro p hp q ⟨⟩ heq
    rw [← h.last, Option.mem_def.1 hp] at hloc
    exact hloc (congrArg some heq)
  marked := by
    intro p hp
    rcases List.mem_append.1 hp with hp | hp
    · exact h.marked_concat _ hp
    · rw [List.mem_singleton.1 hp]
      exact ⟨is, [], rfl, rfl⟩
  inForce := by
    intro before j after hsplit hj
    rcases split_concat hsplit with ⟨rfl, rfl⟩ | ⟨rest, hrest⟩
    · exact absurd rfl hj
    · -- the code of `j` stands between `j` and the new entry
      have hbehind : start + (encodeAll before).length < start + (encodeAll is).length := by
        have hpos := List.length_pos_iff.2 hj
        rw [hrest, encodeAll_append, encodeAll_cons, List.length_append, List.length_append]
        omega
      rw [inForce?_concat_of_lt hbehind]
      exact h.inForce before j rest hrest hj
  last := by
    rw [List.getLast?_concat, lastPosition?_concat]
    rfl

end PositionsOf

namespace Draft

variable {d e : Draft} {start : Nat} {is : List X86.Instruction}

theorem emit_debugLocs {i : X86.Instruction} (hi : i.position? = none) (h : d.emit i = .ok e) :
    e.debugLocs = d.debugLocs := by
  rcases emit_cases i with ⟨l, rfl⟩ | ⟨line, col, rfl⟩ | ⟨_, hw⟩
  · rw [emit_label, startLabel_eq_ok] at h
    rw [h.2]
  · cases hi
  · rw [hw] at h
    cases h
    rfl

theorem emit_positions {i : X86.Instruction} (ho : d.offset = start + (encodeAll is).length)
    (hp : PositionsOf start is d.debugLocs.toList) (h : d.emit i = .ok e) :
    PositionsOf start (is ++ [i]) e.debugLocs.toList := by
  cases hi : i.position? with
  | none =>
    rw [emit_debugLocs hi h]
    exact hp.concat_of_same (by rw [lastPosition?_concat, hi, Option.none_or])
  | some loc =>
    obtain rfl : i = .debugLoc loc.line loc.col := by
      cases i <;> cases hi
      rfl
    rw [emit_debugLoc] at h
    cases h
    have hlast : d.debugLocs.back?.map (·.2) = lastPosition? is := by
      rw [← hp.last, Array.getLast?_toList]
    unfold startLoc
    rw [hlast]
    split
    · rename_i hsame
      exact hp.concat_of_same (by rw [lastPosition?_concat, hsame]; rfl)
    · rename_i hnew
      rw [Array.toList_push, ho]
      exact hp.concat_of_new hnew

theorem foldlM_emit_positions {js : List X86.Instruction} (hd : d.buffer.Intact)
    (ho : d.offset = start + (encodeAll is).length)
    (hp : PositionsOf start is d.debugLocs.toList) (h : js.foldlM emit d = .ok e)
    (he : e.buffer.overflow = none) : PositionsOf start (is ++ js) e.debugLocs.toList := by
  induction js generalizing d is with
  | nil =>
    cases h
    rwa [List.append_nil]
  | cons i js ih =>
    obtain ⟨c, hc, hr⟩ := foldlM_emit_cons.1 h
    have hfits := (foldlM_emit_grows hr).overflow he
    have hoffset : c.offset = start + (encodeAll (is ++ [i])).length := by
      rw [(emit_extends hd hc hfits).offset, ho, encodeAll_append, List.length_append,
        Nat.add_assoc]
    have hrest := ih ((emit_grows hc).intact_right hd.writable hfits) hoffset
      (emit_positions ho hp hc) hr
    rwa [List.append_assoc] at hrest

theorem emitBlock_positions {b : MachineBlock} (hd : d.buffer.Intact)
    (ho : d.offset = start + (encodeAll is).length)
    (hp : PositionsOf start is d.debugLocs.toList) (h : d.emitBlock b = .ok e)
    (he : e.buffer.overflow = none) : PositionsOf start (is ++ b.insts) e.debugLocs.toList := by
  obtain ⟨c, hc, hr⟩ := emitBlock_eq_ok.1 h
  obtain ⟨_, hstart⟩ := startBlock_eq_ok.1 hc
  have hbuffer : c.buffer = d.buffer := by rw [hstart]
  have hlocs : c.debugLocs = d.debugLocs := by rw [hstart]
  have hoffset : c.offset = d.offset := congrArg CodeBuffer.offset hbuffer
  exact foldlM_emit_positions (hbuffer ▸ hd) (hoffset.trans ho) (hlocs ▸ hp) hr he

theorem emitBlocks_positions {bs : List MachineBlock} (hd : d.buffer.Intact)
    (ho : d.offset = start + (encodeAll is).length)
    (hp : PositionsOf start is d.debugLocs.toList) (h : d.emitBlocks bs = .ok e)
    (he : e.buffer.overflow = none) :
    PositionsOf start (is ++ bs.flatMap (·.insts)) e.debugLocs.toList := by
  induction bs generalizing d is with
  | nil =>
    cases h
    rwa [List.flatMap_nil, List.append_nil]
  | cons b bs ih =>
    obtain ⟨c, hc, hr⟩ := (emitBlocks_cons hd.overflow).1 h
    have hfits := (emitBlocks_grows hr).overflow he
    have hoffset : c.offset = start + (encodeAll (is ++ b.insts)).length := by
      rw [(emitBlock_extends hd hc hfits).offset, ho, encodeAll_append, List.length_append,
        Nat.add_assoc]
    have hrest := ih ((emitBlock_grows hc).intact_right hd.writable hfits) hoffset
      (emitBlock_positions hd ho hp hc hfits) hr
    rwa [List.append_assoc, ← List.flatMap_cons] at hrest

/-- A layout that fits as a whole has the positions of the function from the start of its code on. -/
theorem layOut_positions {t : Target} {config : Config} {f : MachineFunction} {b : CodeBuffer}
    (hb : b.Intact) (h : layOut t config f b = .ok d) (hd : d.buffer.overflow = none) :
    PositionsOf d.codeOffset f.instructions d.debugLocs.toList := by
  obtain ⟨c, hfront, hblocks⟩ := layOut_eq_ok.1 h
  have hc := front_bare hfront
  have hi : c.buffer.Intact :=
    hc.grows.intact_right hb.writable ((emitBlocks_grows hblocks).overflow hd)
  have hstart : PositionsOf c.offset [] c.debugLocs.toList := by
    rw [hc.debugLocs]
    exact .nil _
  rw [(emitBlocks_extends hi hblocks hd).codeOffset, hc.codeOffset]
  exact emitBlocks_positions hi rfl hstart hblocks hd

end Draft

end CodeEmission
