import CodeEmission.Proofs.Decoding.Stream

/-! # Loads of table entries carried out

What the processor does when it comes to the code that looks an entry of a jump table up: a load of
32 bits that are extended with their sign, and an addition of the table's address. The second
operation reads the table's register after the first has written its result, and the first cannot
take the stack pointer as an index. So the sum is the documented one exactly if the table's register
is kept and the index is not the stack pointer.
-/

namespace CodeEmission.X86

structure Machine where
  registers : Register → UInt64
  memory : UInt64 → UInt8

namespace Machine

def signedAt (m : Machine) (a : UInt64) : UInt64 :=
  let bytes := [m.memory a, m.memory (a + 1), m.memory (a + 2), m.memory (a + 3)]
  (UInt32.ofNat (Bytes.ofLittleEndian bytes)).toInt32.toInt64.toUInt64

/-- The sum of a base, a scaled index and a displacement, where what is left out counts nothing. -/
def addressOf (m : Machine) (base : Option Register) (index : Option (Register × Nat))
    (disp : Int) : UInt64 :=
  base.elim 0 m.registers + index.elim 0 (fun i => UInt64.ofNat (2 ^ i.2) * m.registers i.1) +
    UInt64.ofInt disp

def assign (m : Machine) (dst : Register) (value : UInt64) : Machine :=
  { m with registers := fun r => if r = dst then value else m.registers r }

@[simp] theorem registers_assign (m : Machine) (dst r : Register) (value : UInt64) :
    (m.assign dst value).registers r = if r = dst then value else m.registers r := rfl

/-- Carries out one instruction. Others than the two of a table look-up are not followed. -/
def execute (m : Machine) : MachineInstruction → Option Machine
  | .movsxd dst (.memory (.sum base index disp)) =>
    some (m.assign dst (m.signedAt (m.addressOf base index disp)))
  | .add (.register dst) (.register src) =>
    some (m.assign dst (m.registers dst + m.registers src))
  | _ => none

def run (m : Machine) (bytes : List UInt8) : Option Machine := do
  (← decodeAll bytes).foldlM execute m

/-- What a look-up is documented to do: the destination becomes the sum of the table's address and
the signed entry at the index, and no other register changes. -/
structure LooksUp (m : Machine) (dst table index : Register) (m' : Machine) : Prop where
  sum : m'.registers dst =
    m.signedAt (m.registers table + 4 * m.registers index) + m.registers table
  others : ∀ r, r ≠ dst → m'.registers r = m.registers r

variable (m : Machine) (dst table index : Register)

def entryOf : UInt64 :=
  m.signedAt (m.registers table + if index = .rsp then 0 else 4 * m.registers index)

def lookUp : Machine :=
  let loaded := m.assign dst (m.entryOf table index)
  loaded.assign dst (loaded.registers dst + loaded.registers table)

theorem run_loadTableEntry :
    m.run (Instruction.loadTableEntry dst table index).encode =
      some (m.lookUp dst table index) := by
  have hread := Instruction.decodeAll_encode_append (.loadTableEntry dst table index) []
  rw [List.append_nil, decodeAll_nil] at hread
  have haddress : m.addressOf (some table) (if index = .rsp then none else some (index, 2)) 0 =
      m.registers table + if index = .rsp then 0 else 4 * m.registers index := by
    unfold addressOf
    split <;> exact UInt64.add_zero _
  rw [run, hread]
  simp only [Instruction.meaning, Option.map_some, List.append_nil, Option.bind_eq_bind,
    Option.bind_some, List.foldlM_cons, List.foldlM_nil, execute, haddress]
  rfl

theorem registers_lookUp : (m.lookUp dst table index).registers dst =
    m.entryOf table index + if table = dst then m.entryOf table index else m.registers table := by
  simp [lookUp]

theorem registers_lookUp_of_ne {r : Register} (h : r ≠ dst) :
    (m.lookUp dst table index).registers r = m.registers r := by
  simp [lookUp, h]

theorem memory_lookUp : (m.lookUp dst table index).memory = m.memory := rfl

variable {dst table index}

theorem looksUp_lookUp (htable : dst ≠ table) (hindex : index ≠ .rsp) :
    m.LooksUp dst table index (m.lookUp dst table index) := by
  refine ⟨?_, fun r hr => m.registers_lookUp_of_ne dst table index hr⟩
  rw [registers_lookUp, if_neg (Ne.symm htable), entryOf, if_neg hindex]

def ones : Machine := ⟨fun _ => 1, fun _ => 0⟩

/-- The stack pointer is 1, and every byte tells where it is. -/
def graded : Machine := ⟨fun r => if r = .rsp then 1 else 0, fun a => a.toUInt8⟩

theorem not_looksUp_ones (dst index : Register) :
    ¬ones.LooksUp dst dst index (ones.lookUp dst dst index) := by
  intro h
  have hsum := h.sum
  rw [registers_lookUp, if_pos rfl] at hsum
  have hzero (a : UInt64) : ones.signedAt a = 0 := rfl
  have hone : ones.registers dst = 1 := rfl
  rw [entryOf, hzero, hzero, hone] at hsum
  exact absurd hsum (by decide)

theorem not_looksUp_graded (htable : dst ≠ table) :
    ¬graded.LooksUp dst table .rsp (graded.lookUp dst table .rsp) := by
  intro h
  have hsum := h.sum
  rw [registers_lookUp, if_neg (Ne.symm htable), entryOf, if_pos rfl, UInt64.add_left_inj] at hsum
  have hdiffer : ∀ r : Register, graded.signedAt (graded.registers r + 0) ≠
      graded.signedAt (graded.registers r + 4 * graded.registers .rsp) := by
    intro r
    cases r <;> decide
  exact hdiffer table hsum

end Machine

end CodeEmission.X86

namespace CodeEmission.Draft

open X86 X86.Instruction

/-- The code of a table look-up changes nothing but the destination, which becomes the sum of the
entry and the table's address, or twice the entry if it was the table itself. That is what is
documented exactly if the destination is not the table and the index not the stack pointer. -/
theorem emitted_lookUp_executes (dst table index : Register) (d : Draft) (hd : d.buffer.Intact)
    (hroom : d.offset + (loadTableEntry dst table index).encode.length ≤ d.buffer.capacity) :
    ∃ e bytes, d.emit (.loadTableEntry dst table index) = .ok e ∧
      e.buffer.code = d.buffer.code ++ bytes.toArray ∧
      (∀ m : Machine, ∃ m', m.run bytes = some m' ∧ m'.memory = m.memory ∧
        (∀ r, r ≠ dst → m'.registers r = m.registers r) ∧
        m'.registers dst = m.entryOf table index +
          if table = dst then m.entryOf table index else m.registers table) ∧
      ((∀ m : Machine, ∃ m', m.run bytes = some m' ∧ m.LooksUp dst table index m') ↔
        dst ≠ table ∧ index ≠ .rsp) := by
  have hemit : d.emit (.loadTableEntry dst table index) =
      .ok (d.writeCode (.loadTableEntry dst table index)) := rfl
  have hfits := overflow_of_emit hd hroom hemit
  have hcode := (emit_extends hd hemit hfits).code
  rw [encodeAll_cons, encodeAll_nil, List.append_nil] at hcode
  refine ⟨_, _, hemit, hcode, ?_, ?_⟩
  · intro m
    exact ⟨_, m.run_loadTableEntry dst table index, m.memory_lookUp dst table index,
      fun r hr => m.registers_lookUp_of_ne dst table index hr, m.registers_lookUp dst table index⟩
  · constructor
    · intro hall
      have hnone (m : Machine) : m.LooksUp dst table index (m.lookUp dst table index) := by
        obtain ⟨m', hrun, hlook⟩ := hall m
        rw [Machine.run_loadTableEntry] at hrun
        cases hrun
        exact hlook
      have htable : dst ≠ table := by
        rintro rfl
        exact Machine.not_looksUp_ones dst index (hnone .ones)
      refine ⟨htable, ?_⟩
      rintro rfl
      exact Machine.not_looksUp_graded htable (hnone .graded)
    · rintro ⟨htable, hindex⟩ m
      exact ⟨_, m.run_loadTableEntry dst table index, m.looksUp_lookUp htable hindex⟩

theorem emitted_lookUp_executes_dispatch :
    ∃ e bytes, Draft.emit { function := "f", buffer := .ofCapacity 16 }
        (.loadTableEntry .rax .r11 .rcx) = .ok e ∧
      e.buffer.code = bytes.toArray ∧
      ∀ m : Machine, ∃ m', m.run bytes = some m' ∧ m.LooksUp .rax .r11 .rcx m' := by
  obtain ⟨e, bytes, hemit, hcode, -, hiff⟩ := emitted_lookUp_executes .rax .r11 .rcx
    { function := "f", buffer := .ofCapacity 16 } (CodeBuffer.ofCapacity_intact 16) (by decide)
  exact ⟨e, bytes, hemit, hcode.trans Array.empty_append, hiff.2 (by decide)⟩

/-- The stack pointer as index and the table as destination each give another sum. -/
theorem emitted_lookUp_astray :
    (∃ m', Machine.graded.run (loadTableEntry .rax .rcx .rsp).encode = some m' ∧
        ¬Machine.graded.LooksUp .rax .rcx .rsp m') ∧
      ∃ m', Machine.ones.run (loadTableEntry .rax .rax .rcx).encode = some m' ∧
        ¬Machine.ones.LooksUp .rax .rax .rcx m' :=
  ⟨⟨_, Machine.graded.run_loadTableEntry .rax .rcx .rsp, Machine.not_looksUp_graded (by decide)⟩,
    ⟨_, Machine.ones.run_loadTableEntry .rax .rax .rcx, Machine.not_looksUp_ones .rax .rcx⟩⟩

end CodeEmission.Draft
