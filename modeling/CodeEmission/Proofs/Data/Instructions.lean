import CodeEmission.Data.Instruction
import CodeEmission.Proofs.Data.Values

/-! # Instructions read back

The field `op` of an instruction is found wherever it stands, and tells which of the other fields
are looked for. One lemma covers the instructions of a form.
-/

namespace CodeEmission

open Data

namespace GlobalRef

theorem ofData?_readBack : (r : GlobalRef) → ReadBack ofData? r.toData r
  | .function id | .variable id | .alias id =>
    readBack_alternative fun _ h => by simp [ofData?, alternative?, readBack_id id h]

theorem toData_isSound : (r : GlobalRef) → r.toData.isSound
  | .function _ | .variable _ | .alias _ => rfl

end GlobalRef

namespace X86

theorem Register.ofSlot?_readBack (r : Register) :
    FieldReadBack Register.ofSlot? (some r.toData) r :=
  fieldReadBack_required (readBack_choice .tagged r.ofName?_name)

theorem Condition.ofSlot?_readBack (c : Condition) :
    FieldReadBack Condition.ofSlot? (some c.toData) c :=
  fieldReadBack_required (readBack_choice .tagged c.ofName?_name)

namespace Instruction

variable {op : String} {i : Instruction}

theorem record_readBack (slots : List (String × Slot)) {build : List Slot → Option Instruction}
    (hform : Form.ofName? op = some ⟨slots.map (·.1), build⟩)
    (hnames : ("op" :: slots.map (·.1)).Nodup) (hsound : areSoundFields (present slots))
    (hbuild : ∀ slots', SlotsRearranged (slots.map (·.2)) slots' → build slots' = some i) :
    ReadBack ofData? (record op (present slots)) i := by
  intro data hdata
  have hdataSound : data.isSound := by
    rw [hdata.isSound_eq]
    simpa [record, isSound, areSoundFields] using hsound
  obtain ⟨_, rfl, before, op', after, rfl, hop, hrest⟩ := hdata
  rw [rearranged_string] at hop
  subst hop
  rw [List.nodup_cons] at hnames
  -- The form asks for none of its fields under the name `op`, so that field can be taken out.
  have hfree : "op" ∉ (before ++ after).map (·.1) := fun hmem =>
    hnames.1 (mem_of_mem_present (hrest.perm_names.subset hmem))
  obtain ⟨slots', hslots, hrel⟩ := namedSlots_present hnames.2 hrest
  rw [← namedSlots_middle before after (.string op) hnames.1] at hslots
  simp [ofData?, hdataSound, ofSound?, field?_middle _ hfree, required, string?, hform, hslots,
    hbuild slots' hrel]

theorem bare_readBack (hform : Form.ofName? op = some (.bare i)) :
    ReadBack ofData? (record op []) i :=
  record_readBack [] hform (by simp) rfl fun _ _ => rfl

theorem registers_readBack {f : Register → Register → Instruction}
    (hform : Form.ofName? op = some (.registers f)) (dst src : Register) :
    ReadBack ofData? (record op [("dst", dst.toData), ("src", src.toData)]) (f dst src) :=
  record_readBack [("dst", some _), ("src", some _)] hform (by simp) rfl fun _ h =>
    pair?_readBack dst.ofSlot?_readBack src.ofSlot?_readBack h

theorem register_readBack {f : Register → Instruction}
    (hform : Form.ofName? op = some (.register f)) (reg : Register) :
    ReadBack ofData? (record op [("reg", reg.toData)]) (f reg) :=
  record_readBack [("reg", some _)] hform (by simp) rfl fun _ h =>
    single?_readBack reg.ofSlot?_readBack h

theorem immediate_readBack {f : Register → Int32 → Instruction}
    (hform : Form.ofName? op = some (.immediate f)) (dst : Register) (imm : Int32) :
    ReadBack ofData? (record op [("dst", dst.toData), ("imm", .int imm.toInt)]) (f dst imm) :=
  record_readBack [("dst", some _), ("imm", some _)] hform (by simp) rfl fun _ h =>
    pair?_readBack dst.ofSlot?_readBack (fieldReadBack_required (readBack_int32 imm)) h

section others

variable {α : Type} {name : String} {read : Data → Option α} {data : Data} {a : α}

theorem reference_readBack {f : Register → α → Instruction}
    (hform : Form.ofName? op = some (.reference name read f)) (hnames : ["op", "dst", name].Nodup)
    (hsound : data.isSound) (ha : ReadBack read data a) (dst : Register) :
    ReadBack ofData? (record op [("dst", dst.toData), (name, data)]) (f dst a) :=
  record_readBack [("dst", some _), (name, some _)] hform hnames
    (by simp [present, areSoundFields, Register.toData, isSound, hsound]) fun _ h =>
      pair?_readBack dst.ofSlot?_readBack (fieldReadBack_required ha) h

theorem single_readBack {f : α → Instruction} (hform : Form.ofName? op = some (.single name read f))
    (hname : "op" ≠ name) (hsound : data.isSound) (ha : ReadBack read data a) :
    ReadBack ofData? (record op [(name, data)]) (f a) :=
  record_readBack [(name, some _)] hform (by simpa using hname)
    (by simp [present, areSoundFields, hsound]) fun _ h =>
      single?_readBack (fieldReadBack_required ha) h

end others

theorem ofData?_readBack : (i : Instruction) → ReadBack ofData? i.toData i
  | .movRR dst src | .addRR dst src | .subRR dst src | .imulRR dst src | .cmpRR dst src =>
    registers_readBack rfl dst src
  | .addRI dst imm | .subRI dst imm | .cmpRI dst imm => immediate_readBack rfl dst imm
  | .movRI dst imm => reference_readBack rfl (by simp) rfl (readBack_int64 imm) dst
  | .load dst base disp =>
    record_readBack [("dst", some _), ("base", some _), ("disp", some _)] rfl (by simp) rfl
      fun _ h => triple?_readBack dst.ofSlot?_readBack base.ofSlot?_readBack
        (fieldReadBack_required (readBack_int32 disp)) h
  | .store base disp src =>
    record_readBack [("base", some _), ("disp", some _), ("src", some _)] rfl (by simp) rfl
      fun _ h => triple?_readBack base.ofSlot?_readBack
        (fieldReadBack_required (readBack_int32 disp)) src.ofSlot?_readBack h
  | .push reg | .pop reg | .jmpReg reg => register_readBack rfl reg
  | .nop | .ret => bare_readBack rfl
  | .jmp id | .call id | .label id => single_readBack rfl (by simp) rfl (readBack_id id)
  | .callSymbol name => single_readBack rfl (by simp) rfl (readBack_text name)
  | .jcc cond target =>
    record_readBack [("cond", some _), ("target", some _)] rfl (by simp) rfl fun _ h =>
      pair?_readBack cond.ofSlot?_readBack (fieldReadBack_required (readBack_id target)) h
  | .loadGlobal dst global | .loadIndirect dst global =>
    reference_readBack rfl (by simp) global.toData_isSound global.ofData?_readBack dst
  | .loadBlockAddress dst block => reference_readBack rfl (by simp) rfl (readBack_id block) dst
  | .loadConst dst index | .leaJumpTable dst index =>
    reference_readBack rfl (by simp) rfl (readBack_word64 index) dst
  | .loadTableEntry dst table index =>
    record_readBack [("dst", some _), ("table", some _), ("index", some _)] rfl (by simp) rfl
      fun _ h => triple?_readBack dst.ofSlot?_readBack table.ofSlot?_readBack
        index.ofSlot?_readBack h
  | .debugLoc line col =>
    record_readBack [("line", some _), ("col", some _)] rfl (by simp) rfl fun _ h =>
      pair?_readBack (fieldReadBack_required (readBack_word32 line))
        (fieldReadBack_required (readBack_word32 col)) h

end Instruction

end X86

end CodeEmission
