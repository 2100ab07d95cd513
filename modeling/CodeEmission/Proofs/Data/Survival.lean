import CodeEmission.Data.Batch
import CodeEmission.Data.Config
import CodeEmission.Proofs.Data.Instructions

/-! # What is written can be read

Records of types, constants and instructions, up to whole batches and configurations, are read back
from whatever arrangement of what they were written as. The symbols of a batch are a table kept as
an object, so they alone may come back in another order. Whether there is a floating-point constant
somewhere inside is asked of every record that can hold one.
-/

namespace CodeEmission

open Data

/-! ## Modules -/

namespace GlobalVariable

def isFloatFree (g : GlobalVariable) : Bool := g.init.all Constant.isFloatFree

theorem toData_eq_present (g : GlobalVariable) :
    g.toData = .object (present
      [("id", some (.nat g.id.number.toNat)), ("name", some (.string g.name)),
        ("ty", some g.type.toData), ("init", g.init.map Constant.toData),
        ("align", g.align.map fun a => .nat a.toNat), ("thread_local", some (.bool g.threadLocal)),
        ("linkage", some (.string g.linkage.name))]) := by
  rcases g with ⟨_, _, _, _ | _, _ | _, _, _⟩ <;> rfl

theorem ofData?_readBack (d : Dialect) {g : GlobalVariable} (hg : g.isFloatFree) :
    ReadBack (ofData? d) g.toData g := by
  have hconstant : ∀ c ∈ g.init, ReadBack (Constant.ofData? d) c.toData c := fun c hc =>
    Constant.ofData?_readBack d (by simpa [isFloatFree, Option.mem_def.1 hc] using hg)
  rw [toData_eq_present]
  refine readBack_record d _ (by simp) ?_
  rintro _ (_ | ⟨hid, _ | ⟨hname, _ | ⟨htype, _ | ⟨hinit, _ | ⟨halign, _ | ⟨hlocal,
    _ | ⟨hlinkage, _ | _⟩⟩⟩⟩⟩⟩⟩)
  simp [fieldReadBack_required (readBack_id g.id) hid,
    fieldReadBack_required (readBack_text g.name) hname,
    fieldReadBack_required (g.type.ofData?_readBack d) htype,
    fieldReadBack_optional hconstant Constant.not_rearranged_null hinit,
    fieldReadBack_optional (fun a _ => readBack_word64 a) (by simp [Data.nat]) halign,
    fieldReadBack_withDefault false (readBack_flag g.threadLocal) hlocal,
    fieldReadBack_withDefault .internal (readBack_choice d g.linkage.ofName?_name) hlinkage]

end GlobalVariable

theorem GlobalAlias.ofData?_readBack (d : Dialect) (a : GlobalAlias) :
    ReadBack (ofData? d) a.toData a :=
  readBack_record d [("id", some _), ("name", some _), ("aliasee", some _)] (by simp) fun _ h =>
    triple?_readBack (fieldReadBack_required (readBack_id a.id))
      (fieldReadBack_required (readBack_text a.name))
      (fieldReadBack_required a.aliasee.ofData?_readBack) h

namespace Module

def isFloatFree (m : Module) : Bool := m.globals.all GlobalVariable.isFloatFree

theorem ofData?_readBack (d : Dialect) {m : Module} (hm : m.isFloatFree) :
    ReadBack (ofData? d) m.toData m := by
  have hglobals := readBack_list fun g hg =>
    GlobalVariable.ofData?_readBack d (List.all_eq_true.1 hm g hg)
  have haliases := readBack_list fun a (_ : a ∈ m.aliases) => a.ofData?_readBack d
  exact readBack_record d [("globals", some _), ("aliases", some _)] (by simp) fun _ h =>
    pair?_readBack (fieldReadBack_withDefault [] hglobals) (fieldReadBack_withDefault [] haliases) h

end Module

/-! ## Machine functions -/

namespace PoolEntry

def isFloatFree (e : PoolEntry) : Bool :=
  match e.value with
  | .constant c => c.isFloatFree
  | .machine _ => true

theorem value_readBack (d : Dialect) {e : PoolEntry} (he : e.isFloatFree) :
    ReadBack (PoolValue.ofData? d) e.value.toData e.value := by
  obtain ⟨c | bytes, align⟩ := e
  · exact readBack_alternative fun _ h => by
      simp [PoolValue.ofData?, alternative?, Constant.ofData?_readBack d he h]
  · exact readBack_alternative fun _ h => by
      simp [PoolValue.ofData?, alternative?, readBack_list (fun b _ => readBack_byte b) h]

theorem ofData?_readBack (d : Dialect) {e : PoolEntry} (he : e.isFloatFree) :
    ReadBack (ofData? d) e.toData e :=
  readBack_record d [("value", some _), ("align", some _)] (by simp) fun _ h =>
    pair?_readBack (fieldReadBack_required (value_readBack d he))
      (fieldReadBack_required (readBack_word64 e.align)) h

end PoolEntry

theorem JumpTable.ofData?_readBack (d : Dialect) (t : JumpTable) :
    ReadBack (ofData? d) t.toData t :=
  readBack_record d [("targets", some _)] (by simp) fun _ h =>
    single?_readBack (fieldReadBack_required (readBack_list fun b _ => readBack_id b)) h

theorem JumpTableInfo.ofData?_readBack (d : Dialect) (info : JumpTableInfo) :
    ReadBack (ofData? d) info.toData info :=
  readBack_record d [("kind", some _), ("tables", some _)] (by simp) fun _ h =>
    pair?_readBack (fieldReadBack_required (readBack_choice d info.kind.ofName?_name))
      (fieldReadBack_required (readBack_list fun t _ => t.ofData?_readBack d)) h

theorem MachineBlock.ofData?_readBack (d : Dialect) (b : MachineBlock) :
    ReadBack (ofData? d) b.toData b :=
  readBack_record d [("number", some _), ("insts", some _)] (by simp) fun _ h =>
    pair?_readBack (fieldReadBack_required (readBack_id b.number))
      (fieldReadBack_required (readBack_list fun i _ => i.ofData?_readBack)) h

namespace MachineFunction

def isFloatFree (f : MachineFunction) : Bool := f.constantPool.all PoolEntry.isFloatFree

theorem toData_eq_present (f : MachineFunction) :
    f.toData = .object (present
      [("id", some (.nat f.id.number.toNat)), ("name", some (.string f.name)),
        ("alignment", some (.nat f.alignment.toNat)),
        ("constant_pool", some (.array (f.constantPool.map PoolEntry.toData))),
        ("jump_tables", f.jumpTables.map JumpTableInfo.toData),
        ("blocks", some (.array (f.blocks.map MachineBlock.toData)))]) := by
  rcases f with ⟨_, _, _, _, _ | _, _⟩ <;> rfl

theorem ofData?_readBack (d : Dialect) {f : MachineFunction} (hf : f.isFloatFree) :
    ReadBack (ofData? d) f.toData f := by
  have hentries := readBack_list fun e he =>
    PoolEntry.ofData?_readBack d (List.all_eq_true.1 hf e he)
  have hblocks := readBack_list fun b (_ : b ∈ f.blocks) => b.ofData?_readBack d
  rw [toData_eq_present]
  refine readBack_record d _ (by simp) ?_
  rintro _ (_ | ⟨hid, _ | ⟨hname, _ | ⟨halignment, _ | ⟨hpool, _ | ⟨htables,
    _ | ⟨hinsts, _ | _⟩⟩⟩⟩⟩⟩)
  simp [fieldReadBack_required (readBack_id f.id) hid,
    fieldReadBack_required (readBack_text f.name) hname,
    fieldReadBack_withDefault 0 (readBack_word64 f.alignment) halignment,
    fieldReadBack_withDefault [] hentries hpool,
    fieldReadBack_optional (fun info _ => info.ofData?_readBack d)
      (by simp [JumpTableInfo.toData, Rearranged]) htables,
    fieldReadBack_required hblocks hinsts]

end MachineFunction

/-! ## Configurations -/

theorem Config.ofData?_readBack (d : Dialect) (c : Config) : ReadBack (ofData? d) c.toData c := by
  refine readBack_record d
    [("initial_buffer_size", some _), ("pool_alignment", some _),
      ("min_function_alignment", some _), ("trace", some _),
      ("abort_on_invariant_violation", some _), ("search_process_symbols", some _),
      ("format", some _)] (by simp) ?_
  rintro _ (_ | ⟨hsize, _ | ⟨hpool, _ | ⟨hfunction, _ | ⟨htrace, _ | ⟨habort, _ | ⟨hsearch,
    _ | ⟨hformat, _ | _⟩⟩⟩⟩⟩⟩⟩)
  simp [fieldReadBack_withDefault _ (readBack_word64 c.initialBufferSize) hsize,
    fieldReadBack_withDefault _ (readBack_word64 c.poolAlignment) hpool,
    fieldReadBack_withDefault _ (readBack_word64 c.minFunctionAlignment) hfunction,
    fieldReadBack_withDefault _ (readBack_flag c.trace) htrace,
    fieldReadBack_withDefault _ (readBack_flag c.abortOnInvariantViolation) habort,
    fieldReadBack_withDefault _ (readBack_flag c.searchProcessSymbols) hsearch,
    fieldReadBack_withDefault _ (readBack_choice d c.format.ofName?_name) hformat]

/-! ## Batches -/

namespace Batch

def isFloatFree (b : Batch) : Bool :=
  b.module.isFloatFree && b.functions.all MachineFunction.isFloatFree

/-- Whether two batches are the same but for the order of their symbols, which are a table. -/
structure SameTable (b b' : Batch) : Prop where
  module : b'.module = b.module
  symbols : b'.symbols.Perm b.symbols
  functions : b'.functions = b.functions

def symbolField (s : String × UInt64) : String × Data := (s.1, .nat s.2.toNat)

theorem symbols?_symbolField (symbols : List (String × UInt64)) :
    symbols? (.object (symbols.map symbolField)) = some symbols := by
  simp only [symbols?]
  induction symbols with
  | nil => rfl
  | cons s rest ih =>
    have hs : (symbolField s).2.word64? = some s.2 := (readBack_word64 s.2).read_eq
    rw [List.map_cons, List.mapM_cons, ih, hs]
    rfl

theorem exists_symbols {symbols : List (String × UInt64)} {fields : List (String × Data)}
    (h : FieldsRearranged (symbols.map symbolField) fields) :
    ∃ symbols' : List (String × UInt64),
      symbols'.Perm symbols ∧ fields = symbols'.map symbolField := by
  induction symbols generalizing fields with
  | nil => exact ⟨[], .nil, h⟩
  | cons s rest ih =>
    obtain ⟨before, d, after, rfl, hd, hrest⟩ := h
    obtain ⟨rest', hperm, heq⟩ := ih hrest
    obtain ⟨first, last, rfl, rfl, rfl⟩ := List.append_eq_map_iff.1 heq
    refine ⟨first ++ s :: last, List.perm_middle.trans (hperm.cons s), ?_⟩
    have hd : d = .nat s.2.toNat := rearranged_nat.1 hd
    simp [symbolField, hd]

theorem rearranged_of_symbols (b : Batch) {symbols : List (String × UInt64)}
    (h : FieldsRearranged (b.symbols.map symbolField) (symbols.map symbolField)) :
    Rearranged b.toData { b with symbols }.toData :=
  ⟨_, rfl, [], _, _, rfl, .refl _, [], _, _, rfl, ⟨_, rfl, h⟩, [], _, _, rfl, .refl _, rfl⟩

theorem functions_readBack (d : Dialect) {functions : List MachineFunction}
    (h : functions.all MachineFunction.isFloatFree) :
    ReadBack (list? (MachineFunction.ofData? d)) (.array (functions.map MachineFunction.toData))
      functions :=
  readBack_list fun f hf => MachineFunction.ofData?_readBack d (List.all_eq_true.1 h f hf)

theorem ofData?_rearranged (d : Dialect) {b : Batch} (hb : b.isFloatFree) {data : Data}
    (hdata : Rearranged b.toData data) :
    ∃ b', ofData? d data = some b' ∧ SameTable b b' ∧ Rearranged b.toData b'.toData := by
  rw [isFloatFree, Bool.and_eq_true] at hb
  obtain ⟨fields, rfl, hfields⟩ := hdata
  obtain ⟨_, hslots, hrel⟩ := @namedSlots_present
    [("module", some _), ("symbols", some _), ("functions", some _)] fields (by simp) hfields
  obtain _ | ⟨hmodule, _ | ⟨@⟨_, _, hsymbols⟩, _ | ⟨hfunctions, _ | _⟩⟩⟩ := hrel
  -- The table is the only part that is read in the order it stands in.
  obtain ⟨entries, rfl, htable⟩ := hsymbols
  obtain ⟨symbols, hperm, rfl⟩ := exists_symbols htable
  refine ⟨{ b with symbols }, ?_, ⟨rfl, hperm, rfl⟩, rearranged_of_symbols b htable⟩
  have hread : withDefault [] symbols? (some (.object (symbols.map symbolField))) = some symbols :=
    symbols?_symbolField symbols
  simp only [List.map_cons, List.map_nil] at hslots
  simp [ofData?, slots?, hslots, triple?, hread,
    fieldReadBack_withDefault {} (Module.ofData?_readBack d hb.1) hmodule,
    fieldReadBack_withDefault [] (functions_readBack d hb.2) hfunctions]

theorem toData_eq_present (b : Batch) :
    b.toData = .object (present
      [("module", some b.module.toData), ("symbols", some (.object (b.symbols.map symbolField))),
        ("functions", some (.array (b.functions.map MachineFunction.toData)))]) := rfl

theorem ofData?_toData (d : Dialect) {b : Batch} (hb : b.isFloatFree) :
    ofData? d b.toData = some b := by
  rw [isFloatFree, Bool.and_eq_true] at hb
  simp [ofData?, toData_eq_present, present, slots?, namedSlots, List.mapM_cons, field?, triple?,
    withDefault, symbols?_symbolField, (Module.ofData?_readBack d hb.1).read_eq,
    (functions_readBack d hb.2).read_eq]

end Batch

/-! ## All of them -/

namespace Data

variable {α : Type}

/-- Whether a value outlives being written and read. If fields are moved about on the way, what
comes back is `same` as the value, and is written as the same data up to the order of fields. -/
structure Survives (same : α → α → Prop) (read : Data → Option α) (write : α → Data) (a : α) :
    Prop where
  read_write : read (write a) = some a
  write_read_write : (read (write a)).map write = some (write a)
  rearranged : ∀ data, Rearranged (write a) data →
    ∃ b, read data = some b ∧ same a b ∧ Rearranged (write a) (write b)

theorem ReadBack.survives {read : Data → Option α} {write : α → Data} {a : α}
    (h : ReadBack read (write a) a) : Survives Eq read write a where
  read_write := h.read_eq
  write_read_write := by rw [h.read_eq, Option.map_some]
  rearranged _ hdata := ⟨a, h hdata, rfl, .refl _⟩

theorem written_survives (d : Dialect) :
    (∀ t : ValueType, Survives Eq (ValueType.ofData? d) ValueType.toData t) ∧
    (∀ m : Module, m.isFloatFree → Survives Eq (Module.ofData? d) Module.toData m) ∧
    (∀ f : MachineFunction, f.isFloatFree →
      Survives Eq (MachineFunction.ofData? d) MachineFunction.toData f) ∧
    (∀ i : X86.Instruction, Survives Eq X86.Instruction.ofData? X86.Instruction.toData i) ∧
    (∀ e : PoolEntry, e.isFloatFree → Survives Eq (PoolEntry.ofData? d) PoolEntry.toData e) ∧
    (∀ b : Batch, b.isFloatFree → Survives Batch.SameTable (Batch.ofData? d) Batch.toData b) ∧
    (∀ c : Config, Survives Eq (Config.ofData? d) Config.toData c) := by
  refine ⟨fun t => (t.ofData?_readBack d).survives,
    fun m hm => (Module.ofData?_readBack d hm).survives,
    fun f hf => (MachineFunction.ofData?_readBack d hf).survives,
    fun i => i.ofData?_readBack.survives,
    fun e he => (PoolEntry.ofData?_readBack d he).survives,
    fun b hb => ?_, fun c => (c.ofData?_readBack d).survives⟩
  have hread := Batch.ofData?_toData d hb
  exact ⟨hread, by rw [hread, Option.map_some], fun _ => Batch.ofData?_rearranged d hb⟩

end Data

def PoolEntry.fourBytes : PoolEntry := ⟨.constant (.bytes [1, 2, 3, 4]), 4⟩

def MachineFunction.branches : MachineFunction where
  id := ⟨0⟩
  name := "branches"
  constantPool := [.fourBytes]
  jumpTables := some ⟨.labelDifference32, [⟨[⟨0⟩, ⟨0⟩]⟩]⟩
  blocks := [⟨⟨0⟩, [.movRI .rax (-1), .loadConst .rcx 0, .callSymbol "host", .ret]⟩]

def Batch.branching : Batch where
  module :=
    { globals :=
        [{ id := ⟨0⟩, name := "table", type := .array (.struct [.i64, .ptr]) 1
           init := some (.array (.struct [.i64, .ptr]) [.struct [.int .i64 (-1), .null]]) }]
      aliases := [⟨⟨1⟩, "other", .variable ⟨0⟩⟩] }
  symbols := [("host", 18446744073709551615)]
  functions := [.branches]

theorem Data.written_survives_branching :
    (Batch.branching.module.isFloatFree ∧ MachineFunction.branches.isFloatFree ∧
      PoolEntry.fourBytes.isFloatFree ∧ Batch.branching.isFloatFree) ∧
    Survives Eq (Module.ofData? .plain) Module.toData Batch.branching.module ∧
    Survives Eq (MachineFunction.ofData? .plain) MachineFunction.toData .branches ∧
    Survives Eq (PoolEntry.ofData? .plain) PoolEntry.toData .fourBytes ∧
    Survives Batch.SameTable (Batch.ofData? .plain) Batch.toData .branching := by
  obtain ⟨-, hmodule, hfunction, -, hentry, hbatch, -⟩ := written_survives .plain
  exact ⟨⟨rfl, rfl, rfl, rfl⟩, hmodule _ rfl, hfunction _ rfl, hentry _ rfl, hbatch _ rfl⟩

end CodeEmission
