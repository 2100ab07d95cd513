import CodeEmission.Data.Shape
import Mathlib.Data.List.Forall2
import Mathlib.Data.Option.Basic

/-! # Data up to the order of fields

An object means the same whatever order its fields stand in, and those who keep data may well sort
them. So a reader is asked to get a value back from every arrangement of what was written, and this
is what the shapes are shown to pass on: from the fields to the record, from the items to the array.
-/

namespace CodeEmission.Data

variable {α β γ δ : Type}

mutual

/-- Whether the second data is the first one but for the order of fields, at whatever depth. -/
def Rearranged : Data → Data → Prop
  | .array items, data => ∃ items', data = .array items' ∧ ItemsRearranged items items'
  | .object fields, data => ∃ fields', data = .object fields' ∧ FieldsRearranged fields fields'
  | leaf, data => data = leaf

def ItemsRearranged : List Data → List Data → Prop
  | [], items' => items' = []
  | d :: ds, items' => ∃ d' ds', items' = d' :: ds' ∧ Rearranged d d' ∧ ItemsRearranged ds ds'

def FieldsRearranged : List (String × Data) → List (String × Data) → Prop
  | [], fields' => fields' = []
  | (name, d) :: fs, fields' => ∃ before d' after, fields' = before ++ (name, d') :: after ∧
      Rearranged d d' ∧ FieldsRearranged fs (before ++ after)

end

@[simp] theorem rearranged_int {i : Int} {data : Data} :
    Rearranged (.int i) data ↔ data = .int i := by
  simp [Rearranged]

@[simp] theorem rearranged_nat {n : Nat} {data : Data} :
    Rearranged (.nat n) data ↔ data = .nat n :=
  rearranged_int

@[simp] theorem rearranged_string {s : String} {data : Data} :
    Rearranged (.string s) data ↔ data = .string s := by
  simp [Rearranged]

@[simp] theorem rearranged_bool {b : Bool} {data : Data} :
    Rearranged (.bool b) data ↔ data = .bool b := by
  simp [Rearranged]

@[simp] theorem rearranged_alternative {name : String} {body data : Data} :
    Rearranged (.object [(name, body)]) data ↔
      ∃ body', data = .object [(name, body')] ∧ Rearranged body body' := by
  simp only [Rearranged, FieldsRearranged, List.append_eq_nil_iff]
  constructor
  · rintro ⟨_, rfl, _, body', _, rfl, hbody, rfl, rfl⟩
    exact ⟨body', rfl, hbody⟩
  · rintro ⟨body', rfl, hbody⟩
    exact ⟨_, rfl, [], body', [], rfl, hbody, rfl, rfl⟩

mutual

theorem Rearranged.refl : (d : Data) → Rearranged d d
  | .array items => ⟨items, rfl, ItemsRearranged.refl items⟩
  | .object fields => ⟨fields, rfl, FieldsRearranged.refl fields⟩
  | .null | .bool _ | .int _ | .float _ | .string _ | .invalid => by simp [Rearranged]

theorem ItemsRearranged.refl : (ds : List Data) → ItemsRearranged ds ds
  | [] => rfl
  | d :: ds => ⟨d, ds, rfl, Rearranged.refl d, ItemsRearranged.refl ds⟩

theorem FieldsRearranged.refl : (fs : List (String × Data)) → FieldsRearranged fs fs
  | [] => rfl
  | (_, d) :: fs => ⟨[], d, fs, rfl, Rearranged.refl d, FieldsRearranged.refl fs⟩

end

theorem FieldsRearranged.perm_names {fields fields' : List (String × Data)}
    (h : FieldsRearranged fields fields') : (fields'.map (·.1)).Perm (fields.map (·.1)) := by
  -- The induction follows the fields in their old order, each of which is taken out of the new one.
  induction fields generalizing fields' with
  | nil => simp_all [FieldsRearranged]
  | cons f fs ih =>
    obtain ⟨before, d', after, rfl, -, hrest⟩ := h
    have hnames := ih hrest
    rw [List.map_append] at hnames
    rw [List.map_append, List.map_cons, List.map_cons]
    exact List.perm_middle.trans (hnames.cons f.1)

/-! ## Depth and soundness -/

theorem depth_le_depthItems {d : Data} {ds : List Data} (h : d ∈ ds) : d.depth ≤ depthItems ds := by
  induction h with
  | head ds => exact Nat.le_max_left ..
  | tail d _ ih => exact Nat.le_trans ih (Nat.le_max_right ..)

theorem depthFields_middle (before after : List (String × Data)) (f : String × Data) :
    depthFields (before ++ f :: after) = max f.2.depth (depthFields (before ++ after)) := by
  induction before with
  | nil => rfl
  | cons g gs ih =>
    simp only [List.cons_append, depthFields, ih]
    omega

theorem areSoundFields_middle (before after : List (String × Data)) (f : String × Data) :
    areSoundFields (before ++ f :: after) = (f.2.isSound && areSoundFields (before ++ after)) := by
  induction before with
  | nil => rfl
  | cons g gs ih => simp only [List.cons_append, areSoundFields, ih, Bool.and_left_comm]

mutual

theorem Rearranged.depth_eq : {d d' : Data} → Rearranged d d' → d'.depth = d.depth
  | .array _, _, ⟨_, rfl, h⟩ => by simp only [depth, h.depth_eq]
  | .object _, _, ⟨_, rfl, h⟩ => by simp only [depth, h.depth_eq]
  | .null, _, h | .bool _, _, h | .int _, _, h | .float _, _, h | .string _, _, h
  | .invalid, _, h => by simp_all [Rearranged]

theorem ItemsRearranged.depth_eq : {ds ds' : List Data} → ItemsRearranged ds ds' →
    depthItems ds' = depthItems ds
  | [], _, rfl => rfl
  | _ :: _, _, ⟨_, _, rfl, hd, hds⟩ => by simp only [depthItems, hd.depth_eq, hds.depth_eq]

theorem FieldsRearranged.depth_eq : {fs fs' : List (String × Data)} → FieldsRearranged fs fs' →
    depthFields fs' = depthFields fs
  | [], _, rfl => rfl
  | (_, _) :: _, _, ⟨_, _, _, rfl, hd, hfs⟩ => by
    simp only [depthFields_middle, depthFields, hd.depth_eq, hfs.depth_eq]

end

mutual

theorem Rearranged.isSound_eq : {d d' : Data} → Rearranged d d' → d'.isSound = d.isSound
  | .array _, _, ⟨_, rfl, h⟩ => by simp only [isSound, h.isSound_eq]
  | .object _, _, ⟨_, rfl, h⟩ => by simp only [isSound, h.isSound_eq]
  | .null, _, h | .bool _, _, h | .int _, _, h | .float _, _, h | .string _, _, h
  | .invalid, _, h => by simp_all [Rearranged]

theorem ItemsRearranged.isSound_eq : {ds ds' : List Data} → ItemsRearranged ds ds' →
    areSound ds' = areSound ds
  | [], _, rfl => rfl
  | _ :: _, _, ⟨_, _, rfl, hd, hds⟩ => by simp only [areSound, hd.isSound_eq, hds.isSound_eq]

theorem FieldsRearranged.isSound_eq : {fs fs' : List (String × Data)} → FieldsRearranged fs fs' →
    areSoundFields fs' = areSoundFields fs
  | [], _, rfl => rfl
  | (_, _) :: _, _, ⟨_, _, _, rfl, hd, hfs⟩ => by
    simp only [areSoundFields_middle, areSoundFields, hd.isSound_eq, hfs.isSound_eq]

end

/-! ## Fields by their names -/

theorem filter_eq_nil_of_not_mem {name : String} {fields : List (String × Data)}
    (h : name ∉ fields.map (·.1)) : fields.filter (·.1 = name) = [] := by
  rw [List.filter_eq_nil_iff]
  intro f hf heq
  exact h (List.mem_map.2 ⟨f, hf, by simpa using heq⟩)

theorem field?_of_not_mem {name : String} {fields : List (String × Data)}
    (h : name ∉ fields.map (·.1)) : field? name fields = some none := by
  simp only [field?, filter_eq_nil_of_not_mem h]

theorem field?_middle {name : String} {before after : List (String × Data)} (d : Data)
    (h : name ∉ (before ++ after).map (·.1)) :
    field? name (before ++ (name, d) :: after) = some (some d) := by
  simp only [List.map_append, List.mem_append, not_or] at h
  simp [field?, filter_eq_nil_of_not_mem h.1, filter_eq_nil_of_not_mem h.2]

theorem namedSlots_middle {names : List String} {name : String}
    (before after : List (String × Data)) (d : Data) (h : name ∉ names) :
    namedSlots names (before ++ (name, d) :: after) = namedSlots names (before ++ after) := by
  induction names with
  | nil => rfl
  | cons n names ih =>
    simp only [List.mem_cons, not_or] at h
    simp only [namedSlots, List.mapM_cons] at ih ⊢
    rw [ih h.2]
    simp [field?, h.1]

def present (slots : List (String × Slot)) : List (String × Data) :=
  slots.filterMap fun s => s.2.map (s.1, ·)

theorem mem_of_mem_present {name : String} {slots : List (String × Slot)}
    (h : name ∈ (present slots).map (·.1)) : name ∈ slots.map (·.1) := by
  simp only [present, List.mem_map, List.mem_filterMap, Option.map_eq_some_iff] at h
  obtain ⟨_, ⟨s, hs, _, -, rfl⟩, rfl⟩ := h
  exact List.mem_map.2 ⟨s, hs, rfl⟩

abbrev SlotsRearranged : List Slot → List Slot → Prop := List.Forall₂ (Option.Rel Rearranged)

/-- Every field of a record is found under its name, and nothing under the names of missing ones. -/
theorem namedSlots_present {slots : List (String × Slot)} {fields : List (String × Data)}
    (hnames : (slots.map (·.1)).Nodup) (h : FieldsRearranged (present slots) fields) :
    ∃ slots', namedSlots (slots.map (·.1)) fields = some slots' ∧
      SlotsRearranged (slots.map (·.2)) slots' := by
  induction slots generalizing fields with
  | nil => exact ⟨[], rfl, .nil⟩
  | cons s slots ih =>
    obtain ⟨name, slot⟩ := s
    simp only [List.map_cons, List.nodup_cons] at hnames
    have habsent {fields : List (String × Data)} (h : FieldsRearranged (present slots) fields) :
        name ∉ fields.map (·.1) := fun hmem =>
      hnames.1 (mem_of_mem_present (h.perm_names.subset hmem))
    cases slot with
    | none =>
      obtain ⟨slots', hslots, hrel⟩ := ih hnames.2 h
      refine ⟨none :: slots', ?_, .cons .none hrel⟩
      simp only [namedSlots, List.map_cons, List.mapM_cons] at hslots ⊢
      simp [field?_of_not_mem (habsent h), hslots]
    | some d =>
      obtain ⟨before, d', after, rfl, hd, hrest⟩ := h
      obtain ⟨slots', hslots, hrel⟩ := ih hnames.2 hrest
      refine ⟨some d' :: slots', ?_, .cons (.some hd) hrel⟩
      rw [← namedSlots_middle before after d' hnames.1] at hslots
      simp only [namedSlots, List.map_cons, List.mapM_cons] at hslots ⊢
      simp [field?_middle d' (habsent hrest), hslots]

/-! ## Readers that get values back -/

/-- Whether a value is read from some data, however it is arranged. -/
def ReadBack (read : Data → Option α) (data : Data) (a : α) : Prop :=
  ∀ ⦃data'⦄, Rearranged data data' → read data' = some a

def FieldReadBack (read : Slot → Option α) (slot : Slot) (a : α) : Prop :=
  ∀ ⦃slot'⦄, Option.Rel Rearranged slot slot' → read slot' = some a

theorem ReadBack.read_eq {read : Data → Option α} {data : Data} {a : α} (h : ReadBack read data a) :
    read data = some a := h (.refl data)

section leaves

variable {read : Data → Option α} {a : α}

theorem readBack_int {i : Int} (h : read (.int i) = some a) : ReadBack read (.int i) a := by
  simpa [ReadBack] using h

theorem readBack_nat {n : Nat} (h : read (.nat n) = some a) : ReadBack read (.nat n) a :=
  readBack_int h

theorem readBack_string {s : String} (h : read (.string s) = some a) :
    ReadBack read (.string s) a := by
  simpa [ReadBack] using h

theorem readBack_bool {b : Bool} (h : read (.bool b) = some a) : ReadBack read (.bool b) a := by
  simpa [ReadBack] using h

end leaves

theorem natBelow?_nat {bound n : Nat} (h : n < bound) : natBelow? bound (.nat n) = some n := by
  have hbound : (n : Int) < bound := by exact_mod_cast h
  simp [natBelow?, Data.nat, hbound]

theorem intIn?_int {least most i : Int} (hleast : least ≤ i) (hmost : i ≤ most) :
    intIn? least most (.int i) = some i := by
  simp [intIn?, hleast, hmost]

theorem readBack_byte (b : UInt8) : ReadBack byte? (.nat b.toNat) b :=
  readBack_nat (by simp [byte?, natBelow?_nat b.toNat_lt])

theorem readBack_word32 (w : UInt32) : ReadBack word32? (.nat w.toNat) w :=
  readBack_nat (by simp [word32?, natBelow?_nat w.toNat_lt])

theorem readBack_word64 (w : UInt64) : ReadBack word64? (.nat w.toNat) w :=
  readBack_nat (by simp [word64?, natBelow?_nat w.toNat_lt])

theorem readBack_int32 (i : Int32) : ReadBack int32? (.int i.toInt) i :=
  readBack_int (by
    have hleast := i.le_toInt
    have hmost := i.toInt_lt
    rw [int32?, intIn?_int (by omega) (by omega)]
    simp)

theorem readBack_int64 (i : Int64) : ReadBack int64? (.int i.toInt) i :=
  readBack_int (by
    have hleast := i.le_toInt
    have hmost := i.toInt_lt
    rw [int64?, intIn?_int (by omega) (by omega)]
    simp)

theorem readBack_id {kind : IdKind} (id : Id kind) : ReadBack id? (.nat id.number.toNat) id :=
  fun _ h => by simp [id?, readBack_word32 id.number h]

theorem readBack_text (s : String) : ReadBack string? (.string s) s := readBack_string rfl

theorem readBack_flag (b : Bool) : ReadBack bool? (.bool b) b := readBack_bool rfl

theorem readBack_choice (d : Dialect) {read : String → Option α} {name : String} {a : α}
    (h : read name = some a) : ReadBack (choice? d read) (.string name) a :=
  readBack_string h

theorem readBack_alternative {read : Data → Option α} {name : String} {body : Data} {a : α}
    (h : ReadBack (fun body' => read (.object [(name, body')])) body a) :
    ReadBack read (.object [(name, body)]) a := by
  intro data hdata
  obtain ⟨body', rfl, hbody⟩ := rearranged_alternative.1 hdata
  exact h hbody

theorem readBack_list {read : Data → Option α} {write : α → Data} {as : List α}
    (h : ∀ a ∈ as, ReadBack read (write a) a) :
    ReadBack (list? read) (.array (as.map write)) as := by
  rintro _ ⟨items, rfl, hitems⟩
  simp only [list?]
  induction as generalizing items with
  | nil => simp_all [ItemsRearranged]
  | cons a as ih =>
    obtain ⟨d, ds, rfl, hd, hds⟩ := hitems
    have hrest := ih (fun b hb => h b (List.mem_cons_of_mem _ hb)) ds hds
    simp [List.mapM_cons, h a List.mem_cons_self hd, hrest]

section fields

variable {read : Data → Option α} {data : Data} {a : α}

theorem fieldReadBack_required (h : ReadBack read data a) :
    FieldReadBack (required read) (some data) a := by
  rintro _ ⟨hdata⟩
  exact h hdata

theorem fieldReadBack_withDefault (usual : α) (h : ReadBack read data a) :
    FieldReadBack (withDefault usual read) (some data) a := by
  rintro _ ⟨hdata⟩
  exact h hdata

/-- What is written is never null, so a field that holds something is told from a missing one. -/
theorem fieldReadBack_optional {write : α → Data} {o : Option α}
    (h : ∀ a ∈ o, ReadBack read (write a) a) (hnull : ∀ a, ¬Rearranged (write a) .null) :
    FieldReadBack (optional read) (o.map write) o := by
  intro slot hslot
  cases o with
  | none => cases hslot; rfl
  | some a =>
    obtain @⟨_, data, hdata⟩ := hslot
    have hread := h a rfl hdata
    cases data with
    | null => exact absurd hdata (hnull a)
    | _ => simp [optional, hread]

end fields

/-! ## Records -/

theorem readBack_record (d : Dialect) (slots : List (String × Slot))
    {build : List Slot → Option α} {a : α} (hnames : (slots.map (·.1)).Nodup)
    (hbuild : ∀ slots', SlotsRearranged (slots.map (·.2)) slots' → build slots' = some a) :
    ReadBack (fun data => (data.slots? d (slots.map (·.1))).bind build)
      (.object (present slots)) a := by
  rintro _ ⟨fields, rfl, hfields⟩
  obtain ⟨slots', hslots, hrel⟩ := namedSlots_present hnames hfields
  simp [slots?, hslots, hbuild slots' hrel]

theorem readBack_body (d : Dialect) (slots : List (String × Slot))
    {build : List Slot → Option α} {a : α} (hnames : (slots.map (·.1)).Nodup)
    (hbuild : ∀ slots', SlotsRearranged (slots.map (·.2)) slots' → build slots' = some a) :
    ReadBack (fun data => (data.bodySlots? d (slots.map (·.1))).bind build)
      (.object (present slots)) a := by
  rintro _ ⟨fields, rfl, hfields⟩
  have hknown : fields.any (fun f => !(slots.map (·.1)).contains f.1) = false := by
    rw [List.any_eq_false]
    intro f hf
    have hmem := mem_of_mem_present (hfields.perm_names.subset (List.mem_map_of_mem hf))
    simpa using hmem
  obtain ⟨slots', hslots, hrel⟩ := namedSlots_present hnames hfields
  simp only [bodySlots?, hknown, Bool.and_false, Bool.false_eq_true, ↓reduceIte, hslots,
    Option.bind_some, hbuild slots' hrel]

section records

variable {f : α → β → γ} {readA : Slot → Option α} {readB : Slot → Option β}
  {readC : Slot → Option γ} {a : α} {b : β} {c : γ} {slotA slotB slotC : Slot} {slots : List Slot}

theorem single?_readBack {f : α → β} (ha : FieldReadBack readA slotA a)
    (h : SlotsRearranged [slotA] slots) : single? f readA slots = some (f a) := by
  obtain _ | ⟨hslotA, _ | _⟩ := h
  simp [single?, ha hslotA]

theorem pair?_readBack (ha : FieldReadBack readA slotA a) (hb : FieldReadBack readB slotB b)
    (h : SlotsRearranged [slotA, slotB] slots) : pair? f readA readB slots = some (f a b) := by
  obtain _ | ⟨hslotA, _ | ⟨hslotB, _ | _⟩⟩ := h
  simp [pair?, ha hslotA, hb hslotB]

theorem triple?_readBack {f : α → β → γ → δ} (ha : FieldReadBack readA slotA a)
    (hb : FieldReadBack readB slotB b) (hc : FieldReadBack readC slotC c)
    (h : SlotsRearranged [slotA, slotB, slotC] slots) :
    triple? f readA readB readC slots = some (f a b c) := by
  obtain _ | ⟨hslotA, _ | ⟨hslotB, _ | ⟨hslotC, _ | _⟩⟩⟩ := h
  simp [triple?, ha hslotA, hb hslotB, hc hslotC]

end records

end CodeEmission.Data
