import CodeEmission.Proofs.Resolution.Distances
import CodeEmission.Proofs.Resolution.Patching
import CodeEmission.Proofs.Resolution.Stores

/-! # Exactly the fields

Relocations whose fields do not overlap are patched into a byte array. Each field that is reached then
holds its address, no other byte is changed, and patching again changes nothing. Patching stops at the
first relocation that has no address, lies outside of the array or is too far from its target, and is
cut off at a relative field that ends behind the last address.
-/

namespace CodeEmission

namespace Bytes

def field (bytes : Bytes) (offset width : Nat) : List UInt8 :=
  (bytes.extract offset (offset + width)).toList

variable {dest : Bytes} {offset : Nat} {bs : List UInt8}

theorem lt_size_of_getElem? {k : Nat} (h : ∀ k < bs.length, dest[offset + k]? = bs[k]?)
    (hk : k < bs.length) : offset + k < dest.size := by
  have hget := h k hk
  rw [List.getElem?_eq_getElem hk] at hget
  exact (Array.getElem?_eq_some_iff.1 hget).1

theorem field_eq (h : ∀ k < bs.length, dest[offset + k]? = bs[k]?) :
    dest.field offset bs.length = bs := by
  refine List.ext_getElem? ?_
  intro k
  rw [field, Array.getElem?_toList, Array.getElem?_extract]
  by_cases hk : k < bs.length
  · have hsize := lt_size_of_getElem? h hk
    rw [if_pos (by omega), h k hk]
  · rw [if_neg (by omega), List.getElem?_eq_none (Nat.le_of_not_lt hk)]

theorem overwrite_self (h : ∀ k < bs.length, dest[offset + k]? = bs[k]?) :
    dest.overwrite offset bs = dest := by
  refine Array.ext_getElem? ?_
  intro i
  by_cases hi : offset ≤ i ∧ i < offset + bs.length
  · obtain ⟨k, rfl⟩ := Nat.exists_eq_add_of_le hi.1
    have hk : k < bs.length := by omega
    have hlast : offset + (bs.length - 1) < dest.size := lt_size_of_getElem? h (by omega)
    rw [getElem?_overwrite_inside (by omega) hk, h k hk]
  · exact getElem?_overwrite_outside dest (by omega)

end Bytes

namespace Plan

variable {ε : Type} {p : Plan ε} {dest : Bytes}

theorem getElem?_apply_outside {i : Nat}
    (h : ∀ s ∈ p.stores, i < s.offset ∨ s.offset + s.bytes.length ≤ i) :
    (p.apply dest)[i]? = dest[i]? := by
  unfold apply
  generalize p.stores = stores at h ⊢
  induction stores generalizing dest with
  | nil => rfl
  | cons s ss ih =>
    have hrest : (ss.foldl (fun d t => d.overwrite t.offset t.bytes)
        (dest.overwrite s.offset s.bytes))[i]? = (dest.overwrite s.offset s.bytes)[i]? :=
      ih fun t ht => h t (List.mem_cons_of_mem _ ht)
    exact hrest.trans (Bytes.getElem?_overwrite_outside dest (h s List.mem_cons_self))

/-- Of stores that do not overlap each is found at its place. -/
theorem getElem?_apply_inside {s : Store} {k : Nat}
    (happart : p.stores.Pairwise fun s t => Block.Apart s t.offset t.bytes.length)
    (hdest : ∀ t ∈ p.stores, t.offset + t.bytes.length ≤ dest.size) (hs : s ∈ p.stores)
    (hk : k < s.bytes.length) : (p.apply dest)[s.offset + k]? = s.bytes[k]? := by
  obtain ⟨before, after, hsplit⟩ := List.append_of_mem hs
  rw [hsplit, List.pairwise_append, List.pairwise_cons] at happart
  have hlater := happart.2.1.1
  have hend := hdest s hs
  have hsize : (Plan.apply (⟨before, none⟩ : Plan ε) dest).size = dest.size := size_apply _ _
  have happly : p.apply dest = Plan.apply (⟨after, none⟩ : Plan ε)
      ((Plan.apply (⟨before, none⟩ : Plan ε) dest).overwrite s.offset s.bytes) := by
    rw [apply, hsplit, List.foldl_append]
    rfl
  rw [happly, getElem?_apply_outside]
  · exact Bytes.getElem?_overwrite_inside (by rwa [hsize]) hk
  · intro t ht
    rcases hlater t ht with h | h <;> omega

theorem apply_self
    (h : ∀ s ∈ p.stores, ∀ k < s.bytes.length, dest[s.offset + k]? = s.bytes[k]?) :
    p.apply dest = dest := by
  unfold apply
  generalize p.stores = stores at h ⊢
  induction stores with
  | nil => rfl
  | cons s ss ih =>
    rw [List.foldl_cons, Bytes.overwrite_self (h s List.mem_cons_self)]
    exact ih fun t ht => h t (List.mem_cons_of_mem _ ht)

end Plan

namespace Relocation

variable {base : UInt64} {size : Nat} {r : Relocation} {rs : List Relocation}

def Apart (r s : Relocation) : Prop := r.fieldEnd ≤ s.offset ∨ s.fieldEnd ≤ r.offset

/-- The distance from the end of a relative field in code at `base` to an address, as a signed number
of 64 bits. -/
def span (r : Relocation) (base address : UInt64) : Int :=
  (address - (base + UInt64.ofNat r.offset + 4)).toInt64.toInt

def Reaches (r : Relocation) (base address : UInt64) : Prop :=
  -2147483648 ≤ r.span base address ∧ r.span base address < 2147483648

/-- What it takes to be patched: an address that was found, a field within the code, and a distance
that can be measured and has room in the field. -/
structure Patchable (base : UInt64) (size : Nat) (r : Relocation) (result : UInt64) : Prop where
  found : r.result = some result
  not_left : r.leftToTarget = false
  word : r.fieldEnd ≤ Word.largest
  inside : r.fieldEnd ≤ size
  measured : r.kind = .pcRel32 → base.toNat + r.fieldEnd ≤ Word.largest
  reaches : r.kind = .pcRel32 → r.Reaches base (result + r.addend.toUInt64)

/-- The reasons not to be patched, each with its error. Of several the first counts. -/
inductive Defect (base : UInt64) (size : Nat) (r : Relocation) : EmitError → Prop
  | noAddress (h : r.result = none ∨ r.leftToTarget = true) :
    Defect base size r (.unhandledRelocation r.offset)
  | noWord {result : UInt64} (hresult : r.result = some result) (hleft : r.leftToTarget = false)
    (h : Word.largest < r.fieldEnd) : Defect base size r (.crash .sum)
  | outside {result : UInt64} (hresult : r.result = some result) (hleft : r.leftToTarget = false)
    (hword : r.fieldEnd ≤ Word.largest) (h : size < r.fieldEnd) :
    Defect base size r (.relocationOutOfBounds r.offset)
  | notMeasured {result : UInt64} (hresult : r.result = some result) (hleft : r.leftToTarget = false)
    (hinside : r.fieldEnd ≤ size) (hkind : r.kind = .pcRel32)
    (h : Word.largest < base.toNat + r.fieldEnd) : Defect base size r (.crash .sum)
  | outOfRange {result : UInt64} (hresult : r.result = some result) (hleft : r.leftToTarget = false)
    (hinside : r.fieldEnd ≤ size) (hkind : r.kind = .pcRel32)
    (hmeasured : base.toNat + r.fieldEnd ≤ Word.largest)
    (h : ¬r.Reaches base (result + r.addend.toUInt64)) :
    Defect base size r (.relocationRange r.offset (result + r.addend.toUInt64))

theorem Defect.not_patchable {e : EmitError} {result : UInt64} (h : r.Defect base size e) :
    ¬r.Patchable base size result := by
  intro hp
  cases h with
  | noAddress h => simp [hp.found, hp.not_left] at h
  | noWord _ _ h => exact absurd hp.word (Nat.not_le.2 h)
  | outside _ _ _ h => exact absurd hp.inside (Nat.not_le.2 h)
  | notMeasured _ _ _ hkind h => exact absurd (hp.measured hkind) (Nat.not_le.2 h)
  | outOfRange hresult _ _ hkind _ h =>
    have hfound := hp.found
    rw [hresult] at hfound
    cases hfound
    exact h (hp.reaches hkind)

theorem address?_eq_some {address : UInt64} :
    r.address? = some address ↔ ∃ result, r.result = some result ∧ r.leftToTarget = false ∧
      result + r.addend.toUInt64 = address := by
  unfold address?
  cases r.leftToTarget <;> simp

theorem address?_eq_none : r.address? = none ↔ r.result = none ∨ r.leftToTarget = true := by
  unfold address?
  cases r.leftToTarget <;> simp

theorem exists_distance (hkind : r.kind = .pcRel32)
    (hmeasured : base.toNat + r.fieldEnd ≤ Word.largest) (address : UInt64) :
    ∃ d, r.distance base address = .ok d ∧
      (r.Reaches base address ↔ -2147483648 ≤ d ∧ d ≤ 2147483647) := by
  refine ⟨_, distance_eq_ok.2 ⟨hmeasured, rfl⟩, ?_⟩
  have hend : base + UInt64.ofNat r.fieldEnd = base + UInt64.ofNat r.offset + 4 := by
    rw [fieldEnd, hkind, RelocKind.width, UInt64.ofNat_add, ← UInt64.add_assoc]
    rfl
  have hmin : (-2147483648 : Int64).toInt = -2147483648 := rfl
  have hmax : (2147483647 : Int64).toInt = 2147483647 := rfl
  rw [Reaches, span, hend, Int64.le_iff_toInt_le, Int64.le_iff_toInt_le, hmin, hmax]
  omega

theorem patch_cases (base : UInt64) (size : Nat) (r : Relocation) :
    ((∃ result, r.Patchable base size result) ∧ (r.patch base size).fault = none) ∨
      ∃ e, r.Defect base size e ∧ r.patch base size = .fail e := by
  unfold patch
  cases ha : r.address? with
  | none => exact .inr ⟨_, .noAddress (address?_eq_none.1 ha), rfl⟩
  | some address =>
    obtain ⟨result, hresult, hleft, rfl⟩ := address?_eq_some.1 ha
    dsimp only
    split
    · exact .inr ⟨_, .noWord hresult hleft ‹_›, rfl⟩
    rename_i hword
    have hword := Nat.le_of_not_lt hword
    split
    · exact .inr ⟨_, .outside hresult hleft hword ‹_›, rfl⟩
    rename_i hinside
    have hinside := Nat.le_of_not_lt hinside
    cases hk : r.kind with
    | abs64 =>
      have hnot : r.kind ≠ .pcRel32 := by
        rw [hk]
        decide
      refine .inl ⟨⟨result, hresult, hleft, hword, hinside, fun h => absurd h hnot,
        fun h => absurd h hnot⟩, ?_⟩
      simp only [fieldBytes, hk]
      rfl
    | pcRel32 =>
      by_cases hmeasured : base.toNat + r.fieldEnd ≤ Word.largest
      · obtain ⟨d, hd, hiff⟩ := exists_distance hk hmeasured (result + r.addend.toUInt64)
        by_cases hreach : r.Reaches base (result + r.addend.toUInt64)
        · refine .inl ⟨⟨result, hresult, hleft, hword, hinside, fun _ => hmeasured,
            fun _ => hreach⟩, ?_⟩
          simp only [fieldBytes, hk, hd, if_pos (hiff.1 hreach)]
          rfl
        · refine .inr ⟨_, .outOfRange hresult hleft hinside hk hmeasured hreach, ?_⟩
          simp only [fieldBytes, hk, hd, if_neg (mt hiff.2 hreach)]
      · have hbeyond := Nat.not_le.1 hmeasured
        refine .inr ⟨_, .notMeasured hresult hleft hinside hk hbeyond, ?_⟩
        rw [fieldBytes_of_largest_lt hk hbeyond]

theorem patchAll_cases (base : UInt64) (size : Nat) (rs : List Relocation) :
    ((∀ r ∈ rs, ∃ result, r.Patchable base size result) ∧ (patchAll base size rs).fault = none) ∨
      ∃ before r after e, rs = before ++ r :: after ∧
        (∀ r ∈ before, ∃ result, r.Patchable base size result) ∧ r.Defect base size e ∧
        (patchAll base size before).fault = none ∧
        patchAll base size rs = ⟨(patchAll base size before).stores, some e⟩ := by
  induction rs with
  | nil => exact .inl ⟨nofun, rfl⟩
  | cons r rs ih =>
    rcases patch_cases base size r with ⟨hr, hfault⟩ | ⟨e, he, hpatch⟩
    · rcases ih with ⟨hrs, hrest⟩ | ⟨before, d, after, e, rfl, hbefore, hd, hnone, hrest⟩
      · refine .inl ⟨List.forall_mem_cons.2 ⟨hr, hrs⟩, ?_⟩
        exact Plan.andThen_fault_eq_none.2 ⟨hfault, hrest⟩
      · refine .inr ⟨r :: before, d, after, e, rfl, List.forall_mem_cons.2 ⟨hr, hbefore⟩, hd,
          Plan.andThen_fault_eq_none.2 ⟨hfault, hnone⟩, ?_⟩
        simp only [patchAll, hrest, Plan.andThen, hfault]
    · refine .inr ⟨[], r, rs, e, rfl, nofun, he, rfl, ?_⟩
      simp only [patchAll, hpatch, Plan.fail_andThen]
      rfl

theorem stores_apart {ss : List Store} (h : List.Forall₂ (PatchedBy base size) rs ss)
    (hrs : rs.Pairwise Apart) :
    ss.Pairwise fun s t => Block.Apart s t.offset t.bytes.length := by
  induction h with
  | nil => exact .nil
  | cons hp hps ih =>
    obtain ⟨hfirst, hrest⟩ := List.pairwise_cons.1 hrs
    refine List.pairwise_cons.2 ⟨?_, ih hrest⟩
    intro t ht
    obtain ⟨r', hr', hp'⟩ := exists_of_mem_stores hps ht
    rw [Block.Apart, hp.offset, hp.length, hp'.offset, hp'.length]
    exact hfirst r' hr'

theorem exists_store_of_mem {ss : List Store} (h : List.Forall₂ (PatchedBy base size) rs ss)
    (hr : r ∈ rs) : ∃ s ∈ ss, r.PatchedBy base size s := by
  induction h with
  | nil => cases hr
  | @cons _ s _ ss hp _ ih =>
    rcases List.mem_cons.1 hr with rfl | hr
    · exact ⟨s, List.mem_cons_self, hp⟩
    · obtain ⟨s', hs', hp'⟩ := ih hr
      exact ⟨s', List.mem_cons_of_mem _ hs', hp'⟩

/-- What patching makes of an array of bytes: every field leads to the address of its relocation, and
the bytes outside of the fields are as before. -/
structure Patched (base : UInt64) (rs : List Relocation) (code code' : Bytes) : Prop where
  size : code'.size = code.size
  fields : ∀ r ∈ rs, ∃ result, r.Patchable base code.size result ∧
    r.decode base (code'.field r.offset r.kind.width) = result + r.addend.toUInt64
  frame : ∀ i, (∀ r ∈ rs, i < r.offset ∨ r.fieldEnd ≤ i) → code'[i]? = code[i]?

variable {code : Bytes}

theorem getElem?_patchAll {s : Store} {k : Nat} (hrs : rs.Pairwise Apart)
    (h : (patchAll base code.size rs).fault = none) (hs : s ∈ (patchAll base code.size rs).stores)
    (hk : k < s.bytes.length) :
    ((patchAll base code.size rs).apply code)[s.offset + k]? = s.bytes[k]? := by
  have hstores := patchAll_stores h
  refine Plan.getElem?_apply_inside (stores_apart hstores hrs) ?_ hs hk
  intro t ht
  obtain ⟨r, _, hp⟩ := exists_of_mem_stores hstores ht
  rw [hp.offset, hp.length]
  exact hp.le_limit

theorem patched_of_fault_eq_none (hrs : rs.Pairwise Apart)
    (hall : ∀ r ∈ rs, ∃ result, r.Patchable base code.size result)
    (h : (patchAll base code.size rs).fault = none) :
    Patched base rs code ((patchAll base code.size rs).apply code) := by
  have hstores := patchAll_stores h
  refine ⟨Plan.size_apply _ _, ?_, ?_⟩
  · intro r hr
    obtain ⟨result, hpatchable⟩ := hall r hr
    obtain ⟨s, hs, hp⟩ := exists_store_of_mem hstores hr
    obtain ⟨address, haddress, hdecode⟩ := hp.address
    obtain ⟨result', hresult', _, rfl⟩ := address?_eq_some.1 haddress
    rw [hpatchable.found] at hresult'
    cases hresult'
    have hfield := Bytes.field_eq fun k hk => getElem?_patchAll hrs h hs hk
    rw [hp.offset, hp.length] at hfield
    exact ⟨result, hpatchable, by rw [hfield, hdecode]⟩
  · intro i hi
    refine Plan.getElem?_apply_outside ?_
    intro s hs
    obtain ⟨r, hr, hp⟩ := exists_of_mem_stores hstores hs
    rw [hp.offset, hp.length]
    exact hi r hr

/-- Relocations with disjoint fields are patched exactly if each of them can be. Then every field leads
to its address, no other byte is changed, and patching once more changes nothing. Otherwise the error is
that of the first relocation which cannot be patched: those before it are patched, and nothing else is. -/
theorem patchAll_exact (base : UInt64) (code : Bytes) {rs : List Relocation}
    (hrs : rs.Pairwise Apart) :
    ((patchAll base code.size rs).fault = none ↔
        ∀ r ∈ rs, ∃ result, r.Patchable base code.size result) ∧
      ((patchAll base code.size rs).fault = none → ∀ code',
        code' = (patchAll base code.size rs).apply code →
          Patched base rs code code' ∧ (patchAll base code'.size rs).fault = none ∧
            (patchAll base code'.size rs).apply code' = code') ∧
      ∀ e, (patchAll base code.size rs).fault = some e → ∃ before r after,
        rs = before ++ r :: after ∧ r.Defect base code.size e ∧
          Patched base before code ((patchAll base code.size rs).apply code) := by
  rcases patchAll_cases base code.size rs with
    ⟨hall, hfault⟩ | ⟨before, r, after, e, rfl, hbefore, hdefect, hnone, hplan⟩
  · refine ⟨⟨fun _ => hall, fun _ => hfault⟩, ?_, ?_⟩
    · rintro _ _ rfl
      refine ⟨patched_of_fault_eq_none hrs hall hfault, ?_, ?_⟩
      · rwa [Plan.size_apply]
      · rw [Plan.size_apply]
        exact Plan.apply_self fun s hs k hk => getElem?_patchAll hrs hfault hs hk
    · intro e he
      rw [hfault] at he
      cases he
  · have hfault : (patchAll base code.size (before ++ r :: after)).fault = some e := by rw [hplan]
    refine ⟨⟨?_, ?_⟩, ?_, ?_⟩
    · intro h
      rw [hfault] at h
      cases h
    · intro hall
      obtain ⟨result, hr⟩ := hall r (by simp)
      exact absurd hr hdefect.not_patchable
    · intro h
      rw [hfault] at h
      cases h
    · intro e' he'
      rw [hfault] at he'
      cases he'
      refine ⟨before, r, after, rfl, hdefect, ?_⟩
      rw [hplan]
      exact patched_of_fault_eq_none (List.pairwise_append.1 hrs).1 hbefore hnone

theorem patchAll_exact_mixed :
    let rs : List Relocation :=
      [{ offset := 8, kind := .pcRel32, target := .constantPool 0, addend := -4, result := some 0x2000 },
       { offset := 0, kind := .abs64, target := .externalSymbol "f", result := some 0x8000000000 },
       { offset := 12, kind := .pcRel32, target := .basicBlock ⟨0⟩, addend := 1, result := some 0xff0 }]
    let code : Bytes := Array.replicate 17 0xcc
    rs.Pairwise Apart ∧ (patchAll 0x1000 code.size rs).fault = none ∧
      Patched 0x1000 rs code ((patchAll 0x1000 code.size rs).apply code) := by
  intro rs code
  have happart : rs.Pairwise Apart := by
    unfold Apart
    decide
  have hfault : (patchAll 0x1000 code.size rs).fault = none := by decide
  exact ⟨happart, hfault, ((patchAll_exact 0x1000 code happart).2.1 hfault _ rfl).1⟩

/-- The field at the very end of the addresses is near to its target, and yet nothing is returned. -/
theorem patchAll_overflows :
    let r : Relocation := { offset := 0, kind := .pcRel32, target := .basicBlock ⟨0⟩, result := some 0 }
    let base : UInt64 := 0xFFFFFFFFFFFFFFFC
    r.Reaches base 0 ∧ (patchAll base 4 [r]).fault = some (.crash .sum) := by
  intro r base
  refine ⟨?_, by decide⟩
  unfold Reaches span
  decide

end Relocation

end CodeEmission
