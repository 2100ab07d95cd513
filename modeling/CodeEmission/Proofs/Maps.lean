import Mathlib.Data.List.Forall2
import Mathlib.Data.List.Nodup
import Mathlib.Data.List.Sort
import CodeEmission.IdMap

/-! # Maps in ascending order

Inserting, removing and changing entries keeps the keys of a map in strictly ascending order, so a
walk over the map meets every key once, with the value that a look-up finds.
-/

namespace CodeEmission.IdMap

variable {kind : IdKind} {α : Type}

def Ascending (m : IdMap kind α) : Prop := m.entries.Pairwise fun e e' => e.1.number < e'.1.number

theorem eq_of_ascending {β : Type} (f : β → UInt32) {l l' : List β}
    (h : l.Pairwise fun a b => f a < f b) (h' : l'.Pairwise fun a b => f a < f b)
    (hmem : ∀ a, a ∈ l ↔ a ∈ l') : l = l' := by
  have hirrefl : Std.Irrefl fun a b => f a < f b := ⟨fun a => UInt32.lt_irrefl (f a)⟩
  have hantisymm : Std.Antisymm fun a b => f a < f b :=
    ⟨fun a b hab hba => absurd (UInt32.lt_trans hab hba) (UInt32.lt_irrefl (f a))⟩
  exact h.eq_of_mem_iff h' hmem

theorem mem_insertIn {key : Id kind} {value : α} {l : List (Id kind × α)} {e : Id kind × α}
    (h : e ∈ insertIn key value l) : e = (key, value) ∨ e ∈ l := by
  induction l with
  | nil => exact .inl (List.mem_singleton.1 h)
  | cons d rest ih =>
    obtain ⟨k, v⟩ := d
    unfold insertIn at h
    split at h
    · exact List.mem_cons.1 h
    · split at h
      · exact (List.mem_cons.1 h).imp_right (List.mem_cons_of_mem _)
      · rcases List.mem_cons.1 h with rfl | h
        · exact .inr List.mem_cons_self
        · exact (ih h).imp_right (List.mem_cons_of_mem _)

theorem pairwise_insertIn (key : Id kind) (value : α) {l : List (Id kind × α)}
    (h : l.Pairwise fun e e' => e.1.number < e'.1.number) :
    (insertIn key value l).Pairwise fun e e' => e.1.number < e'.1.number := by
  induction l with
  | nil => exact List.pairwise_singleton _ _
  | cons d rest ih =>
    obtain ⟨k, v⟩ := d
    obtain ⟨hd, hrest⟩ := List.pairwise_cons.1 h
    unfold insertIn
    split
    · rename_i hlt
      refine List.pairwise_cons.2 ⟨?_, h⟩
      intro e he
      rcases List.mem_cons.1 he with rfl | he
      · exact hlt
      · exact UInt32.lt_trans hlt (hd e he)
    · rename_i hnlt
      split
      · rename_i heq
        subst heq
        exact List.pairwise_cons.2 ⟨hd, hrest⟩
      · rename_i hne
        refine List.pairwise_cons.2 ⟨?_, ih hrest⟩
        intro e he
        rcases mem_insertIn he with rfl | he
        · have hnumber : k.number ≠ key.number := fun hk => hne (Id.ext_number hk.symm)
          exact UInt32.lt_of_le_of_ne (UInt32.not_lt.1 hnlt) hnumber
        · exact hd e he

theorem Ascending.insert {m : IdMap kind α} (h : m.Ascending) (key : Id kind) (value : α) :
    (m.insert key value).Ascending := pairwise_insertIn key value h

theorem Ascending.erase {m : IdMap kind α} (h : m.Ascending) (key : Id kind) :
    (m.erase key).Ascending := List.Pairwise.filter _ h

theorem Ascending.modify {m : IdMap kind α} (h : m.Ascending) (key : Id kind) (f : α → α) :
    (m.modify key f).Ascending := by
  refine List.pairwise_map.2 (h.imp ?_)
  intro e e' hlt
  split <;> split <;> exact hlt

theorem modify_modify (m : IdMap kind α) (key : Id kind) (f g : α → α) :
    (m.modify key f).modify key g = m.modify key (g ∘ f) := by
  unfold IdMap.modify
  rw [List.map_map]
  congr 2
  funext e
  by_cases h : e.1 = key <;> simp [h]

theorem Ascending.nodup_keys {m : IdMap kind α} (h : m.Ascending) : m.keys.Nodup := by
  refine List.pairwise_map.2 (h.imp ?_)
  intro e e' hlt heq
  rw [heq] at hlt
  exact UInt32.lt_irrefl _ hlt

theorem Ascending.get?_of_mem {m : IdMap kind α} (h : m.Ascending) {key : Id kind} {value : α}
    (hm : (key, value) ∈ m.entries) : m.get? key = some value := by
  obtain ⟨l⟩ := m
  have hnodup := h.nodup_keys
  simp only [keys, get?] at hnodup hm ⊢
  induction l with
  | nil => cases hm
  | cons d rest ih =>
    obtain ⟨k, v⟩ := d
    obtain ⟨hd, hrest⟩ := List.nodup_cons.1 hnodup
    rcases List.mem_cons.1 hm with heq | hm
    · cases heq
      simp [findIn]
    · have hne : k ≠ key := by
        rintro rfl
        exact hd (List.mem_map.2 ⟨_, hm, rfl⟩)
      rw [findIn, if_neg hne]
      exact ih (List.pairwise_cons.1 h).2 hm hrest

theorem Ascending.mem_entries {m : IdMap kind α} (h : m.Ascending) {key : Id kind} {value : α} :
    (key, value) ∈ m.entries ↔ m.get? key = some value :=
  ⟨h.get?_of_mem, mem_of_findIn⟩

/-- Maps with the same look-ups are the same. -/
theorem Ascending.ext {m m' : IdMap kind α} (h : m.Ascending) (h' : m'.Ascending)
    (hget : ∀ key, m.get? key = m'.get? key) : m = m' := by
  refine congrArg mk (eq_of_ascending (fun e : Id kind × α => e.1.number) h h' ?_)
  rintro ⟨key, value⟩
  rw [h.mem_entries, h'.mem_entries, hget]

theorem Ascending.mem_keys {m : IdMap kind α} (h : m.Ascending) {key : Id kind} :
    key ∈ m.keys ↔ ∃ value, m.get? key = some value := by
  unfold keys
  rw [List.mem_map]
  constructor
  · rintro ⟨⟨k, value⟩, hm, rfl⟩
    exact ⟨value, h.get?_of_mem hm⟩
  · rintro ⟨value, hv⟩
    exact ⟨(key, value), mem_of_findIn hv, rfl⟩

theorem Ascending.forall₂_values {β : Type} {R : α → β → Prop} {m : IdMap kind α} {m' : IdMap kind β}
    (h : m.Ascending) (h' : m'.Ascending)
    (hrel : ∀ key, Option.Rel R (m.get? key) (m'.get? key)) :
    List.Forall₂ R m.values m'.values := by
  have hkeys : m.keys = m'.keys := by
    refine eq_of_ascending Id.number (List.pairwise_map.2 h) (List.pairwise_map.2 h') ?_
    intro key
    have hkey := hrel key
    rw [h.mem_keys, h'.mem_keys]
    generalize m.get? key = found, m'.get? key = found' at hkey
    cases hkey <;> simp
  have hpaired : List.Forall₂ (fun e e' => e.1 = e'.1) m.entries m'.entries := by
    refine List.forall₂_map_left_iff.1 (List.forall₂_map_right_iff.1 ?_)
    rw [List.forall₂_eq_eq_eq]
    exact hkeys
  refine List.forall₂_map_left_iff.2 (List.forall₂_map_right_iff.2 ?_)
  refine List.forall₂_iff_zip.2 ⟨hpaired.length_eq, ?_⟩
  rintro ⟨key, value⟩ ⟨key', value'⟩ hzip
  obtain ⟨hm, hm'⟩ := List.of_mem_zip hzip
  obtain rfl : key = key' := List.forall₂_zip hpaired hzip
  have hvalues := hrel key
  rw [h.get?_of_mem hm, h'.get?_of_mem hm'] at hvalues
  cases hvalues with
  | some hR => exact hR

end CodeEmission.IdMap
