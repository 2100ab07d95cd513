import CodeEmission.Id

/-! # Maps from identifiers

A finite map keyed by identifiers and kept in ascending order of their numbers, so that walking it
visits the keys in that order.
-/

namespace CodeEmission

/-- A finite map whose entries stand in ascending order of the keys. -/
structure IdMap (kind : IdKind) (α : Type) where
  entries : List (Id kind × α) := []
  deriving Repr

namespace IdMap

variable {kind : IdKind} {α : Type}

def empty : IdMap kind α := ⟨[]⟩

instance : Inhabited (IdMap kind α) := ⟨empty⟩

def size (m : IdMap kind α) : Nat := m.entries.length

def keys (m : IdMap kind α) : List (Id kind) := m.entries.map (·.1)

def values (m : IdMap kind α) : List α := m.entries.map (·.2)

def findIn (key : Id kind) : List (Id kind × α) → Option α
  | [] => none
  | (k, v) :: rest => if k = key then some v else findIn key rest

def get? (m : IdMap kind α) (key : Id kind) : Option α := findIn key m.entries

def contains (m : IdMap kind α) (key : Id kind) : Bool := (m.get? key).isSome

def insertIn (key : Id kind) (value : α) : List (Id kind × α) → List (Id kind × α)
  | [] => [(key, value)]
  | (k, v) :: rest =>
    if key.number < k.number then (key, value) :: (k, v) :: rest
    else if key = k then (key, value) :: rest
    else (k, v) :: insertIn key value rest

def insert (m : IdMap kind α) (key : Id kind) (value : α) : IdMap kind α :=
  ⟨insertIn key value m.entries⟩

def erase (m : IdMap kind α) (key : Id kind) : IdMap kind α :=
  ⟨m.entries.filter fun e => e.1 ≠ key⟩

def modify (m : IdMap kind α) (key : Id kind) (f : α → α) : IdMap kind α :=
  ⟨m.entries.map fun e => if e.1 = key then (e.1, f e.2) else e⟩

theorem findIn_insertIn (key key' : Id kind) (value : α) (l : List (Id kind × α)) :
    findIn key' (insertIn key value l) = if key = key' then some value else findIn key' l := by
  induction l with
  | nil => simp [insertIn, findIn]
  | cons e rest ih =>
    obtain ⟨k, v⟩ := e
    by_cases h1 : key.number < k.number
    · simp [insertIn, findIn, h1]
    · by_cases h2 : key = k
      · subst h2
        by_cases h3 : key = key' <;> simp [insertIn, findIn, h3]
      · by_cases h3 : k = key'
        · subst h3
          simp [insertIn, findIn, h1, h2]
        · simp [insertIn, findIn, h1, h2, h3, ih]

@[simp] theorem get?_empty (key : Id kind) : (empty : IdMap kind α).get? key = none := rfl

theorem get?_insert (m : IdMap kind α) (key key' : Id kind) (value : α) :
    (m.insert key value).get? key' = if key = key' then some value else m.get? key' :=
  findIn_insertIn key key' value m.entries

theorem contains_insert (m : IdMap kind α) (key key' : Id kind) (value : α) :
    (m.insert key value).contains key' = (decide (key = key') || m.contains key') := by
  rw [contains, contains, get?_insert]
  by_cases h : key = key' <;> simp [h]

theorem findIn_filter_ne (key key' : Id kind) (l : List (Id kind × α)) :
    findIn key' (l.filter fun e => e.1 ≠ key) = if key = key' then none else findIn key' l := by
  induction l with
  | nil => simp [findIn]
  | cons e rest ih =>
    obtain ⟨k, v⟩ := e
    by_cases h1 : k = key
    · subst h1
      by_cases h2 : k = key' <;> simp_all [findIn]
    · by_cases h2 : k = key'
      · subst h2
        simp [findIn, h1, Ne.symm h1]
      · simp_all [findIn]

theorem get?_erase (m : IdMap kind α) (key key' : Id kind) :
    (m.erase key).get? key' = if key = key' then none else m.get? key' :=
  findIn_filter_ne key key' m.entries

theorem findIn_map_modify (key key' : Id kind) (f : α → α) (l : List (Id kind × α)) :
    findIn key' (l.map fun e => if e.1 = key then (e.1, f e.2) else e) =
      if key = key' then (findIn key' l).map f else findIn key' l := by
  induction l with
  | nil => simp [findIn]
  | cons e rest ih =>
    obtain ⟨k, v⟩ := e
    by_cases h1 : k = key
    · subst h1
      by_cases h2 : k = key' <;> simp_all [findIn]
    · by_cases h2 : k = key'
      · subst h2
        simp [findIn, h1, Ne.symm h1]
      · simp_all [findIn]

theorem get?_modify (m : IdMap kind α) (key key' : Id kind) (f : α → α) :
    (m.modify key f).get? key' = if key = key' then (m.get? key').map f else m.get? key' :=
  findIn_map_modify key key' f m.entries

theorem mem_of_findIn {key : Id kind} {value : α} {l : List (Id kind × α)}
    (h : findIn key l = some value) : (key, value) ∈ l := by
  induction l with
  | nil => cases h
  | cons e rest ih =>
    obtain ⟨k, v⟩ := e
    by_cases hk : k = key
    · subst hk
      simp only [findIn, ↓reduceIte, Option.some.injEq] at h
      subst h
      exact List.mem_cons_self
    · simp only [findIn, if_neg hk] at h
      exact List.mem_cons_of_mem _ (ih h)

theorem mem_values_of_get? {m : IdMap kind α} {key : Id kind} {value : α}
    (h : m.get? key = some value) : value ∈ m.values :=
  List.mem_map.2 ⟨(key, value), mem_of_findIn h, rfl⟩

end IdMap

end CodeEmission
