import CodeEmission.Proofs.Arena.Rollback
import CodeEmission.Proofs.Maps

/-! # Places in the arena

Whatever variables the arena is asked for, in whatever order, those that were given a place lie one
behind the other, hold what they were initialized with, and stay as they are.
-/

namespace CodeEmission

namespace ArenaOffset

/-- An address stands for a position exactly if code uses it for that position. -/
theorem ofTagged?_eq_some {address : UInt64} {o : ArenaOffset} :
    ofTagged? address = some o ↔ address = o.tagged := by
  have hlow : (address &&& mask).toNat = address.toNat % 2 ^ 24 := by
    rw [UInt64.toNat_and]
    exact Nat.and_two_pow_sub_one_eq_mod address.toNat 24
  have hsplit : (address &&& ~~~mask).toNat + address.toNat % 2 ^ 24 = address.toNat := by
    rw [← hlow, UInt64.toNat_and, UInt64.toNat_and]
    exact Word.clear_add_keep (m := mask.toNat) address.toNat_lt (by decide)
  have htagged : o.tagged.toNat = 0xDA000000 + o.offset := by
    have ho := o.offset_lt
    rw [tagged, UInt64.toNat_or, UInt64.toNat_ofNat', Nat.mod_eq_of_lt (by omega)]
    exact (Nat.two_pow_add_eq_or_of_lt (i := 24) ho 0xDA).symm
  rw [← UInt64.toNat_inj, htagged, ofTagged?, hlow]
  constructor
  · intro h
    split at h
    · rename_i htag
      rw [ofNat?_eq_some] at h
      rw [htag, ← h] at hsplit
      exact hsplit.symm
    · cases h
  · intro h
    have ho := o.offset_lt
    have htag : address &&& ~~~mask = tag := UInt64.toNat_inj.1 (by
      change _ = 0xDA000000
      omega)
    rw [if_pos htag, ofNat?_eq_some]
    omega

end ArenaOffset

namespace Arena

variable {a b c : Arena} {t : Target} {g : GlobalVariable}

theorem read?_eq_some {o : ArenaOffset} {length : Nat} {bs : Bytes} (hle : o.offset + length ≤ a.size)
    (hsize : bs.size = length) (h : ∀ k < length, a.bytes[o.offset + k]? = bs[k]?) :
    a.read? o length = some bs := by
  rw [read?, if_pos hle, Option.some.injEq]
  refine Array.ext_getElem? ?_
  intro k
  rw [Array.getElem?_extract]
  unfold size at hle
  split
  · exact h k (by omega)
  · exact (Array.getElem?_eq_none (by omega)).symm

section Placed

variable {o : ArenaOffset} {i : Nat}

theorem size_placed (h : a.size ≤ o.offset) :
    (a.placed t g o).size = o.offset + slotSize t g := by
  change ((a.grow _).write _ _).size = _
  rw [size_write, size_grow]
  exact max_eq_right (h.trans (Nat.le_add_right _ _))

theorem placed_before (h : a.size ≤ o.offset) (hi : i < a.size) :
    (a.placed t g o).bytes[i]? = a.bytes[i]? :=
  (getElem?_write_outside (initialPlan_within t g) (.inl (hi.trans_le h))).trans
    (getElem?_grow_old hi)

theorem placed_padding (hle : a.size ≤ i) (hi : i < o.offset) :
    (a.placed t g o).bytes[i]? = some 0 :=
  (getElem?_write_outside (initialPlan_within t g) (.inl hi)).trans
    (getElem?_grow_new hle (by omega))

theorem placed_inside (h : a.size ≤ o.offset) (hi : i < slotSize t g) :
    (a.placed t g o).bytes[o.offset + i]? =
      ((initialPlan t g).apply (Array.replicate (slotSize t g) 0))[i]? := by
  refine Plan.getElem?_apply_shift_inside (initialPlan_within t g) ?_ Array.size_replicate ?_ i hi
  · change _ ≤ (a.grow _).size
    rw [size_grow]
    exact le_max_right _ _
  · intro k hk
    rw [getElem?_grow_new (h.trans (Nat.le_add_right _ _)) (by omega), Array.getElem?_replicate,
      if_pos hk]

end Placed

def ask (t : Target) (a : Arena) (g : GlobalVariable) : Arena := (a.addressOf t g).1

def askAll (t : Target) (a : Arena) (gs : List GlobalVariable) : Arena := gs.foldl (ask t) a

/-- A variable with the place it was given. -/
structure Placement where
  global : GlobalVariable
  start : ArenaOffset

namespace Placement

/-- A variable takes the space of its type, or that of its initial value where this has more. -/
def length (t : Target) (p : Placement) : Nat :=
  max (t.allocSize p.global.type) ((p.global.init.map fun init => t.allocSize init.type).getD 0)

/-- What a variable asks for explicitly, or what its type prefers where this is more. -/
def alignment (t : Target) (p : Placement) : Nat :=
  max ((p.global.align.map UInt64.toNat).getD 1) (t.preferredAlign p.global.type)

/-- The bytes of a variable at its place: its initial value written over zeros, and nothing but zeros
if it has none or is thread-local. -/
def Initialized (t : Target) (a : Arena) (p : Placement) : Prop :=
  match p.global.init, p.global.threadLocal with
  | some init, false =>
    (init.plan t (p.length t)).fault = none ∧
      a.read? p.start (p.length t) =
        some ((init.plan t (p.length t)).apply (Array.replicate (p.length t) 0))
  | _, _ => a.read? p.start (p.length t) = some (Array.replicate (p.length t) 0)

end Placement

def placement? (t : Target) (a : Arena) (g : GlobalVariable) : Option Placement :=
  match a.slot? g.id, (a.addressOf t g).2 with
  | none, .ok answer => some { global := g, start := answer.offset }
  | _, _ => none

def placements (t : Target) (a : Arena) : List GlobalVariable → List Placement
  | [] => []
  | g :: gs => (placement? t a g).toList ++ placements t (ask t a g) gs

/-- A later state of an arena: no place has moved and no byte has changed. -/
structure Grows (a b : Arena) : Prop where
  size : a.size ≤ b.size
  slots : ∀ id o, a.slot? id = some o → b.slot? id = some o
  bytes : ∀ i < a.size, b.bytes[i]? = a.bytes[i]?

theorem Grows.refl (a : Arena) : a.Grows a := ⟨le_refl _, fun _ _ h => h, fun _ _ => rfl⟩

theorem Grows.trans (h : a.Grows b) (h' : b.Grows c) : a.Grows c where
  size := h.size.trans h'.size
  slots id o ho := h'.slots id o (h.slots id o ho)
  bytes i hi := (h'.bytes i (hi.trans_le h.size)).trans (h.bytes i hi)

theorem grows_placed {o : ArenaOffset} (new : a.slot? g.id = none) (hle : a.size ≤ o.offset) :
    a.Grows (a.placed t g o) where
  size := by
    rw [size_placed hle]
    omega
  slots id o' ho' := by
    have hne : g.id ≠ id := by
      rintro rfl
      rw [new] at ho'
      cases ho'
    change (a.slots.insert g.id o).get? id = some o'
    rw [IdMap.get?_insert, if_neg hne]
    exact ho'
  bytes i hi := placed_before hle hi

/-- What can be read in an arena is read in a later one. -/
theorem Grows.read? (h : a.Grows b) {o : ArenaOffset} {length : Nat} {bs : Bytes}
    (hread : a.read? o length = some bs) : b.read? o length = some bs := by
  unfold Arena.read? at hread
  split at hread
  · rename_i hle
    cases hread
    refine read?_eq_some (hle.trans h.size) ?_ ?_
    · rw [Array.size_extract]
      unfold Arena.size at hle
      omega
    · intro k hk
      rw [h.bytes _ (by omega), Array.getElem?_extract, if_pos]
      unfold Arena.size at hle
      omega
  · cases hread

/-- An arena is made up of the places that were given and of zeros around them. -/
structure Holds (t : Target) (a : Arena) (ps : List Placement) : Prop where
  size_le : a.size ≤ ArenaOffset.capacity
  slot? : ∀ id o, a.slot? id = some o ↔ ∃ p ∈ ps, p.global.id = id ∧ p.start = o
  distinct : (ps.map (·.global.id)).Nodup
  apart : ps.Pairwise fun p q => p.start.offset + p.length t ≤ q.start.offset
  internal : ∀ p ∈ ps, p.global.isExternal = false
  inside : ∀ p ∈ ps, p.start.offset + p.length t ≤ a.size
  aligned : ∀ p ∈ ps, ∀ k, p.alignment t = 2 ^ k → 2 ^ k ∣ p.start.offset
  initialized : ∀ p ∈ ps, p.Initialized t a
  zero : ∀ i < a.size, (∀ p ∈ ps, i < p.start.offset ∨ p.start.offset + p.length t ≤ i) →
    a.bytes[i]? = some 0

theorem holds_empty (t : Target) : Holds t {} [] where
  size_le := Nat.zero_le _
  slot? id o := by simp [Arena.slot?]
  distinct := List.nodup_nil
  apart := .nil
  internal := by simp
  inside := by simp
  aligned := by simp
  initialized := by simp
  zero i hi := absurd hi (Nat.not_lt_zero i)

section Requested

variable {o : ArenaOffset}

theorem length_mk (t : Target) (g : GlobalVariable) (o : ArenaOffset) :
    Placement.length t { global := g, start := o } = slotSize t g := by
  unfold Placement.length slotSize
  cases g.init with
  | none => exact Nat.max_zero _
  | some init => rfl

theorem alignment_mk {k : Nat} (h : Placement.alignment t { global := g, start := o } = 2 ^ k) :
    slotAlign t g = 2 ^ k := by
  have hpos : 0 < 2 ^ k := Nat.two_pow_pos k
  rw [← h] at hpos ⊢
  exact max_eq_left hpos

theorem initialized_placed (hle : a.size ≤ o.offset) (written : (initialPlan t g).fault = none) :
    Placement.Initialized t (a.placed t g o) { global := g, start := o } := by
  have hread : (a.placed t g o).read? o (slotSize t g) =
      some ((initialPlan t g).apply (Array.replicate (slotSize t g) 0)) := by
    refine read?_eq_some (size_placed hle).ge ?_ fun k hk => placed_inside hle hk
    rw [Plan.size_apply, Array.size_replicate]
  unfold Placement.Initialized
  rw [length_mk]
  split
  · rename_i init hinit hlocal
    have hinit : g.init = some init := hinit
    have hlocal : g.threadLocal = false := hlocal
    have hplan : initialPlan t g = init.plan t (slotSize t g) := by
      simp [initialPlan, hinit, hlocal]
    rw [hplan] at hread written
    exact ⟨written, hread⟩
  · rename_i hnot
    have hdone : initialPlan t g = .done := by
      unfold initialPlan
      split
      · rename_i init hinit
        refine if_pos ?_
        cases hlocal : g.threadLocal with
        | true => rfl
        | false => exact absurd hlocal (hnot init hinit)
      · rfl
    rwa [hdone] at hread

end Requested

theorem Placement.Initialized.mono {p : Placement} (h : p.Initialized t a) (hab : a.Grows b) :
    p.Initialized t b := by
  unfold Placement.Initialized at h ⊢
  split at h
  · exact ⟨h.1, hab.read? h.2⟩
  · exact hab.read? h

namespace Holds

variable {ps : List Placement}

theorem id_ne (h : Holds t a ps) (new : a.slot? g.id = none) {p : Placement} (hp : p ∈ ps) :
    p.global.id ≠ g.id := by
  intro heq
  have hfound := (h.slot? g.id p.start).2 ⟨p, hp, heq, rfl⟩
  rw [new] at hfound
  cases hfound

theorem get?_insert (h : Holds t a ps) (new : a.slot? g.id = none) (o : ArenaOffset) (id : GlobalId)
    (o' : ArenaOffset) : (a.slots.insert g.id o).get? id = some o' ↔
      ∃ p ∈ ps ++ [{ global := g, start := o }], p.global.id = id ∧ p.start = o' := by
  have hold := h.slot? id o'
  rw [Arena.slot?] at hold
  rw [IdMap.get?_insert]
  simp only [List.mem_append, List.mem_singleton]
  split
  · rename_i heq
    subst heq
    constructor
    · intro ho
      exact ⟨_, .inr rfl, rfl, Option.some.inj ho⟩
    · rintro ⟨p, hp | rfl, hid, rfl⟩
      · exact absurd hid (h.id_ne new hp)
      · rfl
  · rename_i hne
    rw [hold]
    constructor
    · rintro ⟨p, hp, hid⟩
      exact ⟨p, .inl hp, hid⟩
    · rintro ⟨p, hp | rfl, hid, ho⟩
      · exact ⟨p, hp, hid, ho⟩
      · exact absurd hid hne

/-- A variable that is placed behind all others is one place more. -/
theorem place (h : Holds t a ps) {o : ArenaOffset} (new : a.slot? g.id = none)
    (internal : g.isExternal = false) (start : o.offset = Word.alignTo a.size (slotAlign t g))
    (hle : a.size ≤ o.offset) (room : o.offset + slotSize t g ≤ ArenaOffset.capacity)
    (written : (initialPlan t g).fault = none) :
    a.Grows (a.placed t g o) ∧
      Holds t (a.placed t g o) (ps ++ [{ global := g, start := o }]) := by
  have hsize := size_placed (t := t) (g := g) hle
  have hlength := length_mk t g o
  have hgrows := grows_placed (t := t) new hle
  refine ⟨hgrows, hsize.le.trans room, h.get?_insert new o, ?_, ?_, ?_, ?_, ?_, ?_, ?_⟩
  · rw [List.map_append, List.nodup_append']
    refine ⟨h.distinct, List.nodup_singleton _, ?_⟩
    intro id hid hnew
    obtain ⟨p, hp, rfl⟩ := List.mem_map.1 hid
    exact h.id_ne new hp (List.mem_singleton.1 hnew)
  · rw [List.pairwise_append]
    refine ⟨h.apart, List.pairwise_singleton _ _, ?_⟩
    intro p hp q hq
    obtain rfl := List.mem_singleton.1 hq
    exact (h.inside p hp).trans hle
  · exact List.forall_mem_append.2 ⟨h.internal, List.forall_mem_singleton.2 internal⟩
  · refine List.forall_mem_append.2 ⟨?_, List.forall_mem_singleton.2 ?_⟩
    · intro p hp
      exact (h.inside p hp).trans hgrows.size
    · rw [hlength, hsize]
  · refine List.forall_mem_append.2 ⟨h.aligned, List.forall_mem_singleton.2 ?_⟩
    intro k hk
    have hword : a.size < Word.modulus := h.size_le.trans_lt (by decide)
    have hlt : o.offset < Word.largest := o.offset_lt.trans (by decide)
    rw [start, alignment_mk hk] at hlt
    dsimp only
    rw [start, alignment_mk hk]
    exact Word.dvd_alignTo_of_lt hword hlt
  · refine List.forall_mem_append.2
      ⟨?_, List.forall_mem_singleton.2 (initialized_placed hle written)⟩
    intro p hp
    exact (h.initialized p hp).mono hgrows
  · intro i hi hout
    obtain ⟨hothers, hlast⟩ := List.forall_mem_append.1 hout
    have hlast := List.forall_mem_singleton.1 hlast
    rw [hlength] at hlast
    have hi : i < o.offset := by
      dsimp only at hlast
      omega
    by_cases hbefore : i < a.size
    · rw [hgrows.bytes i hbefore]
      exact h.zero i hbefore hothers
    · exact placed_padding (Nat.le_of_not_lt hbefore) hi

end Holds

section Runs

variable {ps : List Placement} {gs : List GlobalVariable}

theorem Holds.ask (h : Holds t a ps) (g : GlobalVariable) :
    a.Grows (ask t a g) ∧ Holds t (ask t a g) (ps ++ (placement? t a g).toList) := by
  have houtcome := addressOf_outcome a t g
  unfold Arena.ask placement?
  generalize a.addressOf t g = result at houtcome
  cases houtcome with
  | known found =>
    simp only [found, Option.toList_none, List.append_nil]
    exact ⟨.refl a, h⟩
  | failed new =>
    simp only [new, Option.toList_none, List.append_nil]
    exact ⟨.refl a, h⟩
  | placed new internal start le_start room written =>
    simp only [new, Option.toList_some]
    exact h.place new internal start le_start room written

theorem Holds.askAll (h : Holds t a ps) (gs : List GlobalVariable) :
    a.Grows (askAll t a gs) ∧ Holds t (askAll t a gs) (ps ++ placements t a gs) := by
  induction gs generalizing a ps with
  | nil =>
    rw [placements, List.append_nil]
    exact ⟨.refl a, h⟩
  | cons g gs ih =>
    obtain ⟨hfirst, hholds⟩ := h.ask g
    obtain ⟨hrest, hall⟩ := ih hholds
    rw [placements, ← List.append_assoc]
    exact ⟨hfirst.trans hrest, hall⟩

theorem mem_of_mem_placements {p : Placement} (hp : p ∈ placements t a gs) : p.global ∈ gs := by
  induction gs generalizing a with
  | nil => cases hp
  | cons g gs ih =>
    rcases List.mem_append.1 hp with hfirst | hrest
    · have hsome := Option.mem_toList.1 hfirst
      unfold placement? at hsome
      split at hsome
      · cases hsome
        exact List.mem_cons_self
      · cases hsome
    · exact List.mem_cons_of_mem _ (ih hrest)

/-- After any requests the arena is made up of the places it has given, and later requests neither
move them nor change a byte. A variable that has a place is answered with it, a request that fails
leaves everything as it was, and an address stands for a position exactly if code uses it for that. -/
theorem askAll_integrity (t : Target) (gs : List GlobalVariable) :
    Holds t (askAll t {} gs) (placements t {} gs) ∧
      (∀ p ∈ placements t {} gs, p.global ∈ gs) ∧
      (∀ later, (askAll t {} gs).Grows (askAll t {} (gs ++ later))) ∧
      (∀ g a answer, (askAll t {} gs).addressOf t g = (a, .ok answer) →
        a = askAll t {} (gs ++ [g]) ∧ a.slot? g.id = some answer.offset) ∧
      (∀ g o, (askAll t {} gs).slot? g.id = some o →
        (askAll t {} gs).addressOf t g = (askAll t {} gs, .ok { offset := o })) ∧
      (∀ g a e, (askAll t {} gs).addressOf t g = (a, .error e) → a = askAll t {} gs) ∧
      ∀ address o, ArenaOffset.ofTagged? address = some o ↔ address = o.tagged := by
  have happend (later : List GlobalVariable) :
      askAll t {} (gs ++ later) = askAll t (askAll t {} gs) later := List.foldl_append
  have hholds := ((holds_empty t).askAll gs).2
  refine ⟨hholds, fun p hp => mem_of_mem_placements hp, ?_, ?_, fun g o => addressOf_of_slot,
    fun g a e => eq_of_addressOf_error, fun _ _ => ArenaOffset.ofTagged?_eq_some⟩
  · intro later
    rw [happend]
    exact (hholds.askAll later).1
  · intro g a answer hok
    refine ⟨?_, ?_⟩
    · rw [happend]
      exact (congrArg Prod.fst hok).symm
    · have houtcome := addressOf_outcome (askAll t {} gs) t g
      rw [hok] at houtcome
      cases houtcome with
      | known found => exact found
      | placed => exact (IdMap.get?_insert _ _ _ _).trans (if_pos rfl)

/-- Variables of which one is asked for twice, one is a declaration and one has an initial value that
cannot be written to its end. -/
def mixedRequests : List GlobalVariable :=
  [{ id := ⟨0⟩, name := "a", type := .i8, init := some (.int .i16 0x0201) },
    { id := ⟨1⟩, name := "b", type := .i64 },
    { id := ⟨2⟩, name := "c", type := .i8, linkage := .declaration },
    { id := ⟨1⟩, name := "b", type := .i64 },
    { id := ⟨4⟩, name := "e", type := .i64, init := some (.struct [.int .i8 1, .int .f32 1]) },
    { id := ⟨3⟩, name := "d", type := .i16, align := some 32 }]

/-- The initial value of the first variable takes more space than its type, and the third place is
not moved by the value that was given up before it. -/
theorem askAll_integrity_mixed :
    (placements .x86_64 {} mixedRequests).map
        (fun p => (p.global.name, p.start.offset, p.length .x86_64)) =
      [("a", 0, 2), ("b", 8, 8), ("d", 32, 2)] ∧
    Holds .x86_64 (askAll .x86_64 {} mixedRequests) (placements .x86_64 {} mixedRequests) :=
  ⟨by decide +kernel, (askAll_integrity .x86_64 mixedRequests).1⟩

end Runs

end Arena

end CodeEmission
