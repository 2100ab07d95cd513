import CodeEmission.Proofs.Emitter.Occupancy
import CodeEmission.Proofs.Rounding

/-! # Space on request

A request for space obtains a block of its own, which is padded so that the space can be moved up to an
alignment that no page has. A request that the host has no block for fails without a trace; one whose
padded size is no word is cut off before the host is asked.
-/

namespace CodeEmission

namespace Host

variable {host host' : Host} {size : Nat} {block : Block}

theorem exists_map_iff (host : Host) (size : Nat) :
    (∃ p, host.map size = .ok p) ↔ 0 < size ∧ size ≤ maxBlockSize := by
  constructor
  · rintro ⟨⟨block, host'⟩, h⟩
    obtain ⟨hpos, hle, hmax⟩ := Emitter.size_of_map h
    exact ⟨hpos, hle.trans hmax⟩
  · rintro ⟨hpos, hmax⟩
    have hvalid : ¬(size = 0 ∨ Word.largest < size + (pageSize - 1)) := by
      simp only [maxBlockSize, pageSize, Word.largest, Word.modulus] at *
      omega
    -- the largest block is made of whole pages
    have hpages : ¬maxBlockSize < roundToPages size := by
      simp only [maxBlockSize, roundToPages, pageSize] at *
      omega
    rw [map, if_neg hvalid]
    dsimp only
    rw [dif_neg hpages]
    exact ⟨_, rfl⟩

theorem address_of_map (h : host.map size = .ok (block, host'))
    (hle : host.nextBlock ≤ host'.nextBlock) : block.address = host.nextBlock := by
  obtain ⟨hplace, hbehind, _⟩ := next_of_map h
  rw [hplace]
  by_contra hne
  have hover : Word.largest < host.nextBlock.toNat + block.size := by
    by_contra hlast
    exact hne (place_of_le (Nat.le_of_not_lt hlast))
  rw [hbehind, UInt64.le_iff_toNat_le, block.toNat_end, hplace, place_of_lt hover] at hle
  have hmax := (Emitter.size_of_map h).2.2
  have hroom : firstBlock.toNat + 2 * maxBlockSize < Word.largest := by decide
  omega

end Host

namespace Emitter

variable {em : Emitter} {ops : List Operation} {size alignment : Nat} {address : UInt64}
  {block : Block} {s : AddressRange}

theorem alignment_le {n : Nat} (hsize : paddedSize size alignment ≤ n) (hpages : Host.pageSize ∣ n) :
    max alignment 1 ≤ n := by
  rw [paddedSize] at hsize
  by_cases hlarge : Host.pageSize < alignment
  · rw [if_pos hlarge] at hsize
    omega
  · have hpage : Host.pageSize ≤ n := Nat.le_of_dvd (by omega) hpages
    simp only [Host.pageSize] at hlarge hpage
    omega

theorem alignTo_add_le (size : Nat) {page : Nat} (hpage : Host.pageSize ∣ page)
    (hroom : page + (max alignment 1 - 1) < Word.modulus) :
    Word.alignTo page (max alignment 1) + size ≤ page + paddedSize size alignment := by
  rw [paddedSize]
  by_cases hlarge : Host.pageSize < alignment
  · have hround := Word.alignTo_le page (max alignment 1)
    rw [if_pos hlarge]
    omega
  · -- a page is a multiple of the alignment already
    have hpages : 2 ^ 12 ∣ page := hpage
    have hsmall : max alignment 1 ≤ 2 ^ 12 := by
      simp only [Host.pageSize] at hlarge
      omega
    rw [if_neg hlarge, Word.alignTo_of_dvd hpages hsmall hroom]
    omega

/-- What a request returns stands at a multiple of the alignment, inside the one block that it obtained,
which is where the host was. -/
structure Placed (em em' : Emitter) (size alignment : Nat) (address : UInt64) (block : Block) :
    Prop where
  obtained : em'.detached = block :: em.detached
  start : block.address = em.host.nextBlock
  inside : AddressRange.Within ⟨address.toNat, size⟩ block.range
  aligned : Word.IsAlignment alignment → max alignment 1 ∣ address.toNat

theorem Compact.placed (h : em.Compact)
    (hle : em.host.nextBlock ≤ (em.allocateSpace size alignment).1.host.nextBlock)
    (hok : (em.allocateSpace size alignment).2 = .ok address) :
    ∃ block, em.Placed (em.allocateSpace size alignment).1 size alignment address block := by
  rcases em.allocateSpace_cases size alignment with
    ⟨_, heq⟩ | ⟨e, _, _, heq⟩ | ⟨block, host, hmap, hhost, hdetached, _, haddress⟩
  · rw [heq] at hok
    cases hok
  · rw [heq] at hok
    cases hok
  · obtain ⟨_, _, hpages⟩ := Host.next_of_map hmap
    obtain ⟨_, hsize, _⟩ := size_of_map hmap
    have hstart := Host.address_of_map hmap (hhost ▸ hle)
    have hend := block.end_le
    have hlarge := alignment_le hsize hpages
    have hroom : block.address.toNat + (max alignment 1 - 1) < Word.modulus := by
      simp only [Word.largest] at hend
      omega
    have hround := alignTo_add_le size (hstart ▸ h.page) hroom
    have hvalue : address.toNat = Word.alignTo block.address.toNat (max alignment 1) := by
      cases hok.symm.trans haddress
      refine UInt64.toNat_ofNat_of_lt' (Nat.lt_of_le_pred (by decide) (le_trans ?_ hend))
      omega
    refine ⟨block, hdetached, hstart, ⟨?_, ?_⟩, ?_⟩
    · exact hvalue ▸ Word.le_alignTo _ block.address.toNat_lt
    · simp only [AddressRange.ending, Block.range, hvalue]
      omega
    · intro halign
      obtain ⟨k, hk⟩ := (halign.max (b := 1) (.inr ⟨0, rfl⟩)).exists_pow (Nat.le_max_right _ _)
      rw [hvalue, hk]
      rw [hk] at hroom
      exact Word.dvd_alignTo hroom

inductive Returned (em : Emitter) (ops : List Operation) : AddressRange → Prop
  | space {before after : List Operation} {size alignment : Nat} {address : UInt64}
    (hops : ops = before ++ .allocateSpace size alignment :: after)
    (hok : ((em.run before).allocateSpace size alignment).2 = .ok address) :
    Returned em ops ⟨address.toNat, size⟩

theorem Returned.within (h : em.Returned ops s) (hnew : em.Compact) (hlast : em.AddressesLast ops) :
    ∃ b ∈ (em.run ops).detached, s.Within b.range := by
  obtain @⟨before, after, size, alignment, address, rfl, hok⟩ := h
  obtain ⟨hbefore, hle, _⟩ := (addressesLast_append em before _).1 hlast
  obtain ⟨b, hb⟩ := (hnew.run hbefore).placed hle hok
  refine ⟨b, ?_, hb.inside⟩
  rw [run, List.foldl_append, List.foldl_cons]
  refine run_detached _ after ?_
  exact hb.obtained ▸ List.mem_cons_self

/-- Space that can be used after some operations: it is aligned, in the block that was obtained for it,
and neither a function nor an earlier request has any of it. -/
structure Usable (em : Emitter) (ops : List Operation) (block : Block) (size alignment : Nat)
    (address : UInt64) : Prop where
  aligned : max alignment 1 ∣ address.toNat
  inside : AddressRange.Within ⟨address.toNat, size⟩ block.range
  unused : ∀ s, (em.run ops).Occupies s → AddressRange.Apart ⟨address.toNat, size⟩ s
  unreturned : ∀ s, em.Returned ops s → AddressRange.Apart ⟨address.toNat, size⟩ s

/-- Nothing is in the way of space in a block that stands where the host was. -/
theorem Placed.usable {em' : Emitter} (h : (em.run ops).Placed em' size alignment address block)
    (hnew : em.Compact) (hlast : em.AddressesLast ops) (halign : Word.IsAlignment alignment) :
    em.Usable ops block size alignment address := by
  have hbelow {t : AddressRange} (ht : (em.run ops).Occupies t) :
      t.ending ≤ block.range.start := by
    have hend := (hnew.run hlast).below t ht
    rwa [← h.start] at hend
  refine ⟨h.aligned halign, h.inside, fun t ht => h.inside.apart (hbelow ht), fun t ht => ?_⟩
  obtain ⟨b, hb, hin⟩ := ht.within hnew hlast
  exact h.inside.apart (hin.2.trans (hbelow (.detached hb)))

theorem paddedSize_pos (size alignment : Nat) : 0 < paddedSize size alignment := by
  rw [paddedSize]
  omega

/-- A request for space that fails leaves no trace. One that returns an address has obtained a block for
it, and the space can be used; that is so for all that the host has a block for. Other requests get an
error, and exactly those whose padded size is no word are cut off. -/
theorem allocateSpace_usable {target : Target} {module : Module} {config : Config} {host : Host}
    {sink : Sink} {em₀ : Emitter} (hhost : Host.pageSize ∣ host.nextBlock.toNat)
    (hnew : em₀ = new target module config host sink) (hem : em = em₀.run ops)
    (hlast : em₀.AddressesLast (ops ++ [.allocateSpace size alignment]))
    (halign : Word.IsAlignment alignment) :
    (∀ e, (em.allocateSpace size alignment).2 = .error e →
      (em.allocateSpace size alignment).1 = em) ∧
    (∀ step, (em.allocateSpace size alignment).2 = .error (.crash step) ↔
      step = .sum ∧ Word.largest < paddedSize size alignment) ∧
    ((∃ a, (em.allocateSpace size alignment).2 = .ok a) ↔
      paddedSize size alignment ≤ Host.maxBlockSize) ∧
    ∀ address, (em.allocateSpace size alignment).2 = .ok address →
      ∃ block, (em.allocateSpace size alignment).1.detached = block :: em.detached ∧
        em₀.Usable ops block size alignment address := by
  subst hem
  have hcompact : em₀.Compact := hnew ▸ compact_new hhost target module config sink
  obtain ⟨hbefore, hle, _⟩ := (addressesLast_append em₀ ops _).1 hlast
  have hlargest : Host.maxBlockSize < Word.largest := by decide
  have hmet := (em₀.run ops).host.exists_map_iff (paddedSize size alignment)
  rcases (em₀.run ops).allocateSpace_cases size alignment with
    ⟨hover, heq⟩ | ⟨e, hword, hmap, heq⟩ | ⟨block, host', hmap, _, hdetached, _, haddress⟩
  · have hlarge : ¬paddedSize size alignment ≤ Host.maxBlockSize := by omega
    simp [heq, hover, hlarge, eq_comm]
  · have hlarge : ¬paddedSize size alignment ≤ Host.maxBlockSize := fun hle => by
      obtain ⟨p, hp⟩ := hmet.2 ⟨paddedSize_pos size alignment, hle⟩
      cases hmap.symm.trans hp
    simp [heq, hlarge, Nat.not_lt_of_le hword]
  · have hmax := (hmet.1 ⟨_, hmap⟩).2
    refine ⟨fun e he => ?_, fun step => ⟨fun he => ?_, fun h => ?_⟩,
      ⟨fun _ => hmax, fun _ => ⟨_, haddress⟩⟩, fun address hok => ?_⟩
    · cases he.symm.trans haddress
    · cases he.symm.trans haddress
    · omega
    · obtain ⟨b, hplaced⟩ := (hcompact.run hbefore).placed hle hok
      exact ⟨b, hplaced.obtained, hplaced.usable hcompact hbefore halign⟩

theorem allocateSpace_usable_third :
    let em := new .x86_64 {} {} {}
    let ops := [.emit .nopRet, .allocateSpace 10 8192]
    Host.pageSize ∣ em.host.nextBlock.toNat ∧
      em.AddressesLast (ops ++ [.allocateSpace 5000 32768]) ∧ Word.IsAlignment 32768 ∧
      ((em.run ops).allocateSpace 5000 32768).2 = .ok 0x1000008000 ∧
      ∃ block, em.Usable ops block 5000 32768 0x1000008000 := by
  intro em ops
  have hhost : Host.pageSize ∣ em.host.nextBlock.toNat := by decide
  have hlast : em.AddressesLast (ops ++ [.allocateSpace 5000 32768]) :=
    addressesLast_of_le (by decide)
  have halign : Word.IsAlignment 32768 := .inr ⟨15, rfl⟩
  have hok : ((em.run ops).allocateSpace 5000 32768).2 = .ok 0x1000008000 := by decide +kernel
  obtain ⟨_, _, _, hspace⟩ := allocateSpace_usable hhost rfl rfl hlast halign
  obtain ⟨block, _, husable⟩ := hspace _ hok
  exact ⟨hhost, hlast, halign, hok, block, husable⟩

/-- All but the last page of the words, at a multiple of two pages: the request is cut off. At a page it
gets an error. -/
theorem allocateSpace_overflows :
    let em := new .x86_64 {} {} {}
    Word.IsAlignment 8192 ∧ 18446744073709547520 < Word.modulus ∧
      (em.allocateSpace 18446744073709547520 8192).2 = .error (.crash .sum) ∧
      (em.allocateSpace 18446744073709547520 4096).2 = .error (.memory .allocationFailed) := by
  refine ⟨.inr ⟨13, rfl⟩, ?_⟩
  decide +kernel

end Emitter

end CodeEmission
