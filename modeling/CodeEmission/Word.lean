/-! # Machine words

Sizes and offsets are natural numbers below `2 ^ 64`. Where a computation may leave that range the
operation says what happens: `sum?`, `product?` and `address?` have no result then, `addSat` and
`mulSat` stop at the largest word, and `alignTo` rounds up to a multiple and stops there too.
-/

namespace CodeEmission.Word

def modulus : Nat := 18446744073709551616

def largest : Nat := modulus - 1

def sum? (a b : Nat) : Option Nat := if a + b ≤ largest then some (a + b) else none

def product? (a b : Nat) : Option Nat := if a * b ≤ largest then some (a * b) else none

/-- The address at an offset from another one, if the words reach that far. -/
def address? (base : UInt64) (offset : Nat) : Option UInt64 :=
  if base.toNat + offset ≤ largest then some (base + UInt64.ofNat offset) else none

def addSat (a b : Nat) : Nat := min (a + b) largest

def mulSat (a b : Nat) : Nat := min (a * b) largest

/-- Rounds `value` up to a multiple of `align`, a power of two; alignments 0 and 1 ask for nothing.
The low bits of any other `align` are cleared all the same. -/
def alignTo (value align : Nat) : Nat :=
  if align ≤ 1 then value
  else if value + (align - 1) < modulus then
    (value + (align - 1)) &&& (largest - (align - 1))
  else largest

theorem sum?_eq_some_iff {a b n : Nat} : sum? a b = some n ↔ a + b ≤ largest ∧ a + b = n := by
  simp [sum?]

theorem product?_eq_some_iff {a b n : Nat} :
    product? a b = some n ↔ a * b ≤ largest ∧ a * b = n := by
  simp [product?]

theorem address?_eq_some_iff {base address : UInt64} {offset : Nat} :
    address? base offset = some address ↔
      base.toNat + offset ≤ largest ∧ base + UInt64.ofNat offset = address := by
  simp [address?]

theorem addSat_le (a b : Nat) : addSat a b ≤ largest := Nat.min_le_right _ _

theorem mulSat_le (a b : Nat) : mulSat a b ≤ largest := Nat.min_le_right _ _

end CodeEmission.Word
