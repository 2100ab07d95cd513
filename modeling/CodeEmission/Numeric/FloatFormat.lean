import CodeEmission.Numeric.Power

/-! # Binary floating-point formats

Numbers by their bit patterns: a format says how many significant bits and how many exponent bits
there are. Every operation computes an exact quotient of natural numbers and rounds it once, to the
nearest number of the format and in a tie to the even one.
-/

namespace CodeEmission

structure FloatFormat where
  /-- The number of significant bits, the hidden one included. -/
  precision : Nat
  exponentBits : Nat
  deriving DecidableEq, Repr

namespace FloatFormat

def binary32 : FloatFormat := { precision := 24, exponentBits := 8 }

def binary64 : FloatFormat := { precision := 53, exponentBits := 11 }

def fractionBits (f : FloatFormat) : Nat := f.precision - 1

/-- The largest exponent field, kept for infinities and what is no number. -/
def topExponent (f : FloatFormat) : Nat := powerOfTwo f.exponentBits - 1

def leastExponent (f : FloatFormat) : Int :=
  2 - (powerOfTwo (f.exponentBits - 1) : Nat) - (f.fractionBits : Nat)

def signBit (f : FloatFormat) : Nat := powerOfTwo (f.fractionBits + f.exponentBits)

def infinity (f : FloatFormat) : Nat := f.topExponent * powerOfTwo f.fractionBits

def notANumber (f : FloatFormat) : Nat := f.infinity + powerOfTwo (f.fractionBits - 1)

/-- A quotient rounded to the nearest natural number, a tie to the even one. -/
def roundQuotient (num den : Nat) : Nat :=
  let q := num / den
  let r := num % den
  if den < 2 * r ∨ (2 * r = den ∧ q % 2 = 1) then q + 1 else q

def placeOf (f : FloatFormat) (num den : Nat) : Int :=
  let guess : Int := (Nat.log2 num : Int) - (Nat.log2 den : Int) - f.precision
  let tooSmall : Bool :=
    den * powerOfTwo (guess.toNat + f.precision) ≤ num * powerOfTwo (-guess).toNat
  max (if tooSmall then guess + 1 else guess) f.leastExponent

/-- The pattern of the number nearest to a quotient. A carry out of the digits goes into the exponent
field by itself, and what is too large becomes infinity. -/
def round (f : FloatFormat) (num den : Nat) : Nat :=
  if num = 0 then 0
  else
    let place := f.placeOf num den
    let digits := roundQuotient (num * powerOfTwo (-place).toNat) (den * powerOfTwo place.toNat)
    let steps := (place - f.leastExponent).toNat
    min (steps * powerOfTwo f.fractionBits + digits) f.infinity

def exponentField (f : FloatFormat) (bits : Nat) : Nat :=
  bits / powerOfTwo f.fractionBits % powerOfTwo f.exponentBits

def fractionField (f : FloatFormat) (bits : Nat) : Nat := bits % powerOfTwo f.fractionBits

def isNegative (f : FloatFormat) (bits : Nat) : Bool := bits / f.signBit % 2 = 1

def isFinite (f : FloatFormat) (bits : Nat) : Bool := f.exponentField bits ≠ f.topExponent

/-- A finite number without its sign as `digits * 2 ^ place`. -/
def decode (f : FloatFormat) (bits : Nat) : Nat × Int :=
  let e := f.exponentField bits
  let m := f.fractionField bits
  if e = 0 then (m, f.leastExponent)
  else (powerOfTwo f.fractionBits + m, f.leastExponent + (e - 1 : Nat))

def withSign (f : FloatFormat) (negative : Bool) (bits : Nat) : Nat :=
  if negative then f.signBit + bits else bits

def roundScaled (f : FloatFormat) (digits : Nat) (place : Int) (num den : Nat) : Nat :=
  f.round (digits * powerOfTwo place.toNat * num) (den * powerOfTwo (-place).toNat)

def mul (f : FloatFormat) (a b : Nat) : Nat :=
  let (m, p) := f.decode a
  let (n, q) := f.decode b
  f.roundScaled (m * n) (p + q) 1 1

def div (f : FloatFormat) (a b : Nat) : Nat :=
  let (m, p) := f.decode a
  let (n, q) := f.decode b
  f.roundScaled m (p - q) 1 n

def convert (source dest : FloatFormat) (bits : Nat) : Nat :=
  let magnitude :=
    if source.isFinite bits then
      let (m, p) := source.decode bits
      dest.roundScaled m p 1 1
    else if source.fractionField bits = 0 then dest.infinity
    else dest.notANumber
  dest.withSign (source.isNegative bits) magnitude

def ofInt (f : FloatFormat) (i : Int) : Nat := f.withSign (i < 0) (f.round i.natAbs 1)

/-- The number nearest to `digits * 10 ^ exponent`. Exponents far outside the range of the format
are cut off before they are raised to a power. -/
def ofDecimal (f : FloatFormat) (digits : Nat) (exponent : Int) : Nat :=
  if digits = 0 then 0
  else
    let top : Int := (Nat.log2 digits : Int) / 3 + exponent
    if 2000 < top then f.infinity
    else if top < -2000 then 0
    else f.round (digits * powerOfTen exponent.toNat) (powerOfTen (-exponent).toNat)

end FloatFormat

end CodeEmission
