import CodeEmission.Data.Basic
import CodeEmission.Numeric.FloatFormat

/-! # Numbers in object notation

A number is a sign, digits, and perhaps a fraction and an exponent. Without the latter two it is an
integer if it fits into 64 bits. Otherwise its leading digits are rounded to 64 bits first and then
scaled by a rounded power of ten, so that the result need not be the number nearest to the digits.
-/

namespace CodeEmission.Json

structure Numeral where
  negative : Bool
  whole : List Nat
  fraction : List Nat := []
  /-- Whether the exponent is negative, and its digits. -/
  exponent : Option (Bool × List Nat) := none
  deriving DecidableEq, Repr

namespace Numeral

def digit? (c : Char) : Option Nat :=
  if '0' ≤ c ∧ c ≤ '9' then some (c.toNat - '0'.toNat) else none

def digits : List Char → List Nat × List Char
  | [] => ([], [])
  | c :: cs =>
    match digit? c with
    | some d => let (ds, rest) := digits cs; (d :: ds, rest)
    | none => ([], c :: cs)

def exponent? : List Char → Option (Option (Bool × List Nat))
  | [] => some none
  | c :: cs =>
    if c = 'e' ∨ c = 'E' then
      let (negative, cs) :=
        match cs with
        | '-' :: cs => (true, cs)
        | '+' :: cs => (false, cs)
        | cs => (false, cs)
      match digits cs with
      | ([], _) => none
      | (ds, []) => some (some (negative, ds))
      | (_, _ :: _) => none
    else none

def tail? : List Char → Option (List Nat × Option (Bool × List Nat))
  | '.' :: cs =>
    match digits cs with
    | ([], _) => none
    | (ds, rest) => (exponent? rest).map (ds, ·)
  | cs => (exponent? cs).map ([], ·)

/-- The number that some characters consist of. Further digits may not follow a leading zero. -/
def ofChars? (cs : List Char) : Option Numeral :=
  let (negative, cs) :=
    match cs with
    | '-' :: cs => (true, cs)
    | cs => (false, cs)
  match digits cs with
  | ([], _) => none
  | (0 :: _ :: _, _) => none
  | (whole, rest) => (tail? rest).map fun t => { negative, whole, fraction := t.1, exponent := t.2 }

/-- The number with the given digits behind those of `start`, as long as it does not exceed `most`,
and how many digits were left over. -/
def accumulate (most : Nat) : (start : Nat) → List Nat → Nat × Nat
  | start, [] => (start, 0)
  | start, d :: ds =>
    if start * 10 + d ≤ most then accumulate most (start * 10 + d) ds
    else (start, ds.length + 1)

def mostDigits : Nat := 18446744073709551615

def mostExponent : Nat := 2147483647

def largestStep : Nat := 308

/-- The number nearest to a power of ten. -/
def roundedTen (e : Nat) : Nat := FloatFormat.binary64.ofDecimal 1 e

/-- A finite number without its sign times a power of ten, rounded at every step; none if it becomes
too large. -/
def scale? (bits : Nat) (e : Int) : Option Nat :=
  if bits = 0 then some 0
  else if e.natAbs ≤ largestStep then
    if 0 ≤ e then
      let scaled := FloatFormat.binary64.mul bits (roundedTen e.natAbs)
      if scaled = FloatFormat.binary64.infinity then none else some scaled
    else some (FloatFormat.binary64.div bits (roundedTen e.natAbs))
  else if 0 ≤ e then none
  else scale? (FloatFormat.binary64.div bits (roundedTen largestStep)) (e + largestStep)
termination_by (-e).toNat
decreasing_by
  simp only [largestStep] at *
  omega

def float? (n : Numeral) : Option Data :=
  let (head, dropped) := accumulate mostDigits 0 n.whole
  let (significand, left) := accumulate mostDigits head n.fraction
  let place : Int := (dropped : Int) - (n.fraction.length - left : Nat)
  let magnitude : Option Nat :=
    match n.exponent with
    | none => scale? (FloatFormat.binary64.ofInt significand) place
    | some (below, digits) =>
      match accumulate mostExponent 0 digits with
      | (e, 0) =>
        scale? (FloatFormat.binary64.ofInt significand) (if below then place - e else place + e)
      | (_, _ + 1) => if significand ≠ 0 ∧ ¬below then none else some 0
  magnitude.map fun bits => .float (UInt64.ofNat (FloatFormat.binary64.withSign n.negative bits))

/-- The value of a number, if it is in range. An integer that does not fit, and a zero with a sign, are
taken as numbers with a fraction. -/
def value? (n : Numeral) : Option Data :=
  if n.fraction = [] ∧ n.exponent = none then
    match accumulate mostDigits 0 n.whole with
    | (i, 0) =>
      if ¬n.negative then some (.nat i)
      else if 0 < i ∧ i ≤ 9223372036854775808 then some (.int (-i))
      else n.float?
    | (_, _ + 1) => n.float?
  else n.float?

end Numeral

end CodeEmission.Json
