import CodeEmission.Bytes
import CodeEmission.Data.Basic
import CodeEmission.Numeric.FloatFormat
import CodeEmission.Toml.Moment

/-! # Words and numbers in configuration notation

Integers have a sign or a radix and fit into 64 bits with a sign. Digits may be set apart by single
underscores. Numbers with a fraction or an exponent are rounded to the nearest.
-/

namespace CodeEmission.Toml

def digit? (radix : Nat) (c : Char) : Option Nat := (Bytes.hexValue? c).filter (· < radix)

/-- The digits that some characters consist of. An underscore has to stand between two digits. -/
def digits? (radix : Nat) : List Char → Option (List Nat)
  | [] => none
  | [c] => (digit? radix c).map fun d => [d]
  | c :: '_' :: cs => do
    let d ← digit? radix c
    let ds ← digits? radix cs
    return d :: ds
  | c :: cs => do
    let d ← digit? radix c
    let ds ← digits? radix cs
    return d :: ds

def ofDigits (radix : Nat) (ds : List Nat) : Nat := ds.foldl (fun n d => n * radix + d) 0

/-- The digits before a point or an exponent. Nothing may follow a leading zero. -/
def wholeDigits? (cs : List Char) : Option (List Nat) :=
  match cs with
  | '0' :: _ :: _ => none
  | cs => digits? 10 cs

def isDigitChar (c : Char) : Bool := c.isDigit || c = '_'

def integer? (i : Int) : Option Data :=
  if -9223372036854775808 ≤ i ∧ i ≤ 9223372036854775807 then some (.int i) else none

def sign : List Char → Bool × List Char
  | '-' :: cs => (true, cs)
  | '+' :: cs => (false, cs)
  | cs => (false, cs)

/-- The number with the given sign and magnitude. A number above the largest is refused, and one
below the smallest becomes infinite. -/
def float? (negative : Bool) (bits : Nat) : Option Data :=
  let f := FloatFormat.binary64
  if bits = f.infinity ∧ ¬negative then none else some (.float (UInt64.ofNat (f.withSign negative bits)))

def exponent? : List Char → Option Int
  | [] => some 0
  | c :: cs =>
    if c = 'e' ∨ c = 'E' then
      let (negative, cs) := sign cs
      (digits? 10 cs).map fun ds =>
        let e : Int := ofDigits 10 ds
        if negative then -e else e
    else none

def decimal? (negative : Bool) (cs : List Char) : Option Data := do
  let whole ← wholeDigits? (cs.takeWhile isDigitChar)
  match cs.dropWhile isDigitChar with
  | [] =>
    let n : Int := ofDigits 10 whole
    integer? (if negative then -n else n)
  | '.' :: rest => do
    let fraction ← digits? 10 (rest.takeWhile isDigitChar)
    let e ← exponent? (rest.dropWhile isDigitChar)
    float? negative
      (FloatFormat.binary64.ofDecimal (ofDigits 10 (whole ++ fraction)) (e - fraction.length))
  | rest => do
    let e ← exponent? rest
    float? negative (FloatFormat.binary64.ofDecimal (ofDigits 10 whole) e)

def signed? (negative : Bool) (cs : List Char) : Option Data :=
  let f := FloatFormat.binary64
  if cs = "inf".toList then some (.float (UInt64.ofNat (f.withSign negative f.infinity)))
  else if cs = "nan".toList then some (.float (UInt64.ofNat (f.withSign negative f.notANumber)))
  else decimal? negative cs

def scalar? (cs : List Char) : Option Data :=
  match cs with
  | '0' :: 'x' :: ds => do integer? (ofDigits 16 (← digits? 16 ds))
  | '0' :: 'o' :: ds => do integer? (ofDigits 8 (← digits? 8 ds))
  | '0' :: 'b' :: ds => do integer? (ofDigits 2 (← digits? 2 ds))
  | cs =>
    if cs = "true".toList then some (.bool true)
    else if cs = "false".toList then some (.bool false)
    else if Moment.isMoment cs then some (Moment.toData cs)
    else
      let (negative, rest) := sign cs
      signed? negative rest

end CodeEmission.Toml
