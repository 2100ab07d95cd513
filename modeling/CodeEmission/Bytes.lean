/-! # Byte strings

Numbers as little-endian bytes, byte strings as hexadecimal text, and writing a run of bytes over
part of an array.
-/

namespace CodeEmission

abbrev Bytes := Array UInt8

namespace Bytes

/-- The `width` low bytes of `n`, least significant first. -/
def littleEndian : (width n : Nat) → List UInt8
  | 0, _ => []
  | width + 1, n => UInt8.ofNat (n % 256) :: littleEndian width (n / 256)

def ofLittleEndian : List UInt8 → Nat
  | [] => 0
  | b :: bs => b.toNat + 256 * ofLittleEndian bs

@[simp] theorem length_littleEndian (width n : Nat) : (littleEndian width n).length = width := by
  induction width generalizing n with
  | zero => rfl
  | succ w ih => simp [littleEndian, ih]

/-- Writes a run of bytes at `offset`; what would land outside the array is dropped. -/
def overwrite (dest : Bytes) (offset : Nat) : List UInt8 → Bytes
  | [] => dest
  | b :: bs => overwrite (dest.setIfInBounds offset b) (offset + 1) bs

@[simp] theorem size_overwrite (dest : Bytes) (offset : Nat) (bs : List UInt8) :
    (overwrite dest offset bs).size = dest.size := by
  induction bs generalizing dest offset with
  | nil => rfl
  | cons b bs ih => simp [overwrite, ih]

def hexDigit (n : Nat) : Char := ("0123456789abcdef".toList)[n]?.getD '0'

def hexOfByte (b : UInt8) : List Char := [hexDigit (b.toNat / 16), hexDigit (b.toNat % 16)]

def toHex (bs : List UInt8) : String := String.ofList (bs.flatMap hexOfByte)

def hexValue? (c : Char) : Option Nat :=
  if '0' ≤ c ∧ c ≤ '9' then some (c.toNat - '0'.toNat)
  else if 'a' ≤ c ∧ c ≤ 'f' then some (c.toNat - 'a'.toNat + 10)
  else if 'A' ≤ c ∧ c ≤ 'F' then some (c.toNat - 'A'.toNat + 10)
  else none

def hexDigits (n : Nat) : List Char := Nat.toDigits 16 n

def hexNumber (n : Nat) : String := "0x" ++ String.ofList (hexDigits n)

def hexPadded (width n : Nat) : String :=
  let digits := hexDigits n
  String.ofList (List.replicate (width - digits.length) '0' ++ digits)

end Bytes

end CodeEmission
