import CodeEmission.Data.Basic
import CodeEmission.Numeric.FloatFormat

/-! # Floating-point numbers as data

Data holds numbers in 64 bits. A number of 32 bits is read as the one nearest to what is there, and
whole numbers may stand where fractions are wanted.
-/

namespace CodeEmission.Data

def float64 (bits : UInt64) : Data := .float bits

def float32 (bits : UInt32) : Data :=
  .float (UInt64.ofNat (FloatFormat.convert .binary32 .binary64 bits.toNat))

def float64? : Data → Option UInt64
  | .int i => some (UInt64.ofNat (FloatFormat.binary64.ofInt i))
  | .float bits => some bits
  | _ => none

def float32? : Data → Option UInt32
  | .int i => some (UInt32.ofNat (FloatFormat.binary32.ofInt i))
  | .float bits => some (UInt32.ofNat (FloatFormat.convert .binary64 .binary32 bits.toNat))
  | _ => none

end CodeEmission.Data
