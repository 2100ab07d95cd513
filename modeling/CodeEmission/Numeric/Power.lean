/-! # Powers of two, five and ten -/

namespace CodeEmission

def powerOfTwo (n : Nat) : Nat := Nat.pow 2 n

def powerOfFive (n : Nat) : Nat := Nat.pow 5 n

def powerOfTen (n : Nat) : Nat := Nat.pow 10 n

end CodeEmission
