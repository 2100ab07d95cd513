import CodeEmission.Error
import CodeEmission.Plan
import CodeEmission.Relocation

/-! # Patching references

The stores that put resolved addresses into the code of a function: the address itself, or its
distance from the end of the patched field.
-/

namespace CodeEmission

namespace Relocation

/-- The address that a relocation points to, addend included. Relocations left to the target have
none, because this target finds no address on its own. -/
def address? (r : Relocation) : Option UInt64 :=
  if r.leftToTarget then none else r.result.map fun result => result + r.addend.toUInt64

/-- The distance from the end of the field, in code at `base`, to an address. -/
def distance (r : Relocation) (base address : UInt64) : Except EmitError Int64 :=
  match Word.address? base r.fieldEnd with
  | some start => .ok (address - start).toInt64
  | none => .error (.crash .sum)

/-- The bytes of the field in code at `base`, unless a distance is too large for it. -/
def fieldBytes (r : Relocation) (base address : UInt64) : Except EmitError (List UInt8) :=
  match r.kind with
  | .abs64 => .ok (Bytes.littleEndian 8 address.toNat)
  | .pcRel32 =>
    match r.distance base address with
    | .error e => .error e
    | .ok distance =>
      if -2147483648 ≤ distance ∧ distance ≤ 2147483647 then
        .ok (Bytes.littleEndian 4 distance.toUInt64.toUInt32.toNat)
      else .error (.relocationRange r.offset address)

def patch (r : Relocation) (base : UInt64) (limit : Nat) : Plan EmitError :=
  match r.address? with
  | none => .fail (.unhandledRelocation r.offset)
  | some address =>
    if Word.largest < r.fieldEnd then .fail (.crash .sum)
    else if limit < r.fieldEnd then .fail (.relocationOutOfBounds r.offset)
    else
      match r.fieldBytes base address with
      | .error e => .fail e
      | .ok bytes => .store r.offset bytes

/-- The stores of a list of relocations, up to the first that cannot be patched. -/
def patchAll (base : UInt64) (limit : Nat) : List Relocation → Plan EmitError
  | [] => .done
  | r :: rs => (r.patch base limit).andThen (patchAll base limit rs)

end Relocation

end CodeEmission
