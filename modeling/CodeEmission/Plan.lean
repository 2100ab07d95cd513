import CodeEmission.Bytes

/-! # Plans of stores

What is to be written into memory is first computed as a list of stores. A plan that meets a fault
keeps the stores made before it, so that carrying out the plan leaves exactly those behind.
-/

namespace CodeEmission

structure Store where
  offset : Nat
  bytes : List UInt8
  deriving DecidableEq, Repr

/-- The stores up to the first fault, in the order in which they are made. -/
structure Plan (ε : Type) where
  stores : List Store
  fault : Option ε
  deriving Repr

namespace Plan

variable {ε : Type}

def done : Plan ε := ⟨[], none⟩

def fail (e : ε) : Plan ε := ⟨[], some e⟩

def store (offset : Nat) (bytes : List UInt8) : Plan ε := ⟨[⟨offset, bytes⟩], none⟩

/-- One plan after the other; the second is not begun if the first meets a fault. -/
def andThen (p q : Plan ε) : Plan ε :=
  match p.fault with
  | some e => ⟨p.stores, some e⟩
  | none => ⟨p.stores ++ q.stores, q.fault⟩

def shift (offset : Nat) (p : Plan ε) : Plan ε :=
  ⟨p.stores.map fun s => ⟨offset + s.offset, s.bytes⟩, p.fault⟩

def apply (p : Plan ε) (dest : Bytes) : Bytes :=
  p.stores.foldl (fun d s => d.overwrite s.offset s.bytes) dest

@[simp] theorem fail_andThen (e : ε) (q : Plan ε) : (fail e).andThen q = fail e := rfl

@[simp] theorem size_apply (p : Plan ε) (dest : Bytes) : (p.apply dest).size = dest.size := by
  unfold apply
  generalize p.stores = stores
  induction stores generalizing dest with
  | nil => rfl
  | cons s ss ih => simp [ih]

end Plan

end CodeEmission
