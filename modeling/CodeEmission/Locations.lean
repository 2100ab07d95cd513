import CodeEmission.Error
import CodeEmission.IdMap

/-! # Block and label locations

Where each block and label of a function was emitted. Numbers may be sparse; each is recorded once
and stays.
-/

namespace CodeEmission

structure Locations where
  blocks : IdMap .block Nat := .empty
  labels : IdMap .label Nat := .empty
  deriving Inhabited

namespace Locations

def recordBlock (l : Locations) (block : BlockId) (offset : Nat) : Except EmitError Locations :=
  if l.blocks.contains block then .error (.duplicateBlock block)
  else .ok { l with blocks := l.blocks.insert block offset }

def recordLabel (l : Locations) (label : LabelId) (offset : Nat) : Except EmitError Locations :=
  if l.labels.contains label then .error (.duplicateLabel label)
  else .ok { l with labels := l.labels.insert label offset }

def block? (l : Locations) (block : BlockId) : Option Nat := l.blocks.get? block

def label? (l : Locations) (label : LabelId) : Option Nat := l.labels.get? label

end Locations

end CodeEmission
