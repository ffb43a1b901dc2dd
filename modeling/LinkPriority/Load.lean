import LinkPriority.Scalar

/-! What one job asks of one link. -/

namespace LinkPriority

/-- Compute time attributed to a link, and the volume sent through it. -/
structure Load (α : Type) where
  compute : α
  comm : α
deriving DecidableEq

namespace Load

variable {α : Type} [Scalar α]

def idle : Load α := ⟨Scalar.zero, Scalar.zero⟩

/-- A load is active unless both parts are zero. -/
def isActive (load : Load α) : Bool := !Scalar.isZero load.compute || !Scalar.isZero load.comm

def total (load : Load α) : α := load.compute + load.comm

def isAmount (load : Load α) : Bool := Scalar.isAmount load.compute && Scalar.isAmount load.comm

end Load

end LinkPriority
