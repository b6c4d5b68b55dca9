import Crux.Proofs.Machine.Layout

namespace Crux

namespace Symbol

variable {s u : Symbol} {ss ts : List Symbol}

def above (s : Symbol) (params : List Symbol) : Nat :=
  roomAll params - s.offset params - s.ty.room

def place (params locals : List Symbol) (s : Symbol) : Int :=
  if s ∈ params then s.above params else -(s.offset locals + s.ty.room + savedBytes : Nat)

end Symbol

namespace Frame

end Frame

end Crux
