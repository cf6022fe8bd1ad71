namespace NixScope

/-- A piece of a text from byte `start` up to, not including, byte `stop`. -/
structure Range where
  start : Nat
  stop : Nat
  deriving DecidableEq, Repr, Inhabited

namespace Range

def isEmpty (r : Range) : Bool := r.start == r.stop

def contains (r : Range) (inner : Range) : Bool := r.start ≤ inner.start && inner.stop ≤ r.stop

/-- Both ends count: a cursor stands on the byte before it as well as on the byte after it. -/
def touches (r : Range) (offset : Nat) : Bool := r.start ≤ offset && offset ≤ r.stop

def render (r : Range) : String := s!"{r.start}..{r.stop}"

end Range

end NixScope
