namespace NixScope

structure FileId where
  index : Nat
  deriving DecidableEq, Repr, Inhabited

namespace FileId

def compare (a b : FileId) : Ordering := Ord.compare a.index b.index

def render (f : FileId) : String := s!"file#{f.index}"

def describe (f : FileId) : String := s!"FileId({f.index})"

end FileId

end NixScope
