import NixScope.Names.Scope

namespace NixScope.Cursor

open Syntax

def isName (k : Kind) : Bool := k matches .ident | .orKw | .stringContent | .quote

def touching (root : Node) (offset : Nat) : List Leaf :=
  (root.walk.filterMap Element.leaf?).filter fun l => !l.range.isEmpty && l.range.touches offset

/-- The token at an offset. On the border of two the right one counts, unless only the left one
spells a name. -/
def leaf? (root : Node) (offset : Nat) : Option Leaf :=
  match touching root offset with
  | [] => none
  | [l] => some l
  | left :: right :: _ => if isName right.kind || !isName left.kind then some right else some left

/-- The nodes around an offset, from the inside out. -/
def around (root : Node) (offset : Nat) : List Node :=
  match leaf? root offset with
  | none => []
  | some l => Node.trail l.above

def segment? (offset : Nat) (u : Usage) : Option Nat :=
  u.segments.findIdx? (·.node.range.touches offset)

/-- The innermost usage with a segment at an offset, and the number of the segment. -/
def usage? (root : Node) (offset : Nat) : Option (Usage × Nat) :=
  (around root offset).findSome? fun n =>
    (Usage.of? n).bind fun u => (segment? offset u).map fun i => (u, i)

/-- The symbol that is declared by a name at an offset. -/
def declared? (root : Node) (offset : Nat) : Option Symbol :=
  ((around root offset).filterMap Host.of?).findSome? fun h =>
    (h.bindings.find? (·.declaration.name.range.touches offset)).map fun b =>
      .declared h.node.pointer b.path

end NixScope.Cursor
