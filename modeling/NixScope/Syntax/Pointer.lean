import NixScope.Syntax.Node

namespace NixScope.Syntax.Pointer

/-- Whether the search for `r` goes into the tree `t`, which has `later` behind it. A range with
bytes in it lies in one child at most. An empty range on the border of two children belongs to the
last child that ends there, and at the start of the first child to that one. -/
def enters (r : Range) (isFirst : Bool) (t : PlacedTree) (later : List PlacedTree) : Bool :=
  let here := PlacedTree.range t
  if r.start < r.stop then here.contains r
  else
    (here.start < r.start && r.start < here.stop)
      || (here.stop == r.start && later.head?.all fun u => r.start < (PlacedTree.range u).stop)
      || (isFirst && here.start == r.start && r.start < here.stop)

mutual

/-- The innermost node around `r` in a tree that the search has entered. -/
def innermost (r : Range) (above : List Spot) : PlacedTree → Option Node
  | .leaf _ => none
  | .branch m ts => some ((innermostOf r (⟨m, ts⟩ :: above) true ts).getD ⟨⟨m, ts⟩, above⟩)

def innermostOf (r : Range) (above : List Spot) (isFirst : Bool) : List PlacedTree → Option Node
  | [] => none
  | t :: ts => if enters r isFirst t ts then innermost r above t else innermostOf r above false ts

end

/-- The innermost node in `root` that has all of the range in it. -/
def covering? (r : Range) (root : Node) : Option Node :=
  if root.range.contains r then
    some ((innermostOf r (root.toSpot :: root.above) true root.children).getD root)
  else none

/-- Finds the node again. Of nested nodes of the same kind and range it is the innermost. -/
def find? (p : Pointer) (root : Node) : Option Node :=
  (covering? p.range root).bind fun n =>
    (n.ancestors.takeWhile (·.range == p.range)).find? (·.kind == p.kind)

end NixScope.Syntax.Pointer
