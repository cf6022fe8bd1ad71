import NixScope.Syntax.Tree
import NixScope.Text.Range

namespace NixScope.Syntax

structure Pointer where
  kind : Kind
  range : Range
  deriving DecidableEq, Repr, Inhabited

structure PlacedToken where
  token : Token
  range : Range
  deriving DecidableEq, Repr, Inhabited

/-- A node as its kind and range, and its number among the children of the node around it. -/
structure Mark extends Pointer where
  index : Nat
  deriving DecidableEq, Repr, Inhabited

abbrev PlacedTree := Rose PlacedToken Mark

namespace PlacedTree

def range : PlacedTree → Range
  | .leaf t => t.range
  | .branch m _ => m.range

/-- The tree without the places. -/
def tree (t : PlacedTree) : Tree := t.map (·.token) (·.kind)

end PlacedTree

namespace Tree

mutual

/-- Places a tree so that it starts at the given offset and is the child of the given number. -/
def place (start index : Nat) : Tree → PlacedTree
  | .leaf t => .leaf ⟨t, ⟨start, start + t.width⟩⟩
  | .branch kind ts =>
    let placed := placeAll start 0 ts
    .branch ⟨⟨kind, ⟨start, placed.2⟩⟩, index⟩ placed.1

/-- Places trees one behind the other, and gives the offset after them. -/
def placeAll (start index : Nat) : List Tree → List PlacedTree × Nat
  | [] => ([], start)
  | t :: ts =>
    let first := place start index t
    let others := placeAll (PlacedTree.range first).stop (index + 1) ts
    (first :: others.1, others.2)

end

end Tree

structure Spot where
  mark : Mark
  children : List PlacedTree
  deriving DecidableEq, Repr, Inhabited

namespace Spot

def pointer (s : Spot) : Pointer := s.mark.toPointer

def kind (s : Spot) : Kind := s.mark.kind

def range (s : Spot) : Range := s.mark.range

def tree (s : Spot) : Tree := PlacedTree.tree (.branch s.mark s.children)

def text (s : Spot) : String := s.tree.text

/-- Whether two children of a node are one and the same. Empty children at one offset cannot be told
apart if they are kept only once. -/
def same (s t : Spot) : Bool :=
  s == t || (s.pointer == t.pointer && s.tree == t.tree && s.tree.isShared)

end Spot

/-- A node with the nodes around it, nearest first. -/
structure Node extends Spot where
  above : List Spot
  deriving DecidableEq, Repr, Inhabited

/-- A token with the nodes around it, nearest first. -/
structure Leaf extends PlacedToken where
  above : List Spot
  deriving DecidableEq, Repr, Inhabited

inductive Element
  | node (n : Node)
  | leaf (l : Leaf)
  deriving DecidableEq, Repr, Inhabited

namespace Leaf

def kind (l : Leaf) : Kind := l.token.kind

def text (l : Leaf) : String := l.token.text

end Leaf

namespace Element

def kind : Element → Kind
  | node n => n.kind
  | leaf l => l.kind

def range : Element → Range
  | node n => n.range
  | leaf l => l.range

def above : Element → List Spot
  | node n => n.above
  | leaf l => l.above

def node? : Element → Option Node
  | node n => some n
  | leaf _ => none

def leaf? : Element → Option Leaf
  | node _ => none
  | leaf l => some l

end Element

namespace PlacedTree

def element (above : List Spot) : PlacedTree → Element
  | .leaf t => .leaf ⟨t, above⟩
  | .branch m ts => .node ⟨⟨m, ts⟩, above⟩

mutual

/-- Everything in a tree, each node before what is in it. -/
def walk (above : List Spot) : PlacedTree → List Element
  | .leaf t => [.leaf ⟨t, above⟩]
  | .branch m ts => .node ⟨⟨m, ts⟩, above⟩ :: walkAll (⟨m, ts⟩ :: above) ts

def walkAll (above : List Spot) : List PlacedTree → List Element
  | [] => []
  | t :: ts => walk above t ++ walkAll above ts

end

end PlacedTree

namespace Node

def root (kind : Kind) (content : List Tree) : Node :=
  let placed := Tree.placeAll 0 0 content
  ⟨⟨⟨⟨kind, ⟨0, placed.2⟩⟩, 0⟩, placed.1⟩, []⟩

def trail : List Spot → List Node
  | [] => []
  | s :: above => ⟨s, above⟩ :: trail above

/-- The nodes around a node, nearest first. -/
def outer (n : Node) : List Node := trail n.above

def ancestors (n : Node) : List Node := n :: n.outer

def parent? (n : Node) : Option Node := n.outer.head?

def elements (n : Node) : List Element :=
  n.children.map (PlacedTree.element (n.toSpot :: n.above))

def nodes (n : Node) : List Node := n.elements.filterMap Element.node?

def leaves (n : Node) : List Leaf := n.elements.filterMap Element.leaf?

/-- Everything in a node, the node first. -/
def walk (n : Node) : List Element := .node n :: PlacedTree.walkAll (n.toSpot :: n.above) n.children

/-- The node and all nodes in it, each before those in it. -/
def descendants (n : Node) : List Node := n.walk.filterMap Element.node?

def child? (kind : Kind) (n : Node) : Option Node := n.nodes.find? (·.kind == kind)

def childrenOf (kind : Kind) (n : Node) : List Node := n.nodes.filter (·.kind == kind)

def token? (kind : Kind) (n : Node) : Option Leaf := n.leaves.find? (·.kind == kind)

def exprs (n : Node) : List Node := n.nodes.filter (·.kind.isExpr)

def expr? (n : Node) : Option Node := n.nodes.find? (·.kind.isExpr)

def exprBefore? (kind : Kind) (n : Node) : Option Node :=
  ((n.elements.takeWhile (·.kind != kind)).filterMap Element.node?).find? (·.kind.isExpr)

def exprAfter? (kind : Kind) (n : Node) : Option Node :=
  ((n.elements.dropWhile (·.kind != kind)).filterMap Element.node?).find? (·.kind.isExpr)

def solidToken? (n : Node) : Option Leaf := n.leaves.find? (!·.kind.isTrivia)

end Node

end NixScope.Syntax
