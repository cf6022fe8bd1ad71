import NixScope.Names.Attribute

/-!
Where a file mentions a variable, and through which attribute path. A usage is a variable `x` by
itself, a selection `x.a.b` from a variable, or a name in `inherit x;`. A selection from any other
expression is none; the variables inside of it are usages of their own.
-/

namespace NixScope

open Syntax

structure Segment where
  name : Attribute
  node : Node
  deriving DecidableEq, Repr, Inhabited

structure Usage where
  element : Node
  first : Segment
  rest : List Segment
  deriving DecidableEq, Repr, Inhabited

namespace Segment

def ofVar? (n : Node) : Option Segment := (Var.name? n).map fun name => ⟨.static name, n⟩

def ofAttr (n : Node) : Segment := ⟨.ofNode n, n⟩

end Segment

namespace Usage

def segments (u : Usage) : List Segment := u.first :: u.rest

def path (u : Usage) : AttributePath := ⟨u.first.name, u.rest.map (·.name)⟩

def range (u : Usage) : Range := u.element.range

/-- A variable that a selection starts from belongs to the usage of the selection. -/
def isSelectBase (n : Node) : Bool :=
  ((n.parent?.filter (·.kind == .select)).bind Select.base?).any (·.same n.toSpot)

def ofVar? (n : Node) : Option Usage :=
  if isSelectBase n then none else (Segment.ofVar? n).map fun s => ⟨n, s, []⟩

def ofSelect? (n : Node) : Option Usage :=
  match (Select.base? n).filter (·.kind == .var), (Select.path? n).map AttrPath.attrs with
  | some base, some (attr :: attrs) =>
    (Segment.ofVar? base).map fun s => ⟨n, s, (attr :: attrs).map .ofAttr⟩
  | _, _ => none

def ofInherited? (n : Node) : Option Usage :=
  match InheritedName.inherit? n with
  | none => none
  | some clause =>
    if (Inherit.source? clause).isSome then none
    else (InheritedName.attr? n).map fun attr => ⟨n, .ofAttr attr, []⟩

/-- The usage that a node is, if it is one. -/
def of? (n : Node) : Option Usage :=
  if n.kind = .var then ofVar? n
  else if n.kind = .select then ofSelect? n
  else if n.kind = .inheritedName then ofInherited? n
  else none

/-- All usages under a node, in the order of the text. -/
def under (root : Node) : List Usage := root.descendants.filterMap of?

structure Handle where
  element : Pointer
  path : AttributePath
  deriving DecidableEq, Repr

def handle (u : Usage) : Handle := ⟨u.element.pointer, u.path⟩

/-- Finds the usage again, unless its node is gone or spells another path now. -/
def Handle.find? (h : Handle) (root : Node) : Option Usage :=
  ((h.element.find? root).bind of?).filter (·.path == h.path)

end Usage

end NixScope
