import NixScope.Names.Attribute

namespace NixScope

open Syntax

/-- How a name is declared: as `x` in `x: …`, in `{ x ? default }: …`, in `x@{ … }: …` or in
`x = value;`, as a leading part of a longer path like `a` in `a.b = 1;`, or in `inherit x;`. -/
inductive DeclarationKind
  | parameter
  | formal
  | patternBind
  | binding
  | attrPrefix
  | inherited
  deriving DecidableEq, Repr, Inhabited

/-- One place that declares a path: the node that spells its last segment, and the expression bound
to it if the declaration has one of its own. -/
structure Declaration where
  kind : DeclarationKind
  name : Pointer
  value : Option Pointer
  deriving DecidableEq, Repr, Inhabited

namespace Declaration

def value? (d : Declaration) (root : Node) : Option Node := d.value.bind (·.find? root)

end Declaration

structure Binding where
  path : AttributePath
  declaration : Declaration
  deriving DecidableEq, Repr, Inhabited

namespace Binding

def ofParam? (kind : DeclarationKind) (param : Node) : Option Binding :=
  (Var.name? param).map fun name => ⟨.single (.static name), kind, param.pointer, none⟩

/-- The bindings of `a.b.c = value;`: one for the whole path, and one for each part it begins with.
The segments `before` were met already. -/
def ofSegments (value : Option Pointer) : (before : Option AttributePath) → List Node → List Binding
  | _, [] => []
  | before, attr :: attrs =>
    let segment := Attribute.ofNode attr
    let path := (before.map (·.child segment)).getD (.single segment)
    match attrs with
    | [] => [⟨path, .binding, attr.pointer, value⟩]
    | _ => ⟨path, .attrPrefix, attr.pointer, none⟩ :: ofSegments value (some path) attrs

def ofInherited? (name : Node) : Option Binding :=
  (InheritedName.attr? name).map fun attr =>
    ⟨.single (.ofNode attr), .inherited, attr.pointer, none⟩

def ofEntry (entry : Node) : List Binding :=
  if entry.kind = .inherit then (Inherit.names entry).filterMap ofInherited?
  else
    match AttrPathValue.path? entry with
    | none => []
    | some path =>
      ofSegments ((AttrPathValue.value? entry).map (·.pointer)) none (AttrPath.attrs path)

def ofParameter (param : Node) : List Binding :=
  if param.kind = .paramName then (ofParam? .parameter param).toList
  else
    (Pattern.binds param).filterMap (fun n => (Pattern.name? n).bind (ofParam? .patternBind))
      ++ (Pattern.entries param).filterMap (fun n => (Pattern.name? n).bind (ofParam? .formal))

end Binding

/-- A node that introduces bindings: a lambda, a `let` or an attribute set. -/
structure Host where
  node : Node
  deriving DecidableEq, Repr, Inhabited

namespace Host

def of? (n : Node) : Option Host :=
  if n.kind = .lambda ∨ n.kind = .letIn ∨ n.kind = .attrSet then some ⟨n⟩ else none

/-- Whether the expressions inside see the bindings. An attribute set without `rec` only declares
attributes. -/
def isScope (h : Host) : Bool := h.node.kind != .attrSet || AttrSet.isRec h.node

def bindings (h : Host) : List Binding :=
  if h.node.kind = .lambda then
    match Lambda.param? h.node with
    | none => []
    | some param => Binding.ofParameter param
  else h.node.entries.flatMap Binding.ofEntry

def declarations (h : Host) (path : AttributePath) : List Declaration :=
  (h.bindings.filter (·.path == path)).map (·.declaration)

def declares (h : Host) (path : AttributePath) : Bool := h.bindings.any (·.path == path)

end Host

end NixScope
