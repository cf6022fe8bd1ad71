import NixScope.Check.Diagnostic
import NixScope.Names.Scope

namespace NixScope

open Syntax

structure Checks where
  undefined : Bool
  duplicate : Bool
  deriving DecidableEq, Repr

namespace Checks

def all : Checks := ⟨true, true⟩

def undefinedUsage? (u : Usage) : Option (Range × Finding) :=
  match u.first.name with
  | .dynamic _ => none
  | .static name =>
    if (Scope.resolveName u.element (.static name)).isEmpty then
      some (u.first.node.range, .undefined (.static name))
    else none

def undefinedNames (root : Node) : List (Range × Finding) :=
  (Usage.under root).filterMap undefinedUsage?

/-- The name that a binding takes for itself. A path of several segments shares its names with other
paths, and the name of a dynamic one is not known. -/
def ownName? (b : Binding) : Option (String × Range) :=
  match b.path with
  | ⟨.static name, []⟩ =>
    if b.declaration.kind = .attrPrefix then none else some (name, b.declaration.name.range)
  | _ => none

/-- Names that come again, each with the first place that has it. -/
def repeated : (seen : List (String × Range)) → List (String × Range) → List (Range × Finding)
  | _, [] => []
  | seen, (name, range) :: names =>
    match seen.lookup name with
    | some previous => (range, .duplicate (.static name) previous) :: repeated seen names
    | none => repeated ((name, range) :: seen) names

def duplicateBindings (root : Node) : List (Range × Finding) :=
  (root.descendants.filterMap Host.of?).flatMap fun h => repeated [] (h.bindings.filterMap ownName?)

def findings (checks : Checks) (root : Node) : List (Range × Finding) :=
  (if checks.undefined then undefinedNames root else [])
    ++ (if checks.duplicate then duplicateBindings root else [])

def run (checks : Checks) (file : FileId) (lines : Lines) (root : Node) : List Diagnostic :=
  (checks.findings root).map fun f => f.2.diagnostic file lines f.1

end Checks

namespace Syntax

def Error.diagnostic (file : FileId) (lines : Lines) (e : Error) : Diagnostic :=
  (Finding.malformed e.message).diagnostic file lines e.range

end Syntax

end NixScope
