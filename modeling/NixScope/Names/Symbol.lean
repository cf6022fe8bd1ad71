import NixScope.Names.Builtin
import NixScope.Names.Declaration

namespace NixScope

open Syntax

/-- A path that some node declares, a builtin, or an attribute that only evaluation can find: a
variable that a `with` may provide, or a member of another symbol. All declarations of a path in one
node are one symbol. -/
inductive Symbol
  | declared (host : Pointer) (path : AttributePath)
  | builtin (b : Builtin)
  | adHoc (name : Attribute)
  | member (parent : Symbol) (name : Attribute)
  deriving DecidableEq, Repr, Inhabited

inductive Role
  | parameter
  | localVariable
  | attr
  | builtin
  deriving DecidableEq, Repr, Inhabited

namespace Role

def textKey : Role → String
  | parameter => "NIX_PARAMETER"
  | localVariable => "NIX_LOCAL_VARIABLE"
  | attr => "NIX_ATTRIBUTE"
  | builtin => "NIX_BUILTIN"

end Role

structure Presentation where
  label : String
  role : Option Role
  deriving DecidableEq, Repr, Inhabited

namespace Symbol

def isAdHoc : Symbol → Bool
  | declared _ _ => false
  | builtin _ => false
  | adHoc _ => true
  | member _ _ => true

def name : Symbol → String
  | declared _ path => path.last.label
  | builtin b => b.name
  | adHoc a => a.label
  | member _ a => a.label

def declaredRole (host : Kind) (path : AttributePath) : Role :=
  if host = .lambda then .parameter
  else if host = .letIn ∧ path.length = 1 then .localVariable
  else .attr

def role : Symbol → Role
  | declared host path => declaredRole host.kind path
  | builtin _ => .builtin
  | adHoc _ => .localVariable
  | member _ _ => .attr

def presentation (s : Symbol) : Presentation := ⟨s.name, some s.role⟩

def host? (root : Node) : Symbol → Option Host
  | declared host _ => (host.find? root).bind Host.of?
  | _ => none

/-- Builtins and attributes found by evaluation have none. -/
def declarations (root : Node) : Symbol → List Declaration
  | declared host path =>
    (((host.find? root).bind Host.of?).map fun h => h.declarations path).getD []
  | _ => []

/-- The attribute set that a declaration binds, if it is written out. -/
def setOf? (root : Node) (d : Declaration) : Option Host :=
  (((d.value? root).bind Node.stripParens?).filter (·.kind == .attrSet)).map fun n => ⟨n⟩

/-- Members of a declared path: longer paths of the same node come first, then attribute sets bound
to the path. -/
def declaredMembers (root : Node) (h : Host) (path : AttributePath) (a : Attribute) : List Symbol :=
  if h.declares (path.child a) then [declared h.node.pointer (path.child a)]
  else
    (((h.declarations path).filterMap (setOf? root)).filter (·.declares (.single a))).map
      fun set => declared set.node.pointer (.single a)

def knownMembers (root : Node) (a : Attribute) : Symbol → List Symbol
  | declared host path =>
    (((host.find? root).bind Host.of?).map fun h => declaredMembers root h path a).getD []
  | builtin b => ((a.name?.bind b.member?).map builtin).toList
  | adHoc _ => []
  | member _ _ => []

/-- Candidates for the attribute `a` of a symbol. There is always one. -/
def resolve (root : Node) (a : Attribute) (s : Symbol) : List Symbol :=
  match s.knownMembers root a with
  | [] => [member s a]
  | found => found

/-- Whether what a symbol rests on is still declared. -/
def isLive (root : Node) : Symbol → Bool
  | declared host path => !(declarations root (declared host path)).isEmpty
  | builtin _ => true
  | adHoc _ => true
  | member parent _ => parent.isLive root

def find? (root : Node) (s : Symbol) : Option Symbol := if s.isLive root then some s else none

end Symbol

end NixScope
