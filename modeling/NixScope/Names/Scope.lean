import NixScope.Names.Symbol
import NixScope.Names.Usage

/-!
Lexical scoping. The innermost lambda, `let` or recursive attribute set that declares a name wins.
If there is none, a `with` around may provide it, and where there is no `with` either, it is a
builtin or undefined.
-/

namespace NixScope

open Syntax

namespace Scope

/-- The nodes around `n` that `n` may see the bindings of, nearest first. An inherited name does not
see the node that it is inherited into. -/
def around (n : Node) : List Node :=
  match n.outer with
  | clause :: target :: outer =>
    if n.kind = .inheritedName then clause :: outer else clause :: target :: outer
  | outer => outer

def hosts (n : Node) : List Host := ((around n).filterMap Host.of?).filter Host.isScope

def isBodyOf (body outer : Node) : Bool :=
  outer.kind == .withIn && (WithIn.body? outer).any (·.same body.toSpot)

/-- Whether a chain of nodes, each in the next, goes through the body of a `with`. -/
def crossesWith : List Node → Bool
  | inner :: outer :: rest => isBodyOf inner outer || crossesWith (outer :: rest)
  | _ => false

/-- Candidates for a variable at a node. There is one at most. -/
def resolveName (n : Node) (a : Attribute) : List Symbol :=
  match (hosts n).find? (·.declares (.single a)) with
  | some h => [.declared h.node.pointer (.single a)]
  | none =>
    if crossesWith n.ancestors then [.adHoc a]
    else ((a.name?.bind Builtin.global?).map Symbol.builtin).toList

/-- Candidates for the segments that follow, as long as there is a single one to go on from. -/
def follow (root : Node) : (current : List Symbol) → List Attribute → List (List Symbol)
  | current, [] => [current]
  | [s], a :: rest => if s.isAdHoc then [[s]] else [s] :: follow root (s.resolve root a) rest
  | current, _ => [current]

end Scope

/-- Candidates for each segment of a path, up to the first segment with none, several or an ad hoc
one. -/
structure Resolution where
  path : AttributePath
  segments : List (List Symbol)
  deriving DecidableEq, Repr

namespace Resolution

def of (root : Node) (u : Usage) : Resolution :=
  let path := u.path
  ⟨path, Scope.follow root (Scope.resolveName u.element path.first) path.rest⟩

def symbols (r : Resolution) (i : Nat) : List Symbol := r.segments.getD i []

def isComplete (r : Resolution) : Bool :=
  r.segments.length == r.path.length && r.segments.getLast?.any (!·.isEmpty)

/-- Candidates for the last segment, if the resolution reaches it. -/
def target? (r : Resolution) : Option (List Symbol) :=
  if r.isComplete then r.segments.getLast? else none

def isUnresolved (r : Resolution) : Bool := (r.symbols 0).isEmpty

end Resolution

end NixScope
