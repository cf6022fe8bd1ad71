import NixScope.Editor.Document
import NixScope.Names.Scope

namespace NixScope

open Syntax

namespace Highlight

inductive Style
  | parameter
  | variableName
  | property
  | builtin
  | unresolved
  deriving DecidableEq, Repr, Inhabited

namespace Style

def code : Style → Nat
  | parameter => 0
  | variableName => 1
  | property => 2
  | builtin => 3
  | unresolved => 4

/-- A segment in doubt is a variable if it comes first and a property otherwise. -/
def ofIndex (i : Nat) : Style := if i = 0 then variableName else property

def ofRole (i : Nat) : Role → Style
  | .parameter => parameter
  | .localVariable => variableName
  | .attr => ofIndex i
  | .builtin => builtin

def of (i : Nat) : List Symbol → Style
  | [] => if i = 0 then unresolved else property
  | [.builtin _] => builtin
  | [.declared host path] => ofRole i (Symbol.declaredRole host.kind path)
  | _ => ofIndex i

end Style

end Highlight

/-- A stretch of one line in one style. -/
structure Highlight where
  line : Nat
  col : Nat
  length : Nat
  style : Highlight.Style
  deriving DecidableEq, Repr, Inhabited

namespace Highlight

/-- A dynamic segment is left to the usages inside of it, and one over several lines is skipped. -/
def ofSegment? (lines : Lines) (s : Segment) (style : Style) : Option Highlight :=
  let span := lines.span s.node.range
  if s.name.isDynamic || span.1.line != span.2.line then none
  else some ⟨span.1.line, span.1.col, s.node.range.stop - s.node.range.start, style⟩

def ofUsage (lines : Lines) (root : Node) (u : Usage) : List Highlight :=
  let r := Resolution.of root u
  u.segments.zipIdx.filterMap fun s => ofSegment? lines s.1 (.of s.2 (r.symbols s.2))

def le (a b : Highlight) : Bool := a.line < b.line || (a.line == b.line && a.col ≤ b.col)

end Highlight

def Document.highlights (d : Document) : List Highlight :=
  ((Usage.under d.root).flatMap (Highlight.ofUsage d.lines d.root)).mergeSort Highlight.le

end NixScope
