import NixScope.Names.Attribute
import NixScope.Syntax.Error
import NixScope.Text.Lines
import NixScope.Workspace.FileId

namespace NixScope

inductive Severity
  | error
  | warning
  | info
  | hint
  deriving DecidableEq, Repr, Inhabited

def Severity.code : Severity → Nat
  | error => 1
  | warning => 2
  | info => 3
  | hint => 4

structure Related where
  file : FileId
  position : Position
  message : String
  deriving DecidableEq, Repr, Inhabited

structure Diagnostic where
  file : FileId
  start : Position
  stop : Position
  severity : Severity
  code : Option String
  message : String
  related : List Related
  deriving DecidableEq, Repr, Inhabited

inductive Finding
  | malformed (message : String)
  | undefined (name : Attribute)
  | duplicate (name : Attribute) (previous : Range)
  deriving DecidableEq, Repr

namespace Finding

def code : Finding → String
  | malformed _ => "E0000"
  | undefined _ => "E0001"
  | duplicate _ _ => "E0004"

def message : Finding → String
  | malformed message => message
  | undefined name => s!"undefined variable '{name.render}'"
  | duplicate name _ => s!"duplicate binding: '{name.render}' is already defined"

def related (file : FileId) (lines : Lines) : Finding → List Related
  | malformed _ => []
  | undefined _ => []
  | duplicate name previous =>
    [⟨file, lines.position previous.start, s!"previous binding of '{name.render}'"⟩]

def diagnostic (file : FileId) (lines : Lines) (range : Range) (f : Finding) : Diagnostic :=
  ⟨file, lines.position range.start, lines.position range.stop, .error, some f.code, f.message,
    f.related file lines⟩

end Finding

structure Report where
  file : FileId
  lines : Lines
  diagnostics : List Diagnostic
  deriving DecidableEq, Repr

namespace Report

def empty (file : FileId) (lines : Lines) : Report := ⟨file, lines, []⟩

def add (r : Report) (d : Diagnostic) : Report := { r with diagnostics := r.diagnostics ++ [d] }

def note (r : Report) (range : Range) (f : Finding) : Report :=
  r.add (f.diagnostic r.file r.lines range)

def count (r : Report) (s : Severity) : Nat := r.diagnostics.countP (·.severity == s)

def hasErrors (r : Report) : Bool := r.diagnostics.any (·.severity == .error)

def take (r : Report) : List Diagnostic × Report := (r.diagnostics, { r with diagnostics := [] })

end Report

end NixScope
