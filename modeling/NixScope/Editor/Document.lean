import NixScope.Syntax.Parse
import NixScope.Text.Lines
import NixScope.Workspace.Path

namespace NixScope

open Syntax

structure Document where
  path : Path
  text : String
  parse : Parse
  lines : Lines
  deriving Repr

namespace Document

def of (path : Path) (text : String) : Document := ⟨path, text, Syntax.parse text, .of text⟩

def root (d : Document) : Node := d.parse.root

end Document

end NixScope
