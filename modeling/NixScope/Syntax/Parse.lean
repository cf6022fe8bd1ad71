import NixScope.Syntax.Grammar
import NixScope.Syntax.Node
import NixScope.Syntax.Token.Lexer

namespace NixScope.Syntax

/-- What stands under the root of the tree of a text, and the problems met on the way, in the order
of the text. -/
structure Parse where
  content : List Tree
  errors : List Error
  deriving DecidableEq, Repr

namespace Parse

def tree (p : Parse) : Tree := .branch .root p.content

def root (p : Parse) : Node := .root .root p.content

def hasErrors (p : Parse) : Bool := !p.errors.isEmpty

def ofTokens (tokens : List Token) : Parse :=
  let file := Grammar.file (.start tokens)
  ⟨file.1, file.2.errors.reverse⟩

end Parse

/-- Every text has a tree: what does not fit the grammar stands under `error` nodes. -/
def parse (text : String) : Parse := Parse.ofTokens (Token.lex text)

end NixScope.Syntax
