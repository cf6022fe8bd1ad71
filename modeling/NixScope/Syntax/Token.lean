import NixScope.Syntax.Kind

namespace NixScope.Syntax

structure Token where
  kind : Kind
  text : String
  deriving DecidableEq, Repr, Inhabited

namespace Token

def width (t : Token) : Nat := t.text.utf8ByteSize

def widthOf : List Token → Nat
  | [] => 0
  | t :: ts => t.width + widthOf ts

def isTrivia (t : Token) : Bool := t.kind.isTrivia

end Token

end NixScope.Syntax
