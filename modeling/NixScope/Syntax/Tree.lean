import NixScope.Rose
import NixScope.Syntax.Token

namespace NixScope.Syntax

/-- A syntax tree whose leaves are all the tokens of a text, so that it spells the text. -/
abbrev Tree := Rose Token Kind

namespace Tree

def kind : Tree → Kind
  | .leaf t => t.kind
  | .branch k _ => k

def text (t : Tree) : String := t.leaves.foldl (fun s l => s ++ l.text) ""

def width (t : Tree) : Nat := Token.widthOf t.leaves

mutual

/-- Whether equal trees are kept only once. They are if they have three children at most and these
are kept only once themselves; an empty node that stands for blanks keeps those around it apart. -/
def isShared : Tree → Bool
  | .leaf _ => true
  | .branch _ ts => ts.length ≤ 3 && areShared ts

def areShared : List Tree → Bool
  | [] => true
  | .branch .whitespace [] :: _ => false
  | t :: ts => isShared t && areShared ts

end

end Tree

end NixScope.Syntax
