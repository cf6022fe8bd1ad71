import NixScope.Syntax.Node
import NixScope.Syntax.Quoted

namespace NixScope.Syntax

mutual

def PlacedTree.unwrap (above : List Spot) : PlacedTree → Option Node
  | .leaf _ => none
  | .branch m ts =>
    if m.kind = .paren then unwrapAll (⟨m, ts⟩ :: above) ts else some ⟨⟨m, ts⟩, above⟩

def PlacedTree.unwrapAll (above : List Spot) : List PlacedTree → Option Node
  | [] => none
  | .leaf _ :: ts => unwrapAll above ts
  | .branch m cs :: ts =>
    if m.kind.isExpr then unwrap above (.branch m cs) else unwrapAll above ts

end

/-- The expression inside any number of parentheses. -/
def Node.stripParens? (n : Node) : Option Node :=
  if n.kind = .paren then PlacedTree.unwrapAll (n.toSpot :: n.above) n.children else some n

namespace Var

def name? (n : Node) : Option String := (n.token? .ident).map Leaf.text

end Var

namespace StringLiteral

def isIndented (n : Node) : Bool := (n.token? .indentedQuote).isSome

def parts (n : Node) : List Element :=
  n.elements.filter fun e =>
    match e with
    | .leaf l => l.kind == .stringContent
    | .node m => m.kind == .interpolation

def decodePart (indented : Bool) : Element → Option (List Char)
  | .leaf l =>
    some (if indented then Quoted.decodeIndented l.text.toList else Quoted.decode l.text.toList)
  | .node _ => none

/-- The text that the literal stands for, unless it interpolates. Indentation stays. -/
def value? (n : Node) : Option String :=
  ((parts n).mapM (decodePart (isIndented n))).map fun ps => String.ofList ps.flatten

end StringLiteral

namespace Attr

/-- The three ways to write an attribute: `a`, `"a"` and `${a}`. -/
inductive Spelling
  | ident (l : Leaf)
  | string (n : Node)
  | dynamic (n : Node)
  deriving DecidableEq, Repr

def spellingOf? : Element → Option Spelling
  | .leaf l => if l.kind = .ident ∨ l.kind = .orKw then some (.ident l) else none
  | .node n =>
    if n.kind = .string then some (.string n)
    else if n.kind = .dynamic then some (.dynamic n)
    else none

def spelling? (n : Node) : Option Spelling := n.elements.findSome? spellingOf?

/-- The name, if it is known without evaluation: `a`, `"a"` and `${"a"}`. -/
def staticName? (n : Node) : Option String :=
  match spelling? n with
  | none => none
  | some (.ident l) => some l.text
  | some (.string s) => StringLiteral.value? s
  | some (.dynamic d) =>
    ((d.expr?.bind Node.stripParens?).filter (·.kind == .string)).bind StringLiteral.value?

end Attr

namespace AttrPath

def attrs (n : Node) : List Node := n.childrenOf .attr

end AttrPath

namespace Select

def base? (n : Node) : Option Node := n.exprBefore? .dot

def path? (n : Node) : Option Node := n.child? .attrPath

def fallback? (n : Node) : Option Node := n.exprAfter? .orKw

end Select

namespace HasAttr

def base? (n : Node) : Option Node := n.expr?

def path? (n : Node) : Option Node := n.child? .attrPath

end HasAttr

namespace AttrPathValue

def path? (n : Node) : Option Node := n.child? .attrPath

def value? (n : Node) : Option Node := n.exprAfter? .assign

end AttrPathValue

namespace Inherit

def source? (n : Node) : Option Node := n.child? .inheritFrom

def names (n : Node) : List Node := n.childrenOf .inheritedName

end Inherit

namespace InheritedName

def attr? (n : Node) : Option Node := n.child? .attr

def inherit? (n : Node) : Option Node := n.parent?.filter (·.kind == .inherit)

end InheritedName

namespace AttrSet

def isRec (n : Node) : Bool := (n.token? .recKw).isSome

end AttrSet

def Node.entries (n : Node) : List Node :=
  n.nodes.filter fun c => c.kind == .attrPathValue || c.kind == .inherit

namespace LetIn

def body? (n : Node) : Option Node := n.exprAfter? .inKw

end LetIn

namespace Lambda

def param? (n : Node) : Option Node :=
  n.nodes.find? fun c => c.kind == .paramName || c.kind == .pattern

def body? (n : Node) : Option Node := n.exprAfter? .colon

end Lambda

namespace Pattern

def entries (n : Node) : List Node := n.childrenOf .patternEntry

/-- The names before and after the braces; a pattern should have one at most. -/
def binds (n : Node) : List Node := n.childrenOf .patternBind

def hasEllipsis (n : Node) : Bool := (n.token? .ellipsis).isSome

def name? (n : Node) : Option Node := n.child? .paramName

end Pattern

namespace PatternEntry

def fallback? (n : Node) : Option Node := n.exprAfter? .question

end PatternEntry

namespace WithIn

def source? (n : Node) : Option Node := n.exprBefore? .semicolon

def body? (n : Node) : Option Node := n.exprAfter? .semicolon

end WithIn

namespace Assert

def condition? (n : Node) : Option Node := n.exprBefore? .semicolon

def body? (n : Node) : Option Node := n.exprAfter? .semicolon

end Assert

namespace IfElse

def condition? (n : Node) : Option Node := n.exprBefore? .thenKw

def thenBranch? (n : Node) : Option Node := n.exprAfter? .thenKw

def elseBranch? (n : Node) : Option Node := n.exprAfter? .elseKw

end IfElse

namespace Apply

def function? (n : Node) : Option Node := n.exprs[0]?

def argument? (n : Node) : Option Node := n.exprs[1]?

end Apply

namespace BinaryOp

def left? (n : Node) : Option Node := n.exprs[0]?

def right? (n : Node) : Option Node := n.exprs[1]?

def operator? (n : Node) : Option Leaf := n.solidToken?

end BinaryOp

namespace UnaryOp

def operand? (n : Node) : Option Node := n.expr?

end UnaryOp

namespace InterpolatedPath

def interpolations (n : Node) : List Node := n.childrenOf .interpolation

end InterpolatedPath

end NixScope.Syntax
