import NixScope.Syntax.Node.Parts
import NixScope.Syntax.Pointer
import NixScope.Syntax.Token.Scan

namespace NixScope

open Syntax

/-- One segment of an attribute path: a name, or a node `${ … }` whose name only evaluation can
tell. Dynamic segments compare by their node, so two of them are never the same. -/
inductive Attribute
  | static (name : String)
  | dynamic (node : Pointer)
  deriving DecidableEq, Repr, Inhabited

namespace Attribute

def ofNode (n : Node) : Attribute :=
  match Attr.staticName? n with
  | some name => static name
  | none => dynamic n.pointer

def name? : Attribute → Option String
  | static name => some name
  | dynamic _ => none

def isDynamic : Attribute → Bool
  | static _ => false
  | dynamic _ => true

/-- Names that need no quotes. The word `or` is a keyword, and still a name after a dot. -/
def isPlain : List Char → Bool
  | [] => false
  | c :: cs =>
    Scan.isIdentStart c && cs.all Scan.isIdentRest
      && (Scan.keyword? (c :: cs)).all (· == .orKw)

def render : Attribute → String
  | static name =>
    if isPlain name.toList then name
    else String.ofList ('"' :: Quoted.encode name.toList ++ ['"'])
  | dynamic _ => "$\x7b…\x7d"

/-- The name, or the stand-in that is shown for a dynamic segment. -/
def label : Attribute → String
  | static name => name
  | dynamic p => (dynamic p).render

end Attribute

structure AttributePath where
  first : Attribute
  rest : List Attribute
  deriving DecidableEq, Repr, Inhabited

namespace AttributePath

def toList (p : AttributePath) : List Attribute := p.first :: p.rest

def ofList? : List Attribute → Option AttributePath
  | [] => none
  | a :: as => some ⟨a, as⟩

def single (a : Attribute) : AttributePath := ⟨a, []⟩

def ofNames? (names : List String) : Option AttributePath := ofList? (names.map .static)

def length (p : AttributePath) : Nat := p.rest.length + 1

def last (p : AttributePath) : Attribute := p.rest.getLastD p.first

def parent? (p : AttributePath) : Option AttributePath := ofList? p.toList.dropLast

def child (p : AttributePath) (a : Attribute) : AttributePath := ⟨p.first, p.rest ++ [a]⟩

def startsWith (p q : AttributePath) : Bool := q.toList.isPrefixOf p.toList

def render (p : AttributePath) : String := ".".intercalate (p.toList.map Attribute.render)

end AttributePath

end NixScope
