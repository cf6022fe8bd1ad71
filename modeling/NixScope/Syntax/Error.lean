import NixScope.Syntax.Kind
import NixScope.Text.Range

namespace NixScope.Syntax

/-- Why a text does not fit the grammar at some place. -/
inductive Problem
  | expected (kind : Kind)
  | trailingInput
  | noFormal
  | noBindName
  | noAttrAfterDot
  | noExpression
  | noListElement
  | noBinding
  | noAttrName
  | unterminatedString
  | nestedTooDeeply
  deriving DecidableEq, Repr

namespace Problem

def message : Problem → String
  | expected k => s!"expected {k.name}"
  | trailingInput => "unexpected input after expression"
  | noFormal => "expected formal parameter"
  | noBindName => "expected parameter name after '@'"
  | noAttrAfterDot => "expected attribute after '.'"
  | noExpression => "expected expression"
  | noListElement => "expected list element"
  | noBinding => "expected binding"
  | noAttrName => "expected attribute name"
  | unterminatedString => "unterminated string"
  | nestedTooDeeply => "expression nested too deeply"

end Problem

/-- A problem and the token it was met at, or the end of the text. -/
structure Error where
  problem : Problem
  range : Range
  deriving DecidableEq, Repr

namespace Error

def message (e : Error) : String := e.problem.message

def render (e : Error) : String := s!"{e.message} at {e.range.render}"

end Error

end NixScope.Syntax
