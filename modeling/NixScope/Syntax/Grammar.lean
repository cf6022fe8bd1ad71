import NixScope.Syntax.Grammar.Rule

/-!
The grammar of Nix. Recursion goes through the phrases that count as one level of nesting; the
grammar of a level takes the rules of the level inside it as an argument, and `nested` ties the knot
up to a limit.
-/

namespace NixScope.Syntax

/-- Left and right binding power of an infix operator. The right one is larger for an operator that
groups to the left. -/
def Kind.bindingPower : Kind → Option (Nat × Nat)
  | implication => some (2, 1)
  | orOr => some (3, 4)
  | andAnd => some (5, 6)
  | equal | notEqual => some (7, 8)
  | less | lessEqual | more | moreEqual => some (9, 10)
  | update => some (12, 11)
  | plus | minus => some (14, 15)
  | star | slash => some (16, 17)
  | concat => some (19, 18)
  | _ => none

/-- Right binding power of an operator that stands before its operand. -/
def Kind.unaryPower : Kind → Option Nat
  | minus => some 21
  | bang => some 13
  | _ => none

namespace Grammar

def hasAttrPower : Nat := 20

/-- Phrases that count as one level of nesting. -/
inductive Phrase
  | expr
  | atom
  | operand (power : Nat)
  deriving DecidableEq, Repr

section

open Rule

variable (inner : Phrase → Rule)

def hole (kind : Kind) : Rule := node kind (seq [token, inner .expr, expect .rightBrace])

def stringPart (p : Place) : Option Rule :=
  match p.peek with
  | some .stringContent => some token
  | some .dollarBrace => some (hole inner .interpolation)
  | _ => none

def string (opening : Kind) : Rule :=
  node .string <| seq [token, many (stringPart inner),
    fun p => if p.peek = some opening then token p else report .unterminatedString p]

/-- The parts of a path follow each other without a blank. -/
def pathPart (p : Place) : Option Rule :=
  match p.rest.head?.map Token.kind with
  | some .pathFragment => some token
  | some .dollarBrace => some (hole inner .interpolation)
  | _ => none

def interpolatedPath : Rule := node .interpolatedPath (seq [token, many (pathPart inner)])

def attr : Rule := node .attr fun p =>
  match p.peek with
  | some .ident | some .orKw => token p
  | some .quote => string inner .quote p
  | some .dollarBrace => hole inner .dynamic p
  | _ => report .noAttrName p

def dotAttrAhead (p : Place) : Bool := p.peek == some .dot && (p.ahead 1).any Kind.startsAttr

def attrPath : Rule :=
  node .attrPath (seq [attr inner,
    many fun p => if dotAttrAhead p then some (seq [token, attr inner]) else none])

def inheritedName (p : Place) : Option Rule :=
  if p.peek.any Kind.startsAttr then some (node .inheritedName (attr inner)) else none

def inherit : Rule :=
  node .inherit <| seq [token,
    when .leftParen (node .inheritFrom (seq [token, inner .expr, expect .rightParen])),
    many (inheritedName inner), expect .semicolon]

def attrPathValue : Rule :=
  node .attrPathValue (seq [attrPath inner, expect .assign, inner .expr, expect .semicolon])

def binding (terminator : Kind) (p : Place) : Option Rule :=
  p.peek.bind fun kind =>
    if kind = terminator then none
    else if kind = .inheritKw then some (inherit inner)
    else if kind.startsAttr then some (attrPathValue inner)
    else if kind = .rightBrace ∨ kind = .inKw then none
    else some (seq [report .noBinding, node .error token])

def attrSet : Rule :=
  node .attrSet <| seq [when .recKw token, expect .leftBrace, many (binding inner .rightBrace),
    expect .rightBrace]

/-- What follows an atom in a selection; `fallback` is the rule for the value after `or`. -/
def selectTail (fallback : Rule) (base : List Tree) : Rule := fun p =>
  if p.peek ≠ some .dot then (base, p)
  else if dotAttrAhead p then
    wrap .select base (seq [token, attrPath inner, when .orKw (seq [token, fallback])]) p
  else seq [fun p => (base, p), report .noAttrAfterDot, node .error token] p

def selectFrom : (clock : List Token) → Rule
  | [] => seq [trivia, inner .atom]
  | _ :: clock => seq [trivia, (inner .atom).andThen (selectTail inner (selectFrom clock))]

/-- An atom with an optional attribute path and default, as in `x.a.b or y`. Each default follows an
`or`, so the tokens ahead count enough of them. -/
def select : Rule := fun p => selectFrom inner p.rest p

def applyFrom : (clock : List Token) → (function : List Tree) → Rule
  | [], function, p => (function, p)
  | _ :: clock, function, p =>
    if p.peek.any Kind.startsArgument then
      (wrap .apply function (select inner)).andThen (applyFrom clock) p
    else (function, p)

/-- A selection applied to any number of arguments. -/
def application : Rule :=
  seq [trivia, (select inner).andThen fun function p => applyFrom inner p.rest function p]

def listElement (p : Place) : Option Rule :=
  p.peek.bind fun kind =>
    if kind.startsArgument then some (select inner)
    else if kind.closes then none
    else some (recover .noListElement)

def list : Rule := node .list (seq [token, many (listElement inner), expect .rightBracket])

def leftmost : Rule := fun p =>
  match p.peek.bind Kind.unaryPower with
  | some power => node .unaryOp (seq [token, inner (.operand power)]) p
  | none => application inner p

/-- The operators after the operand `left` that bind at least as strongly as `power`. -/
def operatorsFrom : (clock : List Token) → (power : Nat) → (left : List Tree) → Rule
  | [], _, left, p => (left, p)
  | _ :: clock, power, left, p =>
    if p.peek = some .question then
      if hasAttrPower < power then (left, p)
      else (wrap .hasAttr left (seq [token, attrPath inner])).andThen (operatorsFrom clock power) p
    else
      match p.peek.bind Kind.bindingPower with
      | none => (left, p)
      | some (leftPower, rightPower) =>
        if leftPower < power then (left, p)
        else
          let right := (leftmost inner).andThen (operatorsFrom clock rightPower)
          (wrap .binaryOp left (seq [token, trivia, right])).andThen (operatorsFrom clock power) p

/-- An operand of an operator with the given right binding power. -/
def operand (power : Nat) : Rule :=
  seq [trivia, (leftmost inner).andThen fun left p => operatorsFrom inner p.rest power left p]

def paramName : Rule := node .paramName token

def formal : Kind → Rule
  | .ellipsis => token
  | .ident => node .patternEntry (seq [paramName, when .question (seq [token, inner .expr])])
  | _ => recover .noFormal

def formalsFrom : (clock : List Token) → Rule
  | [] => skip
  | _ :: clock => fun p =>
    match p.peek with
    | none | some .rightBrace => ([], p)
    | some kind => seq [formal inner kind, when .comma (seq [token, formalsFrom clock])] p

def formals : Rule := fun p => formalsFrom inner p.rest p

def patternName : Rule := node .patternBind <| seq [token,
  fun p => if p.peek = some .ident then paramName p else report .noBindName p]

def pattern : Rule :=
  node .pattern <| seq [when .ident (node .patternBind (seq [paramName, expect .atSign])),
    expect .leftBrace, formals inner, expect .rightBrace, when .atSign patternName]

def patternLambda : Rule := node .lambda (seq [pattern inner, expect .colon, inner .expr])

def nameLambda : Rule := node .lambda (seq [paramName, token, inner .expr])

/-- The brace ahead opens a pattern, not an attribute set. -/
def patternAhead (p : Place) : Bool :=
  match p.ahead 1, p.ahead 2 with
  | some .rightBrace, some .colon | some .rightBrace, some .atSign => true
  | some .ellipsis, _ => true
  | some .ident, some .comma | some .ident, some .question => true
  | some .ident, some .rightBrace => p.ahead 3 = some .colon ∨ p.ahead 3 = some .atSign
  | _, _ => false

def statement (kind : Kind) : Rule :=
  node kind (seq [token, inner .expr, expect .semicolon, inner .expr])

def ifElse : Rule :=
  node .ifElse <| seq [token, inner .expr, expect .thenKw, inner .expr, expect .elseKw, inner .expr]

def letIn : Rule :=
  node .letIn (seq [token, many (binding inner .inKw), expect .inKw, inner .expr])

def expr : Rule := fun p =>
  match p.peek with
  | some .letKw => letIn inner p
  | some .withKw => statement inner .withIn p
  | some .assertKw => statement inner .assert p
  | some .ifKw => ifElse inner p
  | some .ident =>
    if p.ahead 1 = some .colon then nameLambda inner p
    else if p.ahead 1 = some .atSign then patternLambda inner p
    else operand inner 0 p
  | some .leftBrace => if patternAhead p then patternLambda inner p else operand inner 0 p
  | _ => operand inner 0 p

def atom : Rule := fun p =>
  match p.peek with
  | some .ident => node .var token p
  | some .integer | some .float | some .path | some .searchPath | some .uri => node .literal token p
  | some .quote => string inner .quote p
  | some .indentedQuote => string inner .indentedQuote p
  | some .pathFragment => interpolatedPath inner p
  | some .leftParen => node .paren (seq [token, inner .expr, expect .rightParen]) p
  | some .leftBracket => list inner p
  | some .leftBrace | some .recKw => attrSet inner p
  | some .letKw | some .withKw | some .assertKw | some .ifKw => inner .expr p
  | _ => recover .noExpression p

def phrase : Phrase → Rule
  | .expr => expr inner
  | .atom => atom inner
  | .operand power => operand inner power

end

/-- A phrase inside of which phrases may nest up to `levels` deep, itself included. -/
def nested : (levels : Nat) → Phrase → Rule
  | 0, _ => Rule.giveUp
  | levels + 1, p => phrase (nested levels) p

def maxDepth : Nat := 512

def file : Rule := .seq [
  .onlyIf (fun p => p.peek.isSome) (nested maxDepth .expr),
  .onlyIf (fun p => p.peek.isSome) (.seq [.report .trailingInput, .node .error .remaining]),
  .trivia]

end Grammar

end NixScope.Syntax
