namespace NixScope.Syntax

/-- What a token or a node of the tree is. Tokens stand before `root`, nodes from `root` on; text
that fits no token is an `error` token, and input that fits no rule stands in an `error` node. -/
inductive Kind
  | whitespace | comment
  | assertKw | elseKw | ifKw | inKw | inheritKw | letKw | orKw | recKw | thenKw | withKw
  | leftBrace | rightBrace | leftBracket | rightBracket | leftParen | rightParen
  | semicolon | colon | comma | dot | ellipsis | atSign | question | assign | dollarBrace
  | plus | minus | star | slash | concat | update
  | equal | notEqual | less | lessEqual | more | moreEqual
  | andAnd | orOr | implication | bang
  | ident | integer | float | path | pathFragment | searchPath | uri
  | quote | indentedQuote | stringContent
  | root | error | apply | assert | attr | attrPath | attrPathValue | attrSet | binaryOp | dynamic
  | hasAttr | ifElse | inherit | inheritFrom | inheritedName | interpolation | interpolatedPath
  | lambda | letIn | list | literal | paren | paramName | pattern | patternBind | patternEntry
  | select | string | unaryOp | var | withIn
  deriving DecidableEq, Repr, Inhabited

namespace Kind

def all : List Kind :=
  [whitespace, comment,
    assertKw, elseKw, ifKw, inKw, inheritKw, letKw, orKw, recKw, thenKw, withKw,
    leftBrace, rightBrace, leftBracket, rightBracket, leftParen, rightParen,
    semicolon, colon, comma, dot, ellipsis, atSign, question, assign, dollarBrace,
    plus, minus, star, slash, concat, update,
    equal, notEqual, less, lessEqual, more, moreEqual,
    andAnd, orOr, implication, bang,
    ident, integer, float, path, pathFragment, searchPath, uri,
    quote, indentedQuote, stringContent,
    root, error, apply, assert, attr, attrPath, attrPathValue, attrSet, binaryOp, dynamic,
    hasAttr, ifElse, inherit, inheritFrom, inheritedName, interpolation, interpolatedPath,
    lambda, letIn, list, literal, paren, paramName, pattern, patternBind, patternEntry,
    select, string, unaryOp, var, withIn]

def toCode (k : Kind) : Nat := k.ctorIdx

/-- A number that no kind has reads as `error`. -/
def ofCode (n : Nat) : Kind := all.getD n error

theorem ofCode_toCode (k : Kind) : ofCode k.toCode = k := by cases k <;> rfl

def name : Kind → String
  | whitespace => "WHITESPACE"
  | comment => "COMMENT"
  | assertKw => "ASSERT_KW"
  | elseKw => "ELSE_KW"
  | ifKw => "IF_KW"
  | inKw => "IN_KW"
  | inheritKw => "INHERIT_KW"
  | letKw => "LET_KW"
  | orKw => "OR_KW"
  | recKw => "REC_KW"
  | thenKw => "THEN_KW"
  | withKw => "WITH_KW"
  | leftBrace => "L_BRACE"
  | rightBrace => "R_BRACE"
  | leftBracket => "L_BRACK"
  | rightBracket => "R_BRACK"
  | leftParen => "L_PAREN"
  | rightParen => "R_PAREN"
  | semicolon => "SEMICOLON"
  | colon => "COLON"
  | comma => "COMMA"
  | dot => "DOT"
  | ellipsis => "ELLIPSIS"
  | atSign => "AT"
  | question => "QUESTION"
  | assign => "ASSIGN"
  | dollarBrace => "DOLLAR_CURLY"
  | plus => "PLUS"
  | minus => "MINUS"
  | star => "STAR"
  | slash => "SLASH"
  | concat => "CONCAT"
  | update => "UPDATE"
  | equal => "EQ"
  | notEqual => "NOT_EQ"
  | less => "LESS"
  | lessEqual => "LESS_EQ"
  | more => "MORE"
  | moreEqual => "MORE_EQ"
  | andAnd => "AND_AND"
  | orOr => "OR_OR"
  | implication => "IMPLICATION"
  | bang => "BANG"
  | ident => "IDENT"
  | integer => "INTEGER"
  | float => "FLOAT"
  | path => "PATH"
  | pathFragment => "PATH_FRAGMENT"
  | searchPath => "SEARCH_PATH"
  | uri => "URI"
  | quote => "QUOTE"
  | indentedQuote => "IND_QUOTE"
  | stringContent => "STRING_CONTENT"
  | root => "ROOT"
  | error => "ERROR"
  | apply => "APPLY"
  | assert => "ASSERT"
  | attr => "ATTR"
  | attrPath => "ATTR_PATH"
  | attrPathValue => "ATTRPATH_VALUE"
  | attrSet => "ATTR_SET"
  | binaryOp => "BIN_OP"
  | dynamic => "DYNAMIC"
  | hasAttr => "HAS_ATTR"
  | ifElse => "IF_ELSE"
  | inherit => "INHERIT"
  | inheritFrom => "INHERIT_FROM"
  | inheritedName => "INHERITED_NAME"
  | interpolation => "INTERPOL"
  | interpolatedPath => "INTERPOLATED_PATH"
  | lambda => "LAMBDA"
  | letIn => "LET_IN"
  | list => "LIST"
  | literal => "LITERAL"
  | paren => "PAREN"
  | paramName => "PARAM_NAME"
  | pattern => "PATTERN"
  | patternBind => "PAT_BIND"
  | patternEntry => "PAT_ENTRY"
  | select => "SELECT"
  | string => "STRING"
  | unaryOp => "UNARY_OP"
  | var => "VAR"
  | withIn => "WITH"

def ofName? (s : String) : Option Kind := all.find? (·.name == s)

def isTrivia (k : Kind) : Bool := k matches whitespace | comment

/-- Tokens that may begin an attribute. -/
def startsAttr (k : Kind) : Bool := k matches ident | orKw | quote | dollarBrace

/-- Tokens that may begin the argument of an application. A keyword may not: `f let …` is an error.
-/
def startsArgument (k : Kind) : Bool :=
  k matches ident | integer | float | path | pathFragment | searchPath | uri | quote | indentedQuote
    | leftParen | leftBracket | leftBrace | recKw

/-- Tokens that close an enclosing construct: recovery leaves them to it. -/
def closes (k : Kind) : Bool :=
  k matches rightBrace | rightBracket | rightParen | semicolon | inKw | thenKw | elseKw | comma
    | quote | indentedQuote

/-- Nodes that stand for an expression. -/
def isExpr (k : Kind) : Bool :=
  k matches apply | assert | attrSet | binaryOp | hasAttr | ifElse | interpolatedPath | lambda
    | letIn | list | literal | paren | select | string | unaryOp | var | withIn

end Kind

end NixScope.Syntax
