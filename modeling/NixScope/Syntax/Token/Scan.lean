import NixScope.Syntax.Kind

/-!
Scanners for one token of ordinary code. Each looks at the text ahead and gives the kind of the
token that starts there with the number of its characters.

The lexer's rules name two kinds of comments, up to the end of the line and between `/*` and `*/`.
The automaton that is generated from the rules never completes one of the second kind: it stops in
front of the slash of the first `*/`, or at the end of the text, and gives what it has read as an
error. The scanners do as the automaton does.
-/

namespace NixScope.Syntax.Scan

def isBlank (c : Char) : Bool := c == ' ' || c == '\t' || c == '\r' || c == '\n'

def isPathChar (c : Char) : Bool :=
  c.isAlphanum || c == '.' || c == '_' || c == '-' || c == '+'

/-- Characters of a search path, and of a path after its first interpolation. -/
def isPathBody (c : Char) : Bool := isPathChar c || c == '/'

def isIdentStart (c : Char) : Bool := c.isAlpha || c == '_'

def isIdentRest (c : Char) : Bool := c.isAlphanum || c == '_' || c == '\'' || c == '-'

def isSchemeChar (c : Char) : Bool := c.isAlphanum || c == '+' || c == '-' || c == '.'

def isUriChar (c : Char) : Bool :=
  c.isAlphanum || ['%', '/', '?', ':', '@', '&', '=', '+', '$', ',', '-', '_', '.', '!', '~', '*',
    '\''].contains c

/-- Length of the longest prefix that is a run of path characters, followed by any number of
segments, each a slash and at least one path character. -/
def segments : List Char → Nat
  | [] => 0
  | [c] => if isPathChar c then 1 else 0
  | c :: d :: cs =>
    if isPathChar c || (c == '/' && isPathChar d) then segments (d :: cs) + 1 else 0

/-- A home directory `~` has no name: only whole segments follow it. -/
def pathStem : List Char → Nat
  | '~' :: '/' :: cs => segments ('/' :: cs) + 1
  | '~' :: _ => 1
  | cs => segments cs

/-- Paths like `./a`, `../a/b`, `/abs`, `~/home` and `rel/ative` have a slash. -/
def path? (cs : List Char) : Option Nat :=
  let n := pathStem cs
  if (cs.take n).contains '/' then some n else none

/-- The part of a path before its first interpolation, as in `./a/${x}`, `./${x}` or `~/${x}`. -/
def pathStart? (cs : List Char) : Option Nat :=
  let n := pathStem cs
  let n := if ['/'].isPrefixOf (cs.drop n) then n + 1 else n
  if (cs.take n).contains '/' && ['$', '{'].isPrefixOf (cs.drop n) then some n else none

/-- A search path, as in `<nixpkgs/lib>`. -/
def searchPath? : List Char → Option Nat
  | '<' :: cs =>
    let n := (cs.takeWhile isPathBody).length
    if 0 < n && ['>'].isPrefixOf (cs.drop n) then some (n + 2) else none
  | _ => none

/-- A URI has a scheme. Something has to follow the colon: `x:` begins a lambda. -/
def uri? : List Char → Option Nat
  | [] => none
  | c :: cs =>
    let scheme := ((c :: cs).takeWhile isSchemeChar).length
    let body := (((c :: cs).drop (scheme + 1)).takeWhile isUriChar).length
    if c.isAlpha && [':'].isPrefixOf ((c :: cs).drop scheme) && 0 < body then
      some (scheme + 1 + body)
    else none

def keyword? : List Char → Option Kind
  | ['a', 's', 's', 'e', 'r', 't'] => some .assertKw
  | ['e', 'l', 's', 'e'] => some .elseKw
  | ['i', 'f'] => some .ifKw
  | ['i', 'n'] => some .inKw
  | ['i', 'n', 'h', 'e', 'r', 'i', 't'] => some .inheritKw
  | ['l', 'e', 't'] => some .letKw
  | ['o', 'r'] => some .orKw
  | ['r', 'e', 'c'] => some .recKw
  | ['t', 'h', 'e', 'n'] => some .thenKw
  | ['w', 'i', 't', 'h'] => some .withKw
  | _ => none

/-- Fixed spellings. One that begins with another stands before it. -/
def symbols : List (List Char × Kind) :=
  [(['.', '.', '.'], .ellipsis), (['.'], .dot),
    (['$', '{'], .dollarBrace), (['{'], .leftBrace), (['}'], .rightBrace),
    (['['], .leftBracket), ([']'], .rightBracket), (['('], .leftParen), ([')'], .rightParen),
    ([';'], .semicolon), ([':'], .colon), ([','], .comma), (['@'], .atSign), (['?'], .question),
    (['=', '='], .equal), (['='], .assign),
    (['+', '+'], .concat), (['+'], .plus), (['-', '>'], .implication), (['-'], .minus),
    (['*'], .star), (['/', '/'], .update), (['/'], .slash),
    (['!', '='], .notEqual), (['!'], .bang),
    (['<', '='], .lessEqual), (['<'], .less), (['>', '='], .moreEqual), (['>'], .more),
    (['&', '&'], .andAnd), (['|', '|'], .orOr),
    (['"'], .quote), (['\'', '\''], .indentedQuote)]

def symbol? (cs : List Char) : Option (Kind × Nat) :=
  (symbols.find? fun s => s.1.isPrefixOf cs).map fun s => (s.2, s.1.length)

/-- Length of the exponent of a float, or zero where none is complete. -/
def exponent : List Char → Nat
  | [] => 0
  | e :: cs =>
    let sign := if ['+'].isPrefixOf cs || ['-'].isPrefixOf cs then 1 else 0
    let digits := ((cs.drop sign).takeWhile Char.isDigit).length
    if (e == 'e' || e == 'E') && 0 < digits then 1 + sign + digits else 0

def number (cs : List Char) : Kind × Nat :=
  let whole := (cs.takeWhile Char.isDigit).length
  let fraction := ((cs.drop (whole + 1)).takeWhile Char.isDigit).length
  if ['.'].isPrefixOf (cs.drop whole) && 0 < fraction then
    let mantissa := whole + 1 + fraction
    (.float, mantissa + exponent (cs.drop mantissa))
  else (.integer, whole)

/-- Number of characters before the first `*/`, its star included; all if there is none. -/
def untilCommentEnd : List Char → Nat
  | [] => 0
  | '*' :: '/' :: _ => 1
  | _ :: cs => untilCommentEnd cs + 1

/-- The token of ordinary code that `c :: cs` starts with. A character that starts no token is an
error by itself. What opens as a block comment is an error up to, not including, the slash that
would close it, although there is a rule for such comments. -/
def plain (c : Char) (cs : List Char) : Kind × Nat :=
  if isBlank c then (.whitespace, (cs.takeWhile isBlank).length + 1)
  else if c == '#' then (.comment, (cs.takeWhile fun d => !(d == '\r' || d == '\n')).length + 1)
  else if isIdentStart c then
    let word := c :: cs.takeWhile isIdentRest
    ((keyword? word).getD .ident, word.length)
  else if c.isDigit then number (c :: cs)
  else if c == '/' && ['*'].isPrefixOf cs then (.error, untilCommentEnd (cs.drop 1) + 2)
  else (symbol? (c :: cs)).getD (.error, 1)

/-- Paths and URIs overlap with identifiers, numbers and operators, so they are tried first. -/
def code (c : Char) (cs : List Char) : Kind × Nat :=
  ((searchPath? (c :: cs)).map (Kind.searchPath, ·)
    <|> (pathStart? (c :: cs)).map (Kind.pathFragment, ·)
    <|> (path? (c :: cs)).map (Kind.path, ·)
    <|> (uri? (c :: cs)).map (Kind.uri, ·)).getD (plain c cs)

/-- Length of the content of a `"…"` string up to its closing quote or next interpolation. -/
def stringContent : List Char → Nat
  | [] => 0
  | '"' :: _ => 0
  | '$' :: '{' :: _ => 0
  | '$' :: '$' :: '{' :: cs => stringContent cs + 3
  | '\\' :: _ :: cs => stringContent cs + 2
  | _ :: cs => stringContent cs + 1

/-- Length of the content of a `''…''` string up to its closing quotes or next interpolation. -/
def indentedContent : List Char → Nat
  | [] => 0
  | '\'' :: '\'' :: '\'' :: cs => indentedContent cs + 3
  | '\'' :: '\'' :: '$' :: cs => indentedContent cs + 3
  | '\'' :: '\'' :: '\\' :: _ :: cs => indentedContent cs + 4
  | ['\'', '\'', '\\'] => 3
  | '\'' :: '\'' :: _ => 0
  | '$' :: '{' :: _ => 0
  | '$' :: '$' :: '{' :: cs => indentedContent cs + 3
  | _ :: cs => indentedContent cs + 1

end NixScope.Syntax.Scan
