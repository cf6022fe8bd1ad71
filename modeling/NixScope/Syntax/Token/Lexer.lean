import NixScope.Syntax.Token
import NixScope.Syntax.Token.Scan

namespace NixScope.Syntax

/-- What the text ahead is read as. An interpolation counts the braces opened in it, so that it ends
at the brace that closes it. Outside of all modes stands the code of the file itself. -/
inductive Mode
  | interpolation (braces : Nat)
  | string
  | indentedString
  | path
  deriving DecidableEq, Repr

namespace Mode

/-- The modes after a token of ordinary code. -/
def afterCode : Kind → List Mode → List Mode
  | .quote, modes => .string :: modes
  | .indentedQuote, modes => .indentedString :: modes
  | .pathFragment, modes => .path :: modes
  | .leftBrace, .interpolation n :: modes => .interpolation (n + 1) :: modes
  | .dollarBrace, .interpolation n :: modes => .interpolation (n + 1) :: modes
  | .rightBrace, .interpolation 0 :: modes => modes
  | .rightBrace, .interpolation (n + 1) :: modes => .interpolation n :: modes
  | _, modes => modes

/-- The first token of `c :: cs` as its kind and length, and the modes after it. A path ends where
neither an interpolation nor a character of it follows. -/
def next (c : Char) (cs : List Char) : List Mode → Kind × Nat × List Mode
  | [] =>
    let t := Scan.code c cs
    (t.1, t.2, afterCode t.1 [])
  | .interpolation n :: modes =>
    let t := Scan.code c cs
    (t.1, t.2, afterCode t.1 (.interpolation n :: modes))
  | .string :: modes =>
    if c == '"' then (.quote, 1, modes)
    else if ['$', '{'].isPrefixOf (c :: cs) then
      (.dollarBrace, 2, .interpolation 0 :: .string :: modes)
    else (.stringContent, Scan.stringContent (c :: cs), .string :: modes)
  | .indentedString :: modes =>
    if ['$', '{'].isPrefixOf (c :: cs) then
      (.dollarBrace, 2, .interpolation 0 :: .indentedString :: modes)
    else
      match Scan.indentedContent (c :: cs) with
      | 0 => (.indentedQuote, 2, modes)
      | n => (.stringContent, n, .indentedString :: modes)
  | .path :: modes =>
    if ['$', '{'].isPrefixOf (c :: cs) then
      (.dollarBrace, 2, .interpolation 0 :: .path :: modes)
    else if Scan.isPathBody c then
      (.pathFragment, ((c :: cs).takeWhile Scan.isPathBody).length, .path :: modes)
    else next c cs modes

end Mode

namespace Token

/-- The tokens of a text whose first `skipped` characters belong to a token already given. A token
has at least one character, whatever length its scanner gives. -/
def lexFrom : List Char → (skipped : Nat) → List Mode → List Token
  | [], _, _ => []
  | _ :: cs, n + 1, modes => lexFrom cs n modes
  | c :: cs, 0, modes =>
    match Mode.next c cs modes with
    | (kind, length, modes) =>
      ⟨kind, String.ofList (c :: cs.take (length - 1))⟩ :: lexFrom cs (length - 1) modes

def lex (text : String) : List Token := lexFrom text.toList 0 []

end Token

end NixScope.Syntax
