
namespace NixScope.Syntax.Quoted

/-- What a backslash and the given character stand for. -/
def escaped : Char → Char
  | 'n' => '\n'
  | 'r' => '\r'
  | 't' => '\t'
  | c => c

/-- A backslash at the very end stands for itself. -/
def decode : List Char → List Char
  | [] => []
  | '\\' :: c :: cs => escaped c :: decode cs
  | c :: cs => c :: decode cs

/-- Three quotes stand for two, and two quotes before a dollar for the dollar. An escape cut off at
the end stands for nothing. -/
def decodeIndented : List Char → List Char
  | [] => []
  | '\'' :: '\'' :: '\'' :: cs => '\'' :: '\'' :: decodeIndented cs
  | '\'' :: '\'' :: '$' :: cs => '$' :: decodeIndented cs
  | '\'' :: '\'' :: '\\' :: c :: cs => escaped c :: decodeIndented cs
  | ['\'', '\'', '\\'] => []
  | c :: cs => c :: decodeIndented cs

/-- How a character is written between double quotes. -/
def encodeChar : Char → List Char
  | '"' => ['\\', '"']
  | '\\' => ['\\', '\\']
  | '\n' => ['\\', 'n']
  | '\r' => ['\\', 'r']
  | '\t' => ['\\', 't']
  | '$' => ['\\', '$']
  | c => [c]

def encode (cs : List Char) : List Char := cs.flatMap encodeChar

end NixScope.Syntax.Quoted
