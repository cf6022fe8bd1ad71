import NixScope.Syntax.Error
import NixScope.Syntax.Tree

/-!
Grammar rules as functions from a place in the token list to the trees they build there and the
place after them. A rule never fails: it reports problems at the place where it meets them and goes
on.
-/

namespace NixScope.Syntax

/-- A place in the token list: the tokens ahead, the byte offset of the first of them, and the
problems met so far, newest first. -/
structure Place where
  rest : List Token
  offset : Nat
  errors : List Error
  deriving DecidableEq, Repr

namespace Place

def start (tokens : List Token) : Place := ⟨tokens, 0, []⟩

def aheadIn : List Token → Nat → Option Kind
  | [], _ => none
  | t :: ts, n =>
    if t.isTrivia then aheadIn ts n
    else
      match n with
      | 0 => some t.kind
      | n + 1 => aheadIn ts n

/-- Kind of the token ahead, after `n` others. Blanks and comments do not count. -/
def ahead (n : Nat) (p : Place) : Option Kind := aheadIn p.rest n

def peek (p : Place) : Option Kind := p.ahead 0

def nextRangeIn : List Token → Nat → Range
  | [], offset => ⟨offset, offset⟩
  | t :: ts, offset =>
    if t.isTrivia then nextRangeIn ts (offset + t.width) else ⟨offset, offset + t.width⟩

/-- Range of the token ahead, or the empty range at the end of the text. -/
def nextRange (p : Place) : Range := nextRangeIn p.rest p.offset

/-- The nesting limit was hit. Nothing is ahead then, and no further problem is worth a report. -/
def gaveUp (p : Place) : Bool := p.errors.head?.any (·.problem == .nestedTooDeeply)

def report (problem : Problem) (p : Place) : Place :=
  if p.gaveUp then p else { p with errors := ⟨problem, p.nextRange⟩ :: p.errors }

end Place

abbrev Rule := Place → List Tree × Place

namespace Rule

def skip : Rule := fun p => ([], p)

def seq : List Rule → Rule
  | [] => skip
  | r :: rs => fun p =>
    let first := r p
    let others := seq rs first.2
    (first.1 ++ others.1, others.2)

def report (problem : Problem) : Rule := fun p => ([], p.report problem)

def leaf : Rule := fun p =>
  match p.rest with
  | [] => ([], p)
  | t :: rest => ([.leaf t], { p with rest, offset := p.offset + t.width })

def triviaIn : List Token → Nat → List Error → List Tree × Place
  | [], offset, errors => ([], ⟨[], offset, errors⟩)
  | t :: ts, offset, errors =>
    if t.isTrivia then
      let others := triviaIn ts (offset + t.width) errors
      (.leaf t :: others.1, others.2)
    else ([], ⟨t :: ts, offset, errors⟩)

def trivia : Rule := fun p => triviaIn p.rest p.offset p.errors

def token : Rule := seq [trivia, leaf]

/-- A node never begins with trivia: what stands before it goes to the node around it. -/
def node (kind : Kind) (r : Rule) : Rule := fun p =>
  let before := trivia p
  let inside := r before.2
  (before.1 ++ [.branch kind inside.1], inside.2)

/-- Puts the trees `left`, already built, under a node, followed by what the rule builds. -/
def wrap (kind : Kind) (left : List Tree) (r : Rule) : Rule := fun p =>
  let right := r p
  ([.branch kind (left ++ right.1)], right.2)

def onlyIf (condition : Place → Bool) (r : Rule) : Rule := fun p =>
  if condition p then r p else ([], p)

def when (kind : Kind) (r : Rule) : Rule := onlyIf (fun p => p.peek == some kind) r

def expect (kind : Kind) : Rule := fun p =>
  if p.peek = some kind then token p else report (.expected kind) p

def manyFrom (element : Place → Option Rule) : (clock : List Token) → Rule
  | [], p => ([], p)
  | _ :: clock, p =>
    match element p with
    | none => ([], p)
    | some r =>
      let first := r p
      let others := manyFrom element clock first.2
      (first.1 ++ others.1, others.2)

/-- Elements one after the other, as long as `element` has a rule for what is ahead. Each element
takes at least one token, so the tokens ahead count enough rounds. -/
def many (element : Place → Option Rule) : Rule := fun p => manyFrom element p.rest p

/-- A rule whose form depends on the trees of the rule before it. -/
def andThen (first : Rule) (second : List Tree → Rule) : Rule := fun p =>
  let a := first p
  second a.1 a.2

/-- All tokens up to the end, without trailing trivia. -/
def remaining : Rule := many fun p => p.peek.map fun _ => token

/-- Reports a problem and puts the token ahead under an `error` node. A token that closes an
enclosing construct stays. -/
def recover (problem : Problem) : Rule :=
  seq [report problem, onlyIf (fun p => p.peek.any (!·.closes)) (node .error token)]

/-- Ends the parse where the nesting limit is hit: the rest of the text goes under an `error` node.
-/
def giveUp : Rule := fun p =>
  if p.gaveUp then ([], p) else seq [report .nestedTooDeeply, node .error remaining] p

end Rule

end NixScope.Syntax
