import NixScope.Text.Range

namespace NixScope

/-- A line and a byte column in it, both counted from zero. -/
structure Position where
  line : Nat
  col : Nat
  deriving DecidableEq, Repr, Inhabited

namespace Position

/-- Positions are shown counted from one. -/
def render (p : Position) : String := s!"{p.line + 1}:{p.col + 1}"

def compare (p q : Position) : Ordering :=
  (Ord.compare p.line q.line).then (Ord.compare p.col q.col)

def le (p q : Position) : Bool := (p.compare q).isLE

end Position

structure Lines where
  starts : List Nat
  length : Nat
  deriving DecidableEq, Repr, Inhabited

namespace Lines

/-- Offsets right after each newline of a text that itself starts at `offset`. -/
def breaks : (offset : Nat) → List Char → List Nat
  | _, [] => []
  | offset, c :: cs =>
    let next := offset + c.utf8Size
    if c = '\n' then next :: breaks next cs else breaks next cs

def of (text : String) : Lines := ⟨0 :: breaks 0 text.toList, text.utf8ByteSize⟩

def count (l : Lines) : Nat := l.starts.length

/-- An offset past the end counts as the end. -/
def position (l : Lines) (offset : Nat) : Position :=
  let offset := min offset l.length
  let line := (l.starts.takeWhile (· ≤ offset)).length - 1
  ⟨line, offset - l.starts.getD line 0⟩

def span (l : Lines) (r : Range) : Position × Position := (l.position r.start, l.position r.stop)

/-- Offsets are numbers of 32 bits, enough for every file of less than four GiB. -/
def modulus (l : Lines) : Nat := max UInt32.size (l.length + 1)

/-- The offset of a position, if the line exists and the file reaches that far. A sum beyond the
last offset goes on from zero, as where overflow is not checked. -/
def offset? (l : Lines) (p : Position) : Option Nat :=
  (l.starts[p.line]?.map fun start => (start + p.col) % l.modulus).filter (· ≤ l.length)

end Lines

end NixScope
