
namespace NixScope

structure Table (α β : Type) where
  entries : List (α × β)
  deriving DecidableEq, Repr, Inhabited

namespace Table

variable {α β : Type}

def empty : Table α β := ⟨[]⟩

def size (t : Table α β) : Nat := t.entries.length

def keys (t : Table α β) : List α := t.entries.map (·.1)

variable [BEq α]

def get? (t : Table α β) (key : α) : Option β := t.entries.lookup key

def contains (t : Table α β) (key : α) : Bool := (t.get? key).isSome

def replace (key : α) (value : β) : List (α × β) → List (α × β)
  | [] => []
  | (k, v) :: rest => if k == key then (k, value) :: rest else (k, v) :: replace key value rest

/-- A new key goes to the end; a known one keeps its place and its spelling. -/
def insert (t : Table α β) (key : α) (value : β) : Table α β :=
  if t.contains key then ⟨replace key value t.entries⟩ else ⟨t.entries ++ [(key, value)]⟩

/-- Removes an entry and keeps the order of the others. -/
def erase (t : Table α β) (key : α) : Table α β := ⟨t.entries.eraseP (·.1 == key)⟩

/-- Puts `last` in the place of the first entry with the given key. -/
def fill (key : α) (last : α × β) : List (α × β) → List (α × β)
  | [] => []
  | e :: rest => if e.1 == key then last :: rest else e :: fill key last rest

/-- Removes an entry and moves the last entry to its place. -/
def swapErase (t : Table α β) (key : α) : Table α β :=
  match t.entries.getLast? with
  | none => t
  | some last =>
    if !t.contains key then t
    else if last.1 == key then ⟨t.entries.dropLast⟩
    else ⟨fill key last t.entries.dropLast⟩

end Table

end NixScope
