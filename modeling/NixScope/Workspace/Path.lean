namespace NixScope

structure Path where
  text : String
  deriving Repr, Inhabited

namespace Path

inductive Component
  | root
  | current
  | parent
  | name (text : String)
  deriving DecidableEq, Repr

/-- What a piece between slashes stands for. Empty pieces and single dots lead nowhere. -/
def component? (piece : String) : Option Component :=
  if piece = "" ∨ piece = "." then none
  else if piece = ".." then some .parent
  else some (.name piece)

/-- A slash or a single dot counts only where the path begins with it. -/
def components (p : Path) : List Component :=
  let pieces := p.text.splitOn "/"
  let start :=
    if p.text.startsWith "/" then [.root]
    else if pieces.head? = some "." then [.current]
    else []
  start ++ pieces.filterMap component?

/-- Two spellings are the same path if they have the same components. -/
instance : BEq Path := ⟨fun p q => p.components == q.components⟩

end Path

end NixScope
