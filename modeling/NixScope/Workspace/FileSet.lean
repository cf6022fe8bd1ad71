import NixScope.Workspace.FileId
import NixScope.Workspace.Path
import NixScope.Workspace.Table

namespace NixScope

/-- Numbers for paths, and the texts of the files. A number is never given twice: a path that comes
back after its removal gets a new one. -/
structure FileSet where
  byPath : Table Path FileId
  byId : Table FileId Path
  texts : Table FileId String
  nextId : Nat
  deriving Repr

namespace FileSet

def empty : FileSet := ⟨.empty, .empty, .empty, 0⟩

def lookup (s : FileSet) (path : Path) : Option FileId := s.byPath.get? path

/-- The number of a path, a new one if it has none yet. -/
def fileId (s : FileSet) (path : Path) : FileId × FileSet :=
  match s.lookup path with
  | some id => (id, s)
  | none =>
    let id : FileId := ⟨s.nextId⟩
    (id, { s with byPath := s.byPath.insert path id, byId := s.byId.insert id path,
                  nextId := s.nextId + 1 })

/-- The path of a file in the spelling under which it became known. -/
def path? (s : FileSet) (file : FileId) : Option Path := s.byId.get? file

def setText (s : FileSet) (file : FileId) (text : String) : FileSet :=
  { s with texts := s.texts.insert file text }

def text? (s : FileSet) (file : FileId) : Option String := s.texts.get? file

def remove (s : FileSet) (file : FileId) : Bool × FileSet :=
  let texts := s.texts.swapErase file
  match s.path? file with
  | none => (false, { s with texts })
  | some path =>
    (true, { s with texts, byId := s.byId.swapErase file, byPath := s.byPath.swapErase path })

def size (s : FileSet) : Nat := s.byPath.size

def files (s : FileSet) : List FileId := s.byId.keys

end FileSet

end NixScope
