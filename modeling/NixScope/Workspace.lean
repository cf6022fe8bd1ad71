import NixScope.Check.Checker
import NixScope.Editor.Document
import NixScope.Workspace.FileSet

namespace NixScope

/-- The open files at some moment. -/
abbrev Snapshot := Table FileId Document

/-- Diagnostics of a document: first where it is malformed, then what the checks find. -/
def Document.diagnostics (d : Document) (checks : Checks) (file : FileId) : List Diagnostic :=
  d.parse.errors.map (·.diagnostic file d.lines) ++ checks.run file d.lines d.root

namespace Snapshot

def diagnostics (s : Snapshot) (checks : Checks) (file : FileId) : List Diagnostic :=
  match s.get? file with
  | none => []
  | some d => d.diagnostics checks file

def allDiagnostics (s : Snapshot) (checks : Checks) : List (FileId × List Diagnostic) :=
  s.keys.map fun file => (file, diagnostics s checks file)

end Snapshot

inductive DiskEntry
  | missing
  | directory
  | unreadable (cause : String)
  | file (bytes : ByteArray)

/-- Why a file cannot be loaded. What the disk tells of any other trouble is passed on. -/
inductive LoadFailure
  | missing
  | directory
  | notText
  | other (cause : String)
  deriving DecidableEq, Repr

structure LoadError where
  path : Path
  failure : LoadFailure
  deriving Repr

def LoadFailure.message : LoadFailure → String
  | missing => "No such file or directory (os error 2)"
  | directory => "Is a directory (os error 21)"
  | notText => "stream did not contain valid UTF-8"
  | other cause => cause

def LoadError.message (e : LoadError) : String :=
  s!"failed to read {e.path.text}: {e.failure.message}"

def DiskEntry.text : DiskEntry → Except LoadFailure String
  | missing => .error .missing
  | directory => .error .directory
  | unreadable cause => .error (.other cause)
  | file bytes =>
    match String.fromUTF8? bytes with
    | some text => .ok text
    | none => .error .notText

structure Workspace where
  fileSet : FileSet
  documents : Snapshot
  deriving Repr

namespace Workspace

def empty : Workspace := ⟨.empty, .empty⟩

def setText (w : Workspace) (path : Path) (text : String) : FileId × Workspace :=
  let (file, fileSet) := w.fileSet.fileId path
  (file, ⟨fileSet.setText file text, w.documents.insert file (.of path text)⟩)

/-- Opens a file from disk. A file that cannot be read changes nothing. -/
def load (w : Workspace) (path : Path) (entry : DiskEntry) : Except LoadError FileId × Workspace :=
  match entry.text with
  | .error failure => (.error ⟨path, failure⟩, w)
  | .ok text =>
    let (file, w) := w.setText path text
    (.ok file, w)

/-- Closes a file, and tells whether it was open. -/
def remove (w : Workspace) (file : FileId) : Bool × Workspace :=
  (w.documents.contains file, ⟨(w.fileSet.remove file).2, w.documents.erase file⟩)

def lookup (w : Workspace) (path : Path) : Option FileId := w.fileSet.lookup path

/-- The files as they are now. Later changes do not reach a snapshot. -/
def snapshot (w : Workspace) : Snapshot := w.documents

end Workspace

end NixScope
